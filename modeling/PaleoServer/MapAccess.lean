/-
  Which clients get as far as a map.

  Nothing between a thread of the pool and mapnik catches an exception, so what mapnik throws
  while it works on a map leaves the thread. It matters who can make it work. Proved:
  `map_used_iff`. In a run of the server a handler of a connection comes to an operation on a map
  exactly when the bytes that have arrived on the connection begin with an accepted request. A
  client that sends anything else, in whatever pieces and whatever the others do, causes no
  operation on a map. (`box2d::init`, which is no such operation, runs as soon as the
  bounding box could be read, also for a request that is refused later.)
-/
import PaleoServer.ServerProgress

namespace PaleoServer

open Atomic Trace

variable {M : Mapnik}

/-- A handler of connection `k` is at an operation on a map. -/
def UsesMap (s : Server M) (k : Nat) : Prop :=
  ∃ t task, s.machine.running t = some task ∧ task.job = k ∧ task.code.Acts

/-- The bytes begin with an accepted request. -/
def AcceptedBytes (M : Mapnik) (bs : Bytes) : Prop :=
  ∃ r p g, Parsing.fresh.parse bs = (some true, r, p) ∧ Accepts M p.request g

/-! ## Handlers -/

theorem handleRequest_acts (req : Request) :
    (handleRequest M req).Acts ↔ ∃ g, Accepts M req g := by
  simp only [← readGetMap_ok_iff, handleRequest]
  rcases readGetMap M req with rep | g
  · constructor
    · exact fun h => h.elim
    · rintro ⟨g, hg⟩
      cases hg
  · exact ⟨fun _ => ⟨g, rfl⟩, fun _ => trivial⟩

/-- The reading handler works on the map for an accepted request only. -/
theorem handleRead_acts (c : Connection) (input : Bytes) :
    (c.handleRead M (some input)).Acts ↔
      ∃ r p g, c.parsing.parse input = (some true, r, p) ∧ Accepts M p.request g := by
  rcases hp : c.parsing.parse input with ⟨v, r, p⟩
  obtain ⟨d, hd, rfl⟩ := connection_parse_eq hp
  rcases v with _ | _ | _
  · simp only [Connection.handleRead, hd]
    constructor
    · exact fun h => h.elim
    · rintro ⟨_, _, _, h, -⟩
      cases h
  · simp only [Connection.handleRead, hd]
    constructor
    · exact fun h => h.elim
    · rintro ⟨_, _, _, h, -⟩
      cases h
  · simp only [Connection.handleRead, hd]
    refine (Prog.acts_bind ?_).trans ((handleRequest_acts d.parsing.request).trans ?_)
    · exact fun _ h => h
    · constructor
      · rintro ⟨g, hg⟩
        exact ⟨r, d.parsing, g, rfl, hg⟩
      · rintro ⟨_, _, g, h, hg⟩
        cases h
        exact ⟨g, hg⟩

/-- A handler that starts works on the map if its completion makes the bytes an accepted
    request. -/
theorem deliver_acts {stylesheet : M.Map} {bs : Bytes} {c : Connection} {ev : Completion}
    {code : Prog M.Map Connection} (h : Served stylesheet bs c)
    (hd : c.deliver M ev = some code) :
    code.Acts ↔ ∃ input, ev = .read (some input) ∧ AcceptedBytes M (bs ++ input) := by
  rcases ev with (_ | input) | error
  · simp only [Connection.deliver] at hd
    split at hd <;> cases hd
    constructor
    · exact fun h => h.elim
    · rintro ⟨_, h, -⟩
      cases h
  · simp only [Connection.deliver] at hd
    split at hd <;> cases hd
    rename_i hread
    obtain ⟨r, hparse⟩ := h.undecided hread
    rw [handleRead_acts]
    unfold AcceptedBytes
    constructor
    · rintro ⟨r', p, g, hp, hg⟩
      exact ⟨input, rfl, r', p, g, (Parsing.parse_append_none hparse input).trans hp, hg⟩
    · rintro ⟨_, e, r', p, g, hp, hg⟩
      cases e
      exact ⟨r', p, g, (Parsing.parse_append_none hparse input).symm.trans hp, hg⟩
  · simp only [Connection.deliver] at hd
    split at hd <;> cases hd
    constructor
    · exact fun h => h.elim
    · rintro ⟨_, h, -⟩
      cases h

/-- What comes later does not undo it. -/
theorem AcceptedBytes.append {bs : Bytes} (h : AcceptedBytes M bs) (cs : Bytes) :
    AcceptedBytes M (bs ++ cs) := by
  obtain ⟨r, p, g, hp, hg⟩ := h
  exact ⟨r ++ cs, p, g, Parsing.parse_append_some hp cs, hg⟩

/-! ## Runs -/

section Runs

variable {n : Nat} {stylesheet : M.Map} {s₀ s s' : Server M} {evs : List ServerEvent}

/-- The bytes that have arrived on `k` in a run. -/
def arrivedOn (k : Nat) (evs : List ServerEvent) : Bytes :=
  received k (evs.filterMap ServerEvent.arrival)

/-- A completion in a run: when its handler works on the map. -/
theorem complete_acts (hcreate : Server.create M n stylesheet = .ok s₀)
    (hrun : Run ServerStep s₀ evs s) {k : Nat} {ev : Completion}
    (h : ServerStep s (.complete k ev) s') :
    ∃ (c : Connection) (code : Prog M.Map Connection),
      s'.machine.running c.ioService = some ⟨k, c.map, code⟩ ∧
      (∀ t, t ≠ c.ioService → s'.machine.running t = s.machine.running t) ∧
      (code.Acts ↔ ∃ input, ev = .read (some input) ∧
        AcceptedBytes M (arrivedOn k evs ++ input)) := by
  have hsound : Sound n s := run_invariant (fun _ _ _ hs h => hs.step h) hrun
    (sound_create hcreate)
  obtain ⟨c, code, machine, hc, hd, hb, rfl⟩ := step_complete h
  obtain ⟨hidle, rfl⟩ := Machine.begin_iff.mp hb
  have hserved := (serialInvariant_settle hcreate hrun).served k c (hsound.1.started hc hd)
    (hsound.settle_idle hc hidle)
  exact ⟨c, code, Function.update_self .., fun t ht => Function.update_of_ne ht ..,
    deliver_acts hserved hd⟩

theorem arrivedOn_read (k : Nat) (evs : List ServerEvent) (input : Bytes) :
    arrivedOn k (evs ++ [.complete k (.read (some input))]) = arrivedOn k evs ++ input := by
  unfold arrivedOn
  rw [List.filterMap_append]
  refine (received_snoc k _ (.complete k (.read (some input)))).trans ?_
  rw [bytesFor_read]

/-- An event brings bytes, or nothing. -/
theorem arrivedOn_snoc (k : Nat) (evs : List ServerEvent) (ev : ServerEvent) :
    ∃ more, arrivedOn k (evs ++ [ev]) = arrivedOn k evs ++ more ∧
      (more ≠ [] → ev = .complete k (.read (some more))) := by
  rcases h : ev.arrival with _ | a
  · refine ⟨[], ?_, fun hne => absurd rfl hne⟩
    unfold arrivedOn
    rw [List.filterMap_append, List.filterMap_cons_none h]
    simp
  · have hsnoc : arrivedOn k (evs ++ [ev]) = arrivedOn k evs ++ a.bytesFor k := by
      unfold arrivedOn
      rw [List.filterMap_append, List.filterMap_cons_some h]
      exact received_snoc k _ a
    refine ⟨_, hsnoc, fun hne => ?_⟩
    cases ev with
    | accept error =>
      cases h
      exact absurd rfl hne
    | complete l ev =>
      cases h
      by_cases e : l = k
      · subst e
        rcases ev with (_ | input) | error
        · exact absurd rfl hne
        · rw [bytesFor_read]
        · exact absurd rfl hne
      · exact absurd (bytesFor_of_ne e ev) hne
    | advance t => cases h
    | finish t => cases h

/-- A handler works on the map only for accepted bytes. -/
theorem acts_accepted (hcreate : Server.create M n stylesheet = .ok s₀)
    (hrun : Run ServerStep s₀ evs s) :
    ∀ t task, s.machine.running t = some task → task.code.Acts →
      AcceptedBytes M (arrivedOn task.job evs) := by
  refine (run_history (p := []) (H := fun evs s => Run ServerStep s₀ evs s ∧
    ∀ t task, s.machine.running t = some task → task.code.Acts →
      AcceptedBytes M (arrivedOn task.job evs)) ?_ hrun ⟨rfl, ?_⟩).2
  · rintro evs s ev s' ⟨hrun, hacts⟩ h
    refine ⟨run_snoc.mpr ⟨s, hrun, h⟩, fun t task ht hact => ?_⟩
    obtain ⟨more, hmore, -⟩ := arrivedOn_snoc task.job evs ev
    -- what was running before has its bytes already
    have hkept : ∀ task', s.machine.running t = some task' → task'.code.Acts →
        task'.job = task.job → AcceptedBytes M (arrivedOn task.job (evs ++ [ev])) := by
      intro task' ht' hact' hjob
      rw [hmore, ← hjob]
      exact (hacts t task' ht' hact').append more
    cases ev with
    | accept error =>
      have hsound : Sound n s := run_invariant (fun _ _ _ hs h => hs.step h) hrun
        (sound_create hcreate)
      obtain ⟨_, accepts, _, rfl⟩ := hsound.1.step_accept h
      cases error <;> exact hkept task ht hact rfl
    | complete k ev =>
      obtain ⟨c, code, hself, hother, hiff⟩ := complete_acts hcreate hrun h
      by_cases e : t = c.ioService
      · subst e
        cases hself.symm.trans ht
        obtain ⟨input, rfl, haccepted⟩ := hiff.mp hact
        rw [arrivedOn_read]
        exact haccepted
      · exact hkept task ((hother t e).symm.trans ht) hact rfl
    | advance u =>
      obtain ⟨machine, ha, rfl⟩ := step_advance h
      obtain ⟨j, r, f, g, hu, rfl⟩ := Machine.advance_iff.mp ha
      by_cases e : t = u
      · subst e
        cases (Function.update_self t _ s.machine.running).symm.trans ht
        exact hkept _ hu trivial rfl
      · exact hkept task ((Function.update_of_ne e ..).symm.trans ht) hact rfl
    | finish u =>
      obtain ⟨k, c, machine, hf, rfl⟩ := step_finish h
      obtain ⟨r, hu, rfl⟩ := Machine.finish_iff.mp hf
      by_cases e : t = u
      · subst e
        cases (Function.update_self t none s.machine.running).symm.trans ht
      · exact hkept task ((Function.update_of_ne e ..).symm.trans ht) hact rfl
  · intro t task ht
    rw [quiet_create hcreate] at ht
    cases ht

/-- Once a request is accepted, its handler has worked on the map. -/
theorem accepted_acts (hcreate : Server.create M n stylesheet = .ok s₀)
    (hrun : Run ServerStep s₀ evs s) :
    ∀ k, AcceptedBytes M (arrivedOn k evs) →
      ∃ pre t, pre <+: evs ∧ Run ServerStep s₀ pre t ∧ UsesMap t k := by
  refine (run_history (p := []) (H := fun evs s => Run ServerStep s₀ evs s ∧
    ∀ k, AcceptedBytes M (arrivedOn k evs) →
      ∃ pre t, pre <+: evs ∧ Run ServerStep s₀ pre t ∧ UsesMap t k) ?_ hrun ⟨rfl, ?_⟩).2
  · rintro evs s ev s' ⟨hrun, hused⟩ h
    have hrun' := run_snoc.mpr ⟨s, hrun, h⟩
    refine ⟨hrun', fun k haccepted => ?_⟩
    by_cases hbefore : AcceptedBytes M (arrivedOn k evs)
    · obtain ⟨pre, t, hpre, ht⟩ := hused k hbefore
      exact ⟨pre, t, hpre.trans (List.prefix_append ..), ht⟩
    · obtain ⟨more, hmore, hread⟩ := arrivedOn_snoc k evs ev
      rw [hmore] at haccepted
      have hne : more ≠ [] := by
        rintro rfl
        rw [List.append_nil] at haccepted
        exact hbefore haccepted
      obtain rfl := hread hne
      -- the handler of this read
      obtain ⟨c, code, hself, _, hiff⟩ := complete_acts hcreate hrun h
      exact ⟨_, s', List.prefix_rfl, hrun', c.ioService, _, hself, rfl,
        hiff.mpr ⟨more, rfl, haccepted⟩⟩
  · rintro k ⟨r, p, g, hp, _⟩
    cases (Parsing.parse_eq_iff ..).mp hp

end Runs

/-- **Who gets a map to work**: in a run of the server a handler of connection `k` has been at an
    operation on a map exactly when the bytes that have arrived on `k` begin with an accepted
    request. -/
theorem map_used_iff (M : Mapnik) (n : Nat) (stylesheet : M.Map) (s₀ s : Server M)
    (evs : List ServerEvent) (hcreate : Server.create M n stylesheet = .ok s₀)
    (hrun : Run ServerStep s₀ evs s) (k : Nat) :
    (∃ pre t, pre <+: evs ∧ Run ServerStep s₀ pre t ∧ UsesMap t k) ↔
      AcceptedBytes M (arrivedOn k evs) := by
  constructor
  · rintro ⟨pre, t, ⟨rest, rfl⟩, hpre, u, task, hu, rfl, hact⟩
    have haccepted := acts_accepted hcreate hpre u task hu hact
    unfold arrivedOn received at haccepted ⊢
    rw [List.filterMap_append, List.flatMap_append]
    exact haccepted.append _
  · exact accepted_acts hcreate hrun k

/-- A client that asks for the start page causes no operation on a map. -/
theorem map_used_iff_sample :
    ∃ s : Server .sample, Run ServerStep (Server.initial .sample 2 sampleMap)
        [.accept false, .complete 0 (.read (some (bytes "GET / HTTP/1.0\r\n\r\n")))] s ∧
      ¬ ∃ pre t, pre <+: [.accept false,
          .complete 0 (.read (some (bytes "GET / HTTP/1.0\r\n\r\n")))] ∧
        Run ServerStep (Server.initial .sample 2 sampleMap) pre t ∧ UsesMap t 0 := by
  obtain ⟨s, hrun⟩ : ∃ s : Server .sample, Run ServerStep (Server.initial .sample 2 sampleMap)
      [.accept false, .complete 0 (.read (some (bytes "GET / HTTP/1.0\r\n\r\n")))] s :=
    ⟨_, _, rfl, _, rfl, rfl⟩
  refine ⟨s, hrun, fun hused => ?_⟩
  obtain ⟨r, p, g, hp, hg⟩ := (map_used_iff .sample 2 sampleMap _ s _
    (create_eq .sample (by decide) sampleMap) hrun 0).mp hused
  have hrequest : p.request = ⟨bytes "GET", bytes "/", some 1, some 0, []⟩ := by
    have hparse : (PaleoServer.parse (.methodStart, .empty)
        (bytes "GET / HTTP/1.0\r\n\r\n")).toOption.map (fun x => x.2.2.2) =
        some ⟨bytes "GET", bytes "/", some 1, some 0, []⟩ := by decide +kernel
    have harrived : arrivedOn 0 [.accept false,
        .complete 0 (.read (some (bytes "GET / HTTP/1.0\r\n\r\n")))] =
        bytes "GET / HTTP/1.0\r\n\r\n" := arrivedOn_read 0 [.accept false] _
    rw [harrived, Parsing.parse_eq_iff] at hp
    change PaleoServer.parse (.methodStart, .empty) _ = _ at hp
    rw [hp] at hparse
    exact Option.some.inj hparse
  have hread := (readGetMap_ok_iff p.request g).mpr hg
  rw [hrequest] at hread
  cases hread

end PaleoServer

/-
  Connections do not see each other. Handlers of different io_services change maps at the same
  time, one atomic operation after another, yet every reply is the one the handler gives to that
  request alone on a map freshly loaded from the stylesheet (`replies_isolated`).

  Two facts meet here. A map is used by one io_service only: connection `k` is bound to map
  `k % n` and to io_service `(k + 1) % n`, so map `m` belongs to io_service `(m + 1) % n`
  (`Machine.Confined`). And on a map that earlier requests have used, a request gets the
  reply of a fresh one (`SameStylesheet.reply_eq`).
-/
import PaleoServer.ConnectionProtocol
import PaleoServer.Server

namespace PaleoServer

open Atomic Trace

variable {M : Mapnik}

/-- What was sent for a request is what the handler answers on a map as it was loaded. -/
def Isolated (stylesheet : M.Map) (c : Connection) : Prop :=
  ∀ req rep, .handleRequest req ∈ c.log → .asyncWrite rep ∈ c.log →
    rep = ((handleRequest M req).run stylesheet).1

theorem Quiet.isolated {c : Connection} (h : Quiet c.log) (stylesheet : M.Map) :
    Isolated stylesheet c :=
  fun _ _ _ hrep => absurd hrep (h.not_sent _)

theorem isolated_create (stylesheet : M.Map) (ioService map : Nat) :
    Isolated stylesheet (Connection.create ioService map) :=
  fun _ _ h => nomatch h

/-- A connection whose log grows by other actions. -/
theorem Isolated.append {stylesheet : M.Map} {c d : Connection} {as : List Action}
    (h : Isolated stylesheet c) (hlog : d.log = c.log ++ as) (has : Quiet as) :
    Isolated stylesheet d := by
  intro req rep hreq hrep
  rw [hlog] at hreq hrep
  rcases List.mem_append.mp hreq with hreq | hreq
  · rcases List.mem_append.mp hrep with hrep | hrep
    · exact h req rep hreq hrep
    · exact absurd hrep (has.not_sent rep)
  · exact absurd rfl ((has _ hreq).1 req)

/-! ## One handler -/

theorem run_handleRead_same {m m' : M.Map} (h : SameStylesheet m m') (c : Connection)
    (result : Option Bytes) :
    ((c.handleRead M result).run m').1 = ((c.handleRead M result).run m).1 := by
  rcases result with _ | input
  · rfl
  · rw [run_handleRead, run_handleRead]
    rcases c.parse input with ⟨_ | _ | _, d⟩
    · rfl
    · rfl
    · simp only [h.reply_eq d.parsing.request]

/-- What a handler makes of its connection is the same on all maps loaded from the stylesheet. -/
theorem run_deliver_same {m m' : M.Map} (h : SameStylesheet m m') {c : Connection}
    {ev : Completion} {code : Prog M.Map Connection} (hd : c.deliver M ev = some code) :
    (code.run m').1 = (code.run m).1 := by
  cases ev with
  | read result =>
    simp only [Connection.deliver] at hd
    split at hd <;> cases hd
    exact run_handleRead_same h ..
  | write error =>
    simp only [Connection.deliver] at hd
    split at hd <;> cases hd
    rfl

/-- The reading handler alone on a map that was loaded from the stylesheet. -/
theorem run_handleRead_isolated {stylesheet m : M.Map} (hm : SameStylesheet stylesheet m)
    {c : Connection} (hquiet : Quiet c.log) (input : Bytes) :
    Isolated stylesheet ((c.handleRead M (some input)).run m).1 ∧
      SameStylesheet stylesheet ((c.handleRead M (some input)).run m).2 := by
  have hquiet' := hquiet.parse input
  rw [run_handleRead]
  rcases hp : c.parse input with ⟨_ | _ | _, d⟩
  · rw [hp] at hquiet'
    exact ⟨(hquiet'.append quiet_asyncReadSome).isolated _ (c := d.asyncReadSome), hm⟩
  · rw [hp] at hquiet'
    refine ⟨fun req rep hreq _ => ?_, hm⟩
    rcases List.mem_append.mp hreq with hreq | hreq
    · exact absurd rfl ((hquiet' _ hreq).1 req)
    · simp at hreq
  · rw [hp] at hquiet'
    refine ⟨fun req rep hreq hrep => ?_, hm.trans (sameStylesheet_handleRequest _ m)⟩
    change .handleRequest req ∈ d.log ++ [.handleRequest d.parsing.request] ++ [_, _] at hreq
    change .asyncWrite rep ∈ d.log ++ [.handleRequest d.parsing.request] ++ [_, _] at hrep
    have hreq' : req = d.parsing.request := by
      rcases List.mem_append.mp hreq with hreq | hreq
      · rcases List.mem_append.mp hreq with hreq | hreq
        · exact absurd rfl ((hquiet' _ hreq).1 req)
        · simpa using hreq
      · simp at hreq
    have hrep' : rep = ((handleRequest M d.parsing.request).run m).1 := by
      rcases List.mem_append.mp hrep with hrep | hrep
      · rcases List.mem_append.mp hrep with hrep | hrep
        · exact absurd hrep (hquiet'.not_sent rep)
        · simp at hrep
      · simpa using hrep
    rw [hreq', hrep', hm.reply_eq]

/-- Any handler of a connection, alone on a map that was loaded from the stylesheet. -/
theorem run_deliver_isolated {stylesheet m : M.Map} (hm : SameStylesheet stylesheet m)
    {c : Connection} {p : Phase} (ht : Tracks c p) (hc : Isolated stylesheet c)
    {ev : Completion} {code : Prog M.Map Connection} (hd : c.deliver M ev = some code) :
    Isolated stylesheet (code.run m).1 ∧ SameStylesheet stylesheet (code.run m).2 := by
  rcases ev with (_ | input) | error
  · simp only [Connection.deliver] at hd
    split at hd <;> cases hd
    exact ⟨hc.append (d := c.complete .readSome (.readCompleted true)) rfl
      (quiet_readCompleted true), hm⟩
  · cases ht with
    | reading hpend _ hquiet =>
      simp only [Connection.deliver, hpend, List.mem_singleton, if_true, Option.some.injEq] at hd
      subst hd
      exact run_handleRead_isolated hm (c := c.complete .readSome (.readCompleted false))
        (hquiet.append (quiet_readCompleted false)) input
    | writing hpend => simp [Connection.deliver, hpend] at hd
    | closed hpend => simp [Connection.deliver, hpend] at hd
  · simp only [Connection.deliver] at hd
    split at hd <;> cases hd
    cases error with
    | true =>
      refine ⟨hc.append (d := c.complete .write (.writeCompleted true)) rfl ?_, hm⟩
      intro a ha
      rw [List.mem_singleton.mp ha]
      exact ⟨by simp, by simp⟩
    | false =>
      refine ⟨hc.append (d := (c.complete .write (.writeCompleted false)).record [.shutdown])
        (List.append_assoc c.log [.writeCompleted false] [.shutdown]) ?_, hm⟩
      intro a ha
      rcases List.mem_cons.mp ha with rfl | ha
      · exact ⟨by simp, by simp⟩
      · rw [List.mem_singleton.mp ha]
        exact ⟨by simp, by simp⟩

/-! ## All of them -/

/-- Every connection is isolated, every running handler will leave its connection so, and every
    map that is not in use is one that was loaded from the stylesheet. -/
structure IsolationInvariant (n : Nat) (stylesheet : M.Map) (s : Server M) : Prop where
  connections : ∀ (k : Nat) (c : Connection), s.connections[k]? = some c → Isolated stylesheet c
  maps : s.machine.Confined (fun m => (m + 1) % n) (SameStylesheet stylesheet)
    fun _ c => Isolated stylesheet c

theorem isolationInvariant_create {n : Nat} {stylesheet : M.Map} {s : Server M}
    (h : Server.create M n stylesheet = .ok s) : IsolationInvariant n stylesheet s := by
  rcases Nat.eq_zero_or_pos n with rfl | hn
  · rw [create_zero] at h
    cases h
  · rw [create_eq M hn] at h
    cases h
    refine ⟨fun k c hc => ?_, Machine.confined_init _ fun _ => .refl _⟩
    have hmem := List.mem_of_getElem? hc
    rw [List.mem_singleton.mp hmem]
    exact isolated_create _ _ _

theorem IsolationInvariant.accepted {n : Nat} {stylesheet : M.Map} {s : Server M}
    (hs : Invariant n s) (hi : IsolationInvariant n stylesheet s) :
    IsolationInvariant n stylesheet (s.accepted n) := by
  refine ⟨fun k c hc => ?_, hi.maps⟩
  have hmem := List.mem_of_getElem? hc
  rcases List.mem_append.mp hmem with hmem | hmem
  · obtain ⟨l, hl⟩ := List.mem_iff_getElem?.mp hmem
    by_cases e : s.newConnection = l
    · subst e
      rw [List.getElem?_modify_eq, hs.waiting] at hl
      cases hl
      exact (quiet_asyncReadSome).isolated _
    · rw [List.getElem?_modify_ne _ _ e] at hl
      exact hi.connections l c hl
  · rw [List.mem_singleton.mp hmem]
    exact isolated_create _ _ _

theorem IsolationInvariant.step {n : Nat} {stylesheet : M.Map} {s s' : Server M}
    {ev : ServerEvent} (hs : Invariant n s) (hi : IsolationInvariant n stylesheet s)
    (h : ServerStep s ev s') : IsolationInvariant n stylesheet s' := by
  cases ev with
  | accept error =>
    obtain ⟨k, accepts, _, rfl⟩ := hs.step_accept h
    have hi' : IsolationInvariant n stylesheet { s with accepts } := ⟨hi.connections, hi.maps⟩
    split
    · exact hi'
    · exact hi'.accepted (hs.withAccepts accepts)
  | complete k ev =>
    obtain ⟨c, code, machine, hc, hd, hb, rfl⟩ := step_complete h
    obtain ⟨hio, hmap⟩ := hs.binding hc
    obtain ⟨evs, hrun⟩ := hs.lived k c (hs.started hc hd) hc
    obtain ⟨p, _, ht⟩ := log_follows_protocol hrun
    have howner : (c.map + 1) % n = c.ioService := by
      rw [hmap, hio, Nat.mod_add_mod]
    refine ⟨hi.connections, Machine.confined_begin hi.maps howner (fun m hm => ?_) hb⟩
    exact run_deliver_isolated hm ht (hi.connections k c hc) hd
  | advance t =>
    obtain ⟨machine, ha, rfl⟩ := step_advance h
    exact ⟨hi.connections, Machine.confined_advance hi.maps ha⟩
  | finish t =>
    obtain ⟨k, c, machine, hf, rfl⟩ := step_finish h
    obtain ⟨hc, hmaps⟩ := Machine.confined_finish hi.maps hf
    refine ⟨fun l d hd => ?_, hmaps⟩
    by_cases e : k = l
    · subst e
      rw [List.getElem?_set_self' ] at hd
      rcases hk : s.connections[k]? with _ | c'
      · rw [hk] at hd
        cases hd
      · rw [hk] at hd
        cases hd
        exact hc
    · rw [List.getElem?_set_ne e] at hd
      exact hi.connections l d hd

/-- **Isolation**: whatever the size of the pool, the connections, their requests and the
    interleaving, the reply sent for a request is the one `handle_request` gives to it alone on
    a freshly loaded map. -/
theorem replies_isolated (M : Mapnik) (n : Nat) (stylesheet : M.Map) (s : Server M)
    (hreach : Reachable n stylesheet s) (c : Connection) (hc : c ∈ s.connections)
    (req : Request) (rep : Reply) (hreq : .handleRequest req ∈ c.log)
    (hrep : .asyncWrite rep ∈ c.log) : rep = ((handleRequest M req).run stylesheet).1 := by
  obtain ⟨s₀, evs, hcreate, hrun⟩ := hreach
  have hinv : Invariant n s ∧ IsolationInvariant n stylesheet s := by
    refine run_invariant (I := fun s => Invariant n s ∧ IsolationInvariant n stylesheet s)
      ?_ hrun ⟨invariant_create hcreate, isolationInvariant_create hcreate⟩
    rintro s ev s' ⟨hs, hi⟩ h
    exact ⟨hs.step h, hi.step hs h⟩
  obtain ⟨k, hk⟩ := List.mem_iff_getElem?.mp hc
  exact hinv.2.connections k c hk req rep hreq hrep

/-- The second and the third client are served at the same time, the third on the map that the
    first has used. -/
theorem replies_isolated_sample :
    ∃ (s : Server .sample) (c₁ c₂ : Connection),
      Run ServerStep (Server.initial .sample 2 sampleMap) (bothAtWork ++ bothEnd) s ∧
      s.connections[1]? = some c₁ ∧ c₁.Answered sampleRequest sampleReply ∧ c₁.map = 1 ∧
      s.connections[2]? = some c₂ ∧ c₂.Answered riversRequest riversReply ∧ c₂.map = 0 ∧
      sampleReply = ((handleRequest .sample sampleRequest).run sampleMap).1 ∧
      riversReply = ((handleRequest .sample riversRequest).run sampleMap).1 := by
  obtain ⟨r, s, c₁, c₂, hwork, hend, hc₁, h₁, hc₂, h₂, hmap₁, hmap₂, _⟩ := three_clients
  have hrun := run_append.mpr ⟨r, hwork, hend⟩
  have hreach : Reachable 2 sampleMap s := ⟨_, _, create_eq .sample (by decide) sampleMap, hrun⟩
  exact ⟨s, c₁, c₂, hrun, hc₁, h₁, hmap₁, hc₂, h₂, hmap₂,
    replies_isolated .sample 2 sampleMap s hreach c₁ (List.mem_of_getElem? hc₁) _ _ h₁.1 h₁.2,
    replies_isolated .sample 2 sampleMap s hreach c₂ (List.mem_of_getElem? hc₂) _ _ h₂.1 h₂.2⟩

end PaleoServer

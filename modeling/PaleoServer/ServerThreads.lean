/-
  Which thread touches what. There is no lock in the server: it relies on the io_service of a
  connection being the only one that runs handlers for it and for its map (`Placed`).

  Proved: `events_commute`. Two events of different io_services that are both possible in a
  reachable state stay possible after each other, whichever is first, and lead to one state.
-/
import PaleoServer.Lib.Serial
import PaleoServer.Server

namespace PaleoServer

open Atomic Trace

variable {M : Mapnik}

/-- The io_service whose connections use a map, in a server of `n` io_services. -/
def mapThread (n map : Nat) : Nat := (map + 1) % n

/-- The handlers of connection `k` run on its io_service and use its map. -/
def Placed (n : Nat) (s : Server M) : Prop :=
  ∀ t task, s.machine.running t = some task →
    t = (task.job + 1) % n ∧ task.resource = task.job % n

theorem Placed.owned {n : Nat} {s : Server M} (h : Placed n s) :
    s.machine.Owned (mapThread n) := by
  intro t task ht
  obtain ⟨hthread, hmap⟩ := h t task ht
  unfold mapThread
  rw [hmap, hthread, Nat.mod_add_mod]

/-- Only connections that have been started have handlers. -/
theorem Invariant.job_lt {n : Nat} {s : Server M} (hs : Invariant n s) {t : Nat}
    {task : Task Nat Nat M.Map Connection} (h : s.machine.running t = some task) :
    task.job < s.newConnection := by
  have hret := Prog.returns_run task.code (s.machine.store task.resource)
  exact (hs.handlers t task h _ hret).1

theorem placed_create {n : Nat} {stylesheet : M.Map} {s : Server M}
    (h : Server.create M n stylesheet = .ok s) : Placed n s := by
  rcases Nat.eq_zero_or_pos n with rfl | hn
  · rw [create_zero] at h
    cases h
  · rw [create_eq M hn] at h
    cases h
    intro t task ht
    cases ht

theorem Placed.step {n : Nat} {s s' : Server M} {ev : ServerEvent} (hs : Invariant n s)
    (hp : Placed n s) (h : ServerStep s ev s') : Placed n s' := by
  cases ev with
  | accept error =>
    obtain ⟨k, accepts, _, rfl⟩ := hs.step_accept h
    cases error <;> exact hp
  | complete k ev =>
    obtain ⟨c, code, machine, hc, hd, hb, rfl⟩ := step_complete h
    obtain ⟨hio, hmap⟩ := hs.binding hc
    obtain ⟨-, rfl⟩ := Machine.begin_iff.mp hb
    intro t task ht
    by_cases e : t = c.ioService
    · subst e
      cases (Function.update_self c.ioService _ s.machine.running).symm.trans ht
      exact ⟨hio, hmap⟩
    · exact hp t task ((Function.update_of_ne e ..).symm.trans ht)
  | advance u =>
    obtain ⟨machine, ha, rfl⟩ := step_advance h
    obtain ⟨j, r, f, g, hu, rfl⟩ := Machine.advance_iff.mp ha
    intro t task ht
    by_cases e : t = u
    · subst e
      cases (Function.update_self t _ s.machine.running).symm.trans ht
      have hplaced := hp t _ hu
      exact hplaced
    · exact hp t task ((Function.update_of_ne e ..).symm.trans ht)
  | finish u =>
    obtain ⟨k, c, machine, hf, rfl⟩ := step_finish h
    obtain ⟨r, _, rfl⟩ := Machine.finish_iff.mp hf
    intro t task ht
    by_cases e : t = u
    · subst e
      cases (Function.update_self t none s.machine.running).symm.trans ht
    · exact hp t task ((Function.update_of_ne e ..).symm.trans ht)

/-- What holds in every reachable state, as far as threads are concerned. -/
def Sound (n : Nat) (s : Server M) : Prop := Invariant n s ∧ Placed n s

theorem sound_create {n : Nat} {stylesheet : M.Map} {s : Server M}
    (h : Server.create M n stylesheet = .ok s) : Sound n s :=
  ⟨invariant_create h, placed_create h⟩

theorem Sound.step {n : Nat} {s s' : Server M} {ev : ServerEvent} (hs : Sound n s)
    (h : ServerStep s ev s') : Sound n s' :=
  ⟨hs.1.step h, hs.2.step hs.1 h⟩

theorem Reachable.sound {n : Nat} {stylesheet : M.Map} {s : Server M}
    (h : Reachable n stylesheet s) : Sound n s := by
  obtain ⟨s₀, evs, hcreate, hrun⟩ := h
  exact run_invariant (fun _ _ _ hs h => hs.step h) hrun (sound_create hcreate)

/-! ## Handlers -/

/-- The io_service on which an event takes place. -/
def Server.thread (s : Server M) : ServerEvent → Option Nat
  | .accept _ => some s.acceptor
  | .complete k _ => s.connections[k]?.map (·.ioService)
  | .advance t => some t
  | .finish t => some t

/-- The connections after a thread has moved: a handler that has ended writes its own back. -/
def writeBack (o : Option (Nat × Connection)) (connections : List Connection) :
    List Connection :=
  match o with
  | none => connections
  | some (k, c) => connections.set k c

/-- The two servers have the same started connections on the io_service `t`. -/
def SameOn (t : Nat) (s r : Server M) : Prop :=
  ∀ k c, k < s.newConnection → s.connections[k]? = some c → c.ioService = t →
    r.connections[k]? = some c

/-- An event other than an accept is a move of its thread. What it needs of the server is the
    machine and the connections of that thread. -/
theorem step_move {n : Nat} {s s' : Server M} {ev : ServerEvent} (hs : Sound n s)
    (h : ServerStep s ev s') (hev : ∀ error, ev ≠ .accept error) :
    ∃ t m o machine, s.thread ev = some t ∧ s.machine.move t m = some (o, machine) ∧
      s' = { s with machine, connections := writeBack o s.connections } ∧
      (∀ k c, o = some (k, c) → k < s.newConnection ∧ t = (k + 1) % n) ∧
      ∀ (r : Server M) machine', SameOn t s r → r.machine.move t m = some (o, machine') →
        ServerStep r ev { r with
          machine := machine', connections := writeBack o r.connections } := by
  cases ev with
  | accept error => exact absurd rfl (hev error)
  | complete k ev =>
    obtain ⟨c, code, machine, hc, hd, hb, rfl⟩ := step_complete h
    have hlt := hs.1.started hc hd
    refine ⟨c.ioService, .begin ⟨k, c.map, code⟩, none, machine, ?_, Machine.move_begin.mp hb,
      rfl, ?_, ?_⟩
    · show s.connections[k]?.map (·.ioService) = some c.ioService
      rw [hc]
      rfl
    · intro _ _ e
      cases e
    · intro r machine' hsame hm
      have hc' := hsame k c hlt hc rfl
      have hb' := Machine.move_begin.mpr hm
      simp only [ServerStep, Server.step, hc', hd, hb', Option.map_some]
      rfl
  | advance t =>
    obtain ⟨machine, ha, rfl⟩ := step_advance h
    refine ⟨t, .advance, none, machine, rfl, Machine.move_advance.mp ha, rfl, ?_, ?_⟩
    · intro _ _ e
      cases e
    · intro r machine' _ hm
      have ha' := Machine.move_advance.mpr hm
      simp only [ServerStep, Server.step, ha', Option.map_some]
      rfl
  | finish t =>
    obtain ⟨k, c, machine, hf, rfl⟩ := step_finish h
    refine ⟨t, .finish, some (k, c), machine, rfl, Machine.move_finish.mp hf, rfl, ?_, ?_⟩
    · intro k' c' e
      cases e
      obtain ⟨r, ht, _⟩ := Machine.finish_iff.mp hf
      exact ⟨hs.1.job_lt ht, (hs.2 t _ ht).1⟩
    · intro r machine' _ hm
      have hf' := Machine.move_finish.mpr hm
      simp only [ServerStep, Server.step, hf', Option.map_some]
      rfl

/-- A connection written back is not one of another thread. -/
theorem sameOn_writeBack {n : Nat} {s : Server M} (hs : Sound n s) {t u : Nat} (hne : t ≠ u)
    {o : Option (Nat × Connection)} (ho : ∀ k c, o = some (k, c) → t = (k + 1) % n)
    (machine : Machine Nat Nat Nat M.Map Connection) :
    SameOn u s { s with machine, connections := writeBack o s.connections } := by
  intro l d _ hd hu
  rcases o with _ | ⟨k, c⟩
  · exact hd
  · have hkl : k ≠ l := by
      rintro rfl
      have := (hs.1.binding hd).1
      have := ho k c rfl
      omega
    show (s.connections.set k c)[l]? = some d
    rw [List.getElem?_set_ne hkl]
    exact hd

theorem writeBack_comm {n t u : Nat} (hne : t ≠ u) {o o' : Option (Nat × Connection)}
    (ho : ∀ k c, o = some (k, c) → t = (k + 1) % n)
    (ho' : ∀ k c, o' = some (k, c) → u = (k + 1) % n) (connections : List Connection) :
    writeBack o' (writeBack o connections) = writeBack o (writeBack o' connections) := by
  rcases o with _ | ⟨k, c⟩
  · rfl
  · rcases o' with _ | ⟨k', c'⟩
    · rfl
    · have hk : k ≠ k' := by
        rintro rfl
        have := ho k c rfl
        have := ho' k c' rfl
        omega
      exact List.set_comm c c' hk

/-! ## Accepts -/

/-- An accept completes on an idle acceptor. -/
theorem Invariant.step_accept_iff {n : Nat} {s s' : Server M} (hs : Invariant n s)
    (error : Bool) : ServerStep s (.accept error) s' ↔
      ∃ k accepts, s.accepts = k :: accepts ∧ s.machine.running s.acceptor = none ∧
        s' = if error then { s with accepts } else Server.accepted n { s with accepts } := by
  constructor
  · intro h
    obtain ⟨k, accepts, hacc, e⟩ := hs.step_accept h
    refine ⟨k, accepts, hacc, ?_, e⟩
    unfold ServerStep Server.step at h
    rcases hidle : s.machine.running s.acceptor with _ | l
    · rfl
    · simp only [hacc, hidle] at h
      cases h
  · rintro ⟨k, accepts, hacc, hidle, rfl⟩
    unfold ServerStep Server.step
    simp only [hacc, hidle]
    cases error with
    | true => rfl
    | false =>
      rw [handleAccept_eq (hs.withAccepts accepts)]
      rfl

/-- An accept starts the newest connection and adds one; the others stay. -/
theorem sameOn_accepted {s : Server M} (n t : Nat) (accepts : List Nat)
    (hnew : s.newConnection < s.connections.length) :
    SameOn t s (Server.accepted n { s with accepts }) := by
  intro k c hk hc _
  have hlen : k < (s.connections.modify s.newConnection Connection.start).length := by
    rw [List.length_modify]
    omega
  show (s.connections.modify s.newConnection Connection.start ++ [_])[k]? = some c
  rw [List.getElem?_append_left hlen, List.getElem?_modify_ne _ _ (Nat.ne_of_gt hk)]
  exact hc

/-- The started connections after an accept: the newest until then, and those before it. -/
theorem Invariant.accepted_cases {n : Nat} {s : Server M} (hs : Invariant n s)
    (accepts : List Nat) {k : Nat} {c : Connection}
    (hk : k < (Server.accepted n { s with accepts }).newConnection)
    (hc : (Server.accepted n { s with accepts }).connections[k]? = some c) :
    (k = s.newConnection ∧ c = (Connection.create ((k + 1) % n) (k % n)).start) ∨
      (k < s.newConnection ∧ s.connections[k]? = some c) := by
  have hnewest := hs.newest
  change k < s.connections.length at hk
  have hlen : k < (s.connections.modify s.newConnection Connection.start).length := by
    rw [List.length_modify]
    exact hk
  change (s.connections.modify s.newConnection Connection.start ++ [_])[k]? = some c at hc
  rw [List.getElem?_append_left hlen] at hc
  by_cases e : s.newConnection = k
  · subst e
    rw [List.getElem?_modify_eq, hs.waiting] at hc
    cases hc
    exact .inl ⟨rfl, rfl⟩
  · rw [List.getElem?_modify_ne _ _ e] at hc
    exact .inr ⟨by omega, hc⟩

/-- The connections after one has been written back. -/
theorem set_cases {connections : List Connection} {k l : Nat} {c d : Connection}
    (h : (connections.set k c)[l]? = some d) :
    (l = k ∧ d = c) ∨ (k ≠ l ∧ connections[l]? = some d) := by
  by_cases e : k = l
  · subst e
    have hlt := (List.getElem?_eq_some_iff.mp h).1
    rw [List.length_set] at hlt
    rw [List.getElem?_set_self hlt] at h
    exact .inl ⟨rfl, (Option.some.inj h).symm⟩
  · rw [List.getElem?_set_ne e] at h
    exact .inr ⟨e, h⟩

theorem length_writeBack (o : Option (Nat × Connection)) (connections : List Connection) :
    (writeBack o connections).length = connections.length := by
  rcases o with _ | ⟨k, c⟩
  · rfl
  · exact List.length_set ..

/-- Writing a connection back does not disturb the accept of another. -/
theorem writeBack_accepted {new : Nat} {connections : List Connection}
    (hnew : new < connections.length) {o : Option (Nat × Connection)}
    (ho : ∀ k c, o = some (k, c) → k < new) (c' : Connection) :
    writeBack o (connections.modify new Connection.start ++ [c']) =
      (writeBack o connections).modify new Connection.start ++ [c'] := by
  rcases o with _ | ⟨k, c⟩
  · rfl
  · have hk := ho k c rfl
    have hlen : k < (connections.modify new Connection.start).length := by
      rw [List.length_modify]
      omega
    show (connections.modify new Connection.start ++ [c']).set k c =
      (connections.set k c).modify new Connection.start ++ [c']
    rw [List.set_append_left _ _ hlen]
    congr 1
    refine List.ext_getElem? fun i => ?_
    by_cases e : k = i
    · subst e
      rw [List.getElem?_set_self hlen, List.getElem?_modify_ne _ _ (Nat.ne_of_gt hk),
        List.getElem?_set_self (by omega)]
    · rw [List.getElem?_set_ne e]
      by_cases e' : new = i
      · subst e'
        rw [List.getElem?_modify_eq, List.getElem?_modify_eq, List.getElem?_set_ne e]
      · rw [List.getElem?_modify_ne _ _ e', List.getElem?_modify_ne _ _ e',
          List.getElem?_set_ne e]

/-- An event leaves the other io_services alone. -/
theorem step_running {n : Nat} {s s' : Server M} {ev : ServerEvent} (hs : Sound n s)
    (h : ServerStep s ev s') {i : Nat} (hi : s.thread ev ≠ some i) :
    s'.machine.running i = s.machine.running i := by
  by_cases hev : ∃ error, ev = .accept error
  · obtain ⟨error, rfl⟩ := hev
    obtain ⟨k, accepts, _, _, rfl⟩ := (hs.1.step_accept_iff error).mp h
    cases error <;> rfl
  · obtain ⟨t, m, o, machine, ht, hm, rfl, _, _⟩ := step_move hs h fun error e => hev ⟨error, e⟩
    refine Machine.move_running hm ?_
    rintro rfl
    exact hi ht

/-! ## Independence -/

/-- An accept and an event of another io_service. -/
theorem accept_commutes {n : Nat} {s s₁ s₂ : Server M} {error : Bool} {ev : ServerEvent}
    (hs : Sound n s) (h₁ : ServerStep s (.accept error) s₁) (h₂ : ServerStep s ev s₂)
    (hne : s.thread ev ≠ some s.acceptor) :
    ∃ s', ServerStep s₁ ev s' ∧ ServerStep s₂ (.accept error) s' := by
  have hev : ∀ e, ev ≠ .accept e := by
    rintro e rfl
    exact hne rfl
  have hs₂ := (hs.step h₂).1
  obtain ⟨t, m, o, machine, ht, hm, rfl, ho, hreplay⟩ := step_move hs h₂ hev
  obtain ⟨k, accepts, hacc, hidle, rfl⟩ := (hs.1.step_accept_iff error).mp h₁
  have hnew : s.newConnection < s.connections.length := by
    have := hs.1.newest
    omega
  have htne : s.acceptor ≠ t := by
    rintro rfl
    exact hne ht
  -- the acceptor is still idle
  have hidle₂ : machine.running s.acceptor = none :=
    (Machine.move_running hm htne).trans hidle
  have haccept := (hs₂.step_accept_iff error).mpr ⟨k, accepts, hacc, hidle₂, rfl⟩
  cases error with
  | true =>
    exact ⟨_, hreplay { s with accepts } machine (fun _ _ _ hc _ => hc) hm, haccept⟩
  | false =>
    have hstep := hreplay (Server.accepted n { s with accepts }) machine
      (sameOn_accepted n t accepts hnew) hm
    have hlen := length_writeBack o s.connections
    refine ⟨_, hstep, ?_⟩
    simp only [Bool.false_eq_true, if_false] at haccept
    simp only [Server.accepted, hlen] at haccept ⊢
    rw [writeBack_accepted hnew fun k c e => (ho k c e).1]
    exact haccept

/-- **Events of different io_services commute**: each is still possible after the other, and
    the order does not show in the state. No lock is missing. -/
theorem events_commute (M : Mapnik) (n : Nat) (stylesheet : M.Map) (s s₁ s₂ : Server M)
    (ev₁ ev₂ : ServerEvent) (hreach : Reachable n stylesheet s) (h₁ : ServerStep s ev₁ s₁)
    (h₂ : ServerStep s ev₂ s₂) (hne : s.thread ev₁ ≠ s.thread ev₂) :
    ∃ s', ServerStep s₁ ev₂ s' ∧ ServerStep s₂ ev₁ s' := by
  have hs := hreach.sound
  by_cases hev₁ : ∃ error, ev₁ = .accept error
  · obtain ⟨error, rfl⟩ := hev₁
    exact accept_commutes hs h₁ h₂ (Ne.symm hne)
  by_cases hev₂ : ∃ error, ev₂ = .accept error
  · obtain ⟨error, rfl⟩ := hev₂
    obtain ⟨s', h, h'⟩ := accept_commutes hs h₂ h₁ hne
    exact ⟨s', h', h⟩
  obtain ⟨t, m, o, machine₁, ht, hm, rfl, ho, hreplay⟩ :=
    step_move hs h₁ fun error e => hev₁ ⟨error, e⟩
  obtain ⟨u, m', o', machine₂, hu, hm', rfl, ho', hreplay'⟩ :=
    step_move hs h₂ fun error e => hev₂ ⟨error, e⟩
  have htu : t ≠ u := by
    rintro rfl
    exact hne (ht.trans hu.symm)
  have hj : ∀ k c, o = some (k, c) → t = (k + 1) % n := fun k c e => (ho k c e).2
  have hj' : ∀ k c, o' = some (k, c) → u = (k + 1) % n := fun k c e => (ho' k c e).2
  obtain ⟨machine', hmove, hmove'⟩ := Machine.move_comm hs.2.owned htu hm hm'
  have hstep := hreplay' { s with machine := machine₁, connections := writeBack o s.connections }
    machine' (sameOn_writeBack hs htu hj machine₁) hmove
  have hstep' := hreplay { s with machine := machine₂, connections := writeBack o' s.connections }
    machine' (sameOn_writeBack hs (Ne.symm htu) hj' machine₂) hmove'
  refine ⟨_, hstep, ?_⟩
  simp only at hstep' ⊢
  rw [writeBack_comm htu hj hj']
  exact hstep'

/-- Two handlers are at work on their maps, one on each io_service. -/
theorem events_commute_sample :
    ∃ s s₁ s₂ : Server .sample,
      Run ServerStep (Server.initial .sample 2 sampleMap) bothAtWork s ∧
      ServerStep s (.advance 0) s₁ ∧ ServerStep s (.advance 1) s₂ ∧
      ∃ s', ServerStep s₁ (.advance 1) s' ∧ ServerStep s₂ (.advance 0) s' := by
  obtain ⟨s, hrun, htest⟩ := run_of_any Server.step (Server.initial .sample 2 sampleMap)
    bothAtWork (fun s => (s.step (.advance 0)).isSome && (s.step (.advance 1)).isSome)
    (by decide +kernel)
  simp only [Bool.and_eq_true, Option.isSome_iff_exists] at htest
  obtain ⟨⟨s₁, h₁⟩, s₂, h₂⟩ := htest
  have hreach : Reachable 2 sampleMap s := ⟨_, _, create_eq .sample (by decide) sampleMap, hrun⟩
  have hne : s.thread (.advance 0) ≠ s.thread (.advance 1) := show some 0 ≠ some 1 by decide
  exact ⟨s, s₁, s₂, hrun, h₁, h₂,
    events_commute .sample 2 sampleMap s s₁ s₂ _ _ hreach h₁ h₂ hne⟩

end PaleoServer

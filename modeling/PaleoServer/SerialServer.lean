/-
  The server, one handler at a time.

  `SerialStep` is the server as its authors think of it: a completion arrives, its handler runs
  from beginning to end, the next completion arrives. `settle` takes a state of the interleaved
  server to the one in which all running handlers have ended. Under it a start of a handler is
  a step of the serial server and every step and end of a handler is none (`settle_step`).

  Proved: `server_serializes`. The interleaved server comes to a quiet state after some
  arrivals exactly when the serial server does. So what is proved of serial runs, by induction
  on arrivals, holds of all interleavings.
-/
import PaleoServer.ServerThreads

namespace PaleoServer

open Atomic Trace

variable {M : Mapnik}

/-- What comes from outside: clients, and results of operations on their sockets. -/
inductive Arrival where
  | accept (error : Bool)
  | complete (connection : Nat) (completion : Completion)
  deriving DecidableEq, Repr

/-- The arrival an event is, if it is not a step of a handler. -/
def ServerEvent.arrival : ServerEvent → Option Arrival
  | .accept error => some (.accept error)
  | .complete k ev => some (.complete k ev)
  | .advance _ => none
  | .finish _ => none

def Arrival.event : Arrival → ServerEvent
  | .accept error => .accept error
  | .complete k ev => .complete k ev

/-- The buffers matter to arrivals only. -/
theorem fitsBuffer_of_arrivals {evs : List ServerEvent}
    (h : ∀ a ∈ evs.filterMap ServerEvent.arrival, a.event.FitsBuffer) :
    ∀ ev ∈ evs, ev.FitsBuffer := by
  intro ev hev
  rcases harrival : ev.arrival with _ | a
  · cases ev with
    | accept error => cases harrival
    | complete k ev => cases harrival
    | advance t => trivial
    | finish t => trivial
  · have hfits := h a (List.mem_filterMap.mpr ⟨ev, hev, harrival⟩)
    cases ev <;> cases harrival <;> exact hfits

/-- One arrival, with all that its handler does. -/
def Server.serialStep (s : Server M) : Arrival → Option (Server M)
  | .accept error => s.step (.accept error)
  | .complete k ev =>
    match s.connections[k]? with
    | none => none
    | some c =>
      (c.deliver M ev).map fun code =>
        let r := code.run (s.machine.store c.map)
        { s with
          connections := s.connections.set k r.1
          machine := { s.machine with store := Function.update s.machine.store c.map r.2 } }

/-- The steps of the serial server. -/
def SerialStep (s : Server M) (a : Arrival) (s' : Server M) : Prop := s.serialStep a = some s'

theorem serialStep_complete {s s' : Server M} {k : Nat} {ev : Completion} :
    SerialStep s (.complete k ev) s' ↔
      ∃ c code, s.connections[k]? = some c ∧ c.deliver M ev = some code ∧
        s' = { s with
          connections := s.connections.set k (code.run (s.machine.store c.map)).1
          machine := { s.machine with
            store := Function.update s.machine.store c.map
              (code.run (s.machine.store c.map)).2 } } := by
  unfold SerialStep Server.serialStep
  rcases hc : s.connections[k]? with _ | c
  · simp only [hc]
    simp
  · rcases hd : c.deliver M ev with _ | code
    · simp only [hc, hd]
      simp [hd]
    · simp only [hc, hd]
      simp [hd, eq_comm]

/-- No handler is running. -/
def Server.Quiet (s : Server M) : Prop := s.machine.running = fun _ => none

/-! ## Settled servers -/

/-- Connection `k`, given what its thread will return. -/
def settledConnection (outcome : Option (Nat × Connection)) (k : Nat) (c : Connection) :
    Connection :=
  match outcome with
  | some (j, c') => if j = k then c' else c
  | none => c

/-- The server once its running handlers have ended. -/
def Server.settle (n : Nat) (s : Server M) : Server M :=
  { s with
    connections := s.connections.mapIdx fun k c =>
      settledConnection (s.machine.outcome ((k + 1) % n)) k c
    machine := ⟨s.machine.settled (mapThread n), fun _ => none⟩ }

theorem settle_getElem? (n : Nat) (s : Server M) (k : Nat) :
    (s.settle n).connections[k]? = s.connections[k]?.map fun c =>
      settledConnection (s.machine.outcome ((k + 1) % n)) k c := List.getElem?_mapIdx ..

theorem settledConnection_of_ne {outcome : Option (Nat × Connection)} {k : Nat} {c : Connection}
    (h : ∀ j c', outcome = some (j, c') → j ≠ k) : settledConnection outcome k c = c := by
  rcases outcome with _ | ⟨j, c'⟩
  · rfl
  · exact if_neg (h j c' rfl)

/-- There are no threads but those of the pool. -/
theorem Sound.quiet_of_idle {n : Nat} {s : Server M} (hs : Sound n s)
    (h : ∀ t < n, s.machine.running t = none) : s.Quiet := by
  funext t
  rcases ht : s.machine.running t with _ | task
  · rfl
  · have hlt : t < n := by
      rw [(hs.2 t task ht).1]
      exact Nat.mod_lt _ hs.1.pos
    cases (h t hlt).symm.trans ht

/-- A handler that runs is one of a started connection. -/
theorem Sound.outcome_lt {n : Nat} {s : Server M} (hs : Sound n s) {t j : Nat}
    {c : Connection} (h : s.machine.outcome t = some (j, c)) :
    j < s.newConnection ∧ t = (j + 1) % n := by
  obtain ⟨task, ht, e⟩ := Option.map_eq_some_iff.mp h
  cases e
  exact ⟨hs.1.job_lt ht, (hs.2 t task ht).1⟩

/-- A connection whose io_service is idle is settled. -/
theorem Sound.settle_idle {n : Nat} {s : Server M} (hs : Sound n s) {k : Nat} {c : Connection}
    (hc : s.connections[k]? = some c) (hidle : s.machine.running c.ioService = none) :
    (s.settle n).connections[k]? = some c := by
  rw [settle_getElem?, hc, ← (hs.1.binding hc).1, Machine.outcome_idle hidle]
  rfl

theorem quiet_settle (n : Nat) (s : Server M) : (s.settle n).Quiet := rfl

theorem settle_quiet {n : Nat} {s : Server M} (h : s.Quiet) : s.settle n = s := by
  have hout : ∀ t, s.machine.outcome t = none :=
    fun t => Machine.outcome_idle (congrFun h t)
  have hconn : (s.settle n).connections = s.connections := by
    refine List.ext_getElem? fun k => ?_
    rw [settle_getElem?, hout]
    exact Option.map_id' ..
  have hstore : s.machine.settled (mapThread n) = s.machine.store := by
    funext m
    exact Machine.settled_idle (congrFun h _)
  have hmachine : (s.settle n).machine = s.machine := by
    show (⟨s.machine.settled (mapThread n), fun _ => none⟩ : Machine ..) = s.machine
    rw [hstore, ← h]
  show ({ s with connections := (s.settle n).connections, machine := (s.settle n).machine } :
    Server M) = s
  rw [hconn, hmachine]

/-- The settled server is as sound. -/
theorem Sound.settle {n : Nat} {s : Server M} (hs : Sound n s) : Sound n (s.settle n) := by
  have hlen : (s.settle n).connections.length = s.connections.length := List.length_mapIdx
  refine ⟨⟨hs.1.pos, ?_, ?_, ?_, ?_, ?_⟩, ?_⟩
  · rw [hlen]
    exact hs.1.pool
  · rw [hlen]
    exact hs.1.newest
  · have hnew : ∀ c, settledConnection (s.machine.outcome ((s.newConnection + 1) % n))
        s.newConnection c = c := by
      refine fun c => settledConnection_of_ne fun j c' h => ?_
      exact Nat.ne_of_lt (hs.outcome_lt h).1
    show (s.settle n).connections[s.newConnection]? = _
    rw [settle_getElem?, hs.1.waiting]
    exact congrArg some (hnew _)
  · intro k c hk hc
    rw [settle_getElem?] at hc
    obtain ⟨d, hd, rfl⟩ := Option.map_eq_some_iff.mp hc
    rcases hout : s.machine.outcome ((k + 1) % n) with _ | ⟨j, c'⟩
    · exact hs.1.lived k d hk hd
    · by_cases e : j = k
      · subst e
        obtain ⟨task, ht, he⟩ := Option.map_eq_some_iff.mp hout
        cases he
        have hret := Prog.returns_run task.code (s.machine.store task.resource)
        simpa [settledConnection] using (hs.1.handlers _ task ht _ hret).2
      · rw [settledConnection_of_ne fun _ _ h => by cases h; exact e]
        exact hs.1.lived k d hk hd
  · intro t task h
    cases h
  · intro t task h
    cases h

/-! ## Arrivals -/

/-- An accept does not meet the handlers. -/
theorem settle_accepted {n : Nat} {s : Server M} (hs : Sound n s) (accepts : List Nat) :
    (Server.accepted n { s with accepts }).settle n =
      Server.accepted n { s.settle n with accepts } := by
  have hlen : (s.settle n).connections.length = s.connections.length := List.length_mapIdx
  have hnewest := hs.1.newest
  -- the newest connection has no handler
  have hnew : ∀ k, s.newConnection ≤ k → ∀ c,
      settledConnection (s.machine.outcome ((k + 1) % n)) k c = c := by
    intro k hk c
    refine settledConnection_of_ne fun j c' h => ?_
    have := (hs.outcome_lt h).1
    omega
  have hconn : ((Server.accepted n { s with accepts }).settle n).connections =
      (Server.accepted n { s.settle n with accepts }).connections := by
    refine List.ext_getElem? fun k => ?_
    rw [settle_getElem?]
    show ((s.connections.modify s.newConnection Connection.start ++ [_])[k]?).map _ =
      ((s.settle n).connections.modify s.newConnection Connection.start ++ [_])[k]?
    rcases Nat.lt_trichotomy k s.connections.length with hk | rfl | hk
    · rw [List.getElem?_append_left (by rw [List.length_modify]; exact hk),
        List.getElem?_append_left (by rw [List.length_modify, hlen]; exact hk)]
      by_cases e : s.newConnection = k
      · subst e
        rw [List.getElem?_modify_eq, List.getElem?_modify_eq, settle_getElem?]
        rcases s.connections[s.newConnection]? with _ | c
        · rfl
        · simp only [Option.map_some, hnew _ (Nat.le_refl _)]
          exact congrArg some (hnew _ (Nat.le_refl _) _)
      · rw [List.getElem?_modify_ne _ _ e, List.getElem?_modify_ne _ _ e, settle_getElem?]
        rfl
    · rw [List.getElem?_append_right (by rw [List.length_modify]),
        List.getElem?_append_right (by rw [List.length_modify, hlen]), List.length_modify,
        List.length_modify, hlen, Nat.sub_self]
      exact congrArg some (hnew _ (by omega) _)
    · rw [List.getElem?_eq_none, List.getElem?_eq_none]
      · rfl
      · rw [List.length_append, List.length_modify, hlen]
        exact hk
      · rw [List.length_append, List.length_modify]
        exact hk
  show ({ Server.accepted n { s.settle n with accepts } with
    pool := .after n (s.connections.length + 2) (s.connections.length + 1)
    connections := ((Server.accepted n { s with accepts }).settle n).connections
    newConnection := s.connections.length
    accepts := accepts ++ [s.connections.length] } : Server M) = _
  rw [hconn]
  simp only [Server.accepted, hlen]

/-- A handler has its effect when it starts. -/
theorem settle_complete {n : Nat} {s s' : Server M} (hs : Sound n s) {k : Nat}
    {ev : Completion} (h : ServerStep s (.complete k ev) s') :
    SerialStep (s.settle n) (.complete k ev) (s'.settle n) := by
  obtain ⟨c, code, machine, hc, hd, hb, rfl⟩ := step_complete h
  obtain ⟨hio, hmap⟩ := hs.1.binding hc
  have howner : mapThread n c.map = c.ioService := by
    unfold mapThread
    rw [hmap, hio, Nat.mod_add_mod]
  have hidle : s.machine.outcome ((k + 1) % n) = none := by
    rw [← hio]
    exact Machine.outcome_idle (Machine.begin_iff.mp hb).1
  obtain ⟨hstore, hout⟩ := Machine.settled_begin (k := ⟨k, c.map, code⟩) howner hb
  have hc' : (s.settle n).connections[k]? = some c := by
    rw [settle_getElem?, hc, hidle]
    rfl
  have hconn : (Server.settle n { s with machine }).connections =
      (s.settle n).connections.set k (code.run (s.machine.settled (mapThread n) c.map)).1 := by
    refine List.ext_getElem? fun l => ?_
    rw [settle_getElem?]
    show s.connections[l]?.map (fun d => settledConnection (machine.outcome _) l d) = _
    rw [hout, hio]
    by_cases e : k = l
    · subst e
      rw [List.getElem?_set_self (List.getElem?_eq_some_iff.mp hc').1, hc, Function.update_self]
      simp [settledConnection]
    · rw [List.getElem?_set_ne e, settle_getElem?]
      by_cases ht : (l + 1) % n = (k + 1) % n
      · rw [ht, Function.update_self, hidle]
        simp [settledConnection, e]
      · rw [Function.update_of_ne ht]
  refine serialStep_complete.mpr ⟨c, code, hc', hd, ?_⟩
  show _ = ({ s.settle n with
    connections := (s.settle n).connections.set k
      (code.run (s.machine.settled (mapThread n) c.map)).1
    machine := ⟨Function.update (s.machine.settled (mapThread n)) c.map
      (code.run (s.machine.settled (mapThread n) c.map)).2, fun _ => none⟩ } : Server M)
  rw [← hconn, ← hstore]
  rfl

theorem settle_advance {n : Nat} {s s' : Server M} (hs : Sound n s) {t : Nat}
    (h : ServerStep s (.advance t) s') : s'.settle n = s.settle n := by
  obtain ⟨machine, ha, rfl⟩ := step_advance h
  obtain ⟨hstore, hout⟩ := Machine.settled_advance hs.2.owned ha
  unfold Server.settle
  simp only [hstore, hout]

theorem settle_finish {n : Nat} {s s' : Server M} (hs : Sound n s) {t : Nat}
    (h : ServerStep s (.finish t) s') : s'.settle n = s.settle n := by
  obtain ⟨k, c, machine, hf, rfl⟩ := step_finish h
  have hsettled : machine.settled (mapThread n) = s.machine.settled (mapThread n) ∧
    s.machine.outcome t = some (k, c) ∧
      machine.outcome = Function.update s.machine.outcome t none := Machine.settled_finish hf
  obtain ⟨hstore, hout, hout'⟩ := hsettled
  obtain ⟨hk, ht⟩ := hs.outcome_lt hout
  have hlt : k < s.connections.length := by
    have := hs.1.newest
    omega
  have hconn : (Server.settle n { s with machine, connections := s.connections.set k c }).connections =
      (s.settle n).connections := by
    refine List.ext_getElem? fun l => ?_
    rw [settle_getElem?, settle_getElem?]
    show ((s.connections.set k c)[l]?).map (fun d => settledConnection (machine.outcome _) l d) = _
    rw [hout']
    by_cases e : k = l
    · subst e
      rw [List.getElem?_set_self hlt, List.getElem?_eq_getElem hlt, ← ht, Function.update_self,
        hout]
      simp [settledConnection]
    · rw [List.getElem?_set_ne e]
      by_cases hl : (l + 1) % n = t
      · rw [hl, Function.update_self, hout]
        simp [settledConnection, e]
      · rw [Function.update_of_ne hl]
  show ({ s with
    connections := (Server.settle n { s with machine, connections := s.connections.set k c }).connections
    machine := ⟨machine.settled (mapThread n), fun _ => none⟩ } : Server M) = _
  rw [hconn, hstore]
  rfl

theorem settle_accept {n : Nat} {s s' : Server M} (hs : Sound n s) {error : Bool}
    (h : ServerStep s (.accept error) s') :
    SerialStep (s.settle n) (.accept error) (s'.settle n) := by
  obtain ⟨k, accepts, hacc, _, rfl⟩ := (hs.1.step_accept_iff error).mp h
  have hsettled := (hs.settle.1.step_accept_iff error).mpr ⟨k, accepts, hacc, rfl, rfl⟩
  show ServerStep (s.settle n) (.accept error) _
  cases error with
  | true => exact hsettled
  | false =>
    rw [if_neg Bool.false_ne_true] at hsettled ⊢
    rw [settle_accepted hs]
    exact hsettled

/-- **One event of the interleaved server** is one arrival of the serial server, or nothing. -/
theorem settle_step {n : Nat} {s s' : Server M} {ev : ServerEvent} (hs : Sound n s)
    (h : ServerStep s ev s') :
    (∀ a, ev.arrival = some a → SerialStep (s.settle n) a (s'.settle n)) ∧
      (ev.arrival = none → s'.settle n = s.settle n) := by
  cases ev with
  | accept error =>
    refine ⟨fun a e => ?_, fun e => (nomatch e)⟩
    cases e
    exact settle_accept hs h
  | complete k ev =>
    refine ⟨fun a e => ?_, fun e => (nomatch e)⟩
    cases e
    exact settle_complete hs h
  | advance t => exact ⟨fun _ e => (nomatch e), fun _ => settle_advance hs h⟩
  | finish t => exact ⟨fun _ e => (nomatch e), fun _ => settle_finish hs h⟩

/-! ## Runs -/

/-- Every run of the interleaved server is one of the serial server, with the same arrivals. -/
theorem settle_run {n : Nat} {s s' : Server M} {evs : List ServerEvent} (hs : Sound n s)
    (h : Run ServerStep s evs s') :
    Run SerialStep (s.settle n) (evs.filterMap ServerEvent.arrival) (s'.settle n) :=
  run_refinement (fun _ _ _ hs h => hs.step h) (fun _ _ _ hs h => settle_step hs h) h hs

/-- The moves that are left to the running handlers. -/
def Server.load (n : Nat) (s : Server M) : Nat := ∑ t ∈ Finset.range n, s.machine.load t

/-- A handler in progress: a step of it or its end. -/
def HandlerStep (s : Server M) (ev : ServerEvent) (s' : Server M) : Prop :=
  ev.arrival = none ∧ ServerStep s ev s'

/-- A step of a handler is one move less. -/
theorem load_handlerStep {n : Nat} {s s' : Server M} {ev : ServerEvent} (hs : Sound n s)
    (h : HandlerStep s ev s') : s.load n = s'.load n + 1 := by
  have hmem : ∀ {t : Nat} {task : Task Nat Nat M.Map Connection},
      s.machine.running t = some task → t ∈ Finset.range n := by
    intro t task ht
    rw [Finset.mem_range, (hs.2 t task ht).1]
    exact Nat.mod_lt _ hs.1.pos
  obtain ⟨hev, h⟩ := h
  cases ev with
  | accept error => cases hev
  | complete k ev => cases hev
  | advance t =>
    obtain ⟨machine, ha, rfl⟩ := step_advance h
    obtain ⟨hself, hother⟩ := Machine.advance_load hs.2.owned ha
    obtain ⟨j, r, f, g, ht, _⟩ := Machine.advance_iff.mp ha
    exact Machine.sum_one_less (hmem ht) hself hother
  | finish t =>
    obtain ⟨k, c, machine, hf, rfl⟩ := step_finish h
    obtain ⟨hself, hother⟩ := Machine.finish_load hf
    obtain ⟨r, ht, _⟩ := Machine.finish_iff.mp hf
    exact Machine.sum_one_less (hmem ht) hself hother

/-- A running handler can move. -/
theorem handlerStep_of_running {s : Server M} (h : ¬ s.Quiet) :
    ∃ ev s', HandlerStep s ev s' := by
  obtain ⟨t, ht⟩ := Function.ne_iff.mp h
  obtain ⟨task, htask⟩ := Option.ne_none_iff_exists'.mp ht
  rcases Machine.advance_or_finish htask with ⟨m, ha⟩ | ⟨j, c, m, hf⟩
  · refine ⟨.advance t, { s with machine := m }, rfl, ?_⟩
    simp only [ServerStep, Server.step, ha, Option.map_some]
  · refine ⟨.finish t, { s with machine := m, connections := s.connections.set j c }, rfl, ?_⟩
    simp only [ServerStep, Server.step, hf, Option.map_some]

/-- **Running handlers end**: without any more arrivals the server comes to its settled state. -/
theorem run_settle {n : Nat} {s : Server M} (hs : Sound n s) :
    ∃ evs, (∀ ev ∈ evs, ev.arrival = none) ∧ Run ServerStep s evs (s.settle n) := by
  have hstep : ∀ r : Server M, Sound n r ∧ r.settle n = s.settle n →
      r.Quiet ∨ ∃ ev r', HandlerStep r ev r' ∧ (Sound n r' ∧ r'.settle n = s.settle n) ∧
        r'.load n < r.load n := by
    rintro r ⟨hr, heq⟩
    by_cases hquiet : r.Quiet
    · exact .inl hquiet
    · obtain ⟨ev, r', h⟩ := handlerStep_of_running hquiet
      have hload := load_handlerStep hr h
      have hsettle := (settle_step hr h.2).2 h.1
      exact .inr ⟨ev, r', h, ⟨hr.step h.2, hsettle.trans heq⟩, by omega⟩
  obtain ⟨evs, s', hrun, ⟨_, heq⟩, hquiet⟩ := run_to_rest hstep ⟨hs, rfl⟩
  rw [← heq, settle_quiet hquiet]
  refine ⟨evs, ?_, run_mono (fun _ _ _ h => h.2) hrun⟩
  exact run_labels (fun _ _ _ h => h.1) hrun

/-- An arrival at a quiet server, then its handler to the end. -/
theorem run_arrival {n : Nat} {s s' : Server M} {a : Arrival} (hs : Sound n s) (hquiet : s.Quiet)
    (h : SerialStep s a s') :
    ∃ evs, evs.filterMap ServerEvent.arrival = [a] ∧ Run ServerStep s evs s' ∧ s'.Quiet := by
  -- the event is possible, and what it starts has the effect of the serial step
  obtain ⟨s₁, hs₁⟩ : ∃ s₁, ServerStep s a.event s₁ := by
    cases a with
    | accept error => exact ⟨s', h⟩
    | complete k ev =>
      obtain ⟨c, code, hc, hd, _⟩ := serialStep_complete.mp h
      obtain ⟨m₁, hm₁⟩ : ∃ m₁, s.machine.begin c.ioService ⟨k, c.map, code⟩ = some m₁ :=
        ⟨_, Machine.begin_iff.mpr ⟨congrFun hquiet c.ioService, rfl⟩⟩
      refine ⟨{ s with machine := m₁ }, ?_⟩
      simp only [Arrival.event, ServerStep, Server.step, hc, hd, hm₁, Option.map_some]
  have harrival : a.event.arrival = some a := by cases a <;> rfl
  have hserial := (settle_step hs hs₁).1 a harrival
  rw [settle_quiet hquiet] at hserial
  have heq : s₁.settle n = s' := Option.some.inj (hserial.symm.trans h)
  obtain ⟨evs, hevs, hrun⟩ := run_settle (hs.step hs₁)
  rw [heq] at hrun
  refine ⟨a.event :: evs, ?_, ⟨s₁, hs₁, hrun⟩, heq ▸ quiet_settle n s₁⟩
  rw [List.filterMap_cons_some harrival]
  exact congrArg _ (List.filterMap_eq_nil_iff.mpr hevs)

theorem run_arrivals {n : Nat} {s s' : Server M} {as : List Arrival} (hs : Sound n s)
    (hquiet : s.Quiet) (h : Run SerialStep s as s') :
    ∃ evs, evs.filterMap ServerEvent.arrival = as ∧ Run ServerStep s evs s' := by
  induction as generalizing s with
  | nil => exact ⟨[], rfl, h⟩
  | cons a as ih =>
    obtain ⟨t, ha, has⟩ := h
    obtain ⟨evs, hevs, hrun, ht⟩ := run_arrival hs hquiet ha
    have hst : Sound n t := run_invariant (fun _ _ _ hs h => hs.step h) hrun hs
    obtain ⟨evs', hevs', hrun'⟩ := ih hst ht has
    refine ⟨evs ++ evs', ?_, run_append.mpr ⟨t, hrun, hrun'⟩⟩
    rw [List.filterMap_append, hevs, hevs']
    rfl

theorem quiet_create {n : Nat} {stylesheet : M.Map} {s : Server M}
    (h : Server.create M n stylesheet = .ok s) : s.Quiet := by
  rcases Nat.eq_zero_or_pos n with rfl | hn
  · rw [create_zero] at h
    cases h
  · rw [create_eq M hn] at h
    cases h
    rfl

/-- **The server is serializable**: whatever the size of the pool and the interleaving, it comes
    to a quiet state with some arrivals exactly when the server that handles these
    arrivals one after another does. -/
theorem server_serializes (M : Mapnik) (n : Nat) (stylesheet : M.Map) (s₀ s : Server M)
    (as : List Arrival) (hcreate : Server.create M n stylesheet = .ok s₀) (hquiet : s.Quiet) :
    (∃ evs, evs.filterMap ServerEvent.arrival = as ∧ Run ServerStep s₀ evs s) ↔
      Run SerialStep s₀ as s := by
  have hs := sound_create hcreate
  have hquiet₀ := quiet_create hcreate
  constructor
  · rintro ⟨evs, rfl, hrun⟩
    have h := settle_run hs hrun
    rwa [settle_quiet hquiet₀, settle_quiet hquiet] at h
  · exact run_arrivals hs hquiet₀

/-- Two of three clients are served at the same time, and the same one after another. -/
theorem server_serializes_sample :
    ∃ (s : Server .sample) (c₁ c₂ : Connection), s.Quiet ∧
      Run ServerStep (Server.initial .sample 2 sampleMap) (bothAtWork ++ bothEnd) s ∧
      Run SerialStep (Server.initial .sample 2 sampleMap)
        [.accept false, .complete 0 (.read (some sampleText)), .accept false, .accept false,
          .complete 1 (.read (some sampleText)), .complete 2 (.read (some riversText))] s ∧
      s.connections[1]? = some c₁ ∧ c₁.Answered sampleRequest sampleReply ∧
      s.connections[2]? = some c₂ ∧ c₂.Answered riversRequest riversReply := by
  obtain ⟨r, s, c₁, c₂, hwork, hend, hc₁, h₁, hc₂, h₂, _, _, hidle⟩ := three_clients
  have hrun := run_append.mpr ⟨r, hwork, hend⟩
  have hcreate := create_eq .sample (n := 2) (by decide) sampleMap
  have hsound : Sound 2 s :=
    run_invariant (fun _ _ _ hs h => hs.step h) hrun (sound_create hcreate)
  have hquiet := hsound.quiet_of_idle hidle
  exact ⟨s, c₁, c₂, hquiet, hrun,
    (server_serializes .sample 2 sampleMap _ s _ hcreate hquiet).mp ⟨_, rfl, hrun⟩,
    hc₁, h₁, hc₂, h₂⟩

/-- **The schedule does not matter**: from a reachable state the running handlers make as many
    moves as are left to them, in any order, and no more. When none is left the state is the
    settled one. -/
theorem handlers_end (M : Mapnik) (n : Nat) (stylesheet : M.Map) (s s' : Server M)
    (evs : List ServerEvent) (hreach : Reachable n stylesheet s)
    (hrun : Run HandlerStep s evs s') :
    s.load n = s'.load n + evs.length ∧
      (s' = s.settle n ∨ ∃ ev s'', HandlerStep s' ev s'') := by
  have hstep : ∀ r ev r', Sound n r ∧ r.settle n = s.settle n → HandlerStep r ev r' →
      Sound n r' ∧ r'.settle n = s.settle n := by
    rintro r ev r' ⟨hr, heq⟩ h
    exact ⟨hr.step h.2, ((settle_step hr h.2).2 h.1).trans heq⟩
  obtain ⟨hs', heq⟩ := run_invariant hstep hrun ⟨hreach.sound, rfl⟩
  constructor
  · have hload := run_history
      (H := fun evs r => Sound n r ∧ s.load n = r.load n + evs.length) (p := []) ?_ hrun
      ⟨hreach.sound, rfl⟩
    · exact hload.2
    · rintro evs r ev r' ⟨hr, h⟩ hmove
      have := load_handlerStep hr hmove
      refine ⟨hr.step hmove.2, ?_⟩
      rw [List.length_append, List.length_singleton]
      omega
  · by_cases hquiet : s'.Quiet
    · rw [← heq, settle_quiet hquiet]
      exact .inl rfl
    · exact .inr (handlerStep_of_running hquiet)

/-- Two handlers at work, with eight moves each. -/
theorem handlers_end_sample :
    ∃ s s' : Server .sample, Run ServerStep (Server.initial .sample 2 sampleMap) bothAtWork s ∧
      Run HandlerStep s bothEnd s' ∧ s.load 2 = s'.load 2 + 16 ∧
      (s' = s.settle 2 ∨ ∃ ev s'', HandlerStep s' ev s'') := by
  obtain ⟨s, s', _, _, hwork, hend, _⟩ := three_clients
  have hreach : Reachable 2 sampleMap s := ⟨_, _, create_eq .sample (by decide) sampleMap, hwork⟩
  have hmoves : Run HandlerStep s bothEnd s' := run_restrict (by decide) hend
  exact ⟨s, s', hwork, hmoves, handlers_end .sample 2 sampleMap s s' _ hreach hmoves⟩

end PaleoServer

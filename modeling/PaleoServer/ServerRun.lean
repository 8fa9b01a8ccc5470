/-
  `io_service_pool::run` and `stop`, `server::run` and `stop` (`src/io_service_pool.cpp`,
  `src/server.cpp`), and the end of `main` that calls them (`src/posix_main.cpp`).

  Three kinds of threads run side by side. The main thread waits for a signal, stops the
  io_services one after another and joins the thread of `server::run`. That thread creates one
  thread for each io_service and joins them. The thread of an io_service is in
  `io_service::run`, which calls handlers, one at a time, until the io_service is stopped, or
  until it has no `work` object and no operation outstanding; between two handlers it may
  then return. A stopped io_service calls no handler, so its `run` returns at once.

  Proved:
  * `process_orderly`: no io_service stops serving before `stop` has come to it, `server::run`
    does not return before the signal, and the server is destroyed with no handler running.
  * `stop_ends`: once `stop` has returned the process ends, whatever the schedule.
-/
import PaleoServer.SerialServer

namespace PaleoServer

open Atomic Trace

variable {M : Mapnik}

inductive ThreadState where
  | notCreated
  | running
  | exited
  deriving DecidableEq, Repr

/-- Where `io_service_pool::run` is: in its first loop, in its second, or past them. -/
inductive RunState where
  | creating (i : Nat)
  | joining (i : Nat)
  | returned
  deriving DecidableEq, Repr

/-- Where `main` is: at `sigwait`, in the loop of `io_service_pool::stop`, at `t.join()`, or
    behind it, where the server is destroyed. -/
inductive MainState where
  | waiting
  | stopping (i : Nat)
  | joining
  | done
  deriving DecidableEq, Repr

/-- The process from the constructor of the server on. `work` lists the io_services with a `work`
    object, `stopped` are the flags that `io_service::stop` sets. -/
structure Process (M : Mapnik) where
  server : Server M
  work : List Nat
  stopped : Nat → Bool
  threads : Nat → ThreadState
  run : RunState
  main : MainState

inductive ProcessEvent where
  | server (ev : ServerEvent)
  | create
  | exit (ioService : Nat)
  | join
  | signal
  | stop
  | joinRun
  deriving DecidableEq, Repr

namespace Process

/-- `server s(...)` and the start of the thread `t`. The constructor of the pool gives every
    io_service its `work`. -/
def launch (M : Mapnik) (poolSize : Nat) (stylesheet : M.Map) : Except PoolError (Process M) := do
  let server ← Server.create M poolSize stylesheet
  return {
    server
    work := List.range poolSize
    stopped := fun _ => false
    threads := fun _ => .notCreated
    run := .creating 0
    main := .waiting }

/-- `io_services_.size()`. -/
def poolSize (p : Process M) : Nat := p.server.pool.ioServices.length

/-- An operation has been started on an object of the io_service and has not completed. -/
def outstanding (p : Process M) (i : Nat) : Bool :=
  (p.server.acceptor == i && !p.server.accepts.isEmpty) ||
    p.server.connections.any fun c => c.ioService == i && !c.pending.isEmpty

/-- `io_service::run` may return, between two handlers. -/
def mayReturn (p : Process M) (i : Nat) : Bool :=
  p.stopped i || (!p.work.contains i && !p.outstanding i)

/-- An event of the server, on the thread of an io_service. -/
def serverStep (p : Process M) (ev : ServerEvent) : Option (Process M) :=
  match p.server.thread ev with
  | none => none
  | some t =>
    if p.threads t = .running ∧ (ev.arrival.isSome → p.stopped t = false) then
      (p.server.step ev).map fun server => { p with server }
    else none

/-- The loops of `io_service_pool::run`. -/
def createStep (p : Process M) : Option (Process M) :=
  match p.run with
  | .creating i =>
    if i < p.poolSize then
      some { p with threads := Function.update p.threads i .running, run := .creating (i + 1) }
    else some { p with run := .joining 0 }
  | _ => none

def joinStep (p : Process M) : Option (Process M) :=
  match p.run with
  | .joining i =>
    if i < p.poolSize then
      if p.threads i = .exited then some { p with run := .joining (i + 1) } else none
    else some { p with run := .returned }
  | _ => none

/-- The loop of `io_service_pool::stop`. -/
def stopStep (p : Process M) : Option (Process M) :=
  match p.main with
  | .stopping i =>
    if i < p.poolSize then
      some { p with stopped := Function.update p.stopped i true, main := .stopping (i + 1) }
    else some { p with main := .joining }
  | _ => none

def step (p : Process M) : ProcessEvent → Option (Process M)
  | .server ev => p.serverStep ev
  | .create => p.createStep
  | .exit i =>
    if p.threads i = .running ∧ (p.server.machine.running i).isNone ∧ p.mayReturn i then
      some { p with threads := Function.update p.threads i .exited }
    else none
  | .join => p.joinStep
  | .signal => if p.main = .waiting then some { p with main := .stopping 0 } else none
  | .stop => p.stopStep
  | .joinRun =>
    if p.main = .joining ∧ p.run = .returned then some { p with main := .done } else none

end Process

/-- The steps of the process. -/
def ProcessStep (p : Process M) (ev : ProcessEvent) (p' : Process M) : Prop := p.step ev = some p'

/-! ## What an event can do -/

theorem processStep_server {p p' : Process M} {ev : ServerEvent} :
    ProcessStep p (.server ev) p' ↔
      ∃ t server, p.server.thread ev = some t ∧ p.threads t = .running ∧
        (ev.arrival.isSome → p.stopped t = false) ∧ ServerStep p.server ev server ∧
        p' = { p with server } := by
  show p.serverStep ev = some p' ↔ _
  unfold Process.serverStep
  rcases ht : p.server.thread ev with _ | t
  · simp
  · simp only [Option.some.injEq]
    constructor
    · intro h
      split at h
      · rename_i hrunning
        obtain ⟨server, hs, rfl⟩ := Option.map_eq_some_iff.mp h
        exact ⟨t, server, rfl, hrunning.1, hrunning.2, hs, rfl⟩
      · cases h
    · rintro ⟨t, server, rfl, hrunning, hstopped, hs, rfl⟩
      rw [if_pos ⟨hrunning, hstopped⟩, show p.server.step ev = some server from hs]
      rfl

theorem processStep_create {p p' : Process M} :
    ProcessStep p .create p' ↔
      ∃ i, p.run = .creating i ∧ p' =
        if i < p.poolSize then
          { p with threads := Function.update p.threads i .running, run := .creating (i + 1) }
        else { p with run := .joining 0 } := by
  show p.createStep = some p' ↔ _
  unfold Process.createStep
  rcases p.run with i | i | _
  · simp only [RunState.creating.injEq, exists_eq_left']
    split <;> simp [eq_comm]
  · simp
  · simp

theorem processStep_join {p p' : Process M} :
    ProcessStep p .join p' ↔
      ∃ i, p.run = .joining i ∧ (i < p.poolSize → p.threads i = .exited) ∧
        p' = { p with run := if i < p.poolSize then .joining (i + 1) else .returned } := by
  show p.joinStep = some p' ↔ _
  unfold Process.joinStep
  rcases p.run with i | i | _
  · simp
  · simp only [RunState.joining.injEq, exists_eq_left']
    by_cases hi : i < p.poolSize
    · by_cases hx : p.threads i = .exited
      · simp [hi, hx, eq_comm]
      · simp [hi, hx]
    · simp [hi, eq_comm]
  · simp

theorem processStep_stop {p p' : Process M} :
    ProcessStep p .stop p' ↔
      ∃ i, p.main = .stopping i ∧ p' =
        if i < p.poolSize then
          { p with stopped := Function.update p.stopped i true, main := .stopping (i + 1) }
        else { p with main := .joining } := by
  show p.stopStep = some p' ↔ _
  unfold Process.stopStep
  rcases p.main with _ | i | _ | _
  · simp
  · simp only [MainState.stopping.injEq, exists_eq_left']
    split <;> simp [eq_comm]
  · simp
  · simp

theorem processStep_exit {p p' : Process M} {i : Nat} :
    ProcessStep p (.exit i) p' ↔
      p.threads i = .running ∧ p.server.machine.running i = none ∧ p.mayReturn i = true ∧
        p' = { p with threads := Function.update p.threads i .exited } := by
  simp only [ProcessStep, Process.step, Option.isNone_iff_eq_none]
  split
  · rename_i h
    simp [h.1, h.2.1, h.2.2, eq_comm]
  · rename_i h
    simp only [reduceCtorEq, false_iff]
    exact fun h' => h ⟨h'.1, h'.2.1, h'.2.2.1⟩

theorem processStep_signal {p p' : Process M} :
    ProcessStep p .signal p' ↔ p.main = .waiting ∧ p' = { p with main := .stopping 0 } := by
  simp only [ProcessStep, Process.step]
  split
  · rename_i h
    simp [h, eq_comm]
  · rename_i h
    simp [h]

theorem processStep_joinRun {p p' : Process M} :
    ProcessStep p .joinRun p' ↔
      p.main = .joining ∧ p.run = .returned ∧ p' = { p with main := .done } := by
  simp only [ProcessStep, Process.step]
  split
  · rename_i h
    simp [h.1, h.2, eq_comm]
  · rename_i h
    simp only [reduceCtorEq, false_iff]
    exact fun h' => h ⟨h'.1, h'.2.1⟩

/-! ## The invariant -/

/-- How many io_services `main` has stopped. -/
def MainState.stops (n : Nat) : MainState → Nat
  | .waiting => 0
  | .stopping i => i
  | .joining | .done => n

/-- How many threads have been created, and how many joined. -/
def RunState.created (n : Nat) : RunState → Nat
  | .creating i => i
  | .joining _ | .returned => n

def RunState.joined (n : Nat) : RunState → Nat
  | .creating _ => 0
  | .joining i => i
  | .returned => n

structure ProcessInvariant (n : Nat) (p : Process M) : Prop where
  sound : Sound n p.server
  work : p.work = List.range n
  /-- Handlers run on threads that are running. -/
  busy : ∀ i task, p.server.machine.running i = some task → p.threads i = .running
  stops_le : p.main.stops n ≤ n
  stopped : ∀ i, p.stopped i = true ↔ i < p.main.stops n
  created_le : p.run.created n ≤ n
  created : ∀ i, p.threads i ≠ .notCreated ↔ i < p.run.created n
  exited : ∀ i, p.threads i = .exited → p.stopped i = true
  joined_le : p.run.joined n ≤ n
  joined : ∀ i, i < p.run.joined n → p.threads i = .exited
  done : p.main = .done → p.run = .returned

theorem ProcessInvariant.poolSize {n : Nat} {p : Process M} (hp : ProcessInvariant n p) :
    p.poolSize = n := by
  unfold Process.poolSize
  rw [hp.sound.1.pool]
  exact List.length_range

/-- The `work` objects keep `io_service::run` from returning. -/
theorem ProcessInvariant.mayReturn {n : Nat} {p : Process M} (hp : ProcessInvariant n p) {i : Nat}
    (hi : i < n) : p.mayReturn i = p.stopped i := by
  have hwork : p.work.contains i = true := by
    rw [hp.work, List.contains_iff_mem]
    exact List.mem_range.mpr hi
  unfold Process.mayReturn
  rw [hwork]
  simp

/-- A new process with `n` io_services. -/
def Process.initial (M : Mapnik) (n : Nat) (stylesheet : M.Map) : Process M where
  server := Server.initial M n stylesheet
  work := List.range n
  stopped := fun _ => false
  threads := fun _ => .notCreated
  run := .creating 0
  main := .waiting

theorem launch_eq (M : Mapnik) {n : Nat} (hn : 0 < n) (stylesheet : M.Map) :
    Process.launch M n stylesheet = .ok (Process.initial M n stylesheet) := by
  unfold Process.launch
  rw [create_eq M hn]
  rfl

theorem processInvariant_launch {n : Nat} {stylesheet : M.Map} {p : Process M}
    (h : Process.launch M n stylesheet = .ok p) : ProcessInvariant n p := by
  have hpos : 0 < n := by
    unfold Process.launch at h
    obtain ⟨s, hs, -⟩ := (Feed.bind_ok_iff _ _ _).mp h
    exact (sound_create hs).1.pos
  rw [launch_eq M hpos] at h
  cases h
  exact {
    sound := sound_create (create_eq M hpos stylesheet)
    work := rfl
    busy := fun _ _ e => nomatch e
    stops_le := Nat.zero_le _
    stopped := fun i => by simp [Process.initial, MainState.stops]
    created_le := Nat.zero_le _
    created := fun i => by simp [Process.initial, RunState.created]
    exited := fun _ e => nomatch e
    joined_le := Nat.zero_le _
    joined := fun _ h => absurd h (Nat.not_lt_zero _)
    done := fun e => nomatch e }

/-- What the server does concerns the threads only through the handlers that run. -/
theorem ProcessInvariant.server {n : Nat} {p p' : Process M} {ev : ServerEvent}
    (hp : ProcessInvariant n p) (h : ProcessStep p (.server ev) p') : ProcessInvariant n p' := by
  obtain ⟨t, server, ht, hrunning, _, hs, rfl⟩ := processStep_server.mp h
  refine ⟨hp.sound.step hs, hp.work, fun i task hi => ?_, hp.stops_le, hp.stopped,
    hp.created_le, hp.created, hp.exited, hp.joined_le, hp.joined, hp.done⟩
  by_cases e : p.server.thread ev = some i
  · rw [ht] at e
    cases e
    exact hrunning
  · change server.machine.running i = some task at hi
    rw [step_running hp.sound hs e] at hi
    exact hp.busy i task hi

theorem ProcessInvariant.create {n : Nat} {p p' : Process M} (hp : ProcessInvariant n p)
    (h : ProcessStep p .create p') : ProcessInvariant n p' := by
  obtain ⟨i, hrun, rfl⟩ := processStep_create.mp h
  rw [hp.poolSize]
  have hcreated := hp.created
  have hle := hp.created_le
  rw [hrun] at hcreated hle
  have hdone : p.main ≠ .done := by
    intro e
    have := hp.done e
    rw [hrun] at this
    cases this
  split
  · rename_i hi
    have hnew : p.threads i = .notCreated := by
      by_contra hne
      have := (hcreated i).mp hne
      simp [RunState.created] at this
    refine ⟨hp.sound, hp.work, fun j task hj => ?_, hp.stops_le, hp.stopped, hi,
      fun j => ?_, fun j hj => ?_, Nat.zero_le _, fun j hj => absurd hj (Nat.not_lt_zero _),
      fun e => absurd e hdone⟩
    · show Function.update p.threads i .running j = .running
      by_cases e : j = i
      · subst e
        exact Function.update_self ..
      · rw [Function.update_of_ne e]
        exact hp.busy j task hj
    · show Function.update p.threads i .running j ≠ .notCreated ↔ j < i + 1
      by_cases e : j = i
      · subst e
        simp
      · rw [Function.update_of_ne e, hcreated j]
        simp only [RunState.created]
        omega
    · change Function.update p.threads i .running j = .exited at hj
      by_cases e : j = i
      · subst e
        rw [Function.update_self] at hj
        cases hj
      · rw [Function.update_of_ne e] at hj
        exact hp.exited j hj
  · rename_i hi
    have hin : i = n := Nat.le_antisymm hle (Nat.not_lt.mp hi)
    subst hin
    exact ⟨hp.sound, hp.work, hp.busy, hp.stops_le, hp.stopped, Nat.le_refl _,
      hcreated, hp.exited, Nat.zero_le _, fun j hj => absurd hj (Nat.not_lt_zero _),
      fun e => absurd e hdone⟩

/-- An io_service that returns has been stopped. -/
theorem ProcessInvariant.exit {n : Nat} {p p' : Process M} {i : Nat} (hp : ProcessInvariant n p)
    (h : ProcessStep p (.exit i) p') : ProcessInvariant n p' := by
  obtain ⟨hrunning, hidle, hmay, rfl⟩ := processStep_exit.mp h
  have hi : i < p.run.created n := by
    refine (hp.created i).mp ?_
    rw [hrunning]
    exact fun e => nomatch e
  rw [hp.mayReturn (Nat.lt_of_lt_of_le hi hp.created_le)] at hmay
  have hthreads : ∀ j, j ≠ i → Function.update p.threads i .exited j = p.threads j :=
    fun j e => Function.update_of_ne e ..
  have hself : Function.update p.threads i .exited i = .exited := Function.update_self ..
  refine ⟨hp.sound, hp.work, fun j task hj => ?_, hp.stops_le, hp.stopped,
    hp.created_le, fun j => ?_, fun j hj => ?_, hp.joined_le, fun j hj => ?_, hp.done⟩
  · by_cases e : j = i
    · subst e
      change p.server.machine.running j = some task at hj
      rw [hidle] at hj
      cases hj
    · exact (hthreads j e).trans (hp.busy j task hj)
  · show Function.update p.threads i .exited j ≠ .notCreated ↔ j < p.run.created n
    by_cases e : j = i
    · subst e
      rw [hself]
      exact ⟨fun _ => hi, fun _ e => nomatch e⟩
    · rw [hthreads j e]
      exact hp.created j
  · by_cases e : j = i
    · subst e
      exact hmay
    · exact hp.exited j ((hthreads j e).symm.trans hj)
  · by_cases e : j = i
    · subst e
      exact hself
    · exact (hthreads j e).trans (hp.joined j hj)

theorem ProcessInvariant.join {n : Nat} {p p' : Process M} (hp : ProcessInvariant n p)
    (h : ProcessStep p .join p') : ProcessInvariant n p' := by
  obtain ⟨i, hrun, hexited, rfl⟩ := processStep_join.mp h
  rw [hp.poolSize] at hexited ⊢
  have hcreated := hp.created
  have hjoined := hp.joined
  have hle := hp.joined_le
  rw [hrun] at hcreated hjoined hle
  have hdone : p.main ≠ .done := by
    intro e
    have := hp.done e
    rw [hrun] at this
    cases this
  split
  · rename_i hi
    refine ⟨hp.sound, hp.work, hp.busy, hp.stops_le, hp.stopped, Nat.le_refl _,
      hcreated, hp.exited, hi, fun j hj => ?_, fun e => absurd e hdone⟩
    by_cases e : j = i
    · subst e
      exact hexited hi
    · have hj' : j < i + 1 := hj
      exact hjoined j (Nat.lt_of_le_of_ne (Nat.le_of_lt_succ hj') e)
  · rename_i hi
    have hin : i = n := Nat.le_antisymm hle (Nat.not_lt.mp hi)
    subst hin
    exact ⟨hp.sound, hp.work, hp.busy, hp.stops_le, hp.stopped, Nat.le_refl _,
      hcreated, hp.exited, Nat.le_refl _, hjoined, fun _ => rfl⟩

theorem ProcessInvariant.stop {n : Nat} {p p' : Process M} (hp : ProcessInvariant n p)
    (h : ProcessStep p .stop p') : ProcessInvariant n p' := by
  obtain ⟨i, hmain, rfl⟩ := processStep_stop.mp h
  rw [hp.poolSize]
  have hstopped := hp.stopped
  have hle := hp.stops_le
  rw [hmain] at hstopped hle
  split
  · rename_i hi
    have hupdate : ∀ j, Function.update p.stopped i true j = true ↔ j < i + 1 := by
      intro j
      by_cases e : j = i
      · subst e
        simp
      · rw [Function.update_of_ne e, hstopped j]
        simp only [MainState.stops]
        omega
    refine ⟨hp.sound, hp.work, hp.busy, hi, hupdate, hp.created_le, hp.created,
      fun j hj => ?_, hp.joined_le, hp.joined, fun e => nomatch e⟩
    refine (hupdate j).mpr ?_
    have hlt := (hstopped j).mp (hp.exited j hj)
    exact Nat.lt_succ_of_lt hlt
  · rename_i hi
    have hin : i = n := Nat.le_antisymm hle (Nat.not_lt.mp hi)
    subst hin
    exact ⟨hp.sound, hp.work, hp.busy, Nat.le_refl _, hstopped, hp.created_le,
      hp.created, hp.exited, hp.joined_le, hp.joined, fun e => nomatch e⟩

theorem ProcessInvariant.step {n : Nat} {p p' : Process M} {ev : ProcessEvent}
    (hp : ProcessInvariant n p) (h : ProcessStep p ev p') : ProcessInvariant n p' := by
  cases ev with
  | server ev => exact hp.server h
  | create => exact hp.create h
  | exit i => exact hp.exit h
  | join => exact hp.join h
  | stop => exact hp.stop h
  | signal =>
    obtain ⟨hmain, rfl⟩ := processStep_signal.mp h
    have hstopped := hp.stopped
    rw [hmain] at hstopped
    exact ⟨hp.sound, hp.work, hp.busy, Nat.zero_le _, hstopped, hp.created_le,
      hp.created, hp.exited, hp.joined_le, hp.joined, fun e => nomatch e⟩
  | joinRun =>
    obtain ⟨hmain, hrun, rfl⟩ := processStep_joinRun.mp h
    have hstopped := hp.stopped
    rw [hmain] at hstopped
    exact ⟨hp.sound, hp.work, hp.busy, Nat.le_refl _, hstopped, hp.created_le,
      hp.created, hp.exited, hp.joined_le, hp.joined, fun _ => hrun⟩

theorem processInvariant_run {n : Nat} {p p' : Process M} {evs : List ProcessEvent}
    (hp : ProcessInvariant n p) (h : Run ProcessStep p evs p') : ProcessInvariant n p' :=
  run_invariant (fun _ _ _ hp h => hp.step h) h hp

/-! ## Orderly processes -/

/-- The event of the server, if it is one. -/
def ProcessEvent.serverEvent : ProcessEvent → Option ServerEvent
  | .server ev => some ev
  | _ => none

/-- Nothing but its own events changes the server. -/
theorem process_refines {p p' : Process M} {evs : List ProcessEvent}
    (h : Run ProcessStep p evs p') :
    Run ServerStep p.server (evs.filterMap ProcessEvent.serverEvent) p'.server := by
  refine run_refinement (I := fun _ => True) (f := Process.server) (fun _ _ _ _ _ => trivial) ?_ h
    trivial
  intro p ev p' _ h
  cases ev with
  | server ev =>
    obtain ⟨t, server, _, _, _, hs, rfl⟩ := processStep_server.mp h
    refine ⟨fun ev' e => ?_, fun e => (nomatch e)⟩
    cases e
    exact hs
  | create =>
    obtain ⟨i, _, rfl⟩ := processStep_create.mp h
    refine ⟨fun _ e => (nomatch e), fun _ => ?_⟩
    split <;> rfl
  | exit i =>
    obtain ⟨_, _, _, rfl⟩ := processStep_exit.mp h
    exact ⟨fun _ e => (nomatch e), fun _ => rfl⟩
  | join =>
    obtain ⟨i, _, _, rfl⟩ := processStep_join.mp h
    exact ⟨fun _ e => (nomatch e), fun _ => rfl⟩
  | signal =>
    obtain ⟨_, rfl⟩ := processStep_signal.mp h
    exact ⟨fun _ e => (nomatch e), fun _ => rfl⟩
  | stop =>
    obtain ⟨i, _, rfl⟩ := processStep_stop.mp h
    refine ⟨fun _ e => (nomatch e), fun _ => ?_⟩
    split <;> rfl
  | joinRun =>
    obtain ⟨_, _, rfl⟩ := processStep_joinRun.mp h
    exact ⟨fun _ e => (nomatch e), fun _ => rfl⟩

/-- What a process promises about its threads. -/
structure OrderlyProcess (p : Process M) : Prop where
  /-- An io_service serves until `stop` has come to it. -/
  exits : ∀ i, p.threads i = .exited → p.stopped i = true
  /-- Before the signal all of them serve, and `server::run` does not return. -/
  serving : p.main = .waiting → (∀ i, p.threads i ≠ .exited) ∧ p.run ≠ .returned
  /-- When `server::run` returns no handler is running. -/
  returned : p.run = .returned → p.server.Quiet
  /-- The server is destroyed after that. -/
  destroyed : p.main = .done → p.run = .returned

/-- A thread that has exited runs no handler. -/
theorem ProcessInvariant.quiet {n : Nat} {p : Process M} (hp : ProcessInvariant n p)
    (h : p.run = .returned) : p.server.Quiet := by
  have hcreated := hp.created
  have hjoined := hp.joined
  rw [h] at hcreated hjoined
  funext i
  rcases hi : p.server.machine.running i with _ | task
  · rfl
  · have hrunning := hp.busy i task hi
    have hlt : i < n := by
      refine (hcreated i).mp ?_
      rw [hrunning]
      exact fun e => nomatch e
    have hexited := hjoined i hlt
    rw [hrunning] at hexited
    cases hexited

theorem ProcessInvariant.orderly {n : Nat} {p : Process M} (hp : ProcessInvariant n p) :
    OrderlyProcess p := by
  refine ⟨hp.exited, fun hmain => ?_, hp.quiet, hp.done⟩
  have hstopped := hp.stopped
  rw [hmain] at hstopped
  have hnone : ∀ i, p.threads i ≠ .exited := by
    intro i hi
    exact absurd ((hstopped i).mp (hp.exited i hi)) (Nat.not_lt_zero i)
  refine ⟨hnone, fun hrun => ?_⟩
  have hjoined := hp.joined
  rw [hrun] at hjoined
  exact hnone 0 (hjoined 0 hp.sound.1.pos)

/-- **The process is orderly** in every run, and its server is one of the states that the
    server comes to by itself: what is proved of these holds until the end. -/
theorem process_orderly (M : Mapnik) (n : Nat) (stylesheet : M.Map) (p₀ p : Process M)
    (evs : List ProcessEvent) (hlaunch : Process.launch M n stylesheet = .ok p₀)
    (hrun : Run ProcessStep p₀ evs p) : OrderlyProcess p ∧ Reachable n stylesheet p.server := by
  refine ⟨(processInvariant_run (processInvariant_launch hlaunch) hrun).orderly, ?_⟩
  unfold Process.launch at hlaunch
  obtain ⟨s, hs, hp⟩ := (Feed.bind_ok_iff _ _ _).mp hlaunch
  cases hp
  exact ⟨s, _, hs, process_refines hrun⟩

/-- A process that is told to stop while `server::run` is still creating threads. -/
theorem process_orderly_sample :
    ∃ p : Process .sample, Run ProcessStep (Process.initial .sample 2 sampleMap)
        [.create, .signal, .stop, .exit 0, .create, .stop, .exit 1, .stop, .create, .join, .join,
          .join, .joinRun] p ∧
      OrderlyProcess p ∧ Reachable 2 sampleMap p.server := by
  obtain ⟨p, hrun⟩ : ∃ p, Run ProcessStep (Process.initial .sample 2 sampleMap)
      [.create, .signal, .stop, .exit 0, .create, .stop, .exit 1, .stop, .create, .join, .join,
        .join, .joinRun] p :=
    ⟨_, _, rfl, _, rfl, _, rfl, _, rfl, _, rfl, _, rfl, _, rfl, _, rfl, _, rfl, _, rfl, _, rfl,
      _, rfl, _, rfl, rfl⟩
  exact ⟨p, hrun, process_orderly .sample 2 sampleMap _ p _
    (launch_eq .sample (by decide) sampleMap) hrun⟩

/-! ## The end -/

/-- The moves left to each kind of thread once `stop` has returned. -/
def ThreadState.rest : ThreadState → Nat
  | .notCreated => 2
  | .running => 1
  | .exited => 0

def RunState.rest (n : Nat) : RunState → Nat
  | .creating _ => n + 2
  | .joining i => n + 1 - i
  | .returned => 0

def MainState.rest : MainState → Nat
  | .done => 0
  | _ => 1

def Process.rest (n : Nat) (p : Process M) : Nat :=
  p.server.load n + ∑ i ∈ Finset.range n, (p.threads i).rest + p.run.rest n + p.main.rest

/-- `io_service_pool::stop` has returned. -/
def Process.StopReturned (p : Process M) : Prop := p.main = .joining ∨ p.main = .done

theorem ProcessInvariant.all_stopped {n : Nat} {p : Process M} (hp : ProcessInvariant n p)
    (h : p.StopReturned) {i : Nat} (hi : i < n) : p.stopped i = true := by
  refine (hp.stopped i).mpr ?_
  rcases h with h | h <;> rw [h] <;> exact hi

theorem ProcessInvariant.thread_lt {n : Nat} {p : Process M} (hp : ProcessInvariant n p) {i : Nat}
    (h : p.threads i ≠ .notCreated) : i < n :=
  Nat.lt_of_lt_of_le ((hp.created i).mp h) hp.created_le

/-- A thread that goes on to its next state is one move less. -/
theorem sum_threads {n i : Nat} (hi : i < n) (threads : Nat → ThreadState) (x : ThreadState)
    (h : (threads i).rest = x.rest + 1) :
    ∑ j ∈ Finset.range n, (threads j).rest =
      ∑ j ∈ Finset.range n, (Function.update threads i x j).rest + 1 := by
  refine Machine.sum_one_less (Finset.mem_range.mpr hi) ?_ fun j hj => ?_
  · rw [Function.update_self]
    exact h
  · rw [Function.update_of_ne hj]

/-- What is left after `stop`: every step of the process is one of a handler that has begun, or
    leads a thread on to its end. -/
theorem rest_step {n : Nat} {p p' : Process M} {ev : ProcessEvent} (hp : ProcessInvariant n p)
    (hstop : p.StopReturned) (h : ProcessStep p ev p') :
    p'.StopReturned ∧ p'.server.settle n = p.server.settle n ∧ p'.rest n < p.rest n := by
  cases ev with
  | server ev =>
    obtain ⟨t, server, _, hrunning, hserving, hs, rfl⟩ := processStep_server.mp h
    have ht : t < n := hp.thread_lt (by rw [hrunning]; exact fun e => nomatch e)
    -- no handler begins any more
    have harrival : ev.arrival = none := by
      rcases he : ev.arrival with _ | a
      · rfl
      · have hrefused := hserving (by rw [he]; rfl)
        rw [hp.all_stopped hstop ht] at hrefused
        cases hrefused
    have hload := load_handlerStep hp.sound ⟨harrival, hs⟩
    refine ⟨hstop, (settle_step hp.sound hs).2 harrival, ?_⟩
    simp only [Process.rest]
    omega
  | create =>
    obtain ⟨i, hrun, rfl⟩ := processStep_create.mp h
    rw [hp.poolSize]
    split
    · rename_i hi
      have hnew : p.threads i = .notCreated := by
        by_contra hne
        have := (hp.created i).mp hne
        rw [hrun] at this
        simp [RunState.created] at this
      have hsum := sum_threads hi p.threads .running (by rw [hnew]; rfl)
      refine ⟨hstop, rfl, ?_⟩
      simp only [Process.rest, RunState.rest, hrun]
      omega
    · refine ⟨hstop, rfl, ?_⟩
      simp only [Process.rest, RunState.rest, hrun]
      omega
  | exit i =>
    obtain ⟨hrunning, _, _, rfl⟩ := processStep_exit.mp h
    have hi : i < n := hp.thread_lt (by rw [hrunning]; exact fun e => nomatch e)
    have hsum := sum_threads hi p.threads .exited (by rw [hrunning]; rfl)
    refine ⟨hstop, rfl, ?_⟩
    simp only [Process.rest]
    omega
  | join =>
    obtain ⟨i, hrun, _, rfl⟩ := processStep_join.mp h
    have hle := hp.joined_le
    rw [hrun] at hle
    simp only [RunState.joined] at hle
    refine ⟨hstop, rfl, ?_⟩
    rw [hp.poolSize]
    by_cases hi : i < n
    · simp only [Process.rest, hrun, hi, if_true, RunState.rest]
      omega
    · simp only [Process.rest, hrun, hi, if_false, RunState.rest]
      omega
  | signal =>
    obtain ⟨hmain, _⟩ := processStep_signal.mp h
    rcases hstop with e | e <;> rw [hmain] at e <;> cases e
  | stop =>
    obtain ⟨i, hmain, _⟩ := processStep_stop.mp h
    rcases hstop with e | e <;> rw [hmain] at e <;> cases e
  | joinRun =>
    obtain ⟨hmain, _, rfl⟩ := processStep_joinRun.mp h
    refine ⟨.inr rfl, rfl, ?_⟩
    simp only [Process.rest, MainState.rest, hmain]
    omega

/-- **No thread waits for ever**: after `stop` something can happen until the process is done. -/
theorem rest_progress {n : Nat} {p : Process M} (hp : ProcessInvariant n p)
    (hstop : p.main = .joining) : ∃ ev p', ProcessStep p ev p' := by
  by_cases hquiet : p.server.Quiet
  · rcases hrun : p.run with i | i | _
    · exact ⟨.create, _, processStep_create.mpr ⟨i, hrun, rfl⟩⟩
    · by_cases hi : i < n
      · have hcreated : p.threads i ≠ .notCreated := by
          refine (hp.created i).mpr ?_
          rw [hrun]
          exact hi
        rcases hthread : p.threads i with _ | _ | _
        · exact absurd hthread hcreated
        · have hmay : p.mayReturn i = true := by
            rw [hp.mayReturn hi]
            exact hp.all_stopped (.inl hstop) hi
          exact ⟨.exit i, _, processStep_exit.mpr ⟨hthread, congrFun hquiet i, hmay, rfl⟩⟩
        · exact ⟨.join, _, processStep_join.mpr ⟨i, hrun, fun _ => hthread, rfl⟩⟩
      · refine ⟨.join, _, processStep_join.mpr ⟨i, hrun, fun h => ?_, rfl⟩⟩
        rw [hp.poolSize] at h
        exact absurd h hi
    · exact ⟨.joinRun, _, processStep_joinRun.mpr ⟨hstop, hrun, rfl⟩⟩
  · obtain ⟨t, ht⟩ := Function.ne_iff.mp hquiet
    obtain ⟨task, htask⟩ := Option.ne_none_iff_exists'.mp ht
    have hrunning := hp.busy t task htask
    rcases Machine.advance_or_finish htask with ⟨m, ha⟩ | ⟨j, c, m, hf⟩
    · refine ⟨.server (.advance t), _, processStep_server.mpr ⟨t, { p.server with machine := m },
        rfl, hrunning, fun e => (by cases e), ?_, rfl⟩⟩
      simp only [ServerStep, Server.step, ha, Option.map_some]
    · refine ⟨.server (.finish t), _, processStep_server.mpr ⟨t,
        { p.server with machine := m, connections := p.server.connections.set j c },
        rfl, hrunning, fun e => (by cases e), ?_, rfl⟩⟩
      simp only [ServerStep, Server.step, hf, Option.map_some]

/-- **After `stop` the process ends**: from any state in which `stop` has returned, every run is
    at most as long as what is left, and one that cannot go on has destroyed the server, with
    exactly the handlers ended that were running. -/
theorem stop_ends (M : Mapnik) (n : Nat) (stylesheet : M.Map) (p₀ p p' : Process M)
    (evs evs' : List ProcessEvent) (hlaunch : Process.launch M n stylesheet = .ok p₀)
    (hrun : Run ProcessStep p₀ evs p) (hstop : p.main = .joining)
    (hrun' : Run ProcessStep p evs' p') :
    evs'.length ≤ p.rest n ∧
      ((∀ ev p'', ¬ ProcessStep p' ev p'') →
        p'.main = .done ∧ p'.server = p.server.settle n) := by
  have hp := processInvariant_run (processInvariant_launch hlaunch) hrun
  have hstep : ∀ q ev q', (ProcessInvariant n q ∧ q.StopReturned ∧
      q.server.settle n = p.server.settle n) → ProcessStep q ev q' →
      ProcessInvariant n q' ∧ q'.StopReturned ∧ q'.server.settle n = p.server.settle n := by
    rintro q ev q' ⟨hq, hqs, hqe⟩ h
    obtain ⟨hs, he, _⟩ := rest_step hq hqs h
    exact ⟨hq.step h, hs, he.trans hqe⟩
  have hstart : ProcessInvariant n p ∧ p.StopReturned ∧
      p.server.settle n = p.server.settle n := ⟨hp, .inl hstop, rfl⟩
  constructor
  · exact run_length_le hstep (fun q ev q' hq h => (rest_step hq.1 hq.2.1 h).2.2) hrun' hstart
  · intro hstuck
    obtain ⟨hp', hstop', heq⟩ := run_invariant hstep hrun' hstart
    have hdone : p'.main = .done := by
      rcases hstop' with h | h
      · obtain ⟨ev, p'', h⟩ := rest_progress hp' h
        exact absurd h (hstuck ev p'')
      · exact h
    refine ⟨hdone, ?_⟩
    rw [← heq, settle_quiet (hp'.quiet (hp'.done hdone))]

/-- `stop` while the handler of a client is at work. The twelve moves that are left end it and
    the process. -/
theorem stop_ends_sample :
    ∃ p p' : Process .sample, Run ProcessStep (Process.initial .sample 1 sampleMap)
        [.create, .server (.accept false), .server (.complete 0 (.read (some sampleText))),
          .server (.advance 0), .signal, .stop, .stop] p ∧
      Run ProcessStep p (List.replicate 6 (.server (.advance 0)) ++
        [.server (.finish 0), .exit 0, .create, .join, .join, .joinRun]) p' ∧
      p'.main = .done ∧ p'.server = p.server.settle 1 := by
  obtain ⟨p, hrun, htest⟩ := run_of_any Process.step (Process.initial .sample 1 sampleMap)
    [.create, .server (.accept false), .server (.complete 0 (.read (some sampleText))),
      .server (.advance 0), .signal, .stop, .stop]
    (fun p => decide (p.main = .joining ∧ p.rest 1 = 12) &&
      (List.foldlM Process.step p (List.replicate 6 (.server (.advance 0)) ++
        [.server (.finish 0), .exit 0, .create, .join, .join, .joinRun])).isSome)
    (by decide +kernel)
  simp only [Bool.and_eq_true, decide_eq_true_eq, Option.isSome_iff_exists] at htest
  obtain ⟨⟨hstop, hrest⟩, p', hsteps⟩ := htest
  have hrun' := run_iff_foldlM.mpr hsteps
  have hlaunch := launch_eq .sample (n := 1) (by decide) sampleMap
  obtain ⟨-, hend⟩ := stop_ends .sample 1 sampleMap _ p p' _ _ hlaunch hrun hstop hrun'
  refine ⟨p, p', hrun, hrun', hend fun ev p'' h => ?_⟩
  -- one move more would be one too many
  obtain ⟨hlen, -⟩ := stop_ends .sample 1 sampleMap _ p p'' _ _ hlaunch hrun hstop
    (run_snoc.mpr ⟨p', hrun', h⟩)
  rw [hrest, List.length_append, List.length_singleton] at hlen
  exact absurd hlen (by decide)

end PaleoServer

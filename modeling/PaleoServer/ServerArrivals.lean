/-
  What clients can do to the server, and when.

  `Admissible` says when something can come from outside, in terms of what has come before and of
  single connections that are served alone: it does not mention the server. Proved:
  `arrivals_possible_iff`. A sequence of arrivals is one of a run of the server exactly when each
  is admissible after those before it. With `connections_independent`, which says where the
  connections are then, the server is the product of its connections behind one acceptor.
-/
import PaleoServer.ConnectionIndependence

namespace PaleoServer

open Atomic Trace

variable {M : Mapnik}

/-- A client is accepted. -/
def Arrival.isClient : Arrival → Bool
  | .accept false => true
  | _ => false

/-- What can come after some arrivals: an accept completes if none has failed; a completion
    comes for a client that has been accepted, if its connection would take it alone. -/
def Admissible (n : Nat) (stylesheet : M.Map) (as : List Arrival) : Arrival → Prop
  | .accept _ => .accept true ∉ as
  | .complete k ev => k < as.countP Arrival.isClient ∧
      ∃ c c', Run (AloneStep stylesheet) (Connection.create ((k + 1) % n) (k % n)).start
        (completionsOf k as) c ∧ AloneStep stylesheet c ev c'

/-- A connection alone goes one way. -/
theorem aloneStep_functional {stylesheet : M.Map} {c c₁ c₂ : Connection} {ev : Completion}
    (h₁ : AloneStep stylesheet c ev c₁) (h₂ : AloneStep stylesheet c ev c₂) : c₁ = c₂ := by
  obtain ⟨code, hd, rfl⟩ := h₁
  obtain ⟨code', hd', rfl⟩ := h₂
  cases hd.symm.trans hd'
  rfl

/-- What the serial server is after some arrivals. -/
structure ArrivalHistory (n : Nat) (stylesheet : M.Map) (as : List Arrival) (s : Server M) :
    Prop where
  serial : SerialInvariant n stylesheet as s
  independent : Independent n stylesheet as s
  notServed : NotServed as s
  clients : s.newConnection = as.countP Arrival.isClient
  accepts : s.accepts = if .accept true ∈ as then [] else [s.newConnection]

theorem arrivalHistory_create {n : Nat} {stylesheet : M.Map} {s : Server M}
    (h : Server.create M n stylesheet = .ok s) : ArrivalHistory n stylesheet [] s := by
  have hserial := serialInvariant_create h
  have hindependent := independent_create h
  rw [create_eq M hserial.sound.1.pos] at h
  cases h
  exact ⟨hserial, hindependent, fun _ _ => rfl, rfl, rfl⟩

theorem ArrivalHistory.step {n : Nat} {stylesheet : M.Map} {as : List Arrival} {s s' : Server M}
    {a : Arrival} (hh : ArrivalHistory n stylesheet as s) (h : SerialStep s a s') :
    ArrivalHistory n stylesheet (as ++ [a]) s' := by
  refine ⟨hh.serial.step h, Independent.step hh.serial hh.independent hh.notServed h,
    NotServed.step hh.serial.sound.1 hh.notServed h, ?_, ?_⟩
  · rw [List.countP_append, List.countP_singleton]
    cases a with
    | accept error =>
      obtain ⟨_, accepts, _, _, rfl⟩ := (hh.serial.sound.1.step_accept_iff error).mp h
      cases error with
      | true => exact hh.clients
      | false =>
        have hnewest := hh.serial.sound.1.newest
        change s.connections.length = _
        rw [← hnewest, hh.clients]
        rfl
    | complete k ev =>
      obtain ⟨_, _, _, _, rfl⟩ := serialStep_complete.mp h
      exact hh.clients
  · have hacc := hh.accepts
    cases a with
    | accept error =>
      obtain ⟨k, accepts, hk, _, rfl⟩ := (hh.serial.sound.1.step_accept_iff error).mp h
      -- none has failed so far, so this was the only one outstanding
      have hok : .accept true ∉ as := by
        intro hm
        rw [if_pos hm, hk] at hacc
        cases hacc
      rw [if_neg hok, hk] at hacc
      cases hacc
      cases error with
      | true => simp
      | false => simp [hok, Server.accepted]
    | complete k ev =>
      obtain ⟨_, _, _, _, rfl⟩ := serialStep_complete.mp h
      simpa using hacc

/-- The next arrivals are those that are admissible. -/
theorem ArrivalHistory.next_iff {n : Nat} {stylesheet : M.Map} {as : List Arrival} {s : Server M}
    (hh : ArrivalHistory n stylesheet as s) (a : Arrival) :
    (∃ s', SerialStep s a s') ↔ Admissible n stylesheet as a := by
  have hi := hh.serial
  cases a with
  | accept error =>
    have hidle := congrFun hi.quiet s.acceptor
    have hacc := hh.accepts
    constructor
    · rintro ⟨s', h⟩ hm
      obtain ⟨k, accepts, hk, _, _⟩ := (hi.sound.1.step_accept_iff error).mp h
      rw [if_pos hm, hk] at hacc
      cases hacc
    · intro hok
      rw [if_neg hok] at hacc
      exact ⟨_, (hi.sound.1.step_accept_iff error).mpr ⟨_, [], hacc, hidle, rfl⟩⟩
  | complete k ev =>
    constructor
    · rintro ⟨s', h⟩
      obtain ⟨c, code, hc, hd, rfl⟩ := serialStep_complete.mp h
      have hk := hi.sound.1.started hc hd
      refine ⟨hh.clients ▸ hk, c, _, hh.independent k c hk hc, code, hd, rfl⟩
    · rintro ⟨hk, c, c', hrun, code, hd, rfl⟩
      rw [← hh.clients] at hk
      have hnewest := hi.sound.1.newest
      have hlt : k < s.connections.length := by omega
      have hc := List.getElem?_eq_getElem hlt
      -- the connection is where it is alone
      have heq := run_functional (R := AloneStep stylesheet) (fun _ _ _ _ => aloneStep_functional)
        (hh.independent k _ hk hc) hrun
      rw [heq] at hc
      exact ⟨_, serialStep_complete.mpr ⟨c, code, hc, hd, rfl⟩⟩

/-- **Which arrivals are possible**: a sequence of arrivals is one of a run of the server exactly
    when no accept comes after one that failed, and every completion is one for a client that
    has been accepted, whose connection takes it when it is served alone. -/
theorem arrivals_possible_iff (M : Mapnik) (n : Nat) (stylesheet : M.Map) (s₀ : Server M)
    (hcreate : Server.create M n stylesheet = .ok s₀) (as : List Arrival) :
    (∃ evs s, Run ServerStep s₀ evs s ∧ evs.filterMap ServerEvent.arrival = as) ↔
      ∀ pre a, pre ++ [a] <+: as → Admissible n stylesheet pre a := by
  rw [← run_possible_iff (fun _ _ _ _ hh h => ArrivalHistory.step hh h)
    (fun _ _ a hh => hh.next_iff a) (arrivalHistory_create hcreate)]
  constructor
  · rintro ⟨evs, s, hrun, rfl⟩
    have hserial := settle_run (sound_create hcreate) hrun
    rw [settle_quiet (quiet_create hcreate)] at hserial
    exact ⟨_, hserial⟩
  · rintro ⟨s, hserial⟩
    obtain ⟨evs, hevs, hrun⟩ := run_arrivals (sound_create hcreate) (quiet_create hcreate) hserial
    exact ⟨evs, s, hrun, hevs⟩

/-- A client comes, its request, another client; but none after an accept that failed. -/
theorem arrivals_possible_iff_sample :
    (∃ evs s, Run ServerStep (Server.initial .sample 2 sampleMap) evs s ∧
      evs.filterMap ServerEvent.arrival =
        [.accept false, .complete 0 (.read (some sampleText)), .accept false]) ∧
      ¬ ∃ evs s, Run ServerStep (Server.initial .sample 2 sampleMap) evs s ∧
        evs.filterMap ServerEvent.arrival = [.accept true, .accept false] := by
  have hcreate := create_eq .sample (n := 2) (by decide) sampleMap
  constructor
  · have hnone : ∀ pre a, pre ++ [a] <+: [] → Admissible (M := .sample) 2 sampleMap pre a := by
      intro pre a hpre
      simp at hpre
    have hclient : Admissible (M := .sample) 2 sampleMap [] (.accept false) := List.not_mem_nil
    have hread : Admissible (M := .sample) 2 sampleMap [.accept false]
        (.complete 0 (.read (some sampleText))) := ⟨by decide, _, _, rfl, _, rfl, rfl⟩
    have hnext : Admissible (M := .sample) 2 sampleMap
        [.accept false, .complete 0 (.read (some sampleText))] (.accept false) := by
      show Arrival.accept true ∉ [.accept false, .complete 0 (.read (some sampleText))]
      simp
    exact (arrivals_possible_iff .sample 2 sampleMap _ hcreate _).mpr
      (forall_next_snoc.mpr ⟨forall_next_snoc.mpr ⟨forall_next_snoc.mpr
        ⟨hnone, hclient⟩, hread⟩, hnext⟩)
  · intro h
    have hall := (arrivals_possible_iff .sample 2 sampleMap _ hcreate _).mp h
    exact hall [.accept true] (.accept false) List.prefix_rfl List.mem_cons_self

end PaleoServer

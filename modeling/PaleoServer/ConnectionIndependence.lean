/-
  The server is many servers of one connection each.

  `AloneStep` is a connection that has the process to itself: its handler runs on a map as it
  was loaded from the stylesheet. Proved: `connections_independent`. After any run of the
  server, a connection that has been accepted is, once the running handlers have ended, where
  its own completions lead it alone: its parser, its request, its reply, the operations that
  are outstanding and all it has done. What other clients send, and when, is not seen.
-/
import PaleoServer.ServerAnswers

namespace PaleoServer

open Atomic Trace

variable {M : Mapnik}

/-- The completion an arrival is for connection `k`. -/
def Arrival.completion (k : Nat) : Arrival → Option Completion
  | .accept _ => none
  | .complete l ev => if l = k then some ev else none

/-- The completions of connection `k`, in their order. -/
def completionsOf (k : Nat) (as : List Arrival) : List Completion :=
  as.filterMap (Arrival.completion k)

theorem completionsOf_snoc (k : Nat) (as : List Arrival) (a : Arrival) :
    completionsOf k (as ++ [a]) = completionsOf k as ++ (a.completion k).toList := by
  unfold completionsOf
  rw [List.filterMap_append]
  rcases h : a.completion k with _ | ev <;> simp [h]

theorem completionsOf_accept (k : Nat) (as : List Arrival) (error : Bool) :
    completionsOf k (as ++ [.accept error]) = completionsOf k as := by
  rw [completionsOf_snoc]
  exact List.append_nil _

theorem completionsOf_self (k : Nat) (as : List Arrival) (ev : Completion) :
    completionsOf k (as ++ [.complete k ev]) = completionsOf k as ++ [ev] := by
  rw [completionsOf_snoc, Arrival.completion, if_pos rfl]
  rfl

theorem completionsOf_of_ne {k l : Nat} (h : k ≠ l) (as : List Arrival) (ev : Completion) :
    completionsOf l (as ++ [.complete k ev]) = completionsOf l as := by
  rw [completionsOf_snoc, Arrival.completion, if_neg h]
  exact List.append_nil _

/-- A completion with all that its handler does, on a map as it was loaded. -/
def AloneStep (stylesheet : M.Map) (c : Connection) (ev : Completion) (c' : Connection) : Prop :=
  ∃ code, c.deliver M ev = some code ∧ c' = (code.run stylesheet).1

/-- Every connection that has been accepted is where its completions lead it alone. -/
def Independent (n : Nat) (stylesheet : M.Map) (as : List Arrival) (s : Server M) : Prop :=
  ∀ k c, k < s.newConnection → s.connections[k]? = some c →
    Run (AloneStep stylesheet) (Connection.create ((k + 1) % n) (k % n)).start
      (completionsOf k as) c

/-- A connection that has not been accepted has no completions. -/
def NotServed (as : List Arrival) (s : Server M) : Prop :=
  ∀ k, s.newConnection ≤ k → completionsOf k as = []

theorem Independent.step {n : Nat} {stylesheet : M.Map} {as : List Arrival} {s s' : Server M}
    {a : Arrival} (hi : SerialInvariant n stylesheet as s) (hind : Independent n stylesheet as s)
    (hnone : NotServed as s) (h : SerialStep s a s') : Independent n stylesheet (as ++ [a]) s' := by
  cases a with
  | accept error =>
    obtain ⟨j, accepts, _, _, rfl⟩ := (hi.sound.1.step_accept_iff error).mp h
    intro k c hk hc
    rw [completionsOf_accept]
    cases error with
    | true => exact hind k c hk hc
    | false =>
      rcases hi.sound.1.accepted_cases accepts hk hc with ⟨rfl, rfl⟩ | ⟨hk, hc⟩
      · rw [hnone _ (Nat.le_refl _)]
        rfl
      · exact hind k c hk hc
  | complete k ev =>
    obtain ⟨c, code, hc, hd, rfl⟩ := serialStep_complete.mp h
    have hk := hi.sound.1.started hc hd
    have hsame := hi.sameStylesheet c.map
    intro l d hl hdl
    rcases set_cases hdl with ⟨rfl, rfl⟩ | ⟨e, hdl⟩
    · rw [completionsOf_self]
      exact run_snoc.mpr ⟨c, hind l c hk hc, code, hd, run_deliver_same hsame hd⟩
    · rw [completionsOf_of_ne e]
      exact hind l d hl hdl

theorem NotServed.step {n : Nat} {as : List Arrival} {s s' : Server M} {a : Arrival}
    (hs : Invariant n s) (hnone : NotServed as s) (h : SerialStep s a s') :
    NotServed (as ++ [a]) s' := by
  have hnewest := hs.newest
  cases a with
  | accept error =>
    obtain ⟨j, accepts, _, _, rfl⟩ := (hs.step_accept_iff error).mp h
    intro k hk
    rw [completionsOf_accept]
    cases error with
    | true => exact hnone k hk
    | false =>
      change s.connections.length ≤ k at hk
      exact hnone k (by omega)
  | complete k ev =>
    obtain ⟨c, code, hc, hd, rfl⟩ := serialStep_complete.mp h
    have hk := hs.started hc hd
    intro l hl
    change s.newConnection ≤ l at hl
    rw [completionsOf_of_ne (by omega)]
    exact hnone l hl

theorem independent_create {n : Nat} {stylesheet : M.Map} {s : Server M}
    (h : Server.create M n stylesheet = .ok s) : Independent n stylesheet [] s := by
  have hpos := (sound_create h).1.pos
  rw [create_eq M hpos] at h
  cases h
  exact fun k c hk => absurd hk (Nat.not_lt_zero k)

/-- When the running handlers have ended, every accepted connection is where its own completions
    lead it. -/
theorem independent_settle {n : Nat} {stylesheet : M.Map} {s₀ s : Server M}
    {evs : List ServerEvent} (hcreate : Server.create M n stylesheet = .ok s₀)
    (hrun : Run ServerStep s₀ evs s) :
    Sound n (s.settle n) ∧
      Independent n stylesheet (evs.filterMap ServerEvent.arrival) (s.settle n) := by
  have hserial := settle_run (sound_create hcreate) hrun
  rw [settle_quiet (quiet_create hcreate)] at hserial
  obtain ⟨hi, hind, -⟩ := run_history (p := [])
    (H := fun as s => SerialInvariant n stylesheet as s ∧ Independent n stylesheet as s ∧
      NotServed as s)
    (fun _ _ _ _ hH h => ⟨hH.1.step h, Independent.step hH.1 hH.2.1 hH.2.2 h,
      NotServed.step hH.1.sound.1 hH.2.2 h⟩) hserial
    ⟨serialInvariant_create hcreate, independent_create hcreate, fun _ _ => rfl⟩
  exact ⟨hi.sound, hind⟩

/-- **Connections do not depend on each other**: after any run, an accepted connection is, once
    the handlers have ended, where its own completions lead it when it is served alone. -/
theorem connections_independent (M : Mapnik) (n : Nat) (stylesheet : M.Map) (s₀ s : Server M)
    (evs : List ServerEvent) (hcreate : Server.create M n stylesheet = .ok s₀)
    (hrun : Run ServerStep s₀ evs s) (k : Nat) (hk : k < s.newConnection) :
    ∃ c, (s.settle n).connections[k]? = some c ∧
      Run (AloneStep stylesheet) (Connection.create ((k + 1) % n) (k % n)).start
        (completionsOf k (evs.filterMap ServerEvent.arrival)) c := by
  obtain ⟨hsound, hind⟩ := independent_settle hcreate hrun
  have hlt : k < (s.settle n).connections.length := by
    have hnewest := hsound.1.newest
    change s.newConnection + 1 = _ at hnewest
    omega
  exact ⟨_, List.getElem?_eq_getElem hlt, hind k _ hk (List.getElem?_eq_getElem hlt)⟩

/-- A client whose request is still being handled. -/
theorem connections_independent_sample :
    ∃ (s : Server .sample) (c : Connection),
      Run ServerStep (Server.initial .sample 2 sampleMap)
        [.accept false, .complete 0 (.read (some sampleText))] s ∧
      (s.settle 2).connections[0]? = some c ∧
      Run (AloneStep sampleMap) (Connection.create 1 0).start [.read (some sampleText)] c := by
  obtain ⟨s, hrun, hnew⟩ : ∃ s : Server .sample,
      Run ServerStep (Server.initial .sample 2 sampleMap)
        [.accept false, .complete 0 (.read (some sampleText))] s ∧ s.newConnection = 1 :=
    ⟨_, ⟨_, rfl, _, rfl, rfl⟩, rfl⟩
  obtain ⟨c, hc, halone⟩ := connections_independent .sample 2 sampleMap _ s _
    (create_eq .sample (by decide) sampleMap) hrun 0 (by omega)
  exact ⟨s, c, hrun, hc, halone⟩

end PaleoServer

/-
  Is the server listening? It is while an accept is outstanding on its acceptor, for a
  connection that has not been started.

  `handle_accept` starts the next accept inside `if (!e)`, so an accept that completes with an
  error is the last one. `listening_iff` says so for every run: the server still listens
  exactly when no accept has failed.
-/
import PaleoServer.Server

namespace PaleoServer

open Trace

variable {M : Mapnik}

/-- Exactly one accept is outstanding, for a connection that has not been started. -/
def Listening (s : Server M) : Prop :=
  ∃ k c, s.accepts = [k] ∧ s.connections[k]? = some c ∧ c.log = []

/-- The accepts outstanding after some events: the newest connection's, or none for good. -/
def AcceptsAfter (evs : List ServerEvent) (s : Server M) : Prop :=
  s.accepts = if .accept true ∈ evs then [] else [s.newConnection]

theorem acceptsAfter_step {n : Nat} {evs : List ServerEvent} {ev : ServerEvent}
    {s s' : Server M} (hs : Invariant n s) (ha : AcceptsAfter evs s) (h : ServerStep s ev s') :
    AcceptsAfter (evs ++ [ev]) s' := by
  unfold AcceptsAfter at ha ⊢
  cases ev with
  | accept error =>
    obtain ⟨k, accepts, hacc, rfl⟩ := hs.step_accept h
    -- an accept was outstanding, so none has failed so far
    have hok : .accept true ∉ evs := by
      intro hm
      rw [if_pos hm, hacc] at ha
      cases ha
    rw [if_neg hok, hacc] at ha
    cases ha
    cases error with
    | true => simp
    | false => simp [hok, Server.accepted]
  | complete k ev =>
    obtain ⟨_, _, _, _, _, _, rfl⟩ := step_complete h
    simpa using ha
  | advance t =>
    obtain ⟨_, _, rfl⟩ := step_advance h
    simpa using ha
  | finish t =>
    obtain ⟨_, _, _, _, rfl⟩ := step_finish h
    simpa using ha

theorem acceptsAfter_run {n : Nat} {stylesheet : M.Map} {s₀ s : Server M}
    {evs : List ServerEvent} (hcreate : Server.create M n stylesheet = .ok s₀)
    (hrun : Run ServerStep s₀ evs s) : Invariant n s ∧ AcceptsAfter evs s := by
  refine run_history (H := fun evs s => Invariant n s ∧ AcceptsAfter evs s) (p := []) ?_ hrun ?_
  · intro evs s ev s' ⟨hs, ha⟩ h
    exact ⟨hs.step h, acceptsAfter_step hs ha h⟩
  · refine ⟨invariant_create hcreate, ?_⟩
    rcases Nat.eq_zero_or_pos n with rfl | hn
    · rw [create_zero] at hcreate
      cases hcreate
    · rw [create_eq M hn] at hcreate
      cases hcreate
      rfl

/-- **When the server listens**: after any run from the constructor, an accept is outstanding on
    a connection that has not been started exactly when no accept of the run failed. -/
theorem listening_iff (M : Mapnik) (n : Nat) (stylesheet : M.Map) (s₀ s : Server M)
    (evs : List ServerEvent) (hcreate : Server.create M n stylesheet = .ok s₀)
    (hrun : Run ServerStep s₀ evs s) : Listening s ↔ ∀ ev ∈ evs, ev ≠ .accept true := by
  obtain ⟨hs, ha⟩ := acceptsAfter_run hcreate hrun
  unfold AcceptsAfter at ha
  constructor
  · rintro ⟨k, c, hk, _, _⟩ ev hev rfl
    rw [if_pos hev, hk] at ha
    cases ha
  · intro hok
    rw [if_neg fun hm => hok _ hm rfl] at ha
    exact ⟨s.newConnection, _, ha, hs.waiting, rfl⟩

theorem listening_after_accept :
    ∃ s₀ s, Server.create .sample 2 sampleMap = .ok s₀ ∧ Run ServerStep s₀ [.accept false] s ∧
      Listening s := by
  have hcreate := create_eq .sample (n := 2) (by decide) sampleMap
  have hrun : Run ServerStep (Server.initial .sample 2 sampleMap) [.accept false] _ :=
    run_single.mpr (initial_accept .sample (by decide) sampleMap)
  exact ⟨_, _, hcreate, hrun,
    (listening_iff .sample 2 sampleMap _ _ _ hcreate hrun).mpr (by simp)⟩

/-- The first accept fails: none is outstanding any more. -/
theorem not_listening_after_error :
    ∃ s₀ s, Server.create .sample 2 sampleMap = .ok s₀ ∧ Run ServerStep s₀ [.accept true] s ∧
      ¬ Listening s := by
  have hstep : ServerStep (Server.initial .sample 2 sampleMap) (.accept true)
      { Server.initial .sample 2 sampleMap with accepts := [] } := rfl
  refine ⟨_, _, create_eq .sample (by decide) sampleMap, run_single.mpr hstep, ?_⟩
  rintro ⟨k, c, hk, _⟩
  cases hk

end PaleoServer

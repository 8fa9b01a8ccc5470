/-
  Executions without end, and what fairness gives in them.

  An `Execution` has a state at every time and perhaps a label; the state stays where there is
  none. So one definition covers the runs that go on for ever and those that come to an end and
  stay there (`execution_of_run`).

  Proved: `Execution.run`, an execution up to a time is a run; `Execution.eventually_not`, the
  rule for weak fairness. A condition ends when the labels of its own are taken often enough,
  each of them lowers a rank or ends it, and no other label changes the rank.
-/
import PaleoServer.Lib.Trace

namespace Trace

variable {σ α : Type}

/-- States and labels at the times 0, 1, 2 and so on. -/
structure Execution (R : σ → α → σ → Prop) where
  state : Nat → σ
  label : Nat → Option α
  moves : ∀ i a, label i = some a → R (state i) a (state (i + 1))
  rests : ∀ i, label i = none → state (i + 1) = state i

namespace Execution

variable {R : σ → α → σ → Prop}

/-- The labels before a time. -/
def labels (e : Execution R) (i : Nat) : List α := (List.range i).filterMap e.label

theorem labels_succ (e : Execution R) (i : Nat) :
    e.labels (i + 1) = e.labels i ++ (e.label i).toList := by
  unfold labels
  rw [List.range_succ, List.filterMap_append]
  rcases h : e.label i with _ | a <;> simp [h]

theorem labels_mono (e : Execution R) {i j : Nat} (h : i ≤ j) : e.labels i <+: e.labels j := by
  induction h with
  | refl => exact List.prefix_rfl
  | @step j _ ih =>
    rw [labels_succ]
    exact ih.trans (List.prefix_append ..)

/-- An execution up to a time is a run. -/
theorem run (e : Execution R) (i : Nat) : Run R (e.state 0) (e.labels i) (e.state i) := by
  induction i with
  | zero => rfl
  | succ i ih =>
    rw [labels_succ]
    rcases h : e.label i with _ | a
    · rw [e.rests i h, Option.toList_none, List.append_nil]
      exact ih
    · exact run_snoc.mpr ⟨e.state i, ih, e.moves i a h⟩

/-- From a time on, the rank of a condition that does not end. -/
theorem rank_le {I : σ → Prop} (e : Execution R) (busy : σ → Prop) (own : α → Prop)
    (rank : σ → Nat) (hI : ∀ i, I (e.state i))
    (hother : ∀ s a s', I s → R s a s' → busy s → ¬ own a → rank s' = rank s)
    (hown : ∀ s a s', I s → R s a s' → busy s → own a → busy s' → rank s' < rank s)
    {i : Nat} (hbusy : ∀ j, i ≤ j → busy (e.state j)) {j : Nat} (h : i ≤ j) :
    rank (e.state j) ≤ rank (e.state i) := by
  induction h with
  | refl => exact Nat.le_refl _
  | @step j hj ih =>
    refine Nat.le_trans ?_ ih
    rcases hl : e.label j with _ | a
    · rw [e.rests j hl]
    · have hstep := e.moves j a hl
      by_cases ha : own a
      · exact Nat.le_of_lt (hown _ a _ (hI j) hstep (hbusy j hj) ha (hbusy _ (Nat.le_succ_of_le hj)))
      · exact Nat.le_of_eq (hother _ a _ (hI j) hstep (hbusy j hj) ha)

/-- **Weak fairness with a rank**: a condition that cannot hold for ever without a label of its
    own ends. -/
theorem eventually_not {I : σ → Prop} (e : Execution R) (busy : σ → Prop) (own : α → Prop)
    (rank : σ → Nat) (hI : ∀ i, I (e.state i))
    (hother : ∀ s a s', I s → R s a s' → busy s → ¬ own a → rank s' = rank s)
    (hown : ∀ s a s', I s → R s a s' → busy s → own a → busy s' → rank s' < rank s)
    (hfair : ∀ i, (∀ j, i ≤ j → busy (e.state j)) → ∃ j a, i ≤ j ∧ e.label j = some a ∧ own a)
    (i : Nat) : ∃ j, i ≤ j ∧ ¬ busy (e.state j) := by
  by_contra hnever
  have hbusy : ∀ j, i ≤ j → busy (e.state j) := by
    intro j hj
    by_contra h
    exact hnever ⟨j, hj, h⟩
  clear hnever
  induction hn : rank (e.state i) using Nat.strongRecOn generalizing i with
  | ind n ih =>
    obtain ⟨j, a, hj, hl, ha⟩ := hfair i hbusy
    have hlater : ∀ k, j + 1 ≤ k → busy (e.state k) := fun k hk => hbusy k (by omega)
    have hle := e.rank_le busy own rank hI hother hown hbusy hj
    have hlt := hown _ a _ (hI j) (e.moves j a hl) (hbusy j hj) ha (hlater _ (Nat.le_refl _))
    exact ih _ (by omega) (j + 1) hlater rfl

/-! ## Runs as executions -/

/-- Nothing happens. -/
def resting (s : σ) : Execution R where
  state _ := s
  label _ := none
  moves _ _ h := by cases h
  rests _ _ := rfl

/-- A step, then an execution. -/
def after {s : σ} {a : α} (e : Execution R) (h : R s a (e.state 0)) : Execution R where
  state i := i.casesOn s e.state
  label i := i.casesOn (some a) e.label
  moves i b hb := by
    cases i with
    | zero =>
      cases hb
      exact h
    | succ i => exact e.moves i b hb
  rests i hi := by
    cases i with
    | zero => cases hi
    | succ i => exact e.rests i hi

theorem labels_after {s : σ} {a : α} (e : Execution R) (h : R s a (e.state 0)) (i : Nat) :
    (e.after h).labels (i + 1) = a :: e.labels i := by
  induction i with
  | zero => rfl
  | succ i ih =>
    rw [labels_succ, ih, labels_succ, List.cons_append]
    rfl

end Execution

/-- A run, followed by rest for ever. -/
theorem execution_of_run {R : σ → α → σ → Prop} {s s' : σ} {as : List α} (h : Run R s as s') :
    ∃ e : Execution R, e.state 0 = s ∧ e.labels as.length = as ∧
      ∀ i, as.length ≤ i → e.state i = s' ∧ e.label i = none := by
  induction as generalizing s with
  | nil =>
    cases h
    exact ⟨.resting s', rfl, rfl, fun _ _ => ⟨rfl, rfl⟩⟩
  | cons a as ih =>
    obtain ⟨t, ha, has⟩ := h
    obtain ⟨e, rfl, hlabels, hrest⟩ := ih has
    refine ⟨e.after ha, rfl, ?_, fun i hi => ?_⟩
    · rw [List.length_cons, Execution.labels_after, hlabels]
    · cases i with
      | zero => exact absurd hi (Nat.not_succ_le_zero _)
      | succ i => exact hrest i (Nat.le_of_succ_le_succ hi)

end Trace

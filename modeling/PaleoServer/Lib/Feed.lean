/-
  Incremental recognisers. A recogniser reads symbols one at a time with a fallible step
  function `step : σ → α → Except ε (Option β × σ)`: an error `e`, or a verdict (`none` while
  more input is wanted, `some v` once it has decided) together with the next state. `feed` runs
  it over a list and stops at the first definite verdict, returning the unread rest.

  Proved, for every step function:
  * `feed_append_none`, `feed_append_some`: feeding a concatenation. A run that is still
    undecided goes on with the second part; a decided run never looks at it.
  * `feed_some_split`: the verdict is given at one symbol, and what precedes it is undecided.
  * `feed_history`: a relation between the state and the symbols read so far that every
    undecided step preserves holds after every undecided run.
  * `feed_total`: no error on states that satisfy an invariant under which no step fails;
    `feedChunks_total`: the same for input that comes in chunks.
  * `Undecided`: runs without a verdict compose (`Undecided.trans`), and so do the runs of a
    loop (`Undecided.loop`).
  * `readLog_none`, `readLog_some`: only the last symbol read can carry a definite verdict.
-/
import Mathlib

namespace Feed

variable {σ α β ε : Type}

/-- Run `step` over a list of symbols until the first definite verdict. Returns the verdict
    (`none` when the input ran out first), the unread symbols and the last state. -/
def feed (step : σ → α → Except ε (Option β × σ)) (s : σ) :
    List α → Except ε (Option β × List α × σ)
  | [] => .ok (none, [], s)
  | a :: as =>
    match step s a with
    | .error e => .error e
    | .ok (some v, s') => .ok (some v, as, s')
    | .ok (none, s') => feed step s' as

/-- The symbols `feed` reads, each with the verdict its step gave. -/
def readLog (step : σ → α → Except ε (Option β × σ)) (s : σ) : List α → List (α × Option β)
  | [] => []
  | a :: as =>
    match step s a with
    | .error _ => []
    | .ok (some v, _) => [(a, some v)]
    | .ok (none, s') => (a, none) :: readLog step s' as

/-- A sequence of fallible computations succeeds when both parts do. -/
theorem bind_ok_iff (x : Except ε α) (f : α → Except ε β) (r : β) :
    (x >>= f) = .ok r ↔ ∃ a, x = .ok a ∧ f a = .ok r := by
  cases x with
  | error e => simp [bind, Except.bind]
  | ok a => simp [bind, Except.bind]

/-- The errors of a sequence are those of its parts. -/
theorem bind_error {P : ε → Prop} {x : Except ε α} {f : α → Except ε β}
    (hx : ∀ e, x = .error e → P e) (hf : ∀ a e, f a = .error e → P e) :
    ∀ e, (x >>= f) = .error e → P e := by
  intro e h
  cases x with
  | error e' =>
    cases h
    exact hx e rfl
  | ok a => exact hf a e h

variable {step : σ → α → Except ε (Option β × σ)}

@[simp] theorem feed_nil (s : σ) : feed step s [] = .ok (none, [], s) := rfl

theorem feed_cons_none {s s' : σ} {a : α} (h : step s a = .ok (none, s')) (as : List α) :
    feed step s (a :: as) = feed step s' as := by
  rw [feed, h]

theorem feed_cons_some {s s' : σ} {a : α} {v : β} (h : step s a = .ok (some v, s'))
    (as : List α) : feed step s (a :: as) = .ok (some v, as, s') := by
  rw [feed, h]

theorem feed_cons_error {s : σ} {a : α} {e : ε} (h : step s a = .error e) (as : List α) :
    feed step s (a :: as) = .error e := by
  rw [feed, h]

/-! ## Concatenated input -/

theorem feed_append_none {s s' : σ} {xs r : List α} (h : feed step s xs = .ok (none, r, s'))
    (ys : List α) : feed step s (xs ++ ys) = feed step s' ys := by
  induction xs generalizing s with
  | nil => cases h; rfl
  | cons a as ih =>
    rcases hs : step s a with e | ⟨_ | v, t⟩
    · rw [feed_cons_error hs] at h; cases h
    · rw [feed_cons_none hs] at h
      rw [List.cons_append, feed_cons_none hs]
      exact ih h
    · rw [feed_cons_some hs] at h; cases h

theorem feed_append_some {s s' : σ} {xs r : List α} {v : β}
    (h : feed step s xs = .ok (some v, r, s')) (ys : List α) :
    feed step s (xs ++ ys) = .ok (some v, r ++ ys, s') := by
  induction xs generalizing s with
  | nil => cases h
  | cons a as ih =>
    rcases hs : step s a with e | ⟨_ | w, t⟩
    · rw [feed_cons_error hs] at h; cases h
    · rw [feed_cons_none hs] at h
      rw [List.cons_append, feed_cons_none hs]
      exact ih h
    · rw [feed_cons_some hs] at h
      cases h
      rw [List.cons_append, feed_cons_some hs]

/-- A definite verdict falls on one symbol: the symbols before it leave the recogniser
    undecided, and the rest is returned unread. -/
theorem feed_some_split {s s' : σ} {xs r : List α} {v : β}
    (h : feed step s xs = .ok (some v, r, s')) :
    ∃ pre a t, xs = pre ++ a :: r ∧ feed step s pre = .ok (none, [], t) ∧
      step t a = .ok (some v, s') := by
  induction xs generalizing s with
  | nil => cases h
  | cons a as ih =>
    rcases hs : step s a with e | ⟨_ | w, t⟩
    · rw [feed_cons_error hs] at h; cases h
    · rw [feed_cons_none hs] at h
      obtain ⟨pre, b, u, hx, hf, hb⟩ := ih h
      exact ⟨a :: pre, b, u, by rw [hx, List.cons_append], by rw [feed_cons_none hs, hf], hb⟩
    · rw [feed_cons_some hs] at h
      cases h
      exact ⟨[], a, s, rfl, rfl, hs⟩

/-! ## Invariants -/

/-- A relation between state and history kept by every undecided step holds after every
    undecided run. -/
theorem feed_history {H : σ → List α → Prop}
    (hstep : ∀ s w a s', H s w → step s a = .ok (none, s') → H s' (w ++ [a]))
    {s s' : σ} {w xs r : List α} (h0 : H s w) (h : feed step s xs = .ok (none, r, s')) :
    H s' (w ++ xs) := by
  induction xs generalizing s w with
  | nil =>
    cases h
    rwa [List.append_nil]
  | cons a as ih =>
    rcases hs : step s a with e | ⟨_ | v, t⟩
    · rw [feed_cons_error hs] at h; cases h
    · rw [feed_cons_none hs] at h
      have := ih (hstep s w a t h0 hs) h
      rwa [List.append_assoc] at this
    · rw [feed_cons_some hs] at h; cases h

/-- Under an invariant of the states that rules out errors, a run ends without one and in a
    state of the invariant. -/
theorem feed_total {I : σ → Prop}
    (hstep : ∀ s a, I s → ∃ v s', step s a = .ok (v, s') ∧ I s')
    {s : σ} (h0 : I s) (xs : List α) : ∃ v r s', feed step s xs = .ok (v, r, s') ∧ I s' := by
  induction xs generalizing s with
  | nil => exact ⟨none, [], s, rfl, h0⟩
  | cons a as ih =>
    obtain ⟨v, t, hs, ht⟩ := hstep s a h0
    cases v with
    | none =>
      rw [feed_cons_none hs]
      exact ih ht
    | some v => exact ⟨some v, as, t, feed_cons_some hs as, ht⟩

/-! ## Input in chunks -/

/-- The recogniser fed with chunk after chunk, until it gives a verdict. -/
def feedChunks (step : σ → α → Except ε (Option β × σ)) (s : σ) :
    List (List α) → Except ε (Option β × σ)
  | [] => .ok (none, s)
  | chunk :: chunks =>
    match feed step s chunk with
    | .error e => .error e
    | .ok (some v, _, s') => .ok (some v, s')
    | .ok (none, _, s') => feedChunks step s' chunks

/-- An invariant that rules out errors rules them out however the input is cut. -/
theorem feedChunks_total {I : σ → Prop}
    (hstep : ∀ s a, I s → ∃ v s', step s a = .ok (v, s') ∧ I s')
    {s : σ} (h0 : I s) (chunks : List (List α)) :
    ∃ v s', feedChunks step s chunks = .ok (v, s') ∧ I s' := by
  induction chunks generalizing s with
  | nil => exact ⟨none, s, rfl, h0⟩
  | cons chunk chunks ih =>
    obtain ⟨v, r, t, hchunk, ht⟩ := feed_total hstep h0 chunk
    rw [feedChunks, hchunk]
    cases v with
    | none => exact ih ht
    | some v => exact ⟨some v, t, rfl, ht⟩

/-! ## Undecided runs -/

/-- `xs` takes the recogniser from `s` to `s'` without a verdict. -/
def Undecided (step : σ → α → Except ε (Option β × σ)) (s : σ) (xs : List α) (s' : σ) : Prop :=
  feed step s xs = .ok (none, [], s')

theorem Undecided.refl (s : σ) : Undecided step s [] s := rfl

theorem Undecided.single {s s' : σ} {a : α} (h : step s a = .ok (none, s')) :
    Undecided step s [a] s' := by
  unfold Undecided
  rw [feed_cons_none h, feed_nil]

theorem Undecided.trans {s s' s'' : σ} {xs ys : List α} (h : Undecided step s xs s')
    (h' : Undecided step s' ys s'') : Undecided step s (xs ++ ys) s'' := by
  unfold Undecided
  rw [feed_append_none h]
  exact h'

/-- A loop of the recogniser: while every symbol with `p` leads from the state of a prefix to
    the state of the prefix with it, so does every list of them. -/
theorem Undecided.loop {f : List α → σ} {p : α → Prop}
    (hstep : ∀ pre a, p a → step (f pre) a = .ok (none, f (pre ++ [a])))
    (pre : List α) {xs : List α} (hxs : ∀ a ∈ xs, p a) :
    Undecided step (f pre) xs (f (pre ++ xs)) := by
  induction xs generalizing pre with
  | nil =>
    rw [List.append_nil]
    exact .refl _
  | cons a as ih =>
    have ha := Undecided.single (hstep pre a (hxs a List.mem_cons_self))
    have has := ih (pre ++ [a]) fun b hb => hxs b (List.mem_cons_of_mem a hb)
    have := ha.trans has
    rwa [List.append_assoc] at this

/-! ## The symbols read -/

/-- An undecided run gave no definite verdict on the way. -/
theorem readLog_none {s s' : σ} {xs r : List α} (h : feed step s xs = .ok (none, r, s')) :
    ∀ e ∈ readLog step s xs, e.2 = none := by
  induction xs generalizing s with
  | nil => intro e he; cases he
  | cons a as ih =>
    rcases hs : step s a with e | ⟨_ | v, t⟩
    · rw [feed_cons_error hs] at h; cases h
    · rw [feed_cons_none hs] at h
      simp only [readLog, hs, List.mem_cons]
      rintro e (rfl | he)
      · rfl
      · exact ih h e he
    · rw [feed_cons_some hs] at h; cases h

/-- A decided run gave its verdict at the last symbol it read, and at no earlier one. -/
theorem readLog_some {s s' : σ} {xs r : List α} {v : β}
    (h : feed step s xs = .ok (some v, r, s')) :
    ∃ pre a, readLog step s xs = pre ++ [(a, some v)] ∧ ∀ e ∈ pre, e.2 = none := by
  induction xs generalizing s with
  | nil => cases h
  | cons a as ih =>
    rcases hs : step s a with e | ⟨_ | w, t⟩
    · rw [feed_cons_error hs] at h; cases h
    · rw [feed_cons_none hs] at h
      obtain ⟨pre, b, hl, hp⟩ := ih h
      refine ⟨(a, none) :: pre, b, by simp only [readLog, hs, hl, List.cons_append], ?_⟩
      intro e he
      rcases List.mem_cons.mp he with rfl | he
      · rfl
      · exact hp e he
    · rw [feed_cons_some hs] at h
      cases h
      exact ⟨[], a, by simp only [readLog, hs, List.nil_append], by simp⟩

end Feed

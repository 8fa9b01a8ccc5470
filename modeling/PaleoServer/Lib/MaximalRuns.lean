/-
  The maximal runs of a list: the longest parts without a symbol of a class `p`.

  `IsRun` says what one is, by what stands around it; `AreRuns` what the list of all of them is,
  from left to right. No scanning is mentioned, and there is only one such list
  (`AreRuns.unique`).

  Proved, for every type and class:
  * `areRuns_splitOnP`: splitting at the symbols of the class and dropping the empty pieces
    gives the maximal runs.
  * `runs_flatMap`: runs of two classes together can be found one class after the other.
  * `runs_eq_singleton`: what a list with one run looks like.
-/
import Mathlib

namespace MaximalRuns

variable {α : Type}

/-! ## What a maximal run is -/

/-- A part of a list, with what stands before and behind it. -/
structure Part (α : Type) where
  before : List α
  text : List α
  behind : List α

/-- A non-empty part of `xs` without a symbol of `p`, which could not be longer. -/
structure IsRun (p : α → Bool) (xs : List α) (r : Part α) : Prop where
  split : xs = r.before ++ r.text ++ r.behind
  text_ne : r.text ≠ []
  outside : ∀ a ∈ r.text, p a = false
  left : ∀ a ∈ r.before.getLast?, p a = true
  right : ∀ a ∈ r.behind.head?, p a = true

/-- `ts` are the maximal runs of `xs`, all of them, from left to right. -/
def AreRuns (p : α → Bool) (xs : List α) (ts : List (List α)) : Prop :=
  ∃ rs : List (Part α), (∀ r, r ∈ rs ↔ IsRun p xs r) ∧
    rs.Pairwise (fun r r' => r.before.length < r'.before.length) ∧ rs.map Part.text = ts

theorem AreRuns.unique {p : α → Bool} {xs : List α} {ts ts' : List (List α)}
    (h : AreRuns p xs ts) (h' : AreRuns p xs ts') : ts = ts' := by
  obtain ⟨rs, hmem, hsorted, rfl⟩ := h
  obtain ⟨rs', hmem', hsorted', rfl⟩ := h'
  have : Std.Irrefl fun r r' : Part α => r.before.length < r'.before.length :=
    ⟨fun r => Nat.lt_irrefl _⟩
  have : Std.Antisymm fun r r' : Part α => r.before.length < r'.before.length :=
    ⟨fun r r' hlt hlt' => absurd hlt' (Nat.lt_asymm hlt)⟩
  rw [hsorted.eq_of_mem_iff hsorted' fun r => (hmem r).trans (hmem' r).symm]

/-! ## Taking a list apart at the first symbol of the class -/

theorem first_symbol (p : α → Bool) (xs : List α) :
    (∀ a ∈ xs, p a = false) ∨
      ∃ x c ys, (∀ a ∈ x, p a = false) ∧ p c = true ∧ xs = x ++ c :: ys := by
  induction xs with
  | nil => exact .inl (by simp)
  | cons a xs ih =>
    cases ha : p a with
    | true => exact .inr ⟨[], a, xs, by simp, ha, rfl⟩
    | false =>
      rcases ih with hall | ⟨x, c, ys, hx, hc, rfl⟩
      · exact .inl (List.forall_mem_cons.mpr ⟨ha, hall⟩)
      · exact .inr ⟨a :: x, c, ys, List.forall_mem_cons.mpr ⟨ha, hx⟩, hc, rfl⟩

/-- Induction along the symbols of the class. -/
theorem symbol_induction (p : α → Bool) {motive : List α → Prop}
    (free : ∀ xs, (∀ a ∈ xs, p a = false) → motive xs)
    (symbol : ∀ x c ys, (∀ a ∈ x, p a = false) → p c = true → motive ys → motive (x ++ c :: ys))
    (xs : List α) : motive xs := by
  induction hn : xs.length using Nat.strong_induction_on generalizing xs with
  | _ n ih =>
    rcases first_symbol p xs with hall | ⟨x, c, ys, hx, hc, rfl⟩
    · exact free xs hall
    · refine symbol x c ys hx hc (ih ys.length ?_ ys rfl)
      rw [← hn, List.length_append, List.length_cons]
      omega

/-! ## Runs of a list taken apart -/

/-- A part behind `pre` more symbols. -/
def Part.shift (pre : List α) (r : Part α) : Part α := { r with before := pre ++ r.before }

/-- A maximal run that begins inside a part without symbols of the class begins with it. -/
theorem eq_nil_of_left {p : α → Bool} {before : List α} (h : ∀ a ∈ before, p a = false)
    (hleft : ∀ a ∈ before.getLast?, p a = true) : before = [] := by
  rcases List.eq_nil_or_concat before with hnil | ⟨pre, c, rfl⟩
  · exact hnil
  · rw [List.concat_eq_append] at h hleft
    have hc := h c (by simp)
    rw [hleft c (by simp)] at hc
    cases hc

/-- And one that ends inside such a part ends with it. -/
theorem eq_nil_of_right {p : α → Bool} {behind : List α} (h : ∀ a ∈ behind, p a = false)
    (hright : ∀ a ∈ behind.head?, p a = true) : behind = [] := by
  cases behind with
  | nil => rfl
  | cons c behind =>
    have hc := h c List.mem_cons_self
    rw [hright c rfl] at hc
    cases hc

theorem isRun_free {p : α → Bool} {xs : List α} (h : ∀ a ∈ xs, p a = false) (r : Part α) :
    IsRun p xs r ↔ xs ≠ [] ∧ r = ⟨[], xs, []⟩ := by
  constructor
  · rintro ⟨rfl, hne, _, hleft, hright⟩
    obtain ⟨before, text, behind⟩ := r
    simp only at h hne hleft hright ⊢
    have hbefore := eq_nil_of_left (fun a ha => h a (by simp [ha])) hleft
    have hbehind := eq_nil_of_right (fun a ha => h a (by simp [ha])) hright
    subst hbefore hbehind
    simpa using hne
  · rintro ⟨hne, rfl⟩
    exact ⟨by simp, hne, h, by simp, by simp⟩

theorem isRun_append_cons {p : α → Bool} {x : List α} (hx : ∀ a ∈ x, p a = false) {c : α}
    (hc : p c = true) (ys : List α) (r : Part α) :
    IsRun p (x ++ c :: ys) r ↔
      (x ≠ [] ∧ r = ⟨[], x, c :: ys⟩) ∨ ∃ r', IsRun p ys r' ∧ r = r'.shift (x ++ [c]) := by
  constructor
  · rintro ⟨hsplit, hne, hout, hleft, hright⟩
    obtain ⟨before, text, behind⟩ := r
    simp only at hsplit hne hout hleft hright
    rw [List.append_assoc] at hsplit
    rcases List.append_eq_append_iff.mp hsplit with ⟨bs, rfl, htail⟩ | ⟨as, rfl, htail⟩
    · -- the part begins behind `x`
      cases bs with
      | nil =>
        cases text with
        | nil => exact absurd rfl hne
        | cons a text =>
          obtain ⟨rfl, _⟩ := List.cons.inj htail
          have := hout c List.mem_cons_self
          rw [hc] at this
          cases this
      | cons b bs =>
        obtain ⟨rfl, rfl⟩ := List.cons.inj htail
        refine .inr ⟨⟨bs, text, behind⟩, ⟨by simp, hne, hout, fun a ha => ?_, hright⟩, ?_⟩
        · refine hleft a ?_
          cases bs with
          | nil => cases ha
          | cons b bs => simpa [List.getLast?_append, List.getLast?_cons_cons] using ha
        · simp [Part.shift]
    · -- the part begins in `x`, and so at its first symbol
      have hbefore := eq_nil_of_left (fun a ha => hx a (by simp [ha])) hleft
      subst hbefore
      rw [List.nil_append] at hx ⊢
      rcases List.append_eq_append_iff.mp htail with ⟨cs, rfl, hcs⟩ | ⟨cs, rfl, hcs⟩
      · have hright' : ∀ a ∈ cs.head?, p a = true := by
          intro a ha
          refine hright a ?_
          rw [hcs, List.head?_append, Option.mem_def.mp ha]
          rfl
        have hnil := eq_nil_of_right (fun a ha => hx a (by simp [ha])) hright'
        subst hnil
        rw [List.append_nil]
        exact .inl ⟨hne, by rw [hcs, List.nil_append]⟩
      · cases cs with
        | nil =>
          rw [List.append_nil] at hne ⊢
          exact .inl ⟨hne, by rw [hcs, List.nil_append]⟩
        | cons d cs =>
          obtain ⟨rfl, _⟩ := List.cons.inj hcs
          have := hout c (by simp)
          rw [hc] at this
          cases this
  · rintro (⟨hne, rfl⟩ | ⟨⟨before, text, behind⟩, ⟨rfl, hne, hout, hleft, hright⟩, rfl⟩)
    · exact ⟨by simp, hne, hx, by simp, by simpa using hc⟩
    · refine ⟨by simp [Part.shift], hne, hout, fun a ha => ?_, hright⟩
      cases before with
      | nil =>
        have : c = a := by simpa [Part.shift, List.getLast?_append] using ha
        rwa [← this]
      | cons b before =>
        refine hleft a ?_
        simpa [Part.shift, List.getLast?_append, List.getLast?_cons_cons] using ha

theorem splitOnP_free {p : α → Bool} {xs : List α} (h : ∀ a ∈ xs, p a = false) :
    (xs.splitOnP p).filter (· ≠ []) = if xs = [] then [] else [xs] := by
  rw [List.splitOnP_eq_singleton h]
  by_cases hxs : xs = [] <;> simp [hxs]

theorem splitOnP_symbol {p : α → Bool} {x : List α} (hx : ∀ a ∈ x, p a = false) {c : α}
    (hc : p c = true) (ys : List α) :
    ((x ++ c :: ys).splitOnP p).filter (· ≠ []) =
      (if x = [] then [] else [x]) ++ (ys.splitOnP p).filter (· ≠ []) := by
  rw [List.splitOnP_append_cons_of_forall_mem hx c hc]
  by_cases hxs : x = [] <;> simp [hxs]

/-! ## Splitting finds the runs -/

/-- **Splitting at the symbols of the class and dropping what is empty gives the maximal
    runs.** -/
theorem areRuns_splitOnP (p : α → Bool) (xs : List α) :
    AreRuns p xs ((xs.splitOnP p).filter (· ≠ [])) := by
  induction xs using symbol_induction p with
  | free xs h =>
    rw [splitOnP_free h]
    by_cases hxs : xs = []
    · refine ⟨[], fun r => ?_, List.Pairwise.nil, by simp [hxs]⟩
      rw [isRun_free h]
      simp [hxs]
    · refine ⟨[⟨[], xs, []⟩], fun r => ?_, List.pairwise_singleton _ _, by simp [hxs]⟩
      simp [isRun_free h, hxs]
  | symbol x c ys hx hc ih =>
    obtain ⟨rs, hmem, hsorted, htexts⟩ := ih
    rw [splitOnP_symbol hx hc, ← htexts]
    have hshift : (rs.map (Part.shift (x ++ [c]))).Pairwise
        fun r r' => r.before.length < r'.before.length := by
      rw [List.pairwise_map]
      refine hsorted.imp fun h => ?_
      simp only [Part.shift, List.length_append]
      omega
    have hmemShift : ∀ r, r ∈ rs.map (Part.shift (x ++ [c])) ↔
        ∃ r', IsRun p ys r' ∧ r = r'.shift (x ++ [c]) := by
      intro r
      simp only [List.mem_map, hmem]
      exact exists_congr fun r' => and_congr_right fun _ => eq_comm
    by_cases hxs : x = []
    · refine ⟨rs.map (Part.shift (x ++ [c])), fun r => ?_, hshift, ?_⟩
      · rw [hmemShift, isRun_append_cons hx hc]
        simp [hxs]
      · simp [hxs, Part.shift]
    · refine ⟨⟨[], x, c :: ys⟩ :: rs.map (Part.shift (x ++ [c])), fun r => ?_, ?_, ?_⟩
      · rw [List.mem_cons, hmemShift, isRun_append_cons hx hc]
        simp [hxs]
      · refine List.pairwise_cons.mpr ⟨fun r hr => ?_, hshift⟩
        obtain ⟨r', _, rfl⟩ := (hmemShift r).mp hr
        simp [Part.shift]
      · simp [hxs, Part.shift]

/-! ## Two classes -/

/-- Symbols of either class divide: the runs are found by dividing at one class first and at
    the other in each piece. -/
theorem runs_flatMap (p q : α → Bool) (xs : List α) :
    (xs.splitOnP fun a => p a || q a).filter (· ≠ []) =
      (xs.splitOnP p).flatMap fun f => (f.splitOnP q).filter (· ≠ []) := by
  induction xs using symbol_induction fun a => p a || q a with
  | free xs h =>
    have hp : ∀ a ∈ xs, p a = false := fun a ha => (Bool.or_eq_false_iff.mp (h a ha)).1
    have hq : ∀ a ∈ xs, q a = false := fun a ha => (Bool.or_eq_false_iff.mp (h a ha)).2
    rw [splitOnP_free h, List.splitOnP_eq_singleton hp, List.flatMap_singleton,
      splitOnP_free hq]
  | symbol x c ys hx hc ih =>
    have hp : ∀ a ∈ x, p a = false := fun a ha => (Bool.or_eq_false_iff.mp (hx a ha)).1
    have hq : ∀ a ∈ x, q a = false := fun a ha => (Bool.or_eq_false_iff.mp (hx a ha)).2
    rw [splitOnP_symbol hx hc, ih]
    cases hpc : p c with
    | true =>
      rw [List.splitOnP_append_cons_of_forall_mem hp c hpc, List.flatMap_cons, splitOnP_free hq]
    | false =>
      -- the symbol is inside the first piece
      have hqc : q c = true := by simpa [hpc] using hc
      rcases first_symbol p ys with hall | ⟨z, d, zs, hz, hd, rfl⟩
      · have hwhole : ∀ a ∈ x ++ c :: ys, p a = false := by
          intro a ha
          rcases List.mem_append.mp ha with ha | ha
          · exact hp a ha
          · rcases List.mem_cons.mp ha with rfl | ha
            · exact hpc
            · exact hall a ha
        rw [List.splitOnP_eq_singleton hall, List.splitOnP_eq_singleton hwhole,
          List.flatMap_singleton, List.flatMap_singleton, splitOnP_symbol hq hqc]
      · have hfront : ∀ a ∈ x ++ c :: z, p a = false := by
          intro a ha
          rcases List.mem_append.mp ha with ha | ha
          · exact hp a ha
          · rcases List.mem_cons.mp ha with rfl | ha
            · exact hpc
            · exact hz a ha
        have e : x ++ c :: (z ++ d :: zs) = (x ++ c :: z) ++ d :: zs := by simp
        rw [e, List.splitOnP_append_cons_of_forall_mem hz d hd,
          List.splitOnP_append_cons_of_forall_mem hfront d hd, List.flatMap_cons,
          List.flatMap_cons, splitOnP_symbol hq hqc, List.append_assoc]

/-! ## Lists with no run and with one -/

theorem runs_eq_nil {p : α → Bool} {xs : List α} (h : (xs.splitOnP p).filter (· ≠ []) = []) :
    ∀ a ∈ xs, p a = true := by
  induction xs using symbol_induction p with
  | free xs hfree =>
    rw [splitOnP_free hfree] at h
    by_cases hxs : xs = []
    · simp [hxs]
    · simp [hxs] at h
  | symbol x c ys hx hc ih =>
    rw [splitOnP_symbol hx hc] at h
    obtain ⟨hfirst, hrest⟩ := List.append_eq_nil_iff.mp h
    have hxs : x = [] := by
      by_contra hne
      simp [hne] at hfirst
    subst hxs
    exact List.forall_mem_cons.mpr ⟨hc, ih hrest⟩

/-- A list with one run is the run between symbols of the class. -/
theorem runs_eq_singleton {p : α → Bool} {xs t : List α}
    (h : (xs.splitOnP p).filter (· ≠ []) = [t]) :
    ∃ l r, xs = l ++ t ++ r ∧ (∀ a ∈ l, p a = true) ∧ ∀ a ∈ r, p a = true := by
  induction xs using symbol_induction p with
  | free xs hfree =>
    rw [splitOnP_free hfree] at h
    by_cases hxs : xs = []
    · simp [hxs] at h
    · rw [if_neg hxs] at h
      obtain ⟨rfl, _⟩ := List.cons.inj h
      exact ⟨[], [], by simp, by simp, by simp⟩
  | symbol x c ys hx hc ih =>
    rw [splitOnP_symbol hx hc] at h
    by_cases hxs : x = []
    · subst hxs
      obtain ⟨l, r, rfl, hl, hr⟩ := ih (by simpa using h)
      exact ⟨c :: l, r, by simp, List.forall_mem_cons.mpr ⟨hc, hl⟩, hr⟩
    · rw [if_neg hxs] at h
      obtain ⟨rfl, hrest⟩ := List.cons.inj h
      exact ⟨[], c :: ys, by simp, by simp, List.forall_mem_cons.mpr ⟨hc, runs_eq_nil hrest⟩⟩

end MaximalRuns

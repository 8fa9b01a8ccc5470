/-
  Labelled transition systems: runs, invariants, and facts about the order of labels.

  `Run R s as s'`: the labels `as`, one after another, lead from `s` to `s'`.

  Proved, for every system:
  * `run_append`, `run_snoc`: splitting runs.
  * `run_invariant`: what every step keeps, every run keeps.
  * `run_barrier`: if a label of one kind always leads into a set of states that no step
    leaves and in which no label of another kind is possible, then on every run no label of
    the second kind comes after one of the first.
  * `run_simulation`: if each step of one system is answered by a run of another that keeps a
    relation between their states, each run is answered by a run.
  * `run_refinement`: the same for an abstraction of states under which a step is one step of
    the other system or changes nothing.
  * `run_mono`, `run_labels`: runs of a smaller relation; `run_to_rest`, `run_length_le`: a measure that
    steps decrease leads to rest, and bounds the runs.
  * `run_iff_foldlM`: the runs of a step function are its iterations, so they can be computed.
-/
import Mathlib

namespace Trace

variable {σ τ α β : Type}

/-- The labels lead from the first state to the last. -/
def Run (R : σ → α → σ → Prop) : σ → List α → σ → Prop
  | s, [], s' => s' = s
  | s, a :: as, s'' => ∃ s', R s a s' ∧ Run R s' as s''

variable {R : σ → α → σ → Prop}

theorem run_append {s s'' : σ} {as bs : List α} :
    Run R s (as ++ bs) s'' ↔ ∃ s', Run R s as s' ∧ Run R s' bs s'' := by
  induction as generalizing s with
  | nil => simp [Run]
  | cons a as ih =>
    simp only [List.cons_append, Run, ih]
    constructor
    · rintro ⟨t, ha, u, has, hbs⟩
      exact ⟨u, ⟨t, ha, has⟩, hbs⟩
    · rintro ⟨u, ⟨t, ha, has⟩, hbs⟩
      exact ⟨t, ha, u, has, hbs⟩

theorem run_single {s s' : σ} {a : α} : Run R s [a] s' ↔ R s a s' := by
  simp [Run]

theorem run_snoc {s s'' : σ} {as : List α} {a : α} :
    Run R s (as ++ [a]) s'' ↔ ∃ s', Run R s as s' ∧ R s' a s'' := by
  rw [run_append]
  simp only [run_single]

theorem run_invariant {I : σ → Prop} (hstep : ∀ s a s', I s → R s a s' → I s') {s s' : σ}
    {as : List α} (h : Run R s as s') (h0 : I s) : I s' := by
  induction as generalizing s with
  | nil =>
    rw [show s' = s from h]
    exact h0
  | cons a as ih =>
    obtain ⟨t, ha, has⟩ := h
    exact ih has (hstep s a t h0 ha)

/-- An invariant of the labels taken along with the state. -/
theorem run_history {H : List α → σ → Prop}
    (hstep : ∀ as s a s', H as s → R s a s' → H (as ++ [a]) s') {s s' : σ} {p as : List α}
    (h : Run R s as s') (h0 : H p s) : H (p ++ as) s' := by
  induction as generalizing s p with
  | nil =>
    rw [show s' = s from h, List.append_nil]
    exact h0
  | cons a as ih =>
    obtain ⟨t, ha, has⟩ := h
    have := ih has (hstep p s a t h0 ha)
    rwa [List.append_assoc] at this

/-- If the labels decide the steps they decide the run. -/
theorem run_functional (hR : ∀ s a s₁ s₂, R s a s₁ → R s a s₂ → s₁ = s₂) {s s₁ s₂ : σ}
    {as : List α} (h₁ : Run R s as s₁) (h₂ : Run R s as s₂) : s₁ = s₂ := by
  induction as generalizing s with
  | nil => exact h₁.trans h₂.symm
  | cons a as ih =>
    obtain ⟨t₁, ha₁, has₁⟩ := h₁
    obtain ⟨t₂, ha₂, has₂⟩ := h₂
    obtain rfl := hR s a t₁ t₂ ha₁ ha₂
    exact ih has₁ has₂

/-- Each label after those before it, of a sequence that goes on by one. -/
theorem forall_next_snoc {Next : List α → α → Prop} {as : List α} {a : α} :
    (∀ pre b, pre ++ [b] <+: as ++ [a] → Next pre b) ↔
      (∀ pre b, pre ++ [b] <+: as → Next pre b) ∧ Next as a := by
  constructor
  · intro h
    exact ⟨fun pre b hpre => h pre b (hpre.trans (List.prefix_append as [a])),
      h as a List.prefix_rfl⟩
  · rintro ⟨h, ha⟩ pre b hpre
    rcases List.prefix_concat_iff.mp hpre with heq | hpre
    · obtain ⟨rfl, hb⟩ := List.append_inj' heq rfl
      cases hb
      exact ha
    · exact h pre b hpre

/-- Where the labels so far decide which can come next, they decide which sequences there are. -/
theorem run_possible_iff {H : List α → σ → Prop} {Next : List α → α → Prop}
    (hstep : ∀ as s a s', H as s → R s a s' → H (as ++ [a]) s')
    (hnext : ∀ as s a, H as s → ((∃ s', R s a s') ↔ Next as a)) {s : σ} (h0 : H [] s)
    (as : List α) : (∃ s', Run R s as s') ↔ ∀ pre a, pre ++ [a] <+: as → Next pre a := by
  constructor
  · rintro ⟨s', h⟩ pre a ⟨rest, rfl⟩
    obtain ⟨t, hpre, -⟩ := run_append.mp h
    obtain ⟨u, hu, ha⟩ := run_snoc.mp hpre
    exact (hnext pre u a (run_history hstep hu h0)).mp ⟨t, ha⟩
  · intro h
    induction as using List.reverseRecOn with
    | nil => exact ⟨s, rfl⟩
    | append_singleton as a ih =>
      obtain ⟨hbefore, hlast⟩ := forall_next_snoc.mp h
      obtain ⟨t, ht⟩ := ih hbefore
      obtain ⟨s', ha⟩ := (hnext as t a (run_history hstep ht h0)).mpr hlast
      exact ⟨s', run_snoc.mpr ⟨t, ht, ha⟩⟩

/-- The runs of a step function are its iterations. -/
theorem run_iff_foldlM {f : σ → α → Option σ} {s s' : σ} {as : List α} :
    Run (fun s a s' => f s a = some s') s as s' ↔ as.foldlM f s = some s' := by
  induction as generalizing s with
  | nil => exact ⟨fun h => congrArg some h.symm, fun h => (Option.some.inj h).symm⟩
  | cons a as ih =>
    rw [List.foldlM_cons, Option.bind_eq_bind, Option.bind_eq_some_iff]
    exact exists_congr fun t => and_congr_right fun _ => ih

/-- A run found by computing it, with what a test says about its end. -/
theorem run_of_any (f : σ → α → Option σ) (s : σ) (as : List α) (test : σ → Bool)
    (h : (as.foldlM f s).any test = true) :
    ∃ s', Run (fun s a s' => f s a = some s') s as s' ∧ test s' = true := by
  obtain ⟨s', hs', htest⟩ := (Option.any_eq_true ..).mp h
  exact ⟨s', run_iff_foldlM.mpr hs', htest⟩

/-! ## Order of labels -/

/-- From a set of states that no step leaves and where no `B` is possible, no `B` follows. -/
theorem run_excludes {S : σ → Prop} {B : α → Prop} (hclosed : ∀ s a s', S s → R s a s' → S s')
    (hbar : ∀ s b s', S s → R s b s' → ¬ B b) {s s' : σ} {as : List α} (h : Run R s as s')
    (h0 : S s) : ∀ b ∈ as, ¬ B b := by
  induction as generalizing s with
  | nil => exact fun _ hb => nomatch hb
  | cons a as ih =>
    obtain ⟨t, ha, has⟩ := h
    intro b hb
    rcases List.mem_cons.mp hb with rfl | hb
    · exact hbar s b t h0 ha
    · exact ih has (hclosed s a t h0 ha) b hb

/-- After an `A` the run is in `S`, and there no `B` is possible any more. -/
theorem run_barrier {S : σ → Prop} {A B : α → Prop}
    (henter : ∀ s a s', A a → R s a s' → S s') (hclosed : ∀ s a s', S s → R s a s' → S s')
    (hbar : ∀ s b s', S s → R s b s' → ¬ B b) {s s' : σ} {as : List α} (h : Run R s as s') :
    as.Pairwise fun a b => A a → ¬ B b := by
  induction as generalizing s with
  | nil => exact .nil
  | cons a as ih =>
    obtain ⟨t, ha, has⟩ := h
    refine .cons (fun b hb hA => ?_) (ih has)
    exact run_excludes hclosed hbar has (henter s a t hA ha) b hb

/-! ## Simulation -/

/-- A step of `R` answered by a run of `Q`, with the labels of the answer. -/
theorem run_simulation {Q : τ → β → τ → Prop} {rel : σ → τ → Prop} {out : σ → List β}
    (hstep : ∀ s a s' t, rel s t → R s a s' →
      ∃ bs t', out s' = out s ++ bs ∧ Run Q t bs t' ∧ rel s' t')
    {s s' : σ} {as : List α} {t : τ} (h : Run R s as s') (h0 : rel s t) :
    ∃ bs t', out s' = out s ++ bs ∧ Run Q t bs t' ∧ rel s' t' := by
  induction as generalizing s t with
  | nil =>
    rw [show s' = s from h]
    exact ⟨[], t, (List.append_nil _).symm, rfl, h0⟩
  | cons a as ih =>
    obtain ⟨u, ha, has⟩ := h
    obtain ⟨bs, t1, hout, hp, hr⟩ := hstep s a u t h0 ha
    obtain ⟨cs, t2, hout', hp', hr'⟩ := ih has hr
    refine ⟨bs ++ cs, t2, ?_, run_append.mpr ⟨t1, hp, hp'⟩, hr'⟩
    rw [hout', hout, List.append_assoc]

/-- An abstraction `f` of states and `l` of labels under which a step with a label is a step,
    and one without a label changes nothing. -/
theorem run_refinement {Q : τ → β → τ → Prop} {I : σ → Prop} {f : σ → τ} {l : α → Option β}
    (hI : ∀ s a s', I s → R s a s' → I s')
    (hstep : ∀ s a s', I s → R s a s' →
      (∀ b, l a = some b → Q (f s) b (f s')) ∧ (l a = none → f s' = f s))
    {s s' : σ} {as : List α} (h : Run R s as s') (h0 : I s) :
    Run Q (f s) (as.filterMap l) (f s') := by
  induction as generalizing s with
  | nil =>
    rw [show s' = s from h]
    rfl
  | cons a as ih =>
    obtain ⟨t, ha, has⟩ := h
    have hrest := ih has (hI s a t h0 ha)
    obtain ⟨hsome, hnone⟩ := hstep s a t h0 ha
    rcases hl : l a with _ | b
    · rw [List.filterMap_cons_none hl, ← hnone hl]
      exact hrest
    · rw [List.filterMap_cons_some hl]
      exact ⟨f t, hsome b hl, hrest⟩

/-! ## Measures -/

theorem run_mono {Q : σ → α → σ → Prop} (hRQ : ∀ s a s', R s a s' → Q s a s') {s s' : σ}
    {as : List α} (h : Run R s as s') : Run Q s as s' := by
  induction as generalizing s with
  | nil => exact h
  | cons a as ih =>
    obtain ⟨t, ha, has⟩ := h
    exact ⟨t, hRQ s a t ha, ih has⟩

theorem run_labels {P : α → Prop} (hP : ∀ s a s', R s a s' → P a) {s s' : σ} {as : List α}
    (h : Run R s as s') : ∀ a ∈ as, P a := by
  induction as generalizing s with
  | nil => exact fun _ hb => nomatch hb
  | cons a as ih =>
    obtain ⟨t, ha, has⟩ := h
    intro b hb
    rcases List.mem_cons.mp hb with rfl | hb
    · exact hP s b t ha
    · exact ih has b hb

/-- The steps with labels of one kind are a system of their own. -/
theorem run_restrict {P : α → Prop} {s s' : σ} {as : List α} (hP : ∀ a ∈ as, P a)
    (h : Run R s as s') : Run (fun s a s' => P a ∧ R s a s') s as s' := by
  induction as generalizing s with
  | nil => exact h
  | cons a as ih =>
    obtain ⟨t, ha, has⟩ := h
    exact ⟨t, ⟨hP a List.mem_cons_self, ha⟩, ih (fun b hb => hP b (List.mem_cons_of_mem a hb)) has⟩

/-- Where there is a decreasing step from every state that is not at rest, a run leads to one
    that is. -/
theorem run_to_rest {I Rest : σ → Prop} {μ : σ → Nat}
    (hstep : ∀ s, I s → Rest s ∨ ∃ a s', R s a s' ∧ I s' ∧ μ s' < μ s) {s : σ} (h0 : I s) :
    ∃ as s', Run R s as s' ∧ I s' ∧ Rest s' := by
  induction hn : μ s using Nat.strongRecOn generalizing s with
  | ind n ih =>
    rcases hstep s h0 with hrest | ⟨a, t, ha, ht, hlt⟩
    · exact ⟨[], s, rfl, h0, hrest⟩
    · obtain ⟨as, s', has, hs', hrest⟩ := ih (μ t) (hn ▸ hlt) ht rfl
      exact ⟨a :: as, s', ⟨t, ha, has⟩, hs', hrest⟩

theorem run_length_le {I : σ → Prop} {μ : σ → Nat} (hI : ∀ s a s', I s → R s a s' → I s')
    (hμ : ∀ s a s', I s → R s a s' → μ s' < μ s) {s s' : σ} {as : List α} (h : Run R s as s')
    (h0 : I s) : as.length ≤ μ s := by
  induction as generalizing s with
  | nil => exact Nat.zero_le _
  | cons a as ih =>
    obtain ⟨t, ha, has⟩ := h
    have hle := ih has (hI s a t h0 ha)
    have hlt := hμ s a t h0 ha
    rw [List.length_cons]
    omega

end Trace

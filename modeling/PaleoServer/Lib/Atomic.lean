/-
  Programs that work on a shared resource in atomic steps, and threads that run them.

  `Prog σ α` is a program over one resource of type `σ`. `run` executes it alone; a `Machine`
  is a store of resources with at most one program running on each thread, and interleaves
  single steps of different threads.

  Proved:
  * `run_bind`, `run_forM`: running a composition.
  * `Returns`: the results of a program when anything may happen to its resource between
    two of its steps (`returns_run`, `returns_bind`).
  * `Yields`: a property of all possible results of all running programs.
  * `Confined`: when every resource has one owner thread and only programs of that
    thread use it, interleaving is invisible. Each program ends as if it had run alone on its
    resource, and resources that no program uses satisfy the invariant of the resources.
    `confined_begin`, `confined_advance`, `confined_finish` are the three steps.
-/
import Mathlib

namespace Atomic

variable {σ α β : Type}

/-- A program over a resource: a result, or an atomic step `f` on the resource and a
    continuation that sees the resource as the step left it. -/
inductive Prog (σ α : Type) where
  | done (a : α)
  | step (f : σ → σ) (k : σ → Prog σ α)

namespace Prog

/-- The result and the resource after an execution without interference. -/
def run : Prog σ α → σ → α × σ
  | done a, s => (a, s)
  | step f k, s => run (k (f s)) (f s)

def bind : Prog σ α → (α → Prog σ β) → Prog σ β
  | done a, g => g a
  | step f k, g => step f fun s => bind (k s) g

instance : Monad (Prog σ) where
  pure := done
  bind := bind

/-- One atomic modification. -/
def modify (f : σ → σ) : Prog σ Unit := step f fun _ => done ()

/-- One atomic reading. -/
def read (g : σ → α) : Prog σ α := step id fun s => done (g s)

/-! ## Running alone -/

@[simp] theorem run_pure (a : α) (s : σ) : (pure a : Prog σ α).run s = (a, s) := rfl

@[simp] theorem run_modify (f : σ → σ) (s : σ) : (modify f).run s = ((), f s) := rfl

@[simp] theorem run_read (g : σ → α) (s : σ) : (read g).run s = (g s, s) := rfl

@[simp] theorem run_bind (p : Prog σ α) (g : α → Prog σ β) (s : σ) :
    (p >>= g).run s = (g (p.run s).1).run (p.run s).2 := by
  show (p.bind g).run s = _
  induction p generalizing s with
  | done a => rfl
  | step f k ih =>
    simp only [bind, run]
    exact ih (f s) (f s)

/-- A loop of modifications runs them in order. -/
theorem run_forM (f : α → σ → σ) (as : List α) (s : σ) :
    (as.forM fun a => modify (f a)).run s = ((), as.foldl (fun s a => f a s) s) := by
  induction as generalizing s with
  | nil => rfl
  | cons a as ih =>
    have hcons : ((a :: as).forM fun a => modify (f a)) =
      (modify (f a) >>= fun _ => as.forM fun a => modify (f a)) := rfl
    rw [hcons, run_bind, run_modify, ih]
    rfl

/-! ## Results under interference -/

/-- The result is possible when others may change the resource between any two steps. -/
def Returns : Prog σ α → α → Prop
  | done a, b => b = a
  | step _ k, b => ∃ s, Returns (k s) b

theorem returns_pure {a b : α} : (pure a : Prog σ α).Returns b ↔ b = a := Iff.rfl

/-- Running alone is one of the possibilities. -/
theorem returns_run (p : Prog σ α) (s : σ) : p.Returns (p.run s).1 := by
  induction p generalizing s with
  | done a => rfl
  | step f k ih => exact ⟨f s, ih (f s) (f s)⟩

theorem returns_bind {p : Prog σ α} {g : α → Prog σ β} {b : β} :
    (p >>= g).Returns b ↔ ∃ a, p.Returns a ∧ (g a).Returns b := by
  show (p.bind g).Returns b ↔ _
  induction p with
  | done a => simp [bind, Returns]
  | step f k ih =>
    simp only [bind, Returns, ih]
    constructor
    · rintro ⟨s, a, ha, hb⟩
      exact ⟨a, ⟨s, ha⟩, hb⟩
    · rintro ⟨a, ⟨s, ha⟩, hb⟩
      exact ⟨s, a, ha, hb⟩

end Prog

/-! ## Threads -/

/-- A running program: what it was started for, the resource it works on, what is left. -/
structure Task (ρ ι σ α : Type) where
  job : ι
  resource : ρ
  code : Prog σ α

/-- The resources and what each thread is running. -/
structure Machine (θ ρ ι σ α : Type) where
  store : ρ → σ
  running : θ → Option (Task ρ ι σ α)

namespace Machine

variable {θ ρ ι : Type}

/-- An idle thread starts a program. -/
def begin [DecidableEq θ] (c : Machine θ ρ ι σ α) (t : θ) (k : Task ρ ι σ α) :
    Option (Machine θ ρ ι σ α) :=
  match c.running t with
  | some _ => none
  | none => some { c with running := Function.update c.running t (some k) }

/-- A thread performs the next atomic step of its program. -/
def advance [DecidableEq θ] [DecidableEq ρ] (c : Machine θ ρ ι σ α) (t : θ) :
    Option (Machine θ ρ ι σ α) :=
  match c.running t with
  | some ⟨j, r, .step f k⟩ =>
    some
      { store := Function.update c.store r (f (c.store r))
        running := Function.update c.running t (some ⟨j, r, k (f (c.store r))⟩) }
  | _ => none

/-- A thread whose program is done becomes idle; what it was started for and its result. -/
def finish [DecidableEq θ] (c : Machine θ ρ ι σ α) (t : θ) :
    Option (ι × α × Machine θ ρ ι σ α) :=
  match c.running t with
  | some ⟨j, _, .done a⟩ =>
    some (j, a, { c with running := Function.update c.running t none })
  | _ => none

/-! ## What threads return -/

/-- Every running program returns only results that satisfy `Post`, whatever the others do. -/
def Yields (Post : ι → α → Prop) (c : Machine θ ρ ι σ α) : Prop :=
  ∀ t k, c.running t = some k → ∀ a, k.code.Returns a → Post k.job a

theorem Yields.mono {P Q : ι → α → Prop} {c : Machine θ ρ ι σ α} (h : c.Yields P)
    (hPQ : ∀ j a, P j a → Q j a) : c.Yields Q :=
  fun t k hk a ha => hPQ k.job a (h t k hk a ha)

section Yields

variable [DecidableEq θ] {Post : ι → α → Prop} {c c' : Machine θ ρ ι σ α} {t : θ}

theorem yields_begin {k : Task ρ ι σ α} (h : c.Yields Post)
    (hk : ∀ a, k.code.Returns a → Post k.job a) (hb : c.begin t k = some c') :
    c'.Yields Post := by
  unfold begin at hb
  split at hb
  · cases hb
  · cases hb
    intro t' l hl
    by_cases e : t' = t
    · subst e
      cases (Function.update_self t' (some k) c.running).symm.trans hl
      exact hk
    · exact h t' l ((Function.update_of_ne e ..).symm.trans hl)

theorem yields_advance [DecidableEq ρ] (h : c.Yields Post) (ha : c.advance t = some c') :
    c'.Yields Post := by
  unfold advance at ha
  split at ha
  · rename_i j r f k ht
    cases ha
    intro t' l hl
    by_cases e : t' = t
    · subst e
      cases (Function.update_self t' _ c.running).symm.trans hl
      exact fun a ha => h t' _ ht a ⟨_, ha⟩
    · exact h t' l ((Function.update_of_ne e ..).symm.trans hl)
  · cases ha

theorem yields_finish {j : ι} {a : α} (h : c.Yields Post) (hf : c.finish t = some (j, a, c')) :
    Post j a ∧ c'.Yields Post := by
  unfold finish at hf
  split at hf
  · rename_i j' r a' ht
    cases hf
    refine ⟨h t _ ht _ rfl, ?_⟩
    intro t' l hl
    by_cases e : t' = t
    · subst e
      cases (Function.update_self t' _ c.running).symm.trans hl
    · exact h t' l ((Function.update_of_ne e ..).symm.trans hl)
  · cases hf

end Yields

/-! ## Confinement -/

variable {owner : ρ → θ} {I : σ → Prop} {Post : ι → α → Prop} {c c' : Machine θ ρ ι σ α}
  {t : θ}

/-- Every resource is used by its owner only; every running program will end, if left alone
    with its resource, with a result that satisfies `Post` and the resource in `I`; every
    resource that its owner is not using is in `I`. -/
structure Confined (owner : ρ → θ) (I : σ → Prop) (Post : ι → α → Prop)
    (c : Machine θ ρ ι σ α) : Prop where
  owned : ∀ t k, c.running t = some k → owner k.resource = t
  ends : ∀ t k, c.running t = some k →
    Post k.job (k.code.run (c.store k.resource)).1 ∧ I (k.code.run (c.store k.resource)).2
  idle : ∀ r, (∀ k, c.running (owner r) = some k → k.resource ≠ r) → I (c.store r)

theorem confined_init (s : ρ → σ) (h : ∀ r, I (s r)) :
    Confined owner I Post (⟨s, fun _ => none⟩ : Machine θ ρ ι σ α) where
  owned _ _ e := nomatch e
  ends _ _ e := nomatch e
  idle r _ := h r

/-- A step of one thread: it suffices to look at that thread and the resources it owns, because
    the other threads and their resources stay as they are. -/
theorem Confined.update (h : Confined owner I Post c)
    (hrunning : ∀ t', t' ≠ t → c'.running t' = c.running t')
    (hstore : ∀ r, owner r ≠ t → c'.store r = c.store r)
    (howned : ∀ k, c'.running t = some k → owner k.resource = t)
    (hends : ∀ k, c'.running t = some k → Post k.job (k.code.run (c'.store k.resource)).1 ∧
      I (k.code.run (c'.store k.resource)).2)
    (hidle : ∀ r, owner r = t → (∀ k, c'.running t = some k → k.resource ≠ r) →
      I (c'.store r)) : Confined owner I Post c' := by
  refine ⟨?_, ?_, ?_⟩
  · intro t' k hk
    by_cases e : t' = t
    · subst e
      exact howned k hk
    · rw [hrunning t' e] at hk
      exact h.owned t' k hk
  · intro t' k hk
    by_cases e : t' = t
    · subst e
      exact hends k hk
    · rw [hrunning t' e] at hk
      have hne : owner k.resource ≠ t := by
        rw [h.owned t' k hk]
        exact e
      rw [hstore _ hne]
      exact h.ends t' k hk
  · intro r hr
    by_cases e : owner r = t
    · rw [e] at hr
      exact hidle r e hr
    · rw [hrunning _ e] at hr
      rw [hstore r e]
      exact h.idle r hr

variable [DecidableEq θ]

/-- Starting a program on its own thread, when the program keeps `I` and meets `Post`. -/
theorem confined_begin {k : Task ρ ι σ α} (h : Confined owner I Post c)
    (hk : owner k.resource = t)
    (hprog : ∀ s, I s → Post k.job (k.code.run s).1 ∧ I (k.code.run s).2)
    (hb : c.begin t k = some c') : Confined owner I Post c' := by
  unfold begin at hb
  split at hb
  · cases hb
  · rename_i ht
    cases hb
    have hfree : ∀ r, owner r = t → I (c.store r) := by
      intro r hr
      refine h.idle r fun l hl => ?_
      rw [hr, ht] at hl
      cases hl
    have hself : Function.update c.running t (some k) t = some k := Function.update_self ..
    refine h.update (t := t) (fun t' e => Function.update_of_ne e ..) (fun _ _ => rfl) ?_ ?_ ?_
    · intro l hl
      cases hself.symm.trans hl
      exact hk
    · intro l hl
      cases hself.symm.trans hl
      exact hprog _ (hfree _ hk)
    · intro r hr _
      exact hfree r hr

/-- A finished program satisfies its postcondition, and its resource is free again. -/
theorem confined_finish {j : ι} {a : α} (h : Confined owner I Post c)
    (hf : c.finish t = some (j, a, c')) : Post j a ∧ Confined owner I Post c' := by
  unfold finish at hf
  split at hf
  · rename_i j' r a' ht
    cases hf
    obtain ⟨hpost, hI⟩ := h.ends _ _ ht
    have hnone : Function.update c.running t none t = none := Function.update_self ..
    refine ⟨hpost, h.update (t := t) (fun t' e => Function.update_of_ne e ..)
      (fun _ _ => rfl) ?_ ?_ ?_⟩
    · intro l hl
      cases hnone.symm.trans hl
    · intro l hl
      cases hnone.symm.trans hl
    · intro r' hr' _
      by_cases e : r = r'
      · subst e
        exact hI
      · refine h.idle r' fun l hl => ?_
        rw [hr', ht] at hl
        cases hl
        exact e
  · cases hf

variable [DecidableEq ρ]

/-- One atomic step. The other programs do not see it, and the program it belongs to still
    ends as before. -/
theorem confined_advance (h : Confined owner I Post c) (ha : c.advance t = some c') :
    Confined owner I Post c' := by
  unfold advance at ha
  split at ha
  · rename_i j r f k ht
    cases ha
    have hown := h.owned _ _ ht
    have hself : Function.update c.running t (some ⟨j, r, k (f (c.store r))⟩) t =
      some ⟨j, r, k (f (c.store r))⟩ := Function.update_self ..
    refine h.update (t := t) (fun t' e => Function.update_of_ne e ..) ?_ ?_ ?_ ?_
    · intro r' hr'
      have hne : r' ≠ r := by
        rintro rfl
        exact hr' hown
      exact Function.update_of_ne hne ..
    · intro l hl
      cases hself.symm.trans hl
      exact hown
    · intro l hl
      cases hself.symm.trans hl
      have hends := h.ends _ _ ht
      simp only [Prog.run] at hends
      simp only [Function.update_self]
      exact hends
    · intro r' hr' hne
      have hne' : r ≠ r' := hne _ hself
      simp only [Function.update_of_ne hne'.symm]
      refine h.idle r' fun l hl => ?_
      rw [hr', ht] at hl
      cases hl
      exact hne'
  · cases ha

end Machine

end Atomic

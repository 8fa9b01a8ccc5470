/-
  Serialisation of the threads of `Atomic`: programs that interleave, and the same programs
  each run in one go.

  Where every resource has one owner thread, a machine with running programs stands for the
  machine in which they have all come to their ends. `settled` is the store of that machine and
  `outcome` what each thread will return. A program takes effect on them when it begins, and
  at once: `settled_begin`. Its steps and its end change nothing (`settled_advance`,
  `settled_finish`).

  Proved besides: `begin_iff`, `advance_iff`, `finish_iff`, all that a thread can do;
  `advance_through`, a thread left alone; `advance_load`, `finish_load`, the number of moves
  left to it; and `move_comm`, moves of different threads commute.
-/
import PaleoServer.Lib.Atomic

namespace Atomic

variable {σ α β γ θ ρ ι : Type}

/-! ## Programs -/

namespace Prog

/-- The number of atomic steps of an execution without interference. -/
def steps : Prog σ α → σ → Nat
  | done _, _ => 0
  | step f k, s => steps (k (f s)) (f s) + 1

/-- The next step is one on the resource. -/
def Acts : Prog σ α → Prop
  | done _ => False
  | step _ _ => True

theorem acts_bind {p : Prog σ α} {f : α → Prog σ β} (hf : ∀ a, ¬ (f a).Acts) :
    (p >>= f).Acts ↔ p.Acts := by
  cases p with
  | done a => exact ⟨fun h => (hf a h).elim, fun h => h.elim⟩
  | step g k => exact Iff.rfl

theorem bind_assoc (p : Prog σ α) (f : α → Prog σ β) (g : β → Prog σ γ) :
    (p >>= f) >>= g = p >>= fun a => f a >>= g := by
  show (p.bind f).bind g = p.bind fun a => (f a).bind g
  induction p with
  | done a => rfl
  | step h k ih => exact congrArg (step h) (funext ih)

end Prog

namespace Machine

variable {owner : ρ → θ} {c c' : Machine θ ρ ι σ α} {t : θ} {k : Task ρ ι σ α}

/-! ## Programs that have begun -/

/-- Every program works on a resource of the thread that runs it. -/
def Owned (owner : ρ → θ) (c : Machine θ ρ ι σ α) : Prop :=
  ∀ t k, c.running t = some k → owner k.resource = t

/-- What the program on a thread was started for and what it will return. -/
def outcome (c : Machine θ ρ ι σ α) (t : θ) : Option (ι × α) :=
  (c.running t).map fun k => (k.job, (k.code.run (c.store k.resource)).1)

/-- A resource as the program that is using it will leave it. -/
def settled [DecidableEq ρ] (owner : ρ → θ) (c : Machine θ ρ ι σ α) (r : ρ) : σ :=
  match c.running (owner r) with
  | none => c.store r
  | some k => if k.resource = r then (k.code.run (c.store r)).2 else c.store r

/-- The number of moves left to a thread: the atomic steps of its program and its end. -/
def load (c : Machine θ ρ ι σ α) (t : θ) : Nat :=
  match c.running t with
  | none => 0
  | some k => k.code.steps (c.store k.resource) + 1

theorem outcome_eq {u : θ} {l : Task ρ ι σ α} (h : c.running u = some l) :
    c.outcome u = some (l.job, (l.code.run (c.store l.resource)).1) := by
  unfold outcome
  rw [h]
  rfl

theorem outcome_idle {u : θ} (h : c.running u = none) : c.outcome u = none := by
  unfold outcome
  rw [h]
  rfl

/-- A thread does not see what happens to other threads and to resources it does not use. -/
theorem outcome_congr {u : θ} (hrunning : c'.running u = c.running u)
    (hstore : ∀ l, c.running u = some l → c'.store l.resource = c.store l.resource) :
    c'.outcome u = c.outcome u := by
  rcases h : c.running u with _ | l
  · rw [outcome_idle h, outcome_idle (hrunning.trans h)]
  · rw [outcome_eq h, outcome_eq (hrunning.trans h), hstore l h]

theorem load_congr {u : θ} (hrunning : c'.running u = c.running u)
    (hstore : ∀ l, c.running u = some l → c'.store l.resource = c.store l.resource) :
    c'.load u = c.load u := by
  unfold load
  rw [hrunning]
  rcases h : c.running u with _ | l
  · rfl
  · simp only [hstore l h]

section Settled

variable [DecidableEq ρ]

theorem settled_idle {r : ρ} (h : c.running (owner r) = none) : c.settled owner r = c.store r := by
  unfold settled
  rw [h]

/-- The resource of a running program. -/
theorem settled_resource (h : Owned owner c) {l : Task ρ ι σ α} (hl : c.running t = some l) :
    c.settled owner l.resource = (l.code.run (c.store l.resource)).2 := by
  unfold settled
  rw [h t l hl, hl]
  simp

/-- A resource that no program uses. -/
theorem settled_free {r : ρ} (h : ∀ l, c.running (owner r) = some l → l.resource ≠ r) :
    c.settled owner r = c.store r := by
  unfold settled
  rcases hr : c.running (owner r) with _ | l
  · rfl
  · simp only [h l hr, if_false]

end Settled

/-! ## Moves -/

/-- What a thread does next. -/
inductive Move (ρ ι σ α : Type) where
  | begin (k : Task ρ ι σ α)
  | advance
  | finish

/-- A move, as far as its own thread is concerned: from what the thread runs and the values of
    the resources to what it returns, what it runs then and what it writes. -/
def Move.act : Move ρ ι σ α → Option (Task ρ ι σ α) → (ρ → σ) →
    Option (Option (ι × α) × Option (Task ρ ι σ α) × Option (ρ × σ))
  | .begin k, none, _ => some (none, some k, none)
  | .advance, some ⟨j, r, .step f k⟩, store =>
    some (none, some ⟨j, r, k (f (store r))⟩, some (r, f (store r)))
  | .finish, some ⟨j, _, .done a⟩, _ => some (some (j, a), none, none)
  | _, _, _ => none

/-- A move reads the resource of its own program only. -/
theorem Move.act_congr (m : Move ρ ι σ α) {l : Option (Task ρ ι σ α)} {store store' : ρ → σ}
    (h : ∀ k, l = some k → store' k.resource = store k.resource) :
    m.act l store' = m.act l store := by
  rcases l with _ | ⟨j, r, a | ⟨f, g⟩⟩
  · cases m <;> rfl
  · cases m <;> rfl
  · have hr : store' r = store r := h _ rfl
    cases m <;> simp only [Move.act, hr]

/-- And writes no other. -/
theorem Move.act_write {m : Move ρ ι σ α} {l l' : Option (Task ρ ι σ α)} {store : ρ → σ}
    {o : Option (ι × α)} {r : ρ} {x : σ} (h : m.act l store = some (o, l', some (r, x))) :
    ∃ k, l = some k ∧ k.resource = r := by
  rcases l with _ | ⟨j, r', a | ⟨f, g⟩⟩ <;> cases m <;> simp only [Move.act] at h <;> cases h
  exact ⟨_, rfl, rfl⟩

section Write

variable [DecidableEq ρ]

/-- A write to the store. -/
def write (store : ρ → σ) : Option (ρ × σ) → ρ → σ
  | none => store
  | some (r, x) => Function.update store r x

theorem write_of_ne {store : ρ → σ} {w : Option (ρ × σ)} {r : ρ}
    (h : ∀ r' x, w = some (r', x) → r ≠ r') : write store w r = store r := by
  rcases w with _ | ⟨r', x⟩
  · rfl
  · exact Function.update_of_ne (h r' x rfl) ..

theorem write_comm {store : ρ → σ} {w w' : Option (ρ × σ)}
    (h : ∀ r x r' x', w = some (r, x) → w' = some (r', x') → r ≠ r') :
    write (write store w) w' = write (write store w') w := by
  rcases w with _ | ⟨r, x⟩
  · rfl
  · rcases w' with _ | ⟨r', x'⟩
    · rfl
    · exact Function.update_comm (h r x r' x' rfl rfl) x x' store

end Write

variable [DecidableEq θ]

/-! ## What a thread can do -/

theorem begin_iff : c.begin t k = some c' ↔
    c.running t = none ∧ c' = { c with running := Function.update c.running t (some k) } := by
  unfold begin
  rcases h : c.running t with _ | l
  · simp [eq_comm]
  · simp

theorem advance_iff [DecidableEq ρ] : c.advance t = some c' ↔
    ∃ j r f k, c.running t = some ⟨j, r, .step f k⟩ ∧
      c' = { store := Function.update c.store r (f (c.store r))
             running := Function.update c.running t (some ⟨j, r, k (f (c.store r))⟩) } := by
  unfold advance
  rcases h : c.running t with _ | ⟨j, r, a | ⟨f, k⟩⟩
  · simp
  · simp
  · constructor
    · intro e
      exact ⟨j, r, f, k, rfl, (Option.some.inj e).symm⟩
    · rintro ⟨j', r', f', k', e, rfl⟩
      cases e
      rfl

theorem finish_iff {j : ι} {a : α} : c.finish t = some (j, a, c') ↔
    ∃ r, c.running t = some ⟨j, r, .done a⟩ ∧
      c' = { c with running := Function.update c.running t none } := by
  unfold finish
  rcases h : c.running t with _ | ⟨j', r, a' | ⟨f, k⟩⟩
  · simp
  · constructor
    · intro e
      cases e
      exact ⟨r, rfl, rfl⟩
    · rintro ⟨r', e, rfl⟩
      cases e
      rfl
  · simp

/-! ## What beginning, stepping and ending change -/

theorem Owned.begin (h : Owned owner c) (hk : owner k.resource = t)
    (hb : c.begin t k = some c') : Owned owner c' := by
  obtain ⟨-, rfl⟩ := begin_iff.mp hb
  intro u l hl
  by_cases e : u = t
  · subst e
    cases (Function.update_self u (some k) c.running).symm.trans hl
    exact hk
  · exact h u l ((Function.update_of_ne e ..).symm.trans hl)

theorem Owned.finish {j : ι} {a : α} (h : Owned owner c) (hf : c.finish t = some (j, a, c')) :
    Owned owner c' := by
  obtain ⟨r, -, rfl⟩ := finish_iff.mp hf
  intro u l hl
  by_cases e : u = t
  · subst e
    cases (Function.update_self u none c.running).symm.trans hl
  · exact h u l ((Function.update_of_ne e ..).symm.trans hl)

/-- The end of a program is one move less for its thread and none for the others. -/
theorem finish_load {j : ι} {a : α} (hf : c.finish t = some (j, a, c')) :
    c.load t = c'.load t + 1 ∧ ∀ u, u ≠ t → c'.load u = c.load u := by
  obtain ⟨r, ht, rfl⟩ := finish_iff.mp hf
  refine ⟨?_, fun u hne => load_congr (Function.update_of_ne hne ..) fun _ _ => rfl⟩
  have hself : Function.update c.running t none t = none := Function.update_self ..
  unfold load
  simp only [ht, hself]
  rfl

/-- A sum over several threads, when one of them has become one less. -/
theorem sum_one_less {T : Finset θ} {f g : θ → Nat} (hmem : t ∈ T) (hself : f t = g t + 1)
    (hother : ∀ u, u ≠ t → g u = f u) : ∑ u ∈ T, f u = ∑ u ∈ T, g u + 1 := by
  have hrest : ∑ u ∈ T.erase t, g u = ∑ u ∈ T.erase t, f u :=
    Finset.sum_congr rfl fun u hu => hother u (Finset.ne_of_mem_erase hu)
  have h := Finset.add_sum_erase T f hmem
  have h' := Finset.add_sum_erase T g hmem
  omega

section Advance

variable [DecidableEq ρ]

theorem Owned.advance (h : Owned owner c) (ha : c.advance t = some c') : Owned owner c' := by
  obtain ⟨j, r, f, g, ht, rfl⟩ := advance_iff.mp ha
  intro u l hl
  by_cases e : u = t
  · subst e
    cases (Function.update_self u _ c.running).symm.trans hl
    have howner : owner r = u := h u _ ht
    exact howner
  · exact h u l ((Function.update_of_ne e ..).symm.trans hl)

/-- A step does not touch the resource of another thread's program. -/
theorem advance_store {u : θ} (h : Owned owner c) (ha : c.advance t = some c') (hne : u ≠ t)
    {l : Task ρ ι σ α} (hl : c.running u = some l) : c'.store l.resource = c.store l.resource := by
  obtain ⟨j, r, f, g, ht, rfl⟩ := advance_iff.mp ha
  have hresource : l.resource ≠ r := by
    intro e
    have hl' := h u l hl
    have ht' := h t _ ht
    rw [e] at hl'
    exact hne (hl'.symm.trans ht')
  exact Function.update_of_ne hresource ..

theorem advance_running {u : θ} (ha : c.advance t = some c') (hne : u ≠ t) :
    c'.running u = c.running u := by
  obtain ⟨j, r, f, g, ht, rfl⟩ := advance_iff.mp ha
  exact Function.update_of_ne hne ..

/-- **A program takes effect when it begins**, on the settled store. -/
theorem settled_begin (hk : owner k.resource = t) (hb : c.begin t k = some c') :
    c'.settled owner = Function.update (c.settled owner) k.resource
        (k.code.run (c.settled owner k.resource)).2 ∧
      c'.outcome = Function.update c.outcome t
        (some (k.job, (k.code.run (c.settled owner k.resource)).1)) := by
  obtain ⟨ht, rfl⟩ := begin_iff.mp hb
  have hstart : c.settled owner k.resource = c.store k.resource := by
    rw [settled_idle]
    rw [hk, ht]
  constructor
  · funext r
    by_cases e : owner r = t
    · have hfree : c.settled owner r = c.store r := by
        rw [settled_idle]
        rw [e, ht]
      by_cases er : r = k.resource
      · subst er
        rw [Function.update_self, hstart]
        unfold settled
        simp only [hk, Function.update_self, if_true]
      · rw [Function.update_of_ne er, hfree]
        unfold settled
        simp only [e, Function.update_self, Ne.symm er, if_false]
    · have er : r ≠ k.resource := by
        rintro rfl
        exact e hk
      rw [Function.update_of_ne er]
      unfold settled
      simp only [Function.update_of_ne e]
  · funext u
    by_cases e : u = t
    · subst e
      rw [Function.update_self, hstart]
      exact outcome_eq (Function.update_self ..)
    · rw [Function.update_of_ne e]
      exact outcome_congr (Function.update_of_ne e ..) fun _ _ => rfl

/-- **The steps of a program change nothing** that has not been decided when it began. -/
theorem settled_advance (h : Owned owner c) (ha : c.advance t = some c') :
    c'.settled owner = c.settled owner ∧ c'.outcome = c.outcome := by
  have howned := h.advance ha
  obtain ⟨j, r, f, g, ht, hc'⟩ := advance_iff.mp ha
  have hrunning : c'.running t = some ⟨j, r, g (f (c.store r))⟩ := by
    rw [hc']
    exact Function.update_self ..
  have hstore : c'.store r = f (c.store r) := by
    rw [hc']
    exact Function.update_self ..
  have hother : ∀ r', r' ≠ r → c'.store r' = c.store r' := by
    intro r' e
    rw [hc']
    exact Function.update_of_ne e ..
  constructor
  · funext r'
    by_cases er : r' = r
    · subst er
      rw [settled_resource howned hrunning, settled_resource h ht, hstore]
      rfl
    · by_cases e : owner r' = t
      · have hfree : ∀ l, c.running (owner r') = some l → l.resource ≠ r' := by
          intro l hl
          rw [e, ht] at hl
          cases hl
          exact Ne.symm er
        have hfree' : ∀ l, c'.running (owner r') = some l → l.resource ≠ r' := by
          intro l hl
          rw [e, hrunning] at hl
          cases hl
          exact Ne.symm er
        rw [settled_free hfree, settled_free hfree', hother r' er]
      · unfold settled
        rw [advance_running ha e, hother r' er]
  · funext u
    by_cases e : u = t
    · subst e
      rw [outcome_eq hrunning, outcome_eq ht, hstore]
      rfl
    · exact outcome_congr (advance_running ha e) fun l hl => advance_store h ha e hl

theorem settled_finish {j : ι} {a : α} (hf : c.finish t = some (j, a, c')) :
    c'.settled owner = c.settled owner ∧ c.outcome t = some (j, a) ∧
      c'.outcome = Function.update c.outcome t none := by
  obtain ⟨r, ht, rfl⟩ := finish_iff.mp hf
  refine ⟨?_, outcome_eq ht, ?_⟩
  · funext r'
    by_cases e : owner r' = t
    · have hidle : Function.update c.running t none (owner r') = none := by
        rw [e]
        exact Function.update_self ..
      rw [settled_idle hidle]
      unfold settled
      rw [e, ht]
      by_cases er : r = r'
      · simp only [er, if_true]
        rfl
      · simp only [er, if_false]
    · unfold settled
      simp only [Function.update_of_ne e]
  · funext u
    by_cases e : u = t
    · subst e
      rw [Function.update_self]
      exact outcome_idle (Function.update_self ..)
    · rw [Function.update_of_ne e]
      exact outcome_congr (Function.update_of_ne e ..) fun _ _ => rfl

/-! ## How many moves are left -/

/-- So is a step. -/
theorem advance_load (h : Owned owner c) (ha : c.advance t = some c') :
    c.load t = c'.load t + 1 ∧ ∀ u, u ≠ t → c'.load u = c.load u := by
  refine ⟨?_, fun u hne =>
    load_congr (advance_running ha hne) fun l hl => advance_store h ha hne hl⟩
  obtain ⟨j, r, f, g, ht, rfl⟩ := advance_iff.mp ha
  have hself : Function.update c.running t (some ⟨j, r, g (f (c.store r))⟩) t =
      some ⟨j, r, g (f (c.store r))⟩ := Function.update_self ..
  unfold load
  simp only [ht, hself, Function.update_self]
  rfl

/-- A thread that runs a program has a move. -/
theorem advance_or_finish {l : Task ρ ι σ α} (h : c.running t = some l) :
    (∃ c', c.advance t = some c') ∨ ∃ j a c', c.finish t = some (j, a, c') := by
  obtain ⟨j, r, a | ⟨f, g⟩⟩ := l
  · exact .inr ⟨j, a, _, finish_iff.mpr ⟨r, h, rfl⟩⟩
  · exact .inl ⟨_, advance_iff.mpr ⟨j, r, f, g, h, rfl⟩⟩

/-- **A thread left alone** runs the first part of its program: the others go on where they are,
    and see what it has left in the resource. -/
theorem advance_through {j : ι} {r : ρ} {p : Prog σ β} {g : β → Prog σ α}
    (h : c.running t = some ⟨j, r, p >>= g⟩) :
    (List.replicate (p.steps (c.store r)) t).foldlM advance c =
      some { store := Function.update c.store r (p.run (c.store r)).2
             running := Function.update c.running t (some ⟨j, r, g (p.run (c.store r)).1⟩) } := by
  induction p generalizing c with
  | done a =>
    have hstore : Function.update c.store r (c.store r) = c.store := Function.update_eq_self ..
    have hrunning : Function.update c.running t (some ⟨j, r, g a⟩) = c.running := by
      rw [show g a = (Prog.done a >>= g) from rfl, ← h]
      exact Function.update_eq_self ..
    simp only [Prog.steps, Prog.run, hstore, hrunning, List.replicate_zero]
    rfl
  | step f k ih =>
    obtain ⟨c₁, hc₁⟩ : ∃ c₁ : Machine θ ρ ι σ α, c₁ =
        { store := Function.update c.store r (f (c.store r))
          running := Function.update c.running t
            (some ⟨j, r, k (f (c.store r)) >>= g⟩) } := ⟨_, rfl⟩
    have hadv : c.advance t = some c₁ := advance_iff.mpr ⟨j, r, f, _, h, hc₁⟩
    have hrun : c₁.running t = some ⟨j, r, k (f (c.store r)) >>= g⟩ := by
      rw [hc₁]
      exact Function.update_self ..
    have hstore : c₁.store r = f (c.store r) := by
      rw [hc₁]
      exact Function.update_self ..
    have hrest := ih (f (c.store r)) hrun
    rw [hstore] at hrest
    rw [Prog.steps, List.replicate_succ, List.foldlM_cons, hadv]
    refine hrest.trans ?_
    rw [hc₁]
    simp only [Function.update_idem]
    rfl

/-! ## Independence -/

/-- The move of a thread in a machine. -/
def move (c : Machine θ ρ ι σ α) (t : θ) (m : Move ρ ι σ α) :
    Option (Option (ι × α) × Machine θ ρ ι σ α) :=
  (m.act (c.running t) c.store).map fun (o, l, w) =>
    (o, ⟨write c.store w, Function.update c.running t l⟩)

theorem move_begin : c.begin t k = some c' ↔ c.move t (.begin k) = some (none, c') := by
  unfold begin move
  rcases h : c.running t with _ | l
  · simp [Move.act, write]
  · simp [Move.act]

theorem move_advance : c.advance t = some c' ↔ c.move t .advance = some (none, c') := by
  unfold advance move
  rcases h : c.running t with _ | ⟨j, r, a | ⟨f, g⟩⟩
  · simp [Move.act]
  · simp [Move.act]
  · simp [Move.act, write]

theorem move_finish {j : ι} {a : α} :
    c.finish t = some (j, a, c') ↔ c.move t .finish = some (some (j, a), c') := by
  unfold finish move
  rcases h : c.running t with _ | ⟨j', r, a' | ⟨f, g⟩⟩
  · simp [Move.act]
  · simp [Move.act, write, and_assoc]
  · simp [Move.act]

theorem move_running {u : θ} {m : Move ρ ι σ α} {o : Option (ι × α)}
    (hm : c.move t m = some (o, c')) (hne : u ≠ t) : c'.running u = c.running u := by
  obtain ⟨⟨o', l, w⟩, _, e⟩ := Option.map_eq_some_iff.mp hm
  cases e
  exact Function.update_of_ne hne ..

/-- **Moves of different threads commute**: both are still possible after the other, return
    the same and lead to the same machine. -/
theorem move_comm {u : θ} {m m' : Move ρ ι σ α} {o o' : Option (ι × α)}
    {c₁ c₂ : Machine θ ρ ι σ α} (h : Owned owner c) (hne : t ≠ u)
    (ht : c.move t m = some (o, c₁)) (hu : c.move u m' = some (o', c₂)) :
    ∃ c', c₁.move u m' = some (o', c') ∧ c₂.move t m = some (o, c') := by
  obtain ⟨⟨o, l, w⟩, hact, e⟩ := Option.map_eq_some_iff.mp ht
  cases e
  obtain ⟨⟨o', l', w'⟩, hact', e⟩ := Option.map_eq_some_iff.mp hu
  cases e
  -- what a thread writes is its own
  have hw : ∀ r x, w = some (r, x) → owner r = t := by
    rintro r x rfl
    obtain ⟨k, hk, rfl⟩ := Move.act_write hact
    exact h t k hk
  have hw' : ∀ r x, w' = some (r, x) → owner r = u := by
    rintro r x rfl
    obtain ⟨k, hk, rfl⟩ := Move.act_write hact'
    exact h u k hk
  have hread : m'.act (c.running u) (write c.store w) = some (o', l', w') := by
    rw [← hact']
    refine Move.act_congr m' fun k hk => write_of_ne fun r x e => ?_
    rintro rfl
    exact hne ((hw _ x e).symm.trans (h u k hk))
  have hread' : m.act (c.running t) (write c.store w') = some (o, l, w) := by
    rw [← hact]
    refine Move.act_congr m fun k hk => write_of_ne fun r x e => ?_
    rintro rfl
    exact hne ((h t k hk).symm.trans (hw' _ x e))
  refine ⟨⟨write (write c.store w) w',
    Function.update (Function.update c.running t l) u l'⟩, ?_, ?_⟩
  · unfold move
    simp only [Function.update_of_ne hne.symm, hread, Option.map_some]
  · unfold move
    simp only [Function.update_of_ne hne, hread', Option.map_some]
    rw [Function.update_comm hne, write_comm]
    rintro r x r' x' e e' rfl
    exact hne ((hw r x' e').symm.trans (hw' r x e))

end Advance

end Machine

end Atomic

/-
  Programs that do one thing after another and may stop early. A `Script` is what such a program
  did (its log) with its result, or the reason it stopped. `>>=` goes on only from a result.

  `Ends p P Q E` is the postcondition of a script: everything in its log satisfies `P`, its
  result `Q`, the reason it stopped `E`. There is one rule for each way to build a script.
-/
import Mathlib

/-- A program's result, or why it stopped, and what it did until then. -/
structure Script (ω ε α : Type) where
  result : Except ε α
  log : List ω

namespace Script

variable {ω ε α β : Type}

instance : Monad (Script ω ε) where
  pure a := ⟨.ok a, []⟩
  bind p f :=
    match p.result with
    | .ok a => ⟨(f a).result, p.log ++ (f a).log⟩
    | .error e => ⟨.error e, p.log⟩

/-- One action. -/
def emit (w : ω) : Script ω ε Unit := ⟨.ok (), [w]⟩

/-- Stopping. -/
def stop (e : ε) : Script ω ε α := ⟨.error e, []⟩

/-! ## Results -/

@[simp] theorem emit_result (w : ω) : (emit w : Script ω ε Unit).result = .ok () := rfl

theorem bind_result_ok {p : Script ω ε α} {a : α} (h : p.result = .ok a)
    (f : α → Script ω ε β) : (p >>= f).result = (f a).result := by
  simp only [bind, h]

theorem bind_result_error {p : Script ω ε α} {e : ε} (h : p.result = .error e)
    (f : α → Script ω ε β) : (p >>= f).result = .error e := by
  simp only [bind, h]

/-! ## Postconditions -/

/-- Every action satisfies `P`, the result `Q`, the reason for stopping `E`. -/
structure Ends (p : Script ω ε α) (P : ω → Prop) (Q : α → Prop) (E : ε → Prop) : Prop where
  log : ∀ w ∈ p.log, P w
  ok : ∀ a, p.result = .ok a → Q a
  error : ∀ e, p.result = .error e → E e

variable {P : ω → Prop} {Q : α → Prop} {R : β → Prop} {E : ε → Prop}

theorem Ends.pure {a : α} (h : Q a) : Ends (pure a : Script ω ε α) P Q E := by
  refine ⟨fun _ hw => ?_, fun _ hb => ?_, fun _ he => ?_⟩
  · cases hw
  · cases hb
    exact h
  · cases he

theorem Ends.emit {w : ω} (h : P w) : Ends (emit w : Script ω ε Unit) P (fun _ => True) E := by
  refine ⟨fun v hv => ?_, fun _ _ => trivial, fun _ he => ?_⟩
  · rw [List.mem_singleton.mp hv]
    exact h
  · cases he

theorem Ends.stop {e : ε} (h : E e) : Ends (stop e : Script ω ε α) P Q E := by
  refine ⟨fun _ hw => ?_, fun _ hb => ?_, fun _ he => ?_⟩
  · cases hw
  · cases hb
  · cases he
    exact h

/-- One script after another. -/
theorem Ends.bind {p : Script ω ε α} {f : α → Script ω ε β} (hp : Ends p P Q E)
    (hf : ∀ a, Q a → Ends (f a) P R E) : Ends (p >>= f) P R E := by
  obtain ⟨result, log⟩ := p
  cases result with
  | ok a =>
    have ha := hf a (hp.ok a rfl)
    refine ⟨fun w hw => ?_, ha.ok, ha.error⟩
    rcases List.mem_append.mp hw with hw | hw
    · exact hp.log w hw
    · exact ha.log w hw
  | error e =>
    refine ⟨hp.log, fun _ hb => ?_, fun _ he => ?_⟩
    · cases hb
    · cases he
      exact hp.error e rfl

theorem Ends.ite {c : Prop} [Decidable c] {p q : Script ω ε α} (hp : c → Ends p P Q E)
    (hq : ¬ c → Ends q P Q E) : Ends (if c then p else q) P Q E := by
  split
  · exact hp ‹c›
  · exact hq ‹¬ c›

theorem Ends.imp {p : Script ω ε α} {Q' : α → Prop} (h : Ends p P Q E) (hQ : ∀ a, Q a → Q' a) :
    Ends p P Q' E :=
  ⟨h.log, fun a ha => hQ a (h.ok a ha), h.error⟩

end Script

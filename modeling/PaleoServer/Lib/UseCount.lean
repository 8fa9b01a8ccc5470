/-
  Objects owned by counted pointers. `apply` is one operation on the pointers of an object: it
  fails where the object is gone, or where one is made that is there.

  Proved: a holder that makes some pointers and then gives up its own does not fail, and leaves
  as many as it has made beside the others (`applyAll_handOver`).
-/
import Mathlib

namespace UseCount

variable {ι : Type} [DecidableEq ι]

inductive PointerOp (ι : Type) where
  /-- A new object with its first pointer. -/
  | make (k : ι)
  /-- One more pointer to an object. -/
  | share (k : ι)
  /-- A pointer is given up; the object goes with the last one. -/
  | release (k : ι)
  deriving DecidableEq, Repr

namespace PointerOp

/-- The use counts after an operation. -/
def apply (u : ι → Nat) : PointerOp ι → Option (ι → Nat)
  | make k => if u k = 0 then some (Function.update u k 1) else none
  | share k => if u k = 0 then none else some (Function.update u k (u k + 1))
  | release k => if u k = 0 then none else some (Function.update u k (u k - 1))

def applyAll (u : ι → Nat) (ops : List (PointerOp ι)) : Option (ι → Nat) := ops.foldlM apply u

theorem apply_make {u : ι → Nat} {k : ι} (h : u k = 0) :
    apply u (make k) = some (Function.update u k 1) := if_pos h

theorem apply_share {u : ι → Nat} {k : ι} (h : 0 < u k) :
    apply u (share k) = some (Function.update u k (u k + 1)) := if_neg (Nat.ne_of_gt h)

theorem apply_release {u : ι → Nat} {k : ι} (h : 0 < u k) :
    apply u (release k) = some (Function.update u k (u k - 1)) := if_neg (Nat.ne_of_gt h)

theorem applyAll_cons {u u₁ : ι → Nat} {op : PointerOp ι} (h : apply u op = some u₁)
    (ops : List (PointerOp ι)) : applyAll u (op :: ops) = applyAll u₁ ops := by
  unfold applyAll
  rw [List.foldlM_cons, h]
  rfl

/-- The operations of a holder that starts `i` others and ends. -/
def handOver (k : ι) (i : Nat) : List (PointerOp ι) := List.replicate i (share k) ++ [release k]

theorem applyAll_handOver {u : ι → Nat} {k : ι} (h : 0 < u k) (i : Nat) :
    applyAll u (handOver k i) = some (Function.update u k (u k + i - 1)) := by
  induction i generalizing u with
  | zero => exact (applyAll_cons (apply_release h) []).trans rfl
  | succ i ih =>
    have hself : Function.update u k (u k + 1) k = u k + 1 := Function.update_self ..
    have hpos : 0 < Function.update u k (u k + 1) k := by omega
    rw [handOver, List.replicate_succ, List.cons_append, applyAll_cons (apply_share h)]
    refine (ih hpos).trans ?_
    rw [hself, Function.update_idem]
    congr 2
    omega

end PointerOp

end UseCount

/-
  Round robin over `n` slots: a cursor that wraps, and how evenly it hands out turns.

  Turn `k` goes to slot `k % n`. Proved: the cursor (`next_mod`), the exact number of turns of
  a slot in a block of consecutive turns (`count_turns`), and that two slots differ by at most
  one (`count_turns_le`).
-/
import Mathlib

namespace RoundRobin

/-- The slot after `c`. -/
def next (n c : Nat) : Nat := if c + 1 = n then 0 else c + 1

/-- The cursor after `k` turns is `k % n`. -/
theorem next_mod {n : Nat} (hn : 0 < n) (k : Nat) : next n (k % n) = (k + 1) % n := by
  have hlt := Nat.mod_lt k hn
  unfold next
  rw [← Nat.mod_add_mod k n 1]
  split
  · rename_i h
    rw [h, Nat.mod_self]
  · rename_i h
    exact (Nat.mod_eq_of_lt (by omega)).symm

/-- Slots in step: two turns share a slot exactly when their successors do. -/
theorem succ_mod_inj {n k l : Nat} :
    (k + 1) % n = (l + 1) % n ↔ k % n = l % n := by
  constructor
  · intro h
    exact Nat.ModEq.add_right_cancel' 1 h
  · intro h
    exact Nat.ModEq.add_right 1 h

/-- The turns of slot `i` among `len` consecutive ones. -/
theorem count_turns {n i : Nat} (hi : i < n) (start len : Nat) :
    ((List.range len).countP fun k => (start + k) % n = i) =
      len / n + if (i + (n - start % n)) % n < len % n then 1 else 0 := by
  have hn : 0 < n := Nat.lt_of_le_of_lt (Nat.zero_le i) hi
  have hs := Nat.mod_lt start hn
  have key : ∀ k, (start + k) % n = i ↔ k ≡ i + (n - start % n) [MOD n] := by
    intro k
    have hback : start + (i + (n - start % n)) ≡ i [MOD n] := by
      have hmod : start + (n - start % n) ≡ 0 [MOD n] := by
        have h1 : start + (n - start % n) ≡ start % n + (n - start % n) [MOD n] :=
          (Nat.mod_modEq start n).symm.add_right _
        rw [Nat.add_sub_cancel' hs.le] at h1
        exact h1.trans (Nat.modEq_zero_iff_dvd.mpr (dvd_refl n))
      have h2 := hmod.add_right i
      rw [Nat.zero_add] at h2
      calc start + (i + (n - start % n)) = start + (n - start % n) + i := by omega
        _ ≡ i [MOD n] := h2
    constructor
    · intro h
      have hk : start + k ≡ i [MOD n] := by
        rw [Nat.ModEq, h, Nat.mod_eq_of_lt hi]
      exact Nat.ModEq.add_left_cancel' start (hk.trans hback.symm)
    · intro h
      have := (h.add_left start).trans hback
      rwa [Nat.ModEq, Nat.mod_eq_of_lt hi] at this
  rw [← Nat.count_modEq_card len hn]
  unfold Nat.count
  exact List.countP_congr fun k _ => by simp [key]

/-- **In any block of turns two slots differ by at most one.** -/
theorem count_turns_le {n i j : Nat} (hi : i < n) (hj : j < n) (start len : Nat) :
    ((List.range len).countP fun k => (start + k) % n = i) ≤
      ((List.range len).countP fun k => (start + k) % n = j) + 1 := by
  rw [count_turns hi, count_turns hj]
  split <;> split <;> omega

/-- The same for a list of turns and any block of it. -/
theorem block_count_le {n i j : Nat} (hi : i < n) (hj : j < n) (first total : Nat)
    (start len : Nat) :
    ((((List.range total).map fun k => (first + k) % n).drop start).take len).count i ≤
      ((((List.range total).map fun k => (first + k) % n).drop start).take len).count j + 1 := by
  have key : ∀ i, ((((List.range total).map fun k => (first + k) % n).drop start).take len).count
      i = (List.range (min len (total - start))).countP
        fun k => (first + start + k) % n = i := by
    intro i
    rw [← List.map_drop, List.range_eq_range', List.drop_range', Nat.zero_add, Nat.mul_one,
      List.range'_eq_map_range, ← List.map_take, ← List.map_take, List.take_range,
      List.map_map, List.count, List.countP_map]
    refine List.countP_congr fun k _ => ?_
    simp [Nat.add_assoc]
  rw [key, key]
  exact count_turns_le hi hj _ _

end RoundRobin

import Mathlib.Algebra.BigOperators.Intervals
import Mathlib.Algebra.BigOperators.Ring.Finset
import Mathlib.Algebra.Ring.Periodic
import Mathlib.Tactic.Common

/-!
# Sums over a cycle

* `sum_shift`    a periodic function has the same sum over every window of one period;
* `sum_blocks`   a sum, block by block;
* `sum_slow`     a clock that advances every `m` steps shows each of its values `m` times;
* `sum_ticks`    and ticks once with each.
-/

open Finset

namespace Cycle
variable {f : ℕ → ℕ} {m n : ℕ}

/-- **A periodic function has the same sum over every window of one period.** -/
theorem sum_shift (h : Function.Periodic f n) (a : ℕ) :
    ∑ i ∈ range n, f (a + i) = ∑ i ∈ range n, f i := by
  induction a with
  | zero => simp only [Nat.zero_add]
  | succ a ih =>
    have hwrap : f (a + n) = f a := h a
    have hsplit := sum_range_succ (fun i => f (a + i)) n
    rw [sum_range_succ', hwrap] at hsplit
    have hnext : ∑ i ∈ range n, f (a + (i + 1)) = ∑ i ∈ range n, f (a + i) :=
      Nat.add_right_cancel hsplit
    rw [← ih, ← hnext]
    refine sum_congr rfl fun i _ => ?_
    rw [Nat.succ_add, Nat.add_succ]

theorem sum_blocks (f : ℕ → ℕ) (m n : ℕ) :
    ∑ x ∈ range (m * n), f x = ∑ t ∈ range n, ∑ y ∈ range m, f (m * t + y) := by
  induction n with
  | zero => simp
  | succ n ih => rw [Nat.mul_succ, sum_range_add, ih, sum_range_succ]

/-- **A slow clock**: it advances every `m` steps. -/
theorem sum_slow (f : ℕ → ℕ) (m n : ℕ) :
    ∑ x ∈ range (m * n), f (x / m) = m * ∑ t ∈ range n, f t := by
  rw [sum_blocks, mul_sum]
  refine sum_congr rfl fun t _ => ?_
  have hblock : ∀ y ∈ range m, f ((m * t + y) / m) = f t := by
    intro y hy
    have hym := mem_range.mp hy
    rw [Nat.mul_add_div (Nat.zero_lt_of_lt hym), Nat.div_eq_of_lt hym, Nat.add_zero]
  rw [sum_congr rfl hblock, sum_const, card_range, smul_eq_mul]

/-- **It ticks once with each value.** -/
theorem sum_ticks (f : ℕ → ℕ) (hm : 0 < m) (n : ℕ) :
    ∑ x ∈ range (m * n), (if m ∣ x + 1 then f (x / m) else 0) = ∑ t ∈ range n, f t := by
  rw [sum_blocks]
  refine sum_congr rfl fun t _ => ?_
  obtain ⟨k, rfl⟩ : ∃ k, m = k + 1 := ⟨m - 1, by omega⟩
  have hrest : ∀ y ∈ range k, (if (k + 1) ∣ (k + 1) * t + y + 1 then
      f (((k + 1) * t + y) / (k + 1)) else 0) = 0 := by
    intro y hy
    have hyk := mem_range.mp hy
    rw [if_neg]
    rw [Nat.add_assoc, Nat.dvd_add_right (Nat.dvd_mul_right _ _)]
    intro hdvd
    have := Nat.le_of_dvd (Nat.succ_pos y) hdvd
    omega
  rw [sum_range_succ, sum_congr rfl hrest, sum_const_zero, Nat.zero_add, if_pos]
  · rw [Nat.mul_add_div (Nat.succ_pos k), Nat.div_eq_of_lt (Nat.lt_succ_self k), Nat.add_zero]
  · rw [Nat.add_assoc]
    exact Nat.dvd_add (Nat.dvd_mul_right _ _) (Nat.dvd_refl _)

end Cycle

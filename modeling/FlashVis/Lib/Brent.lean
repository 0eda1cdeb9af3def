import Mathlib.Data.Nat.Log
import Mathlib.Algebra.Group.Nat.Defs
import Mathlib.Data.Finset.Card
import Mathlib.Tactic.Common

/-!
# Cycle detection with one tortoise

A walk `x 0`, `x 1`, ... meets a tortoise that waits at one of its places and moves up to the walk
when as many places have been passed as a period says, which doubles each time.

* `Watch`, `Watch.pass`   the tortoise, and what passing a place does to it;
* `watch_eq`              after `k` places the tortoise waits at place `2 ^ m - 2`;
* `caught`                a walk that comes back to where it was meets the tortoise;
* `sees_earlier`          and only at an earlier place of the walk;
* `exists_repeat`         a walk in a finite set comes back.
-/

namespace Brent
variable {α : Type*}

/-- The tortoise, the places passed since it moved, and how many it lets pass. -/
structure Watch (α : Type*) where
  tortoise : Option α
  passed : ℕ
  period : ℕ

namespace Watch

/-- Nobody waits yet. -/
def start : Watch α := ⟨none, 1, 1⟩

/-- A place is passed: the tortoise moves up to it when its period is over. -/
def pass (w : Watch α) (a : α) : Watch α :=
  if w.passed = w.period then ⟨some a, 1, w.period * 2⟩ else { w with passed := w.passed + 1 }

end Watch

/-- The tortoise after the first `k` places of the walk `x`. -/
def watch (x : ℕ → α) : ℕ → Watch α
  | 0 => .start
  | k + 1 => (watch x k).pass (x k)

/-- **Where the tortoise waits.** -/
theorem watch_eq (x : ℕ → α) (k : ℕ) : ∃ m, 1 ≤ m ∧ 2 ^ m - 2 < k + 1 ∧ k + 1 ≤ 2 ^ m - 2 + 2 ^ m ∧
    watch x (k + 1) = ⟨some (x (2 ^ m - 2)), k + 1 - (2 ^ m - 2), 2 ^ m⟩ := by
  induction k with
  | zero => exact ⟨1, Nat.le_refl 1, by decide, by decide, rfl⟩
  | succ k ih =>
    obtain ⟨m, hm, hlow, hhigh, heq⟩ := ih
    have htwo : 2 ≤ 2 ^ m := by
      calc 2 = 2 ^ 1 := rfl
        _ ≤ 2 ^ m := Nat.pow_le_pow_right (by decide) hm
    have hpow : 2 ^ (m + 1) = 2 ^ m * 2 := Nat.pow_succ ..
    show ∃ m, _ ∧ _ ∧ _ ∧ (watch x (k + 1)).pass (x (k + 1)) = _
    rw [heq]
    unfold Watch.pass
    by_cases h : k + 1 - (2 ^ m - 2) = 2 ^ m
    · -- the tortoise moves up
      rw [if_pos h]
      have hk : k + 1 = 2 ^ (m + 1) - 2 := by omega
      refine ⟨m + 1, by omega, by omega, by omega, ?_⟩
      rw [← hk, hpow]
      congr 1
      omega
    · rw [if_neg h]
      refine ⟨m, hm, by omega, by omega, ?_⟩
      simp only [Watch.mk.injEq, true_and, and_true]
      omega

/-- **The tortoise waits at an earlier place.** -/
theorem sees_earlier {x : ℕ → α} {k : ℕ} {a : α} (h : (watch x k).tortoise = some a) :
    ∃ j < k, a = x j := by
  cases k with
  | zero => cases h
  | succ k =>
    obtain ⟨m, -, hlow, -, heq⟩ := watch_eq x k
    rw [heq] at h
    exact ⟨_, hlow, (Option.some.inj h).symm⟩

/-- **A walk that comes back meets the tortoise.** -/
theorem caught {x : ℕ → α} {μ c : ℕ} (hc : 0 < c) (hx : ∀ k, μ ≤ k → x (k + c) = x k) :
    ∃ k ≤ 3 * (μ + c) + 4, (watch x k).tortoise = some (x k) := by
  -- the first time that the tortoise waits on the cycle for long enough
  have hM : 1 < μ + c + 2 := by omega
  have hle := Nat.le_pow_clog (b := 2) (by decide) (μ + c + 2)
  have hlt := Nat.pow_pred_clog_lt_self (b := 2) (by decide) hM
  have hm := Nat.clog_pos (b := 2) (by decide) hM
  generalize Nat.clog 2 (μ + c + 2) = m at hle hlt hm
  have hpow : 2 ^ m = 2 ^ m.pred * 2 := by
    rw [← Nat.pow_succ, Nat.succ_pred_eq_of_pos hm]
  refine ⟨2 ^ m - 2 + c, by omega, ?_⟩
  rw [hx _ (by omega)]
  obtain ⟨k, hk⟩ : ∃ k, 2 ^ m - 2 + c = k + 1 := ⟨2 ^ m - 2 + c - 1, by omega⟩
  obtain ⟨m', hm', hlow, hhigh, heq⟩ := watch_eq x k
  rw [hk, heq]
  -- it has not moved since
  have hsame : m' = m := by
    rcases Nat.lt_trichotomy m' m with h | h | h
    · have hmono : 2 ^ (m' + 1) ≤ 2 ^ m := Nat.pow_le_pow_right (by decide) h
      rw [Nat.pow_succ] at hmono
      omega
    · exact h
    · have hmono : 2 ^ (m + 1) ≤ 2 ^ m' := Nat.pow_le_pow_right (by decide) h
      rw [Nat.pow_succ] at hmono
      omega
  rw [hsame]

/-- **A walk in a finite set comes back**, within as many places as the set has members. -/
theorem exists_repeat {x : ℕ → α} {s : Finset α} (hs : ∀ k ≤ s.card, x k ∈ s) :
    ∃ μ c, 0 < c ∧ μ + c ≤ s.card ∧ x (μ + c) = x μ := by
  classical
  have hcard : s.card < (Finset.range (s.card + 1)).card := by
    rw [Finset.card_range]
    exact Nat.lt_succ_self _
  obtain ⟨i, hi, j, hj, hne, heq⟩ := Finset.exists_ne_map_eq_of_card_lt_of_maps_to hcard
    (f := x) fun k hk => hs k (Nat.le_of_lt_succ (Finset.mem_range.mp hk))
  have hi' := Finset.mem_range.mp hi
  have hj' := Finset.mem_range.mp hj
  rcases Nat.lt_or_gt_of_ne hne with h | h
  · exact ⟨i, j - i, by omega, by omega, by rw [Nat.add_sub_cancel' (Nat.le_of_lt h)]; exact heq.symm⟩
  · exact ⟨j, i - j, by omega, by omega, by rw [Nat.add_sub_cancel' (Nat.le_of_lt h)]; exact heq⟩

end Brent

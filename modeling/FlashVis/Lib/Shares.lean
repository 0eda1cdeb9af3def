import Mathlib.Algebra.GroupWithZero.Nat
import Mathlib.Algebra.BigOperators.Group.List.Basic
import Mathlib.Data.Finset.Card
import Mathlib.Order.Interval.Finset.Nat

/-!
# Shares of a draw

`pick ws t` subtracts the weights `ws` from a target one after the other and stops at the first
that is larger than what is left.

* `pick_eq_some_iff`   index `i` is picked on the interval between two partial sums;
* `pick_lands`         every target below the total picks an index;
* `pick_share`         an index is picked by as many targets as its weight says.
-/

namespace Shares

/-- The index in whose share the target falls. -/
def pick : List ℕ → ℕ → Option ℕ
  | [], _ => none
  | w :: ws, t => if t < w then some 0 else (pick ws (t - w)).map (· + 1)

theorem pick_eq_some_iff {ws : List ℕ} {t i : ℕ} (hi : i < ws.length) :
    pick ws t = some i ↔ (ws.take i).sum ≤ t ∧ t < (ws.take (i + 1)).sum := by
  induction ws generalizing t i with
  | nil => exact absurd hi (Nat.not_lt_zero i)
  | cons w ws ih =>
    unfold pick
    by_cases ht : t < w
    · rw [if_pos ht]
      cases i with
      | zero => simpa using ht
      | succ i =>
        simp only [List.take_succ_cons, List.sum_cons, Option.some.injEq]
        omega
    · rw [if_neg ht]
      cases i with
      | zero =>
        simp only [List.take_zero, List.sum_nil, List.take_succ_cons, List.sum_cons]
        have hne : (pick ws (t - w)).map (· + 1) ≠ some 0 := by simp
        constructor
        · exact fun h => absurd h hne
        · intro h
          omega
      | succ i =>
        have hsucc : (pick ws (t - w)).map (· + 1) = some (i + 1) ↔ pick ws (t - w) = some i := by simp
        rw [hsucc, ih (Nat.lt_of_succ_lt_succ hi)]
        simp only [List.take_succ_cons, List.sum_cons]
        omega

theorem pick_lt_length {ws : List ℕ} {t i : ℕ} (h : pick ws t = some i) : i < ws.length := by
  induction ws generalizing t i with
  | nil => cases h
  | cons w ws ih =>
    unfold pick at h
    split at h
    · obtain rfl := Option.some.inj h
      exact Nat.succ_pos _
    · obtain ⟨j, hj, rfl⟩ := Option.map_eq_some_iff.mp h
      exact Nat.succ_lt_succ (ih hj)

theorem pick_lands {ws : List ℕ} {t : ℕ} (h : t < ws.sum) : ∃ i, pick ws t = some i := by
  induction ws generalizing t with
  | nil => exact absurd h (Nat.not_lt_zero t)
  | cons w ws ih =>
    unfold pick
    by_cases ht : t < w
    · exact ⟨0, if_pos ht⟩
    · rw [List.sum_cons] at h
      obtain ⟨i, hi⟩ := ih (t := t - w) (by omega)
      exact ⟨i + 1, by rw [if_neg ht, hi]; rfl⟩

/-- **The share of an index is its weight.** -/
theorem pick_share {ws : List ℕ} {i : ℕ} (hi : i < ws.length) :
    ((Finset.range ws.sum).filter fun t => pick ws t = some i).card = ws[i] := by
  have hstep : (ws.take (i + 1)).sum = (ws.take i).sum + ws[i] := List.sum_take_succ ws i hi
  have htotal : (ws.take (i + 1)).sum ≤ ws.sum := by
    conv_rhs => rw [← List.take_append_drop (i + 1) ws, List.sum_append]
    exact Nat.le_add_right _ _
  have hset : ((Finset.range ws.sum).filter fun t => pick ws t = some i) =
      Finset.Ico (ws.take i).sum (ws.take (i + 1)).sum := by
    ext t
    rw [Finset.mem_filter, Finset.mem_range, pick_eq_some_iff hi, Finset.mem_Ico]
    omega
  rw [hset, Nat.card_Ico]
  omega

end Shares

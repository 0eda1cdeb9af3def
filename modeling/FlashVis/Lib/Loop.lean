import Mathlib.Data.List.Range

/-!
# Counting loops

A loop `for (i = 0; i < c; i++)` over a state is a left fold over `List.range c`.

* `foldl_range_inv`   what holds before turn `0` and is carried from each turn to the next.
-/

namespace Loop
variable {α : Type*}

/-- **Invariant rule of a counting loop.** -/
theorem foldl_range_inv {f : α → Nat → α} {P : Nat → α → Prop} {a : α} (c : Nat) (h0 : P 0 a)
    (hstep : ∀ i < c, ∀ b, P i b → P (i + 1) (f b i)) : P c ((List.range c).foldl f a) := by
  induction c with
  | zero => exact h0
  | succ c ih =>
    rw [List.range_succ, List.foldl_append]
    exact hstep c (Nat.lt_succ_self c) _ (ih fun i hi => hstep i (Nat.lt_succ_of_lt hi))

end Loop

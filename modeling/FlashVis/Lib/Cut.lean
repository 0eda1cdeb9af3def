import Mathlib.Tactic.Common

/-!
# Runs that may be cut off

A run takes the steps of a list one after the other; it may stop after any of them.

* `Cut.Always P f l a`   `P` holds before the first step of `l` and after each of its steps;
* `Always.take`          so it holds wherever the run is cut off;
* `Always.append`        two runs one after the other;
* `Always.of_inv`        the invariant rule.
-/

namespace Cut
variable {σ ι : Type*} {P Q : σ → Prop} {f : σ → ι → σ} {l l' : List ι} {a : σ}

/-- `P` holds before the first step of `l` and after each of its steps. -/
def Always (P : σ → Prop) (f : σ → ι → σ) : List ι → σ → Prop
  | [], a => P a
  | i :: l, a => P a ∧ Always P f l (f a i)

namespace Always

/-- **Wherever the run is cut off**, `P` holds. -/
theorem take (h : Always P f l a) (k : Nat) : P ((l.take k).foldl f a) := by
  induction l generalizing a k with
  | nil =>
    rw [List.take_nil]
    exact h
  | cons i l ih =>
    cases k with
    | zero => exact h.1
    | succ k => exact ih h.2 k

theorem last (h : Always P f l a) : P (l.foldl f a) := by
  have hall := h.take l.length
  rwa [List.take_length] at hall

theorem append (h : Always P f l a) (h' : Always P f l' (l.foldl f a)) : Always P f (l ++ l') a := by
  induction l generalizing a with
  | nil => exact h'
  | cons i l ih => exact ⟨h.1, ih h.2 h'⟩

theorem mono (hPQ : ∀ a, P a → Q a) (h : Always P f l a) : Always Q f l a := by
  induction l generalizing a with
  | nil => exact hPQ a h
  | cons i l ih => exact ⟨hPQ a h.1, ih h.2⟩

/-- **The invariant rule.** -/
theorem of_inv (h0 : P a) (hstep : ∀ i ∈ l, ∀ a, P a → P (f a i)) : Always P f l a := by
  induction l generalizing a with
  | nil => exact h0
  | cons i l ih =>
    refine ⟨h0, ih (hstep i List.mem_cons_self a h0) fun j hj => ?_⟩
    exact hstep j (List.mem_cons_of_mem i hj)

end Always
end Cut

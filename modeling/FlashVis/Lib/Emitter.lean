import Mathlib.Data.List.Basic

/-!
# Machines that emit one item a step

A machine without input: `f s` is the item that state `s` emits and the state after it.

* `emits f k s`      the first `k` items from state `s`, and the state after them;
* `emits_add`        a run is cut anywhere;
* `emits_grows`      the shorter of two runs from one state is the beginning of the longer;
* `emits_inv`        what one step preserves, a run preserves.
-/

namespace Machine

variable {S A : Type*} {f : S → A × S}

/-- The first `k` items from state `s`, and the state after them. -/
def emits (f : S → A × S) : Nat → S → List A × S
  | 0, s => ([], s)
  | k + 1, s => ((f s).1 :: (emits f k (f s).2).1, (emits f k (f s).2).2)

@[simp] theorem emits_zero (s : S) : emits f 0 s = ([], s) := rfl

theorem emits_one (s : S) : emits f 1 s = ([(f s).1], (f s).2) := rfl

theorem emits_add (j k : Nat) (s : S) : emits f (j + k) s =
    ((emits f j s).1 ++ (emits f k (emits f j s).2).1, (emits f k (emits f j s).2).2) := by
  induction j generalizing s with
  | zero => rw [Nat.zero_add]; rfl
  | succ j ih =>
    rw [Nat.succ_add, emits, ih]
    rfl

theorem emits_succ (k : Nat) (s : S) : emits f (k + 1) s =
    ((emits f k s).1 ++ [(f (emits f k s).2).1], (f (emits f k s).2).2) := emits_add k 1 s

theorem emits_grows {j k : Nat} (h : j ≤ k) (s : S) : (emits f j s).1 <+: (emits f k s).1 := by
  obtain ⟨d, rfl⟩ := Nat.exists_eq_add_of_le h
  rw [emits_add]
  exact List.prefix_append _ _

/-- Two runs from one state: one is the beginning of the other. -/
theorem emits_comparable (j k : Nat) (s : S) :
    (emits f j s).1 <+: (emits f k s).1 ∨ (emits f k s).1 <+: (emits f j s).1 :=
  (Nat.le_total j k).imp (emits_grows · s) (emits_grows · s)

/-- Two runs from one state emit the same item at the same place. -/
theorem emits_getElem? {j k i : Nat} {s : S} {a b : A} (ha : (emits f j s).1[i]? = some a)
    (hb : (emits f k s).1[i]? = some b) : a = b := by
  have step : ∀ {l l' : List A} {x y : A}, l <+: l' → l[i]? = some x → l'[i]? = some y → x = y := by
    rintro l l' x y ⟨t, rfl⟩ hx hy
    rw [List.getElem?_append_left (List.getElem?_eq_some_iff.mp hx).1, hx] at hy
    exact Option.some.inj hy
  rcases emits_comparable (f := f) j k s with h | h
  · exact step h ha hb
  · exact (step h hb ha).symm

/-- **Invariant rule.** -/
theorem emits_inv {P : S → Prop} (hstep : ∀ s, P s → P (f s).2) (k : Nat) {s : S} (hs : P s) :
    P (emits f k s).2 := by
  induction k generalizing s with
  | zero => exact hs
  | succ k ih => exact ih (hstep s hs)

end Machine

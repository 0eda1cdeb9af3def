import Mathlib.Algebra.Order.Field.Basic
import Mathlib.Algebra.BigOperators.Group.List.Basic
import Mathlib.Tactic.Ring
import Mathlib.Tactic.Linarith

/-!
# Quantities that decay multiplicatively in whole steps of time

* `Decay k`      `k n` is what is left of one unit after `n` steps;
* `glow`         what is left at time `T` of hits with their dates;
* `glow_decay`   a glow decays as a whole;
* `glow_eq_iff`  two datings of the same hits, one never later, give the same glow exactly when
                 they agree on every hit.
-/

namespace Decaying

variable {F Y : Type*} [Field F] {k : ℕ → F} {hits date date' : Y → ℕ} {T : ℕ} {l : List Y}

/-- What is left at time `T` of the hits of `l`. -/
def glow (k : ℕ → F) (hits date : Y → ℕ) (T : ℕ) (l : List Y) : F :=
  (l.map fun y => (hits y : F) * k (T - date y)).sum

@[simp] theorem glow_nil : glow k hits date T [] = 0 := rfl

theorem glow_cons (y : Y) : glow k hits date T (y :: l) =
    hits y * k (T - date y) + glow k hits date T l := by
  simp [glow]

theorem glow_concat (y : Y) : glow k hits date T (l ++ [y]) =
    glow k hits date T l + hits y * k (T - date y) := by
  simp [glow]

variable [LinearOrder F]

structure Decay (k : ℕ → F) : Prop where
  mul : ∀ a b, k (a + b) = k a * k b
  pos : ∀ a, 0 < k a
  lt_one : ∀ a, 0 < a → k a < 1

variable [IsStrictOrderedRing F]

omit [IsStrictOrderedRing F] in
theorem Decay.zero (hk : Decay k) : k 0 = 1 := by
  have h : k 0 * k 0 = k 0 * 1 := by rw [← hk.mul, mul_one]
  exact mul_left_cancel₀ (hk.pos 0).ne' h

theorem Decay.lt (hk : Decay k) {a b : ℕ} (hab : a < b) : k b < k a := by
  obtain ⟨d, rfl⟩ := Nat.exists_eq_add_of_lt hab
  rw [Nat.add_assoc, hk.mul]
  exact mul_lt_of_lt_one_right (hk.pos a) (hk.lt_one _ (Nat.succ_pos d))

theorem Decay.le (hk : Decay k) {a b : ℕ} (hab : a ≤ b) : k b ≤ k a := by
  rcases hab.lt_or_eq with h | rfl
  · exact (hk.lt h).le
  · exact le_refl _

omit [IsStrictOrderedRing F] in
theorem glow_decay (hk : Decay k) {s : ℕ} (hs : ∀ y ∈ l, date y ≤ s) (hT : s ≤ T) :
    glow k hits date s l * k (T - s) = glow k hits date T l := by
  induction l with
  | nil => simp
  | cons y l ih =>
    have hy : date y ≤ s := hs y List.mem_cons_self
    have hsplit : T - date y = s - date y + (T - s) := by omega
    rw [glow_cons, glow_cons, add_mul, ih fun z hz => hs z (List.mem_cons_of_mem y hz), hsplit,
      hk.mul]
    ring

theorem glow_le (hits : Y → ℕ) (hk : Decay k) (hdate : ∀ y ∈ l, date y ≤ date' y) :
    glow k hits date T l ≤ glow k hits date' T l := by
  induction l with
  | nil => simp
  | cons y l ih =>
    rw [glow_cons, glow_cons]
    have hy := hdate y List.mem_cons_self
    have hle : (hits y : F) * k (T - date y) ≤ hits y * k (T - date' y) :=
      mul_le_mul_of_nonneg_left (hk.le (by omega)) (Nat.cast_nonneg _)
    exact add_le_add hle (ih fun z hz => hdate z (List.mem_cons_of_mem y hz))

theorem glow_eq_iff (hits : Y → ℕ) (hk : Decay k) (hdate : ∀ y ∈ l, date y ≤ date' y) (hT : ∀ y ∈ l, date' y ≤ T) :
    glow k hits date T l = glow k hits date' T l ↔ ∀ y ∈ l, 0 < hits y → date y = date' y := by
  induction l with
  | nil => simp
  | cons y l ih =>
    have hrest : ∀ z ∈ l, date z ≤ date' z := fun z hz => hdate z (List.mem_cons_of_mem y hz)
    have hih := ih hrest fun z hz => hT z (List.mem_cons_of_mem y hz)
    have hle := glow_le (T := T) hits hk hrest
    have hy := hdate y List.mem_cons_self
    have hyT := hT y List.mem_cons_self
    have hone : (hits y : F) * k (T - date y) ≤ hits y * k (T - date' y) :=
      mul_le_mul_of_nonneg_left (hk.le (by omega)) (Nat.cast_nonneg _)
    rw [glow_cons, glow_cons, List.forall_mem_cons, ← hih]
    constructor
    · intro hsum
      have heq : (hits y : F) * k (T - date y) = hits y * k (T - date' y) := by linarith
      refine ⟨fun hpos => ?_, by linarith⟩
      by_contra hne
      have hlt : k (T - date y) < k (T - date' y) := hk.lt (by omega)
      exact hlt.ne (mul_left_cancel₀ (Nat.cast_ne_zero.mpr hpos.ne') heq)
    · rintro ⟨hdates, hl⟩
      rw [hl]
      rcases Nat.eq_zero_or_pos (hits y) with h0 | hpos
      · rw [h0]
        simp
      · rw [hdates hpos]

end Decaying

import Mathlib.Logic.Function.Basic
import Mathlib.Data.List.Basic
import Mathlib.Tactic.Common

/-!
# Arrays of a fixed size

An array of `size` cells is a function of the index together with its size; an access outside the
bounds has no result.

* `peek`, `poke`, `fill`   one cell read, one written, a block set to one value;
* `foldlM_poke`            a block written cell by cell;
* `Loop.foldlM_inv`        a loop of fallible turns succeeds when every turn does;
* `Loop.foldlM_range_inv`  the same for a counting loop, with a claim about each turn;
* `Loop.foldlM_none`       a loop fails when one of its turns does.
-/

namespace Bounded
variable {α : Type*}

/-- `a[i]` -/
def peek (size : Nat) (a : Nat → α) (i : Nat) : Option α := if i < size then some (a i) else none

/-- `a[i] = v` -/
def poke (size : Nat) (a : Nat → α) (i : Nat) (v : α) : Option (Nat → α) :=
  if i < size then some (Function.update a i v) else none

/-- `memset(a + i, v, len)` -/
def fill (size : Nat) (a : Nat → α) (i len : Nat) (v : α) : Option (Nat → α) :=
  if i + len ≤ size then some fun j => if i ≤ j ∧ j < i + len then v else a j else none

theorem do_some.{u} {γ δ : Type u} {o : Option γ} {a : γ} (h : o = some a) (f : γ → Option δ) :
    (o >>= f) = f a := by
  rw [h]
  rfl

theorem peek_eq {size i : Nat} (h : i < size) (a : Nat → α) : peek size a i = some (a i) :=
  if_pos h

theorem poke_eq {size i : Nat} (h : i < size) (a : Nat → α) (v : α) :
    poke size a i v = some (Function.update a i v) := if_pos h

theorem fill_eq {size i len : Nat} (h : i + len ≤ size) (a : Nat → α) (v : α) :
    fill size a i len v = some fun j => if i ≤ j ∧ j < i + len then v else a j := if_pos h

theorem block_iff {c s p : Nat} (hc : 0 < c) : s * c ≤ p ∧ p < s * c + c ↔ p / c = s := by
  rw [Nat.div_eq_iff hc]
  omega

theorem fill_block {size c s : Nat} (hc : 0 < c) (h : s * c + c ≤ size) (a : Nat → α) (v : α) :
    fill size a (s * c) c v = some fun p => if p / c = s then v else a p := by
  rw [fill_eq h]
  simp only [block_iff hc]

theorem foldlM_poke {β : Type*} {size c s : Nat} (hc : 0 < c) (hfit : s * c + c ≤ size) {f : Nat → Option β}
    {g : Nat → β} (hf : ∀ k < c, f k = some (g k)) (a : Nat → Option β) :
    (List.range c).foldlM (fun a k => do
      let v ← f k
      poke size a (s * c + k) (some v)) a =
    some fun p => if p / c = s then some (g (p - s * c)) else a p := by
  have hrun : ∀ n ≤ c, (List.range n).foldlM (fun a k => do
      let v ← f k
      poke size a (s * c + k) (some v)) a =
      some fun p => if s * c ≤ p ∧ p < s * c + n then some (g (p - s * c)) else a p := by
    intro n hn
    induction n with
    | zero =>
      have h : (fun p => if s * c ≤ p ∧ p < s * c + 0 then some (g (p - s * c)) else a p) = a := by
        funext p
        exact if_neg (by omega)
      rw [h]
      rfl
    | succ n ih =>
      rw [List.range_succ, List.foldlM_append, do_some (ih (by omega)), List.foldlM_cons,
        do_some (hf n hn), do_some (poke_eq (by omega) _ _)]
      show some _ = some _
      congr 1
      funext p
      by_cases hp : p = s * c + n
      · rw [hp, Function.update_self, if_pos (by omega), Nat.add_sub_cancel_left]
      · rw [Function.update_of_ne hp]
        by_cases hr : s * c ≤ p ∧ p < s * c + n
        · rw [if_pos hr, if_pos (by omega)]
        · rw [if_neg hr, if_neg (by omega)]
  rw [hrun c (Nat.le_refl c)]
  simp only [block_iff hc]

end Bounded

namespace Loop
variable {α β : Type*}

/-- **A loop of fallible turns**: what every turn carries on, and can do, the loop does. -/
theorem foldlM_inv {f : α → β → Option α} {P : α → Prop} (l : List β) {a : α} (h0 : P a)
    (hstep : ∀ b ∈ l, ∀ a, P a → ∃ a', f a b = some a' ∧ P a') :
    ∃ a', l.foldlM f a = some a' ∧ P a' := by
  induction l generalizing a with
  | nil => exact ⟨a, rfl, h0⟩
  | cons b l ih =>
    obtain ⟨a', h, hp⟩ := hstep b List.mem_cons_self a h0
    rw [List.foldlM_cons, h]
    exact ih hp fun b' hb' => hstep b' (List.mem_cons_of_mem b hb')

/-- The rule for a counting loop: `P i` holds before turn `i`. -/
theorem foldlM_range_inv {f : α → Nat → Option α} {P : Nat → α → Prop} {a : α} (c : Nat) (h0 : P 0 a)
    (hstep : ∀ i < c, ∀ a, P i a → ∃ a', f a i = some a' ∧ P (i + 1) a') :
    ∃ a', (List.range c).foldlM f a = some a' ∧ P c a' := by
  induction c with
  | zero => exact ⟨a, rfl, h0⟩
  | succ c ih =>
    obtain ⟨a', h, hp⟩ := ih fun i hi => hstep i (Nat.lt_succ_of_lt hi)
    rw [List.range_succ, List.foldlM_append, h]
    obtain ⟨a'', h', hp'⟩ := hstep c (Nat.lt_succ_self c) a' hp
    refine ⟨a'', ?_, hp'⟩
    show ([c].foldlM f a' : Option α) = _
    rw [List.foldlM_cons, h']
    rfl

/-- A loop fails when some turn does, whatever the turns before it have made. -/
theorem foldlM_none {f : α → β → Option α} {P : α → Prop} {l : List β} {b : β} (hb : b ∈ l) {a : α}
    (h0 : P a) (hstep : ∀ b a a', P a → f a b = some a' → P a') (hf : ∀ a, P a → f a b = none) :
    l.foldlM f a = none := by
  induction l generalizing a with
  | nil => exact absurd hb List.not_mem_nil
  | cons c l ih =>
    rw [List.foldlM_cons]
    rcases List.mem_cons.mp hb with rfl | hb
    · rw [hf a h0]
      rfl
    · cases h : f a c with
      | none => rfl
      | some a' => exact ih hb (hstep c a a' h0 h)

theorem mapM_some {f : α → Option β} {g : α → β} {l : List α} (h : ∀ a ∈ l, f a = some (g a)) :
    l.mapM f = some (l.map g) := by
  induction l with
  | nil => rfl
  | cons a l ih =>
    rw [List.mapM_cons, h a List.mem_cons_self, ih fun b hb => h b (List.mem_cons_of_mem a hb)]
    rfl

end Loop

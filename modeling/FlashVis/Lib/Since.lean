import FlashVis.Lib.Machine
import Mathlib.Algebra.GroupWithZero.Nat
import Mathlib.Data.List.Induction

/-!
# What a history has done to a cell since it was last wiped

* `since w l`    the part of `l` after the last entry that `w` holds of;
* `run_cell`     a cell of a machine that some inputs wipe and the others update holds the fold of
                 the updates since the last wipe.
-/

namespace Machine

variable {S I C : Type*}

/-- The entries after the last one that wipes. -/
def since (w : I → Bool) (l : List I) : List I := (l.reverse.takeWhile fun i => !w i).reverse

@[simp] theorem since_nil (w : I → Bool) : since w [] = [] := rfl

theorem since_concat (w : I → Bool) (l : List I) (i : I) :
    since w (l ++ [i]) = if w i then [] else since w l ++ [i] := by
  unfold since
  rw [List.reverse_append, List.reverse_singleton, List.singleton_append, List.takeWhile_cons]
  cases w i <;> simp

theorem since_suffix (w : I → Bool) (l : List I) : since w l <:+ l :=
  List.reverse_prefix.mp (by simpa [since] using List.takeWhile_prefix _)

/-- **Cell rule.** Inputs count by their labels. -/
theorem run_cell {L : Type*} {step : S → I → S} {G : S → I → Prop} {P : S → Prop} {f : S → C}
    (lab : I → L) {w : L → Bool} {u : C → L → C} {z : C}
    (hstep : ∀ s i, G s i → P s →
      P (step s i) ∧ f (step s i) = if w (lab i) then z else u (f s) (lab i))
    {s : S} (hp : P s) (hz : f s = z) {is : List I} (hg : Along step G s is) :
    f (run step s is) = (since w (is.map lab)).foldl u z := by
  induction is using List.reverseRecOn with
  | nil => exact hz
  | append_singleton is i ih =>
    obtain ⟨hg, hi, -⟩ := along_append.mp hg
    have hp' : P (run step s is) := run_inv (fun s i h hp => (hstep s i h hp).1) hg hp
    rw [run_concat, List.map_append, List.map_singleton, since_concat, (hstep _ i hi hp').2, ih hg]
    split
    · rfl
    · rw [List.foldl_append, List.foldl_cons, List.foldl_nil]

theorem foldl_count_mod (q : I → Bool) (m : Nat) (l : List I) (n : Nat) :
    l.foldl (fun n i => if q i then (n + 1) % m else n) (n % m) = (n + l.countP q) % m := by
  induction l generalizing n with
  | nil => rfl
  | cons i l ih =>
    rw [List.foldl_cons, List.countP_cons]
    split
    · rw [Nat.mod_add_mod, ih, Nat.add_comm (l.countP q), Nat.add_assoc]
    · rw [ih, Nat.add_zero]

/-- A cell that remembers whether it was hit. -/
theorem foldl_or (q : I → Bool) (l : List I) (b : Bool) :
    l.foldl (fun b i => b || q i) b = (b || l.any q) := by
  induction l generalizing b with
  | nil => simp
  | cons i l ih => rw [List.foldl_cons, ih, List.any_cons, Bool.or_assoc]

/-- Counting by cell or by entry. -/
theorem sum_countP {K : Type*} (q : K → I → Bool) (ks : List K) (l : List I) :
    (ks.map fun k => l.countP (q k)).sum = (l.map fun i => ks.countP fun k => q k i).sum := by
  induction l with
  | nil => simp
  | cons i l ih =>
    rw [List.map_cons, List.sum_cons, ← ih]
    clear ih
    induction ks with
    | nil => simp
    | cons k ks ih =>
      simp only [List.map_cons, List.sum_cons, List.countP_cons] at ih ⊢
      omega

end Machine

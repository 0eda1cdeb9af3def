import Mathlib.Data.List.Induction
import Mathlib.Tactic.Common

/-!
# Windows of a numbered list

Items carry rising numbers, and a reader asks for those from a cursor on.

* `numbered h xs`        the items `xs` with the numbers `h`, `h + 1`, ...;
* `upTo`, `window`       the items below a number, and those from a cursor up to a head;
* `upTo_append_window`   what is below the cursor and the window after it make what is below the head;
* `Ascending`            a cursor, the heads of the answers on their way and the present head in order;
* `filter_drop`          a window that the oldest kept item is not part of has lost nothing.
-/

namespace Window
variable {α : Type*} {l : List (Nat × α)} {a b c h n : Nat}

/-- The numbers rise along the list. -/
def Rising (l : List (Nat × α)) : Prop := l.Pairwise fun x y => x.1 < y.1

/-- The items `xs`, numbered from `h` on. -/
def numbered (h : Nat) (xs : List α) : List (Nat × α) := (List.range' h xs.length).zip xs

/-- The items with a number below `b`. -/
def upTo (b : Nat) (l : List (Nat × α)) : List (Nat × α) := l.filter fun x => x.1 < b

/-- The items with a number from `a` on and below `b`. -/
def window (a b : Nat) (l : List (Nat × α)) : List (Nat × α) :=
  l.filter fun x => a ≤ x.1 ∧ x.1 < b

theorem numbered_concat (h : Nat) (xs : List α) (x : α) :
    numbered h (xs ++ [x]) = numbered h xs ++ [(h + xs.length, x)] := by
  unfold numbered
  rw [List.length_append, List.length_singleton, List.range'_1_concat, List.zip_append (by simp)]
  rfl

theorem numbered_length (h : Nat) (xs : List α) : (numbered h xs).length = xs.length := by
  simp [numbered]

theorem mem_numbered {xs : List α} {x : Nat × α} (hx : x ∈ numbered h xs) :
    h ≤ x.1 ∧ x.1 < h + xs.length := by
  have hm := (List.of_mem_zip hx).1
  rw [List.mem_range'_1] at hm
  exact hm

theorem numbered_rising (h : Nat) (xs : List α) : Rising (numbered h xs) := by
  induction xs using List.reverseRecOn with
  | nil => exact List.Pairwise.nil
  | append_singleton xs x ih =>
    rw [numbered_concat]
    refine List.pairwise_append.mpr ⟨ih, List.pairwise_singleton .., fun y hy z hz => ?_⟩
    rw [List.mem_singleton.mp hz]
    exact (mem_numbered hy).2

theorem Rising.filter (hl : Rising l) (p : Nat × α → Bool) : Rising (l.filter p) :=
  List.Pairwise.filter p hl

/-- **The reader's rule**: what it has below its cursor, and the window from there to the head, make
what is below the head. -/
theorem upTo_append_window (hl : Rising l) (h : a ≤ b) : upTo a l ++ window a b l = upTo b l := by
  unfold upTo window
  induction l with
  | nil => rfl
  | cons x l ih =>
    obtain ⟨hx, hl⟩ := List.pairwise_cons.mp hl
    by_cases h1 : x.1 < a
    · rw [List.filter_cons_of_pos (by simpa using h1), List.filter_cons_of_neg (by simp; omega),
        List.filter_cons_of_pos (by simp; omega), List.cons_append, ih hl]
    · have hnil : l.filter (fun x => x.1 < a) = [] := by
        rw [List.filter_eq_nil_iff]
        intro y hy
        have := hx y hy
        simp
        omega
      have hrest := ih hl
      rw [hnil, List.nil_append] at hrest
      rw [List.filter_cons_of_neg (by simpa using h1), hnil, List.nil_append]
      by_cases h2 : x.1 < b
      · rw [List.filter_cons_of_pos (by simp; omega), List.filter_cons_of_pos (by simpa using h2), hrest]
      · rw [List.filter_cons_of_neg (by simp; omega), List.filter_cons_of_neg (by simpa using h2), hrest]

theorem window_from (h : a ≤ c) : (window a b l).filter (fun x => c ≤ x.1) = window c b l := by
  unfold window
  rw [List.filter_filter]
  congr 1
  funext x
  rw [Bool.eq_iff_iff]
  simp
  omega

theorem window_append (hl : Rising l) (hab : a ≤ b) (hbc : b ≤ c) :
    window a b l ++ window b c l = window a c l := by
  have hlow : ∀ b, upTo b (l.filter fun x => a ≤ x.1) = window a b l := by
    intro b
    unfold upTo window
    rw [List.filter_filter]
    refine List.filter_congr fun x _ => ?_
    rw [Bool.eq_iff_iff]
    simp
    omega
  have hhigh : window b c (l.filter fun x => a ≤ x.1) = window b c l := by
    unfold window
    rw [List.filter_filter]
    refine List.filter_congr fun x _ => ?_
    rw [Bool.eq_iff_iff]
    simp
    omega
  have h := upTo_append_window (hl.filter fun x => a ≤ x.1) hbc
  rw [hlow, hlow, hhigh] at h
  exact h

theorem upTo_concat (x : α) (h : b ≤ n) : upTo b (l ++ [(n, x)]) = upTo b l := by
  unfold upTo
  rw [List.filter_append, List.filter_cons_of_neg (by simpa using h), List.filter_nil, List.append_nil]

theorem window_concat (x : α) (h : b ≤ n) : window a b (l ++ [(n, x)]) = window a b l := by
  unfold window
  rw [List.filter_append, List.filter_cons_of_neg (by simp; omega), List.filter_nil, List.append_nil]

theorem upTo_nil {xs : List α} (hb : b ≤ h) : upTo b (numbered h xs) = [] := by
  unfold upTo
  rw [List.filter_eq_nil_iff]
  intro x hx
  have := (mem_numbered hx).1
  simp
  omega

theorem window_self (a : Nat) (l : List (Nat × α)) : window a a l = [] := by
  unfold window
  rw [List.filter_eq_nil_iff]
  intro x _
  simp

theorem window_all {xs : List α} (hb : h + xs.length ≤ b) :
    window a b (numbered h xs) = (numbered h xs).filter fun x => a ≤ x.1 := by
  refine List.filter_congr fun x hx => ?_
  have := (mem_numbered hx).2
  simp
  omega

/-- Items dropped from the front of the list were older than those that are left: where some item that
is left is below the cursor, all items from the cursor on are left. -/
theorem filter_drop (hl : Rising l) (k : Nat)
    (hroom : k = 0 ∨ ((l.drop k).filter fun x => a ≤ x.1).length < (l.drop k).length) :
    (l.drop k).filter (fun x => a ≤ x.1) = l.filter fun x => a ≤ x.1 := by
  rcases hroom with rfl | hroom
  · rfl
  have hold : ∃ x ∈ l.drop k, x.1 < a := by
    by_contra hno
    refine Nat.lt_irrefl _ (Nat.lt_of_lt_of_eq hroom ?_)
    rw [List.filter_eq_self.mpr fun x hx => ?_]
    simpa using fun h => hno ⟨x, hx, h⟩
  obtain ⟨x, hx, hxa⟩ := hold
  have hsplit : Rising (l.take k ++ l.drop k) := by
    rw [List.take_append_drop]
    exact hl
  have htake : (l.take k).filter (fun x => a ≤ x.1) = [] := by
    rw [List.filter_eq_nil_iff]
    intro y hy
    have := (List.pairwise_append.mp hsplit).2.2 y hy x hx
    simp
    omega
  conv_rhs => rw [← List.take_append_drop k l, List.filter_append, htake, List.nil_append]

theorem exists_numbered {xs : List α} (ha : h ≤ a) (hb : a < h + xs.length) :
    ∃ x, (a, x) ∈ numbered h xs := by
  have hlen := numbered_length h xs
  obtain ⟨x, hx⟩ : ∃ x, (numbered h xs)[a - h]? = some x :=
    ⟨_, List.getElem?_eq_getElem (by omega)⟩
  have hnum : x.1 = a := by
    unfold numbered at hx
    rw [List.getElem?_zip_eq_some, List.getElem?_range' (by omega)] at hx
    have := Option.some.inj hx.1
    omega
  exact ⟨x.2, hnum ▸ List.mem_of_getElem? hx⟩

/-! ## answers in order -/

/-- The cursor `c`, the heads of the answers on their way, oldest first, and the present head `n` do
not go back. -/
def Ascending (c : Nat) (heads : List Nat) (n : Nat) : Prop :=
  (c :: (heads ++ [n])).Pairwise (· ≤ ·)

variable {heads heads' : List Nat}

theorem ascending_iff : Ascending c heads n ↔
    c ≤ n ∧ (∀ k ∈ heads, c ≤ k ∧ k ≤ n) ∧ heads.Pairwise (· ≤ ·) := by
  unfold Ascending
  rw [List.pairwise_cons, List.pairwise_append]
  constructor
  · rintro ⟨h1, h2, -, h3⟩
    refine ⟨h1 n (by simp), fun k hk => ⟨h1 k (by simp [hk]), h3 k hk n (by simp)⟩, h2⟩
  · rintro ⟨h1, h2, h3⟩
    refine ⟨fun k hk => ?_, h3, List.pairwise_singleton .., fun k hk m hm => ?_⟩
    · rcases List.mem_append.mp hk with hk | hk
      · exact (h2 k hk).1
      · rw [List.mem_singleton.mp hk]
        exact h1
    · rw [List.mem_singleton.mp hm]
      exact (h2 k hk).2

/-- The present head moves on. -/
theorem Ascending.grow {n' : Nat} (hc : Ascending c heads n) (hn : n ≤ n') : Ascending c heads n' := by
  rw [ascending_iff] at hc ⊢
  exact ⟨by omega, fun k hk => ⟨(hc.2.1 k hk).1, by have := (hc.2.1 k hk).2; omega⟩, hc.2.2⟩

/-- A new answer carries the present head. -/
theorem Ascending.post (hc : Ascending c heads n) : Ascending c (heads ++ [n]) n := by
  rw [ascending_iff] at hc ⊢
  refine ⟨hc.1, fun k hk => ?_, List.pairwise_append.mpr ⟨hc.2.2, List.pairwise_singleton .., ?_⟩⟩
  · rcases List.mem_append.mp hk with hk | hk
    · exact hc.2.1 k hk
    · rw [List.mem_singleton.mp hk]
      exact ⟨hc.1, Nat.le_refl n⟩
  · intro k hk m hm
    rw [List.mem_singleton.mp hm]
    exact (hc.2.1 k hk).2

/-- Answers are lost. -/
theorem Ascending.sublist (hc : Ascending c heads n) (hs : heads'.Sublist heads) :
    Ascending c heads' n := by
  rw [ascending_iff] at hc ⊢
  exact ⟨hc.1, fun k hk => hc.2.1 k (hs.subset hk), hc.2.2.sublist hs⟩

/-- The reader takes the oldest answer. -/
theorem Ascending.take (hc : Ascending c (a :: heads) n) : Ascending a (a :: heads) n := by
  rw [ascending_iff] at hc ⊢
  have ha := hc.2.1 a (by simp)
  refine ⟨ha.2, fun k hk => ⟨?_, (hc.2.1 k hk).2⟩, hc.2.2⟩
  rcases List.mem_cons.mp hk with rfl | hk
  · exact Nat.le_refl k
  · exact (List.pairwise_cons.mp hc.2.2).1 k hk

end Window

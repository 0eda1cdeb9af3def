import FlashVis.Lib.Cycle
import FlashVis.Lib.Gap

/-!
# A rotating gap levels

After `n + 1` turns the free place is back, after `n` such laps every block is.

* `Gap.turns_back`    `(n + 1) * n` turns lead back to the gap that they started from;
* `Gap.frees`         meanwhile every place is the free one `n` times;
* `Gap.visits`        and every block is `n` times at every place.
-/

open Finset

namespace Gap
variable {n : ℕ}

/-- The gap after `i` turns of a fresh one. -/
def nth (h : 0 < n) (i : ℕ) : Gap n where
  hole := i % (n + 1)
  laps := i / (n + 1) % n
  hole_le := Nat.le_of_lt_succ (Nat.mod_lt i (Nat.succ_pos n))
  laps_lt := Nat.mod_lt _ h

theorem ext_fields {g g' : Gap n} (hh : g.hole = g'.hole) (hl : g.laps = g'.laps) : g = g' := by
  cases g
  cases g'
  simp only [Gap.mk.injEq]
  exact ⟨hh, hl⟩

theorem nth_hole (h : 0 < n) (l : ℕ) {x : ℕ} (hx : x ≤ n) : (nth h ((n + 1) * l + x)).hole = x := by
  show ((n + 1) * l + x) % (n + 1) = x
  rw [Nat.mul_add_mod, Nat.mod_eq_of_lt (Nat.lt_succ_of_le hx)]

theorem nth_laps (h : 0 < n) (l : ℕ) {x : ℕ} (hx : x ≤ n) :
    (nth h ((n + 1) * l + x)).laps = l % n := by
  show ((n + 1) * l + x) / (n + 1) % n = l % n
  rw [Nat.mul_add_div (Nat.succ_pos n), Nat.div_eq_of_lt (Nat.lt_succ_of_le hx), Nat.add_zero]

theorem nth_turn (h : 0 < n) (i : ℕ) : (nth h i).turn = nth h (i + 1) := by
  obtain ⟨l, x, hx, rfl⟩ : ∃ l x, x ≤ n ∧ i = (n + 1) * l + x :=
    ⟨i / (n + 1), i % (n + 1), Nat.le_of_lt_succ (Nat.mod_lt i (Nat.succ_pos n)),
      (Nat.div_add_mod i (n + 1)).symm⟩
  have hh := nth_hole h l hx
  have hl := nth_laps h l hx
  rcases Nat.lt_or_eq_of_le hx with hlt | rfl
  · -- inside a lap
    obtain ⟨h1, h2⟩ := (nth h ((n + 1) * l + x)).turn_inside (by rw [hh]; exact hlt)
    rw [Nat.add_assoc]
    refine ext_fields (h1.trans ?_) (h2.trans ?_)
    · rw [hh, nth_hole h l hlt]
    · rw [hl, nth_laps h l hlt]
  · -- at its end
    obtain ⟨h1, h2⟩ := (nth h ((x + 1) * l + x)).turn_lap hh
    have hnext : (x + 1) * l + x + 1 = (x + 1) * (l + 1) + 0 := by
      rw [Nat.mul_succ]
      omega
    rw [hnext]
    refine ext_fields (h1.trans ?_) (h2.trans ?_)
    · rw [nth_hole h _ (Nat.zero_le x)]
    · rw [hl, nth_laps h _ (Nat.zero_le x), ← Nat.mod_add_mod]
      have hlap := Nat.mod_lt l h
      split
      · rw [show l % x + 1 = x by omega, Nat.mod_self]
      · exact (Nat.mod_eq_of_lt (by omega)).symm

theorem nth_turns (h : 0 < n) (i t : ℕ) : Gap.turn^[t] (nth h i) = nth h (i + t) := by
  induction t with
  | zero => rfl
  | succ t ih => rw [Function.iterate_succ_apply', ih, nth_turn, Nat.add_assoc]

theorem nth_periodic (h : 0 < n) : Function.Periodic (nth h) ((n + 1) * n) := by
  intro i
  refine ext_fields ?_ ?_
  · show (i + (n + 1) * n) % (n + 1) = i % (n + 1)
    rw [Nat.add_mul_mod_self_left]
  · show (i + (n + 1) * n) / (n + 1) % n = i / (n + 1) % n
    rw [Nat.add_mul_div_left _ _ (Nat.succ_pos n), Nat.add_mod_right]

theorem exists_nth (g : Gap n) : ∃ i, g = nth g.pos i := by
  refine ⟨(n + 1) * g.laps + g.hole, ext_fields (nth_hole g.pos _ g.hole_le).symm ?_⟩
  rw [nth_laps g.pos _ g.hole_le, Nat.mod_eq_of_lt g.laps_lt]

/-- **The turns lead back.** -/
theorem turns_back (g : Gap n) : Gap.turn^[(n + 1) * n] g = g := by
  obtain ⟨i, hi⟩ := g.exists_nth
  rw [hi, nth_turns]
  exact nth_periodic g.pos i

/-- A sum over the turns is one over the laps and over the free places. -/
theorem sum_turns (g : Gap n) (f : Gap n → ℕ) :
    ∑ t ∈ range ((n + 1) * n), f (Gap.turn^[t] g) =
      ∑ l ∈ range n, ∑ h ∈ range (n + 1), f (nth g.pos ((n + 1) * l + h)) := by
  obtain ⟨i, hi⟩ := g.exists_nth
  have hper : Function.Periodic (fun t => f (nth g.pos t)) ((n + 1) * n) := fun t =>
    congrArg f (nth_periodic g.pos t)
  have hturns : ∀ t ∈ range ((n + 1) * n), f (Gap.turn^[t] g) = f (nth g.pos (i + t)) := by
    intro t _
    conv_lhs => rw [hi, nth_turns]
  rw [sum_congr rfl hturns, Cycle.sum_shift hper i, Cycle.sum_blocks]

/-- **Every place is free as often.** -/
theorem frees (g : Gap n) (p : ℕ) : ∑ t ∈ range ((n + 1) * n),
    (if p = (Gap.turn^[t] g).hole then 1 else 0) = if p ≤ n then n else 0 := by
  by_cases hp : p ≤ n
  swap
  · rw [if_neg hp]
    refine sum_eq_zero fun t _ => if_neg fun h => hp ?_
    rw [h]
    exact Gap.hole_le _
  rw [if_pos hp, g.sum_turns fun g => if p = g.hole then 1 else 0]
  have hlap : ∀ l ∈ range n, ∑ h ∈ range (n + 1),
      (if p = (nth g.pos ((n + 1) * l + h)).hole then 1 else 0) = 1 := by
    intro l _
    have hhole : ∀ h ∈ range (n + 1), (if p = (nth g.pos ((n + 1) * l + h)).hole then 1 else 0) =
        if p = h then 1 else 0 := by
      intro h hh
      rw [nth_hole g.pos l (Nat.le_of_lt_succ (mem_range.mp hh))]
    rw [sum_congr rfl hhole, sum_ite_eq, if_pos (mem_range.mpr (Nat.lt_succ_of_le hp))]
  rw [sum_congr rfl hlap, sum_const, card_range, smul_eq_mul, Nat.mul_one]

theorem sum_lap {r p : ℕ} (hr : r < n) :
    ∑ h ∈ range (n + 1), (if p = (if r < h then r else r + 1) then 1 else 0) =
      (if p = r then n - r else 0) + if p = r + 1 then r + 1 else 0 := by
  rw [show n + 1 = (r + 1) + (n - r) by omega, sum_range_add]
  have hbelow : ∀ h ∈ range (r + 1), (if p = (if r < h then r else r + 1) then 1 else 0) =
      if p = r + 1 then 1 else 0 := by
    intro h hh
    rw [if_neg (Nat.not_lt_of_le (Nat.le_of_lt_succ (mem_range.mp hh)))]
  have habove : ∀ h ∈ range (n - r), (if p = (if r < r + 1 + h then r else r + 1) then 1 else 0) =
      if p = r then 1 else 0 := by
    intro h _
    rw [if_pos (by omega : r < r + 1 + h)]
  rw [sum_congr rfl hbelow, sum_congr rfl habove, sum_const, sum_const, card_range, card_range,
    smul_eq_mul, smul_eq_mul, mul_ite, mul_ite, Nat.mul_one, Nat.mul_one, Nat.mul_zero, Nat.mul_zero,
    Nat.add_comm]

/-- The ranks of a block in the laps are all there are. -/
theorem sum_ranks (f : ℕ → ℕ) (k : ℕ) :
    ∑ l ∈ range n, f ((n - l + k) % n) = ∑ r ∈ range n, f r := by
  rw [← sum_range_reflect]
  have hper : Function.Periodic (fun x => f (x % n)) n := fun x =>
    congrArg f (Nat.add_mod_right x n)
  have hback : ∀ l ∈ range n, f ((n - (n - 1 - l) + k) % n) = f ((k + 1 + l) % n) := by
    intro l hl
    have hln := mem_range.mp hl
    rw [show n - (n - 1 - l) + k = k + 1 + l by omega]
  rw [sum_congr rfl hback, Cycle.sum_shift hper]
  exact sum_congr rfl fun r hr => by rw [Nat.mod_eq_of_lt (mem_range.mp hr)]

/-- **Every block is as often at every place.** -/
theorem visits (g : Gap n) (k p : ℕ) : ∑ t ∈ range ((n + 1) * n),
    (if p = (Gap.turn^[t] g).place k then 1 else 0) = if p ≤ n then n else 0 := by
  by_cases hp : p ≤ n
  swap
  · rw [if_neg hp]
    refine sum_eq_zero fun t _ => if_neg fun h => hp ?_
    rw [h]
    exact Gap.place_le _ k
  rw [if_pos hp, g.sum_turns fun g => if p = g.place k then 1 else 0]
  have hlap : ∀ l ∈ range n, ∑ h ∈ range (n + 1),
      (if p = (nth g.pos ((n + 1) * l + h)).place k then 1 else 0) =
        (if p = (n - l + k) % n then n - (n - l + k) % n else 0) +
          if p = (n - l + k) % n + 1 then (n - l + k) % n + 1 else 0 := by
    intro l hl
    have hln := mem_range.mp hl
    rw [← sum_lap (Nat.mod_lt _ g.pos)]
    refine sum_congr rfl fun h hh => ?_
    have hx := Nat.le_of_lt_succ (mem_range.mp hh)
    unfold place rank
    rw [nth_hole g.pos l hx, nth_laps g.pos l hx, Nat.mod_eq_of_lt hln]
  rw [sum_congr rfl hlap,
    sum_ranks (fun r => (if p = r then n - r else 0) + if p = r + 1 then r + 1 else 0) k,
    sum_add_distrib, sum_ite_eq]
  cases p with
  | zero =>
    rw [if_pos (mem_range.mpr g.pos), sum_eq_zero fun r _ => if_neg (Nat.succ_ne_zero r).symm]
    omega
  | succ p =>
    have hsucc : ∀ r ∈ range n, (if p + 1 = r + 1 then r + 1 else 0) = if p = r then r + 1 else 0 := by
      intro r _
      simp only [Nat.add_right_cancel_iff]
    rw [sum_congr rfl hsucc, sum_ite_eq, if_pos (mem_range.mpr hp)]
    by_cases hlt : p + 1 < n
    · rw [if_pos (mem_range.mpr hlt)]
      omega
    · rw [if_neg fun h => hlt (mem_range.mp h)]
      omega

end Gap

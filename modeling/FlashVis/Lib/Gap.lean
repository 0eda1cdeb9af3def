import Mathlib.Tactic.Common

/-!
# A rotating gap

`n` blocks live in `n + 1` places, so that one place is free.  A turn moves the block next to the
free place into it; when the free place has passed all places, a lap is over and every block has
moved on by one.

* `Gap n`         the free place and the number of laps;
* `Gap.place`     where a block lives;
* `Gap.source`    the place whose block the next turn moves into the free one;
* `Gap.turn`      the gap after a turn;
* `place_inj`     no two blocks share a place, and none is in the free one (`place_ne_hole`);
* `turn_place`    a turn moves one block and leaves all others where they are.
-/

/-- `n` blocks in `n + 1` places. -/
structure Gap (n : Nat) where
  hole : Nat
  laps : Nat
  hole_le : hole ≤ n
  laps_lt : laps < n

namespace Gap
variable {n : Nat}

/-- Where block `k` would be were there no gap. -/
def rank (g : Gap n) (k : Nat) : Nat := (n - g.laps + k) % n

/-- Where block `k` is. -/
def place (g : Gap n) (k : Nat) : Nat := if g.rank k < g.hole then g.rank k else g.rank k + 1

/-- The place whose block the next turn moves. -/
def source (g : Gap n) : Nat := if n < g.hole + 1 then 0 else g.hole + 1

/-- The gap after a turn. -/
def turn (g : Gap n) : Gap n :=
  if h : n < g.hole + 1 then
    if hl : n ≤ g.laps + 1 then
      { hole := 0, laps := 0, hole_le := Nat.zero_le n, laps_lt := Nat.zero_lt_of_lt g.laps_lt }
    else { hole := 0, laps := g.laps + 1, hole_le := Nat.zero_le n, laps_lt := Nat.lt_of_not_le hl }
  else { g with hole := g.hole + 1, hole_le := Nat.le_of_not_lt h }

theorem pos (g : Gap n) : 0 < n := Nat.zero_lt_of_lt g.laps_lt

theorem rank_lt (g : Gap n) (k : Nat) : g.rank k < n := Nat.mod_lt _ g.pos

theorem rank_eq (g : Gap n) {k : Nat} (hk : k < n) :
    g.rank k = if k < g.laps then n - g.laps + k else k - g.laps := by
  have hl := g.laps_lt
  unfold rank
  split
  · rw [Nat.mod_eq_of_lt (by omega)]
  · have h : n - g.laps + k = (k - g.laps) + n := by omega
    rw [h, Nat.add_mod_right, Nat.mod_eq_of_lt (by omega)]

theorem place_le (g : Gap n) (k : Nat) : g.place k ≤ n := by
  have h := g.rank_lt k
  unfold place
  split <;> omega

theorem place_ne_hole (g : Gap n) (k : Nat) : g.place k ≠ g.hole := by
  unfold place
  split <;> omega

/-- No two blocks share a place. -/
theorem place_inj (g : Gap n) {j k : Nat} (hj : j < n) (hk : k < n) (h : g.place j = g.place k) :
    j = k := by
  have hl := g.laps_lt
  have hrank : g.rank j = g.rank k := by
    unfold place at h
    split at h <;> split at h <;> omega
  rw [g.rank_eq hj, g.rank_eq hk] at hrank
  split at hrank <;> split at hrank <;> omega

theorem source_le (g : Gap n) : g.source ≤ n := by
  unfold source
  split <;> omega

theorem source_ne_hole (g : Gap n) : g.source ≠ g.hole := by
  have hp := g.pos
  unfold source
  split <;> omega

/-- A turn inside a lap. -/
theorem turn_inside (g : Gap n) (h : g.hole < n) :
    g.turn.hole = g.hole + 1 ∧ g.turn.laps = g.laps := by
  unfold turn
  rw [dif_neg (by omega)]
  exact ⟨rfl, rfl⟩

/-- The turn that ends a lap. -/
theorem turn_lap (g : Gap n) (h : g.hole = n) :
    g.turn.hole = 0 ∧ g.turn.laps = if n ≤ g.laps + 1 then 0 else g.laps + 1 := by
  unfold turn
  rw [dif_pos (by omega)]
  split <;> exact ⟨rfl, rfl⟩

theorem turn_hole (g : Gap n) : g.turn.hole = g.source := by
  unfold turn source
  split
  · split <;> rfl
  · rfl

/-- **A turn moves one block**: the one at the source goes to the free place. -/
theorem turn_place (g : Gap n) {k : Nat} (hk : k < n) :
    g.turn.place k = if g.place k = g.source then g.hole else g.place k := by
  have hl := g.laps_lt
  have hh := g.hole_le
  have hr := g.rank_eq hk
  have ht := g.turn.rank_eq hk
  by_cases h : n < g.hole + 1
  · -- the lap is over: the free place is the last one, the source the first
    have hlaps : g.turn.laps = if n ≤ g.laps + 1 then 0 else g.laps + 1 := by
      unfold turn
      rw [dif_pos h]
      split <;> rfl
    have hturn := g.turn_hole
    unfold place source at *
    rw [if_pos h] at hturn ⊢
    rw [hlaps] at ht
    split at hr <;> split at ht <;> split at ht <;> split <;> split <;> split <;> omega
  · have hrank : g.turn.rank k = g.rank k := by
      unfold rank turn
      rw [dif_neg h]
    have hturn := g.turn_hole
    unfold place source at *
    rw [if_neg h] at hturn ⊢
    rw [hrank]
    split <;> split <;> split <;> omega

end Gap

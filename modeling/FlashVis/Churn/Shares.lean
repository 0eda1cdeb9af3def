import FlashVis.Churn.Slots
import FlashVis.Lib.Shares

/-!
# The draws of the churn generator fall in shares

The second loop of every choice walks the list of weights that its first loop summed
(`pickFrom_eq`, `pickSize_eq`), so the residues of a draw are divided by the weights.
-/

namespace FlashVis
namespace ChurnModel

open Shares

/-- The weight of every slot in a choice, 0 for a slot that cannot be chosen. -/
def weights (w : Slot → Nat) (prot : Option Nat) : Nat → List Slot → List Nat
  | _, [] => []
  | i, s :: ss => (if choosable prot i s then w s else 0) :: weights w prot (i + 1) ss

variable {w : Slot → Nat} {prot : Option Nat}

theorem totalFrom_eq (k : Nat) (ss : List Slot) : totalFrom w prot k ss = (weights w prot k ss).sum := by
  induction ss generalizing k with
  | nil => rfl
  | cons s ss ih => rw [totalFrom, weights, List.sum_cons, ih]

/-- The second loop picks a share of the first. -/
theorem pickFrom_eq (k : Nat) (ss : List Slot) (t : Nat) :
    pickFrom w prot k ss t = (pick (weights w prot k ss) t).map (k + ·) := by
  induction ss generalizing k t with
  | nil => rfl
  | cons s ss ih =>
    have hshift : ∀ o : Option Nat, o.map (k + 1 + ·) = (o.map (· + 1)).map (k + ·) := by
      intro o
      rw [Option.map_map]
      congr 1
      funext j
      show k + 1 + j = k + (j + 1)
      omega
    unfold pickFrom weights pick
    by_cases hc : choosable prot k s = true
    · simp only [if_pos hc]
      by_cases ht : t < w s
      · simp [ht]
      · simp only [if_neg ht, ih]
        exact hshift _
    · simp only [if_neg hc, Nat.not_lt_zero, if_false, Nat.sub_zero, ih]
      exact hshift _

theorem weights_length (k : Nat) (ss : List Slot) : (weights w prot k ss).length = ss.length := by
  induction ss generalizing k with
  | nil => rfl
  | cons s ss ih => rw [weights, List.length_cons, ih, List.length_cons]

theorem weights_getElem? (w : Slot → Nat) (prot : Option Nat) (k i : Nat) (ss : List Slot) : (weights w prot k ss)[i]? =
    ss[i]?.map fun s => if choosable prot (k + i) s then w s else 0 := by
  induction ss generalizing k i with
  | nil => rfl
  | cons s ss ih =>
    cases i with
    | zero => simp [weights]
    | succ i =>
      rw [weights, List.getElem?_cons_succ, List.getElem?_cons_succ, ih, Nat.add_right_comm k 1 i]
      rfl

/-- What a choice of a slot does with its draw. -/
structure Fair (w : Slot → Nat) (choose : ChurnModel → Option Nat × ChurnModel) (m : ChurnModel) :
    Prop where
  /-- a slot that can be chosen is chosen by as many residues as its weight says -/
  share : ∀ i s, m.slots[i]? = some s → choosable m.protectedLargeSlot i s = true →
    ((Finset.range (totalFrom w m.protectedLargeSlot 0 m.slots)).filter fun r =>
      pickFrom w m.protectedLargeSlot 0 m.slots r = some i).card = w s
  /-- every residue chooses a slot that can be chosen: the loop does not fall through -/
  lands : ∀ r < totalFrom w m.protectedLargeSlot 0 m.slots, ∃ i s,
    pickFrom w m.protectedLargeSlot 0 m.slots r = some i ∧ m.slots[i]? = some s ∧
      choosable m.protectedLargeSlot i s = true
  /-- the residue is that of the next draw -/
  drawn : totalFrom w m.protectedLargeSlot 0 m.slots ≠ 0 → (choose m).1 =
    pickFrom w m.protectedLargeSlot 0 m.slots
      (m.prng.1 % totalFrom w m.protectedLargeSlot 0 m.slots)
  live : ∀ i, (choose m).1 = some i → (m.slot i).live = true
  none_iff : (choose m).1 = none ↔ ∀ s ∈ m.slots, s.live = false

theorem chooseSlot_fair (hw : ∀ s, 0 < w s) (m : ChurnModel) : Fair w (chooseSlot w) m := by
  obtain ⟨-, hlive, hnone⟩ := chooseSlot_spec hw m
  constructor
  · intro i s hs hc
    have hi : i < (weights w m.protectedLargeSlot 0 m.slots).length := by
      rw [weights_length]
      exact (List.getElem?_eq_some_iff.mp hs).1
    have hweight : (weights w m.protectedLargeSlot 0 m.slots)[i] = w s := by
      have hget := weights_getElem? w m.protectedLargeSlot 0 i m.slots
      rw [List.getElem?_eq_getElem hi, hs, Nat.zero_add, Option.map_some, if_pos hc] at hget
      exact Option.some.inj hget
    rw [← hweight, ← pick_share hi, totalFrom_eq]
    congr 1
    refine Finset.filter_congr fun r _ => ?_
    rw [pickFrom_eq]
    simp
  · intro r hr
    obtain ⟨i, hi⟩ := pickFrom_total hr
    obtain ⟨-, s, hs, hc⟩ := pickFrom_choosable hi
    exact ⟨i, s, hi, hs, hc⟩
  · intro hz
    obtain ⟨u, st, hu⟩ := prng_eq m
    unfold chooseSlot
    dsimp only
    rw [if_neg hz, hu]
  · exact hlive
  · refine ⟨hnone, fun hdead => ?_⟩
    rcases hres : (chooseSlot w m).1 with - | i
    · rfl
    · have hslot := hlive i hres
      have hmem := List.mem_of_getElem? (slot_live hslot)
      rw [hdead _ hmem] at hslot
      exact absurd hslot Bool.false_ne_true

/-- The size that `_chooseChurnSize` draws in a class. -/
def drawSize (c : SizeClass) (m : ChurnModel) : (ChurnClass × Nat) × ChurnModel :=
  if c.maxSize ≤ c.minSize then ((c.key, c.minSize), m)
  else
    let (u, m) := m.prng
    ((c.key, c.minSize + u % (c.maxSize - c.minSize + 1)), m)

theorem pickSize_eq (m : ChurnModel) {cs : List SizeClass} {r j : Nat} {c : SizeClass}
    (hc : cs[j]? = some c) (hr : pick (cs.map (·.weight)) r = some j) :
    m.pickSize cs r = drawSize c m := by
  induction cs generalizing r j with
  | nil => cases hc
  | cons c' cs ih =>
    rw [List.map_cons] at hr
    unfold pick at hr
    unfold pickSize
    by_cases hlt : r < c'.weight
    · rw [if_pos hlt] at hr
      obtain rfl := Option.some.inj hr
      obtain rfl : c' = c := Option.some.inj hc
      rw [if_neg (Nat.not_le.mpr hlt)]
      rfl
    · rw [if_neg hlt] at hr
      obtain ⟨i, hi, rfl⟩ := Option.map_eq_some_iff.mp hr
      rw [if_pos (Nat.not_lt.mp hlt)]
      exact ih hc hi

theorem drawSize_range (c : SizeClass) (m : ChurnModel) : (drawSize c m).1.1 = c.key ∧
    c.minSize ≤ (drawSize c m).1.2 ∧ (drawSize c m).1.2 ≤ max c.minSize c.maxSize := by
  unfold drawSize
  split
  · exact ⟨rfl, Nat.le_refl _, Nat.le_max_left _ _⟩
  · next hlt =>
    have hmod : m.prng.1 % (c.maxSize - c.minSize + 1) < c.maxSize - c.minSize + 1 :=
      Nat.mod_lt _ (Nat.succ_pos _)
    refine ⟨rfl, Nat.le_add_right _ _, Nat.le_trans ?_ (Nat.le_max_right _ _)⟩
    show c.minSize + m.prng.1 % (c.maxSize - c.minSize + 1) ≤ c.maxSize
    omega

/-- What the choice of a size does with its draw: the residues below the total weight are divided
among the classes, and each of them has its size drawn in its class's range. -/
structure FairSize (m : ChurnModel) (total : Nat) : Prop where
  share : ∀ j c, m.opts.profile.classes[j]? = some c →
    ((Finset.range total).filter fun r =>
      pick (m.opts.profile.classes.map (·.weight)) r = some j).card = c.weight
  lands : ∀ r < total, ∃ j c, pick (m.opts.profile.classes.map (·.weight)) r = some j ∧
    m.opts.profile.classes[j]? = some c ∧
    ∀ m', pickSize m' m.opts.profile.classes r = drawSize c m'
  drawn : total ≠ 0 → m.chooseChurnSize =
    m.prng.2.pickSize m.opts.profile.classes (m.prng.1 % total)

theorem chooseChurnSize_fair (m : ChurnModel) :
    FairSize m (m.opts.profile.classes.map (·.weight)).sum := by
  constructor
  · intro j c hc
    have hj : j < (m.opts.profile.classes.map (·.weight)).length := by
      rw [List.length_map]
      exact (List.getElem?_eq_some_iff.mp hc).1
    rw [pick_share hj, List.getElem_map]
    congr 1
    exact (List.getElem?_eq_some_iff.mp hc).2
  · intro r hr
    obtain ⟨j, hj⟩ := pick_lands hr
    have hlt := pick_lt_length hj
    rw [List.length_map] at hlt
    have hc := List.getElem?_eq_getElem hlt
    exact ⟨j, _, hj, hc, fun m' => pickSize_eq m' hc hj⟩
  · intro hz
    obtain ⟨u, st, hu⟩ := prng_eq m
    unfold chooseChurnSize
    dsimp only
    rw [if_neg hz, hu]

theorem deleteWeight_eq (s : Slot) : deleteWeight s = max 1 (s.size / 4096) := by
  unfold deleteWeight
  dsimp only
  split <;> omega

/-- **The draws of the generator divide fairly.** For every slot table, profile and protected slot:
`_chooseDeleteSlot` gives each live unprotected slot `max(1, floor(size / 4096))` residues,
`_chooseLiveSlot` one each, `_chooseChurnSize` each class its weight, with a size in the class's
range; no residue is left over, only live slots are chosen, and none is chosen only when none is
live. -/
theorem draws_fair (m : ChurnModel) :
    Fair (fun s => max 1 (s.size / 4096)) chooseDeleteSlot m ∧
      Fair (fun _ => 1) chooseLiveSlot m ∧
      FairSize m (m.opts.profile.classes.map (·.weight)).sum ∧
      ∀ c m', (drawSize c m').1.1 = c.key ∧ c.minSize ≤ (drawSize c m').1.2 ∧
        (drawSize c m').1.2 ≤ max c.minSize c.maxSize := by
  have hweight : deleteWeight = fun s => max 1 (s.size / 4096) := funext deleteWeight_eq
  refine ⟨?_, chooseSlot_fair (fun _ => Nat.one_pos) m, chooseChurnSize_fair m, drawSize_range⟩
  unfold chooseDeleteSlot
  rw [hweight]
  exact chooseSlot_fair (fun s => by omega) m

end ChurnModel
end FlashVis

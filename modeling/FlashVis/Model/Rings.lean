import FlashVis.Lib.Window
import Mathlib.Tactic

/-!
# Append-only rings with monotone ids (worker-rings.js)

* `Ring.Holds`     the ring keeps the newest of the items pushed since some id;
* `since_window`   a selection that misses nothing is a window of these items.
-/

namespace FlashVis

/-- The journal and the viz-event log: at most `max` items, ids issued from `nextId`. -/
structure Ring (α : Type) where
  max : Nat
  items : List (Nat × α)
  nextId : Nat
  deriving DecidableEq, Repr

/-- `createRing` -/
def createRing {α : Type} (max : Nat) : Ring α := ⟨max, [], 0⟩

namespace Ring
variable {α : Type}

def push (x : α) (r : Ring α) : Ring α :=
  let items := r.items ++ [(r.nextId, x)]
  { r with items := if r.max < items.length then items.drop 1 else items, nextId := r.nextId + 1 }

/-- One past the highest id ever issued. -/
def head (r : Ring α) : Nat := r.nextId

/-- The newest `limit` items of a window, all of it when no limit is given. -/
def newestOf (limit : Option Nat) (l : List (Nat × α)) : List (Nat × α) :=
  match limit with
  | some k => l.drop (l.length - k)
  | none => l

/-- Items with `id > since`, oldest first. -/
def since (since : Int) (limit : Option Nat) (r : Ring α) : List (Nat × α) :=
  newestOf limit (r.items.filter fun it => since < (it.1 : Int))

def newest (limit : Option Nat) (r : Ring α) : List (Nat × α) := newestOf limit r.items

/-- `clear` keeps the id counter. -/
def clear (r : Ring α) : Ring α := { r with items := [] }

def pushAll (xs : List α) (r : Ring α) : Ring α := xs.foldl (fun r x => r.push x) r

open Window

/-- The ring holds the newest `max` of the items `xs`, numbered from `h` on. -/
structure Holds (h : Nat) (xs : List α) (r : Ring α) : Prop where
  items : r.items = (numbered h xs).drop (xs.length - r.max)
  nextId : r.nextId = h + xs.length

theorem Holds.push {h : Nat} {xs : List α} {r : Ring α} (hr : r.Holds h xs) (x : α) :
    (r.push x).Holds h (xs ++ [x]) := by
  have hlen := numbered_length h xs
  refine ⟨?_, ?_⟩
  · show (if r.max < (r.items ++ [(r.nextId, x)]).length then (r.items ++ [(r.nextId, x)]).drop 1
      else r.items ++ [(r.nextId, x)]) = (numbered h (xs ++ [x])).drop ((xs ++ [x]).length - r.max)
    have hfull : r.items ++ [(r.nextId, x)] = (numbered h (xs ++ [x])).drop (xs.length - r.max) := by
      rw [numbered_concat, List.drop_append_of_le_length (by omega), hr.items, hr.nextId]
    rw [hfull, List.length_drop, numbered_length, List.length_append, List.length_singleton]
    by_cases hmax : r.max ≤ xs.length
    · rw [if_pos (by omega), List.drop_drop]
      congr 1
      omega
    · rw [if_neg (by omega)]
      congr 1
      omega
  · show r.nextId + 1 = _
    rw [hr.nextId, List.length_append, List.length_singleton, Nat.add_assoc]

/-- **A selection that misses nothing**: where no more than `limit` items lie past the cursor, and the
ring keeps more, the selection is all of them. -/
theorem Holds.since_window {h : Nat} {xs : List α} {r : Ring α} (hr : r.Holds h xs) {c limit : Nat}
    (hmax : limit < r.max) (hfit : (r.items.filter fun it => c ≤ it.1).length ≤ limit) :
    r.since ((c : Int) - 1) (some limit) = window c r.head (numbered h xs) := by
  have hsel : r.items.filter (fun it => (c : Int) - 1 < (it.1 : Int)) =
      r.items.filter fun it => c ≤ it.1 := by
    refine List.filter_congr fun x _ => ?_
    simp only [decide_eq_decide]
    omega
  have hall : r.items.filter (fun it => c ≤ it.1) = window c r.head (numbered h xs) := by
    unfold head
    rw [window_all (Nat.le_of_eq hr.nextId.symm)]
    rw [hr.items] at hfit ⊢
    refine filter_drop (numbered_rising h xs) _ ?_
    by_cases hlen : xs.length ≤ r.max
    · exact .inl (by omega)
    · refine .inr (Nat.lt_of_le_of_lt hfit ?_)
      rw [List.length_drop, numbered_length]
      omega
  unfold since newestOf
  dsimp only
  rw [hsel, Nat.sub_eq_zero_of_le hfit, List.drop_zero, hall]

end Ring

end FlashVis

import FlashVis.Lib.Machine
import FlashVis.Model.Rings

/-!
# Runs of a ring: ids, windows and gaps (worker-rings.js)

Whatever is pushed and cleared, the retained ids are the consecutive integers below `head`
(`Ring.Contiguous`), so that every answer is a window of them and a gap at its front is an
eviction.
-/

namespace FlashVis

inductive RingOp (α : Type) where
  | push (x : α)
  | clear
  deriving DecidableEq, Repr

namespace Ring
variable {α : Type}

def step (r : Ring α) : RingOp α → Ring α
  | .push x => r.push x
  | .clear => r.clear

/-- The retained ids, oldest first. -/
def ids (r : Ring α) : List Nat := r.items.map Prod.fst

/-- The ids that the pushes of a run are given, in order. -/
def issued : Ring α → List (RingOp α) → List Nat
  | _, [] => []
  | r, .push x :: ops => r.nextId :: issued (r.push x) ops
  | r, .clear :: ops => issued r.clear ops

/-- The retained ids above `s`. -/
def above (s : Int) (r : Ring α) : List Nat := r.ids.filter fun i => s < (i : Int)

/-- How many of `n` items a limit lets through. -/
def admits (limit : Option Nat) (n : Nat) : Nat :=
  match limit with
  | some k => min k n
  | none => n

/-- The last `n` ids below the head. -/
def tail (r : Ring α) (n : Nat) : List Nat := List.range' (r.head - n) n

/-- The ring is not overfull, and the retained ids are the last ones issued. -/
structure Contiguous (r : Ring α) : Prop where
  le_max : r.items.length ≤ r.max
  le_head : r.items.length ≤ r.head
  ids_eq : r.ids = r.tail r.items.length

theorem drop_range' (a n k : Nat) : (List.range' a n).drop k = List.range' (a + k) (n - k) := by
  rw [List.drop_range', Nat.mul_one]

theorem tail_drop {r : Ring α} {n : Nat} (hn : n ≤ r.head) (k : Nat) :
    (r.tail n).drop k = r.tail (n - k) := by
  unfold tail
  rw [drop_range']
  by_cases hk : k ≤ n
  · congr 1
    omega
  · have hz : n - k = 0 := by omega
    rw [hz]
    rfl

theorem createRing_contiguous (max : Nat) : (createRing max : Ring α).Contiguous where
  le_max := Nat.zero_le _
  le_head := Nat.zero_le _
  ids_eq := rfl

theorem Contiguous.push {r : Ring α} (hr : r.Contiguous) (x : α) : (r.push x).Contiguous := by
  have hlen := hr.le_max
  have hhead : r.items.length ≤ r.nextId := hr.le_head
  -- the items before the eviction are the last `length + 1` issued
  have hfull : (r.items ++ [(r.nextId, x)]).map Prod.fst =
      List.range' (r.nextId - r.items.length) (r.items.length + 1) := by
    rw [List.range'_1_concat, List.map_append, List.map_singleton]
    show r.ids ++ [r.nextId] = _
    rw [hr.ids_eq, Nat.sub_add_cancel hhead]
    rfl
  by_cases hmax : r.max < r.items.length + 1
  · have hitems : (r.push x).items = (r.items ++ [(r.nextId, x)]).drop 1 := by
      simp [Ring.push, hmax]
    have hcount : (r.push x).items.length = r.items.length := by simp [hitems]
    refine ⟨by rw [hcount]; exact hlen, ?_, ?_⟩
    · rw [hcount]
      show r.items.length ≤ r.nextId + 1
      omega
    · rw [hcount, ids, hitems, List.map_drop, hfull, drop_range']
      show _ = List.range' (r.nextId + 1 - r.items.length) r.items.length
      congr 1
      omega
  · have hitems : (r.push x).items = r.items ++ [(r.nextId, x)] := by
      simp [Ring.push, hmax]
    have hcount : (r.push x).items.length = r.items.length + 1 := by simp [hitems]
    refine ⟨?_, ?_, ?_⟩
    · rw [hcount]
      show r.items.length + 1 ≤ r.max
      omega
    · rw [hcount]
      show r.items.length + 1 ≤ r.nextId + 1
      omega
    · rw [hcount, ids, hitems, hfull]
      show _ = List.range' (r.nextId + 1 - (r.items.length + 1)) (r.items.length + 1)
      rw [Nat.add_sub_add_right]

theorem Contiguous.step {r : Ring α} (hr : r.Contiguous) (op : RingOp α) :
    (r.step op).Contiguous := by
  cases op with
  | push x => exact hr.push x
  | clear => exact ⟨Nat.zero_le _, Nat.zero_le _, rfl⟩

theorem step_max (r : Ring α) (op : RingOp α) : (r.step op).max = r.max := by
  cases op <;> rfl

theorem head_step (r : Ring α) (op : RingOp α) : r.head ≤ (r.step op).head := by
  cases op with
  | push x => exact Nat.le_succ _
  | clear => exact Nat.le_refl _

/-- Ids are issued one after the other, across a `clear` too. -/
theorem issued_eq (r : Ring α) (ops : List (RingOp α)) :
    r.issued ops = List.range' r.head ((Machine.run step r ops).head - r.head) ∧
      r.head ≤ (Machine.run step r ops).head := by
  induction ops generalizing r with
  | nil => simp [issued]
  | cons op ops ih =>
    have hle := head_step r op
    obtain ⟨hids, hhead⟩ := ih (r.step op)
    rw [Machine.run_cons]
    refine ⟨?_, Nat.le_trans hle hhead⟩
    cases op with
    | clear => exact hids
    | push x =>
      have hsucc : (r.push x).head = r.head + 1 := rfl
      have hhead' : r.head + 1 ≤ (Machine.run Ring.step (r.push x) ops).head := hhead
      show r.head :: (r.push x).issued ops = _
      rw [show (r.push x).issued ops = _ from hids]
      show r.head :: List.range' (r.head + 1) ((Machine.run Ring.step (r.push x) ops).head - (r.head + 1)) =
        List.range' r.head ((Machine.run Ring.step (r.push x) ops).head - r.head)
      conv_rhs => rw [show (Machine.run Ring.step (r.push x) ops).head - r.head =
        (Machine.run Ring.step (r.push x) ops).head - (r.head + 1) + 1 by omega, List.range'_succ]

theorem newestOf_ids {r : Ring α} {l : List (Nat × α)} {n : Nat} (hn : n ≤ r.head)
    (hl : l.map Prod.fst = r.tail n) (limit : Option Nat) :
    (newestOf limit l).map Prod.fst = r.tail (admits limit n) := by
  have hlen : l.length = n := by
    rw [← List.length_map (f := Prod.fst), hl]
    simp [tail]
  cases limit with
  | none => exact hl
  | some k =>
    show (l.drop (l.length - k)).map Prod.fst = r.tail (min k n)
    rw [List.map_drop, hl, tail_drop hn, hlen]
    congr 1
    omega

theorem Contiguous.above_eq {r : Ring α} (hr : r.Contiguous) (s : Int) :
    r.above s = r.tail (r.above s).length ∧ (r.above s).length ≤ r.items.length := by
  obtain ⟨m, hm, hle⟩ : ∃ m, r.above s = r.tail m ∧ m ≤ r.items.length := by
    have hhead := hr.le_head
    unfold above
    rw [hr.ids_eq]
    -- the first id above `s`, relative to the first retained one
    refine ⟨r.items.length - (s + 1 - (r.head - r.items.length : Nat)).toNat, ?_, by omega⟩
    rw [← tail_drop hhead]
    generalize r.items.length = n at hhead ⊢
    unfold tail
    generalize r.head - n = a
    induction n generalizing a with
    | zero => simp
    | succ n ih =>
      rw [List.range'_succ, List.filter_cons]
      by_cases ha : s < (a : Int)
      · have hz : (s + 1 - (a : Nat)).toNat = 0 := by omega
        rw [if_pos (by simpa using ha), hz, List.drop_zero, ih (a := a + 1)]
        · have hz' : (s + 1 - ((a + 1 : Nat) : Int)).toNat = 0 := by omega
          rw [hz', List.drop_zero]
        · omega
      · rw [if_neg (by simpa using ha)]
        have hs : (s + 1 - (a : Int)).toNat = (s + 1 - ((a + 1 : Nat) : Int)).toNat + 1 := by omega
        rw [hs, List.drop_succ_cons, ih (a := a + 1)]
        omega
  have hlen : (r.above s).length = m := by
    rw [hm]
    simp [tail]
  rw [hlen]
  exact ⟨hm, hle⟩

theorem Contiguous.since_ids {r : Ring α} (hr : r.Contiguous) (s : Int) (limit : Option Nat) :
    (r.since s limit).map Prod.fst = r.tail (admits limit (r.above s).length) := by
  obtain ⟨habove, hle⟩ := hr.above_eq s
  have hfilter : (r.items.filter fun it => s < (it.1 : Int)).map Prod.fst = r.above s := by
    unfold above ids
    rw [List.filter_map]
    rfl
  exact newestOf_ids (Nat.le_trans hle hr.le_head) (hfilter.trans habove) limit

theorem Contiguous.newest_ids {r : Ring α} (hr : r.Contiguous) (limit : Option Nat) :
    (r.newest limit).map Prod.fst = r.tail (admits limit r.items.length) :=
  newestOf_ids hr.le_head hr.ids_eq limit

theorem newestOf_suffix (limit : Option Nat) (l : List (Nat × α)) : newestOf limit l <:+ l := by
  cases limit with
  | none => exact List.suffix_refl l
  | some k => exact List.drop_suffix _ _

/-- An id above `s` was issued and is retained no more. -/
def Lost (s : Int) (r : Ring α) : Prop := ∃ i : Nat, s < (i : Int) ∧ i < r.head ∧ i ∉ r.ids

/-- The answer starts further on than right after `s`. -/
def Gap (s : Int) (answer : List (Nat × α)) : Prop := ∃ it rest, answer = it :: rest ∧ s + 1 < (it.1 : Int)

/-- In an answer that no limit has cut and that is not empty, a gap is a loss. -/
theorem Contiguous.gap_iff {r : Ring α} (hr : r.Contiguous) {s : Int} (hs : -1 ≤ s)
    {limit : Option Nat} (hlimit : admits limit (r.above s).length = (r.above s).length)
    (hne : r.since s limit ≠ []) : Gap s (r.since s limit) ↔ r.Lost s := by
  obtain ⟨it, rest, hanswer⟩ := List.exists_cons_of_ne_nil hne
  have hids := hr.since_ids s limit
  obtain ⟨habove, hle⟩ := hr.above_eq s
  have hhead := hr.le_head
  rw [hlimit, ← habove, hanswer, List.map_cons] at hids
  -- the first id of the answer is the first retained id above `s`
  have hlen : 0 < (r.above s).length := by
    rw [← hids]
    exact Nat.succ_pos _
  have hfirst : it.1 = r.head - (r.above s).length := by
    have h0 := congrArg List.head? hids
    rw [habove] at h0
    unfold tail at h0
    rw [List.head?_cons, List.head?_range'] at h0
    split at h0
    · omega
    · exact Option.some.inj h0
  have hit : it.1 ∈ r.above s := by
    rw [← hids]
    exact List.mem_cons_self
  have hgt : s < (it.1 : Int) := by simpa using (List.mem_filter.mp hit).2
  have hmem : ∀ i, i ∈ r.ids ↔ r.head - r.items.length ≤ i ∧ i < r.head := by
    intro i
    rw [hr.ids_eq, tail, List.mem_range'_1]
    omega
  constructor
  · rintro ⟨it', rest', heq, hgap⟩
    rw [hanswer] at heq
    obtain ⟨rfl, -⟩ := List.cons.inj heq
    -- the id right after `s` was issued; were it retained, it would head the answer
    refine ⟨(s + 1).toNat, by omega, by omega, fun hret => ?_⟩
    have hin : (s + 1).toNat ∈ r.above s := List.mem_filter.mpr ⟨hret, by simp⟩
    rw [habove, tail, List.mem_range'_1] at hin
    omega
  · rintro ⟨i, hi, hlt, hout⟩
    refine ⟨it, rest, hanswer, ?_⟩
    have hit' := (hmem it.1).mp (List.mem_filter.mp hit).1
    have hi' : i < r.head - r.items.length := by
      by_contra hge
      exact hout ((hmem i).mpr ⟨by omega, hlt⟩)
    omega

/-- **The windows of a ring.** After any pushes and clears: the retained ids are the consecutive
integers from `head - length` to `head - 1` with at most `max` of them; `head` never goes back, and
the ids issued are distinct and below it; `since` and `newest` answer with the newest items that
qualify, as many as the limit admits; and in an answer that the limit has not cut and that is not
empty, to a cursor `s ≥ -1`, a gap at the front is exactly the loss of an id above `s`. -/
theorem ring_windows (max : Nat) (ops : List (RingOp α)) :
    let r := Machine.run step (createRing max) ops
    (r.ids = List.range' (r.head - r.items.length) r.items.length ∧ r.items.length ≤ max ∧
        r.items.length ≤ r.head) ∧
      ((∀ op, r.head ≤ (r.step op).head) ∧ (issued (createRing max) ops).Nodup ∧
        ∀ i, i ∈ issued (createRing max) ops ↔ i < r.head) ∧
      ∀ (s : Int) (limit : Option Nat),
        (r.since s limit).Sublist r.items ∧ (r.newest limit).Sublist r.items ∧
          (r.since s limit).map Prod.fst = r.tail (admits limit (r.above s).length) ∧
          (r.newest limit).map Prod.fst = r.tail (admits limit r.items.length) ∧
          (-1 ≤ s → admits limit (r.above s).length = (r.above s).length →
            r.since s limit ≠ [] → (Gap s (r.since s limit) ↔ r.Lost s)) := by
  intro r
  have hr : r.Contiguous := Machine.run_inv' (fun _ op h => h.step op) ops (createRing_contiguous max)
  have hmax : r.max = max :=
    Machine.run_inv' (P := fun r : Ring α => r.max = max) (fun r op h => (step_max r op).trans h) ops rfl
  obtain ⟨hissued, -⟩ := issued_eq (createRing max) ops
  have hzero : (createRing max : Ring α).head = 0 := rfl
  rw [hzero, Nat.sub_zero] at hissued
  refine ⟨⟨hr.ids_eq, hmax ▸ hr.le_max, hr.le_head⟩, ⟨head_step r, ?_, ?_⟩, ?_⟩
  · rw [hissued]
    exact List.nodup_range'
  · intro i
    rw [hissued, List.mem_range'_1, Nat.zero_add]
    exact ⟨And.right, fun h => ⟨Nat.zero_le i, h⟩⟩
  · intro s limit
    exact ⟨(newestOf_suffix _ _).sublist.trans List.filter_sublist, (newestOf_suffix _ _).sublist,
      hr.since_ids s limit, hr.newest_ids limit, fun hs hl hne => hr.gap_iff hs hl hne⟩

/-- A limit cuts an answer without a loss, and after a `clear` there is a loss without an answer. -/
theorem ring_gap_fails :
    let r := Machine.run step (createRing 4) [.push 'a', .push 'b', .push 'c']
    let r' := Machine.run step (createRing 4) [.push 'a', .clear]
    (Gap (-1) (r.since (-1) (some 1)) ∧ ¬ r.Lost (-1)) ∧
      (¬ Gap (-1) (r'.since (-1) none) ∧ r'.Lost (-1)) := by
  intro r r'
  refine ⟨⟨⟨(2, 'c'), [], by decide, by decide⟩, ?_⟩, ?_, ⟨0, by decide, by decide, by decide⟩⟩
  · rintro ⟨i, -, hlt, hout⟩
    have hlt : i < 3 := hlt
    have hout : i ∉ [0, 1, 2] := hout
    simp only [List.mem_cons, List.not_mem_nil, or_false] at hout
    omega
  · rintro ⟨it, rest, heq, -⟩
    have hnil : since (-1) none r' = [] := rfl
    rw [hnil] at heq
    exact absurd heq (List.cons_ne_nil it rest).symm

end Ring

end FlashVis

import FlashVis.Churn.Model
import Mathlib.Tactic

/-!
# The slot table of the churn generator

* `chooseSlot_spec`   a choice returns a live slot, and nothing only when nothing is live;
* `fileName_slot`     a created name tells its slot;
* `Quiet m m'`        `m'` differs from `m` in the generator state and the pending write only.
-/

namespace FlashVis
namespace ChurnModel

variable {w : Slot → Nat} {prot : Option Nat}

/-! ## choices -/

theorem pickFrom_choosable {k i target : Nat} {ss : List Slot}
    (h : pickFrom w prot k ss target = some i) :
    k ≤ i ∧ ∃ s, ss[i - k]? = some s ∧ choosable prot i s = true := by
  induction ss generalizing k target with
  | nil => exact absurd h (by simp [pickFrom])
  | cons s ss ih =>
    -- a slot of the rest is one further in the whole
    have hrest : ∀ t, pickFrom w prot (k + 1) ss t = some i →
        k ≤ i ∧ ∃ x, (s :: ss)[i - k]? = some x ∧ choosable prot i x = true := by
      intro t ht
      obtain ⟨hk, x, hx, hc⟩ := ih ht
      have hidx : i - k = (i - (k + 1)) + 1 := by omega
      exact ⟨by omega, x, by rw [hidx, List.getElem?_cons_succ]; exact hx, hc⟩
    unfold pickFrom at h
    split at h
    · rename_i hc
      split at h
      · cases h
        exact ⟨le_refl _, s, by simp, hc⟩
      · exact hrest _ h
    · exact hrest _ h

theorem pickFrom_total {k target : Nat} {ss : List Slot} (h : target < totalFrom w prot k ss) :
    ∃ i, pickFrom w prot k ss target = some i := by
  induction ss generalizing k target with
  | nil => exact absurd h (by simp [totalFrom])
  | cons s ss ih =>
    unfold totalFrom at h
    unfold pickFrom
    split
    · rename_i hc
      rw [if_pos hc] at h
      split
      · exact ⟨k, rfl⟩
      · exact ih (by omega)
    · rename_i hc
      rw [if_neg hc, Nat.zero_add] at h
      exact ih h

/-- With positive weights a total of zero leaves nothing to choose. -/
theorem totalFrom_zero (hw : ∀ s, 0 < w s) {k : Nat} {ss : List Slot}
    (h : totalFrom w prot k ss = 0) {i : Nat} {s : Slot} (hs : ss[i]? = some s) :
    choosable prot (k + i) s = false := by
  induction ss generalizing k i with
  | nil => exact absurd hs (by simp)
  | cons x ss ih =>
    unfold totalFrom at h
    obtain ⟨h1, h2⟩ := Nat.add_eq_zero_iff.mp h
    cases i with
    | zero =>
      rw [List.getElem?_cons_zero, Option.some.injEq] at hs
      subst hs
      by_contra hc
      rw [if_pos (by simpa using hc)] at h1
      exact absurd h1 (Nat.pos_iff_ne_zero.mp (hw x))
    | succ i =>
      rw [List.getElem?_cons_succ] at hs
      have := ih h2 hs
      rwa [show k + 1 + i = k + (i + 1) by omega] at this

theorem slot_eq {m : ChurnModel} {i : Nat} {s : Slot} (h : m.slots[i]? = some s) : m.slot i = s := by
  simp [slot, List.getD, h]

theorem slot_live {m : ChurnModel} {i : Nat} (h : (m.slot i).live = true) :
    m.slots[i]? = some (m.slot i) := by
  unfold slot at h ⊢
  rw [List.getD_eq_getElem?_getD] at h ⊢
  cases hs : m.slots[i]? with
  | none => rw [hs] at h; exact absurd h (by simp)
  | some s => rfl

theorem prng_eq (m : ChurnModel) : ∃ u st, m.prng = (u, { m with state := st }) := ⟨_, _, rfl⟩

/-- **Specification of a choice**: it only draws, it returns a live slot, and it fails only when
nothing is live. -/
theorem chooseSlot_spec (hw : ∀ s, 0 < w s) (m : ChurnModel) :
    (∃ st, (chooseSlot w m).2 = { m with state := st }) ∧
    (∀ i, (chooseSlot w m).1 = some i → (m.slot i).live = true) ∧
    ((chooseSlot w m).1 = none → ∀ s ∈ m.slots, s.live = false) := by
  unfold chooseSlot
  dsimp only
  split
  · rename_i hz
    refine ⟨⟨m.state, rfl⟩, fun i hi => ?_, fun hn s hs => ?_⟩
    · obtain ⟨-, hlive⟩ := Option.filter_eq_some_iff.mp hi
      cases hs : m.slots[i]? with
      | none => rw [hs] at hlive; exact absurd hlive (by simp)
      | some s =>
        rw [slot_eq hs]
        rw [hs] at hlive
        exact hlive
    · obtain ⟨i, hi⟩ := List.getElem?_of_mem hs
      have hc := totalFrom_zero hw hz hi
      rw [Nat.zero_add] at hc
      by_contra hl
      rw [Bool.not_eq_false] at hl
      -- a live slot that cannot be chosen is the protected one, which is then returned
      have hp : m.protectedLargeSlot = some i := by
        unfold choosable at hc
        rw [hl, Bool.true_and] at hc
        simpa using hc
      rw [hp] at hn
      simp [hi, hl] at hn
  · rename_i hz
    obtain ⟨u, st, hu⟩ := prng_eq m
    rw [hu]
    dsimp only
    have hpick : ∃ i, pickFrom w m.protectedLargeSlot 0 m.slots
        (u % totalFrom w m.protectedLargeSlot 0 m.slots) = some i :=
      pickFrom_total (Nat.mod_lt u (Nat.pos_of_ne_zero hz))
    obtain ⟨i, hi⟩ := hpick
    refine ⟨⟨st, rfl⟩, fun j hj => ?_, fun hn => ?_⟩
    · obtain ⟨-, s, hs, hc⟩ := pickFrom_choosable hj
      rw [Nat.sub_zero] at hs
      rw [slot_eq hs]
      exact (Bool.and_eq_true_iff.mp hc).1
    · exact absurd (hn.symm.trans hi) (by simp)

theorem deleteWeight_pos (s : Slot) : 0 < deleteWeight s := by
  unfold deleteWeight
  dsimp only
  split <;> omega

/-! ## names -/

theorem toList_fileName (p : String) (i : Nat) (u : UInt32) : ∃ k tail,
    (fileName p i u).toList = (if p = "" then "w" else p).toList ++
      (List.replicate k '0' ++ Nat.toDigits 10 i ++ '-' :: tail) :=
  ⟨4 - (Nat.toDigits 10 i).length, (padDigits 16 8 u.toNat ++ ".bin").toList, by
    simp [fileName, padDigits]⟩

/-- A created name tells its slot: the digits up to the first dash are the slot's. -/
theorem fileName_slot {p : String} {i j : Nat} {u v : UInt32}
    (h : fileName p i u = fileName p j v) : i = j := by
  obtain ⟨k, tail, hk⟩ := toList_fileName p i u
  obtain ⟨k', tail', hk'⟩ := toList_fileName p j v
  have hl := List.append_cancel_left (hk.symm.trans ((congrArg String.toList h).trans hk'))
  have hdigits : ∀ (k i : Nat) (t : List Char),
      (List.replicate k '0' ++ Nat.toDigits 10 i ++ '-' :: t).takeWhile (· ≠ '-')
        = List.replicate k '0' ++ Nat.toDigits 10 i := by
    intro k i t
    rw [List.takeWhile_append_of_pos, List.takeWhile_cons_of_neg (by simp), List.append_nil]
    intro c hc
    rcases List.mem_append.mp hc with hc | hc
    · rw [(List.mem_replicate.mp hc).2]
      decide
    · have hd := Nat.isDigit_of_mem_toDigits (by decide) (by decide) hc
      rw [decide_eq_true_eq]
      rintro rfl
      exact absurd hd (by decide)
  have hcut := congrArg (List.takeWhile (· ≠ '-')) hl
  rw [hdigits, hdigits] at hcut
  have hval := congrArg (fun ds => Nat.ofDigitChars 10 ds 0) hcut
  simpa [Nat.ofDigitChars_append, Nat.ofDigitChars_replicate_zero, Nat.ofDigitChars_ten_toDigits]
    using hval

/-! ## one call of `next` -/

/-- `m'` differs from `m` in the generator state and in the pending write only. -/
structure Quiet (m m' : ChurnModel) : Prop where
  opts : m'.opts = m.opts
  targetLive : m'.targetLiveBytes = m.targetLiveBytes
  targetWritten : m'.targetWrittenBytes = m.targetWrittenBytes
  targetSlack : m'.targetSlackBytes = m.targetSlackBytes
  total : m'.totalWritten = m.totalWritten
  bytes : m'.liveBytes = m.liveBytes
  count : m'.liveFileCount = m.liveFileCount
  prot : m'.protectedLargeSlot = m.protectedLargeSlot
  slots : m'.slots = m.slots

namespace Quiet
variable {m m' m'' : ChurnModel}

theorem pend (m : ChurnModel) (st : UInt32) (fl pw od sc pr : Bool) (ps : Option Nat)
    (pc : ChurnClass) (pz : Nat) : Quiet m { m with
      state := st, forcedLargeWritten := fl, pendingWrite := pw, optionalDeleteChecked := od
      slotChosen := sc, pendingReplacing := pr, pendingSlot := ps, pendingCls := pc
      pendingSize := pz } :=
  ⟨rfl, rfl, rfl, rfl, rfl, rfl, rfl, rfl, rfl⟩

theorem refl : Quiet m m := ⟨rfl, rfl, rfl, rfl, rfl, rfl, rfl, rfl, rfl⟩

theorem trans (h : Quiet m m') (h' : Quiet m' m'') : Quiet m m'' :=
  ⟨h'.opts.trans h.opts, h'.targetLive.trans h.targetLive, h'.targetWritten.trans h.targetWritten,
    h'.targetSlack.trans h.targetSlack, h'.total.trans h.total, h'.bytes.trans h.bytes,
    h'.count.trans h.count, h'.prot.trans h.prot, h'.slots.trans h.slots⟩

theorem slot (h : Quiet m m') (i : Nat) : m'.slot i = m.slot i := by
  unfold ChurnModel.slot
  rw [h.slots]

end Quiet

/-- Between two events a slot is only kept for a write when it was evicted for it: it is free. -/
structure Waiting (m : ChurnModel) : Prop where
  chosen : m.slotChosen = true → m.pendingSlot = none ∧ m.slots = []
  evicted : ∀ j, m.pendingSlot = some j →
    m.pendingReplacing = false ∧ j < m.slots.length ∧ (m.slot j).live = false

/-- The pending write fits under the ceiling, or nothing is left to shed. -/
def Fits (m : ChurnModel) : Prop :=
  m.liveBytes + m.pendingSize ≤ ((m.targetLiveBytes + m.targetSlackBytes : Nat) : Int) ∨
    ∀ s ∈ m.slots, s.live = false

/-- **What `next` can do**: the event and the model after it. -/
inductive Emits (m : ChurnModel) : ChurnEvent → ChurnModel → Prop
  | done (idle : m.pendingWrite = false) (full : m.targetWrittenBytes ≤ m.totalWritten) :
    Emits m { type := .done } m
  | delete (i : Nat) (m' : ChurnModel) (quiet : Quiet m m') (live : (m.slot i).live = true)
    (pending : m'.pendingWrite = true) (chosen : m'.slotChosen = false)
    (evicted : ∀ j, m'.pendingSlot = some j → m'.pendingReplacing = false ∧ j < m.slots.length ∧
      (j = i ∨ (m.slot j).live = false)) : Emits m (m.deleteEvent i) m'
  | write (i : Nat) (m' : ChurnModel) (quiet : Quiet m m') (inside : i < m.slots.length)
    (target : (m.slot i).live = m'.pendingReplacing) (fits : m'.Fits) :
    Emits m (m'.writeEvent i) m'
  | noSlot (ev : ChurnEvent) (m' : ChurnModel) (type : ev.type = .noSlot) (quiet : Quiet m m')
    (empty : m.slots = []) (pendingSlot : m'.pendingSlot = none) : Emits m ev m'

/-- With a live slot the slot of the write is still open. -/
theorem Waiting.unchosen {m : ChurnModel} (h : m.Waiting) {i : Nat} (hi : (m.slot i).live = true) :
    m.slotChosen = false := by
  by_contra hc
  have hempty := (h.chosen (by simpa using hc)).2
  rw [slot, hempty] at hi
  exact absurd hi (by simp)

theorem deleteEvent_quiet {m m' : ChurnModel} (h : Quiet m m') (i : Nat) :
    m'.deleteEvent i = m.deleteEvent i := by
  unfold deleteEvent
  rw [h.slot]

theorem findFreeSlot_some {m : ChurnModel} {i : Nat} (h : m.findFreeSlot = some i) :
    i < m.slots.length ∧ (m.slot i).live = false := by
  obtain ⟨hi, hl, -⟩ := List.findIdx?_eq_some_iff_getElem.mp h
  refine ⟨hi, ?_⟩
  rw [slot_eq (List.getElem?_eq_getElem hi)]
  simpa using hl

theorem findFreeSlot_none {m : ChurnModel} (h : m.findFreeSlot = none) :
    ∀ s ∈ m.slots, s.live = true := by
  intro s hs
  have := List.findIdx?_eq_none_iff.mp h s hs
  simpa using this

theorem slot_inside {m : ChurnModel} {i : Nat} (h : (m.slot i).live = true) : i < m.slots.length :=
  (List.getElem?_eq_some_iff.mp (slot_live h)).1

/-- A draw for a replacement picks a live slot or leaves the pending slot alone. -/
theorem chooseReplaced_spec (m : ChurnModel) : Quiet m m.chooseReplaced ∧
    m.chooseReplaced.pendingSize = m.pendingSize ∧ m.chooseReplaced.pendingWrite = m.pendingWrite ∧
    m.chooseReplaced.slotChosen = m.slotChosen ∧
    ((∃ i, m.chooseReplaced.pendingSlot = some i ∧ m.chooseReplaced.pendingReplacing = true ∧
        (m.slot i).live = true) ∨
      m.chooseReplaced.pendingSlot = m.pendingSlot ∧
        m.chooseReplaced.pendingReplacing = m.pendingReplacing) := by
  have hquiet : ∀ st, Quiet m { m with state := st } :=
    fun _ => .pend _ _ _ _ _ _ _ _ _ _
  obtain ⟨u, st, hu⟩ := prng_eq m
  unfold chooseReplaced
  rw [hu]
  dsimp only
  split
  · obtain ⟨⟨st', hst⟩, hlive, -⟩ := chooseSlot_spec (w := fun _ => 1) (fun _ => Nat.one_pos)
      { m with state := st }
    unfold chooseLiveSlot
    rcases hc : chooseSlot (fun _ => 1) { m with state := st } with ⟨_ | i, m'⟩ <;>
      rw [hc] at hst hlive <;> dsimp only at hst <;> subst hst
    · exact ⟨hquiet st', rfl, rfl, rfl, .inr ⟨rfl, rfl⟩⟩
    · exact ⟨(.pend _ _ _ _ _ _ _ _ _ _), rfl, rfl, rfl,
        .inl ⟨i, rfl, rfl, hlive i rfl⟩⟩
  · exact ⟨hquiet st, rfl, rfl, rfl, .inr ⟨rfl, rfl⟩⟩

section
variable {m₀ m : ChurnModel}

theorem emitWrite_emits (q : Quiet m₀ m) (fits : m.Fits) {i : Nat} (hi : m.pendingSlot = some i)
    (inside : i < m₀.slots.length) (target : (m₀.slot i).live = m.pendingReplacing) :
    Emits m₀ m.emitWrite.1 m.emitWrite.2 := by
  unfold emitWrite
  rw [hi]
  exact .write i m q inside target fits

theorem delete_emits {m' : ChurnModel} (q : Quiet m₀ m) (q' : Quiet m₀ m') {i : Nat}
    (live : (m₀.slot i).live = true) (pending : m'.pendingWrite = true)
    (chosen : m'.slotChosen = false)
    (evicted : ∀ j, m'.pendingSlot = some j → m'.pendingReplacing = false ∧ j < m₀.slots.length ∧
      (j = i ∨ (m₀.slot j).live = false)) : Emits m₀ (m.deleteEvent i) m' := by
  rw [deleteEvent_quiet q]
  exact .delete i m' q' live pending chosen evicted

theorem Quiet.waiting (q : Quiet m₀ m) (h : m.Waiting) {j : Nat} (hj : m.pendingSlot = some j) :
    m.pendingReplacing = false ∧ j < m₀.slots.length ∧ (m₀.slot j).live = false := by
  obtain ⟨h1, h2, h3⟩ := h.evicted j hj
  rw [q.slots] at h2
  rw [q.slot] at h3
  exact ⟨h1, h2, h3⟩

theorem evictSlot_emits (q : Quiet m₀ m) (pending : m.pendingWrite = true)
    (chosen : m.slotChosen = false) (fits : m.Fits)
    (target : ∀ i, m.pendingSlot = some i →
      i < m₀.slots.length ∧ (m₀.slot i).live = m.pendingReplacing)
    (full : m.pendingSlot = none → ∀ s ∈ m₀.slots, s.live = true) :
    Emits m₀ m.evictSlot.1 m.evictSlot.2 := by
  have hchosen : Quiet m₀ { m with slotChosen := true } :=
    q.trans (.pend _ _ _ _ _ _ _ _ _ _)
  unfold evictSlot
  rcases Option.eq_none_or_eq_some m.pendingSlot with hps | ⟨i, hps⟩
  swap
  · rw [if_neg (by simp [hps])]
    obtain ⟨hi, hl⟩ := target i hps
    exact emitWrite_emits hchosen fits hps hi hl
  rw [if_pos (by simp [hps])]
  obtain ⟨⟨st, hst⟩, hlive, hnone⟩ := chooseSlot_spec deleteWeight_pos m
  unfold chooseDeleteSlot
  rcases hc : chooseSlot deleteWeight m with ⟨_ | i, m'⟩ <;> rw [hc] at hst hlive hnone <;>
    dsimp only at hst hnone ⊢ <;> subst hst
  · -- nothing is free and nothing is live
    have hempty : m₀.slots = [] := by
      refine List.eq_nil_iff_forall_not_mem.mpr fun s hs => ?_
      have h1 := full hps s hs
      rw [hnone rfl s (q.slots ▸ hs)] at h1
      exact absurd h1 (by decide)
    unfold emitWrite
    dsimp only
    rw [hps]
    exact .noSlot _ _ rfl (q.trans (.pend _ _ _ _ _ _ _ _ _ _)) hempty rfl
  · have hl : (m₀.slot i).live = true := q.slot i ▸ hlive i rfl
    apply delete_emits
    · exact q.trans (.pend _ _ _ _ _ _ _ _ _ _)
    · exact q.trans (.pend _ _ _ _ _ _ _ _ _ _)
    · exact hl
    · exact pending
    · exact chosen
    · intro j hj
      cases hj
      exact ⟨rfl, slot_inside hl, .inl rfl⟩

/-- After the draw for a replacement: the drawn slot, the evicted one, a free one, or a victim. -/
theorem takeFreeSlot_emits (q : Quiet m₀ m) (pending : m.pendingWrite = true)
    (chosen : m.slotChosen = false) (fits : m.Fits)
    (target : ∀ i, m.pendingSlot = some i →
      i < m₀.slots.length ∧ (m₀.slot i).live = m.pendingReplacing) :
    Emits m₀ m.takeFreeSlot.evictSlot.1 m.takeFreeSlot.evictSlot.2 := by
  unfold takeFreeSlot
  rcases Option.eq_none_or_eq_some m.pendingSlot with hps | ⟨i, hps⟩
  swap
  · rw [if_neg (by simp [hps])]
    exact evictSlot_emits q pending chosen fits target fun hn => absurd (hn.symm.trans hps) (by simp)
  · rw [if_pos (by simp [hps])]
    apply evictSlot_emits
    · exact q.trans (.pend _ _ _ _ _ _ _ _ _ _)
    · exact pending
    · exact chosen
    · exact fits
    · intro i hi
      obtain ⟨h1, h2⟩ := findFreeSlot_some (m := m) hi
      rw [q.slots] at h1
      rw [q.slot] at h2
      exact ⟨h1, h2⟩
    · intro hn s hs
      exact findFreeSlot_none (m := m) hn s (q.slots ▸ hs)

theorem placeWrite_emits (q : Quiet m₀ m) (h : m.Waiting) (pending : m.pendingWrite = true)
    (fits : m.Fits) : Emits m₀ m.placeWrite.1 m.placeWrite.2 := by
  obtain ⟨hq, hsize, hpend, hchosen, hslot⟩ := chooseReplaced_spec m
  unfold placeWrite
  split
  · rename_i hc
    obtain ⟨hps, hempty⟩ := h.chosen hc
    unfold emitWrite
    rw [hps]
    exact .noSlot _ _ rfl q (q.slots.symm.trans hempty) hps
  rename_i hc
  refine takeFreeSlot_emits (q.trans hq) (hpend.trans pending)
    (hchosen.trans (Bool.eq_false_iff.mpr hc)) ?_ fun i hi => ?_
  · unfold Fits
    rw [hq.bytes, hq.targetLive, hq.targetSlack, hq.slots, hsize]
    exact fits
  · rcases hslot with ⟨j, hj, hr, hl⟩ | ⟨hj, hr⟩
    · cases hj.symm.trans hi
      rw [q.slot] at hl
      exact ⟨slot_inside hl, hl.trans hr.symm⟩
    · obtain ⟨h1, h2, h3⟩ := q.waiting h (hj ▸ hi)
      exact ⟨h2, h3.trans (hr.trans h1).symm⟩

theorem optionalDelete_emits (q : Quiet m₀ m) (h : m.Waiting) (pending : m.pendingWrite = true)
    (fits : m.Fits) : Emits m₀ m.optionalDelete.1 m.optionalDelete.2 := by
  unfold optionalDelete
  split
  · exact placeWrite_emits q h pending fits
  have hq : ∀ st, Quiet m { m with optionalDeleteChecked := true, state := st } :=
    fun _ => .pend _ _ _ _ _ _ _ _ _ _
  -- a draw changes nothing that the write depends on
  have hplace : ∀ st, Emits m₀
      (placeWrite { m with optionalDeleteChecked := true, state := st }).1
      (placeWrite { m with optionalDeleteChecked := true, state := st }).2 :=
    fun st => placeWrite_emits (q.trans (hq st)) ⟨h.chosen, h.evicted⟩ pending fits
  dsimp only
  split
  · obtain ⟨u, st, hu⟩ := prng_eq { m with optionalDeleteChecked := true }
    rw [hu]
    dsimp only
    split
    · obtain ⟨⟨st', hst⟩, hlive, -⟩ := chooseSlot_spec deleteWeight_pos
        { m with optionalDeleteChecked := true, state := st }
      unfold chooseDeleteSlot
      rcases hc : chooseSlot deleteWeight { m with optionalDeleteChecked := true, state := st } with
        ⟨_ | i, m'⟩ <;> rw [hc] at hst hlive <;> dsimp only at hst ⊢ <;> subst hst
      · exact hplace st'
      · have hl := hlive i rfl
        refine delete_emits (q.trans (hq st')) (q.trans (hq st')) (q.slot i ▸ hl) pending
          (h.unchosen hl) fun j hj => ?_
        obtain ⟨h1, h2, h3⟩ := q.waiting h hj
        exact ⟨h1, h2, .inr h3⟩
    · exact hplace st
  · exact hplace m.state

/-- The ceiling: a victim, or the pending write fits. -/
theorem shedLive_emits (q : Quiet m₀ m) (h : m.Waiting) (pending : m.pendingWrite = true) :
    Emits m₀ m.shedLive.1 m.shedLive.2 := by
  unfold shedLive
  split
  · obtain ⟨⟨st, hst⟩, hlive, hnone⟩ := chooseSlot_spec deleteWeight_pos m
    have hq : Quiet m { m with state := st } :=
      .pend _ _ _ _ _ _ _ _ _ _
    unfold chooseDeleteSlot
    rcases hc : chooseSlot deleteWeight m with ⟨_ | i, m'⟩ <;> rw [hc] at hst hlive hnone <;>
      dsimp only at hst hnone ⊢ <;> subst hst
    · exact optionalDelete_emits (q.trans hq) ⟨h.chosen, h.evicted⟩ pending (.inr (hnone rfl))
    · have hl := hlive i rfl
      refine delete_emits (q.trans hq) (q.trans hq) (q.slot i ▸ hl) pending (h.unchosen hl)
        fun j hj => ?_
      obtain ⟨h1, h2, h3⟩ := q.waiting h hj
      exact ⟨h1, h2, .inr h3⟩
  · rename_i hle
    exact optionalDelete_emits q h pending (.inl (not_lt.mp hle))

end

theorem planWrite_spec (m : ChurnModel) :
    Quiet m m.planWrite ∧ m.planWrite.Waiting ∧ m.planWrite.pendingWrite = true := by
  have hsize : ∃ st, m.chooseChurnSize.2 = { m with state := st } := by
    have hpick : ∀ (cs : List SizeClass) (r st : _), ∃ st', (pickSize { m with state := st } cs r).2
        = { m with state := st' } := by
      intro cs
      induction cs with
      | nil => exact fun r st => ⟨st, rfl⟩
      | cons c cs ih =>
        intro r st
        unfold pickSize
        split
        · exact ih _ _
        split
        · exact ⟨st, rfl⟩
        · obtain ⟨u, st', hu⟩ := prng_eq { m with state := st }
          exact ⟨st', by rw [hu]⟩
    unfold chooseChurnSize
    dsimp only
    split
    · exact ⟨m.state, rfl⟩
    · obtain ⟨u, st, hu⟩ := prng_eq m
      rw [hu]
      exact hpick _ _ st
  obtain ⟨st, hst⟩ := hsize
  unfold planWrite
  split
  · exact ⟨.pend _ _ _ _ _ _ _ _ _ _, ⟨fun h => absurd h (by simp), fun _ h => absurd h (by simp)⟩, rfl⟩
  · rcases hc : m.chooseChurnSize with ⟨p, m'⟩
    rw [hc] at hst
    dsimp only at hst
    subst hst
    exact ⟨.pend _ _ _ _ _ _ _ _ _ _, ⟨fun h => absurd h (by simp), fun _ h => absurd h (by simp)⟩, rfl⟩

/-- **Specification of `next`.** -/
theorem next_emits {m : ChurnModel} (h : m.Waiting) : Emits m m.next.1 m.next.2 := by
  unfold next
  split
  · exact shedLive_emits .refl h ‹_›
  · rename_i hp
    split
    · exact .done (Bool.eq_false_iff.mpr hp) ‹_›
    · obtain ⟨hq, hw, hpend⟩ := planWrite_spec m
      exact shedLive_emits hq hw hpend

end ChurnModel
end FlashVis

import FlashVis.Churn.Slots
import FlashVis.Lib.Emitter

/-!
# The churn stream is a valid file history

* `turn`, `turns`     `next` and `apply` as the canonical sequence drives them;
* `Files.replay`      what an open-loop executor needs of an event: a DELETE or a replacing WRITE
                      names a file of the size it says, any other WRITE a file that is absent;
* `Tracks m f`        the slot table of `m` holds the files `f`;
* `churn_file_history`
-/

namespace FlashVis

/-- Files by name: size and content seed. -/
abbrev Files := String → Option (Nat × UInt32)

/-- One event on the files, `none` when it does not fit them. -/
def Files.replay (f : Files) (ev : ChurnEvent) : Option Files :=
  match ev.type with
  | .delete =>
    if (f ev.name).map Prod.fst = some ev.size then some (Function.update f ev.name none) else none
  | .write =>
    if (f ev.name).map Prod.fst = (if ev.replacing then some ev.oldSize else none) then
      some (Function.update f ev.name (some (ev.size, ev.writeSeed)))
    else none
  | .done | .noSlot => some f

namespace ChurnModel

/-- `churn.next()`, then `churn.apply(ev)` of a WRITE or DELETE, as in `genStep`. -/
def turn (m : ChurnModel) : ChurnEvent × ChurnModel :=
  let (ev, m) := m.next
  match ev.type with
  | .write | .delete => (ev, m.apply ev)
  | .done | .noSlot => (ev, m)

/-- `k` turns: the events and the model after them. -/
def turns (k : Nat) (m : ChurnModel) : List ChurnEvent × ChurnModel := Machine.emits turn k m

/-! ## rows of the table -/

theorem slot_set_self {m : ChurnModel} {i : Nat} (h : i < m.slots.length) (s : Slot) :
    (m.slots.set i s).getD i {} = s := by
  simp [List.getD, h]

theorem slot_set_ne {m : ChurnModel} {i j : Nat} (h : j ≠ i) (s : Slot) :
    (m.slots.set i s).getD j {} = m.slot j := by
  simp [slot, List.getD, List.getElem?_set_ne (Ne.symm h)]

theorem sum_set (f : Slot → Nat) (l : List Slot) {i : Nat} (h : i < l.length) (s : Slot) :
    ((l.set i s).map f).sum + f (l.getD i {}) = (l.map f).sum + f s := by
  induction l generalizing i with
  | nil => exact absurd h (by simp)
  | cons x l ih =>
    cases i with
    | zero =>
      simp
      omega
    | succ i =>
      have := ih (i := i) (by simpa using h)
      simp only [List.set_cons_succ, List.map_cons, List.sum_cons, List.getD_cons_succ]
      omega

/-- A row's share of the live bytes, of the live files. -/
def liveSize (s : Slot) : Nat := if s.live then s.size else 0
def liveOne (s : Slot) : Nat := if s.live then 1 else 0

theorem sum_liveSize (l : List Slot) :
    (l.map liveSize).sum = ((l.filter (·.live)).map (·.size)).sum := by
  induction l with
  | nil => rfl
  | cons s l ih => cases h : s.live <;> simp [liveSize, h, ih]

theorem sum_liveOne (l : List Slot) : (l.map liveOne).sum = (l.filter (·.live)).length := by
  induction l with
  | nil => rfl
  | cons s l ih =>
    cases h : s.live
    · simp [liveOne, h, ih]
    · simp [liveOne, h, ih, Nat.add_comm]

/-! ## the invariant -/

/-- What holds of the model between two turns. -/
structure Sane (m : ChurnModel) : Prop where
  waiting : m.Waiting
  named : ∀ i, (m.slot i).live = true →
    ∃ u, (m.slot i).name = fileName m.opts.profile.namePrefix i u
  bytes : m.liveBytes = ((m.slots.map liveSize).sum : Nat)
  count : m.liveFileCount = (m.slots.map liveOne).sum

/-- The slot table holds the files `f`. -/
def Tracks (m : ChurnModel) (f : Files) : Prop :=
  ∀ name v, f name = some v ↔
    ∃ i, (m.slot i).live = true ∧ (m.slot i).name = name ∧ ((m.slot i).size, (m.slot i).writeSeed) = v

namespace Sane
variable {m m' : ChurnModel}

theorem create (o : ChurnOptions) : (ChurnModel.create o).Sane := by
  have hslot : ∀ i, ((ChurnModel.create o).slot i) = {} := by
    intro i
    unfold ChurnModel.slot ChurnModel.create
    rw [List.getD_eq_getElem?_getD, List.getElem?_replicate]
    split <;> rfl
  refine ⟨⟨fun h => absurd h (by simp [ChurnModel.create]),
    fun j h => absurd h (by simp [ChurnModel.create])⟩, fun i h => ?_, ?_, ?_⟩
  · rw [hslot] at h
    exact absurd h (by simp)
  · simp [ChurnModel.create, liveSize]
  · simp [ChurnModel.create, liveOne]

/-- Live files of different slots have different names. -/
theorem slot_of_name (h : m.Sane) {i j : Nat} (hi : (m.slot i).live = true)
    (hj : (m.slot j).live = true) (hn : (m.slot i).name = (m.slot j).name) : i = j := by
  obtain ⟨u, hu⟩ := h.named i hi
  obtain ⟨v, hv⟩ := h.named j hj
  exact fileName_slot (hu.symm.trans (hn.trans hv))

/-- What `next` changes keeps the invariant, but for the waiting slot. -/
theorem quiet (h : m.Sane) (q : Quiet m m') (hw : m'.Waiting) : m'.Sane := by
  refine ⟨hw, ?_, ?_, ?_⟩
  · intro i hi
    rw [q.slot] at hi ⊢
    rw [q.opts]
    exact h.named i hi
  · rw [q.bytes, q.slots]
    exact h.bytes
  · rw [q.count, q.slots]
    exact h.count

end Sane

theorem Tracks.quiet {m m' : ChurnModel} {f : Files} (h : m.Tracks f) (q : Quiet m m') :
    m'.Tracks f := by
  intro name v
  simp only [q.slot]
  exact h name v

theorem Tracks.file {m : ChurnModel} {f : Files} (h : m.Tracks f) {i : Nat}
    (hi : (m.slot i).live = true) :
    f (m.slot i).name = some ((m.slot i).size, (m.slot i).writeSeed) :=
  (h _ _).mpr ⟨i, hi, rfl, rfl⟩

/-! ## one turn -/

/-- Row `i` is rewritten: the file of that slot, named `name` before and after. -/
structure Rewrites (m m' : ChurnModel) (i : Nat) (s : Slot) (name : String) : Prop where
  inside : i < m.slots.length
  opts : m'.opts = m.opts
  ceiling : m'.targetLiveBytes + m'.targetSlackBytes = m.targetLiveBytes + m.targetSlackBytes
  slots : m'.slots = m.slots.set i s
  created : ∃ u, name = fileName m.opts.profile.namePrefix i u
  old : (m.slot i).live = true → (m.slot i).name = name
  new : s.live = true → s.name = name
  bytes : m'.liveBytes = m.liveBytes - liveSize (m.slot i) + liveSize s
  count : m'.liveFileCount + liveOne (m.slot i) = m.liveFileCount + liveOne s

namespace Rewrites
variable {m m' : ChurnModel} {i : Nat} {s : Slot} {name : String} {f : Files}

theorem slot_self (r : Rewrites m m' i s name) : m'.slot i = s := by
  unfold ChurnModel.slot
  rw [r.slots]
  exact slot_set_self r.inside s

theorem slot_ne (r : Rewrites m m' i s name) {j : Nat} (h : j ≠ i) : m'.slot j = m.slot j := by
  unfold ChurnModel.slot
  rw [r.slots]
  exact slot_set_ne h s

theorem sane (r : Rewrites m m' i s name) (h : m.Sane) (hw : m'.Waiting) : m'.Sane := by
  have hsize := sum_set liveSize m.slots r.inside s
  have hone := sum_set liveOne m.slots r.inside s
  rw [← r.slots] at hsize hone
  change _ + liveSize (m.slot i) = _ at hsize
  change _ + liveOne (m.slot i) = _ at hone
  have hb := h.bytes
  have hc := h.count
  have hb' := r.bytes
  have hc' := r.count
  refine ⟨hw, fun j hj => ?_, by omega, by omega⟩
  rw [r.opts]
  by_cases hji : j = i
  · subst hji
    rw [r.slot_self] at hj ⊢
    rw [r.new hj]
    exact r.created
  · rw [r.slot_ne hji] at hj ⊢
    exact h.named j hj

theorem other (r : Rewrites m m' i s name) (h : m.Sane) {j : Nat} (hj : (m.slot j).live = true)
    (hn : (m.slot j).name = name) : j = i := by
  obtain ⟨u, hu⟩ := h.named j hj
  obtain ⟨v, hv⟩ := r.created
  exact fileName_slot (hu.symm.trans (hn.trans hv))

theorem tracks (r : Rewrites m m' i s name) (h : m.Sane) (ht : m.Tracks f) :
    m'.Tracks (Function.update f name (if s.live then some (s.size, s.writeSeed) else none)) := by
  intro x v
  by_cases hx : x = name
  · subst hx
    rw [Function.update_self]
    constructor
    · intro hv
      split at hv
      · rename_i hl
        refine ⟨i, ?_⟩
        rw [r.slot_self]
        exact ⟨hl, r.new hl, Option.some.inj hv⟩
      · exact absurd hv (by simp)
    · rintro ⟨j, hj, hjn, hv⟩
      have hji : j = i := by
        by_contra hji
        rw [r.slot_ne hji] at hj hjn
        exact hji (r.other h hj hjn)
      subst hji
      rw [r.slot_self] at hj hv
      rw [if_pos hj, hv]
  · rw [Function.update_of_ne hx, ht x v]
    constructor
    · rintro ⟨j, hj, hjn, hv⟩
      have hji : j ≠ i := by
        rintro rfl
        exact hx (hjn.symm.trans (r.old hj))
      refine ⟨j, ?_⟩
      rw [r.slot_ne hji]
      exact ⟨hj, hjn, hv⟩
    · rintro ⟨j, hj, hjn, hv⟩
      have hji : j ≠ i := by
        rintro rfl
        rw [r.slot_self] at hj hjn
        exact hx (hjn.symm.trans (r.new hj))
      rw [r.slot_ne hji] at hj hjn hv
      exact ⟨j, hj, hjn, hv⟩

end Rewrites

theorem applyDelete_rewrites {m m' : ChurnModel} (h : m.Sane) (q : Quiet m m') {i : Nat}
    (live : (m.slot i).live = true) :
    Rewrites m (m'.apply (m.deleteEvent i)) i { m.slot i with live := false } (m.slot i).name ∧
      (m'.apply (m.deleteEvent i)).pendingSlot = m'.pendingSlot ∧
      (m'.apply (m.deleteEvent i)).pendingReplacing = m'.pendingReplacing ∧
      (m'.apply (m.deleteEvent i)).slotChosen = m'.slotChosen ∧
      (m'.apply (m.deleteEvent i)).pendingWrite = m'.pendingWrite := by
  have happ : m'.apply (m.deleteEvent i) = { m' with
      liveBytes := m'.liveBytes - (m'.slot i).size
      slots := m'.slots.set i { m'.slot i with live := false }
      liveFileCount := m'.liveFileCount - 1, deleteCount := m'.deleteCount + 1 } :=
    if_pos (by rw [show (m.deleteEvent i).slot.toNat = i from Int.toNat_natCast i, q.slot]; exact live)
  have hone := sum_set liveOne m.slots (slot_inside live) { m.slot i with live := false }
  change _ + liveOne (m.slot i) = _ at hone
  have hpos : 0 < m.liveFileCount := by
    rw [h.count]
    simp only [liveOne, live, if_true, Bool.false_eq_true, if_false] at hone ⊢
    omega
  rw [happ]
  refine ⟨⟨slot_inside live, q.opts, ?_, ?_, h.named i live, fun _ => rfl,
    fun hf => absurd hf (by simp), ?_, ?_⟩, rfl, rfl, rfl, rfl⟩
  · show m'.targetLiveBytes + m'.targetSlackBytes = _
    rw [q.targetLive, q.targetSlack]
  · show m'.slots.set i _ = _
    rw [q.slots, q.slot]
  · show m'.liveBytes - _ = _
    rw [q.bytes, q.slot]
    simp [liveSize, live]
  · show m'.liveFileCount - 1 + _ = _
    rw [q.count]
    simp only [liveOne, live, if_true, Bool.false_eq_true, if_false]
    omega

theorem applyWrite_rewrites {m m' : ChurnModel} (h : m.Sane) (q : Quiet m m') {i : Nat}
    (inside : i < m.slots.length) (target : (m.slot i).live = m'.pendingReplacing) :
    Rewrites m (m'.apply (m'.writeEvent i)) i
        { live := true, cls := m'.pendingCls, size := m'.pendingSize
          writeSeed := (m'.writeEvent i).writeSeed, name := (m'.writeEvent i).name }
        (m'.writeEvent i).name ∧
      (m'.apply (m'.writeEvent i)).pendingSlot = none ∧
      (m'.apply (m'.writeEvent i)).slotChosen = false := by
  have hidx : (m'.writeEvent i).slot.toNat = i := Int.toNat_natCast i
  have hname : (m'.writeEvent i).name = if m'.pendingReplacing then (m'.slot i).name else
      fileName m'.opts.profile.namePrefix i (m'.writeEvent i).writeSeed := rfl
  have hrep : ((m'.writeEvent i).replacing && (m'.slot i).live) = (m.slot i).live := by
    rw [show (m'.writeEvent i).replacing = m'.pendingReplacing from rfl, q.slot, target, Bool.and_self]
  have hcreated : ∃ u, (m'.writeEvent i).name = fileName m.opts.profile.namePrefix i u := by
    rw [hname, q.opts, q.slot, ← target]
    split
    · exact h.named i ‹_›
    · exact ⟨_, rfl⟩
  have hold : (m.slot i).live = true → (m.slot i).name = (m'.writeEvent i).name := by
    intro hl
    rw [hname, q.slot, ← target, if_pos hl]
  have hbytes : (m'.apply (m'.writeEvent i)).liveBytes
      = m.liveBytes - liveSize (m.slot i) + m'.pendingSize ∧
      (m'.apply (m'.writeEvent i)).liveFileCount + liveOne (m.slot i) = m.liveFileCount + 1 := by
    show (m'.applyWrite (m'.writeEvent i)).liveBytes = _ ∧ (m'.applyWrite (m'.writeEvent i)).liveFileCount + _ = _
    unfold applyWrite
    dsimp only
    rw [hidx, hrep, q.slot]
    cases hl : (m.slot i).live with
    | true =>
      simp only [if_true, liveSize, liveOne, hl, q.bytes, q.count]
      exact ⟨rfl, trivial⟩
    | false =>
      simp only [Bool.false_eq_true, if_false, liveSize, liveOne, hl, q.bytes, q.count]
      exact ⟨by simp [writeEvent], trivial⟩
  refine ⟨⟨inside, ?_, ?_, ?_, hcreated, hold, fun _ => rfl, ?_, ?_⟩, rfl, rfl⟩
  · show (m'.applyWrite (m'.writeEvent i)).opts = _
    unfold applyWrite
    dsimp only
    split <;> exact q.opts
  · show (m'.applyWrite (m'.writeEvent i)).targetLiveBytes +
      (m'.applyWrite (m'.writeEvent i)).targetSlackBytes = _
    rw [← q.targetLive, ← q.targetSlack]
    unfold applyWrite
    dsimp only
    split <;> rfl
  · show (m'.applyWrite (m'.writeEvent i)).slots = _
    unfold applyWrite
    dsimp only
    rw [hidx]
    split <;> exact congrArg (fun l => List.set l i _) q.slots
  · rw [hbytes.1]
    simp [liveSize]
  · rw [hbytes.2]
    simp [liveOne]

/-- **What a turn can do**: the event and the model after it. -/
inductive Turned (m : ChurnModel) : ChurnEvent → ChurnModel → Prop
  | done (idle : m.pendingWrite = false) (full : m.targetWrittenBytes ≤ m.totalWritten) :
    Turned m { type := .done } m
  | noSlot (ev : ChurnEvent) (m' : ChurnModel) (type : ev.type = .noSlot) (quiet : Quiet m m')
    (empty : m.slots = []) (waiting : m'.Waiting) : Turned m ev m'
  | delete (i : Nat) (m' : ChurnModel) (live : (m.slot i).live = true)
    (row : Rewrites m m' i { m.slot i with live := false } (m.slot i).name)
    (pending : m'.pendingWrite = true) (waiting : m'.Waiting) : Turned m (m.deleteEvent i) m'
  | write (i : Nat) (ev : ChurnEvent) (m' : ChurnModel) (type : ev.type = .write)
    (row : Rewrites m m' i { live := true, cls := ev.cls, size := ev.size
                             writeSeed := ev.writeSeed, name := ev.name } ev.name)
    (replacing : ev.replacing = (m.slot i).live)
    (oldSize : (m.slot i).live = true → ev.oldSize = (m.slot i).size)
    (fits : m.liveBytes + ev.size ≤ ((m.targetLiveBytes + m.targetSlackBytes : Nat) : Int) ∨
      ∀ s ∈ m.slots, s.live = false) (waiting : m'.Waiting) : Turned m ev m'

theorem turn_cases {m : ChurnModel} (h : m.Sane) : Turned m m.turn.1 m.turn.2 := by
  have he := next_emits h.waiting
  unfold turn
  generalize m.next = r at he ⊢
  obtain ⟨ev, m'⟩ := r
  dsimp only at he ⊢
  cases he with
  | done idle full => exact .done idle full
  | noSlot _ _ type quiet empty pendingSlot =>
    rw [type]
    refine .noSlot _ _ type quiet empty ⟨fun _ => ⟨pendingSlot, quiet.slots.trans empty⟩, ?_⟩
    exact fun j hj => absurd (pendingSlot.symm.trans hj) (by simp)
  | delete i _ quiet live pending chosen evicted =>
    obtain ⟨hr, h1, h2, h3, h4⟩ := applyDelete_rewrites h quiet live
    show Turned m (m.deleteEvent i) (m'.apply (m.deleteEvent i))
    refine .delete i _ live hr (h4.trans pending)
      ⟨fun hc => absurd ((h3.trans chosen).symm.trans hc) (by simp), fun j hj => ?_⟩
    obtain ⟨e1, e2, e3⟩ := evicted j (h1 ▸ hj)
    refine ⟨h2.trans e1, by rw [hr.slots, List.length_set]; exact e2, ?_⟩
    by_cases hji : j = i
    · subst hji
      rw [hr.slot_self]
    · rw [hr.slot_ne hji]
      exact e3.resolve_left hji
  | write i _ quiet inside target fits =>
    obtain ⟨hr, h1, h2⟩ := applyWrite_rewrites h quiet inside target
    show Turned m (m'.writeEvent i) (m'.apply (m'.writeEvent i))
    refine .write i _ _ rfl hr target.symm (fun hl => ?_) ?_
      ⟨fun hc => absurd (h2.symm.trans hc) (by simp),
        fun j hj => absurd (h1.symm.trans hj) (by simp)⟩
    · show (if m'.pendingReplacing then (m'.slot i).size else 0) = _
      rw [← target, hl, quiet.slot]
      rfl
    · unfold Fits at fits
      rw [quiet.bytes, quiet.targetLive, quiet.targetSlack, quiet.slots] at fits
      exact fits

theorem Turned.sane {m m' : ChurnModel} {ev : ChurnEvent} (t : Turned m ev m') (h : m.Sane) :
    m'.Sane := by
  cases t with
  | done idle full => exact h
  | noSlot _ _ type quiet empty waiting => exact h.quiet quiet waiting
  | delete i _ live row pending waiting => exact row.sane h waiting
  | write i _ _ type row replacing oldSize fits waiting => exact row.sane h waiting

theorem Turned.opts {m m' : ChurnModel} {ev : ChurnEvent} (t : Turned m ev m') :
    m'.opts = m.opts := by
  cases t with
  | done idle full => rfl
  | noSlot _ _ type quiet empty waiting => exact quiet.opts
  | delete i _ live row pending waiting => exact row.opts
  | write i _ _ type row replacing oldSize fits waiting => exact row.opts

/-- **One turn** emits an event that fits the files, and the table follows them. -/
theorem Turned.tracks {m m' : ChurnModel} {ev : ChurnEvent} {f : Files} (t : Turned m ev m')
    (h : m.Sane) (ht : m.Tracks f) : ∃ f', f.replay ev = some f' ∧ m'.Tracks f' := by
  cases t with
  | done idle full => exact ⟨f, rfl, ht⟩
  | noSlot _ _ type quiet empty waiting =>
    refine ⟨f, ?_, ht.quiet quiet⟩
    unfold Files.replay
    rw [type]
  | delete i _ live row pending waiting =>
    refine ⟨_, ?_, row.tracks h ht⟩
    show (if (f (m.slot i).name).map Prod.fst = some (m.slot i).size then _ else _) = _
    rw [ht.file live]
    exact if_pos rfl
  | write i _ _ type row replacing oldSize fits waiting =>
    refine ⟨_, ?_, row.tracks h ht⟩
    unfold Files.replay
    rw [type, replacing]
    refine if_pos ?_
    cases hl : (m.slot i).live with
    | true =>
      rw [← row.old hl, ht.file hl, oldSize hl]
      rfl
    | false =>
      cases hf : f ev.name with
      | none => rfl
      | some v =>
        obtain ⟨j, hj, hjn, -⟩ := (ht _ v).mp hf
        have := row.other h hj hjn
        rw [this, hl] at hj
        exact absurd hj (by decide)

/-- Every turn emits an event that fits the files, and the table follows them. -/
theorem turns_spec {m : ChurnModel} {f : Files} (k : Nat) (h : m.Sane) (ht : m.Tracks f) :
    (m.turns k).2.Sane ∧
      ∃ f', (m.turns k).1.foldlM Files.replay f = some f' ∧ (m.turns k).2.Tracks f' := by
  induction k generalizing m f with
  | zero => exact ⟨h, f, rfl, ht⟩
  | succ k ih =>
    obtain ⟨f₁, hf₁, ht₁⟩ := (turn_cases h).tracks h ht
    obtain ⟨hs', f₂, hf₂, ht₂⟩ := ih ((turn_cases h).sane h) ht₁
    refine ⟨hs', f₂, ?_, ht₂⟩
    show (m.turn.1 :: (turns k m.turn.2).1).foldlM Files.replay f = some f₂
    rw [List.foldlM_cons, hf₁]
    exact hf₂

/-! ## the table as a map -/

theorem live_iff {m : ChurnModel} {P : Slot → Prop} :
    (∃ i, (m.slot i).live = true ∧ P (m.slot i)) ↔ ∃ s ∈ m.slots, s.live = true ∧ P s := by
  constructor
  · rintro ⟨i, hl, hp⟩
    exact ⟨_, List.mem_of_getElem? (slot_live hl), hl, hp⟩
  · rintro ⟨s, hs, hl, hp⟩
    obtain ⟨i, hi⟩ := List.getElem?_of_mem hs
    refine ⟨i, ?_⟩
    rw [slot_eq hi]
    exact ⟨hl, hp⟩

theorem mem_names {m : ChurnModel} {name : String} :
    name ∈ m.names ↔ ∃ s ∈ m.slots, s.live = true ∧ s.name = name := by
  simp [names, and_assoc]

theorem Sane.names_nodup {m : ChurnModel} (h : m.Sane) : m.names.Nodup := by
  have hrows : m.slots.Pairwise fun s t => s.live = true → t.live = true → s.name ≠ t.name := by
    rw [List.pairwise_iff_getElem]
    intro i j hi hj hij hs ht hn
    rw [← slot_eq (List.getElem?_eq_getElem hi)] at hs hn
    rw [← slot_eq (List.getElem?_eq_getElem hj)] at ht hn
    exact absurd (h.slot_of_name hs ht hn) (by omega)
  unfold names
  rw [List.Nodup, List.pairwise_map, List.pairwise_filter]
  exact hrows.imp fun hne hs ht => hne (by simpa using hs) (by simpa using ht)

theorem Tracks.sizes {m : ChurnModel} {f : Files} (ht : m.Tracks f) :
    m.names.map (fun n => ((f n).map Prod.fst).getD 0)
      = (m.slots.filter (·.live)).map (·.size) := by
  unfold names
  rw [List.map_map]
  refine List.map_congr_left fun s hs => ?_
  obtain ⟨hs, hl⟩ := List.mem_filter.mp hs
  obtain ⟨i, hi⟩ := List.getElem?_of_mem hs
  have hfile := ht.file (i := i) (by rw [slot_eq hi]; simpa using hl)
  rw [slot_eq hi] at hfile
  simp [hfile]

/-- **The churn stream is a valid file history and the slot table refines it.**  Replayed on no
files at all every event fits, and after any number of turns the files are the live rows, under
pairwise distinct names, with `names`, `liveBytes` and `liveFileCount` their keys, the sum of
their sizes and their number. -/
theorem churn_file_history (o : ChurnOptions) (k : Nat) :
    ∃ f : Files, (((create o).turns k).1.foldlM Files.replay fun _ => none) = some f ∧
      let m := ((create o).turns k).2
      (∀ name size seed, f name = some (size, seed) ↔
        ∃ s ∈ m.slots, s.live = true ∧ s.name = name ∧ (s.size, s.writeSeed) = (size, seed)) ∧
      m.names.Nodup ∧
      (∀ name, name ∈ m.names ↔ (f name).isSome = true) ∧
      m.liveBytes = ((m.names.map fun n => ((f n).map Prod.fst).getD 0).sum : Nat) ∧
      m.liveFileCount = m.names.length := by
  have hnone : (create o).Tracks fun _ => none := by
    intro name v
    constructor
    · exact fun h => absurd h (by simp)
    · rintro ⟨i, hi, -⟩
      have hmem := List.mem_of_getElem? (slot_live hi)
      rw [(List.mem_replicate.mp hmem).2] at hi
      exact absurd hi (by simp)
  obtain ⟨hs, f, hf, ht⟩ := turns_spec k (Sane.create o) hnone
  refine ⟨f, hf, ?_⟩
  dsimp only
  generalize ((create o).turns k).2 = m at hs ht
  have hfile : ∀ name size seed, f name = some (size, seed) ↔
      ∃ s ∈ m.slots, s.live = true ∧ s.name = name ∧ (s.size, s.writeSeed) = (size, seed) :=
    fun name size seed => (ht name (size, seed)).trans
      (live_iff (P := fun s => s.name = name ∧ (s.size, s.writeSeed) = (size, seed)))
  refine ⟨hfile, hs.names_nodup, fun name => ?_, ?_, ?_⟩
  · rw [mem_names, Option.isSome_iff_exists]
    constructor
    · rintro ⟨s, hm, hl, hn⟩
      exact ⟨(s.size, s.writeSeed), (hfile _ _ _).mpr ⟨s, hm, hl, hn, rfl⟩⟩
    · rintro ⟨⟨size, seed⟩, hv⟩
      obtain ⟨s, hm, hl, hn, -⟩ := (hfile _ _ _).mp hv
      exact ⟨s, hm, hl, hn⟩
  · rw [ht.sizes, hs.bytes, sum_liveSize]
  · rw [hs.count, sum_liveOne, names, List.length_map]

end ChurnModel
end FlashVis

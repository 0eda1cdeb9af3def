import FlashVis.Churn.History

/-!
# The ceiling of the live data, and bounded progress to the next write

* `lastSize`          the size of the last WRITE of a stream;
* `Capped m n`        the live bytes lie under the ceiling, or under the last WRITE of size `n`;
* `next_write`        from any state that owes a write: some DELETEs, then the WRITE;
* `churn_ceiling_progress`
-/

namespace FlashVis
namespace ChurnModel

/-- The size of the last WRITE, `n` before any. -/
def lastSize : Nat → List ChurnEvent → Nat
  | n, [] => n
  | n, ev :: evs => lastSize (if ev.type = .write then ev.size else n) evs

/-- The live bytes lie under the ceiling or under the last WRITE. -/
def Capped (m : ChurnModel) (n : Nat) : Prop :=
  m.liveBytes ≤ max ((m.targetLiveBytes + m.targetSlackBytes : Nat) : Int) n

section
variable {m m' : ChurnModel} {ev : ChurnEvent}

/-! ## one turn -/

theorem Turned.slots_ne (t : Turned m ev m') (h : m.slots ≠ []) : m'.slots ≠ [] := by
  have hset : ∀ i s, m'.slots = m.slots.set i s → m'.slots ≠ [] := by
    intro i s he hn
    rw [hn] at he
    exact h (List.eq_nil_of_length_eq_zero (by simpa using congrArg List.length he.symm))
  cases t with
  | done idle full => exact h
  | noSlot _ _ type quiet empty waiting => exact absurd empty h
  | delete i _ live row pending waiting => exact hset _ _ row.slots
  | write i _ _ type row replacing oldSize fits waiting => exact hset _ _ row.slots

/-- With a slot in the table NO_SLOT does not happen. -/
theorem Turned.type_ne_noSlot (t : Turned m ev m') (h : m.slots ≠ []) : ev.type ≠ .noSlot := by
  cases t with
  | done idle full => exact nofun
  | noSlot _ _ type quiet empty waiting => exact absurd empty h
  | delete i _ live row pending waiting => exact nofun
  | write i _ _ type row replacing oldSize fits waiting => rw [type]; exact nofun

theorem Sane.liveBytes_zero (h : m.Sane) (hn : ∀ s ∈ m.slots, s.live = false) :
    m.liveBytes = 0 := by
  have hrows : m.slots.map liveSize = m.slots.map fun _ => 0 :=
    List.map_congr_left fun s hs => by simp [liveSize, hn s hs]
  rw [h.bytes, hrows]
  simp

theorem Turned.capped (t : Turned m ev m') (h : m.Sane) {n : Nat} (hc : m.Capped n) :
    m'.Capped (if ev.type = .write then ev.size else n) := by
  unfold Capped at hc ⊢
  cases t with
  | done idle full => exact hc
  | noSlot _ _ type quiet empty waiting =>
    rw [quiet.bytes, quiet.targetLive, quiet.targetSlack, type]
    exact hc
  | delete i _ live row pending waiting =>
    have hb := row.bytes
    rw [row.ceiling, if_neg nofun]
    have hzero : liveSize { m.slot i with live := false } = 0 := rfl
    omega
  | write i _ _ type row replacing oldSize fits waiting =>
    have hb := row.bytes
    rw [row.ceiling, if_pos type]
    have hsize : liveSize { live := true, cls := ev.cls, size := ev.size
                            writeSeed := ev.writeSeed, name := ev.name } = ev.size := rfl
    rcases fits with hle | hn
    · omega
    · -- the pending write was larger than the ceiling: it is alone
      have := h.liveBytes_zero hn
      omega

/-- A state that owes a write emits it, or sheds a live file and still owes it. -/
theorem Turned.toward_write (t : Turned m ev m') (hs : m.slots ≠ [])
    (owed : m.totalWritten < m.targetWrittenBytes ∨ m.pendingWrite = true) :
    ev.type = .write ∨
      ev.type = .delete ∧ m'.liveFileCount + 1 = m.liveFileCount ∧ m'.pendingWrite = true := by
  cases t with
  | done idle full =>
    rcases owed with ho | ho
    · omega
    · exact absurd (idle.symm.trans ho) (by decide)
  | noSlot _ _ type quiet empty waiting => exact absurd empty hs
  | delete i _ live row pending waiting =>
    have hc := row.count
    simp only [liveOne, live, if_true, Bool.false_eq_true, if_false] at hc
    exact .inr ⟨rfl, hc, pending⟩
  | write i _ _ type row replacing oldSize fits waiting => exact .inl type

/-! ## runs of turns -/

theorem turns_capped (k : Nat) {n : Nat} (h : m.Sane) (hs : m.slots ≠ []) (hc : m.Capped n) :
    (m.turns k).2.Sane ∧ (m.turns k).2.slots ≠ [] ∧
      (m.turns k).2.Capped (lastSize n (m.turns k).1) ∧
      ∀ ev ∈ (m.turns k).1, ev.type ≠ .noSlot := by
  induction k generalizing m n with
  | zero => exact ⟨h, hs, hc, fun ev hev => absurd hev (by simp [turns])⟩
  | succ k ih =>
    have t := turn_cases h
    obtain ⟨h1, h2, h3, h4⟩ := ih (t.sane h) (t.slots_ne hs) (t.capped h hc)
    refine ⟨h1, h2, h3, fun ev hev => ?_⟩
    rcases List.mem_cons.mp hev with rfl | hev
    · exact t.type_ne_noSlot hs
    · exact h4 ev hev

/-- From a state that owes a write every DELETE lowers the number of live files, so that the
WRITE comes after at most that many. -/
theorem next_write (n : Nat) (h : m.Sane) (hs : m.slots ≠ []) (hn : m.liveFileCount = n)
    (owed : m.totalWritten < m.targetWrittenBytes ∨ m.pendingWrite = true) :
    ∃ j ≤ n, (m.turns (j + 1)).1.map (·.type) = List.replicate j .delete ++ [.write] := by
  induction n generalizing m with
  | zero =>
    rcases (turn_cases h).toward_write hs owed with hw | ⟨-, hc, -⟩
    · exact ⟨0, le_refl _, congrArg (· :: []) hw⟩
    · omega
  | succ n ih =>
    have t := turn_cases h
    rcases t.toward_write hs owed with hw | ⟨hd, hc, hp⟩
    · exact ⟨0, Nat.zero_le _, congrArg (· :: []) hw⟩
    · obtain ⟨j, hj, hrun⟩ := ih (t.sane h) (t.slots_ne hs) (by omega) (.inr hp)
      refine ⟨j + 1, by omega, ?_⟩
      show m.turn.1.type :: (m.turn.2.turns (j + 1)).1.map (·.type) = _
      rw [hd, hrun]
      rfl

end

/-- **The ceiling and bounded progress.**  With a slot in the table: the live bytes never exceed
the target and its slack, or the last WRITE where that is larger; NO_SLOT is never emitted; and a
reachable state that owes a write reaches it after at most as many DELETEs as it has live
files. -/
theorem churn_ceiling_progress (o : ChurnOptions) (h : 1 ≤ o.slotCount) (k : Nat) :
    let m := ((create o).turns k).2
    m.liveBytes ≤ max ((m.targetLiveBytes + m.targetSlackBytes : Nat) : Int)
        (lastSize 0 ((create o).turns k).1) ∧
      (∀ ev ∈ ((create o).turns k).1, ev.type ≠ .noSlot) ∧
      (m.totalWritten < m.targetWrittenBytes ∨ m.pendingWrite = true →
        ∃ j ≤ m.liveFileCount,
          (m.turns (j + 1)).1.map (·.type) = List.replicate j .delete ++ [.write]) := by
  have hslots : (create o).slots ≠ [] := by
    intro hn
    have := congrArg List.length hn
    simp [create] at this
    omega
  have hcap : (create o).Capped 0 := le_max_right _ _
  obtain ⟨hs, hne, hc, hno⟩ := turns_capped k (Sane.create o) hslots hcap
  exact ⟨hc, hno, next_write _ hs hne rfl⟩

/-- A table of one slot and writes of 4 bytes: after the first, at most one DELETE before the
next. -/
theorem churn_ceiling_progress_one :
    let o : ChurnOptions := {
      seed := 1, targetLiveBytes := 8, targetWrittenBytes := 16, targetSlackBytes := 0
      forceLargeAfterBytes := 100, slotCount := 1
      profile := { namePrefix := "w", replacePercent := 0, protectFirstLarge := true
                   classes := [{ key := .small, weight := 1, minSize := 4, maxSize := 4 }] } }
    let m := ((create o).turns 1).2
    m.liveBytes ≤ max ((m.targetLiveBytes + m.targetSlackBytes : Nat) : Int)
        (lastSize 0 ((create o).turns 1).1) ∧
      ∃ j ≤ m.liveFileCount,
        (m.turns (j + 1)).1.map (·.type) = List.replicate j .delete ++ [.write] := by
  intro o m
  have h := churn_ceiling_progress o (by decide) 1
  have howed : m.totalWritten < m.targetWrittenBytes := by decide +kernel
  exact ⟨h.1, h.2.2 (.inl howed)⟩

end ChurnModel
end FlashVis

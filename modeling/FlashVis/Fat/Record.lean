import FlashVis.Fat.BlockDevice
import FlashVis.Lib.Crc
import Mathlib.Data.List.GetD

/-!
# The records of the wear-levelling layer

* `espRomCrc32Le_word`    a message cannot change in one word and keep its check sum;
* `WlState.ofBytes_bytes` a state record read back is the one that was written;
* `WlState.turnRecord`    the record of a finished turn, which no blank place can be taken for.
-/

namespace FlashVis

/-- The polynomial of `esp_rom_crc32_le`. -/
def crcPoly : BitVec 32 := 0xEDB88320#32

theorem crcBit_toBitVec (c : UInt32) : (crcBit c).toBitVec = Crc.bit crcPoly c.toBitVec := by
  have hlow : c &&& 1 = 1 ↔ c.toBitVec.getLsbD 0 = true := by
    rw [← UInt32.toBitVec_inj, UInt32.toBitVec_and]
    show c.toBitVec &&& 1#32 = 1#32 ↔ _
    rw [BitVec.and_one_eq_setWidth_ofBool_getLsbD]
    cases c.toBitVec.getLsbD 0 <;> decide
  unfold crcBit Crc.bit
  by_cases h : c.toBitVec.getLsbD 0 = true
  · rw [if_pos (hlow.mpr h), if_pos h]
    rfl
  · rw [if_neg (fun hc => h (hlow.mp hc)), if_neg h]
    rfl

theorem iterate_crcBit_toBitVec (k : Nat) (c : UInt32) :
    (crcBit^[k] c).toBitVec = (Crc.bit crcPoly)^[k] c.toBitVec := by
  induction k with
  | zero => rfl
  | succ k ih => rw [Function.iterate_succ_apply', Function.iterate_succ_apply', crcBit_toBitVec, ih]

theorem espRomCrc32Le_toBitVec (crc : UInt32) (buf : List UInt8) :
    (espRomCrc32Le crc buf).toBitVec =
      ~~~Crc.feed crcPoly (~~~crc.toBitVec) (buf.map UInt8.toBitVec) := by
  have hfold : ∀ (buf : List UInt8) (c : UInt32),
      (buf.foldl (fun c b => crcBit^[8] (c ^^^ b.toUInt32)) c).toBitVec =
        Crc.feed crcPoly c.toBitVec (buf.map UInt8.toBitVec) := by
    intro buf
    induction buf with
    | nil => exact fun _ => rfl
    | cons b buf ih =>
      intro c
      rw [List.foldl_cons, ih, iterate_crcBit_toBitVec]
      rfl
  show ~~~(buf.foldl _ (~~~crc)).toBitVec = _
  rw [hfold]
  rfl

theorem toBitVec_map_injective : Function.Injective (List.map UInt8.toBitVec) :=
  List.map_injective_iff.mpr fun _ _ h => UInt8.toBitVec_inj.mp h

/-- A word in a message cannot change without changing the check sum. -/
theorem espRomCrc32Le_word {crc a b : UInt32} (pre post : List UInt8)
    (h : espRomCrc32Le crc (pre ++ le32 a ++ post) = espRomCrc32Le crc (pre ++ le32 b ++ post)) :
    le32 a = le32 b := by
  have h' := congrArg UInt32.toBitVec h
  rw [espRomCrc32Le_toBitVec, espRomCrc32Le_toBitVec, BitVec.not_inj] at h'
  simp only [List.map_append] at h'
  exact toBitVec_map_injective (Crc.feed_burst rfl _ _ rfl (le_refl 32) h')

theorem word_le32 (v : UInt32) (b : List UInt8) : word (le32 v ++ b) 0 = v := by
  have h8 : (8 : UInt32).toBitVec = 8#32 := rfl
  have h16 : (16 : UInt32).toBitVec = 16#32 := rfl
  have h24 : (24 : UInt32).toBitVec = 24#32 := rfl
  unfold word le32
  refine UInt32.toBitVec_inj.mp (BitVec.eq_of_getLsbD_eq fun i hi => ?_)
  simp only [List.cons_append, List.getD_cons_zero, List.getD_cons_succ, Nat.zero_add,
    UInt32.toBitVec_or, UInt32.toBitVec_shiftLeft, UInt32.toBitVec_shiftRight,
    UInt8.toBitVec_toUInt32, UInt32.toBitVec_toUInt8, BitVec.getLsbD_or, BitVec.shiftLeft_eq',
    BitVec.ushiftRight_eq', BitVec.getLsbD_shiftLeft, BitVec.getLsbD_setWidth,
    BitVec.getLsbD_ushiftRight, h8, h16, h24]
  interval_cases i <;> simp

theorem le32_injective : Function.Injective le32 := by
  intro a b h
  rw [← word_le32 a [], ← word_le32 b [], h]

theorem word_drop (b : List UInt8) (k : Nat) : word (b.drop k) 0 = word b k := by
  unfold word
  simp [List.getD_eq_getElem?_getD, List.getElem?_drop]

theorem word_flatMap (ws : List UInt32) {i : Nat} (hi : i < ws.length) (b : List UInt8) :
    word (ws.flatMap le32 ++ b) (4 * i) = ws.getD i 0 := by
  induction ws generalizing i with
  | nil => exact absurd hi (Nat.not_lt_zero i)
  | cons v ws ih =>
    rw [List.flatMap_cons, List.append_assoc]
    cases i with
    | zero => exact word_le32 v _
    | succ i =>
      rw [List.getD_cons_succ, ← ih (Nat.lt_of_succ_lt_succ hi), ← word_drop _ (4 * (i + 1)),
        ← word_drop _ (4 * i), Nat.mul_succ, Nat.add_comm (4 * i) 4, ← List.drop_drop]
      rfl

/-- The words of a record. -/
def WlState.words (s : WlState) : List UInt32 :=
  [s.wlDummySecPos, s.wlPartMaxSecPos, s.wlDummySecMoveCount, s.wlSecEraseCycleCount,
    s.wlMaxSecEraseCycleCount, s.wlBlockSize, s.version, s.wlDeviceId] ++ s.reserved ++ [s.crc32]

theorem WlState.bytes_words (s : WlState) : s.bytes = s.words.flatMap le32 := by
  unfold WlState.bytes WlState.headV2 WlState.headV1 WlState.words
  simp only [List.flatMap_append, List.flatMap_cons, List.flatMap_nil, List.append_nil,
    List.append_assoc]

/-- **A record read back** is the record that was written. -/
theorem WlState.ofBytes_bytes {s : WlState} (hs : s.reserved.length = 7) (b : List UInt8) :
    WlState.ofBytes (s.bytes ++ b) = s := by
  have hlen : s.words.length = 16 := by
    unfold WlState.words
    simp only [List.length_append, List.length_cons, List.length_nil, hs]
  have hword : ∀ i, i < 16 → word (s.bytes ++ b) (4 * i) = s.words.getD i 0 := by
    intro i hi
    rw [WlState.bytes_words]
    exact word_flatMap _ (by omega) b
  have hreserved : ∀ j < 7, word (s.bytes ++ b) (4 * (8 + j)) = s.reserved.getD j 0 := by
    intro j hj
    rw [hword _ (by omega)]
    unfold WlState.words
    rw [List.append_assoc, List.getD_append_right _ _ _ _ (Nat.le_add_right 8 j)]
    show (s.reserved ++ [s.crc32]).getD (8 + j - 8) 0 = _
    rw [Nat.add_sub_cancel_left, List.getD_append _ _ _ _ (by omega)]
  have hcrc : s.words.getD 15 0 = s.crc32 := by
    unfold WlState.words
    rw [List.getD_append_right _ _ _ _ (by simp [hs])]
    simp [hs]
  have hlist : (List.range 7).map (fun j => word (s.bytes ++ b) (4 * (8 + j))) = s.reserved := by
    refine List.ext_getElem (by rw [List.length_map, List.length_range, hs]) fun j h1 h2 => ?_
    rw [List.getElem_map, List.getElem_range, hreserved j (hs ▸ h2), List.getD_eq_getElem _ _ h2]
  have hcrc' := (hword 15 (by decide)).trans hcrc
  have h0 := hword 0 (by decide)
  have h1 := hword 1 (by decide)
  have h2 := hword 2 (by decide)
  have h3 := hword 3 (by decide)
  have h4 := hword 4 (by decide)
  have h5 := hword 5 (by decide)
  have h6 := hword 6 (by decide)
  have h7 := hword 7 (by decide)
  generalize s.bytes ++ b = l at *
  cases s
  unfold WlState.ofBytes
  simp only [WlState.mk.injEq]
  exact ⟨h0, h1, h2, h3, h4, h5, h6, h7, hlist, hcrc'⟩

namespace WlState

/-- The words of the record of turn `i`. -/
def turnWords (s : WlState) (i : UInt32) : List UInt32 :=
  (List.range 4).map fun k => espRomCrc32Le wlCfgCrcConst (le32 (s.wlDeviceId + i * 4 + k.toUInt32))

/-- The record of turn `i`. -/
def turnRecord (s : WlState) (i : UInt32) : List UInt8 := (s.turnWords i).flatMap le32

theorem turnRecord_length (s : WlState) (i : UInt32) : (s.turnRecord i).length = 16 := by
  simp [turnRecord, turnWords, le32, List.range_succ]

end WlState

namespace WlFlash
variable {w : WlFlash}

theorem okWord_eq {k : Nat} (hk : k < 4) (i : UInt32) :
    w.okWord i k = (w.state.turnWords i).getD k 0 := by
  unfold WlState.turnWords
  rw [List.getD_eq_getElem _ _ (by simpa using hk), List.getElem_map, List.getElem_range]
  rfl

theorem okBuffSet_record {i : UInt32} {rest : List UInt8}
    (h : w.tempBuff = w.state.turnRecord i ++ rest) : w.okBuffSet i = true := by
  unfold okBuffSet
  rw [List.all_eq_true]
  intro k hk
  have hk4 : k < 4 := List.mem_range.mp hk
  rw [beq_iff_eq, okWord_eq hk4, h]
  exact (word_flatMap _ (by simpa [WlState.turnWords] using hk4) _).symm

/-- No blank place holds a record: of two neighbouring words one is not blank. -/
theorem okBuffSet_blank {i : UInt32} {rest : List UInt8}
    (h : w.tempBuff = List.replicate 16 0xff ++ rest) : w.okBuffSet i = false := by
  rw [Bool.eq_false_iff]
  intro hset
  unfold okBuffSet at hset
  rw [List.all_eq_true] at hset
  have h0 := hset 0 (by decide)
  have h1 := hset 1 (by decide)
  rw [beq_iff_eq] at h0 h1
  have hword : word w.tempBuff (4 * 0) = word w.tempBuff (4 * 1) := by
    rw [h]
    rfl
  rw [← h0, ← h1] at hword
  unfold okWord at hword
  have hle := espRomCrc32Le_word [] [] (by simpa only [List.nil_append, List.append_nil] using hword)
  have hadd := le32_injective hle
  exact absurd ((UInt32.add_right_inj _).mp hadd) (by decide)

end WlFlash
end FlashVis

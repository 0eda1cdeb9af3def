import FlashVis.Fat.Inspect
import FlashVis.Fat.Mount

/-!
# The parts of the walk inside their bounds

* `Walk.Bounded`     the sizes that `ff_live_map` has checked, over a layer that reads silently;
* `Walk.paint`       the effect of `mark_bytes` (`markBytes_eq`);
* `readSec_eq`       a silent read changes the sector buffer and nothing else;
* `fat12Entry_some`  the one cluster number whose entry lies outside the table.
-/

namespace FlashVis
open Bounded

namespace WlFlash
variable {w : WlFlash}

theorem pread_quiet (hq : w.partition.hal.gQuiet = true) (addr : UInt32) (dest : List UInt8) :
    w.pread addr dest =
      (w, w.dev.fetch (w.partition.startAddr + addr).toNat dest) := by
  simp only [pread, Partition.read, hq, if_true]
  rfl

theorem read_quiet (hq : w.partition.hal.gQuiet = true) (hi : w.initialized = true) (addr : UInt32)
    (dest : List UInt8) : ∃ data, w.read addr dest = .ok (w, data) := by
  unfold read
  rw [hi]
  dsimp only [Bool.not_true, Bool.false_eq_true, if_false]
  have hloop := Loop.foldl_range_inv (P := fun _ (r : WlFlash × List UInt8) => r.1 = w)
    (f := fun (r : WlFlash × List UInt8) i =>
      let x := r.1.readPage (addr + i.toUInt32 * w.cfg.wlPageSize)
        ((dest.drop (i * w.cfg.wlPageSize.toNat)).take w.cfg.wlPageSize.toNat)
      (x.1, r.2 ++ x.2)) (a := (w, []))
    ((dest.length.toUInt32 - 1) / w.cfg.wlPageSize).toNat rfl fun i _ r hr => by
      dsimp only [readPage]
      rw [hr, pread_quiet hq]
  generalize (List.range _).foldl _ (w, []) = r at hloop
  obtain ⟨v, data⟩ := r
  have hv : v = w := hloop
  subst hv
  simp only [readPage, pread_quiet hq]
  exact ⟨_, rfl⟩

end WlFlash

namespace Walk
variable {x y z : Walk}

/-- The sizes that `ff_live_map` has checked. -/
structure Bounded (x : Walk) : Prop where
  quiet : x.wl.partition.hal.gQuiet = true
  ready : x.wl.initialized = true
  ss_le : x.sSs.toNat ≤ bufSize
  ss_pos : 0 < x.sSs.toNat
  pg_pos : 0 < x.sPgsz.toNat
  whole : x.sPgsz.toNat ∣ x.sSs.toNat
  nlog_le : x.sNlog.toNat ≤ 256
  pages : x.sNlog.toNat * (x.sSs.toNat / x.sPgsz.toNat) ≤ bufSize
  fatLen : x.sFatLen.toNat ≤ bufSize

/-- Only the sector buffer and the classes have changed. -/
def Like (x y : Walk) : Prop := y = { x with sSec := y.sSec, sLogpg := y.sLogpg }

theorem Like.refl (x : Walk) : Like x x := rfl

theorem Like.trans (h : Like x y) (h' : Like y z) : Like x z := by
  unfold Like at *
  rw [h', h]

theorem Like.bounded (h : Like x y) (hx : Bounded x) : Bounded y := by
  rw [h]
  exact { hx with }

theorem ppp_eq (x : Walk) : x.ppp = x.sSs.toNat / x.sPgsz.toNat := UInt32.toNat_div ..

theorem Bounded.ppp_mul (hx : Bounded x) : x.ppp * x.sPgsz.toNat = x.sSs.toNat := by
  rw [ppp_eq]
  exact Nat.div_mul_cancel hx.whole

theorem Bounded.ppp_pos (hx : Bounded x) : 0 < x.ppp := by
  rw [ppp_eq]
  exact Nat.div_pos (Nat.le_of_dvd hx.ss_pos hx.whole) hx.pg_pos

/-- The pages of the logical space. -/
def logPages (x : Walk) : Nat := x.sNlog.toNat * x.ppp

theorem Bounded.logPages_le (hx : Bounded x) : x.logPages ≤ bufSize := by
  unfold logPages
  rw [ppp_eq]
  exact hx.pages

theorem Bounded.space_toNat (hx : Bounded x) :
    (x.sNlog * x.sSs).toNat = x.logPages * x.sPgsz.toNat := by
  have h1 : x.sNlog.toNat * x.sSs.toNat ≤ 256 * bufSize := Nat.mul_le_mul hx.nlog_le hx.ss_le
  unfold bufSize at h1
  rw [WlFlash.mul_toNat rfl rfl (by omega), logPages, Nat.mul_assoc, hx.ppp_mul]

/-! ## classes -/

/-- The pages `[a, b)` get class `cls`. -/
def paint (a b : Nat) (cls : UInt8) (x : Walk) : Walk :=
  { x with sLogpg := fun p => if a ≤ p ∧ p < b then cls else x.sLogpg p }

theorem paint_like (a b : Nat) (cls : UInt8) (x : Walk) : Like x (x.paint a b cls) := rfl

theorem paint_empty {a b : Nat} (h : b ≤ a) (cls : UInt8) (x : Walk) : x.paint a b cls = x := by
  have hp : (fun p => if a ≤ p ∧ p < b then cls else x.sLogpg p) = x.sLogpg := by
    funext p
    rw [if_neg (by omega)]
  unfold paint
  rw [hp]

theorem setPage_eq {p : Nat} (hp : p < bufSize) (cls : UInt8) (x : Walk) :
    x.setPage p cls = some (x.paint p (p + 1) cls) := by
  have h : Function.update x.sLogpg p cls = fun q => if p ≤ q ∧ q < p + 1 then cls else x.sLogpg q := by
    funext q
    by_cases hq : q = p
    · rw [hq, Function.update_self, if_pos (by omega)]
    · rw [Function.update_of_ne hq, if_neg (by omega)]
  unfold setPage paint
  rw [poke_eq hp, h]
  rfl

theorem foldlM_setPage (a n : Nat) (h : a + n ≤ bufSize) (cls : UInt8) (x : Walk) :
    (List.range' a n).foldlM (fun x p => x.setPage p cls) x = some (x.paint a (a + n) cls) := by
  induction n generalizing a x with
  | zero => rw [paint_empty (by omega)]; rfl
  | succ n ih =>
    rw [List.range'_succ, List.foldlM_cons, setPage_eq (by omega)]
    show (List.range' (a + 1) n).foldlM _ _ = _
    rw [ih (a + 1) (by omega)]
    have hpages : ∀ p, (if a + 1 ≤ p ∧ p < a + 1 + n then cls
        else if a ≤ p ∧ p < a + 1 then cls else x.sLogpg p) =
        if a ≤ p ∧ p < a + (n + 1) then cls else x.sLogpg p := by
      intro p
      by_cases hp : p = a
      · rw [if_neg (by omega), if_pos (by omega), if_pos (by omega)]
      · by_cases hr : a + 1 ≤ p ∧ p < a + 1 + n
        · rw [if_pos hr, if_pos (by omega)]
        · rw [if_neg hr, if_neg (by omega), if_neg (by omega)]
    simp only [paint, hpages]

/-- The first page behind the logical bytes below `b`. -/
def pageEnd (x : Walk) (b : Nat) : Nat :=
  (min b (x.logPages * x.sPgsz.toNat) + x.sPgsz.toNat - 1) / x.sPgsz.toNat

theorem Bounded.pageEnd_le (hx : Bounded x) (b : Nat) : x.pageEnd b ≤ x.logPages := by
  unfold pageEnd
  refine Nat.le_of_lt_succ ((Nat.div_lt_iff_lt_mul hx.pg_pos).mpr ?_)
  have hpg := hx.pg_pos
  rw [Nat.succ_mul]
  omega

/-- **`mark_bytes` paints the pages that the bytes touch.** -/
theorem markBytes_eq (hx : Bounded x) (b0 b1 : UInt32) (cls : UInt8) :
    x.markBytes b0 b1 cls =
      some (x.paint (b0.toNat / x.sPgsz.toNat) (x.pageEnd b1.toNat) cls) := by
  have hmin : (if x.sNlog * x.sSs < b1 then x.sNlog * x.sSs else b1).toNat =
      min b1.toNat (x.logPages * x.sPgsz.toNat) := by
    have hspace := hx.space_toNat
    by_cases h : x.sNlog * x.sSs < b1
    · rw [if_pos h]
      rw [UInt32.lt_iff_toNat_lt] at h
      omega
    · rw [if_neg h]
      rw [UInt32.lt_iff_toNat_lt] at h
      omega
  unfold markBytes
  dsimp only
  rw [hmin, UInt32.toNat_div]
  show (List.range' _ (x.pageEnd b1.toNat - _)).foldlM _ x = _
  have hle := hx.pageEnd_le b1.toNat
  have hbuf := hx.logPages_le
  by_cases h : b0.toNat / x.sPgsz.toNat ≤ x.pageEnd b1.toNat
  · rw [foldlM_setPage _ _ (by omega)]
    congr 2
    omega
  · rw [Nat.sub_eq_zero_of_le (by omega), paint_empty (by omega)]
    rfl

/-! ## reads -/

theorem readSec_eq (hx : Bounded x) (sector : UInt32) :
    ∃ sec, x.readSec sector = ({ x with sSec := sec }, true) := by
  obtain ⟨data, h⟩ := WlFlash.read_quiet hx.quiet hx.ready (sector * x.sSs)
    (bytesOf x.sSec x.sSs.toNat)
  refine ⟨overlay x.sSec data, ?_⟩
  unfold readSec readLogical
  rw [h]

/-- The entry of a cluster below `0xAAAAAAAA` lies inside the table or is not looked up. -/
theorem fat12Entry_some (fat : Nat → UInt8) {fatLen c : UInt32} (hlen : fatLen.toNat ≤ bufSize)
    (hc : c.toNat < 0xAAAAAAAA) : ∃ e, fat12Entry fat fatLen c = some e := by
  have hofs : (c + c / 2).toNat = c.toNat + c.toNat / 2 :=
    WlFlash.add_toNat rfl (UInt32.toNat_div ..) (by show _ + _ / 2 < _; omega)
  have hnext : (c + c / 2 + 1).toNat = c.toNat + c.toNat / 2 + 1 :=
    WlFlash.add_toNat hofs rfl (by omega)
  unfold fat12Entry
  dsimp only
  split
  · exact ⟨0, rfl⟩
  · rename_i h
    rw [UInt32.le_iff_toNat_le, hnext] at h
    rw [peek_eq (by omega), peek_eq (by omega)]
    exact ⟨_, rfl⟩

/-- The entry of cluster `0xAAAAAAAA` is looked up far outside the table. -/
theorem fat12Entry_none (fat : Nat → UInt8) {fatLen : UInt32} (hlen : 0 < fatLen.toNat) :
    fat12Entry fat fatLen 0xAAAAAAAA = none := by
  have hofs : (0xAAAAAAAA + 0xAAAAAAAA / 2 : UInt32) = 0xFFFFFFFF := by decide
  have hnext : (0xFFFFFFFF + 1 : UInt32) = 0 := by decide
  unfold fat12Entry
  dsimp only
  rw [hofs, hnext, if_neg]
  · rfl
  · rw [UInt32.le_iff_toNat_le]
    show ¬fatLen.toNat ≤ 0
    omega

end Walk
end FlashVis

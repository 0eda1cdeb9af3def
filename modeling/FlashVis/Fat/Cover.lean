import FlashVis.Fat.Paint

/-!
# The live map covers the chip

* `Walk.Known`, `Walk.Final`   the classes that a walk leaves, and those that are reported;
* `Walk.Carried`               a step that stays inside its bounds and leaves known classes;
* `logical_final`              after `resolve` every logical page has a reported class;
* `provisional_none`           the cluster counts that are too large for the table.
-/

namespace FlashVis
open Bounded

namespace Walk
variable {x y z : Walk}

/-- The classes and sentinels that the walks write. -/
def Known (v : UInt8) : Prop :=
  v = clsMeta ∨ v = clsSlack ∨ v = clsLive ∨ v = pgAlloc ∨ v = pgFree

/-- The classes of the logical pages. -/
def Final (v : UInt8) : Prop :=
  v = clsErased ∨ v = clsMeta ∨ v = clsObsolete ∨ v = clsLive ∨ v = clsSlack

/-- The look-ups of the walk stay inside the table. -/
def Tame (x : Walk) : Prop := (x.sNclusters + 2).toNat ≤ 0xAAAAAAAA

/-- Only the sector buffer and the classes have changed, and classes stay known. -/
structure Carried (x y : Walk) : Prop where
  like : Like x y
  known : (∀ p, Known (x.sLogpg p)) → ∀ p, Known (y.sLogpg p)

theorem Carried.refl (x : Walk) : Carried x x := ⟨.refl x, fun h => h⟩

theorem Carried.trans (h : Carried x y) (h' : Carried y z) : Carried x z :=
  ⟨h.like.trans h'.like, fun hx => h'.known (h.known hx)⟩

theorem Carried.bounded (h : Carried x y) (hx : Walk.Bounded x) : Walk.Bounded y := h.like.bounded hx

theorem Carried.tame (h : Carried x y) (hx : Tame x) : Tame y := by
  have hl := h.like
  unfold Like at hl
  rw [hl]
  exact hx

theorem Carried.nclusters (h : Carried x y) : y.sNclusters = x.sNclusters := by
  have hl := h.like
  unfold Like at hl
  rw [hl]

theorem paint_carried (a b : Nat) {cls : UInt8} (hcls : Known cls) (x : Walk) :
    Carried x (x.paint a b cls) := by
  refine ⟨paint_like a b cls x, fun h p => ?_⟩
  show Known (if a ≤ p ∧ p < b then cls else x.sLogpg p)
  split
  · exact hcls
  · exact h p

theorem known_meta : Known clsMeta := .inl rfl

theorem known_slack : Known clsSlack := .inr (.inl rfl)

theorem known_live : Known clsLive := .inr (.inr (.inl rfl))

theorem known_alloc : Known pgAlloc := .inr (.inr (.inr (.inl rfl)))

theorem known_free : Known pgFree := .inr (.inr (.inr (.inr rfl)))

/-! ## the walks -/

theorem markBytes_carried (hx : Walk.Bounded x) (b0 b1 : UInt32) {cls : UInt8} (hcls : Known cls) :
    ∃ y, x.markBytes b0 b1 cls = some y ∧ Carried x y :=
  ⟨_, markBytes_eq hx b0 b1 cls, paint_carried _ _ hcls x⟩

theorem markRegion_carried (hx : Walk.Bounded x) (start used len : UInt32) :
    ∃ y, x.markRegion start used len = some y ∧ Carried x y := by
  unfold markRegion
  dsimp only
  generalize (if len < used then len else used) = used
  obtain ⟨y, h, hy⟩ := markBytes_carried hx start (start + used) known_meta
  rw [do_some h]
  split
  · obtain ⟨z, h', hz⟩ := markBytes_carried (hy.bounded hx)
      (start + (used + y.sPgsz - 1) / y.sPgsz * y.sPgsz) (start + len) known_slack
    exact ⟨z, h', hy.trans hz⟩
  · exact ⟨y, rfl, hy⟩

/-- The clusters of a chain are looked up inside the table. -/
theorem Tame.lookup (ht : Tame x) (hx : Walk.Bounded x) {c : UInt32} (hc : c < x.sNclusters + 2) :
    ∃ e, fat12Entry x.sFat x.sFatLen c = some e := by
  rw [UInt32.lt_iff_toNat_lt] at hc
  exact fat12Entry_some x.sFat hx.fatLen (Nat.lt_of_lt_of_le hc ht)

theorem markChain_carried (size : UInt32) (left : Nat) (c i : UInt32) (x : Walk)
    (hx : Walk.Bounded x) (ht : Tame x) : ∃ y, markChain size left c i x = some y ∧ Carried x y := by
  induction left generalizing c i x with
  | zero => exact ⟨x, rfl, .refl x⟩
  | succ left ih =>
    unfold markChain
    split
    · rename_i hc
      dsimp only
      obtain ⟨y, h, hy⟩ := markBytes_carried hx ((x.sDataStart + (c - 2)) * x.sSs) _ known_live
      rw [do_some h]
      obtain ⟨z, h', hz⟩ := markBytes_carried (hy.bounded hx) _ _ known_slack
      rw [do_some h']
      have hyz := hy.trans hz
      obtain ⟨e, he⟩ := (hyz.tame ht).lookup (hyz.bounded hx)
        (c := c) (by rw [hyz.nclusters]; exact hc.2)
      rw [do_some he]
      split
      · exact ⟨z, rfl, hyz⟩
      · obtain ⟨u, hu, hzu⟩ := ih e (i + 1) z (hyz.bounded hx) (hyz.tame ht)
        exact ⟨u, hu, hyz.trans hzu⟩
    · exact ⟨x, rfl, .refl x⟩

theorem markFile_carried (hx : Walk.Bounded x) (ht : Tame x) (c size : UInt32) :
    ∃ y, x.markFile c size = some y ∧ Carried x y :=
  markChain_carried size _ c 0 x hx ht

theorem rd16_some (p : Nat → UInt8) {i : Nat} (h : i + 1 < bufSize) : ∃ v, rd16 p i = some v := by
  unfold rd16
  rw [peek_eq (by omega), peek_eq (by omega)]
  exact ⟨_, rfl⟩

theorem rd32_some (p : Nat → UInt8) {i : Nat} (h : i + 3 < bufSize) : ∃ v, rd32 p i = some v := by
  obtain ⟨a, ha⟩ := rd16_some p (i := i) (by omega)
  obtain ⟨b, hb⟩ := rd16_some p (i := i + 2) (by omega)
  unfold rd32
  rw [ha, hb]
  exact ⟨_, rfl⟩

/-- The subdirectories fit their array. -/
def Subs.Fits (s : Subs) : Prop := s.nsubs ≤ subsCap

theorem scanFrom_carried {cap : Nat} (hcap : cap ≤ subsCap) (left off : Nat) (x : Walk) (s : Subs)
    (hx : Walk.Bounded x) (ht : Tame x) (hs : s.Fits) (hoff : off + 32 * left ≤ bufSize) :
    ∃ r, scanFrom cap left off (x, s) = some r ∧ Carried x r.1.1 ∧ r.1.2.Fits := by
  induction left generalizing off x s with
  | zero => exact ⟨_, rfl, .refl x, hs⟩
  | succ left ih =>
    have hnext := ih (off + 32) x s hx ht hs (by omega)
    unfold scanFrom
    rw [do_some (peek_eq (by omega) _)]
    split
    · exact ⟨_, rfl, .refl x, hs⟩
    split
    · exact hnext
    rw [do_some (peek_eq (by omega) _)]
    split
    · exact hnext
    split
    · exact hnext
    obtain ⟨low, hlow⟩ := rd16_some x.sSec (i := off + 26) (by omega)
    obtain ⟨high, hhigh⟩ := rd16_some x.sSec (i := off + 20) (by omega)
    rw [do_some hlow, do_some hhigh]
    dsimp only
    split
    · split
      · exact hnext
      split
      · rename_i hsub
        have hlt : s.nsubs < subsCap := Nat.lt_of_lt_of_le hsub.2 hcap
        rw [do_some (poke_eq hlt _ _)]
        exact ih (off + 32) x _ hx ht hlt (by omega)
      · exact hnext
    · obtain ⟨size, hsize⟩ := rd32_some x.sSec (i := off + 28) (by omega)
      rw [do_some hsize]
      split
      · obtain ⟨y, h, hy⟩ := markFile_carried hx ht (low ||| high <<< 16) size
        rw [do_some h]
        obtain ⟨r, hr, hyr, hrs⟩ := ih (off + 32) y s (hy.bounded hx) (hy.tame ht) hs (by omega)
        exact ⟨r, hr, hy.trans hyr, hrs⟩
      · exact hnext

theorem scanDirSector_carried {cap : Nat} (hcap : cap ≤ subsCap) {s : Subs} (hx : Walk.Bounded x)
    (ht : Tame x) (hs : s.Fits) :
    ∃ r, scanDirSector cap (x, s) = some r ∧ Carried x r.1.1 ∧ r.1.2.Fits := by
  refine scanFrom_carried hcap _ 0 x s hx ht hs ?_
  have h1 := hx.ss_le
  have h2 := Nat.div_mul_le_self x.sSs.toNat 32
  show 0 + 32 * (x.sSs.toNat / 32) ≤ bufSize
  omega

theorem readSec_carried (hx : Walk.Bounded x) (sector : UInt32) :
    ∃ y, x.readSec sector = (y, true) ∧ Carried x y := by
  obtain ⟨sec, h⟩ := readSec_eq hx sector
  exact ⟨_, h, rfl, fun hk => hk⟩

theorem rootFrom_carried (b : Bpb) (left : Nat) (rs : UInt32) (x : Walk) (s : Subs)
    (hx : Walk.Bounded x) (ht : Tame x) (hs : s.Fits) :
    ∃ r, rootFrom b left rs (x, s) = some r ∧ Carried x r.1 ∧ r.2.Fits := by
  induction left generalizing rs x s with
  | zero => exact ⟨_, rfl, .refl x, hs⟩
  | succ left ih =>
    obtain ⟨y, h, hy⟩ := readSec_carried hx (b.rootStart + rs)
    unfold rootFrom
    rw [h]
    dsimp only
    obtain ⟨⟨⟨z, s'⟩, extent, ended⟩, hscan, hz, hs'⟩ :=
      scanDirSector_carried (Nat.le_refl _) (hy.bounded hx) (hy.tame ht) hs
    rw [do_some hscan]
    dsimp only at hz hs' ⊢
    have hxz := hy.trans hz
    obtain ⟨u, hu, hzu⟩ := markRegion_carried (hxz.bounded hx) ((b.rootStart + rs) * z.sSs) extent z.sSs
    rw [do_some hu]
    have hxu := hxz.trans hzu
    split
    · obtain ⟨v, hv, huv⟩ := Loop.foldlM_inv (P := fun v => Carried u v) (List.range left)
        (f := fun (x : Walk) t => x.markRegion ((b.rootStart + (rs + 1 + t.toUInt32)) * x.sSs) 0 x.sSs)
        (.refl u) fun t _ v hv => by
          obtain ⟨v', h', hv'⟩ := markRegion_carried ((hxu.trans hv).bounded hx)
            ((b.rootStart + (rs + 1 + t.toUInt32)) * v.sSs) 0 v.sSs
          exact ⟨v', h', hv.trans hv'⟩
      rw [do_some hv]
      exact ⟨_, rfl, hxu.trans huv, hs'⟩
    · obtain ⟨r, hr, hur, hrs⟩ := ih (rs + 1) u s' (hxu.bounded hx) (hxu.tame ht) hs'
      exact ⟨r, hr, hxu.trans hur, hrs⟩

theorem scanFrom_subs (left off : Nat) (x : Walk) (s : Subs) {r : (Walk × Subs) × UInt32 × Bool}
    (h : scanFrom 0 left off (x, s) = some r) : r.1.2 = s := by
  induction left generalizing off x with
  | zero =>
    cases h
    rfl
  | succ left ih =>
    unfold scanFrom at h
    simp only [Nat.not_lt_zero, and_false, if_false, Option.bind_eq_bind,
      Option.bind_eq_some_iff] at h
    obtain ⟨first, -, h⟩ := h
    split at h
    · cases h
      rfl
    split at h
    · exact ih _ _ h
    obtain ⟨attr, -, h⟩ := Option.bind_eq_some_iff.mp h
    split at h
    · exact ih _ _ h
    split at h
    · exact ih _ _ h
    obtain ⟨low, -, h⟩ := Option.bind_eq_some_iff.mp h
    obtain ⟨high, -, h⟩ := Option.bind_eq_some_iff.mp h
    split at h
    · split at h <;> exact ih _ _ h
    · obtain ⟨size, -, h⟩ := Option.bind_eq_some_iff.mp h
      split at h
      · obtain ⟨y, -, h⟩ := Option.bind_eq_some_iff.mp h
        exact ih _ _ h
      · exact ih _ _ h

theorem subFrom_carried (left : Nat) (c : UInt32) (x : Walk) (s : Subs) (hx : Walk.Bounded x)
    (ht : Tame x) (hs : s.Fits) :
    ∃ r, subFrom left c (x, s) = some r ∧ Carried x r.1 ∧ r.2 = s := by
  induction left generalizing c x with
  | zero => exact ⟨_, rfl, .refl x, rfl⟩
  | succ left ih =>
    unfold subFrom
    split
    · rename_i hc
      obtain ⟨y, h, hy⟩ := readSec_carried hx (x.sDataStart + (c - 2))
      dsimp only
      rw [h]
      dsimp only
      obtain ⟨⟨⟨z, s'⟩, extent, ended⟩, hscan, hz, -⟩ :=
        scanDirSector_carried (Nat.zero_le _) (hy.bounded hx) (hy.tame ht) hs
      have hs' : s' = s := scanFrom_subs _ _ _ _ hscan
      subst hs'
      rw [do_some hscan]
      dsimp only at hz ⊢
      have hxz := hy.trans hz
      obtain ⟨u, hu, hzu⟩ := markRegion_carried (hxz.bounded hx)
        ((x.sDataStart + (c - 2)) * z.sSs) extent z.sSs
      rw [do_some hu]
      have hxu := hxz.trans hzu
      obtain ⟨e, he⟩ := (hxu.tame ht).lookup (hxu.bounded hx)
        (c := c) (by rw [hxu.nclusters]; exact hc.2)
      rw [do_some he]
      split
      · exact ⟨_, rfl, hxu, rfl⟩
      · obtain ⟨r, hr, hur, hrs⟩ := ih e u (hxu.bounded hx) (hxu.tame ht)
        exact ⟨r, hr, hxu.trans hur, hrs⟩
    · exact ⟨_, rfl, .refl x, rfl⟩

theorem subWalk_carried {s : Subs} (hx : Walk.Bounded x) (ht : Tame x) (hs : s.Fits) :
    ∃ r, subWalk (x, s) = some r ∧ Carried x r.1 := by
  obtain ⟨r, h, hr, -⟩ := Loop.foldlM_inv (P := fun (r : Walk × Subs) => Carried x r.1 ∧ r.2 = s)
    (f := fun (r : Walk × Subs) d => do
      let c ← peek subsCap r.2.subs d
      subFrom (r.1.sNclusters.toNat + 1) c r) (List.range s.nsubs) (a := (x, s)) ⟨.refl x, rfl⟩ (by
    rintro d hd ⟨y, s'⟩ ⟨hy, rfl⟩
    have hlt : d < subsCap := Nat.lt_of_lt_of_le (List.mem_range.mp hd) hs
    rw [do_some (peek_eq hlt _)]
    obtain ⟨r, hr, hyr, hrs⟩ := subFrom_carried (y.sNclusters.toNat + 1) (s'.subs d) y s'
      (hy.bounded hx) (hy.tame ht) hs
    exact ⟨r, hr, hy.trans hyr, hrs⟩)
  exact ⟨r, h, hr⟩

/-! ## the logical pages -/

theorem Like.ppp (h : Like x y) : y.ppp = x.ppp := by
  unfold Like at h
  rw [h]
  rfl

theorem Bounded.page_lt (hx : Walk.Bounded x) {L k : Nat} (hL : L < x.sNlog.toNat) (hk : k < x.ppp) :
    L * x.ppp + k < bufSize := by
  have h1 : (L + 1) * x.ppp ≤ x.sNlog.toNat * x.ppp := Nat.mul_le_mul_right _ hL
  have h2 := hx.logPages_le
  unfold logPages at h2
  rw [Nat.succ_mul] at h1
  omega

theorem cluster_lt {c : Nat} {e : UInt32} (h : c < 2 + (e.toNat - 2)) (h2 : 2 ≤ c) :
    c.toUInt32 < e := by
  have he := e.toNat_lt
  rw [UInt32.lt_iff_toNat_lt]
  show (UInt32.ofNat c).toNat < _
  rw [UInt32.toNat_ofNat', Nat.mod_eq_of_lt (by omega)]
  omega

theorem provisional_carried (hx : Walk.Bounded x) (ht : Tame x) :
    ∃ y, x.provisional = some y ∧ Like x y ∧ ∀ p, Known (y.sLogpg p) := by
  have h0 : Like x { x with sLogpg := fun _ => pgFree } := rfl
  have hloop : ∃ y, x.provisional = some y ∧ Carried { x with sLogpg := fun _ => pgFree } y := by
    refine Loop.foldlM_inv _ (.refl _) fun c hc y hy => ?_
    have hb := hy.bounded (h0.bounded hx)
    obtain ⟨h2, hlt⟩ := List.mem_range'_1.mp hc
    obtain ⟨e, he⟩ := (hy.tame ht).lookup hb
      (c := c.toUInt32) (by rw [hy.nclusters]; exact cluster_lt hlt h2)
    dsimp only
    rw [do_some he]
    split
    · obtain ⟨z, h, hz⟩ := markBytes_carried hb _ _ known_alloc
      exact ⟨z, h, hy.trans hz⟩
    · exact ⟨y, rfl, hy⟩
  obtain ⟨y, h, hy⟩ := hloop
  exact ⟨y, h, h0.trans hy.like, hy.known fun _ => known_free⟩

/-- A volume of too many clusters: one of them is looked up outside the table. -/
theorem provisional_none (hx : Walk.Bounded x) (hlen : 0 < x.sFatLen.toNat) (ht : ¬Tame x) :
    x.provisional = none := by
  have hend : 0xAAAAAAAA < (x.sNclusters + 2).toNat := Nat.lt_of_not_le ht
  have h0 : Like x { x with sLogpg := fun _ => pgFree } := rfl
  have hmem : 0xAAAAAAAA ∈ List.range' 2 ((x.sNclusters + 2).toNat - 2) := by
    rw [List.mem_range'_1]
    omega
  refine Loop.foldlM_none (P := Like x) hmem h0 (fun c y z hy h => ?_) fun y hy => ?_
  · dsimp only at h
    obtain ⟨e, -, h⟩ := Option.bind_eq_some_iff.mp h
    split at h
    · rw [markBytes_eq (hy.bounded hx)] at h
      cases h
      exact hy.trans (paint_like ..)
    · cases h
      exact hy
  · have hl : y.sFatLen = x.sFatLen := by rw [hy]
    have hc : Nat.toUInt32 0xAAAAAAAA = 0xAAAAAAAA := rfl
    dsimp only
    rw [hc, fat12Entry_none y.sFat (hl ▸ hlen)]
    rfl

theorem regions_carried (b : Bpb) (hx : Walk.Bounded x) :
    ∃ y, x.regions b = some y ∧ Carried x y := by
  obtain ⟨y, h, hy⟩ := markRegion_carried hx 0 512 (b.rsvd * x.sSs)
  unfold regions
  rw [do_some h]
  refine Loop.foldlM_inv _ hy fun f _ u hu => ?_
  obtain ⟨v, h, hv⟩ := markRegion_carried (hu.bounded hx)
    ((b.fatStart + f.toUInt32 * b.fatsz16) * u.sSs) u.fatUsed (b.fatsz16 * u.sSs)
  exact ⟨v, h, hu.trans hv⟩

/-- A class on its way from the walks to the report. -/
def Mixed (v : UInt8) : Prop := Known v ∨ Final v

/-- Only the sector buffer and the classes have changed, pages below `m` are reported ones, those of
the sector from there on as `P` says. -/
structure Passed (x : Walk) (m c : Nat) (P : UInt8 → Prop) (y : Walk) : Prop where
  like : Like x y
  mixed : ∀ p, Mixed (y.sLogpg p)
  done : ∀ p < m, Final (y.sLogpg p)
  next : ∀ p, m ≤ p → p < m + c → P (y.sLogpg p)

theorem setPage_at {p : Nat} (hp : p < bufSize) (cls : UInt8) (x : Walk) :
    ∃ y, x.setPage p cls = some y ∧ Like x y ∧
      ∀ q, y.sLogpg q = if q = p then cls else x.sLogpg q := by
  refine ⟨_, setPage_eq hp cls x, paint_like .., fun q => ?_⟩
  show (if p ≤ q ∧ q < p + 1 then cls else x.sLogpg q) = _
  by_cases hq : q = p
  · rw [if_pos (by omega), if_pos hq]
  · rw [if_neg (by omega), if_neg hq]

theorem blankFrom_some (p : Nat → UInt8) (left i : Nat) (h : i + left ≤ bufSize) :
    ∃ b, blankFrom p left i = some b := by
  induction left generalizing i with
  | zero => exact ⟨true, rfl⟩
  | succ left ih =>
    unfold blankFrom
    rw [do_some (peek_eq (by omega) _)]
    split
    · exact ⟨false, rfl⟩
    · exact ih (i + 1) (by omega)

theorem Bounded.scanPage (hx : Walk.Bounded x) (p : Nat → UInt8) {k : Nat} (hk : k < x.ppp) :
    ∃ c, scanPage p x.sPgsz k = some c ∧ Final c := by
  have hfit : k * x.sPgsz.toNat + x.sPgsz.toNat ≤ bufSize := by
    have h1 : (k + 1) * x.sPgsz.toNat ≤ x.ppp * x.sPgsz.toNat := Nat.mul_le_mul_right _ hk
    have h2 := hx.ss_le
    rw [hx.ppp_mul, Nat.succ_mul] at h1
    omega
  obtain ⟨b, h⟩ := blankFrom_some p _ _ hfit
  unfold Walk.scanPage
  rw [do_some h]
  cases b
  · exact ⟨clsObsolete, rfl, .inr (.inr (.inl rfl))⟩
  · exact ⟨clsErased, rfl, .inl rfl⟩

theorem Mixed.cases {v : UInt8} (h : Mixed v) : Final v ∨ v = pgAlloc ∨ v = pgFree := by
  rcases h with h | h
  · rcases h with h | h | h | h | h
    · exact .inl (.inr (.inl h))
    · exact .inl (.inr (.inr (.inr (.inr h))))
    · exact .inl (.inr (.inr (.inr (.inl h))))
    · exact .inr (.inl h)
    · exact .inr (.inr h)
  · exact .inl h

theorem final_live : Final clsLive := .inr (.inr (.inr (.inl rfl)))

section
variable {m c : Nat} {P Q : UInt8 → Prop}

theorem Passed.set (hy : Passed x m c P y) (hP : ∀ v, Final v → P v) {k : Nat} (hk : m + k < bufSize)
    {cls : UInt8} (hcls : Final cls) :
    ∃ z, y.setPage (m + k) cls = some z ∧ Passed x m c P z ∧ z.sLogpg (m + k) = cls := by
  obtain ⟨z, h, hz, hat⟩ := setPage_at hk cls y
  refine ⟨z, h, ⟨hy.like.trans hz, fun p => ?_, fun p hp => ?_, fun p h1 h2 => ?_⟩, ?_⟩
  · rw [hat]
    split
    · exact .inr hcls
    · exact hy.mixed p
  · rw [hat, if_neg (by omega)]
    exact hy.done p hp
  · rw [hat]
    split
    · exact hP _ hcls
    · exact hy.next p h1 h2
  · rw [hat, if_pos rfl]

/-- The first page of the rest is a reported one. -/
theorem Passed.advance (hy : Passed x m (c + 1) P y) (h : Final (y.sLogpg m)) :
    Passed x (m + 1) c P y := by
  refine ⟨hy.like, hy.mixed, fun p hp => ?_, fun p h1 h2 => hy.next p (by omega) (by omega)⟩
  by_cases hpm : p = m
  · rw [hpm]
    exact h
  · exact hy.done p (by omega)

theorem Passed.snoc (hy : Passed x m c P y) (h : P (y.sLogpg (m + c))) : Passed x m (c + 1) P y := by
  refine ⟨hy.like, hy.mixed, hy.done, fun p h1 h2 => ?_⟩
  by_cases hp : p = m + c
  · rw [hp]
    exact h
  · exact hy.next p h1 (by omega)

theorem Passed.sector (hy : Passed x m c P y) (hP : ∀ v, P v → Final v) :
    Passed x (m + c) 0 Q y := by
  refine ⟨hy.like, hy.mixed, fun p hp => ?_, fun p h1 h2 => by omega⟩
  by_cases hpm : p < m
  · exact hy.done p hpm
  · exact hP _ (hy.next p (by omega) hp)

theorem Passed.weaken (hy : Passed x m c P y) (hP : ∀ v, P v → Q v) : Passed x m c Q y :=
  ⟨hy.like, hy.mixed, hy.done, fun p h1 h2 => hP _ (hy.next p h1 h2)⟩

end

/-- What the first pass over a sector leaves of a page. -/
def Claimed (hasFree : Bool) (v : UInt8) : Prop := Final v ∨ v = pgFree ∧ hasFree = true

theorem claimPage_passed {L k : Nat} {r : Walk × Bool} (hx : Walk.Bounded x) (hL : L < x.sNlog.toNat)
    (hk : k < x.ppp) (hr : Passed x (L * x.ppp) k (Claimed r.2) r.1) :
    ∃ r', claimPage L r k = some r' ∧ Passed x (L * x.ppp) (k + 1) (Claimed r'.2) r'.1 := by
  obtain ⟨y, hasFree⟩ := r
  dsimp only at hr
  have hppp : y.ppp = x.ppp := hr.like.ppp
  have hlt : L * x.ppp + k < bufSize := hx.page_lt hL hk
  unfold claimPage
  dsimp only
  rw [hppp, do_some (peek_eq hlt _)]
  split
  · obtain ⟨z, h, hz, hat⟩ := hr.set (fun v h => .inl h) hlt final_live
    rw [do_some h]
    exact ⟨_, rfl, hz.snoc (by rw [hat]; exact .inl final_live)⟩
  · rename_i hv
    refine ⟨_, rfl, (hr.weaken fun v h => ?_).snoc ?_⟩
    · rcases h with h | ⟨h, h'⟩
      · exact .inl h
      · exact .inr ⟨h, by rw [h']; rfl⟩
    · rcases (hr.mixed (L * x.ppp + k)).cases with h | h | h
      · exact .inl h
      · exact absurd h hv
      · exact .inr ⟨h, by rw [h]; exact Bool.or_true _⟩

/-- What the second pass over a sector has still to settle. -/
def Pending (v : UInt8) : Prop := Final v ∨ v = pgFree

theorem scanFree_passed {L k c : Nat} (hx : Walk.Bounded x) (hL : L < x.sNlog.toNat)
    (hk : k + (c + 1) = x.ppp) (hy : Passed x (L * x.ppp + k) (c + 1) Pending y) :
    ∃ z, scanFree true L y k = some z ∧ Passed x (L * x.ppp + (k + 1)) c Pending z := by
  have hppp : y.ppp = x.ppp := hy.like.ppp
  have hlt : L * x.ppp + k < bufSize := hx.page_lt hL (by omega)
  unfold scanFree
  rw [hppp, do_some (peek_eq hlt _)]
  split
  · rename_i hv
    refine ⟨y, rfl, hy.advance ?_⟩
    rcases hy.next _ (Nat.le_refl _) (by omega) with h | h
    · exact h
    · exact absurd h hv
  · obtain ⟨cls, hc, hcls⟩ := (hy.like.bounded hx).scanPage y.sSec (k := k) (by omega)
    rw [if_neg (by decide), do_some hc]
    obtain ⟨z, h, hz, hat⟩ := hy.set (k := 0) (fun v h => .inl h) hlt hcls
    exact ⟨z, h, hz.advance (by rw [Nat.add_zero] at hat; rw [hat]; exact hcls)⟩

theorem resolveSector_passed {L : Nat} (hx : Walk.Bounded x) (hL : L < x.sNlog.toNat)
    (hy : Passed x (L * x.ppp) 0 Final y) :
    ∃ z, y.resolveSector L = some z ∧ Passed x ((L + 1) * x.ppp) 0 Final z := by
  have hppp : y.ppp = x.ppp := hy.like.ppp
  obtain ⟨⟨z, hasFree⟩, h, hz⟩ := Loop.foldlM_range_inv
    (P := fun k (r : Walk × Bool) => Passed x (L * x.ppp) k (Claimed r.2) r.1) (f := claimPage L)
    (a := (y, false)) x.ppp (hy.weaken fun v h => .inl h) fun k hk r hr => claimPage_passed hx hL hk hr
  unfold resolveSector
  rw [hppp, do_some h, Nat.succ_mul]
  dsimp only at hz ⊢
  cases hasFree
  · exact ⟨z, rfl, hz.sector fun v h => h.resolve_right fun h => nomatch h.2⟩
  · obtain ⟨sec, hread⟩ := readSec_eq (hz.like.bounded hx) L.toUInt32
    rw [if_neg (by decide), hread]
    dsimp only
    have hu : Passed x (L * x.ppp) x.ppp Pending { z with sSec := sec } :=
      ⟨hz.like.trans rfl, hz.mixed, hz.done, fun p h1 h2 => (hz.next p h1 h2).imp_right (·.1)⟩
    have hzp : ppp { z with sSec := sec } = x.ppp := hu.like.ppp
    obtain ⟨v, hv, hvz⟩ := Loop.foldlM_range_inv
      (P := fun k v => Passed x (L * x.ppp + k) (x.ppp - k) Pending v) (f := scanFree true L)
      (a := { z with sSec := sec }) x.ppp hu fun k hk v hv => by
        have hc : x.ppp - k = x.ppp - (k + 1) + 1 := by omega
        rw [hc] at hv
        exact scanFree_passed hx hL (by omega) hv
    rw [hzp]
    rw [Nat.sub_self] at hvz
    exact ⟨v, hv, hvz.like, hvz.mixed, hvz.done, fun p h1 h2 => by omega⟩

theorem resolve_passed (hx : Walk.Bounded x) (hk : ∀ p, Known (x.sLogpg p)) :
    ∃ y, x.resolve = some y ∧ Like x y ∧ ∀ p < x.logPages, Final (y.sLogpg p) := by
  obtain ⟨y, h, hy⟩ := Loop.foldlM_range_inv (P := fun L y => Passed x (L * x.ppp) 0 Final y)
    (f := resolveSector) (a := x) x.sNlog.toNat
    ⟨.refl x, fun p => .inl (hk p), fun p hp => by omega, fun p h1 h2 => by omega⟩
    fun L hL y hy => resolveSector_passed hx hL hy
  exact ⟨y, h, hy.like, hy.done⟩

/-- **Every logical page has a reported class**, whatever the volume holds. -/
theorem logical_final (b : Bpb) (hx : Walk.Bounded x) (ht : Tame x) :
    ∃ y, x.logical b = some y ∧ Like x y ∧ ∀ p < x.logPages, Final (y.sLogpg p) := by
  obtain ⟨y1, h1, hy1, hk1⟩ := provisional_carried hx ht
  have ht1 : Tame y1 := by rw [hy1]; exact ht
  obtain ⟨y2, h2, hy2⟩ := regions_carried b (hy1.bounded hx)
  have hb2 := hy2.bounded (hy1.bounded hx)
  have ht2 := hy2.tame ht1
  obtain ⟨⟨y3, s⟩, h3, hy3, hs⟩ := rootFrom_carried b (b.rootSecs y2.sSs).toNat 0 y2 {} hb2 ht2
    (Nat.zero_le _)
  have hb3 := hy3.bounded hb2
  obtain ⟨⟨y4, s'⟩, h4, hy4⟩ := subWalk_carried hb3 (hy3.tame ht2) hs
  have hb4 := hy4.bounded hb3
  have hl4 : Like x y4 := hy1.trans ((hy2.trans (hy3.trans hy4)).like)
  obtain ⟨y5, h5, hy5, hf⟩ := resolve_passed hb4 (hy4.known (hy3.known (hy2.known hk1)))
  have hpages : y4.logPages = x.logPages := by rw [hl4]; rfl
  refine ⟨y5, ?_, hl4.trans hy5, fun p hp => hf p (hpages ▸ hp)⟩
  unfold logical
  have h3 : rootWalk b y2 = some (y3, s) := h3
  rw [do_some h1, do_some h2, do_some h3]
  dsimp only
  rw [do_some h4]
  exact h5

end Walk
end FlashVis

import FlashVis.Lib.Since
import FlashVis.Player.Granularity

/-!
# The chip, the player, and the history of calls (device.js, worker-heat.js)

A `Rig` is a chip with the heat player that applies its events in order.

* `Rig.flash_step`, `Rig.wear_step`, `Rig.shown_step`   what one call makes of a byte, a sector's
                                                        erase count and a page's fill;
* `Rig.follows_history`                                 what a whole run makes of them.
-/

namespace FlashVis
open Machine

/-- A call on the chip: one of the module's, or the host's wipe. -/
inductive ChipCall where
  | hal (op : HalOp)
  | reset
  deriving DecidableEq, Repr

namespace ChipCall

/-- A call inside the chip that names at least one byte, unless it reads. -/
def InRange (g : Geometry) : ChipCall → Prop
  | .hal (.read off len) | .hal (.readQuiet off len) => off + len ≤ g.sectorSize * g.sectorCount
  | .hal (.prog off data) => 1 ≤ data.length ∧ off + data.length ≤ g.sectorSize * g.sectorCount
  | .hal (.erase off len) => 1 ≤ len ∧ off + len ≤ g.sectorSize * g.sectorCount
  | .reset => True

def isReset : ChipCall → Bool
  | .reset => true
  | _ => false

/-- An erase whose byte range meets sector `s`. -/
def erases (g : Geometry) (s : Nat) : ChipCall → Bool
  | .hal (.erase off len) => decide (off < (s + 1) * g.sectorSize ∧ s * g.sectorSize < off + len)
  | _ => false

/-- A call that blanks sector `s`. -/
def wipes (g : Geometry) (s : Nat) (c : ChipCall) : Bool := c.isReset || c.erases g s

/-- The byte programmed to address `a`. -/
def byteTo (a : Nat) : ChipCall → Option UInt8
  | .hal (.prog off data) => if off ≤ a then data[a - off]? else none
  | _ => none

/-- A program whose byte range meets page `p`. -/
def programs (g : Geometry) (p : Nat) : ChipCall → Bool
  | .hal (.prog off data) =>
    decide (off < (p + 1) * g.pageSize ∧ p * g.pageSize < off + data.length)
  | _ => false

end ChipCall

/-- The statistics after one more event. -/
def Stats.note (st : Stats) : DevEvent → Stats
  | .reset => {}
  | .read _ len ns =>
    { st with reads := st.reads + 1, readBytes := st.readBytes + len, simNs := st.simNs + ns }
  | .prog _ len ns =>
    { st with programs := st.programs + 1, programBytes := st.programBytes + len
              simNs := st.simNs + ns }
  | .erase _ _ _ ns => { st with erases := st.erases + 1, simNs := st.simNs + ns }

def DevEvent.isReset : DevEvent → Bool
  | .reset => true
  | _ => false

/-- A call on the chip, with its events. -/
def Device.call (d : Device) : ChipCall → Device × List DevEvent
  | .hal op => d.hal op
  | .reset => (d.reset, [.reset])

/-- A chip, the player that follows it, and all its events. -/
structure Rig where
  device : Device
  player : HeatPlayer
  log : List DevEvent := []

def HeatPlayer.shownAt (h : HeatPlayer) (p : Nat) : Nat := h.shown[p]?.getD 0

namespace Rig

/-- A call at wall-clock time `x.1`; the player applies its events in order. -/
def step (r : Rig) (x : ℚ × ChipCall) : Rig :=
  let (d, evs) := r.device.call x.2
  { device := d, player := evs.foldl (fun h ev => h.applyEvent x.1 ev) r.player, log := r.log ++ evs }

def start (g : Geometry) (now : ℚ) : Rig := ⟨createNorDevice g, createHeatPlayer g now, []⟩

/-- What the chip and the player show of the calls made. -/
structure Follows (g : Geometry) (calls : List ChipCall) (r : Rig) : Prop where
  flash : ∀ a < g.sectorSize * g.sectorCount, r.device.flash a =
    ((since (ChipCall.wipes g (a / g.sectorSize)) calls).filterMap (ChipCall.byteTo a)).foldl
      (· &&& ·) 0xff
  wear : ∀ s < g.sectorCount, r.device.wear[s]? =
    some ((since ChipCall.isReset calls).countP (ChipCall.erases g s))
  stats : r.device.stats = r.log.foldl Stats.note {}
  erases : r.device.stats.erases = r.device.wear.sum
  simNs : r.device.stats.simNs = ((since DevEvent.isReset r.log).map DevEvent.ns).sum
  pages : r.player.shown.length = npages g
  shown : ∀ p < npages g, 0 < r.player.shownAt p ↔
    ∃ c ∈ since (ChipCall.wipes g (p / pagesPerSector g)) calls, c.programs g p
  blank : ∀ p < npages g, r.player.shownAt p = 0 →
    ∀ a, a / g.pageSize = p → r.device.flash a = 0xff

end Rig

namespace Device
variable {d : Device} {l : List Nat}

@[simp] theorem eraseFrom_wear_length (d : Device) (l : List Nat) :
    (d.eraseFrom l).1.wear.length = d.wear.length := by
  induction l generalizing d with
  | nil => rfl
  | cons s l ih => exact (ih _).trans (List.length_modify _ _ _)

theorem eraseFrom_wear (hl : l.Nodup) {s n : Nat} (hn : d.wear[s]? = some n) :
    (d.eraseFrom l).1.wear[s]? = some (if s ∈ l then (n + 1) % 4294967296 else n) := by
  induction l generalizing d n with
  | nil => simpa [eraseFrom] using hn
  | cons t l ih =>
    obtain ⟨ht, hl⟩ := List.nodup_cons.mp hl
    have hmod : (d.eraseSector t).1.wear[s]? =
        some (if t = s then (n + 1) % 4294967296 else n) := by
      show (d.wear.modify t fun n => (n + 1) % 4294967296)[s]? = _
      rw [List.getElem?_modify, hn]
      split <;> rfl
    have h := ih hl hmod
    show ((d.eraseSector t).1.eraseFrom l).1.wear[s]? = _
    rw [h]
    by_cases hts : t = s
    · subst hts
      simp [ht]
    · simp [hts, Ne.symm hts]

theorem eraseFrom_events (d : Device) (l : List Nat) : (d.eraseFrom l).2 = l.map fun s =>
    .erase s (s * d.geometry.sectorSize) d.geometry.sectorSize
      (eraseFixed + erasePer * d.geometry.sectorSize) := by
  induction l generalizing d with
  | nil => rfl
  | cons s l ih => exact congrArg (List.cons _) (ih _)

theorem eraseFrom_stats (d : Device) (l : List Nat) :
    (d.eraseFrom l).1.stats = (d.eraseFrom l).2.foldl Stats.note d.stats := by
  induction l generalizing d with
  | nil => rfl
  | cons s l ih => exact ih _

theorem eraseFrom_erases (d : Device) (l : List Nat) :
    (d.eraseFrom l).1.stats.erases = d.stats.erases + l.length := by
  induction l generalizing d with
  | nil => rfl
  | cons s l ih =>
    have h := ih (d.eraseSector s).1
    have hs : (d.eraseSector s).1.stats.erases = d.stats.erases + 1 := rfl
    show ((d.eraseSector s).1.eraseFrom l).1.stats.erases = _
    rw [h, hs, List.length_cons]
    omega

theorem call_stats (d : Device) (c : ChipCall) :
    (d.call c).1.stats = (d.call c).2.foldl Stats.note d.stats := by
  cases c with
  | reset => rfl
  | hal op =>
    cases op with
    | read off len => rfl
    | readQuiet off len => rfl
    | prog off data => rfl
    | erase off len => exact eraseFrom_stats d _

theorem call_geometry (d : Device) (c : ChipCall) : (d.call c).1.geometry = d.geometry := by
  cases c with
  | reset => rfl
  | hal op =>
    cases op with
    | read off len => rfl
    | readQuiet off len => rfl
    | prog off data => rfl
    | erase off len => exact erase_geometry

end Device

namespace HeatPlayer
variable {h : HeatPlayer} {now : ℚ}

@[simp] theorem eraseSector_length (s : Nat) (h : HeatPlayer) :
    (h.eraseSector s).shown.length = h.shown.length := by
  have hwipe : ∀ (l sh : List Nat) (base : Nat),
      (l.foldl (fun sh k => sh.set (base + k) 0) sh).length = sh.length := by
    intro l
    induction l with
    | nil => intros; rfl
    | cons k l ih => intro sh base; rw [List.foldl_cons, ih, List.length_set]
  exact hwipe _ _ _

theorem eraseSector_shownAt (hpps : 0 < pagesPerSector h.geometry) (s p : Nat) :
    (h.eraseSector s).shownAt p =
      if p / pagesPerSector h.geometry = s then 0 else h.shownAt p := by
  have hwipe : ∀ (n base : Nat) (sh : List Nat),
      (((List.range n).foldl (fun sh k => sh.set (base + k) 0) sh)[p]?).getD 0 =
        if base ≤ p ∧ p < base + n then 0 else sh[p]?.getD 0 := by
    intro n base
    induction n with
    | zero => intro sh; simp
    | succ n ih =>
      intro sh
      rw [List.range_succ, List.foldl_append, List.foldl_cons, List.foldl_nil, List.getElem?_set]
      by_cases hn : base + n = p
      · rw [if_pos hn]
        have hin : base ≤ p ∧ p < base + (n + 1) := by omega
        rw [if_pos hin]
        split <;> rfl
      · rw [if_neg hn, ih]
        congr 1
        rw [eq_iff_iff]
        omega
  have hmem : s * pagesPerSector h.geometry ≤ p ∧
      p < s * pagesPerSector h.geometry + pagesPerSector h.geometry ↔
      p / pagesPerSector h.geometry = s := by
    rw [Nat.div_eq_iff hpps]
    omega
  show ((List.range _).foldl _ h.shown)[p]?.getD 0 = _
  rw [hwipe]
  simp only [hmem]
  rfl

theorem eraseAll_shown (hpps : 0 < pagesPerSector h.geometry) (l : List Nat) (p : Nat) :
    (l.foldl (fun h s => h.eraseSector s) h).shownAt p =
      if p / pagesPerSector h.geometry ∈ l then 0 else h.shownAt p := by
  induction l generalizing h with
  | nil => simp
  | cons s l ih =>
    have hgeo : (h.eraseSector s).geometry = h.geometry := rfl
    rw [List.foldl_cons, ih (h := h.eraseSector s) hpps, eraseSector_shownAt hpps, hgeo]
    simp only [List.mem_cons]
    split_ifs <;> simp_all

theorem progPage_shown {q off len : Nat} (hsmall : h.geometry.pageSize < 65536) (hlen : 0 < len)
    (hover : off < (q + 1) * h.geometry.pageSize ∧ q * h.geometry.pageSize < off + len)
    {p : Nat} (hp : p < h.shown.length) :
    0 < (h.progPage q off len).shownAt p ↔ 0 < h.shownAt p ∨ p = q := by
  have hget : (h.progPage q off len).shown[p]? = (h.shown.modify q fun s =>
      min h.geometry.pageSize (s + (min (q * h.geometry.pageSize + h.geometry.pageSize) (off + len) -
        max (q * h.geometry.pageSize) off)) % 65536)[p]? := rfl
  have hpage : 0 < h.geometry.pageSize := Nat.pos_of_ne_zero fun h0 => by simp [h0] at hover
  rw [shownAt, hget, shownAt, List.getElem?_modify, List.getElem?_eq_getElem hp]
  rw [Nat.succ_mul] at hover
  by_cases hqp : q = p
  · subst hqp
    simp only [if_true, Option.map_eq_map, Option.map_some, Option.getD_some, or_true, iff_true]
    have hbytes : max (q * h.geometry.pageSize) off <
        min (q * h.geometry.pageSize + h.geometry.pageSize) (off + len) :=
      max_lt (lt_min (by omega) hover.2) (lt_min hover.1 (by omega))
    rw [Nat.mod_eq_of_lt (lt_of_le_of_lt (min_le_left _ _) hsmall)]
    exact lt_min hpage (by omega)
  · simp [hqp, Ne.symm hqp]

theorem progPages_shown (off : Nat) {len : Nat} (hsmall : h.geometry.pageSize < 65536) (hlen : 0 < len)
    (l : List Nat)
    (hover : ∀ q ∈ l, off < (q + 1) * h.geometry.pageSize ∧ q * h.geometry.pageSize < off + len)
    {p : Nat} (hp : p < h.shown.length) :
    0 < (l.foldl (fun h q => h.progPage q off len) h).shownAt p ↔ 0 < h.shownAt p ∨ p ∈ l := by
  induction l generalizing h with
  | nil => simp
  | cons q l ih =>
    have hp' : p < (h.progPage q off len).shown.length := (List.length_modify _ _ _).symm ▸ hp
    rw [List.foldl_cons, ih (h := h.progPage q off len) hsmall
      (fun r hr => hover r (List.mem_cons_of_mem q hr)) hp', progPage_shown hsmall hlen (hover q List.mem_cons_self) hp,
      List.mem_cons, or_assoc]

theorem bumpReads_shown (l : List Nat) (h : HeatPlayer) :
    (l.foldl (fun h q => h.bumpRead q) h).shown = h.shown := by
  induction l generalizing h with
  | nil => rfl
  | cons q l ih => exact ih _

theorem applyEvent_length (ev : DevEvent) (hlen : h.shown.length = npages h.geometry) :
    (h.applyEvent now ev).shown.length = npages h.geometry := by
  cases ev with
  | reset => exact List.length_replicate
  | erase s off len ns => exact (eraseSector_length s h).trans hlen
  | read off len ns => exact (congrArg List.length (bumpReads_shown _ h)).trans hlen
  | prog off len ns =>
    have hprog : ∀ (l : List Nat) (h : HeatPlayer),
        (l.foldl (fun h q => h.progPage q off len) h).shown.length = h.shown.length := by
      intro l
      induction l with
      | nil => intro h; rfl
      | cons q l ih => intro h; exact (ih _).trans (List.length_modify _ _ _)
    exact (hprog _ h).trans hlen

theorem applyEvents_length (evs : List DevEvent) (hlen : h.shown.length = npages h.geometry) :
    (evs.foldl (fun h ev => h.applyEvent now ev) h).shown.length = npages h.geometry := by
  induction evs generalizing h with
  | nil => exact hlen
  | cons ev evs ih =>
    have hgeo := applyEvent_geometry now ev h
    rw [List.foldl_cons, ← hgeo]
    exact ih (hgeo ▸ applyEvent_length ev hlen)

end HeatPlayer

namespace Rig
variable {g : Geometry} {r : Rig} {x : ℚ × ChipCall}

/-- The chip and the player have the geometry `g`, and the statistics fold the events. -/
structure Sound (g : Geometry) (r : Rig) : Prop where
  chip : r.device.geometry = g
  player : r.player.geometry = g
  sectors : r.device.wear.length = g.sectorCount
  pages : r.player.shown.length = npages g
  stats : r.device.stats = r.log.foldl Stats.note {}

theorem Sound.start (g : Geometry) (now : ℚ) : Sound g (start g now) where
  chip := rfl
  player := rfl
  sectors := List.length_replicate
  pages := List.length_replicate
  stats := rfl

theorem sectorSize_pos {off len : Nat} (hlen : 1 ≤ len)
    (hin : off + len ≤ g.sectorSize * g.sectorCount) : 0 < g.sectorSize := by
  rcases Nat.eq_zero_or_pos g.sectorSize with h0 | hpos
  · rw [h0, Nat.zero_mul] at hin
    omega
  · exact hpos

theorem pagesPerSector_pos (hdvd : g.pageSize ∣ g.sectorSize) (hss : 0 < g.sectorSize) :
    0 < g.pageSize ∧ 0 < pagesPerSector g := by
  have hps : 0 < g.pageSize := Nat.pos_of_dvd_of_pos hdvd hss
  exact ⟨hps, Nat.div_pos (Nat.le_of_dvd hss hdvd) hps⟩

theorem flash_step (h : Sound g r) (hin : x.2.InRange g) {a : Nat}
    (ha : a < g.sectorSize * g.sectorCount) : (r.step x).device.flash a =
      if x.2.wipes g (a / g.sectorSize) then 0xff
      else match x.2.byteTo a with
        | some b => r.device.flash a &&& b
        | none => r.device.flash a := by
  obtain ⟨now, c⟩ := x
  show (r.device.call c).1.flash a = _
  cases c with
  | reset => rfl
  | hal op =>
    cases op with
    | read off len => rfl
    | readQuiet off len => rfl
    | prog off data =>
      show (match data[a - off]? with
        | some b => if off ≤ a ∧ a < r.device.geometry.sectorSize * r.device.geometry.sectorCount
          then r.device.flash a &&& b else r.device.flash a
        | none => r.device.flash a) = match (if off ≤ a then data[a - off]? else none) with
        | some b => r.device.flash a &&& b
        | none => r.device.flash a
      rw [h.chip]
      by_cases hoff : off ≤ a
      · simp only [hoff, ha, and_self, if_true]
      · simp only [hoff, false_and, if_false]
        split <;> rfl
    | erase off len =>
      obtain ⟨hlen, hin⟩ := hin
      have hss := sectorSize_pos hlen hin
      show (r.device.eraseFrom _).1.flash a = _
      rw [Device.eraseFrom_flash _ (h.chip ▸ hss), h.chip]
      simp only [Device.mem_span hss hlen]
      by_cases hcov : off < (a / g.sectorSize + 1) * g.sectorSize ∧
          a / g.sectorSize * g.sectorSize < off + len
      · simp [ChipCall.wipes, ChipCall.isReset, ChipCall.erases, hcov]
      · simp [ChipCall.wipes, ChipCall.isReset, ChipCall.erases, hcov, ChipCall.byteTo]

theorem wear_step (h : Sound g r) (hin : x.2.InRange g) {s n : Nat} (hs : s < g.sectorCount)
    (hn : r.device.wear[s]? = some n) : (r.step x).device.wear[s]? =
      some (if x.2.isReset then 0 else if x.2.erases g s then (n + 1) % 4294967296 else n) := by
  obtain ⟨now, c⟩ := x
  show (r.device.call c).1.wear[s]? = _
  cases c with
  | reset =>
    show (List.replicate r.device.geometry.sectorCount 0)[s]? = some 0
    rw [h.chip, List.getElem?_replicate, if_pos hs]
  | hal op =>
    cases op with
    | read off len => exact hn
    | readQuiet off len => exact hn
    | prog off data => exact hn
    | erase off len =>
      obtain ⟨hlen, hin⟩ := hin
      have hss := sectorSize_pos hlen hin
      show (r.device.eraseFrom _).1.wear[s]? = _
      rw [Device.eraseFrom_wear (List.nodup_range' ) hn, h.chip]
      simp only [Device.mem_span hss hlen]
      simp [ChipCall.isReset, ChipCall.erases]

/-- The number of erases after a call: one for each sector that it erases. -/
theorem erases_step (h : Sound g r) (hin : x.2.InRange g) : (r.step x).device.stats.erases =
      if x.2.isReset then 0
      else r.device.stats.erases + (List.range g.sectorCount).countP fun s => x.2.erases g s := by
  obtain ⟨now, c⟩ := x
  show (r.device.call c).1.stats.erases = _
  cases c with
  | reset => rfl
  | hal op =>
    cases op with
    | read off len => simp [Device.call, Device.hal, Device.read, ChipCall.isReset, ChipCall.erases]
    | readQuiet off len => simp [Device.call, Device.hal, ChipCall.isReset, ChipCall.erases]
    | prog off data => simp [Device.call, Device.hal, Device.prog, ChipCall.isReset, ChipCall.erases]
    | erase off len =>
      obtain ⟨hlen, hin⟩ := hin
      have hss := sectorSize_pos hlen hin
      show (r.device.eraseFrom _).1.stats.erases = r.device.stats.erases + _
      rw [Device.eraseFrom_erases, h.chip]
      congr 1
      have hspan : ∀ s, ChipCall.erases g s (.hal (.erase off len)) =
          decide (s ∈ List.range' (off / g.sectorSize) (Device.spanCount g.sectorSize off len)) := by
        intro s
        simp only [Device.mem_span hss hlen]
        rfl
      have hlast : off / g.sectorSize + Device.spanCount g.sectorSize off len ≤ g.sectorCount := by
        have hend : (off + len - 1) / g.sectorSize < g.sectorCount := by
          rw [Nat.div_lt_iff_lt_mul hss, Nat.mul_comm]
          omega
        have hle : off / g.sectorSize ≤ (off + len - 1) / g.sectorSize :=
          Nat.div_le_div_right (by omega)
        rw [Device.spanCount_eq hss hlen]
        omega
      have hperm : ((List.range g.sectorCount).filter fun s =>
          decide (s ∈ List.range' (off / g.sectorSize) (Device.spanCount g.sectorSize off len))).Perm
          (List.range' (off / g.sectorSize) (Device.spanCount g.sectorSize off len)) := by
        refine (List.perm_ext_iff_of_nodup (List.nodup_range.filter _) List.nodup_range').mpr fun s => ?_
        rw [List.mem_filter, List.mem_range, decide_eq_true_eq, and_iff_right_iff_imp,
          List.mem_range'_1]
        omega
      simp only [hspan]
      rw [List.countP_eq_length_filter, hperm.length_eq]

theorem shown_step (hdvd : g.pageSize ∣ g.sectorSize) (hsmall : g.pageSize < 65536)
    (h : Sound g r) (hin : x.2.InRange g) {p : Nat} (hp : p < npages g) :
    decide (0 < (r.step x).player.shownAt p) =
      if x.2.wipes g (p / pagesPerSector g) then false
      else (decide (0 < r.player.shownAt p) || x.2.programs g p) := by
  obtain ⟨now, c⟩ := x
  have hplayer : (r.step (now, c)).player =
      (r.device.call c).2.foldl (fun h ev => h.applyEvent now ev) r.player := rfl
  rw [hplayer]
  cases c with
  | reset =>
    show decide (0 < (createHeatPlayer r.player.geometry now).shownAt p) = false
    rw [h.player]
    simp [HeatPlayer.shownAt, createHeatPlayer, hp]
  | hal op =>
    cases op with
    | read off len =>
      have hshown : (HeatPlayer.applyEvent now (.read off len (readFixed + readPer * len))
          r.player).shown = r.player.shown := HeatPlayer.bumpReads_shown _ _
      show decide (0 < (HeatPlayer.applyEvent now (.read off len (readFixed + readPer * len))
          r.player).shown[p]?.getD 0) = (decide (0 < r.player.shown[p]?.getD 0) || false)
      rw [hshown, Bool.or_false]
    | readQuiet off len => exact (Bool.or_false _).symm
    | prog off data =>
      obtain ⟨hlen, hin⟩ := hin
      obtain ⟨hps, -⟩ := pagesPerSector_pos hdvd (sectorSize_pos hlen hin)
      have hshown := HeatPlayer.progPages_shown (h := r.player) off
        (h.player ▸ hsmall) hlen (r.player.pagesOf off data.length)
        (fun q hq => (Device.mem_span (h.player ▸ hps) hlen).mp hq) (h.pages ▸ hp)
      have hmem : p ∈ r.player.pagesOf off data.length ↔
          off < (p + 1) * g.pageSize ∧ p * g.pageSize < off + data.length :=
        h.player ▸ Device.mem_span (h.player ▸ hps) hlen
      show decide (0 < (HeatPlayer.shownAt _ p)) = (decide (0 < r.player.shownAt p) || decide _)
      rw [← Bool.decide_or, decide_eq_decide, ← hmem]
      exact hshown
    | erase off len =>
      obtain ⟨hlen, hin⟩ := hin
      have hss := sectorSize_pos hlen hin
      obtain ⟨-, hpps⟩ := pagesPerSector_pos hdvd hss
      have hevents : ((r.device.call (.hal (.erase off len))).2.foldl
          (fun h ev => h.applyEvent now ev) r.player) =
          (List.range' (off / g.sectorSize) (Device.spanCount g.sectorSize off len)).foldl
            (fun h s => h.eraseSector s) r.player := by
        show ((r.device.eraseFrom _).2.foldl _ _) = _
        rw [Device.eraseFrom_events, List.foldl_map, h.chip]
        rfl
      rw [hevents, HeatPlayer.eraseAll_shown (h.player.symm ▸ hpps), h.player]
      simp only [Device.mem_span hss hlen]
      show _ = if decide _ = true then false else (decide _ || false)
      by_cases hcov : off < (p / pagesPerSector g + 1) * g.sectorSize ∧
          p / pagesPerSector g * g.sectorSize < off + len
      · simp [hcov]
      · simp [hcov]

theorem Sound.step (h : Sound g r) (x : ℚ × ChipCall) : Sound g (r.step x) where
  chip := (Device.call_geometry r.device x.2).trans h.chip
  player := (HeatPlayer.foldl_geometry _ (fun h ev => HeatPlayer.applyEvent_geometry x.1 ev h)
    _ _).trans h.player
  sectors := by
    show (r.device.call x.2).1.wear.length = _
    cases hc : x.2 with
    | reset => exact List.length_replicate.trans (congrArg _ h.chip)
    | hal op =>
      cases op with
      | read off len => exact h.sectors
      | readQuiet off len => exact h.sectors
      | prog off data => exact h.sectors
      | erase off len => exact (Device.eraseFrom_wear_length _ _).trans h.sectors
  pages := by
    have hpages : r.player.shown.length = npages r.player.geometry := h.player.symm ▸ h.pages
    exact (HeatPlayer.applyEvents_length _ hpages).trans (congrArg npages h.player)
  stats := by
    show (r.device.call x.2).1.stats = (r.log ++ (r.device.call x.2).2).foldl Stats.note {}
    rw [List.foldl_append, ← h.stats]
    exact Device.call_stats r.device x.2

/-- The simulated time in the statistics is that of the events since the last reset. -/
theorem note_simNs (log : List DevEvent) :
    (log.foldl Stats.note {}).simNs = ((since DevEvent.isReset log).map DevEvent.ns).sum := by
  induction log using List.reverseRecOn with
  | nil => rfl
  | append_singleton log ev ih =>
    rw [List.foldl_append, List.foldl_cons, List.foldl_nil, since_concat]
    cases ev with
    | reset => rfl
    | read off len ns => simp [Stats.note, DevEvent.isReset, ih, DevEvent.ns]
    | prog off len ns => simp [Stats.note, DevEvent.isReset, ih, DevEvent.ns]
    | erase s off len ns => simp [Stats.note, DevEvent.isReset, ih, DevEvent.ns]

/-- A byte programmed on page `p` is programmed by a call that meets the page. -/
theorem programs_of_byteTo {c : ChipCall} {a : Nat} {b : UInt8} (hps : 0 < g.pageSize)
    (hb : c.byteTo a = some b) : c.programs g (a / g.pageSize) = true := by
  cases c with
  | reset => cases hb
  | hal op =>
    cases op with
    | read off len => cases hb
    | readQuiet off len => cases hb
    | erase off len => cases hb
    | prog off data =>
      have hoff : off ≤ a := by
        by_contra hlt
        rw [ChipCall.byteTo, if_neg hlt] at hb
        cases hb
      rw [ChipCall.byteTo, if_pos hoff] at hb
      obtain ⟨hlen, -⟩ := List.getElem?_eq_some_iff.mp hb
      have hlow := Nat.div_mul_le_self a g.pageSize
      have hhigh : a < (a / g.pageSize + 1) * g.pageSize :=
        Nat.lt_mul_of_div_lt (Nat.lt_succ_self _) hps
      exact decide_eq_true ⟨by omega, by omega⟩

section
variable {now : ℚ} {xs : List (ℚ × ChipCall)}

theorem sound_run (g : Geometry) (now : ℚ) (xs : List (ℚ × ChipCall)) :
    Sound g (run step (start g now) xs) :=
  run_inv' (fun _ x h => h.step x) xs (Sound.start g now)

theorem flash_run (hin : ∀ x ∈ xs, x.2.InRange g) {a : Nat} (ha : a < g.sectorSize * g.sectorCount) :
    (run step (start g now) xs).device.flash a =
      ((since (ChipCall.wipes g (a / g.sectorSize)) (xs.map Prod.snd)).filterMap
        (ChipCall.byteTo a)).foldl (· &&& ·) 0xff := by
  have hcell := run_cell (P := Sound g) (f := fun r => r.device.flash a)
    (w := ChipCall.wipes g (a / g.sectorSize)) (z := 0xff)
    (u := fun b c => match c.byteTo a with
      | some b' => b &&& b'
      | none => b) Prod.snd
    (fun _ x hx h => ⟨h.step x, flash_step h hx ha⟩) (Sound.start g now) rfl
    (Along.of_forall hin _)
  rw [hcell, List.foldl_filterMap]
  congr 1
  funext b c
  cases c.byteTo a <;> rfl

/-- A sector's erase count after a run, in 32 bits. -/
theorem wear_run (now : ℚ) (hin : ∀ x ∈ xs, x.2.InRange g) {s : Nat} (hs : s < g.sectorCount) :
    (run step (start g now) xs).device.wear[s]? =
      some ((since ChipCall.isReset (xs.map Prod.snd)).countP (ChipCall.erases g s) % 4294967296) := by
  have hcell := run_cell (P := Sound g) (f := fun r => r.device.wear[s]?.getD 0)
    (w := ChipCall.isReset)
    (u := fun n c => if c.erases g s then (n + 1) % 4294967296 else n) (z := 0) Prod.snd
    (fun r x hx h => by
      obtain ⟨n, hget⟩ : ∃ n, r.device.wear[s]? = some n :=
        ⟨_, List.getElem?_eq_getElem (h.sectors.symm ▸ hs)⟩
      exact ⟨h.step x, by rw [wear_step h hx hs hget, hget]; rfl⟩)
    (Sound.start g now) (by simp [start, createNorDevice, hs]) (Along.of_forall hin _)
  have hmod := foldl_count_mod (ChipCall.erases g s) 4294967296
    (since ChipCall.isReset (xs.map Prod.snd)) 0
  rw [Nat.zero_mod, Nat.zero_add] at hmod
  have hlen := (sound_run g now xs).sectors
  rw [← hmod, ← hcell, List.getElem?_eq_getElem (hlen.symm ▸ hs)]
  rfl

theorem erases_run (hin : ∀ x ∈ xs, x.2.InRange g) :
    (run step (start g now) xs).device.stats.erases = ((List.range g.sectorCount).map fun s =>
      (since ChipCall.isReset (xs.map Prod.snd)).countP (ChipCall.erases g s)).sum := by
  have hcell := run_cell (P := Sound g) (f := fun r => r.device.stats.erases)
    (w := ChipCall.isReset) (z := 0)
    (u := fun n c => n + (List.range g.sectorCount).countP fun s => c.erases g s) Prod.snd
    (fun r x hx h => ⟨h.step x, erases_step h hx⟩) (Sound.start g now) rfl
    (Along.of_forall hin _)
  rw [hcell, sum_countP, ← List.foldl_map, List.sum_eq_foldl]

theorem shown_run (now : ℚ) (hdvd : g.pageSize ∣ g.sectorSize) (hsmall : g.pageSize < 65536)
    (hin : ∀ x ∈ xs, x.2.InRange g) {p : Nat} (hp : p < npages g) :
    0 < (run step (start g now) xs).player.shownAt p ↔
      ∃ c ∈ since (ChipCall.wipes g (p / pagesPerSector g)) (xs.map Prod.snd), c.programs g p := by
  have hcell := run_cell (P := Sound g) (f := fun r => decide (0 < r.player.shownAt p))
    (w := ChipCall.wipes g (p / pagesPerSector g)) (z := false)
    (u := fun b c => b || c.programs g p) Prod.snd
    (fun r x hx h => ⟨h.step x, shown_step hdvd hsmall h hx hp⟩) (Sound.start g now)
    (by simp [start, HeatPlayer.shownAt, createHeatPlayer, hp]) (Along.of_forall hin _)
  rw [foldl_or, Bool.false_or] at hcell
  rw [← List.any_eq_true, ← hcell, decide_eq_true_iff]

/-- **History.** The chip and the player show exactly the calls since the last erase or reset. -/
theorem follows_history (hdvd : g.pageSize ∣ g.sectorSize) (hsmall : g.pageSize < 65536) (now : ℚ)
    (xs : List (ℚ × ChipCall)) (hin : ∀ x ∈ xs, x.2.InRange g)
    (hwear : ∀ s < g.sectorCount, (xs.map Prod.snd).countP (ChipCall.erases g s) < 4294967296) :
    (run step (start g now) xs).Follows g (xs.map Prod.snd) := by
  have hsound := sound_run g now xs
  have hwrap (s : Nat) (hs : s < g.sectorCount) :
      (since ChipCall.isReset (xs.map Prod.snd)).countP (ChipCall.erases g s) < 4294967296 :=
    lt_of_le_of_lt ((since_suffix _ _).sublist.countP_le) (hwear s hs)
  have hcount (s : Nat) (hs : s < g.sectorCount) :=
    (wear_run now hin hs).trans (congrArg some (Nat.mod_eq_of_lt (hwrap s hs)))
  have hlist : (run step (start g now) xs).device.wear = (List.range g.sectorCount).map fun s =>
      (since ChipCall.isReset (xs.map Prod.snd)).countP (ChipCall.erases g s) := by
    refine List.ext_getElem? fun s => ?_
    rcases Nat.lt_or_ge s g.sectorCount with hs | hs
    · rw [hcount s hs]
      simp [hs]
    · rw [List.getElem?_eq_none (hsound.sectors.symm ▸ hs), List.getElem?_eq_none (by simpa using hs)]
  have hshown (p : Nat) (hp : p < npages g) := shown_run now hdvd hsmall hin hp
  refine {
    flash := fun a ha => flash_run hin ha
    wear := hcount
    stats := hsound.stats
    erases := (erases_run hin).trans (congrArg List.sum hlist).symm
    simNs := (congrArg Stats.simNs hsound.stats).trans (note_simNs _)
    pages := hsound.pages
    shown := hshown
    blank := ?_ }
  intro p hp h0 a hap
  have hpps : 0 < pagesPerSector g := Nat.pos_of_ne_zero fun h => by simp [npages, h] at hp
  have hss : 0 < g.sectorSize := Nat.pos_of_ne_zero fun h => by simp [pagesPerSector, h] at hpps
  obtain ⟨hps, -⟩ := pagesPerSector_pos hdvd hss
  have hsize : pagesPerSector g * g.pageSize = g.sectorSize := Nat.div_mul_cancel hdvd
  have ha : a < g.sectorSize * g.sectorCount := by
    have hlt : a < npages g * g.pageSize := Nat.lt_mul_of_div_lt (hap.trans_lt hp) hps
    rwa [npages, Nat.mul_assoc, hsize, Nat.mul_comm] at hlt
  have hsector : a / g.sectorSize = p / pagesPerSector g := by
    rw [← hap, Nat.div_div_eq_div_mul, Nat.mul_comm, hsize]
  -- no program since the last wipe has met the page, so none has a byte for `a`
  have hnone : (since (ChipCall.wipes g (a / g.sectorSize)) (xs.map Prod.snd)).filterMap
      (ChipCall.byteTo a) = [] := by
    refine List.filterMap_eq_nil_iff.mpr fun c hc => ?_
    by_contra hne
    obtain ⟨b, hb⟩ := Option.ne_none_iff_exists'.mp hne
    have hprog := programs_of_byteTo hps hb
    have hpos := (hshown p hp).mpr ⟨c, hsector ▸ hc, hap ▸ hprog⟩
    omega
  rw [flash_run hin ha, hnone]
  rfl

end

/-- Two programs of one page, an erase of the other sector, and a wipe before them. -/
theorem follows_history_run :
    (run step (start ⟨512, 2, 256, 1⟩ 0) [(0, .reset), (1, .hal (.prog 3 [0x0f])),
      (2, .hal (.erase 512 1)), (3, .hal (.prog 3 [0xf1]))]).Follows ⟨512, 2, 256, 1⟩
      [.reset, .hal (.prog 3 [0x0f]), .hal (.erase 512 1), .hal (.prog 3 [0xf1])] :=
  follows_history (by decide) (by decide) 0 [(0, .reset), (1, .hal (.prog 3 [0x0f])),
    (2, .hal (.erase 512 1)), (3, .hal (.prog 3 [0xf1]))]
    (by
      intro x hx
      simp only [List.mem_cons, List.not_mem_nil, or_false] at hx
      rcases hx with rfl | rfl | rfl | rfl <;> simp [ChipCall.InRange])
    (by decide +kernel)

end Rig
end FlashVis

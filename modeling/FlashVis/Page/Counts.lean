import FlashVis.Worker.Host

/-!
# Page classes counted three times (viz.js, session-worker.js)

The worker counts the classes of a live map for TELEMETRY (`countClasses`), the renderer counts
them again over the die (`Viz.liveCounts`) and for every sector (`Viz.sectorInfo`).

* `ClassMap`        a class map that a driver can report for a geometry;
* `counters_agree`  the three agree exactly on the maps without slack.
-/

namespace FlashVis

/-- The role of a sector in the inspector. -/
inductive SectorRole where
  | metadata | obsolete | liveData | allocated | inFlight | erased
  deriving DecidableEq, Repr

structure SectorInfo where
  progPages : Nat
  bytes : Nat
  live : Nat
  obs : Nat
  meta_ : Nat
  slack : Nat
  role : SectorRole
  wear : Nat
  deriving DecidableEq, Repr

structure LiveCounts where
  erased : Nat
  metadata : Nat
  obsolete : Nat
  live : Nat
  deriving DecidableEq, Repr

/-- What the renderer counts from. -/
structure Viz where
  geometry : Geometry
  shown : List Nat
  lastMap : Option (List Nat) := none
  wearArr : List Nat := []

namespace Viz

/-- The class of page `p` in the last map applied. -/
def classOf (v : Viz) (p : Nat) : Option Nat := v.lastMap.bind fun map => map[p]?

def shownAt (v : Viz) (p : Nat) : Nat := v.shown[p]?.getD 0

/-- The pages of sector `s`. -/
def pagesOf (v : Viz) (s : Nat) : List Nat :=
  List.range' (s * pagesPerSector v.geometry) (pagesPerSector v.geometry)

/-- A class the inspector counts as metadata: slack (5) is not one. -/
def isMeta (c : Nat) : Bool := c != 5 && (c == 1 || decide (4 ≤ c))

/-- `sectorInfo` -/
def sectorInfo (v : Viz) (s : Nat) : SectorInfo :=
  let pages := v.pagesOf s
  let count (q : Nat → Bool) := pages.countP fun p => (v.classOf p).any q
  let progPages := pages.countP fun p => 0 < v.shownAt p
  let live := count (· == 3)
  let obs := count (· == 2)
  let slack := count (· == 5)
  let meta_ := count isMeta
  { progPages := progPages, bytes := (pages.map v.shownAt).sum
    live := live, obs := obs, meta_ := meta_, slack := slack
    role :=
      if live + obs < meta_ then .metadata
      else if live < obs then .obsolete
      else if 0 < live then .liveData
      else if 0 < slack then .allocated
      else if 0 < progPages then .inFlight
      else .erased
    wear := v.wearArr[s]?.getD 0 }

/-- The cell of `liveCounts`' table that a class is counted in. -/
def cellOf (c : Nat) : Nat := if c = 5 then 0 else min c 4

/-- `liveCounts` -/
def liveCounts (v : Viz) : LiveCounts :=
  let t (k : Nat) := (List.range (npages v.geometry)).countP fun p =>
    decide (0 < v.shownAt p) && (v.classOf p).any fun c => cellOf c == k
  { erased := t 0, metadata := t 1 + t 4, obsolete := t 2, live := t 3 }

/-- The sum of a count over all sectors. -/
def sumSectors (v : Viz) (f : SectorInfo → Nat) : Nat :=
  ((List.range v.geometry.sectorCount).map fun s => f (v.sectorInfo s)).sum

end Viz

/-- A class map for the geometry `g`, in the classes that drivers report. -/
structure ClassMap (g : Geometry) where
  classes : List Nat
  length_eq : classes.length = npages g
  le_five : ∀ c ∈ classes, c ≤ 5

/-- The worker's counts, the renderer's and the sums over the inspector's sectors are the same, with
class 4 among the metadata and class 5 nowhere. -/
structure CountersAgree (v : Viz) (w : LivenessCounts) (map : List Nat) : Prop where
  live : w.live = v.liveCounts.live ∧ v.liveCounts.live = v.sumSectors (·.live)
  obsolete : w.obsolete = v.liveCounts.obsolete ∧ v.liveCounts.obsolete = v.sumSectors (·.obs)
  metadata : w.metadata = v.liveCounts.metadata ∧ v.liveCounts.metadata = v.sumSectors (·.meta_)
  taxonomy : w.metadata = map.count 1 + map.count 4

namespace Viz
variable {v : Viz}

theorem sumSectors_count (q : Nat → Bool) (f : SectorInfo → Nat)
    (hf : ∀ s, f (v.sectorInfo s) = (v.pagesOf s).countP q) :
    v.sumSectors f = (List.range (npages v.geometry)).countP q := by
  unfold sumSectors npages
  simp only [hf, pagesOf]
  generalize pagesPerSector v.geometry = n
  induction v.geometry.sectorCount with
  | zero => simp
  | succ k ih =>
    rw [List.range_succ, List.map_append, List.sum_append, ih, Nat.succ_mul, List.range_add,
      List.countP_append, List.map_singleton, List.sum_singleton, List.range'_eq_map_range]

theorem count_classes {map : List Nat} (hmap : v.lastMap = some map)
    (hlen : map.length = npages v.geometry) (q : Nat → Bool) :
    ((List.range (npages v.geometry)).countP fun p => (v.classOf p).any q) = map.countP q := by
  rw [← hlen]
  simp only [classOf, hmap, Option.bind_some]
  clear hmap hlen
  induction map with
  | nil => rfl
  | cons c map ih =>
    rw [List.length_cons, List.range_succ_eq_map, List.countP_cons, List.countP_map, List.countP_cons]
    simp only [Function.comp_def, List.getElem?_cons_succ, List.getElem?_cons_zero, Option.any_some, ih]

/-- With bytes shown on every page that is not erased, a cell of `liveCounts` other than the erased
one counts its classes. -/
theorem count_shown {map : List Nat} (hmap : v.lastMap = some map)
    (hlen : map.length = npages v.geometry)
    (hshown : ∀ p c, map[p]? = some c → c ≠ 0 → 0 < v.shownAt p) {k : Nat} (hk : k ≠ 0) :
    ((List.range (npages v.geometry)).countP fun p =>
      decide (0 < v.shownAt p) && (v.classOf p).any fun c => cellOf c == k) =
      map.countP fun c => cellOf c == k := by
  rw [← count_classes hmap hlen]
  refine List.countP_congr fun p _ => ?_
  simp only [Bool.and_eq_true, decide_eq_true_eq, and_iff_right_iff_imp]
  intro hany
  obtain ⟨c, hc, hcell⟩ : ∃ c, v.classOf p = some c ∧ (cellOf c == k) = true := by
    cases hc : v.classOf p with
    | none => simp [hc] at hany
    | some c => exact ⟨c, rfl, by simpa [hc] using hany⟩
  refine hshown p c (by simpa [classOf, hmap] using hc) ?_
  rintro rfl
  have hk0 : 0 = k := by simpa [cellOf] using hcell
  exact hk hk0.symm

end Viz

variable {σ : Type}

theorem Worker.counts_of_walk {H : Host σ} {w w' : Worker σ} {map : List Nat}
    (hwalk : w.ensureLiveness H = ⟨w', none⟩) (hgen : w.livenessGen < w'.livenessGen)
    (hcached : w'.cachedMap = some map) : ∃ pps, w'.cachedCounts = countClasses pps map := by
  unfold Worker.ensureLiveness at hwalk
  split at hwalk
  · cases hwalk
    omega
  split at hwalk
  · cases hwalk
    omega
  dsimp only at hwalk
  split at hwalk
  · cases hwalk
  · cases hwalk
    cases hcached
    exact ⟨_, rfl⟩
  · cases hwalk
    cases hcached

theorem countP_or (map : List Nat) {j k : Nat} (hjk : j ≠ k) :
    (map.countP fun c => c == j || c == k) = map.count j + map.count k := by
  induction map with
  | nil => rfl
  | cons c map ih =>
    simp only [List.countP_cons, List.count_cons, ih]
    by_cases hj : c = j
    · subst hj
      simp [hjk]
      omega
    · by_cases hk : c = k <;> simp [hj, hk, hjk.symm]
      omega

section
variable {g : Geometry} (m : ClassMap g)
include m

/-- The worker counts slack among the metadata. -/
theorem worker_metadata (pps : Nat) : (countClasses pps m.classes).metadata =
    m.classes.count 1 + m.classes.count 4 + m.classes.count 5 := by
  show (m.classes.countP fun c => c == 1 || decide (4 ≤ c)) = _
  have hle := m.le_five
  revert hle
  generalize m.classes = map
  intro hle
  induction map with
  | nil => rfl
  | cons c map ih =>
    have hc : c ≤ 5 := hle c List.mem_cons_self
    rw [List.countP_cons, ih fun d hd => hle d (List.mem_cons_of_mem c hd)]
    simp only [List.count_cons]
    interval_cases c <;> simp <;> omega

/-- The inspector does not. -/
theorem isMeta_count : m.classes.countP Viz.isMeta = m.classes.count 1 + m.classes.count 4 := by
  rw [← countP_or m.classes (by decide)]
  refine List.countP_congr fun c hc => ?_
  have hle := m.le_five c hc
  interval_cases c <;> decide

end

/-- The three counts agree exactly on the maps without slack, which the worker counts as
metadata. -/
theorem counters_agree {H : Host σ} {w w' : Worker σ} {v : Viz} (m : ClassMap v.geometry)
    (hwalk : w.ensureLiveness H = ⟨w', none⟩) (hgen : w.livenessGen < w'.livenessGen)
    (hcached : w'.cachedMap = some m.classes) (hmap : v.lastMap = some m.classes)
    (hshown : ∀ p c, m.classes[p]? = some c → c ≠ 0 → 0 < v.shownAt p) :
    CountersAgree v w'.cachedCounts m.classes ↔ 5 ∉ m.classes := by
  obtain ⟨pps, hcounts⟩ := Worker.counts_of_walk hwalk hgen hcached
  rw [hcounts]
  have hlen := m.length_eq
  have hsector (q : Nat → Bool) (f : SectorInfo → Nat)
      (hf : ∀ s, f (v.sectorInfo s) = (v.pagesOf s).countP fun p => (v.classOf p).any q) :
      v.sumSectors f = m.classes.countP q :=
    (Viz.sumSectors_count _ f hf).trans (Viz.count_classes hmap hlen q)
  have hlive := hsector (· == 3) (·.live) fun _ => rfl
  have hobs := hsector (· == 2) (·.obs) fun _ => rfl
  have hmeta := hsector Viz.isMeta (·.meta_) fun _ => rfl
  have hcell {k : Nat} (hk : 0 < k) (hk5 : k < 4) :
      (m.classes.countP fun c => Viz.cellOf c == k) = m.classes.count k := by
    refine List.countP_congr fun c hc => ?_
    have hle := m.le_five c hc
    simp only [Viz.cellOf, beq_iff_eq]
    split <;> omega
  have hcell4 : (m.classes.countP fun c => Viz.cellOf c == 4) = m.classes.count 4 := by
    refine List.countP_congr fun c hc => ?_
    have hle := m.le_five c hc
    simp only [Viz.cellOf, beq_iff_eq]
    split <;> omega
  have hshownCell {k : Nat} (hk : k ≠ 0) := Viz.count_shown hmap hlen hshown hk
  have hrlive : v.liveCounts.live = m.classes.count 3 :=
    (hshownCell (by decide)).trans (hcell (by decide) (by decide))
  have hrobs : v.liveCounts.obsolete = m.classes.count 2 :=
    (hshownCell (by decide)).trans (hcell (by decide) (by decide))
  have hrmeta : v.liveCounts.metadata = m.classes.count 1 + m.classes.count 4 :=
    congrArg₂ (· + ·) ((hshownCell (by decide)).trans (hcell (by decide) (by decide)))
      ((hshownCell (by decide)).trans hcell4)
  have hwmeta := worker_metadata m pps
  have hslack : m.classes.count 5 = 0 ↔ 5 ∉ m.classes := List.count_eq_zero
  rw [← hslack]
  constructor
  · intro h
    have htax := h.taxonomy
    omega
  · intro h5
    have hwm : (countClasses pps m.classes).metadata =
        m.classes.count 1 + m.classes.count 4 := by omega
    exact {
      live := ⟨hrlive.symm, hrlive.trans hlive.symm⟩
      obsolete := ⟨hrobs.symm, hrobs.trans hobs.symm⟩
      metadata := ⟨hwm.trans hrmeta.symm, hrmeta.trans (hmeta.trans (isMeta_count m)).symm⟩
      taxonomy := hwm }

/-- A module whose driver reports a fixed class map. -/
def mapWasm (classes : List UInt8) : Wasm Unit where
  load _ _ := ()
  caps _ := FF_CAP_LIVE_MAP
  hasExport _ _ := true
  call _ _ _ := ⟨.ok ⟨0, classes⟩, (), []⟩

/-- One sector of two pages. -/
def pairGeometry : Geometry := ⟨512, 1, 256, 1⟩

/-- A worker over `mapWasm` that has not walked yet. -/
def unwalked : Worker Unit :=
  { runner := some { fsId := "fatfs", build := 0, sys := (), device := createNorDevice pairGeometry }
    geometry := some pairGeometry, mapDirty := true, clock := 1000, lastLivenessWalk := 0 }

def mapHost (classes : List UInt8) : Host Unit :=
  { wasm := mapWasm classes, pow := fun _ => 1, compileError := fun _ => none }

/-- The worker after a walk. -/
def walked (classes : List UInt8) : Worker Unit := (unwalked.ensureLiveness (mapHost classes)).w

theorem walked_eq {classes : List UInt8}
    (h : (unwalked.ensureLiveness (mapHost classes)).thrown = none) :
    unwalked.ensureLiveness (mapHost classes) = ⟨walked classes, none⟩ := by
  rw [← h]
  rfl

/-- The renderer over the same map, with a byte shown on both pages. -/
def pairViz (classes : List Nat) : Viz :=
  { geometry := pairGeometry, shown := [1, 1], lastMap := some classes }

def pairMap (a b : Nat) (ha : a ≤ 5) (hb : b ≤ 5) : ClassMap pairGeometry where
  classes := [a, b]
  length_eq := rfl
  le_five := by
    intro c hc
    obtain rfl | rfl : c = a ∨ c = b := by simpa using hc
    exacts [ha, hb]

theorem pairViz_shown {a b : Nat} :
    ∀ p c, [a, b][p]? = some c → c ≠ 0 → 0 < (pairViz [a, b]).shownAt p := by
  intro p c hp _
  match p with
  | 0 => exact Nat.one_pos
  | 1 => exact Nat.one_pos
  | p + 2 => cases hp

theorem counters_agree_pair : CountersAgree (pairViz [3, 4]) (walked [3, 4]).cachedCounts [3, 4] :=
  (counters_agree (H := mapHost [3, 4]) (w := unwalked) (v := pairViz [3, 4])
    (pairMap 3 4 (by decide) (by decide))
    (walked_eq (by decide +kernel)) (by decide +kernel) (by decide +kernel) rfl pairViz_shown).mpr (by decide)

/-- A page of slack is metadata to the worker alone. -/
theorem slack_counted : ¬∀ (H : Host Unit) (w w' : Worker Unit) (v : Viz) (m : ClassMap v.geometry),
    w.ensureLiveness H = ⟨w', none⟩ → w.livenessGen < w'.livenessGen →
    w'.cachedMap = some m.classes → v.lastMap = some m.classes →
    (∀ p c, m.classes[p]? = some c → c ≠ 0 → 0 < v.shownAt p) →
    CountersAgree v w'.cachedCounts m.classes := by
  intro h
  have hagree := h (mapHost [3, 5]) unwalked (walked [3, 5]) (pairViz [3, 5])
    (pairMap 3 5 (by decide) (by decide))
    (walked_eq (by decide +kernel)) (by decide +kernel) (by decide +kernel) rfl pairViz_shown
  exact absurd hagree.taxonomy (by decide +kernel)

end FlashVis

import FlashVis.Lib.Decay
import FlashVis.Lib.Machine
import FlashVis.Player.Granularity

/-!
# Heat between pulls (worker-heat.js: bump, snapshotHeat)

Heat decays when it is pulled, from the last pull on; a bump adds to it undecayed.  Times are in
ticks of `u` milliseconds, and `Math.pow(0.5, ..)` is exact (`Decay`).

* `HeatPlayer.Touches`   what a call that does not pull makes of the heat;
* `HeatPlayer.snapshot_fades`  what a pull makes of it, as long as no cell goes cold;
* `HeatPlayer.heat_pulled`     heat is the sum of the decayed bumps exactly when every bump is made
                               in the same tick as the pull before it.
-/

namespace FlashVis
open Machine Decaying

/-- A call on the heat player. -/
inductive HeatCall where
  | step (ps : PStep)
  | event (ev : DevEvent)
  | snapshot
  deriving DecidableEq, Repr

namespace DevEvent

/-- How often the event bumps the read heat of page `p`. -/
def reads (pageSize p : Nat) : DevEvent → Nat
  | .read off len _ =>
    (List.range' (off / pageSize) (Device.spanCount pageSize off len)).count p
  | _ => 0

def progs (pageSize p : Nat) : DevEvent → Nat
  | .prog off len _ =>
    (List.range' (off / pageSize) (Device.spanCount pageSize off len)).count p
  | _ => 0

end DevEvent

namespace HeatCall

/-- How often the call bumps the read heat of page `p`. -/
def reads (pageSize p : Nat) : HeatCall → Nat
  | .step (.read _ q) => if q = p then 1 else 0
  | .step (.whole ev) | .event ev => ev.reads pageSize p
  | _ => 0

def progs (pageSize p : Nat) : HeatCall → Nat
  | .step (.prog _ q _ _) => if q = p then 1 else 0
  | .step (.whole ev) | .event ev => ev.progs pageSize p
  | _ => 0

def isReset : HeatCall → Bool
  | .step (.whole .reset) | .event .reset => true
  | _ => false

end HeatCall

/-- A call, when it was made, and when heat was last pulled or reset before it. -/
structure Bump where
  pulled : Nat
  time : Nat
  call : HeatCall

/-- The calls since the last reset, and the time of the last pull or reset. -/
structure Ledger where
  last : Nat
  bumps : List Bump := []

/-- One more call in the ledger. -/
def Ledger.note (l : Ledger) (x : Nat × HeatCall) : Ledger :=
  if x.2.isReset then { last := x.1 }
  else if x.2 = .snapshot then { l with last := x.1 }
  else { l with bumps := l.bumps ++ [⟨l.last, x.1, x.2⟩] }

namespace HeatPlayer

def readAt (h : HeatPlayer) (p : Nat) : ℚ := h.readHeat[p]?.getD 0

def progAt (h : HeatPlayer) (p : Nat) : ℚ := h.progHeat[p]?.getD 0

section
variable (pow : ℚ → ℚ) (scale u : ℚ)

/-- What is left of a bump after `n` ticks. -/
def left (n : Nat) : ℚ := pow (n * u / halfLife scale)

/-- A call at tick `x.1`. -/
def handle (h : HeatPlayer) (x : Nat × HeatCall) : HeatPlayer :=
  match x.2 with
  | .step ps => h.applyStep (x.1 * u) ps
  | .event ev => h.applyEvent (x.1 * u) ev
  | .snapshot => h.snapshotHeat pow (x.1 * u) scale

/-- No hot cell falls below `HEAT_EPS` in this call. -/
def Warm (h : HeatPlayer) (x : Nat × HeatCall) : Prop :=
  x.2 = .snapshot → ∀ p ∈ h.glowHot, p < npages h.geometry →
    HEAT_EPS ≤ (h.readAt p + h.progAt p) * pow ((x.1 * u - h.lastDecayAt) / halfLife scale)

end

/-- A call that bumps page `p` for reads `r p` times and for programs `q p` times. -/
structure Touches (h h' : HeatPlayer) (r q : Nat → Nat) : Prop where
  geometry : h'.geometry = h.geometry
  stamp : h'.lastDecayAt = h.lastDecayAt
  readLength : h'.readHeat.length = h.readHeat.length
  progLength : h'.progHeat.length = h.progHeat.length
  read : ∀ p < h.readHeat.length, h'.readAt p = h.readAt p + r p
  prog : ∀ p < h.progHeat.length, h'.progAt p = h.progAt p + q p
  nodup : h.glowHot.Nodup → h'.glowHot.Nodup
  hot : ∀ p, p ∈ h.glowHot ∨ 0 < r p + q p → p ∈ h'.glowHot

variable {h h' : HeatPlayer} {r q : Nat → Nat}

theorem addHot_nodup {p : Nat} {l : List Nat} (hl : l.Nodup) : (addHot p l).Nodup := by
  unfold addHot
  split
  · exact hl
  · rename_i hp
    exact List.nodup_append.mpr ⟨hl, List.nodup_singleton p,
      fun a ha b hb hab => hp (List.mem_singleton.mp hb ▸ hab ▸ ha)⟩

theorem mem_addHot {p a : Nat} {l : List Nat} : a ∈ addHot p l ↔ a ∈ l ∨ a = p := by
  unfold addHot
  split
  · rename_i hp
    constructor
    · exact Or.inl
    · rintro (h | rfl)
      exacts [h, hp]
  · rw [List.mem_append, List.mem_singleton]

theorem modify_getD {l : List ℚ} {p a : Nat} (ha : a < l.length) :
    (l.modify p (· + HEAT_ADD))[a]?.getD 0 = l[a]?.getD 0 + ((if p = a then 1 else 0 : Nat) : ℚ) := by
  rw [List.getElem?_modify, List.getElem?_eq_getElem ha]
  split
  · simp [HEAT_ADD]
  · simp

theorem Touches.refl (h : HeatPlayer) : Touches h h 0 0 where
  geometry := rfl
  stamp := rfl
  readLength := rfl
  progLength := rfl
  read _ _ := by simp
  prog _ _ := by simp
  nodup := id
  hot p hp := by simpa using hp

theorem Touches.trans {h'' : HeatPlayer} {r' q' : Nat → Nat} (a : Touches h h' r q)
    (b : Touches h' h'' r' q') : Touches h h'' (r + r') (q + q') where
  geometry := b.geometry.trans a.geometry
  stamp := b.stamp.trans a.stamp
  readLength := b.readLength.trans a.readLength
  progLength := b.progLength.trans a.progLength
  read p hp := by
    rw [b.read p (a.readLength.symm ▸ hp), a.read p hp, Pi.add_apply]
    push_cast
    ring
  prog p hp := by
    rw [b.prog p (a.progLength.symm ▸ hp), a.prog p hp, Pi.add_apply]
    push_cast
    ring
  nodup hl := b.nodup (a.nodup hl)
  hot p hp := by
    refine b.hot p ?_
    simp only [Pi.add_apply] at hp
    by_cases hr : 0 < r' p + q' p
    · exact .inr hr
    · exact .inl (a.hot p (hp.imp_right fun h => by omega))

theorem bumpRead_touches (p : Nat) (h : HeatPlayer) :
    Touches h (h.bumpRead p) (fun a => if p = a then 1 else 0) 0 where
  geometry := rfl
  stamp := rfl
  readLength := List.length_modify _ _ _
  progLength := rfl
  read _ ha := modify_getD ha
  prog _ _ := by simp [progAt, bumpRead]
  nodup := addHot_nodup
  hot a ha := by
    refine mem_addHot.mpr (ha.imp_right fun h => ?_)
    by_contra hne
    simp [Ne.symm hne] at h

theorem progPage_touches (p off len : Nat) (h : HeatPlayer) :
    Touches h (h.progPage p off len) 0 (fun a => if p = a then 1 else 0) where
  geometry := rfl
  stamp := rfl
  readLength := rfl
  progLength := List.length_modify _ _ _
  read _ _ := by simp [readAt, progPage, bumpProg]
  prog _ ha := modify_getD ha
  nodup := addHot_nodup
  hot a ha := by
    refine mem_addHot.mpr (ha.imp_right fun h => ?_)
    by_contra hne
    simp [Ne.symm hne] at h

theorem foldl_touches {f : HeatPlayer → Nat → HeatPlayer} {e d : Nat → Nat → Nat}
    (hf : ∀ h p, Touches h (f h p) (e p) (d p)) (l : List Nat) (h : HeatPlayer) :
    Touches h (l.foldl f h) (fun a => (l.map (e · a)).sum) (fun a => (l.map (d · a)).sum) := by
  induction l generalizing h with
  | nil => exact Touches.refl h
  | cons p l ih => exact (hf h p).trans (ih (f h p))

theorem sum_hits (l : List Nat) (a : Nat) : (l.map fun p => if p = a then 1 else 0).sum = l.count a := by
  induction l with
  | nil => rfl
  | cons p l ih =>
    rw [List.map_cons, List.sum_cons, ih, List.count_cons]
    simp only [beq_iff_eq]
    omega

theorem zero_hits (l : List Nat) (a : Nat) : (l.map fun p => (0 : Nat → Nat → Nat) p a).sum = 0 := by
  induction l with
  | nil => rfl
  | cons p l ih => rw [List.map_cons, List.sum_cons, ih]; rfl

theorem applyEvent_touches {ev : DevEvent} (hev : ev ≠ .reset) (now : ℚ) (h : HeatPlayer) :
    Touches h (h.applyEvent now ev) (ev.reads h.geometry.pageSize ·)
      (ev.progs h.geometry.pageSize ·) := by
  cases ev with
  | reset => exact absurd rfl hev
  | erase s off len ns => exact { Touches.refl h with }
  | read off len ns =>
    have hfold := foldl_touches (e := fun p a => if p = a then 1 else 0) (f := fun h p => h.bumpRead p)
      (d := 0) (fun h p => bumpRead_touches p h) (h.pagesOf off len) h
    simp only [sum_hits, zero_hits] at hfold
    exact hfold
  | prog off len ns =>
    have hfold := foldl_touches (d := fun p a => if p = a then 1 else 0)
      (f := fun h p => h.progPage p off len) (e := 0) (fun h p => progPage_touches p off len h)
      (h.pagesOf off len) h
    simp only [sum_hits, zero_hits] at hfold
    exact hfold

theorem handle_touches (pow : ℚ → ℚ) (scale u : ℚ) {x : Nat × HeatCall} (hreset : x.2.isReset = false)
    (hpull : x.2 ≠ .snapshot) (h : HeatPlayer) :
    Touches h (h.handle pow scale u x) (x.2.reads h.geometry.pageSize ·)
      (x.2.progs h.geometry.pageSize ·) := by
  obtain ⟨t, c⟩ := x
  cases c with
  | snapshot => exact absurd rfl hpull
  | event ev =>
    refine applyEvent_touches ?_ _ h
    rintro rfl
    cases hreset
  | step ps =>
    cases ps with
    | erase ns s => exact { Touches.refl h with }
    | prog ns q off len => exact progPage_touches q off len h
    | read ns q => exact bumpRead_touches q h
    | whole ev =>
      refine applyEvent_touches ?_ _ h
      rintro rfl
      cases hreset

/-- Cells scaled by a factor each, none of which goes cold. -/
structure Fades (h h' : HeatPlayer) (f : Nat → ℚ) : Prop where
  geometry : h'.geometry = h.geometry
  stamp : h'.lastDecayAt = h.lastDecayAt
  readLength : h'.readHeat.length = h.readHeat.length
  progLength : h'.progHeat.length = h.progHeat.length
  read : ∀ p < h.readHeat.length, h'.readAt p = h.readAt p * f p
  prog : ∀ p < h.progHeat.length, h'.progAt p = h.progAt p * f p
  nodup : h.glowHot.Nodup → h'.glowHot.Nodup
  hot : ∀ p < h.readHeat.length, p ∈ h.glowHot → p ∈ h'.glowHot

theorem Fades.refl (h : HeatPlayer) : Fades h h 1 where
  geometry := rfl
  stamp := rfl
  readLength := rfl
  progLength := rfl
  read _ _ := (mul_one _).symm
  prog _ _ := (mul_one _).symm
  nodup := id
  hot _ _ := id

theorem Fades.trans {h'' : HeatPlayer} {f g : Nat → ℚ} (a : Fades h h' f) (b : Fades h' h'' g) :
    Fades h h'' (f * g) where
  geometry := b.geometry.trans a.geometry
  stamp := b.stamp.trans a.stamp
  readLength := b.readLength.trans a.readLength
  progLength := b.progLength.trans a.progLength
  read p hp := by rw [b.read p (a.readLength.symm ▸ hp), a.read p hp, Pi.mul_apply, mul_assoc]
  prog p hp := by rw [b.prog p (a.progLength.symm ▸ hp), a.prog p hp, Pi.mul_apply, mul_assoc]
  nodup hl := b.nodup (a.nodup hl)
  hot p hp hmem := b.hot p (a.readLength.symm ▸ hp) (a.hot p hp hmem)

theorem set_getD {l : List ℚ} {p a : Nat} (k : ℚ) (ha : a < l.length) :
    (l.set p (l[p]?.getD 0 * k))[a]?.getD 0 = l[a]?.getD 0 * if p = a then k else 1 := by
  rw [List.getElem?_set]
  split
  · rename_i hpa
    subst hpa
    rw [if_pos ha]
    rfl
  · rw [mul_one]

theorem decayCell_fades {k : ℚ} {p : Nat} (hlen : h.readHeat.length = h.progHeat.length)
    (hwarm : p < h.readHeat.length → HEAT_EPS ≤ (h.readAt p + h.progAt p) * k) :
    Fades h (h.decayCell k p) (fun a => if p = a then k else 1) := by
  unfold decayCell
  dsimp only
  split
  · rename_i hcold
    have hout : h.readHeat.length ≤ p := by
      by_contra hin
      have := hwarm (Nat.lt_of_not_le hin)
      rw [add_mul] at this
      exact absurd hcold (not_lt.mpr this)
    have hne (a : Nat) (ha : a < h.readHeat.length) : p ≠ a := by omega
    exact {
      geometry := rfl
      stamp := rfl
      readLength := List.length_set
      progLength := List.length_set
      read := fun a ha => by simp [readAt, hne a ha]
      prog := fun a ha => by simp [progAt, hne a (hlen.symm ▸ ha)]
      nodup := fun hl => hl.filter _
      hot := fun a ha hmem => List.mem_filter.mpr ⟨hmem, by simp [Ne.symm (hne a ha)]⟩ }
  · exact {
      geometry := rfl
      stamp := rfl
      readLength := List.length_set
      progLength := List.length_set
      read := fun a ha => set_getD k ha
      prog := fun a ha => set_getD k ha
      nodup := id
      hot := fun _ _ => id }

theorem decayCells_fades {k : ℚ} {l : List Nat} (hl : l.Nodup)
    (hlen : h.readHeat.length = h.progHeat.length)
    (hwarm : ∀ p ∈ l, p < h.readHeat.length → HEAT_EPS ≤ (h.readAt p + h.progAt p) * k) :
    Fades h (l.foldl (fun h p => h.decayCell k p) h) (fun a => if a ∈ l then k else 1) := by
  induction l generalizing h with
  | nil => exact Fades.refl h
  | cons p l ih =>
    obtain ⟨hp, hl⟩ := List.nodup_cons.mp hl
    have hone := decayCell_fades (p := p) hlen (hwarm p List.mem_cons_self)
    have hlen' := hone.readLength.trans (hlen.trans hone.progLength.symm)
    have hrest := ih (h := h.decayCell k p) hl hlen' fun q hq hqlen => by
      have hqlen' := hone.readLength ▸ hqlen
      have hpq : p ≠ q := fun hpq => hp (hpq ▸ hq)
      rw [hone.read q hqlen', hone.prog q (hlen ▸ hqlen'), if_neg hpq, mul_one, mul_one]
      exact hwarm q (List.mem_cons_of_mem p hq) hqlen'
    have hfactor : (fun a => if a ∈ p :: l then k else 1) =
        (fun a => if p = a then k else 1) * fun a => if a ∈ l then k else 1 := by
      funext a
      rw [Pi.mul_apply]
      by_cases hpa : p = a
      · subst hpa
        simp [hp]
      · simp [hpa, Ne.symm hpa]
    rw [hfactor]
    exact hone.trans hrest

variable {pow : ℚ → ℚ} {scale u : ℚ} {g : Geometry}

/-- A pull scales every hot cell by the decay since the last. -/
theorem snapshot_fades (pow : ℚ → ℚ) (scale : ℚ) {now : ℚ} (hl : h.glowHot.Nodup) (hlen : h.readHeat.length = h.progHeat.length)
    (hnow : h.lastDecayAt ≤ now)
    (hwarm : ∀ p ∈ h.glowHot, p < h.readHeat.length →
      HEAT_EPS ≤ (h.readAt p + h.progAt p) * pow ((now - h.lastDecayAt) / halfLife scale)) :
    Fades { h with lastDecayAt := now } (h.snapshotHeat pow now scale) fun a =>
      if h.lastDecayAt < now ∧ a ∈ h.glowHot then pow ((now - h.lastDecayAt) / halfLife scale)
      else 1 := by
  have hmax : max 0 (now - h.lastDecayAt) = now - h.lastDecayAt := max_eq_right (by linarith)
  have hsub : 0 < now - h.lastDecayAt ↔ h.lastDecayAt < now := sub_pos
  unfold snapshotHeat
  simp only [hmax, hsub]
  split
  · rename_i hrun
    simp only [hrun.1, true_and]
    exact decayCells_fades (h := { h with lastDecayAt := now }) hl hlen hwarm
  · rename_i hrest
    have hone : (fun a => if h.lastDecayAt < now ∧ a ∈ h.glowHot then
        pow ((now - h.lastDecayAt) / halfLife scale) else 1) = (1 : Nat → ℚ) := by
      funext a
      refine if_neg fun ⟨hlt, ha⟩ => hrest ⟨hlt, List.ne_nil_of_mem ha⟩
    rw [hone]
    exact Fades.refl _

/-- At tick `t` the player's heat is what is left of the bumps in the ledger, each dated by the pull
before it. -/
structure Tracks (pow : ℚ → ℚ) (scale u : ℚ) (g : Geometry) (t : Nat) (h : HeatPlayer) (l : Ledger) :
    Prop where
  geometry : h.geometry = g
  stamp : h.lastDecayAt = l.last * u
  readLength : h.readHeat.length = npages g
  progLength : h.progHeat.length = npages g
  nodup : h.glowHot.Nodup
  cold : ∀ p < npages g, p ∉ h.glowHot → h.readAt p = 0 ∧ h.progAt p = 0
  read : ∀ p < npages g, h.readAt p =
    glow (left pow scale u) (fun b : Bump => b.call.reads g.pageSize p) Bump.pulled l.last l.bumps
  prog : ∀ p < npages g, h.progAt p =
    glow (left pow scale u) (fun b : Bump => b.call.progs g.pageSize p) Bump.pulled l.last l.bumps
  last : l.last ≤ t
  dates : ∀ b ∈ l.bumps, b.pulled ≤ b.time ∧ b.pulled ≤ l.last ∧ b.time ≤ t

theorem Tracks.create (g : Geometry) (t : Nat) :
    Tracks pow scale u g t (createHeatPlayer g (t * u)) { last := t } where
  geometry := rfl
  stamp := rfl
  readLength := List.length_replicate
  progLength := List.length_replicate
  nodup := List.nodup_nil
  cold p hp _ := by simp [readAt, progAt, createHeatPlayer, hp]
  read p hp := by simp [readAt, createHeatPlayer, hp]
  prog p hp := by simp [progAt, createHeatPlayer, hp]
  last := le_refl t
  dates b hb := by cases hb

/-- A pull dates the heat by its own tick. -/
theorem Tracks.pull (hu : 0 < u) (hk : Decay (left pow scale u)) {t t' : Nat} {l : Ledger}
    (ht : Tracks pow scale u g t h l) (htt : t ≤ t') (hwarm : Warm pow scale u h (t', .snapshot)) :
    Tracks pow scale u g t' (h.snapshotHeat pow (t' * u) scale) { l with last := t' } := by
  have hlast : l.last ≤ t' := ht.last.trans htt
  have helapsed : (t' * u - h.lastDecayAt) / halfLife scale =
      ((t' - l.last : Nat) : ℚ) * u / halfLife scale := by
    rw [ht.stamp, Nat.cast_sub hlast, sub_mul]
  have hnow : h.lastDecayAt ≤ t' * u := by
    rw [ht.stamp]
    exact mul_le_mul_of_nonneg_right (Nat.cast_le.mpr hlast) hu.le
  have hfade := snapshot_fades pow scale ht.nodup
    (ht.readLength.trans ht.progLength.symm) hnow fun p hp hlen =>
      hwarm rfl p hp (by rw [ht.geometry, ← ht.readLength]; exact hlen)
  -- a cell that is not hot is cold, and a pull in the same tick decays nothing
  have hcell {c : ℚ} {p : Nat} (hcold : p ∉ h.glowHot → c = 0) :
      (c * if h.lastDecayAt < t' * u ∧ p ∈ h.glowHot then
        pow ((t' * u - h.lastDecayAt) / halfLife scale) else 1) = c * left pow scale u (t' - l.last) := by
    by_cases hhot : p ∈ h.glowHot
    · rcases hlast.lt_or_eq with hlt | heq
      · have hlt' : h.lastDecayAt < t' * u := by
          rw [ht.stamp]
          exact mul_lt_mul_of_pos_right (Nat.cast_lt.mpr hlt) hu
        rw [if_pos ⟨hlt', hhot⟩, helapsed]
        rfl
      · have hnot : ¬(h.lastDecayAt < t' * u ∧ p ∈ h.glowHot) := by
          rw [ht.stamp, heq]
          exact fun hlt => absurd hlt.1 (lt_irrefl _)
        rw [if_neg hnot, heq, Nat.sub_self, hk.zero]
    · rw [hcold hhot, zero_mul, zero_mul]
  have hread (p : Nat) (hp : p < npages g) :
      (h.snapshotHeat pow (t' * u) scale).readAt p = h.readAt p * left pow scale u (t' - l.last) :=
    (hfade.read p (ht.readLength.symm ▸ hp)).trans (hcell fun hc => (ht.cold p hp hc).1)
  have hprog (p : Nat) (hp : p < npages g) :
      (h.snapshotHeat pow (t' * u) scale).progAt p = h.progAt p * left pow scale u (t' - l.last) :=
    (hfade.prog p (ht.progLength.symm ▸ hp)).trans (hcell fun hc => (ht.cold p hp hc).2)
  exact {
    geometry := hfade.geometry.trans ht.geometry
    stamp := hfade.stamp
    readLength := hfade.readLength.trans ht.readLength
    progLength := hfade.progLength.trans ht.progLength
    nodup := hfade.nodup ht.nodup
    cold := fun p hp hnot => by
      have hcold := ht.cold p hp fun hhot => hnot (hfade.hot p (ht.readLength.symm ▸ hp) hhot)
      rw [hread p hp, hprog p hp, hcold.1, hcold.2, zero_mul]
      exact ⟨rfl, rfl⟩
    read := fun p hp => by
      rw [hread p hp, ht.read p hp]
      exact glow_decay hk (fun b hb => (ht.dates b hb).2.1) hlast
    prog := fun p hp => by
      rw [hprog p hp, ht.prog p hp]
      exact glow_decay hk (fun b hb => (ht.dates b hb).2.1) hlast
    last := le_refl t'
    dates := fun b hb => by
      have hb := ht.dates b hb
      exact ⟨hb.1, hb.2.1.trans hlast, hb.2.2.trans htt⟩ }

/-- A bump is dated by the pull before it. -/
theorem Tracks.bump (hk : Decay (left pow scale u)) {t t' : Nat} {l : Ledger} {c : HeatCall}
    (ht : Tracks pow scale u g t h l) (htt : t ≤ t')
    (htouch : Touches h h' (c.reads g.pageSize ·) (c.progs g.pageSize ·)) :
    Tracks pow scale u g t' h' { l with bumps := l.bumps ++ [⟨l.last, t', c⟩] } where
  geometry := htouch.geometry.trans ht.geometry
  stamp := htouch.stamp.trans ht.stamp
  readLength := htouch.readLength.trans ht.readLength
  progLength := htouch.progLength.trans ht.progLength
  nodup := htouch.nodup ht.nodup
  cold p hp hnot := by
    have hcold := ht.cold p hp fun hhot => hnot (htouch.hot p (.inl hhot))
    have hzero : ¬0 < c.reads g.pageSize p + c.progs g.pageSize p := fun hpos =>
      hnot (htouch.hot p (.inr hpos))
    have hr : c.reads g.pageSize p = 0 := by omega
    have hq : c.progs g.pageSize p = 0 := by omega
    rw [htouch.read p (ht.readLength.symm ▸ hp), htouch.prog p (ht.progLength.symm ▸ hp), hcold.1,
      hcold.2, hr, hq]
    exact ⟨by simp, by simp⟩
  read p hp := by
    rw [htouch.read p (ht.readLength.symm ▸ hp), glow_concat, ht.read p hp, Nat.sub_self, hk.zero,
      mul_one]
  prog p hp := by
    rw [htouch.prog p (ht.progLength.symm ▸ hp), glow_concat, ht.prog p hp, Nat.sub_self, hk.zero,
      mul_one]
  last := ht.last.trans htt
  dates b hb := by
    rcases List.mem_append.mp hb with hb | hb
    · have hb := ht.dates b hb
      exact ⟨hb.1, hb.2.1, hb.2.2.trans htt⟩
    · rw [List.mem_singleton.mp hb]
      exact ⟨ht.last.trans htt, le_refl _, le_refl _⟩

theorem Tracks.step (hu : 0 < u) (hk : Decay (left pow scale u)) {t : Nat} {l : Ledger}
    {x : Nat × HeatCall} (ht : Tracks pow scale u g t h l) (htt : t ≤ x.1)
    (hwarm : Warm pow scale u h x) :
    Tracks pow scale u g x.1 (h.handle pow scale u x) (l.note x) := by
  obtain ⟨t', c⟩ := x
  unfold Ledger.note
  split
  · rename_i hreset
    have hblank : h.handle pow scale u (t', c) = createHeatPlayer g (t' * u) := by
      rw [← ht.geometry]
      cases c with
      | snapshot => cases hreset
      | event ev => cases ev <;> first | rfl | cases hreset
      | step ps =>
        cases ps with
        | whole ev => cases ev <;> first | rfl | cases hreset
        | erase ns s | prog ns q off len | read ns q => cases hreset
    rw [hblank]
    exact Tracks.create g t'
  · rename_i hreset
    split
    · rename_i hpull
      cases hpull
      exact ht.pull hu hk htt hwarm
    · rename_i hpull
      have htouch := handle_touches pow scale u (x := (t', c))
        (Bool.eq_false_iff.mpr hreset) hpull h
      rw [ht.geometry] at htouch
      exact ht.bump hk htt htouch

theorem Tracks.run (hu : 0 < u) (hk : Decay (left pow scale u)) {xs : List (Nat × HeatCall)}
    {t : Nat} {l : Ledger} (ht : Tracks pow scale u g t h l)
    (htimes : (t :: xs.map Prod.fst).Pairwise (· ≤ ·))
    (hwarm : Along (handle pow scale u) (Warm pow scale u) h xs) :
    ∃ t' ∈ t :: xs.map Prod.fst, Tracks pow scale u g t' (Machine.run (handle pow scale u) h xs)
      (Machine.run Ledger.note l xs) := by
  induction xs generalizing h t l with
  | nil => exact ⟨t, List.mem_cons_self, ht⟩
  | cons x xs ih =>
    obtain ⟨hle, htimes⟩ := List.pairwise_cons.mp htimes
    have hx : t ≤ x.1 := hle x.1 List.mem_cons_self
    obtain ⟨t', ht', htracks⟩ := ih (ht.step hu hk hx hwarm.1) htimes hwarm.2
    exact ⟨t', List.mem_cons_of_mem t ht', htracks⟩

end HeatPlayer

/-- The bump touches the heat of a page. -/
def Bump.Hits (g : Geometry) (b : Bump) : Prop :=
  ∃ p < npages g, 0 < b.call.reads g.pageSize p + b.call.progs g.pageSize p

namespace HeatPlayer
variable {h : HeatPlayer} {pow : ℚ → ℚ} {scale u : ℚ} {g : Geometry}

/-- The heat of every page at tick `T` is the sum over its bumps of what is left of each. -/
def SumsBumps (pow : ℚ → ℚ) (scale u : ℚ) (g : Geometry) (T : Nat) (bumps : List Bump)
    (h : HeatPlayer) : Prop :=
  ∀ p < npages g,
    h.readAt p = glow (left pow scale u) (fun b : Bump => b.call.reads g.pageSize p) Bump.time T bumps ∧
    h.progAt p = glow (left pow scale u) (fun b : Bump => b.call.progs g.pageSize p) Bump.time T bumps

/-- **Pulled heat.** The heat pulled at tick `T` is the sum of the decayed bumps since the last reset
exactly when each of these was made in the tick of the pull (or reset, or creation) before it. -/
theorem heat_pulled (hu : 0 < u) (hk : Decay (left pow scale u)) {t₀ T : Nat}
    {xs : List (Nat × HeatCall)}
    (htimes : (t₀ :: (xs ++ [(T, HeatCall.snapshot)]).map Prod.fst).Pairwise (· ≤ ·))
    (hwarm : Along (handle pow scale u) (Warm pow scale u) (createHeatPlayer g (t₀ * u))
      (xs ++ [(T, .snapshot)])) :
    SumsBumps pow scale u g T (run Ledger.note { last := t₀ } xs).bumps
      (run (handle pow scale u) (createHeatPlayer g (t₀ * u)) (xs ++ [(T, .snapshot)])) ↔
    ∀ b ∈ (run Ledger.note { last := t₀ } xs).bumps, b.Hits g → b.pulled = b.time := by
  obtain ⟨t, ht, htracks⟩ := (Tracks.create g t₀).run hu hk htimes hwarm
  have htT : t ≤ T := by
    rw [List.map_append, ← List.cons_append] at htimes ht
    rcases List.mem_append.mp ht with ht | ht
    · exact (List.pairwise_append.mp htimes).2.2 t ht T List.mem_cons_self
    · exact (List.mem_singleton.mp ht).le
  rw [run_concat Ledger.note] at htracks
  have hnote : (run Ledger.note { last := t₀ } xs).note (T, .snapshot) =
      { run Ledger.note { last := t₀ } xs with last := T } := rfl
  rw [hnote] at htracks
  generalize run Ledger.note { last := t₀ } xs = l at htracks ⊢
  generalize run (handle pow scale u) _ _ = h at htracks ⊢
  have hdate (b : Bump) (hb : b ∈ l.bumps) : b.pulled ≤ b.time := (htracks.dates b hb).1
  have hlate (b : Bump) (hb : b ∈ l.bumps) : b.time ≤ T := (htracks.dates b hb).2.2.trans htT
  have hiff (hits : Bump → Nat) := glow_eq_iff hits hk hdate hlate
  constructor
  · intro hsum b hb ⟨p, hp, hpos⟩
    obtain ⟨hr, hq⟩ := hsum p hp
    rw [htracks.read p hp] at hr
    rw [htracks.prog p hp] at hq
    rcases Nat.eq_zero_or_pos (b.call.reads g.pageSize p) with h0 | hpos'
    · exact (hiff _).mp hq b hb (by omega)
    · exact (hiff _).mp hr b hb hpos'
  · intro hall p hp
    rw [htracks.read p hp, htracks.prog p hp]
    refine ⟨(hiff _).mpr fun b hb hpos => hall b hb ⟨p, hp, ?_⟩,
      (hiff _).mpr fun b hb hpos => hall b hb ⟨p, hp, ?_⟩⟩
    · exact Nat.add_pos_left hpos _
    · exact Nat.add_pos_right _ hpos

/-- `Math.pow(0.5, n)` for whole `n`. -/
def halves (x : ℚ) : ℚ := (1 / 2) ^ ⌊x⌋.toNat

theorem left_halves (n : Nat) : left halves HEAT_SCALE_REF 500 n = (1 / 2) ^ n := by
  have hhalf : halfLife HEAT_SCALE_REF = 500 := by decide +kernel
  unfold left halves
  rw [hhalf, mul_div_cancel_right₀ _ (by norm_num : (500 : ℚ) ≠ 0), Int.floor_natCast, Int.toNat_natCast]

theorem decay_halves : Decay (left halves HEAT_SCALE_REF 500) where
  mul a b := by simp only [left_halves, pow_add]
  pos a := by
    rw [left_halves]
    positivity
  lt_one a ha := by
    rw [left_halves]
    exact pow_lt_one₀ (by norm_num) (by norm_num) ha.ne'

/-- Two pages. -/
def pairOfPages : Geometry := ⟨512, 1, 256, 1⟩

instance (g : Geometry) (b : Bump) : Decidable (b.Hits g) :=
  inferInstanceAs (Decidable (∃ p < npages g, _))

instance (pow : ℚ → ℚ) (scale u : ℚ) (h : HeatPlayer) (x : Nat × HeatCall) :
    Decidable (Warm pow scale u h x) := inferInstanceAs (Decidable (_ → _))

/-- A read in the tick of a pull, and a pull a half-life later. -/
theorem heat_pulled_pair :
    SumsBumps halves HEAT_SCALE_REF 500 pairOfPages 2
      (run Ledger.note { last := 0 } [(1, .snapshot), (1, .step (.read 0 1))]).bumps
      (run (handle halves HEAT_SCALE_REF 500) (createHeatPlayer pairOfPages ((0 : Nat) * 500))
        ([(1, .snapshot), (1, .step (.read 0 1))] ++ [(2, .snapshot)])) :=
  (heat_pulled (by norm_num) decay_halves (by decide) (by decide +kernel)).mpr (by decide +kernel)

/-- A read a half-life after the last pull is as cold, when it is pulled at once, as one made then. -/
theorem unpulled_cold : ¬∀ (pow : ℚ → ℚ) (scale u : ℚ) (g : Geometry) (t₀ T : Nat)
    (xs : List (Nat × HeatCall)), 0 < u → Decay (left pow scale u) →
    (t₀ :: (xs ++ [(T, HeatCall.snapshot)]).map Prod.fst).Pairwise (· ≤ ·) →
    Along (handle pow scale u) (Warm pow scale u) (createHeatPlayer g (t₀ * u))
      (xs ++ [(T, .snapshot)]) →
    SumsBumps pow scale u g T (run Ledger.note { last := t₀ } xs).bumps
      (run (handle pow scale u) (createHeatPlayer g (t₀ * u)) (xs ++ [(T, .snapshot)])) := by
  intro hall
  have hsum := hall halves HEAT_SCALE_REF 500 pairOfPages 0 1 [(1, .step (.read 0 1))] (by norm_num)
    decay_halves (by decide) (by decide +kernel) 1 (by decide)
  exact absurd hsum.1 (by decide +kernel)

end HeatPlayer
end FlashVis

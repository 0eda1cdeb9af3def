import FlashVis.Fat.PowerCut

/-!
# A volume that is mounted again

* `DriveEvent`       what happens to a volume: calls of FatFs, mounts, and power cuts in a write;
* `Survives`         what its sectors hold afterwards;
* `WlFlash.Answers`  a volume that reads as its sectors, which lie apart on the chip;
* `remounts_keep`    mounting the chip again changes nothing that FatFs can read;
* `power_cuts`       and a power cut tears no sector but those of the write that it cuts off.
-/

namespace FlashVis

/-- What happens to the volume. -/
inductive DriveEvent where
  | call (op : DiskOp)
  /-- `wlfat_up` over the same chip, as `ff_format` does -/
  | mount
  /-- the power fails before step `k` of `disk_write`, and the chip is mounted again -/
  | cut (buff : List UInt8) (sector count : UInt32) (k : Nat)

namespace DriveEvent

def InRange (n size : Nat) : DriveEvent → Prop
  | call op => op.InRange n size
  | mount => True
  | cut buff sector count _ => (DiskOp.write buff sector count).InRange n size

instance (n size : Nat) : DecidablePred (InRange n size)
  | call op => inferInstanceAs (Decidable (op.InRange n size))
  | mount => inferInstanceAs (Decidable True)
  | cut b s c _ => inferInstanceAs (Decidable ((DiskOp.write b s c).InRange n size))

def isCall : DriveEvent → Bool
  | call _ => true
  | mount | cut .. => false

def isCut : DriveEvent → Bool
  | cut .. => true
  | call _ | mount => false

/-- The layer at the moment at which the power fails. -/
def cutOff (buff : List UInt8) (sector count : UInt32) (k : Nat) (w : WlFlash) : WlFlash :=
  WlFlash.Step.runAll w ((w.diskWriteSteps buff sector count).take k)

/-- `wlfat_up` makes a new layer: nothing of the old one stays but the chip. -/
def remount (ss sc : UInt32) (w : WlFlash) : Option WlFlash :=
  (wlfatUp ss sc w.partition.hal).toOption

def apply (ss sc : UInt32) (g : Option WlFlash) : DriveEvent → Option WlFlash
  | call op => op.apply g
  | mount => g.bind (remount ss sc)
  | cut buff sector count k => g.bind fun w => remount ss sc (cutOff buff sector count k w)

/-- The power fails between the erase of the first copy of the state and its rewrite. -/
def bares (g : Option WlFlash) : DriveEvent → Bool
  | cut buff sector count k => g.any fun w => decide (cutOff buff sector count k w).Bare
  | call _ | mount => false

/-- What the sectors hold after the event: a write that was cut off leaves each of its sectors as it
was, blank or written. -/
def Leaves (size : Nat) (A B : Nat → List UInt8) : DriveEvent → Prop
  | call op => ∀ k, B k = (op.writes size k).getD (A k)
  | mount => ∀ k, B k = A k
  | cut buff sector count _ => ∀ k, B k = A k ∨
      ∃ d, (DiskOp.write buff sector count).writes size k = some d ∧
        (B k = List.replicate size 0xff ∨ B k = d)

end DriveEvent

/-- What the sectors hold after the events. -/
inductive Survives (size : Nat) :
    (Nat → List UInt8) → List DriveEvent → (Nat → List UInt8) → Prop where
  | nil (A) : Survives size A [] A
  | cons {A B D e es} : e.Leaves size A B → Survives size B es D → Survives size A (e :: es) D

/-- A volume that comes back from an erased first copy is not mounted again: the records of its
turns were not taken over. -/
def Guarded (ss sc : UInt32) : Option WlFlash → List DriveEvent → Prop
  | _, [] => True
  | g, e :: es => (e.bares g → ∀ e' ∈ es, e'.isCall) ∧ Guarded ss sc (e.apply ss sc g) es

instance (ss sc : UInt32) (g : Option WlFlash) (es : List DriveEvent) :
    Decidable (Guarded ss sc g es) :=
  match es with
  | [] => inferInstanceAs (Decidable True)
  | e :: es =>
    have := instDecidableGuarded ss sc (e.apply ss sc g) es
    inferInstanceAs (Decidable ((_ → _) ∧ Guarded ss sc (e.apply ss sc g) es))

namespace WlFlash
variable {n : Nat} {ss sc : UInt32} {C : Nat → Nat → UInt8} {A : Nat → List UInt8} {b w v : WlFlash}

/-- A volume of the sectors `A`: every call succeeds, a read gives what the sectors hold, and they
lie apart on the chip. -/
structure Answers (A : Nat → List UInt8) (w : WlFlash) : Prop where
  reads : ∀ (s c : UInt32) (b : List UInt8), (DiskOp.read s c b).InRange w.sectors w.ss →
    (diskRead s c b (some w)).1 = .ok ∧ (diskRead s c b (some w)).2.2 =
      (List.range c.toNat).flatMap fun i => A (s.toNat + i)
  writes : ∀ (s c : UInt32) (b : List UInt8), (DiskOp.write b s c).InRange w.sectors w.ss →
    (diskWrite b s c (some w)).1 = .ok
  apart : w.Apart

/-- The bytes of the sectors. -/
def rowBytes (A : Nat → List UInt8) (k o : Nat) : UInt8 := (A k).getD o 0xff

theorem Holding.answers (h : Holding n (rowBytes A) w) (hlen : ∀ k, (A k).length = w.ss) :
    Answers A w := by
  obtain ⟨g, hp⟩ : ∃ g : Gap n, Placed g w := by
    obtain ⟨-, g, hp, -⟩ := h
    exact ⟨g, hp⟩
  refine ⟨fun s c b hr => ?_, fun s c b hr => ?_, hp.apart⟩
  · rw [hp.sectors_eq] at hr
    obtain ⟨u, hu, -, -⟩ := diskRead_holding h hr
    rw [hu]
    refine ⟨rfl, ?_⟩
    show (List.range c.toNat).flatMap _ = _
    congr 1
    funext i
    rw [← map_getD_range (A (s.toNat + i)), hlen]
    rfl
  · rw [hp.sectors_eq] at hr
    obtain ⟨u, hu, -, -⟩ := diskWrite_holding h hr
    rw [hu]

/-! ## a read leaves the layer alone -/

theorem pread_still (addr : UInt32) (dst : List UInt8) : Still w (w.pread addr dst).1 := by
  refine ⟨pread_plan _, rfl, ?_⟩
  simp only [pread, Partition.read]
  split <;> rfl

theorem read_still {addr : UInt32} {dst data : List UInt8} (h : w.read addr dst = .ok (v, data)) :
    Still w v := by
  unfold read at h
  split at h
  · exact absurd h nofun
  dsimp only at h
  generalize ((dst.length.toUInt32 - 1) / w.cfg.wlPageSize).toNat = c at h
  have hloop := Loop.foldl_range_inv (P := fun _ (p : WlFlash × List UInt8) => Still w p.1)
    (f := fun (p : WlFlash × List UInt8) i =>
      ((p.1.readPage (addr + i.toUInt32 * w.cfg.wlPageSize)
        ((dst.drop (i * w.cfg.wlPageSize.toNat)).take w.cfg.wlPageSize.toNat)).1,
        p.2 ++ (p.1.readPage (addr + i.toUInt32 * w.cfg.wlPageSize)
        ((dst.drop (i * w.cfg.wlPageSize.toNat)).take w.cfg.wlPageSize.toNat)).2))
    (a := (w, [])) c (Still.refl w) fun i _ p hp => hp.trans (pread_still _ _)
  have hv : _ = v := congrArg Prod.fst (Except.ok.inj h)
  rw [← hv]
  exact hloop.trans (pread_still _ _)

/-! ## one event -/

theorem rowBytes_write {buff : List UInt8} {s c : UInt32} (k : Nat) {o size : Nat} (ho : o < size) :
    rowBytes (fun k => ((DiskOp.write buff s c).writes size k).getD (A k)) k o =
      if s.toNat ≤ k ∧ k < s.toNat + c.toNat then buff.getD ((k - s.toNat) * size + o) 0xff
      else rowBytes A k o := by
  unfold rowBytes DiskOp.writes
  dsimp only
  by_cases hk : s.toNat ≤ k ∧ k < s.toNat + c.toNat
  · rw [if_pos hk, if_pos hk, Option.getD_some, chunk_getD ho]
  · rw [if_neg hk, if_neg hk, Option.getD_none]

theorem Holding.call (h : Holding n (rowBytes A) w) {op : DiskOp} (hr : op.InRange n w.ss) :
    ∃ v, op.apply (some w) = some v ∧ v.plan = w.plan ∧
      Holding n (rowBytes fun k => (op.writes w.ss k).getD (A k)) v := by
  cases op with
  | read s c buff =>
    obtain ⟨v, hv, hl, hh⟩ := diskRead_holding h hr
    refine ⟨v, ?_, plan_of_layout hl, hh⟩
    show (diskRead s c buff (some w)).2.1 = _
    rw [hv]
  | write buff s c =>
    obtain ⟨v, hv, hl, hh⟩ := diskWrite_holding h hr
    refine ⟨v, ?_, plan_of_layout hl, hh.congr fun k _ o ho => ?_⟩
    · show (FlashVis.diskWrite buff s c (some w)).2 = _
      rw [hv]
    · rw [layout_ss hl] at ho
      rw [rowBytes_write k ho]

theorem Kept.call (hb : Starts n ss sc b) (h : Kept n (rowBytes A) w) (hplan : w.plan = b.plan)
    {op : DiskOp} (hr : op.InRange n w.ss) : ∃ v, op.apply (some w) = some v ∧ v.plan = b.plan ∧
      Kept n (rowBytes fun k => (op.writes w.ss k).getD (A k)) v := by
  cases op with
  | read s c buff =>
    obtain ⟨v, hv, hl, hh⟩ := diskRead_holding h.holding hr
    have hstill : Still w v := by
      unfold diskRead at hv
      dsimp only at hv
      split at hv
      · exact absurd (congrArg Prod.fst hv) nofun
      · split at hv
        · exact absurd (congrArg Prod.fst hv) nofun
        · rename_i u data hu
          have huv : u = v := Option.some.inj (congrArg (·.2.1) hv)
          exact huv ▸ read_still hu
    refine ⟨v, ?_, hstill.plan.trans hplan, ?_⟩
    · show (diskRead s c buff (some w)).2.1 = _
      rw [hv]
    · exact h.of_holding hh hstill.plan hstill.state fun x _ => congrFun hstill.flash x
  | write buff s c =>
    obtain ⟨-, v, hv, hp, hk⟩ := h.diskWrite hb hplan hr
    refine ⟨v, ?_, hp, hk.congr fun k _ o ho => ?_⟩
    · show (FlashVis.diskWrite buff s c (some w)).2 = _
      rw [hv]
    · rw [plan_ss (hp.trans hplan.symm)] at ho
      rw [rowBytes_write k ho]
      unfold masked blanked
      split
      · exact UInt8.neg_one_and
      · rfl

theorem Kept.mount (hb : Starts n ss sc b) (h : Kept n C w) (hplan : w.plan = b.plan) :
    ∃ v, DriveEvent.remount ss sc w = some v ∧ v.plan = b.plan ∧ Kept n C v := by
  obtain ⟨-, -, g, m, -, hs⟩ := h
  obtain ⟨v, hv, hp, hk⟩ := hs.mount hb hplan
  refine ⟨v, ?_, hp, hk⟩
  unfold DriveEvent.remount
  rw [hv]
  rfl

/-- The sectors that the bytes make up. -/
def rowsOf (size : Nat) (D : Nat → Nat → UInt8) (k : Nat) : List UInt8 := (List.range size).map (D k)

theorem rowBytes_rowsOf {size : Nat} {D : Nat → Nat → UInt8} {k o : Nat} (ho : o < size) :
    rowBytes (rowsOf size D) k o = D k o := by
  unfold rowBytes rowsOf
  simp [List.getD_eq_getElem?_getD, ho]

theorem rowsOf_eq {size : Nat} {D : Nat → Nat → UInt8} {k : Nat} {l : List UInt8}
    (hlen : l.length = size) (h : ∀ o < size, D k o = l.getD o 0xff) : rowsOf size D k = l := by
  rw [← map_getD_range l, hlen]
  exact List.map_congr_left fun o ho => h o (List.mem_range.mp ho)

/-- **The power fails in a write**: the chip mounts with torn sectors, as a layer that its chip shows
unless the first copy of the state was erased. -/
theorem Kept.cut (hb : Starts n ss sc b) (h : Kept n (rowBytes A) w) (hplan : w.plan = b.plan)
    (hlen : ∀ k, (A k).length = b.ss) {buff : List UInt8} {sector count : UInt32}
    (hr : (DiskOp.write buff sector count).InRange n w.ss) (k : Nat) :
    ∃ v B, DriveEvent.remount ss sc (DriveEvent.cutOff buff sector count k w) = some v ∧
      v.plan = b.plan ∧ (∀ k, (B k).length = b.ss) ∧
      (DriveEvent.cut buff sector count k).Leaves b.ss A B ∧ Holding n (rowBytes B) v ∧
      (¬(DriveEvent.cutOff buff sector count k w).Bare → Kept n (rowBytes B) v) := by
  obtain ⟨halways, -⟩ := h.diskWrite hb hplan hr
  obtain ⟨D, htorn, -, v, hv, hp, hh, hk⟩ := halways.take k
  have hsame : ∀ k < n, ∀ o < v.ss, D k o = rowBytes (rowsOf b.ss D) k o := by
    intro k _ o ho
    rw [plan_ss hp] at ho
    exact (rowBytes_rowsOf ho).symm
  refine ⟨v, rowsOf b.ss D, ?_, hp, fun k => ?_, fun k => ?_, hh.congr hsame,
    fun hbare => (hk hbare).congr hsame⟩
  · unfold DriveEvent.remount
    change wlfatUp ss sc (DriveEvent.cutOff buff sector count _ w).partition.hal = _ at hv
    rw [hv]
    rfl
  · exact (List.length_map _).trans List.length_range
  · rcases htorn k with hold | ⟨h1, h2, hnew⟩
    · exact .inl (rowsOf_eq (hlen k) hold)
    · refine .inr ⟨_, if_pos ⟨h1, h2⟩, ?_⟩
      rcases hnew with hblank | hbuff
      · refine .inl (rowsOf_eq List.length_replicate fun o ho => ?_)
        rw [hblank o ho]
        simp [List.getD_eq_getElem?_getD, ho]
      · refine .inr (rowsOf_eq ?_ fun o ho => ?_)
        · exact chunk_length (hr.2.2.trans (by rw [plan_ss hplan])) (by omega)
        · rw [hbuff o ho, chunk_getD ho]

/-! ## a run of events -/

/-- The events end in a volume that holds what they leave in the sectors. -/
def Lasts (n : Nat) (ss sc : UInt32) (b : WlFlash) (A : Nat → List UInt8) (es : List DriveEvent)
    (w : WlFlash) : Prop :=
  ∃ v B, es.foldl (DriveEvent.apply ss sc) (some w) = some v ∧ v.plan = b.plan ∧
    (∀ k, (B k).length = b.ss) ∧ Survives b.ss A es B ∧ Holding n (rowBytes B) v

theorem Lasts.cons {B : Nat → List UInt8} {e : DriveEvent} {es : List DriveEvent}
    (he : e.apply ss sc (some w) = some v) (hl : e.Leaves b.ss A B) (h : Lasts n ss sc b B es v) :
    Lasts n ss sc b A (e :: es) w := by
  obtain ⟨u, D, hu, hp, hlen, hs, hh⟩ := h
  refine ⟨u, D, ?_, hp, hlen, .cons hl hs, hh⟩
  rw [List.foldl_cons, he, hu]

theorem writes_length (op : DiskOp) {size : Nat} (hr : op.InRange n size)
    (hlen : ∀ k, (A k).length = size) (k : Nat) : ((op.writes size k).getD (A k)).length = size := by
  cases op with
  | read s c buff => exact hlen k
  | write buff s c =>
    unfold DiskOp.writes
    dsimp only
    split
    · exact chunk_length hr.2.2 (by omega)
    · exact hlen k

/-- **Runs of calls, mounts and power cuts.** -/
theorem Starts.drive (hb : Starts n ss sc b) (es : List DriveEvent)
    (hin : ∀ e ∈ es, e.InRange n b.ss) (hg : Guarded ss sc (some w) es) (hplan : w.plan = b.plan)
    (hlen : ∀ k, (A k).length = b.ss) (h : Holding n (rowBytes A) w)
    (hk : (∀ e ∈ es, e.isCall) ∨ Kept n (rowBytes A) w) : Lasts n ss sc b A es w := by
  induction es generalizing w A with
  | nil => exact ⟨w, A, rfl, hplan, hlen, .nil A, h⟩
  | cons e es ih =>
    have hss := plan_ss hplan
    have he := hin e List.mem_cons_self
    have hnext : ∀ {u B}, e.apply ss sc (some w) = some u → u.plan = b.plan →
        (∀ k, (B k).length = b.ss) → Holding n (rowBytes B) u →
        ((∀ e ∈ es, e.isCall) ∨ Kept n (rowBytes B) u) → Lasts n ss sc b B es u := by
      intro u B hu hp hl hh hk'
      have hg' := hg.2
      rw [hu] at hg'
      exact ih (fun e' he' => hin e' (List.mem_cons_of_mem e he')) hg' hp hl hh hk'
    cases e with
    | call op =>
      have hr : op.InRange n w.ss := by
        rw [hss]
        exact he
      have hl := writes_length op he hlen
      rcases hk with hcalls | hk
      · obtain ⟨v, hv, hp, hh⟩ := h.call hr
        rw [hss] at hh
        refine .cons hv (fun _ => rfl) (hnext hv (hp.trans hplan) hl hh (.inl fun e he => ?_))
        exact hcalls e (List.mem_cons_of_mem _ he)
      · obtain ⟨v, hv, hp, hk⟩ := hk.call hb hplan hr
        rw [hss] at hk
        exact .cons hv (fun _ => rfl) (hnext hv hp hl hk.holding (.inr hk))
    | mount =>
      rcases hk with hcalls | hk
      · exact absurd (hcalls _ List.mem_cons_self) Bool.false_ne_true
      · obtain ⟨v, hv, hp, hk⟩ := hk.mount hb hplan
        exact .cons (B := A) hv (fun _ => rfl) (hnext hv hp hlen hk.holding (.inr hk))
    | cut buff sector count k =>
      rcases hk with hcalls | hk
      · exact absurd (hcalls _ List.mem_cons_self) Bool.false_ne_true
      · obtain ⟨v, B, hv, hp, hl, hleaves, hh, hkept⟩ :=
          hk.cut hb hplan hlen (by rw [hss]; exact he) k
        refine .cons hv hleaves (hnext hv hp hl hh ?_)
        by_cases hbare : (DriveEvent.cutOff buff sector count k w).Bare
        · exact .inl (hg.1 (decide_eq_true hbare))
        · exact .inr (hkept hbare)

theorem fresh_starts {hal : Hal} (hmax : ss.toNat ≤ ffMaxSs) (hfit : ss.toNat * sc.toNat < 2 ^ 32)
    (hgs : hal.dev.geometry.sectorSize = ss.toNat) (hgc : hal.dev.geometry.sectorCount = sc.toNat)
    (hblank : hal.dev.flash = blankFlash) (hup : wlfatUp ss sc hal = .ok w) :
    ∃ n b, Starts n ss sc b ∧ w.plan = b.plan ∧ Kept n (fun _ _ => 0xff) w := by
  cases hc : config (wlfatConfig ss sc) ⟨0, ss * sc, ss, hal⟩ with
  | error e =>
    unfold wlfatUp at hup
    rw [hc] at hup
    exact absurd hup nofun
  | ok b =>
    obtain ⟨n, hlaid, -, -, hhal⟩ := config_laid hmax hgs hgc hc
    have hb : Starts n ss sc b := ⟨⟨hal, hc⟩, hlaid, config_aligned hmax hfit hgs hgc hc⟩
    obtain ⟨v, hv, hp, hk⟩ := hb.fresh (by rw [dev, hhal]) hblank
    have hvw : v = w := Except.ok.inj (hv.symm.trans hup)
    subst hvw
    exact ⟨n, b, hb, hp, hk⟩

/-- What a run over a fresh layer leaves can be read. -/
theorem fresh_drive {hal : Hal} (hmax : ss.toNat ≤ ffMaxSs) (hfit : ss.toNat * sc.toNat < 2 ^ 32)
    (hgs : hal.dev.geometry.sectorSize = ss.toNat) (hgc : hal.dev.geometry.sectorCount = sc.toNat)
    (hblank : hal.dev.flash = blankFlash) (hup : wlfatUp ss sc hal = .ok w) {es : List DriveEvent}
    (hin : ∀ e ∈ es, e.InRange w.sectors w.ss) (hg : Guarded ss sc (some w) es) :
    ∃ v A, es.foldl (DriveEvent.apply ss sc) (some w) = some v ∧ v.sectors = w.sectors ∧
      v.ss = w.ss ∧ Survives w.ss (fun _ => List.replicate w.ss 0xff) es A ∧ Answers A v := by
  obtain ⟨n, b, hb, hplan, hk⟩ := fresh_starts hmax hfit hgs hgc hblank hup
  have hss : w.ss = b.ss := plan_ss hplan
  have hsec : ∀ u : WlFlash, u.plan = b.plan → u.sectors = n := fun u hu =>
    (hb.laid.of_plan hu).sectors_eq
  rw [hsec w hplan, hss] at hin
  have hfresh : Kept n (rowBytes fun _ => List.replicate b.ss 0xff) w := hk.congr fun k _ o ho => by
    unfold rowBytes
    rw [hss] at ho
    simp [List.getD_eq_getElem?_getD, ho]
  obtain ⟨v, A, hv, hp, hlen, hs, hh⟩ := hb.drive es hin hg hplan (fun _ => List.length_replicate)
    hfresh.holding (.inr hfresh)
  rw [hsec w hplan, hss]
  refine ⟨v, A, hv, hsec v hp, plan_ss hp, hs, hh.answers fun k => ?_⟩
  rw [plan_ss hp]
  exact hlen k

end WlFlash

/-! ## runs without a power cut -/

/-- The calls among the events. -/
def calls (es : List DriveEvent) : List DiskOp :=
  es.filterMap fun
    | .call op => some op
    | _ => none

theorem lastWrite_cons (size : Nat) (op : DiskOp) (ops : List DiskOp) (k : Nat) :
    lastWrite size (op :: ops) k = (lastWrite size ops k).or (op.writes size k) := by
  unfold lastWrite
  rw [List.reverse_cons, List.findSome?_append, List.findSome?_singleton]

theorem Survives.uncut {size : Nat} {A B : Nat → List UInt8} {es : List DriveEvent}
    (h : Survives size A es B) (hcut : ∀ e ∈ es, e.isCut = false) (k : Nat) :
    B k = (lastWrite size (calls es) k).getD (A k) := by
  induction h with
  | nil A => rfl
  | @cons A B D e es hl _ ih =>
    have hrest := ih fun e' he' => hcut e' (List.mem_cons_of_mem e he')
    rw [hrest]
    cases e with
    | call op =>
      show _ = (lastWrite size (op :: calls es) k).getD (A k)
      rw [lastWrite_cons, hl k]
      cases lastWrite size (calls es) k <;> rfl
    | mount =>
      rw [hl k]
      rfl
    | cut buff s c i => exact absurd (hcut _ List.mem_cons_self) nofun

theorem guarded_uncut {ss sc : UInt32} {es : List DriveEvent} (hcut : ∀ e ∈ es, e.isCut = false)
    (g : Option WlFlash) : Guarded ss sc g es := by
  induction es generalizing g with
  | nil => trivial
  | cons e es ih =>
    refine ⟨fun hb => ?_, ih (fun e' he' => hcut e' (List.mem_cons_of_mem e he')) _⟩
    cases e with
    | call op => exact absurd hb Bool.false_ne_true
    | mount => exact absurd hb Bool.false_ne_true
    | cut buff s c i => exact absurd (hcut _ List.mem_cons_self) nofun

section
variable {ss sc : UInt32} {hal : Hal} {w : WlFlash} (hmax : ss.toNat ≤ ffMaxSs)
  (hfit : ss.toNat * sc.toNat < 2 ^ 32)
  (hgs : hal.dev.geometry.sectorSize = ss.toNat) (hgc : hal.dev.geometry.sectorCount = sc.toNat)
  (hblank : hal.dev.flash = blankFlash) (hup : wlfatUp ss sc hal = .ok w)

include hmax hfit hgs hgc hblank hup

/-- **Mounting the chip again changes nothing that FatFs can read**, however often and wherever in
its lap the rotation stands: the layer finds its position in the records on the chip. -/
theorem remounts_keep (es : List DriveEvent) (hin : ∀ e ∈ es, e.InRange w.sectors w.ss)
    (hcut : ∀ e ∈ es, e.isCut = false) : ∃ v, es.foldl (DriveEvent.apply ss sc) (some w) = some v ∧
      v.sectors = w.sectors ∧ v.ss = w.ss ∧ BlockDevice (calls es) v := by
  obtain ⟨v, A, hv, hsec, hss, hs, ha⟩ :=
    WlFlash.fresh_drive hmax hfit hgs hgc hblank hup hin (guarded_uncut hcut _)
  have hA : A = sectorBytes v.ss (calls es) := by
    funext k
    rw [hs.uncut hcut k, hss]
    rfl
  subst hA
  exact ⟨v, hv, hsec, hss, ha.reads, ha.writes, ha.apart⟩

/-- **A power cut tears no sector but those of the write that it cuts off**: after any run of calls,
mounts and power cuts every sector reads as last written, but for the sectors of a write that was
cut off, each of which is as before, blank or written. -/
theorem power_cuts (es : List DriveEvent) (hin : ∀ e ∈ es, e.InRange w.sectors w.ss)
    (hg : Guarded ss sc (some w) es) : ∃ v A, es.foldl (DriveEvent.apply ss sc) (some w) = some v ∧
      v.sectors = w.sectors ∧ v.ss = w.ss ∧
      Survives w.ss (fun _ => List.replicate w.ss 0xff) es A ∧ WlFlash.Answers A v :=
  WlFlash.fresh_drive hmax hfit hgs hgc hblank hup hin hg

end

/-- Where the rotation stands after a run over the small chip. -/
def turned (es : List DriveEvent) : Option UInt32 :=
  (es.foldl (DriveEvent.apply 96 10) (some smallLayer)).map fun v => v.state.wlDummySecPos

/-- A mount between two turns, each inside a write. -/
def mounted : List DriveEvent := turning.map .call ++ .mount :: turning.map .call

theorem remounts_keep_small : turned (mounted.take 9) = some 1 ∧
    ∃ v, mounted.foldl (DriveEvent.apply 96 10) (some smallLayer) = some v ∧
      v.sectors = smallLayer.sectors ∧ v.ss = smallLayer.ss ∧ BlockDevice (calls mounted) v :=
  ⟨by decide +kernel, remounts_keep (by decide) (by decide) rfl rfl rfl
    (Except.eq_ok_get smallChip_up) mounted (by decide +kernel) (by decide)⟩

/-- The power fails between the two copies of a record, with no sector of the write erased yet: the
turn is kept. -/
def unplugged : List DriveEvent :=
  (turning.take 8).map .call ++ [.cut (List.replicate 192 5) 0 2 6,
    .call (.read 0 2 (List.replicate 192 0))]

theorem power_cuts_small : turned (unplugged.take 9) = some 1 ∧
    ∃ v A, unplugged.foldl (DriveEvent.apply 96 10) (some smallLayer) = some v ∧
      v.sectors = smallLayer.sectors ∧ v.ss = smallLayer.ss ∧
      Survives smallLayer.ss (fun _ => List.replicate smallLayer.ss 0xff) unplugged A ∧
      WlFlash.Answers A v :=
  ⟨by decide +kernel, power_cuts (by decide) (by decide) rfl rfl rfl
    (Except.eq_ok_get smallChip_up) unplugged (by decide +kernel) (by decide +kernel)⟩

end FlashVis

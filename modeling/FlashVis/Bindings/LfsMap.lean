import FlashVis.Fat.Inspect
import FlashVis.Fat.Place
import FlashVis.Lib.Brent

/-!
# The live map of LittleFS (lfs_inspect.c)

The map follows the list of metadata pairs, marks what they and the files in them occupy, and tells
what is left apart by a blank scan.  The list is read from the chip: it may lead anywhere, and round
in a circle.

* `Lfs`             what the map uses of the library;
* `classifyLive`, `lfsLiveMap`   `classify_live` and `ff_live_map`;
* `Lfs.MetaBlock`, `Lfs.LiveBlock`   the blocks that the library would visit;
* `lfs_live_map`    the map ends, whatever the chip holds, and shows them.
-/

namespace FlashVis
open Bounded

/-- A metadata pair. -/
abbrev LfsPair := UInt32 × UInt32

inductive LfsErr where
  | noent
  | corrupt
  | inval
  | other (code : Int)
  deriving DecidableEq, Repr

/-- What `lfs_dir_get` finds of an entry. -/
inductive LfsStruct where
  | ctz (head size : UInt32)
  | dir (pair : LfsPair)
  | other

/-- `lfs_mdir_t` -/
structure LfsDir where
  pair : LfsPair
  count : UInt16
  tail : LfsPair

/-- A member of `lfs->mlist`. -/
structure LfsFile where
  reg : Bool
  dirty : Bool
  writing : Bool
  inl : Bool
  ctzHead : UInt32
  ctzSize : UInt32
  block : UInt32
  pos : UInt32

/-- The library over the chip, as it is at the moment. -/
structure Lfs where
  blockNull : UInt32
  pairIsnull : LfsPair → Bool
  pairIssync : LfsPair → LfsPair → Bool
  dirFetch : LfsPair → Except LfsErr LfsDir
  dirGet : LfsDir → UInt16 → Except LfsErr LfsStruct
  /-- through the cache of an open file or without one: the blocks it calls back with, and its
  error -/
  ctzTraverse : Option LfsFile → UInt32 → UInt32 → List UInt32 × Option LfsErr
  mlist : List LfsFile

/-- The classes of the blocks (`bc[256]`). -/
abbrev LfsMarks := Nat → UInt8

/-- What a step that may fail in the library makes of the marks; `none` is an access outside
`bc[256]`. -/
abbrev LfsRun := Option (Except LfsErr LfsMarks)

def LfsRun.andThen (r : LfsRun) (f : LfsMarks → LfsRun) : LfsRun :=
  match r with
  | none => none
  | some (.error e) => some (.error e)
  | some (.ok bc) => f bc

/-- `if (block < g_sector_count) bc[block] = cls` -/
def lfsMark (count : UInt32) (cls : UInt8) (bc : LfsMarks) (block : UInt32) : Option LfsMarks :=
  if block < count then poke 256 bc block.toNat cls else some bc

def lfsMarks (count : UInt32) (cls : UInt8) (blocks : List UInt32) (bc : LfsMarks) : Option LfsMarks :=
  blocks.foldlM (lfsMark count cls) bc

theorem LfsRun.andThen_assoc (r : LfsRun) (f g : LfsMarks → LfsRun) :
    (r.andThen f).andThen g = r.andThen fun bc => (f bc).andThen g := by
  cases r with
  | none => rfl
  | some x => cases x <;> rfl

namespace Lfs
variable (L : Lfs) (count : UInt32)

/-- `lfs_ctz_traverse` with `mark_live_cb` -/
def traverse (cache : Option LfsFile) (head size : UInt32) (bc : LfsMarks) : LfsRun :=
  let r := L.ctzTraverse cache head size
  (lfsMarks count clsLive r.1 bc).map fun bc =>
    match r.2 with
    | none => .ok bc
    | some e => .error e

def markPair (pair : LfsPair) (bc : LfsMarks) : LfsRun :=
  (lfsMarks count clsMeta [pair.1, pair.2] bc).map .ok

/-- An entry of a directory. -/
def entry (dir : LfsDir) (id : UInt16) (bc : LfsMarks) : LfsRun :=
  match L.dirGet dir id with
  | .error .noent => some (.ok bc)
  | .error e => some (.error e)
  | .ok (.ctz head size) => L.traverse count none head size bc
  | .ok (.dir pair) => markPair count pair bc
  | .ok .other => some (.ok bc)

def entries (dir : LfsDir) : List UInt16 → LfsMarks → LfsRun
  | [], bc => some (.ok bc)
  | id :: ids, bc => (L.entry count dir id bc).andThen (entries dir ids)

/-- `tortoise`, `tortoise_i` and `tortoise_period` -/
structure Tortoise where
  pair : LfsPair
  i : UInt32 := 1
  period : UInt32 := 1

def Tortoise.pass (t : Tortoise) (tail : LfsPair) : Tortoise :=
  let t := if t.i = t.period then { pair := tail, i := 0, period := t.period * 2 } else t
  { t with i := t.i + 1 }

/-- The ids of the entries. -/
def LfsDir.ids (dir : LfsDir) : List UInt16 := (List.range dir.count.toNat).map Nat.toUInt16

/-- The loop over the list of metadata pairs. -/
def thread : Nat → LfsPair → Tortoise → LfsMarks → LfsRun
  | 0, _, _, _ => none
  | fuel + 1, tail, t, bc =>
    if L.pairIsnull tail then some (.ok bc)
    else if L.pairIssync tail t.pair then some (.error .corrupt)
    else (markPair count tail bc).andThen fun bc =>
      match L.dirFetch tail with
      | .error e => some (.error e)
      | .ok dir => (L.entries count dir (LfsDir.ids dir) bc).andThen fun bc =>
        thread fuel dir.tail (t.pass tail) bc

/-- An open file whose data is not flushed yet. -/
def openFile (f : LfsFile) (bc : LfsMarks) : LfsRun :=
  if !f.reg then some (.ok bc)
  else (if f.dirty && !f.inl then L.traverse count (some f) f.ctzHead f.ctzSize bc
    else some (.ok bc)).andThen fun bc =>
      if f.writing && !f.inl then L.traverse count (some f) f.block f.pos bc else some (.ok bc)

def openFiles : List LfsFile → LfsMarks → LfsRun
  | [], bc => some (.ok bc)
  | f :: fs, bc => (L.openFile count f bc).andThen (openFiles fs)

/-- `classify_live` -/
def classifyLive (fuel : Nat) (bc : LfsMarks) : LfsRun :=
  (L.thread count fuel (0, 1) { pair := (L.blockNull, L.blockNull) } bc).andThen
    (L.openFiles count L.mlist)

end Lfs

/-- Every byte of block `b` is blank. -/
def lfsBlank (flash : Flash) (sectorSize : UInt32) (b : Nat) : Bool :=
  (List.range sectorSize.toNat).all fun i => flash (b * sectorSize.toNat + i) == 0xff

/-- One block of the blank scan. -/
def lfsScan (flash : Flash) (sectorSize : UInt32) (bc : LfsMarks) (b : Nat) : Option LfsMarks := do
  let cls ← peek 256 bc b
  if cls ≠ clsErased then some bc
  else poke 256 bc b (if lfsBlank flash sectorSize b then clsErased else clsObsolete)

/-- The class of each page, once the visited blocks are marked. -/
def lfsPages (flash : Flash) (sectorSize sectorCount pageSize : UInt32) (bc : LfsMarks) :
    Option (List UInt8) := do
  let bc ← (List.range sectorCount.toNat).foldlM (lfsScan flash sectorSize) bc
  let pagesPerBlock := sectorSize / pageSize
  (List.range (sectorCount * pagesPerBlock).toNat).mapM fun p =>
    peek 256 bc (p / pagesPerBlock.toNat)

/-- `ff_live_map` -/
def lfsLiveMap (L : Lfs) (flash : Flash) (mounted : Bool) (sectorSize sectorCount pageSize : UInt32)
    (fuel : Nat) : Option (Except LfsErr (List UInt8)) :=
  if !mounted then some (.error .inval)
  else if sectorCount > 256 ∨ sectorSize > 4096 ∨ pageSize = 0 ∨ sectorSize % pageSize ≠ 0 then
    some (.error .inval)
  else match L.classifyLive sectorCount fuel fun _ => clsErased with
    | none => none
    | some (.error e) => some (.error e)
    | some (.ok bc) => (lfsPages flash sectorSize sectorCount pageSize bc).map .ok

/-! ## what the library would visit -/

namespace Lfs
variable {L : Lfs} {count : UInt32} {bc bc' : LfsMarks} {r : LfsRun}

/-- A pair of the list. -/
inductive OnThread (L : Lfs) : LfsPair → Prop where
  | head : L.pairIsnull (0, 1) = false → OnThread L (0, 1)
  | next {p : LfsPair} {dir : LfsDir} : OnThread L p → L.dirFetch p = .ok dir →
      L.pairIsnull dir.tail = false → OnThread L dir.tail

/-- An entry of a directory of the list. -/
inductive HasEntry (L : Lfs) (s : LfsStruct) : Prop where
  | mk {p : LfsPair} {dir : LfsDir} {id : UInt16} : OnThread L p → L.dirFetch p = .ok dir →
      id ∈ LfsDir.ids dir → L.dirGet dir id = .ok s → HasEntry L s

/-- A block of a metadata pair. -/
def MetaBlock (L : Lfs) (b : UInt32) : Prop :=
  ∃ p, (L.OnThread p ∨ L.HasEntry (.dir p)) ∧ b ∈ [p.1, p.2]

/-- A block that an open file has written and not flushed. -/
def Unflushed (L : Lfs) (f : LfsFile) (b : UInt32) : Prop :=
  f ∈ L.mlist ∧ f.reg = true ∧ f.inl = false ∧
    ((f.dirty = true ∧ b ∈ (L.ctzTraverse (some f) f.ctzHead f.ctzSize).1) ∨
      (f.writing = true ∧ b ∈ (L.ctzTraverse (some f) f.block f.pos).1))

/-- A block of file data. -/
def LiveBlock (L : Lfs) (b : UInt32) : Prop :=
  (∃ head size, L.HasEntry (.ctz head size) ∧ b ∈ (L.ctzTraverse none head size).1) ∨
    ∃ f, L.Unflushed f b

/-- The library reads what the list leads to without a failure. -/
structure Healthy (L : Lfs) : Prop where
  fetch : ∀ p, L.OnThread p → ∃ dir, L.dirFetch p = .ok dir
  /-- the revisions of the two blocks of a pair tell which one is newer -/
  order : ∀ p q, L.pairIssync p q = true → L.dirFetch p = L.dirFetch q
  get : ∀ p dir id e, L.OnThread p → L.dirFetch p = .ok dir → id ∈ LfsDir.ids dir →
    L.dirGet dir id = .error e → e = .noent
  data : ∀ head size, L.HasEntry (.ctz head size) → (L.ctzTraverse none head size).2 = none
  file : ∀ f ∈ L.mlist, f.reg = true → f.inl = false →
    (f.dirty = true → (L.ctzTraverse (some f) f.ctzHead f.ctzSize).2 = none) ∧
      (f.writing = true → (L.ctzTraverse (some f) f.block f.pos).2 = none)

/-! ## one step -/

/-- Every mark is of a block that the library visits. -/
def Sound (L : Lfs) (bc : LfsMarks) : Prop :=
  ∀ b : UInt32, bc b.toNat = clsErased ∨ (bc b.toNat = clsMeta ∧ L.MetaBlock b) ∨
    (bc b.toNat = clsLive ∧ L.LiveBlock b)

/-- Some more blocks are marked, those of `l` among them. -/
structure Grown (count : UInt32) (l : List UInt32) (bc bc' : LfsMarks) : Prop where
  mono : ∀ i, bc i ≠ clsErased → bc' i ≠ clsErased
  covers : ∀ b ∈ l, b < count → bc' b.toNat ≠ clsErased

theorem Grown.refl (bc : LfsMarks) : Grown count [] bc bc :=
  ⟨fun _ h => h, fun _ hb => absurd hb List.not_mem_nil⟩

theorem Grown.trans {bc'' : LfsMarks} {l l' : List UInt32} (h : Grown count l bc bc')
    (h' : Grown count l' bc' bc'') : Grown count (l ++ l') bc bc'' := by
  refine ⟨fun i hi => h'.mono i (h.mono i hi), fun b hb hlt => ?_⟩
  rcases List.mem_append.mp hb with hb | hb
  · exact h'.mono _ (h.covers b hb hlt)
  · exact h'.covers b hb hlt

/-- A run that ends, with sound marks and those of `l` among them unless the library fails. -/
def Runs (L : Lfs) (count : UInt32) (l : List UInt32) (bc : LfsMarks) (r : LfsRun) : Prop :=
  ∃ x, r = some x ∧ (∀ bc', x = .ok bc' → L.Sound bc' ∧ Grown count l bc bc') ∧
    (L.Healthy → ∃ bc', x = .ok bc')

theorem Runs.pure (h : L.Sound bc) : L.Runs count [] bc (some (.ok bc)) := by
  refine ⟨_, rfl, fun bc' he => ?_, fun _ => ⟨bc, rfl⟩⟩
  obtain rfl := Except.ok.inj he
  exact ⟨h, Grown.refl bc⟩

theorem Runs.fail {e : LfsErr} {l : List UInt32} (h : ¬L.Healthy) :
    L.Runs count l bc (some (.error e)) :=
  ⟨_, rfl, fun _ he => absurd he (by simp), fun hh => absurd hh h⟩

theorem Runs.andThen {l l' : List UInt32} {f : LfsMarks → LfsRun} (h : L.Runs count l bc r)
    (hf : ∀ bc', r = some (.ok bc') → L.Sound bc' → L.Runs count l' bc' (f bc')) :
    L.Runs count (l ++ l') bc (r.andThen f) := by
  obtain ⟨x, rfl, hx, hhealthy⟩ := h
  cases x with
  | error e =>
    refine Runs.fail fun hh => ?_
    obtain ⟨_, he⟩ := hhealthy hh
    cases he
  | ok bc1 =>
    obtain ⟨hs, hg⟩ := hx bc1 rfl
    obtain ⟨y, hy, hy', hhealthy'⟩ := hf bc1 rfl hs
    refine ⟨y, hy, fun bc2 he => ?_, hhealthy'⟩
    obtain ⟨hs', hg'⟩ := hy' bc2 he
    exact ⟨hs', hg.trans hg'⟩

section
variable (hc : count ≤ 256)

include hc

theorem lfsMarks_run {cls : UInt8} (hcls : cls ≠ clsErased) (l : List UInt32) (hs : L.Sound bc)
    (hl : ∀ b ∈ l, (cls = clsMeta ∧ L.MetaBlock b) ∨ (cls = clsLive ∧ L.LiveBlock b)) :
    ∃ bc', lfsMarks count cls l bc = some bc' ∧ L.Sound bc' ∧ Grown count l bc bc' := by
  induction l generalizing bc with
  | nil => exact ⟨bc, rfl, hs, Grown.refl bc⟩
  | cons b l ih =>
    have hlt : count.toNat ≤ 256 := hc
    obtain ⟨bc1, h1, hs1, hg1⟩ : ∃ bc1, lfsMark count cls bc b = some bc1 ∧ L.Sound bc1 ∧
        Grown count [b] bc bc1 := by
      unfold lfsMark
      by_cases hb : b < count
      · have hb' : b.toNat < count.toNat := hb
        rw [if_pos hb, poke_eq (by omega)]
        refine ⟨_, rfl, fun a => ?_, fun i hi => ?_, fun a ha _ => ?_⟩
        · by_cases hab : a.toNat = b.toNat
          · have hab' := UInt32.toNat_inj.mp hab
            rw [hab', Function.update_self]
            exact .inr (hl b List.mem_cons_self)
          · rw [Function.update_of_ne hab]
            exact hs a
        · by_cases hib : i = b.toNat
          · rw [hib, Function.update_self]
            exact hcls
          · rw [Function.update_of_ne hib]
            exact hi
        · rw [List.mem_singleton.mp ha, Function.update_self]
          exact hcls
      · rw [if_neg hb]
        refine ⟨bc, rfl, hs, fun i hi => hi, fun a ha hlt => ?_⟩
        rw [List.mem_singleton.mp ha] at hlt
        exact absurd hlt hb
    obtain ⟨bc2, h2, hs2, hg2⟩ := ih hs1 fun a ha => hl a (List.mem_cons_of_mem b ha)
    refine ⟨bc2, ?_, hs2, hg1.trans hg2⟩
    unfold lfsMarks at h2 ⊢
    rw [List.foldlM_cons, do_some h1, h2]

theorem markPair_run {p : LfsPair} (hs : L.Sound bc)
    (hp : L.OnThread p ∨ L.HasEntry (.dir p)) : L.Runs count [p.1, p.2] bc (markPair count p bc) := by
  obtain ⟨bc1, h1, hs1, hg1⟩ := lfsMarks_run hc (by decide : clsMeta ≠ clsErased) [p.1, p.2] hs
    fun b hb => .inl ⟨rfl, p, hp, hb⟩
  refine ⟨.ok bc1, by rw [markPair, h1]; rfl, fun bc' he => ?_, fun _ => ⟨bc1, rfl⟩⟩
  obtain rfl := Except.ok.inj he
  exact ⟨hs1, hg1⟩

theorem traverse_run {cache : Option LfsFile} {head size : UInt32} (hs : L.Sound bc)
    (hl : ∀ b ∈ (L.ctzTraverse cache head size).1, L.LiveBlock b)
    (hok : L.Healthy → (L.ctzTraverse cache head size).2 = none) :
    L.Runs count (L.ctzTraverse cache head size).1 bc (L.traverse count cache head size bc) := by
  obtain ⟨bc1, h1, hs1, hg1⟩ := lfsMarks_run hc (by decide : clsLive ≠ clsErased) _ hs
    fun b hb => .inr ⟨rfl, hl b hb⟩
  unfold traverse
  dsimp only
  rw [h1]
  cases herr : (L.ctzTraverse cache head size).2 with
  | some e =>
    refine Runs.fail fun hh => ?_
    rw [hok hh] at herr
    cases herr
  | none =>
    refine ⟨_, rfl, fun bc' he => ?_, fun _ => ⟨bc1, rfl⟩⟩
    obtain rfl := Except.ok.inj he
    exact ⟨hs1, hg1⟩

/-- What an entry occupies. -/
def entryBlocks (L : Lfs) (dir : LfsDir) (id : UInt16) : List UInt32 :=
  match L.dirGet dir id with
  | .ok (.ctz head size) => (L.ctzTraverse none head size).1
  | .ok (.dir pair) => [pair.1, pair.2]
  | _ => []

theorem entry_run {p : LfsPair} {dir : LfsDir} {id : UInt16} (hs : L.Sound bc) (hp : L.OnThread p)
    (hd : L.dirFetch p = .ok dir) (hid : id ∈ LfsDir.ids dir) :
    L.Runs count (L.entryBlocks dir id) bc (L.entry count dir id bc) := by
  unfold entry entryBlocks
  cases h : L.dirGet dir id with
  | error e =>
    have hfail : e ≠ .noent → ¬L.Healthy := fun hne hh => hne (hh.get p dir id e hp hd hid h)
    cases e with
    | noent => exact Runs.pure hs
    | corrupt => exact Runs.fail (hfail (by simp))
    | inval => exact Runs.fail (hfail (by simp))
    | other code => exact Runs.fail (hfail (by simp))
  | ok s =>
    cases s with
    | other => exact Runs.pure hs
    | dir pair => exact markPair_run hc hs (.inr (.mk hp hd hid h))
    | ctz head size =>
      have hentry : L.HasEntry (.ctz head size) := .mk hp hd hid h
      exact traverse_run hc hs (fun b hb => .inl ⟨head, size, hentry, hb⟩)
        fun hh => hh.data head size hentry

theorem entries_run {p : LfsPair} {dir : LfsDir} (hp : L.OnThread p) (hd : L.dirFetch p = .ok dir)
    (ids : List UInt16) (hs : L.Sound bc) (hids : ∀ id ∈ ids, id ∈ LfsDir.ids dir) :
    L.Runs count (ids.flatMap (L.entryBlocks dir)) bc (L.entries count dir ids bc) := by
  induction ids generalizing bc with
  | nil => exact Runs.pure hs
  | cons id ids ih =>
    rw [List.flatMap_cons]
    refine (entry_run hc hs hp hd (hids id List.mem_cons_self)).andThen fun bc' _ hs' => ?_
    exact ih hs' fun i hi => hids i (List.mem_cons_of_mem id hi)

/-- What an open file has not flushed. -/
def fileBlocks (L : Lfs) (f : LfsFile) : List UInt32 :=
  if !f.reg then []
  else (if f.dirty && !f.inl then (L.ctzTraverse (some f) f.ctzHead f.ctzSize).1 else []) ++
    if f.writing && !f.inl then (L.ctzTraverse (some f) f.block f.pos).1 else []

theorem openFile_run {f : LfsFile} (hs : L.Sound bc) (hf : f ∈ L.mlist) :
    L.Runs count (L.fileBlocks f) bc (L.openFile count f bc) := by
  unfold openFile fileBlocks
  cases hreg : f.reg with
  | false => exact Runs.pure hs
  | true =>
    have hone : ∀ {bc : LfsMarks} {flag : Bool} {head size : UInt32}, L.Sound bc →
        (flag = true → f.inl = false →
          (∀ b ∈ (L.ctzTraverse (some f) head size).1, L.LiveBlock b) ∧
            (L.Healthy → (L.ctzTraverse (some f) head size).2 = none)) →
        L.Runs count (if flag && !f.inl then (L.ctzTraverse (some f) head size).1 else []) bc
          (if flag && !f.inl then L.traverse count (some f) head size bc else some (.ok bc)) := by
      intro bc flag head size hs hl
      by_cases h : (flag && !f.inl) = true
      · rw [if_pos h, if_pos h]
        simp only [Bool.and_eq_true, Bool.not_eq_true'] at h
        exact traverse_run hc hs (hl h.1 h.2).1 (hl h.1 h.2).2
      · rw [if_neg h, if_neg h]
        exact Runs.pure hs
    refine (hone hs fun hd hi => ⟨fun b hb => ?_, fun hh => ?_⟩).andThen
      fun bc' _ hs' => hone hs' fun hw hi => ⟨fun b hb => ?_, fun hh => ?_⟩
    · exact .inr ⟨f, hf, hreg, hi, .inl ⟨hd, hb⟩⟩
    · exact (hh.file f hf hreg hi).1 hd
    · exact .inr ⟨f, hf, hreg, hi, .inr ⟨hw, hb⟩⟩
    · exact (hh.file f hf hreg hi).2 hw

theorem openFiles_run (fs : List LfsFile) (hs : L.Sound bc) (hf : ∀ f ∈ fs, f ∈ L.mlist) :
    L.Runs count (fs.flatMap L.fileBlocks) bc (L.openFiles count fs bc) := by
  induction fs generalizing bc with
  | nil => exact Runs.pure hs
  | cons f fs ih =>
    rw [List.flatMap_cons]
    refine (openFile_run hc hs (hf f List.mem_cons_self)).andThen fun bc' _ hs' => ?_
    exact ih hs' fun g hg => hf g (List.mem_cons_of_mem f hg)

end

/-! ## the list of metadata pairs -/

/-- What is documented of the library. -/
structure Lawful (L : Lfs) (count : UInt32) : Prop where
  /-- a pair is in sync with itself -/
  refl : ∀ p, L.pairIssync p p = true
  /-- no pair of the list is in sync with two blocks that are not there -/
  null : ∀ p, L.pairIsnull p = false → L.pairIssync p (L.blockNull, L.blockNull) = false
  /-- a block outside the chip is corrupt -/
  bounds : ∀ p, L.pairIsnull p = false → count ≤ p.1 ∨ count ≤ p.2 → ∃ e, L.dirFetch p = .error e

/-- The pair after `p`. -/
def after (L : Lfs) (p : LfsPair) : LfsPair :=
  match L.dirFetch p with
  | .ok dir => dir.tail
  | .error _ => p

/-- Pair `k` of the list. -/
def tailAt (L : Lfs) (k : Nat) : LfsPair := L.after^[k] (0, 1)

/-- The list ends. -/
def Ends (L : Lfs) : Prop := ∃ k, L.pairIsnull (L.tailAt k) = true

theorem tailAt_after (k : Nat) : L.tailAt (k + 1) = L.after (L.tailAt k) :=
  Function.iterate_succ_apply' ..

theorem tailAt_succ {dir : LfsDir} {k : Nat} (h : L.dirFetch (L.tailAt k) = .ok dir) :
    L.tailAt (k + 1) = dir.tail := by
  rw [tailAt_after, after, h]

/-- A list that comes back goes round. -/
theorem tailAt_add {μ c : Nat} (h : L.tailAt (μ + c) = L.tailAt μ) (d : Nat) :
    L.tailAt (μ + d + c) = L.tailAt (μ + d) := by
  induction d with
  | zero => exact h
  | succ d ih =>
    calc L.tailAt (μ + d + 1 + c) = L.tailAt (μ + d + c + 1) := by rw [Nat.add_right_comm]
      _ = L.tailAt (μ + d + 1) := by rw [tailAt_after, ih, ← tailAt_after]

/-- The tortoise as it waits at pair `k`. -/
structure Tracks (L : Lfs) (k : Nat) (t : Tortoise) : Prop where
  pair : t.pair = (Brent.watch L.tailAt k).tortoise.getD (L.blockNull, L.blockNull)
  i : t.i.toNat = (Brent.watch L.tailAt k).passed
  period : t.period.toNat = (Brent.watch L.tailAt k).period

theorem Tracks.start : L.Tracks 0 { pair := (L.blockNull, L.blockNull) } := ⟨rfl, rfl, rfl⟩

theorem Tracks.pass {t : Tortoise} {k : Nat} (h : L.Tracks k t) (hk : k < 2 ^ 30) :
    L.Tracks (k + 1) (t.pass (L.tailAt k)) := by
  have hsmall : (Brent.watch L.tailAt k).passed ≤ k + 1 ∧ (Brent.watch L.tailAt k).period ≤ k + 2 := by
    cases k with
    | zero => exact ⟨Nat.le_refl 1, Nat.le_succ 1⟩
    | succ k =>
      obtain ⟨m, -, hlow, -, heq⟩ := Brent.watch_eq L.tailAt k
      rw [heq]
      exact ⟨Nat.le_trans (Nat.sub_le _ _) (Nat.le_succ _), by show 2 ^ m ≤ k + 1 + 2; omega⟩
  have hi : t.i = t.period ↔
      (Brent.watch L.tailAt k).passed = (Brent.watch L.tailAt k).period := by
    rw [← UInt32.toNat_inj, h.i, h.period]
  have hwatch : Brent.watch L.tailAt (k + 1) = (Brent.watch L.tailAt k).pass (L.tailAt k) := rfl
  have hperiod : (t.period * 2).toNat = (Brent.watch L.tailAt k).period * 2 :=
    WlFlash.mul_toNat h.period rfl (by omega)
  have hone : ((0 : UInt32) + 1).toNat = 1 := rfl
  have hnext : (t.i + 1).toNat = (Brent.watch L.tailAt k).passed + 1 :=
    WlFlash.add_toNat h.i rfl (by omega)
  unfold Brent.Watch.pass at hwatch
  unfold Tortoise.pass
  by_cases hp : (Brent.watch L.tailAt k).passed = (Brent.watch L.tailAt k).period
  · rw [if_pos hp] at hwatch
    refine ⟨?_, ?_, ?_⟩ <;> rw [hwatch, if_pos (hi.mpr hp)]
    · rfl
    · exact hone
    · exact hperiod
  · rw [if_neg hp] at hwatch
    refine ⟨?_, ?_, ?_⟩ <;> rw [hwatch, if_neg fun he => hp (hi.mp he)]
    · exact h.pair
    · exact hnext
    · exact h.period

/-- A pair that meets the tortoise was passed before. -/
theorem Tracks.sync {t : Tortoise} {k : Nat} (h : L.Tracks k t) (hL : L.Lawful count)
    (hnull : L.pairIsnull (L.tailAt k) = false) (hs : L.pairIssync (L.tailAt k) t.pair = true) :
    ∃ j < k, L.pairIssync (L.tailAt k) (L.tailAt j) = true := by
  rw [h.pair] at hs
  cases ht : (Brent.watch L.tailAt k).tortoise with
  | none =>
    rw [ht, Option.getD_none, hL.null _ hnull] at hs
    exact absurd hs Bool.false_ne_true
  | some p =>
    rw [ht, Option.getD_some] at hs
    obtain ⟨j, hj, rfl⟩ := Brent.sees_earlier ht
    exact ⟨j, hj, hs⟩

/-- The loop has passed the first `k` pairs. -/
structure Reach (L : Lfs) (k : Nat) : Prop where
  null : ∀ j < k, L.pairIsnull (L.tailAt j) = false
  fetch : ∀ j < k, ∃ dir, L.dirFetch (L.tailAt j) = .ok dir
  sync : ∀ j < k, ∀ p, (Brent.watch L.tailAt j).tortoise = some p →
    L.pairIssync (L.tailAt j) p = false

theorem Reach.zero : L.Reach 0 :=
  ⟨fun _ h => absurd h (Nat.not_lt_zero _), fun _ h => absurd h (Nat.not_lt_zero _),
    fun _ h => absurd h (Nat.not_lt_zero _)⟩

theorem Reach.onThread {k j : Nat} (h : L.Reach k) (hj : j ≤ k)
    (hnull : L.pairIsnull (L.tailAt j) = false) : L.OnThread (L.tailAt j) := by
  induction j with
  | zero => exact .head hnull
  | succ j ih =>
    obtain ⟨dir, hdir⟩ := h.fetch j hj
    rw [tailAt_succ hdir] at hnull ⊢
    exact .next (ih (Nat.le_of_succ_le hj) (h.null j hj)) hdir hnull

theorem Reach.succ {k : Nat} {t : Tortoise} {dir : LfsDir} (h : L.Reach k) (ht : L.Tracks k t)
    (hnull : L.pairIsnull (L.tailAt k) = false) (hsync : L.pairIssync (L.tailAt k) t.pair = false)
    (hfetch : L.dirFetch (L.tailAt k) = .ok dir) : L.Reach (k + 1) := by
  refine ⟨fun j hj => ?_, fun j hj => ?_, fun j hj p hp => ?_⟩ <;>
    rcases Nat.lt_succ_iff_lt_or_eq.mp hj with hlt | rfl
  · exact h.null j hlt
  · exact hnull
  · exact h.fetch j hlt
  · exact ⟨dir, hfetch⟩
  · exact h.sync j hlt p hp
  · rw [ht.pair, hp, Option.getD_some] at hsync
    exact hsync

theorem OnThread.exists_lt {m : Nat} (hend : L.pairIsnull (L.tailAt m) = true) {p : LfsPair}
    (hp : L.OnThread p) : ∃ j < m, p = L.tailAt j := by
  induction hp with
  | head hnull =>
    refine ⟨0, Nat.pos_of_ne_zero fun hm => ?_, rfl⟩
    rw [hm] at hend
    exact Bool.false_ne_true (hnull.symm.trans hend)
  | next _ hdir hnull ih =>
    obtain ⟨j, hj, rfl⟩ := ih
    rw [← tailAt_succ hdir] at hnull ⊢
    refine ⟨j + 1, Nat.lt_of_le_of_ne hj fun hm => ?_, rfl⟩
    rw [hm] at hnull
    exact Bool.false_ne_true (hnull.symm.trans hend)

/-- How many pairs the loop can pass on a chip of `n` blocks. -/
def maxPairs (n : Nat) : Nat := 3 * (n * n) + 4

/-- The pairs of two of the first `n` blocks. -/
def onChip (n : Nat) : Finset LfsPair :=
  (Finset.range n ×ˢ Finset.range n).image fun q => (q.1.toUInt32, q.2.toUInt32)

theorem onChip_card (n : Nat) : (onChip n).card ≤ n * n := by
  refine Nat.le_trans Finset.card_image_le ?_
  rw [Finset.card_product, Finset.card_range]

theorem mem_onChip {n : Nat} {p : LfsPair} (h1 : p.1.toNat < n) (h2 : p.2.toNat < n) :
    p ∈ onChip n := by
  refine Finset.mem_image.mpr ⟨(p.1.toNat, p.2.toNat), ?_, ?_⟩
  · exact Finset.mem_product.mpr ⟨Finset.mem_range.mpr h1, Finset.mem_range.mpr h2⟩
  · exact Prod.ext (UInt32.toNat_inj.mp (Nat.mod_eq_of_lt (UInt32.toNat_lt _)))
      (UInt32.toNat_inj.mp (Nat.mod_eq_of_lt (UInt32.toNat_lt _)))

/-- **The loop ends**, wherever the list leads: a pair is fetched only if both of its blocks are on
the chip, and a list that comes back meets the tortoise. -/
theorem Reach.bounded {k : Nat} (h : L.Reach k) (hL : L.Lawful count) :
    k ≤ maxPairs count.toNat := by
  refine Nat.le_of_not_lt fun hk => ?_
  have hcard := onChip_card count.toNat
  unfold maxPairs at hk
  have hin : ∀ j ≤ (onChip count.toNat).card, L.tailAt j ∈ onChip count.toNat := by
    intro j hj
    have hjk : j < k := by omega
    obtain ⟨dir, hdir⟩ := h.fetch j hjk
    have hon : ¬(count ≤ (L.tailAt j).1 ∨ count ≤ (L.tailAt j).2) := by
      intro hout
      obtain ⟨e, he⟩ := hL.bounds _ (h.null j hjk) hout
      rw [he] at hdir
      cases hdir
    rw [not_or, UInt32.not_le, UInt32.not_le] at hon
    exact mem_onChip hon.1 hon.2
  obtain ⟨μ, c, hpos, hle, hrep⟩ := Brent.exists_repeat hin
  have hper : ∀ j, μ ≤ j → L.tailAt (j + c) = L.tailAt j := by
    intro j hj
    obtain ⟨d, rfl⟩ := Nat.exists_eq_add_of_le hj
    exact tailAt_add hrep d
  obtain ⟨j, hj, hmeet⟩ := Brent.caught hpos hper
  have hfalse := h.sync j (by omega) _ hmeet
  rw [hL.refl] at hfalse
  cases hfalse

/-- A pair that was passed before is only met where the list does not end. -/
theorem Reach.endless {j k : Nat} (h : L.Reach k) (hh : L.Healthy) (hj : j < k)
    (hnull : L.pairIsnull (L.tailAt k) = false)
    (hs : L.pairIssync (L.tailAt k) (L.tailAt j) = true) : ¬L.Ends := by
  have hnext : L.tailAt (j + 1 + (k - j)) = L.tailAt (j + 1) := by
    have hk : j + 1 + (k - j) = k + 1 := by omega
    obtain ⟨dir, hdir⟩ := hh.fetch _ (h.onThread (Nat.le_refl k) hnull)
    have hdir' := hdir
    rw [hh.order _ _ hs] at hdir'
    rw [hk, tailAt_succ hdir, tailAt_succ hdir']
  have hall : ∀ n, L.pairIsnull (L.tailAt n) = false := by
    intro n
    induction n using Nat.strong_induction_on with
    | _ n ih =>
      rcases Nat.lt_trichotomy n k with hlt | rfl | hgt
      · exact h.null n hlt
      · exact hnull
      · -- one round earlier
        have hn : n = j + 1 + (n - (k - j) - (j + 1)) + (k - j) := by omega
        rw [hn, tailAt_add hnext]
        exact ih _ (by omega)
  rintro ⟨n, hn⟩
  rw [hall n] at hn
  cases hn

/-- What a pair of the list and its entries occupy. -/
def pairBlocks (L : Lfs) (p : LfsPair) : List UInt32 :=
  [p.1, p.2] ++ match L.dirFetch p with
    | .ok dir => (LfsDir.ids dir).flatMap (L.entryBlocks dir)
    | .error _ => []

/-- What the loop makes of the marks: it ends, at the end of the list or because it goes round. -/
def Threads (L : Lfs) (count : UInt32) (k : Nat) (bc : LfsMarks) (r : LfsRun) : Prop :=
  ∃ x, r = some x ∧
    (∀ bc', x = .ok bc' → L.Sound bc' ∧ ∃ n, L.pairIsnull (L.tailAt (k + n)) = true ∧
      Grown count ((List.range' k n).flatMap fun j => L.pairBlocks (L.tailAt j)) bc bc') ∧
    (L.Healthy → (∃ bc', x = .ok bc') ∨ (x = .error .corrupt ∧ ¬L.Ends))

theorem Threads.fail {k : Nat} {e : LfsErr} (h : ¬L.Healthy) :
    L.Threads count k bc (some (.error e)) :=
  ⟨_, rfl, fun _ he => absurd he (by simp), fun hh => absurd hh h⟩

theorem Threads.cons {k : Nat} {f : LfsMarks → LfsRun}
    (h : L.Runs count (L.pairBlocks (L.tailAt k)) bc r)
    (hf : ∀ bc', L.Sound bc' → L.Threads count (k + 1) bc' (f bc')) :
    L.Threads count k bc (r.andThen f) := by
  obtain ⟨x, rfl, hx, hhealthy⟩ := h
  cases x with
  | error e =>
    refine Threads.fail fun hh => ?_
    obtain ⟨_, he⟩ := hhealthy hh
    cases he
  | ok bc1 =>
    obtain ⟨hs, hg⟩ := hx bc1 rfl
    obtain ⟨y, hy, hy', hhealthy'⟩ := hf bc1 hs
    refine ⟨y, hy, fun bc2 he => ?_, hhealthy'⟩
    obtain ⟨hs', n, hend, hg'⟩ := hy' bc2 he
    refine ⟨hs', n + 1, ?_, ?_⟩
    · rw [Nat.add_right_comm] at hend
      exact hend
    · rw [List.range'_succ, List.flatMap_cons]
      exact hg.trans hg'

theorem thread_run (hc : count ≤ 256) (hL : L.Lawful count) (fuel k : Nat)
    (hfuel : maxPairs count.toNat < k + fuel) {t : Tortoise} (h : L.Reach k) (ht : L.Tracks k t)
    (hs : L.Sound bc) : L.Threads count k bc (L.thread count fuel (L.tailAt k) t bc) := by
  induction fuel generalizing k t bc with
  | zero =>
    have hk := h.bounded hL
    omega
  | succ fuel ih =>
    unfold thread
    cases hnull : L.pairIsnull (L.tailAt k) with
    | true =>
      refine ⟨_, rfl, fun bc' he => ?_, fun _ => .inl ⟨bc, rfl⟩⟩
      obtain rfl := Except.ok.inj he
      exact ⟨hs, 0, hnull, Grown.refl bc⟩
    | false =>
      rw [if_neg Bool.false_ne_true]
      cases hsync : L.pairIssync (L.tailAt k) t.pair with
      | true =>
        obtain ⟨j, hj, hsame⟩ := ht.sync hL hnull hsync
        refine ⟨_, rfl, fun _ he => absurd he (by simp), fun hh => .inr ⟨rfl, ?_⟩⟩
        exact h.endless hh hj hnull hsame
      | false =>
        rw [if_neg Bool.false_ne_true]
        have hon := h.onThread (Nat.le_refl k) hnull
        cases hfetch : L.dirFetch (L.tailAt k) with
        | error e =>
          refine Threads.cons ?_ fun _ _ => Threads.fail fun hh => ?_
          · unfold pairBlocks
            rw [hfetch]
            exact markPair_run hc hs (.inl hon)
          · obtain ⟨dir, hdir⟩ := hh.fetch _ hon
            rw [hfetch] at hdir
            cases hdir
        | ok dir =>
          have hstep : L.Runs count (L.pairBlocks (L.tailAt k)) bc
              ((markPair count (L.tailAt k) bc).andThen
                (L.entries count dir (LfsDir.ids dir))) := by
            unfold pairBlocks
            rw [hfetch]
            exact (markPair_run hc hs (.inl hon)).andThen fun bc' _ hs' =>
              entries_run hc hon hfetch _ hs' fun _ hid => hid
          dsimp only
          rw [← LfsRun.andThen_assoc]
          refine Threads.cons hstep fun bc' hs' => ?_
          rw [← tailAt_succ hfetch]
          have hk := h.bounded hL
          have hmax : maxPairs count.toNat < 2 ^ 30 := by
            have hcount : count.toNat ≤ 256 := hc
            have := Nat.mul_le_mul hcount hcount
            unfold maxPairs
            omega
          exact ih (k + 1) (by omega) (h.succ ht hnull hsync hfetch) (ht.pass (by omega)) hs'

/-- Every block that the library visits is marked. -/
theorem marked_of_thread {n : Nat} (hend : L.pairIsnull (L.tailAt n) = true)
    (h : Grown count ((List.range' 0 n).flatMap fun j => L.pairBlocks (L.tailAt j)) bc bc')
    {p : LfsPair} (hp : L.OnThread p) {b : UInt32} (hb : b ∈ L.pairBlocks p) (hlt : b < count) :
    bc' b.toNat ≠ clsErased := by
  obtain ⟨j, hj, rfl⟩ := hp.exists_lt hend
  refine h.covers b (List.mem_flatMap.mpr ⟨j, ?_, hb⟩) hlt
  exact List.mem_range'_1.mpr ⟨Nat.zero_le j, by omega⟩

theorem HasEntry.mem_pairBlocks {s : LfsStruct} {b : UInt32} (h : L.HasEntry s)
    (hb : ∀ dir id, L.dirGet dir id = .ok s → b ∈ L.entryBlocks dir id) :
    ∃ p, L.OnThread p ∧ b ∈ L.pairBlocks p := by
  obtain ⟨hp, hd, hid, hs⟩ := h
  refine ⟨_, hp, ?_⟩
  unfold pairBlocks
  rw [hd]
  exact List.mem_append_right _ (List.mem_flatMap.mpr ⟨_, hid, hb _ _ hs⟩)

/-- The blocks that are visited. -/
def Visited (L : Lfs) (b : UInt32) : Prop := L.MetaBlock b ∨ L.LiveBlock b

theorem Unflushed.mem_fileBlocks {f : LfsFile} {b : UInt32} (h : L.Unflushed f b) :
    f ∈ L.mlist ∧ b ∈ L.fileBlocks f := by
  obtain ⟨hf, hreg, hinl, hb⟩ := h
  refine ⟨hf, ?_⟩
  unfold fileBlocks
  rw [hreg, hinl]
  rcases hb with ⟨hd, hb⟩ | ⟨hw, hb⟩
  · rw [hd]
    exact List.mem_append_left _ hb
  · rw [hw]
    exact List.mem_append_right _ hb

theorem Visited.cases {b : UInt32} (h : L.Visited b) :
    (∃ p, L.OnThread p ∧ b ∈ L.pairBlocks p) ∨ b ∈ L.mlist.flatMap L.fileBlocks := by
  rcases h with ⟨p, hp | hp, hb⟩ | ⟨head, size, he, hb⟩ | ⟨f, hf⟩
  · exact .inl ⟨p, hp, List.mem_append_left _ hb⟩
  · refine .inl (hp.mem_pairBlocks fun dir id hs => ?_)
    unfold entryBlocks
    rw [hs]
    exact hb
  · refine .inl (he.mem_pairBlocks fun dir id hs => ?_)
    unfold entryBlocks
    rw [hs]
    exact hb
  · obtain ⟨hmem, hb⟩ := hf.mem_fileBlocks
    exact .inr (List.mem_flatMap.mpr ⟨f, hmem, hb⟩)

theorem classifyLive_run (hc : count ≤ 256) (hL : L.Lawful count) {fuel : Nat}
    (hfuel : maxPairs count.toNat < fuel) :
    ∃ x, L.classifyLive count fuel (fun _ => clsErased) = some x ∧
      (∀ bc', x = .ok bc' → L.Ends ∧ L.Sound bc' ∧
        ∀ b, b < count → L.Visited b → bc' b.toNat ≠ clsErased) ∧
      (L.Healthy → (∃ bc', x = .ok bc') ∨ (x = .error .corrupt ∧ ¬L.Ends)) := by
  have hblank : L.Sound fun _ => clsErased := fun _ => .inl rfl
  obtain ⟨x, hx, hok, hhealthy⟩ :=
    thread_run hc hL fuel 0 (by omega) Reach.zero Tracks.start hblank
  have hrun : L.classifyLive count fuel (fun _ => clsErased) =
      LfsRun.andThen (some x) (L.openFiles count L.mlist) := by
    rw [← hx]
    rfl
  cases x with
  | error e =>
    refine ⟨.error e, hrun, fun _ he => absurd he (by simp), fun hh => ?_⟩
    exact hhealthy hh
  | ok bc =>
    obtain ⟨hs, n, hend, hg⟩ := hok bc rfl
    rw [Nat.zero_add] at hend
    obtain ⟨y, hy, hok', hhealthy'⟩ := openFiles_run hc L.mlist hs fun _ hf => hf
    refine ⟨y, hrun.trans hy, fun bc' he => ?_, fun hh => .inl (hhealthy' hh)⟩
    obtain ⟨hs', hg'⟩ := hok' bc' he
    refine ⟨⟨n, hend⟩, hs', fun b hlt hv => ?_⟩
    rcases hv.cases with ⟨p, hp, hb⟩ | hb
    · exact hg'.mono _ (marked_of_thread hend hg hp hb hlt)
    · exact hg'.covers b hb hlt

/-! ## the map -/

/-- Block `b` is shown as class `cls`. -/
def Shown (L : Lfs) (flash : Flash) (sectorSize : UInt32) (b : UInt32) (cls : UInt8) : Prop :=
  (cls = clsMeta ∧ L.MetaBlock b) ∨ (cls = clsLive ∧ L.LiveBlock b) ∨
    (¬L.Visited b ∧
      cls = if lfsBlank flash sectorSize b.toNat then clsErased else clsObsolete)

end Lfs

/-- What the blank scan makes of the mark of block `b`. -/
def lfsTold (flash : Flash) (sectorSize : UInt32) (bc : LfsMarks) (b : Nat) : UInt8 :=
  if bc b = clsErased then (if lfsBlank flash sectorSize b then clsErased else clsObsolete) else bc b

/-- **The blank scan** tells apart what is not marked. -/
theorem lfsScan_all (flash : Flash) (sectorSize : UInt32) (bc : LfsMarks) {n : Nat} (hn : n ≤ 256) :
    ∃ bc', (List.range n).foldlM (lfsScan flash sectorSize) bc = some bc' ∧
      ∀ b < n, bc' b = lfsTold flash sectorSize bc b := by
  have hstep : ∀ i < n, ∀ a : LfsMarks,
      ((∀ b < i, a b = lfsTold flash sectorSize bc b) ∧ ∀ b, i ≤ b → a b = bc b) →
      ∃ a', lfsScan flash sectorSize a i = some a' ∧
        (∀ b < i + 1, a' b = lfsTold flash sectorSize bc b) ∧ ∀ b, i + 1 ≤ b → a' b = bc b := by
    rintro i hi a ⟨hlow, hhigh⟩
    unfold lfsScan
    rw [do_some (peek_eq (by omega) a), hhigh i (Nat.le_refl i)]
    by_cases hb : bc i = clsErased
    · rw [if_neg (not_not.mpr hb), poke_eq (by omega)]
      refine ⟨_, rfl, fun b hlt => ?_, fun b hge => ?_⟩
      · rcases Nat.lt_succ_iff_lt_or_eq.mp hlt with hlt | rfl
        · rw [Function.update_of_ne (Nat.ne_of_lt hlt)]
          exact hlow b hlt
        · rw [Function.update_self, lfsTold, if_pos hb]
      · rw [Function.update_of_ne (by omega)]
        exact hhigh b (Nat.le_of_succ_le hge)
    · rw [if_pos hb]
      refine ⟨_, rfl, fun b hlt => ?_, fun b hge => hhigh b (Nat.le_of_succ_le hge)⟩
      rcases Nat.lt_succ_iff_lt_or_eq.mp hlt with hlt | rfl
      · exact hlow b hlt
      · rw [lfsTold, if_neg hb]
        exact hhigh b (Nat.le_refl b)
  obtain ⟨bc', h, hlow, -⟩ := Loop.foldlM_range_inv n
    (P := fun i (a : LfsMarks) => (∀ b < i, a b = lfsTold flash sectorSize bc b) ∧ ∀ b, i ≤ b → a b = bc b)
    ⟨fun _ h => absurd h (Nat.not_lt_zero _), fun _ _ => rfl⟩ hstep
  exact ⟨bc', h, hlow⟩

/-- Where the marks are sound and complete, the blank scan shows the blocks. -/
theorem Lfs.Sound.shown {L : Lfs} {count : UInt32} {bc : LfsMarks} (hs : L.Sound bc)
    (hall : ∀ b, b < count → L.Visited b → bc b.toNat ≠ clsErased) (flash : Flash)
    (sectorSize : UInt32) {b : UInt32} (hb : b < count) :
    L.Shown flash sectorSize b (lfsTold flash sectorSize bc b.toNat) := by
  unfold lfsTold
  rcases hs b with h | ⟨h, hm⟩ | ⟨h, hl⟩
  · rw [if_pos h]
    exact .inr (.inr ⟨fun hv => hall b hb hv h, rfl⟩)
  · rw [h, if_neg (by decide)]
    exact .inl ⟨rfl, hm⟩
  · rw [h, if_neg (by decide)]
    exact .inr (.inl ⟨rfl, hl⟩)

theorem page_block {m q : Nat} (hq : 0 < q) (hdvd : q ∣ m) (p : Nat) : p * q / m = p / (m / q) := by
  obtain ⟨k, rfl⟩ := hdvd
  rw [Nat.mul_div_cancel_left k hq, Nat.mul_comm p q, Nat.mul_div_mul_left p k hq]

theorem lfsPages_eq (flash : Flash) (bc : LfsMarks) {sectorSize sectorCount pageSize : UInt32}
    (hc : sectorCount ≤ 256) (hsize : sectorSize ≤ 4096) (hpage : pageSize ≠ 0)
    (hmod : sectorSize % pageSize = 0) :
    ∃ out, lfsPages flash sectorSize sectorCount pageSize bc = some out ∧
      out.length = sectorSize.toNat * sectorCount.toNat / pageSize.toNat ∧
      ∀ p cls, out[p]? = some cls → ∃ b < sectorCount,
        b.toNat = p * pageSize.toNat / sectorSize.toNat ∧
          cls = lfsTold flash sectorSize bc b.toNat := by
  have hc' : sectorCount.toNat ≤ 256 := hc
  have hsize' : sectorSize.toNat ≤ 4096 := hsize
  have hpos : 0 < pageSize.toNat := Nat.pos_of_ne_zero fun h => hpage (UInt32.toNat_inj.mp h)
  have hdvd : pageSize.toNat ∣ sectorSize.toNat := by
    refine Nat.dvd_of_mod_eq_zero ?_
    rw [← UInt32.toNat_mod, hmod]
    rfl
  have hppb : (sectorSize / pageSize).toNat = sectorSize.toNat / pageSize.toNat :=
    UInt32.toNat_div ..
  have hppb' : sectorSize.toNat / pageSize.toNat ≤ 4096 := Nat.le_trans (Nat.div_le_self _ _) hsize'
  have htotal : (sectorCount * (sectorSize / pageSize)).toNat =
      sectorCount.toNat * (sectorSize.toNat / pageSize.toNat) :=
    WlFlash.mul_toNat rfl hppb (by have := Nat.mul_le_mul hc' hppb'; omega)
  have hblock : ∀ p < sectorCount.toNat * (sectorSize.toNat / pageSize.toNat),
      p / (sectorSize.toNat / pageSize.toNat) < sectorCount.toNat := fun p hp =>
    Nat.div_lt_of_lt_mul (by rw [Nat.mul_comm]; exact hp)
  obtain ⟨bc', hscan, htold⟩ := lfsScan_all flash sectorSize bc hc'
  have hmap : (List.range (sectorCount * (sectorSize / pageSize)).toNat).mapM
      (fun p => peek 256 bc' (p / (sectorSize / pageSize).toNat)) =
      some ((List.range (sectorCount * (sectorSize / pageSize)).toNat).map
        fun p => bc' (p / (sectorSize / pageSize).toNat)) := by
    refine Loop.mapM_some fun p hp => peek_eq ?_ bc'
    rw [List.mem_range, htotal] at hp
    rw [hppb]
    exact Nat.lt_of_lt_of_le (hblock p hp) hc'
  refine ⟨_, by unfold lfsPages; rw [do_some hscan]; exact hmap, ?_, fun p cls hcls => ?_⟩
  · rw [List.length_map, List.length_range, htotal, Nat.mul_comm sectorSize.toNat,
      Nat.mul_div_assoc _ hdvd]
  · obtain ⟨q, hq, rfl⟩ := Option.map_eq_some_iff.mp (List.getElem?_map ▸ hcls)
    obtain ⟨hlt, rfl⟩ := List.getElem?_eq_some_iff.mp hq
    rw [List.length_range, htotal] at hlt
    have hb := hblock p hlt
    have heq : (p / (sectorSize / pageSize).toNat).toUInt32.toNat =
        p / (sectorSize.toNat / pageSize.toNat) := by
      rw [hppb]
      exact Nat.mod_eq_of_lt (by omega)
    refine ⟨(p / (sectorSize / pageSize).toNat).toUInt32, ?_, ?_, ?_⟩
    · show UInt32.toNat _ < sectorCount.toNat
      rw [heq]
      exact hb
    · rw [heq, page_block hpos hdvd]
    · rw [heq, List.getElem_range, hppb]
      exact htold _ hb

/-- **The live map of LittleFS.**  It ends and stays within its array whatever the chip holds, also
where the list of metadata pairs goes round.  A map that is given has one entry for each page, which
tells what the library would visit in the page's block.  It fails exactly where the library does, or
the list has no end. -/
theorem lfs_live_map (L : Lfs) (flash : Flash) (mounted : Bool)
    (sectorSize sectorCount pageSize : UInt32) (hL : L.Lawful sectorCount) (fuel : Nat)
    (hfuel : Lfs.maxPairs sectorCount.toNat < fuel) :
    ∃ r, lfsLiveMap L flash mounted sectorSize sectorCount pageSize fuel = some r ∧
      (∀ out, r = .ok out →
        out.length = sectorSize.toNat * sectorCount.toNat / pageSize.toNat ∧
        ∀ p cls, out[p]? = some cls → ∃ b < sectorCount,
          b.toNat = p * pageSize.toNat / sectorSize.toNat ∧ L.Shown flash sectorSize b cls) ∧
      (mounted = true → sectorCount ≤ 256 → sectorSize ≤ 4096 → pageSize ≠ 0 →
        sectorSize % pageSize = 0 → L.Healthy →
          (L.Ends ∧ ∃ out, r = .ok out) ∨ (¬L.Ends ∧ r = .error .corrupt)) := by
  unfold lfsLiveMap
  cases mounted with
  | false => exact ⟨_, rfl, fun _ he => absurd he (by simp), fun h => absurd h Bool.false_ne_true⟩
  | true =>
    rw [if_neg (by decide)]
    by_cases hgeom : sectorCount > 256 ∨ sectorSize > 4096 ∨ pageSize = 0 ∨ sectorSize % pageSize ≠ 0
    · rw [if_pos hgeom]
      refine ⟨_, rfl, fun _ he => absurd he (by simp), fun _ h1 h2 h3 h4 => ?_⟩
      rcases hgeom with h | h | h | h
      · exact absurd h1 (UInt32.not_le.mpr h)
      · exact absurd h2 (UInt32.not_le.mpr h)
      · exact absurd h h3
      · exact absurd h4 h
    · rw [if_neg hgeom]
      simp only [not_or, gt_iff_lt, UInt32.not_lt, not_not] at hgeom
      obtain ⟨hc, hsize, hpage, hmod⟩ := hgeom
      obtain ⟨x, hx, hok, hhealthy⟩ := Lfs.classifyLive_run hc hL hfuel
      rw [hx]
      cases x with
      | error e =>
        refine ⟨_, rfl, fun _ he => absurd he (by simp), fun _ _ _ _ _ hh => ?_⟩
        rcases hhealthy hh with ⟨_, he⟩ | ⟨he, hends⟩
        · cases he
        · obtain rfl := Except.error.inj he
          exact .inr ⟨hends, rfl⟩
      | ok bc =>
        obtain ⟨hends, hs, hall⟩ := hok bc rfl
        obtain ⟨out, hout, hlen, hclass⟩ := lfsPages_eq flash bc hc hsize hpage hmod
        refine ⟨.ok out, by dsimp only; rw [hout]; rfl, fun out' he => ?_, fun _ _ _ _ _ _ => ?_⟩
        · obtain rfl := Except.ok.inj he
          refine ⟨hlen, fun p cls hcls => ?_⟩
          obtain ⟨b, hb, hpage, rfl⟩ := hclass p cls hcls
          exact ⟨b, hb, hpage, hs.shown hall flash sectorSize hb⟩
        · exact .inl ⟨hends, out, rfl⟩

/-- A volume of five blocks with two metadata pairs and one file; `tail` is after the second pair, and
`err` is what the library says of the file's data. -/
def smallLfs (tail : LfsPair) (err : Option LfsErr) : Lfs where
  blockNull := 0xffffffff
  pairIsnull p := p.1 == 0xffffffff || p.2 == 0xffffffff
  pairIssync p q := p.1 == q.1 && p.2 == q.2 || p.1 == q.2 && p.2 == q.1
  dirFetch p :=
    if p = (0, 1) ∨ p = (1, 0) then .ok ⟨p, 1, (2, 3)⟩
    else if p = (2, 3) ∨ p = (3, 2) then .ok ⟨p, 0, tail⟩
    else .error .corrupt
  dirGet _ _ := .ok (.ctz 4 10)
  ctzTraverse _ head _ := ([head], err)
  mlist := []

theorem smallLfs_lawful (tail : LfsPair) (err : Option LfsErr) : (smallLfs tail err).Lawful 5 := by
  refine ⟨fun p => ?_, fun p hp => ?_, fun p _ hout => ?_⟩
  · simp [smallLfs]
  · simp only [smallLfs, Bool.or_eq_false_iff] at hp ⊢
    simp [hp]
  · refine ⟨.corrupt, ?_⟩
    show (if _ then _ else if _ then _ else _) = _
    rw [if_neg, if_neg] <;> rintro (rfl | rfl) <;> revert hout <;> decide

/-- The list ends, goes round after two pairs, or ends with a file that cannot be read. -/
theorem lfs_live_map_small :
    lfsLiveMap (smallLfs (0xffffffff, 0xffffffff) none) (fun _ => 0xff) true 512 5 256 80 =
        some (.ok [1, 1, 1, 1, 1, 1, 1, 1, 3, 3]) ∧
      lfsLiveMap (smallLfs (1, 0) none) (fun _ => 0xff) true 512 5 256 80 = some (.error .corrupt) ∧
      lfsLiveMap (smallLfs (0xffffffff, 0xffffffff) (some .inval)) (fun _ => 0xff) true 512 5 256 80 =
        some (.error .inval) ∧
      ∀ tail err, ∃ r, lfsLiveMap (smallLfs tail err) (fun _ => 0xff) true 512 5 256 80 = some r ∧
        ∀ out, r = .ok out → out.length = 10 ∧ ∀ p cls, out[p]? = some cls → ∃ b < 5,
          b.toNat = p * 256 / 512 ∧ (smallLfs tail err).Shown (fun _ => 0xff) 512 b cls := by
  refine ⟨by decide +kernel, by decide +kernel, by decide +kernel, fun tail err => ?_⟩
  obtain ⟨r, hr, hout, -⟩ := lfs_live_map (smallLfs tail err) (fun _ => 0xff) true 512 5 256
    (smallLfs_lawful tail err) 80 (by decide)
  exact ⟨r, hr, hout⟩

end FlashVis

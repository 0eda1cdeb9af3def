import FlashVis.Bindings.Handles

/-!
# The shims stay at their descriptor

A driver's reads, writes, seeks and stats are code over the library.  That they call it on the
descriptor they are given, and on no other, is said without a look at the code: whatever the
library's calls on that descriptor keep of its memory, they keep.

* `Library.Keeps`      the library's calls on a descriptor keep `P`;
* `Driver.Own`         a driver's code keeps what the library's calls on its descriptor keep;
* `Shim`, `Shim.own`   the five shims do;
* `others_leave`       calls on other handles leave an open handle's descriptor alone.
-/

namespace FlashVis

/-- The library's calls on descriptor `d` keep `P`. -/
inductive Library.Keeps {τ : Type} (L : Library τ) (P : τ → Prop) : Desc → Prop where
  | file {i : Fin FF_MAX_FILES}
      (openFile : ∀ name access m f, P m → P (L.openFile i name access m f).2.1)
      (readFile : ∀ n m f, P m → P (L.readFile i n m f).2.1)
      (writeFile : ∀ data m f, P m → P (L.writeFile i data m f).2.1)
      (seekFile : ∀ off whence m f, P m → P (L.seekFile i off whence m f).2.1)
      (lseek : ∀ ofs m f, P m → P (L.lseek i ofs m f).2.1)
      (rewind : ∀ m f, P m → P (L.rewind i m f).2.1)
      (skip : ∀ n m f, P m → P (L.skip i n m f).2.1)
      (statFile : ∀ m f, P m → P (L.statFile i m f).2.1)
      (closeFile : ∀ m f, P m → P (L.closeFile i m f).2.1) : Keeps L P (.file i)
  | dir {i : Fin FF_MAX_DIRS}
      (openDir : ∀ pre m f, P m → P (L.openDir i pre m f).2.1)
      (nextFile : ∀ m f, P m → P (L.nextFile i m f).2.1)
      (closeDir : ∀ m f, P m → P (L.closeDir i m f).2.1) : Keeps L P (.dir i)

/-! ## code over the library -/

namespace Prog
variable {τ α β : Type} {P : τ → Prop}

/-- The code keeps `P` of the library's memory, also where it traps. -/
def Keeps (P : τ → Prop) (p : Prog τ α) : Prop := ∀ w : Work τ, P w.lib → P (p.run w).2.lib

theorem Keeps.pure (a : α) : Keeps P (Pure.pure a : Prog τ α) := fun _ h => h

theorem Keeps.get : Keeps P (MonadState.get : Prog τ (Work τ)) := fun _ h => h

theorem Keeps.bind {p : Prog τ α} {q : α → Prog τ β} (hp : Keeps P p) (hq : ∀ a, Keeps P (q a)) :
    Keeps P (p >>= q) := by
  intro w hw
  have h := hp w hw
  revert h
  show P _ → P (ExceptT.bindCont q (ExceptT.run p w).1 (ExceptT.run p w).2).2.lib
  rcases ExceptT.run p w with ⟨e | a, w'⟩
  · exact id
  · exact hq a w'

theorem Keeps.prim {p : Prim τ α} (hp : ∀ m f, P m → P (p m f).2.1) : Keeps P p.prog :=
  fun w hw => hp w.lib w.flash hw

end Prog

namespace Driver
variable {τ : Type} {L : Library τ} {P : τ → Prop} {i : Fin FF_MAX_FILES}

open Prog

/-- What the library's calls on a descriptor keep, the driver's code for it keeps. -/
structure Own (D : Driver τ) : Prop where
  read : ∀ P i, D.lib.Keeps P (.file i) → ∀ n, Keeps P (D.read i n)
  write : ∀ P i, D.lib.Keeps P (.file i) → ∀ data, Keeps P (D.write i data)
  seek : ∀ P i, D.lib.Keeps P (.file i) → ∀ off whence, Keeps P (D.seek i off whence)
  stat : ∀ P i, D.lib.Keeps P (.file i) → ∀ name cap, Keeps P (D.stat i name cap)

theorem fillLoop_keeps (h : ∀ n m f, P m → P (L.readFile i n m f).2.1) (turns n : Nat)
    (out : List UInt8) : Keeps P (fillLoop L i turns n out) := by
  induction turns generalizing n out with
  | zero => exact Keeps.pure _
  | succ turns ih =>
    refine Keeps.bind (Keeps.prim (h n)) fun r => ?_
    rcases r with e | got
    · exact Keeps.pure _
    · cases got with
      | nil => exact Keeps.pure _
      | cons b got =>
        dsimp only
        split
        · exact Keeps.pure _
        · exact ih _ _

theorem oneRead_keeps (h : ∀ n m f, P m → P (L.readFile i n m f).2.1) (n : Nat) :
    Keeps P (oneRead L i n) := by
  refine Keeps.bind (Keeps.prim (h n)) fun r => ?_
  cases r <;> exact Keeps.pure _

theorem spiffsRead_keeps (h : ∀ n m f, P m → P (L.readFile i n m f).2.1) (n : Nat) :
    Keeps P (spiffsRead L i n) := by
  unfold spiffsRead
  split
  · exact Keeps.pure _
  · exact oneRead_keeps h n

theorem writeCount_keeps (h : ∀ data m f, P m → P (L.writeFile i data m f).2.1)
    (data : List UInt8) : Keeps P (writeCount L i data) := by
  refine Keeps.bind (Keeps.prim (h data)) fun r => ?_
  cases r <;> exact Keeps.pure _

theorem writeAll_keeps (h : ∀ data m f, P m → P (L.writeFile i data m f).2.1)
    (data : List UInt8) : Keeps P (writeAll L i data) := by
  refine Keeps.bind (Keeps.prim (h data)) fun r => ?_
  cases r <;> exact Keeps.pure _

theorem seekForward_keeps (h : ∀ off whence m f, P m → P (L.seekFile i off whence m f).2.1)
    (off : Int) (whence : Nat) : Keeps P (seekForward L i off whence) := by
  refine Keeps.bind (Keeps.prim (h off whence)) fun r => ?_
  cases r <;> exact Keeps.pure _

theorem fatSeek_keeps (h : ∀ ofs m f, P m → P (L.lseek i ofs m f).2.1) (off : Int) (whence : Nat) :
    Keeps P (fatSeek L i off whence) := by
  refine Keeps.bind Keeps.get fun w => ?_
  dsimp only
  split
  · exact Keeps.pure _
  · refine Keeps.bind (Keeps.prim (h _)) fun r => ?_
    cases r with
    | error e => exact Keeps.pure _
    | ok _ => exact Keeps.bind Keeps.get fun _ => Keeps.pure _

theorem jesSeek_keeps (hrewind : ∀ m f, P m → P (L.rewind i m f).2.1)
    (hskip : ∀ n m f, P m → P (L.skip i n m f).2.1) (off : Int) (whence : Nat) :
    Keeps P (jesSeek L i off whence) := by
  refine Keeps.bind Keeps.get fun w => ?_
  dsimp only
  split
  · exact Keeps.pure _
  split
  · exact Keeps.pure _
  -- the rewind, where there is one, and then the skip
  split
  all_goals
    refine Keeps.bind (by first | exact Keeps.prim hrewind | exact Keeps.pure _) fun rewound => ?_
    cases rewound with
    | error e => exact Keeps.pure _
    | ok _ =>
      refine Keeps.bind Keeps.get fun w => ?_
      split
      · exact Keeps.pure _
      refine Keeps.bind (Keeps.prim (hskip _)) fun r => ?_
      cases r with
      | error e => exact Keeps.pure _
      | ok rc =>
        dsimp only
        split
        · exact Keeps.pure _
        · exact Keeps.bind Keeps.get fun _ => Keeps.pure _

theorem statLib_keeps (h : ∀ m f, P m → P (L.statFile i m f).2.1) (name : List UInt8) (cap : Nat) :
    Keeps P (statLib L i name cap) := by
  refine Keeps.bind (Keeps.prim h) fun r => ?_
  cases r <;> exact Keeps.pure _

theorem statSize_keeps (h : ∀ m f, P m → P (L.statFile i m f).2.1) (name : List UInt8) (cap : Nat) :
    Keeps P (statSize L i name cap) := by
  refine Keeps.bind (Keeps.prim h) fun r => ?_
  cases r <;> exact Keeps.pure _

theorem statField_keeps (name : List UInt8) (cap : Nat) : Keeps P (statField L i name cap) :=
  Keeps.bind Keeps.get fun _ => Keeps.pure _

theorem jesStat_keeps (name : List UInt8) (cap : Nat) : Keeps P (jesStat L i name cap) :=
  Keeps.bind Keeps.get fun _ => Keeps.pure _

end Driver

/-- The five shims. -/
inductive Shim where
  | fastffs | littlefs | fatfs | jesfs | spiffs
  deriving DecidableEq, Repr

/-- The driver of a shim. -/
def Shim.driver {τ : Type} (L : Library τ) : Shim → Driver τ
  | .fastffs => FlashVis.fastffs L
  | .littlefs => FlashVis.littlefs L
  | .fatfs => FlashVis.fatfs L
  | .jesfs => FlashVis.jesfs L
  | .spiffs => FlashVis.spiffs L

open Driver in
/-- **Every shim stays at its descriptor.** -/
theorem Shim.own {τ : Type} (L : Library τ) (k : Shim) : (k.driver L).Own := by
  have hlib : (k.driver L).lib = L := by cases k <;> rfl
  refine ⟨fun P i h n => ?_, fun P i h data => ?_, fun P i h off whence => ?_,
    fun P i h name cap => ?_⟩ <;> rw [hlib] at h <;>
    obtain ⟨-, hread, hwrite, hseek, hlseek, hrewind, hskip, hstat, -⟩ := h
  · cases k with
    | fastffs => exact fillLoop_keeps hread n n []
    | littlefs => exact fillLoop_keeps hread n n []
    | fatfs => exact fillLoop_keeps hread n n []
    | jesfs => exact oneRead_keeps hread n
    | spiffs => exact spiffsRead_keeps hread n
  · cases k with
    | fastffs => exact writeAll_keeps hwrite data
    | littlefs => exact writeCount_keeps hwrite data
    | fatfs => exact writeCount_keeps hwrite data
    | jesfs => exact writeAll_keeps hwrite data
    | spiffs => exact writeCount_keeps hwrite data
  · cases k with
    | fastffs => exact seekForward_keeps hseek off whence
    | littlefs => exact seekForward_keeps hseek off whence
    | fatfs => exact fatSeek_keeps hlseek off whence
    | jesfs => exact jesSeek_keeps hrewind hskip off whence
    | spiffs => exact seekForward_keeps hseek off whence
  · cases k with
    | fastffs => exact statLib_keeps hstat name cap
    | littlefs => exact statSize_keeps hstat name cap
    | fatfs => exact statField_keeps name cap
    | jesfs => exact jesStat_keeps name cap
    | spiffs => exact statLib_keeps hstat name cap

/-! ## what a call does to the library -/

namespace Driver
variable {τ : Type} {D : Driver τ} {P : τ → Prop} {s : ShimState τ} {d : Desc}

theorem onDesc_keeps {α : Type} {p : Prog τ α} (d : Desc) (hp : Prog.Keeps P p) (f : Flash)
    (hP : P s.lib) : P (onDesc d p s f).2.1.lib := hp ⟨s.geometry, s.lib, f, []⟩ hP

theorem onFile_keeps {h : Int} {body : Fin FF_MAX_FILES → ShimState τ → Prog τ FfRet}
    {i : Fin FF_MAX_FILES} (hs : s.file_used.slot? h = some i) (hb : Prog.Keeps P (body i s))
    (f : Flash) (hP : P s.lib) : P (D.onFile h body s f).next.lib := by
  unfold onFile
  rw [hs]
  exact onDesc_keeps (.file i) hb f hP

theorem call_keeps (hD : D.Own) (hL : D.lib.Keeps P d) (m : Method) (hu : s.inUse d = true)
    (f : Flash) (hP : P s.lib) : P (D.call (m.ff d.index d) s f).next.lib := by
  cases d with
  | file i =>
    have hs := ShimState.slot_file hu
    cases m with
    | read n => exact onFile_keeps hs (hD.read P i hL n) f hP
    | write data => exact onFile_keeps hs (hD.write P i hL data) f hP
    | seek off whence => exact onFile_keeps hs (hD.seek P i hL off _) f hP
    | stat => exact onFile_keeps hs (hD.stat P i hL _ 128) f hP
    | close =>
      obtain ⟨-, -, -, -, -, -, -, -, hclose⟩ := hL
      have hkeep := onDesc_keeps (.file i) (Prog.Keeps.prim hclose) f hP
      show P (D.ff_file_close i.val s f).next.lib
      unfold ff_file_close
      rw [hs]
      dsimp only
      split
      · next heq => simpa [heq] using hkeep
      · next heq => simpa [heq] using hkeep
  | dir i =>
    have hs := ShimState.slot_dir hu
    obtain ⟨hnext, hclose⟩ : (∀ m f, P m → P (D.lib.nextFile i m f).2.1) ∧
        ∀ m f, P m → P (D.lib.closeDir i m f).2.1 := by
      cases hL with
      | dir _ hnext hclose => exact ⟨hnext, hclose⟩
    have hread : P (D.ff_dir_read i.val 64 s f).next.lib := by
      have hkeep := onDesc_keeps (.dir i) (Prog.Keeps.prim hnext) f hP
      unfold ff_dir_read
      rw [hs]
      dsimp only
      split <;> next heq => simpa [heq] using hkeep
    cases m with
    | close =>
      have hkeep := onDesc_keeps (.dir i) (Prog.Keeps.prim hclose) f hP
      show P (D.ff_dir_close i.val s f).next.lib
      unfold ff_dir_close
      rw [hs]
      dsimp only
      split <;> next heq => simpa [heq] using hkeep
    | _ => exact hread

theorem ff_open_keeps (hL : ∀ d, s.inUse d = false → D.lib.Keeps P d) (name : String) (mode : Nat)
    (f : Flash) (hP : P s.lib) : P (D.ff_open name mode s f).next.lib := by
  unfold ff_open
  split
  · exact hP
  · next access _ =>
    split
    · exact hP
    · next h hfree =>
      obtain ⟨hopen, -⟩ := hL (.file h) (Pool.first?_free hfree)
      have hkeep := onDesc_keeps (.file h) (Prog.Keeps.prim (hopen name access)) f hP
      split <;> next heq => simpa [heq] using hkeep

theorem ff_dir_open_keeps (hL : ∀ d, s.inUse d = false → D.lib.Keeps P d) (pre : String)
    (f : Flash) (hP : P s.lib) : P (D.ff_dir_open pre s f).next.lib := by
  unfold ff_dir_open
  split
  · exact hP
  · next h hfree =>
    have hopen : ∀ m f, P m → P (D.lib.openDir h pre m f).2.1 := by
      cases hL (.dir h) (Pool.first?_free hfree) with
      | dir hopen _ _ => exact hopen pre
    have hkeep := onDesc_keeps (.dir h) (Prog.Keeps.prim hopen) f hP
    split <;> next heq => simpa [heq] using hkeep

end Driver

theorem Runner.checked_sys {σ : Type} {W : Wasm σ} {c : FfCall} {what : String} {r : Runner σ}
    {ok : FfRet → Runner σ → Val × Runner σ} (hok : ∀ ret r, (ok ret r).2.sys = r.sys) :
    (checked W c what r ok).next.sys = (W.call c r.sys r.device.flash).next := by
  unfold checked ff
  dsimp only
  split
  · next heq =>
    obtain ⟨-, hr⟩ := Prod.mk.inj heq
    rw [← (Prod.mk.inj hr).1]
  · next heq =>
    obtain ⟨-, hr⟩ := Prod.mk.inj heq
    split
    · rw [← (Prod.mk.inj hr).1]
    · rw [hok, ← (Prod.mk.inj hr).1]

/-! ## runs -/

namespace Session
variable {τ : Type} {D : Driver τ} {boot : Geometry → τ} {caps : Nat} {ex : String → Bool}
  {s : Session τ} {P : τ → Prop} {id : Nat} {o : Opened} {h : HandleObj} {m : Method}

theorem open_keeps (hL : ∀ d, s.runner.sys.inUse d = false → D.lib.Keeps P d)
    (hP : P s.runner.sys.lib) (name mode : String) :
    P (s.step (D.wasm boot caps ex) (.open_ name mode)).runner.sys.lib := by
  show P (s.runner.open_ (D.wasm boot caps ex) name mode).next.sys.lib
  unfold Runner.open_
  split
  · exact hP
  · rw [Runner.checked_sys fun _ _ => rfl]
    exact Driver.ff_open_keeps hL name _ _ hP

theorem openDir_keeps (hL : ∀ d, s.runner.sys.inUse d = false → D.lib.Keeps P d)
    (hP : P s.runner.sys.lib) (pre : String) :
    P (s.step (D.wasm boot caps ex) (.openDir pre)).runner.sys.lib := by
  show P (s.runner.openDir (D.wasm boot caps ex) pre).next.sys.lib
  unfold Runner.openDir
  rw [Runner.checked_sys fun _ _ => rfl]
  exact Driver.ff_dir_open_keeps hL pre _ hP

/-- A method of an open object is its export, or does nothing. -/
theorem on_keeps (hs : s.Sound) (hD : D.Own) (hat : s.At id o h) (hc : h.closed = false)
    (hL : D.lib.Keeps P o.desc) (hP : P s.runner.sys.lib) :
    P (s.step (D.wasm boot caps ex) (.on id m)).runner.sys.lib := by
  have hix := hs.index id o h hat
  have hcall := Driver.call_keeps hD hL m (hs.live id o h hat hc) s.runner.device.flash hP
  rw [← hix] at hcall
  by_cases hr : m.reaches o.desc = true
  · obtain ⟨rc, hrc, ⟨what, ok, hrun⟩ | ⟨ok, hrun, -⟩⟩ :=
      runs_reaches (W := D.wasm boot caps ex) hat.2 hr
    · rw [step, exec_on hat.1 _ hrc, hrun, Runner.checked_next]
      exact hcall
    · rw [step, exec_on hat.1 _ hrc, hrun, Runner.plain_next]
      exact hcall
  · by_cases hm : m = .close
    · subst hm
      have hh := hat.2
      obtain ⟨d, name⟩ := o
      cases d with
      | file i =>
        have hrun : (s.runner.exec (D.wasm boot caps ex) (.fClose id)).next.sys =
            ((D.wasm boot caps ex).call (.fileClose h.handle) s.runner.sys
              s.runner.device.flash).next := by
          simp only [Runner.exec, Runner.close, Runner.onHandle, hh, hc, Bool.false_eq_true, if_false]
          exact Runner.checked_sys fun _ _ => rfl
        rw [step, exec_on hat.1 (.fClose id) rfl, hrun]
        exact hcall
      | dir i =>
        have hrun : (s.runner.exec (D.wasm boot caps ex) (.dClose id)).next.sys =
            ((D.wasm boot caps ex).call (.dirClose h.handle) s.runner.sys
              s.runner.device.flash).next := by
          simp only [Runner.exec, Runner.close, Runner.onHandle, hh, hc, Bool.false_eq_true, if_false]
          rw [Runner.plain_next]
        rw [step, exec_on hat.1 (.dClose id) rfl, hrun]
        exact hcall
    · rw [(on_other (W := D.wasm boot caps ex) hat (by simpa using hr) hm).2]
      exact hP

/-- The run leaves object `id` alone, and goes to the module through no closed object whose slot is
in use. -/
def Elsewhere (id : Nat) (s : Session τ) (c : HandleCall) : Prop :=
  (∀ m, c ≠ .on id m) ∧ s.Fresh c

/-- A call elsewhere leaves an open object's descriptor alone. -/
theorem elsewhere_step (hs : s.Sound) (hD : D.Own) (hat : s.At id o h) (hc : h.closed = false)
    (hL : ∀ d, d ≠ o.desc → D.lib.Keeps P d) (hP : P s.runner.sys.lib) {c : HandleCall}
    (he : s.Elsewhere id c) : P (s.step (D.wasm boot caps ex) c).runner.sys.lib := by
  have hfree : ∀ d, s.runner.sys.inUse d = false → D.lib.Keeps P d := by
    intro d hd
    refine hL d fun heq => ?_
    rw [heq, hs.live id o h hat hc] at hd
    exact Bool.false_ne_true hd.symm
  cases c with
  | open_ name mode => exact open_keeps hfree hP name mode
  | openDir pre => exact openDir_keeps hfree hP pre
  | on j m =>
    rcases ho : s.objs[j]? with - | o'
    · rw [on_missing ho]
      exact hP
    · obtain ⟨h', hat'⟩ := hs.at ho
      have hne : j ≠ id := fun heq => he.1 m (by rw [heq])
      cases hc' : h'.closed with
      | true =>
        rw [(((apart_on hs).mpr he.2 o' h' hat').1 hc').2]
        exact hP
      | false => exact on_keeps hs hD hat' hc' (hL _ (hs.ne hat hat' hc hc' hne)) hP

/-- **Handles do not touch each other.**  Over each of the five shims and any library: while a handle
object is open, a run of opens and of methods of other objects keeps whatever the library's own calls
on the other descriptors keep of its memory, and leaves the object open on its descriptor. -/
theorem others_leave (k : Shim) (L : Library τ) (boot : Geometry → τ) (caps : Nat)
    (ex : String → Bool) (fsId : String) (g : Geometry) (gs js : List HandleCall) (P : τ → Prop)
    {id : Nat} {o : Opened} {h : HandleObj} :
    let W := (k.driver L).wasm boot caps ex
    let s := Machine.run (step W) (start W fsId g) gs
    s.At id o h → h.closed = false → (∀ d, d ≠ o.desc → L.Keeps P d) → P s.runner.sys.lib →
      Machine.Along (step W) (Elsewhere id) s js →
      P (Machine.run (step W) s js).runner.sys.lib ∧ (Machine.run (step W) s js).At id o h := by
  intro W s hat hc hL hP he
  have hlib : (k.driver L).lib = L := by cases k <;> rfl
  rw [← hlib] at hL
  have hs : s.Sound := Machine.run_inv' (fun _ c h => h.step c) gs (start_sound fsId g)
  have hkeep : ∀ (t : Session τ) c, t.Elsewhere id c →
      (t.Sound ∧ t.At id o h ∧ P t.runner.sys.lib) →
      (t.step W c).Sound ∧ (t.step W c).At id o h ∧ P (t.step W c).runner.sys.lib := by
    rintro t c he ⟨ht, hat, hP⟩
    exact ⟨ht.step c, ht.at_step hat (.inr he.1), elsewhere_step ht (k.own L) hat hc hL hP he⟩
  obtain ⟨-, hat', hP'⟩ := Machine.run_inv hkeep he ⟨hs, hat, hP⟩
  exact ⟨hP', hat'⟩

/-- In the small files in memory a descriptor's position is its own. -/
theorem memFs_keeps {d : Desc} (hd : d ≠ .file 0) :
    MemFs.library.Keeps (fun m => m.pos 0 = ("a", 0)) d := by
  cases d with
  | dir i => exact .dir (fun _ _ _ h => h) (fun _ _ h => h) fun _ _ h => h
  | file i =>
    have hi : (0 : Fin FF_MAX_FILES) ≠ i := fun heq => hd (by rw [heq])
    have hpoint : ∀ (m : MemFs) name at_, (m.point i name at_).pos 0 = m.pos 0 :=
      fun m name at_ => Function.update_of_ne hi ..
    refine .file (fun name access m f h => ?_) (fun n m f h => ?_) (fun data m f h => ?_)
      (fun off whence m f h => ?_) (fun ofs m f h => ?_) (fun m f h => ?_) (fun n m f h => ?_)
      (fun m f h => h) fun m f h => h
    · show (MemFs.library.openFile i name access m f).2.1.pos 0 = _
      unfold MemFs.library
      dsimp only
      split <;> first | exact h | exact (hpoint ..).trans h
    all_goals exact (hpoint ..).trans h

/-- Two files open for writing. -/
def twoOpen : List HandleCall := [.open_ "a" "w", .open_ "b" "w"]

/-- While `b` is written and closed and `c` is opened in its slot, the descriptor of `a` stays. -/
theorem others_leave_two :
    (Machine.run (step memWasm) (Machine.run (step memWasm) (start memWasm "littlefs" ⟨4096, 64, 256, 1⟩)
      twoOpen) [.on 1 (.write [66]), .on 1 .close, .open_ "c" "w"]).runner.sys.lib.pos 0 = ("a", 0) := by
  have hat : (Machine.run (step memWasm) (start memWasm "littlefs" ⟨4096, 64, 256, 1⟩) twoOpen).At 0
      ⟨.file 0, "a"⟩ ⟨0, false⟩ := ⟨by decide +kernel, by decide +kernel⟩
  have hopen : (Machine.run (step memWasm) (start memWasm "littlefs" ⟨4096, 64, 256, 1⟩)
      twoOpen).runner.handles[1]? = some ⟨1, false⟩ := by decide +kernel
  refine (others_leave .littlefs MemFs.library (fun _ => {}) 12 (fun _ => true) "littlefs"
    ⟨4096, 64, 256, 1⟩ twoOpen [.on 1 (.write [66]), .on 1 .close, .open_ "c" "w"]
    (fun m => m.pos 0 = ("a", 0)) hat rfl (fun d hd => memFs_keeps hd) (by decide +kernel)
    ⟨⟨fun m => by simp, ?_⟩, ⟨fun m => by simp, ?_⟩, ⟨fun m => by simp, trivial⟩, trivial⟩).1
  · intro o h hat' hc
    rw [Option.some.inj (hat'.2.symm.trans hopen)] at hc
    exact absurd hc Bool.false_ne_true
  · intro o h _ _ hr
    cases hd : o.desc <;> rw [hd] at hr <;> exact absurd hr Bool.false_ne_true

end Session

end FlashVis

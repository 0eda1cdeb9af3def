import FlashVis.Bindings.Shim
import FlashVis.Lib.Machine

/-!
# Handle objects over a static pool (runner.js `open`, `openDir`)

A handle object carries a bare slot number and a `closed` flag that only `close()` looks at.  A
session is a runner over one driver with, as a ghost, what every handle object was opened on: the
descriptor that the library filled and the name it was given.

* `Fresh`   the calls that reach the module through a closed object find its slot free;
* `Apart`   a call on a closed object changes nothing, and a call on an open one hands the library
            that object's descriptor only, which no later open has filled;
* `closed_handle_apart`   a run is `Apart` at every step exactly when it is `Fresh` at every step.
-/

namespace FlashVis

namespace Desc

/-- The number the module knows the descriptor by. -/
def index : Desc → Nat
  | .file h => h
  | .dir h => h

end Desc

namespace ShimState
variable {τ : Type}

/-- The bit of a descriptor in the shim's bitmaps. -/
def inUse (s : ShimState τ) : Desc → Bool
  | .file h => s.file_used.used h
  | .dir h => s.dir_used.used h

end ShimState

/-- What a handle object was opened on. -/
structure Opened where
  desc : Desc
  name : String
  deriving DecidableEq, Repr

/-- A method of a handle object; a directory object has `read()` and `close()` only. -/
inductive Method where
  | read (n : Nat)
  | write (data : List UInt8)
  | seek (off : Int) (whence : String)
  | stat
  | close
  deriving DecidableEq, Repr

/-- The runner call behind a method of object `id`. -/
def Method.call (id : Nat) : Desc → Method → Option RCall
  | .file _, .read n => some (.fRead id n)
  | .file _, .write data => some (.fWrite id data)
  | .file _, .seek off whence => some (.fSeek id off whence)
  | .file _, .stat => some (.fStat id)
  | .file _, .close => some (.fClose id)
  | .dir _, .read _ => some (.dRead id)
  | .dir _, .close => some (.dClose id)
  | .dir _, _ => none

/-- The methods that go to the module without a look at the `closed` flag. -/
def Method.reaches : Desc → Method → Bool
  | .file _, .seek _ whence => (Runner.whenceCode whence).isSome
  | _, .close => false
  | .file _, _ => true
  | .dir _, .read _ => true
  | .dir _, _ => false

inductive HandleCall where
  | open_ (name mode : String)
  | openDir (pre : String)
  | on (id : Nat) (m : Method)
  deriving DecidableEq, Repr

/-- What an open was asked for. -/
def HandleCall.target : HandleCall → Option String
  | .open_ name _ => some name
  | .openDir pre => some pre
  | .on _ _ => none

structure Session (τ : Type) where
  runner : Runner (ShimState τ)
  objs : List Opened := []

namespace Session
variable {τ : Type}

/-- The runner call of a session call; `none` when the object has no such method. -/
def request (s : Session τ) : HandleCall → Option RCall
  | .open_ name mode => some (.open_ name mode)
  | .openDir pre => some (.openDir pre)
  | .on id m => s.objs[id]?.bind fun o => m.call id o.desc

/-- The object that a call has made: its descriptor is the one the library was given last. -/
def made (c : HandleCall) (st : RunnerStep (ShimState τ)) : List Opened :=
  match st.val, st.next.sys.touched.getLast? with
  | .ok (.handle _), some d => (c.target.map fun name => ⟨d, name⟩).toList
  | _, _ => []

def exec (W : Wasm (ShimState τ)) (s : Session τ) (c : HandleCall) :
    Except String Val × Session τ :=
  match s.request c with
  | none => (.error "not a function", s)
  | some rc =>
    let st := s.runner.exec W rc
    (st.val, ⟨st.next, s.objs ++ made c st⟩)

def step (W : Wasm (ShimState τ)) (s : Session τ) (c : HandleCall) : Session τ := (s.exec W c).2

/-- Object `id` was opened on `o`, and `h` is its record in the runner. -/
def At (s : Session τ) (id : Nat) (o : Opened) (h : HandleObj) : Prop :=
  s.objs[id]? = some o ∧ s.runner.handles[id]? = some h

/-- The condition on a call: through a closed object only a free slot is named. -/
def Fresh (s : Session τ) : HandleCall → Prop
  | .on id m => ∀ o h, s.At id o h → h.closed = true → m.reaches o.desc = true →
      s.runner.sys.inUse o.desc = false
  | _ => True

/-- A value that says that nothing was done. -/
def Refused : Except String Val → Prop
  | .error _ | .ok .null | .ok .unit => True
  | _ => False

/-- The call hands the library descriptors with the property `P` only. -/
def Hands (W : Wasm (ShimState τ)) (s : Session τ) (c : HandleCall) (P : Desc → Prop) : Prop :=
  ∃ l, (s.step W c).runner.sys.touched = s.runner.sys.touched ++ l ∧ ∀ d ∈ l, P d

/-- What a call may do: see the module's header. An open hands the library a descriptor that no
open object holds. -/
def Apart (W : Wasm (ShimState τ)) (s : Session τ) (c : HandleCall) : Prop :=
  match c with
  | .on id m => ∀ o h, s.At id o h →
      (h.closed = true → Refused (s.exec W (.on id m)).1 ∧ s.step W (.on id m) = s) ∧
      (h.closed = false → s.Hands W (.on id m) (fun d => d = o.desc) ∧
        ∀ j o', id < j → s.objs[j]? = some o' → o'.desc ≠ o.desc)
  | c => s.Hands W c fun d => ∀ id o h, s.At id o h → h.closed = false → o.desc ≠ d

end Session

/-! ## What an export does to the pools -/

namespace Driver
variable {τ : Type} (D : Driver τ)

/-- One library call on descriptor `d`; the pools stay as they are. -/
def Steps (s s' : ShimState τ) (d : Desc) : Prop :=
  ∃ lib, s' = { s with lib := lib, touched := s.touched ++ [d] }

theorem onDesc_steps {α : Type} (d : Desc) (p : Prog τ α) (s : ShimState τ) (f : Flash) :
    Steps s (onDesc d p s f).2.1 d := ⟨_, rfl⟩

theorem onFile_free {h : Int} {body : Fin FF_MAX_FILES → ShimState τ → Prog τ FfRet}
    {s : ShimState τ} (hs : s.file_used.slot? h = none) (f : Flash) :
    D.onFile h body s f = ret D.badFile.code s := by
  simp only [onFile, hs]

theorem onFile_used {h : Int} {body : Fin FF_MAX_FILES → ShimState τ → Prog τ FfRet}
    {s : ShimState τ} {i : Fin FF_MAX_FILES} (hs : s.file_used.slot? h = some i) (f : Flash) :
    Steps s (D.onFile h body s f).next (.file i) := by
  simp only [onFile, hs]
  exact onDesc_steps _ _ _ _

theorem ff_dir_read_used {h : Int} {cap : Nat} {s : ShimState τ} {i : Fin FF_MAX_DIRS}
    (hs : s.dir_used.slot? h = some i) (f : Flash) :
    Steps s (D.ff_dir_read h cap s f).next (.dir i) := by
  have hst := onDesc_steps (.dir i) (D.lib.nextFile i).prog s f
  simp only [ff_dir_read, hs]
  split <;> simp_all

theorem ff_file_close_used {h : Int} {s : ShimState τ} {i : Fin FF_MAX_FILES}
    (hs : s.file_used.slot? h = some i) (f : Flash) :
    ∃ s', Steps s s' (.file i) ∧
      ((∃ e, (D.ff_file_close h s f).ret = .error e) ∧ (D.ff_file_close h s f).next = s' ∨
        (∃ r, (D.ff_file_close h s f).ret = .ok r) ∧
          (D.ff_file_close h s f).next = { s' with file_used := s'.file_used.give i }) := by
  have hst := onDesc_steps (.file i) (D.lib.closeFile i).prog s f
  simp only [ff_file_close, hs]
  split
  · next heq => exact ⟨_, by simpa [heq] using hst, .inl ⟨⟨_, rfl⟩, rfl⟩⟩
  · next heq => exact ⟨_, by simpa [heq] using hst, .inr ⟨⟨_, rfl⟩, rfl⟩⟩

theorem ff_dir_close_used {h : Int} {s : ShimState τ} {i : Fin FF_MAX_DIRS}
    (hs : s.dir_used.slot? h = some i) (f : Flash) :
    ∃ s', Steps s s' (.dir i) ∧
      ((∃ e, (D.ff_dir_close h s f).ret = .error e) ∧ (D.ff_dir_close h s f).next = s' ∨
        (∃ r, (D.ff_dir_close h s f).ret = .ok r) ∧
          (D.ff_dir_close h s f).next = { s' with dir_used := s'.dir_used.give i }) := by
  have hst := onDesc_steps (.dir i) (D.lib.closeDir i).prog s f
  simp only [ff_dir_close, hs]
  split
  · next heq => exact ⟨_, by simpa [heq] using hst, .inl ⟨⟨_, rfl⟩, rfl⟩⟩
  · next heq => exact ⟨_, by simpa [heq] using hst, .inr ⟨⟨_, rfl⟩, rfl⟩⟩

/-- An open is refused without a library call, fails after one, or fills the lowest free slot. -/
theorem ff_open_cases (name : String) (mode : Nat) (s : ShimState τ) (f : Flash) :
    (∃ e : Err, D.ff_open name mode s f = ret e.code s) ∨
    ∃ h, s.file_used.first? = some h ∧ ∃ s', Steps s s' (.file h) ∧
      (((D.ff_open name mode s f).next = s' ∧
          ∀ r, (D.ff_open name mode s f).ret = .ok r → r.rc < 0) ∨
        (D.ff_open name mode s f).ret = .ok ⟨(h : Nat), []⟩ ∧
          ∃ names, (D.ff_open name mode s f).next =
            { s' with file_used := s'.file_used.take h, file_names := names }) := by
  unfold ff_open
  split
  · exact .inl ⟨_, rfl⟩
  · next access _ =>
    split
    · exact .inl ⟨_, rfl⟩
    · next h hfree =>
      refine .inr ⟨h, hfree, ?_⟩
      have hst := onDesc_steps (.file h) (D.lib.openFile h name access).prog s f
      split
      · next heq => exact ⟨_, by simpa [heq] using hst, .inl ⟨rfl, fun r hr => by simp at hr⟩⟩
      · next e _ _ heq =>
        refine ⟨_, by simpa [heq] using hst, .inl ⟨rfl, fun r hr => ?_⟩⟩
        obtain rfl := Except.ok.inj hr
        exact e.neg
      · next heq => exact ⟨_, by simpa [heq] using hst, .inr ⟨rfl, _, rfl⟩⟩

theorem ff_dir_open_cases (pre : String) (s : ShimState τ) (f : Flash) :
    (∃ e : Err, D.ff_dir_open pre s f = ret e.code s) ∨
    ∃ h, s.dir_used.first? = some h ∧ ∃ s', Steps s s' (.dir h) ∧
      (((D.ff_dir_open pre s f).next = s' ∧
          ∀ r, (D.ff_dir_open pre s f).ret = .ok r → r.rc < 0) ∨
        (D.ff_dir_open pre s f).ret = .ok ⟨(h : Nat), []⟩ ∧
          (D.ff_dir_open pre s f).next = { s' with dir_used := s'.dir_used.take h }) := by
  unfold ff_dir_open
  split
  · exact .inl ⟨_, rfl⟩
  · next h hfree =>
    refine .inr ⟨h, hfree, ?_⟩
    have hst := onDesc_steps (.dir h) (D.lib.openDir h pre).prog s f
    split
    · next heq => exact ⟨_, by simpa [heq] using hst, .inl ⟨rfl, fun r hr => by simp at hr⟩⟩
    · next e _ _ heq =>
      refine ⟨_, by simpa [heq] using hst, .inl ⟨rfl, fun r hr => ?_⟩⟩
      obtain rfl := Except.ok.inj hr
      exact e.neg
    · next heq => exact ⟨_, by simpa [heq] using hst, .inr ⟨rfl, rfl⟩⟩

end Driver

/-! ## What a runner call does to a session -/

namespace ShimState
variable {τ : Type} {s s' : ShimState τ} {d : Desc}

theorem inUse_steps (h : Driver.Steps s s' d) : s'.inUse = s.inUse := by
  obtain ⟨lib, rfl⟩ := h
  funext d'
  cases d' <;> rfl

theorem touched_steps (h : Driver.Steps s s' d) : s'.touched = s.touched ++ [d] := by
  obtain ⟨lib, rfl⟩ := h
  rfl

theorem slot_file {i : Fin FF_MAX_FILES} (h : s.inUse (.file i) = true) :
    s.file_used.slot? (i : ℕ) = some i := Pool.slot?_eq_some.mpr ⟨rfl, h⟩

theorem slot_dir {i : Fin FF_MAX_DIRS} (h : s.inUse (.dir i) = true) :
    s.dir_used.slot? (i : ℕ) = some i := Pool.slot?_eq_some.mpr ⟨rfl, h⟩

theorem inUse_give_file (s : ShimState τ) (i : Fin FF_MAX_FILES) :
    ({ s with file_used := s.file_used.give i } : ShimState τ).inUse =
      Function.update s.inUse (.file i) false := by
  funext d
  cases d <;> simp [inUse, Function.update_apply]

theorem inUse_give_dir (s : ShimState τ) (i : Fin FF_MAX_DIRS) :
    ({ s with dir_used := s.dir_used.give i } : ShimState τ).inUse =
      Function.update s.inUse (.dir i) false := by
  funext d
  cases d <;> simp [inUse, Function.update_apply]

theorem inUse_take_file (s : ShimState τ) (i : Fin FF_MAX_FILES)
    (names : Fin FF_MAX_FILES → List UInt8) :
    ({ s with file_used := s.file_used.take i, file_names := names } : ShimState τ).inUse =
      Function.update s.inUse (.file i) true := by
  funext d
  cases d <;> simp [inUse, Function.update_apply]

theorem inUse_take_dir (s : ShimState τ) (i : Fin FF_MAX_DIRS) :
    ({ s with dir_used := s.dir_used.take i } : ShimState τ).inUse =
      Function.update s.inUse (.dir i) true := by
  funext d
  cases d <;> simp [inUse, Function.update_apply]

end ShimState

namespace Runner
variable {σ : Type} {W : Wasm σ} {c : FfCall} {what : String} {r : Runner σ}

/-- A call that the module refuses on the spot throws and leaves the runner as it was. -/
theorem checked_refused {ok : FfRet → Runner σ → Val × Runner σ} {rc : Int} (hrc : rc < 0)
    (h : W.call c r.sys r.device.flash = ⟨.ok ⟨rc, []⟩, r.sys, []⟩) :
    checked W c what r ok = ⟨.error s!"{what} failed: {rc}", r, []⟩ := by
  simp only [checked, ff, h, check, hrc, if_true]
  rfl

theorem checked_next (ok : FfRet → Val) :
    (checked W c what r fun ret r => (ok ret, r)).next =
      { r with sys := (W.call c r.sys r.device.flash).next
               device := (r.device.hals (W.call c r.sys r.device.flash).hal).1 } := by
  simp only [checked, ff]
  split
  · next heq => simp_all
  · next heq => split <;> simp_all

theorem plain_next {ok : FfRet → Val} :
    (plain W c r ok).next =
      { r with sys := (W.call c r.sys r.device.flash).next
               device := (r.device.hals (W.call c r.sys r.device.flash).hal).1 } := by
  simp only [plain, ff]
  split <;> simp_all

end Runner

/-- The export behind a method. -/
def Method.ff (h : Int) : Desc → Method → FfCall
  | .file _, .read n => .fileRead h n
  | .file _, .write data => .fileWrite h data
  | .file _, .seek off whence => .fileSeek h off ((Runner.whenceCode whence).getD 0)
  | .file _, .stat => .fileStat h 128
  | .file _, .close => .fileClose h
  | .dir _, .close => .dirClose h
  | .dir _, _ => .dirRead h 64

namespace Driver
variable {τ : Type} (D : Driver τ) {m : Method} {d : Desc} {s : ShimState τ}

theorem call_free (hr : m.reaches d = true) (hu : s.inUse d = false) (f : Flash) :
    ∃ rc < 0, D.call (m.ff d.index d) s f = ⟨.ok ⟨rc, []⟩, s, []⟩ := by
  cases d with
  | file i =>
    have hs : s.file_used.slot? (i : ℕ) = none := Pool.slot?_eq_none hu
    refine ⟨D.badFile.code, D.badFile.neg, ?_⟩
    cases m with
    | close => simp [Method.reaches] at hr
    | _ =>
      simp only [call, Method.ff, Desc.index, ff_file_read, ff_file_write, ff_file_seek,
        ff_file_stat, D.onFile_free hs, ret]
  | dir i =>
    have hs : s.dir_used.slot? (i : ℕ) = none := Pool.slot?_eq_none hu
    cases m with
    | read n => exact ⟨-2, by decide, by simp only [call, Method.ff, Desc.index, ff_dir_read, hs, ret]⟩
    | _ => simp [Method.reaches] at hr

theorem call_used (hr : m.reaches d = true) (hu : s.inUse d = true) (f : Flash) :
    Steps s (D.call (m.ff d.index d) s f).next d := by
  cases d with
  | file i =>
    have hs := ShimState.slot_file hu
    cases m with
    | close => simp [Method.reaches] at hr
    | _ => exact D.onFile_used hs f
  | dir i =>
    have hs := ShimState.slot_dir hu
    cases m with
    | read n => exact D.ff_dir_read_used hs f
    | _ => simp [Method.reaches] at hr

end Driver

namespace Session
variable {τ : Type} {D : Driver τ} {boot : Geometry → τ} {caps : Nat} {ex : String → Bool}
  {W : Wasm (ShimState τ)} {s : Session τ} {id : Nat} {o : Opened} {h : HandleObj} {m : Method}

theorem made_on (st : RunnerStep (ShimState τ)) : made (.on id m) st = [] := by
  unfold made
  split <;> rfl

theorem exec_on (ho : s.objs[id]? = some o) (rc : RCall) (hrc : m.call id o.desc = some rc) :
    s.exec W (.on id m) = ((s.runner.exec W rc).val, ⟨(s.runner.exec W rc).next, s.objs⟩) := by
  simp [exec, request, ho, hrc, made_on]

theorem exec_none (ho : s.objs[id]? = some o) (hrc : m.call id o.desc = none) :
    s.exec W (.on id m) = (.error "not a function", s) := by
  simp [exec, request, ho, hrc]

/-- A method that reaches the module is one export with its return code checked, or, for a
directory, looked at. -/
theorem runs_reaches (hh : s.runner.handles[id]? = some h) {d : Desc} (hr : m.reaches d = true) :
    ∃ rc, m.call id d = some rc ∧
      ((∃ what, ∃ ok : FfRet → Val, s.runner.exec W rc =
          Runner.checked W (m.ff h.handle d) what s.runner fun ret r => (ok ret, r)) ∨
        ∃ ok : FfRet → Val, s.runner.exec W rc = Runner.plain W (m.ff h.handle d) s.runner ok ∧
          ∀ ret : FfRet, ret.rc < 0 → ok ret = .null) := by
  cases d with
  | file i =>
    cases m with
    | read n => exact ⟨_, rfl, .inl ⟨_, _, by simp [Runner.exec, Runner.onHandle, hh, Method.ff]; rfl⟩⟩
    | write data => exact ⟨_, rfl, .inl ⟨_, _, by simp [Runner.exec, Runner.onHandle, hh, Method.ff]; rfl⟩⟩
    | seek off whence =>
      obtain ⟨w, hw⟩ := Option.isSome_iff_exists.mp (by simpa [Method.reaches] using hr)
      exact ⟨_, rfl, .inl ⟨_, _, by simp [Runner.exec, Runner.onHandle, hh, Method.ff, hw]; rfl⟩⟩
    | stat => exact ⟨_, rfl, .inl ⟨_, _, by simp [Runner.exec, Runner.onHandle, hh, Method.ff]; rfl⟩⟩
    | close => simp [Method.reaches] at hr
  | dir i =>
    cases m with
    | read n =>
      refine ⟨_, rfl, .inr
        ⟨fun ret => if ret.rc < 0 then .null else .file (decodeCStr 64 ret.data) ret.rc, ?_, ?_⟩⟩
      · simp only [Runner.exec, Runner.onHandle, hh, Runner.readDirEntry, Method.ff]
      · intro ret hret
        simp [hret]
    | _ => simp [Method.reaches] at hr

theorem on_free (hat : s.At id o h) (hix : h.handle = (o.desc.index : Int))
    (hr : m.reaches o.desc = true) (hu : s.runner.sys.inUse o.desc = false) :
    Refused (s.exec (D.wasm boot caps ex) (.on id m)).1 ∧
      s.step (D.wasm boot caps ex) (.on id m) = s := by
  obtain ⟨ho, hh⟩ := hat
  obtain ⟨code, hneg, hcall⟩ := D.call_free hr hu s.runner.device.flash
  rw [← hix] at hcall
  obtain ⟨rc, hrc, ⟨what, ok, hrun⟩ | ⟨ok, hrun, hnull⟩⟩ :=
    runs_reaches (W := D.wasm boot caps ex) hh hr
  · rw [Runner.checked_refused hneg hcall] at hrun
    rw [step, exec_on ho _ hrc, hrun]
    exact ⟨trivial, rfl⟩
  · have hcall' : (D.wasm boot caps ex).call (m.ff h.handle o.desc) s.runner.sys
        s.runner.device.flash = ⟨.ok ⟨code, []⟩, s.runner.sys, []⟩ := hcall
    have hnull : ok ⟨code, []⟩ = .null := hnull _ hneg
    simp only [Runner.plain, Runner.ff, hcall', hnull] at hrun
    rw [step, exec_on ho _ hrc, hrun]
    exact ⟨trivial, rfl⟩

theorem on_used (boot : Geometry → τ) (caps : Nat) (ex : String → Bool)
    (hat : s.At id o h) (hix : h.handle = (o.desc.index : Int))
    (hr : m.reaches o.desc = true) (hu : s.runner.sys.inUse o.desc = true) :
    (s.step (D.wasm boot caps ex) (.on id m)).objs = s.objs ∧
      (s.step (D.wasm boot caps ex) (.on id m)).runner.handles = s.runner.handles ∧
      Driver.Steps s.runner.sys (s.step (D.wasm boot caps ex) (.on id m)).runner.sys o.desc := by
  obtain ⟨ho, hh⟩ := hat
  have hcall := D.call_used hr hu s.runner.device.flash
  rw [← hix] at hcall
  obtain ⟨rc, hrc, ⟨what, ok, hrun⟩ | ⟨ok, hrun, -⟩⟩ :=
    runs_reaches (W := D.wasm boot caps ex) hh hr
  · rw [step, exec_on ho _ hrc, hrun, Runner.checked_next]
    exact ⟨rfl, rfl, hcall⟩
  · rw [step, exec_on ho _ hrc, hrun, Runner.plain_next]
    exact ⟨rfl, rfl, hcall⟩

/-- `close()` on an object already closed does nothing. -/
theorem on_closed (hat : s.At id o h) (hc : h.closed = true) :
    Refused (s.exec W (.on id .close)).1 ∧ s.step W (.on id .close) = s := by
  obtain ⟨ho, hh⟩ := hat
  obtain ⟨rc, hrc, hrun⟩ : ∃ rc, Method.close.call id o.desc = some rc ∧
      s.runner.exec W rc = ⟨.ok .unit, s.runner, []⟩ := by
    cases o.desc <;>
      exact ⟨_, rfl, by simp [Runner.exec, Runner.close, Runner.onHandle, hh, hc]⟩
  rw [step, exec_on ho _ hrc, hrun]
  exact ⟨trivial, rfl⟩

/-- The descriptor that `close()` on object `id` gives back: the module's close has returned. -/
def returned (W : Wasm (ShimState τ)) (s : Session τ) (id : Nat) : Option Desc :=
  match s.objs[id]?, s.runner.handles[id]? with
  | some o, some h =>
    if h.closed then none
    else match (W.call (Method.close.ff h.handle o.desc) s.runner.sys s.runner.device.flash).ret with
      | .ok _ => some o.desc
      | .error _ => none
  | _, _ => none

/-- `close()` on an open object: the flag is set, the library closes the descriptor and, unless
that trapped, the slot is free. -/
theorem on_close (boot : Geometry → τ) (caps : Nat) (ex : String → Bool)
    (hat : s.At id o h) (hix : h.handle = (o.desc.index : Int))
    (hc : h.closed = false) (hu : s.runner.sys.inUse o.desc = true) :
    let s' := s.step (D.wasm boot caps ex) (.on id .close)
    s'.objs = s.objs ∧ s'.runner.handles = s.runner.handles.set id { h with closed := true } ∧
      s'.runner.sys.touched = s.runner.sys.touched ++ [o.desc] ∧
      (returned (D.wasm boot caps ex) s id = none ∧
          s'.runner.sys.inUse = s.runner.sys.inUse ∨
        returned (D.wasm boot caps ex) s id = some o.desc ∧
          s'.runner.sys.inUse = Function.update s.runner.sys.inUse o.desc false) := by
  obtain ⟨ho, hh⟩ := hat
  obtain ⟨d, name⟩ := o
  dsimp only at hix hu ⊢
  simp only [returned, ho, hh, hc, Bool.false_eq_true, if_false]
  cases d with
  | file i =>
    obtain ⟨s', hst, hnext⟩ := D.ff_file_close_used
      (hix ▸ ShimState.slot_file hu : s.runner.sys.file_used.slot? h.handle = some i)
      s.runner.device.flash
    have hrun : (s.runner.exec (D.wasm boot caps ex) (.fClose id)).next =
        { s.runner with
          handles := s.runner.handles.set id { h with closed := true }
          sys := (D.ff_file_close h.handle s.runner.sys s.runner.device.flash).next
          device := (s.runner.device.hals
            (D.ff_file_close h.handle s.runner.sys s.runner.device.flash).hal).1 } := by
      simp only [Runner.exec, Runner.close, Runner.onHandle, hh, hc, Bool.false_eq_true, if_false]
      exact Runner.checked_next fun _ => Val.unit
    have hcall : (D.wasm boot caps ex).call (Method.close.ff h.handle (.file i)) s.runner.sys
        s.runner.device.flash = D.ff_file_close h.handle s.runner.sys s.runner.device.flash := rfl
    rw [step, exec_on ho (.fClose id) rfl, hrun, hcall]
    refine ⟨rfl, rfl, ?_⟩
    have htouch := ShimState.touched_steps hst
    have hsame := ShimState.inUse_steps hst
    rcases hnext with ⟨⟨e, hret⟩, hnext⟩ | ⟨⟨r, hret⟩, hnext⟩
    · exact ⟨by rw [hnext]; exact htouch, .inl ⟨by rw [hret], by rw [hnext]; exact hsame⟩⟩
    · exact ⟨by rw [hnext]; exact htouch,
        .inr ⟨by rw [hret], by rw [hnext, ShimState.inUse_give_file, hsame]⟩⟩
  | dir i =>
    obtain ⟨s', hst, hnext⟩ := D.ff_dir_close_used
      (hix ▸ ShimState.slot_dir hu : s.runner.sys.dir_used.slot? h.handle = some i)
      s.runner.device.flash
    have hrun : (s.runner.exec (D.wasm boot caps ex) (.dClose id)).next =
        { s.runner with
          handles := s.runner.handles.set id { h with closed := true }
          sys := (D.ff_dir_close h.handle s.runner.sys s.runner.device.flash).next
          device := (s.runner.device.hals
            (D.ff_dir_close h.handle s.runner.sys s.runner.device.flash).hal).1 } := by
      simp only [Runner.exec, Runner.close, Runner.onHandle, hh, hc, Bool.false_eq_true, if_false]
      exact Runner.plain_next
    have hcall : (D.wasm boot caps ex).call (Method.close.ff h.handle (.dir i)) s.runner.sys
        s.runner.device.flash = D.ff_dir_close h.handle s.runner.sys s.runner.device.flash := rfl
    rw [step, exec_on ho (.dClose id) rfl, hrun, hcall]
    refine ⟨rfl, rfl, ?_⟩
    have htouch := ShimState.touched_steps hst
    have hsame := ShimState.inUse_steps hst
    rcases hnext with ⟨⟨e, hret⟩, hnext⟩ | ⟨⟨r, hret⟩, hnext⟩
    · exact ⟨by rw [hnext]; exact htouch, .inl ⟨by rw [hret], by rw [hnext]; exact hsame⟩⟩
    · exact ⟨by rw [hnext]; exact htouch,
        .inr ⟨by rw [hret], by rw [hnext, ShimState.inUse_give_dir, hsame]⟩⟩

/-- What an open leaves behind: it failed, having used a free descriptor at most, or it made one
object over a descriptor that was free. -/
def Opens (s s' : Session τ) : Prop :=
  (s'.objs = s.objs ∧ s'.runner.handles = s.runner.handles ∧
    s'.runner.sys.inUse = s.runner.sys.inUse ∧
    ∃ l, s'.runner.sys.touched = s.runner.sys.touched ++ l ∧
      ∀ d ∈ l, s.runner.sys.inUse d = false) ∨
  ∃ o : Opened, s.runner.sys.inUse o.desc = false ∧ s'.objs = s.objs ++ [o] ∧
    s'.runner.handles = s.runner.handles ++ [⟨o.desc.index, false⟩] ∧
    s'.runner.sys.inUse = Function.update s.runner.sys.inUse o.desc true ∧
    s'.runner.sys.touched = s.runner.sys.touched ++ [o.desc]

theorem Opens.refl (s : Session τ) : Opens s s :=
  .inl ⟨rfl, rfl, rfl, [], by simp, by simp⟩

/-- A runner call that opens: the export's value decides whether an object is made. -/
theorem opens_of_call {c : HandleCall} (name : String) {what : String} {rc : RCall} {fc : FfCall}
    (hname : c.target = some name)
    (hrq : s.request c = some rc)
    (hrun : s.runner.exec W rc = Runner.checked W fc what s.runner Runner.newHandle)
    (hcall : let st := W.call fc s.runner.sys s.runner.device.flash
      (∃ e : Err, st = Driver.ret e.code s.runner.sys) ∨
      ∃ d, s.runner.sys.inUse d = false ∧ st.next.touched = s.runner.sys.touched ++ [d] ∧
        ((st.next.inUse = s.runner.sys.inUse ∧ ∀ r, st.ret = .ok r → r.rc < 0) ∨
          st.ret = .ok ⟨d.index, []⟩ ∧
            st.next.inUse = Function.update s.runner.sys.inUse d true)) :
    Opens s (s.step W c) := by
  have hstep : s.step W c = ⟨(s.runner.exec W rc).next, s.objs ++ made c (s.runner.exec W rc)⟩ := by
    simp [step, exec, hrq]
  rw [hstep, hrun]
  rcases hcall with ⟨e, he⟩ | ⟨d, hfree, htouch, ⟨hsame, hneg⟩ | ⟨hret, htake⟩⟩
  · rw [Runner.checked_refused e.neg he]
    exact .inl ⟨by simp [made], rfl, rfl, [], by simp, by simp⟩
  · left
    simp only [Runner.checked, Runner.ff]
    rcases hr : (W.call fc s.runner.sys s.runner.device.flash).ret with err | r
    · exact ⟨by simp [made], rfl, hsame, [d], htouch, by simpa using hfree⟩
    · dsimp only
      rw [Runner.check, if_pos (hneg r hr)]
      exact ⟨by simp [made], rfl, hsame, [d], htouch, by simpa using hfree⟩
  · right
    simp only [Runner.checked, Runner.ff, hret, Runner.check]
    rw [if_neg (by simp)]
    refine ⟨⟨d, name⟩, hfree, ?_, rfl, htake, htouch⟩
    simp [made, hname, Runner.newHandle, htouch]

theorem opens_file (name mode : String) :
    Opens s (s.step (D.wasm boot caps ex) (.open_ name mode)) := by
  rcases hm : Runner.modeCode mode with - | m
  · have hstep : s.step (D.wasm boot caps ex) (.open_ name mode) = s := by
      simp [step, exec, request, Runner.exec, Runner.open_, hm, made]
    rw [hstep]
    exact .refl s
  · refine opens_of_call name rfl rfl
      (by simp only [Runner.exec, Runner.open_, hm]; rfl) ?_
    rcases D.ff_open_cases name m s.runner.sys s.runner.device.flash with
      he | ⟨h, hfree, s', hst, hcall⟩
    · exact .inl he
    · refine .inr ⟨.file h, Pool.first?_free hfree, ?_⟩
      have htouch := ShimState.touched_steps hst
      have hsame := ShimState.inUse_steps hst
      rcases hcall with ⟨hnext, hneg⟩ | ⟨hret, names, hnext⟩
      · have hnext' : ((D.wasm boot caps ex).call (.open_ name m) s.runner.sys
            s.runner.device.flash).next = s' := hnext
        exact ⟨by rw [hnext']; exact htouch, .inl ⟨by rw [hnext']; exact hsame, hneg⟩⟩
      · have hnext' : ((D.wasm boot caps ex).call (.open_ name m) s.runner.sys
            s.runner.device.flash).next =
              { s' with file_used := s'.file_used.take h, file_names := names } := hnext
        refine ⟨by rw [hnext']; exact htouch, .inr ⟨hret, ?_⟩⟩
        rw [hnext', ShimState.inUse_take_file, hsame]

theorem opens_dir (pre : String) : Opens s (s.step (D.wasm boot caps ex) (.openDir pre)) := by
  refine opens_of_call pre rfl rfl
    (by simp only [Runner.exec, Runner.openDir]; rfl) ?_
  rcases D.ff_dir_open_cases pre s.runner.sys s.runner.device.flash with
    he | ⟨h, hfree, s', hst, hcall⟩
  · exact .inl he
  · refine .inr ⟨.dir h, Pool.first?_free hfree, ?_⟩
    have htouch := ShimState.touched_steps hst
    have hsame := ShimState.inUse_steps hst
    rcases hcall with ⟨hnext, hneg⟩ | ⟨hret, hnext⟩
    · have hnext' : ((D.wasm boot caps ex).call (.dirOpen pre) s.runner.sys
          s.runner.device.flash).next = s' := hnext
      exact ⟨by rw [hnext']; exact htouch, .inl ⟨by rw [hnext']; exact hsame, hneg⟩⟩
    · have hnext' : ((D.wasm boot caps ex).call (.dirOpen pre) s.runner.sys
          s.runner.device.flash).next = { s' with dir_used := s'.dir_used.take h } := hnext
      refine ⟨by rw [hnext']; exact htouch, .inr ⟨hret, ?_⟩⟩
      rw [hnext', ShimState.inUse_take_dir, hsame]

/-! ## The invariant -/

/-- Every object knows its slot, an open object's slot is in use, and no object made after an open
one has its slot. -/
structure Sound (s : Session τ) : Prop where
  length : s.objs.length = s.runner.handles.length
  index : ∀ id o h, s.At id o h → h.handle = (o.desc.index : ℤ)
  live : ∀ id o h, s.At id o h → h.closed = false → s.runner.sys.inUse o.desc = true
  sole : ∀ id o h, s.At id o h → h.closed = false →
    ∀ j o', id < j → s.objs[j]? = some o' → o'.desc ≠ o.desc

theorem Sound.ne {s : Session τ} (hs : s.Sound) {id j : Nat} {o o' : Opened} {h h' : HandleObj}
    (hat : s.At id o h) (hat' : s.At j o' h') (hc : h.closed = false) (hc' : h'.closed = false)
    (hne : j ≠ id) : o'.desc ≠ o.desc := by
  rcases Nat.lt_or_gt_of_ne hne with hlt | hlt
  · exact (hs.sole j o' h' hat' hc' id o hlt hat.1).symm
  · exact hs.sole id o h hat hc j o' hlt hat'.1

theorem Sound.of_same {s s' : Session τ} (hs : s.Sound) (hobjs : s'.objs = s.objs)
    (hhandles : s'.runner.handles = s.runner.handles)
    (huse : s'.runner.sys.inUse = s.runner.sys.inUse) : s'.Sound where
  length := by rw [hobjs, hhandles, hs.length]
  index id o h hat := hs.index id o h ⟨hobjs ▸ hat.1, hhandles ▸ hat.2⟩
  live id o h hat hc := by
    rw [huse]
    exact hs.live id o h ⟨hobjs ▸ hat.1, hhandles ▸ hat.2⟩ hc
  sole id o h hat hc j o' hj ho' :=
    hs.sole id o h ⟨hobjs ▸ hat.1, hhandles ▸ hat.2⟩ hc j o' hj (hobjs ▸ ho')

theorem Sound.opens {s s' : Session τ} (hs : s.Sound) (hop : Opens s s') : s'.Sound := by
  rcases hop with ⟨hobjs, hhandles, huse, -⟩ | ⟨o, hfree, hobjs, hhandles, huse, -⟩
  · exact hs.of_same hobjs hhandles huse
  · -- an object of the new session is an old one or the one just made
    have hat : ∀ id o' h, s'.At id o' h →
        s.At id o' h ∨ id = s.objs.length ∧ o' = o ∧ h = ⟨o.desc.index, false⟩ := by
      rintro id o' h ⟨ho', hh⟩
      rw [hobjs] at ho'
      rw [hhandles] at hh
      by_cases hid : id < s.objs.length
      · rw [List.getElem?_append_left hid] at ho'
        rw [List.getElem?_append_left (hs.length ▸ hid)] at hh
        exact .inl ⟨ho', hh⟩
      · have hid' : id = s.objs.length := by
          have hlt := (List.getElem?_eq_some_iff.mp ho').1
          simp only [List.length_append, List.length_singleton] at hlt
          omega
        subst hid'
        rw [List.getElem?_concat_length] at ho'
        rw [hs.length, List.getElem?_concat_length] at hh
        exact .inr ⟨rfl, (Option.some.inj ho').symm, (Option.some.inj hh).symm⟩
    constructor
    · simp [hobjs, hhandles, hs.length]
    · intro id o' h h'
      rcases hat id o' h h' with hold | ⟨-, rfl, rfl⟩
      · exact hs.index id o' h hold
      · rfl
    · intro id o' h h' hc
      rw [huse]
      rcases hat id o' h h' with hold | ⟨-, rfl, rfl⟩
      · have hlive := hs.live id o' h hold hc
        rw [Function.update_of_ne (fun heq => by simp [heq, hfree] at hlive)]
        exact hlive
      · simp
    · intro id o' h h' hc j o'' hj ho''
      rcases hat id o' h h' with hold | ⟨rfl, rfl, rfl⟩
      · have hlive := hs.live id o' h hold hc
        rw [hobjs] at ho''
        by_cases hjl : j < s.objs.length
        · rw [List.getElem?_append_left hjl] at ho''
          exact hs.sole id o' h hold hc j o'' hj ho''
        · have hjl' : j = s.objs.length := by
            have hlt := (List.getElem?_eq_some_iff.mp ho'').1
            simp only [List.length_append, List.length_singleton] at hlt
            omega
          rw [hjl', List.getElem?_concat_length] at ho''
          obtain rfl := Option.some.inj ho''
          intro heq
          simp [← heq, hfree] at hlive
      · have hlt := (List.getElem?_eq_some_iff.mp ho'').1
        simp only [hobjs, List.length_append, List.length_singleton] at hlt
        omega

theorem Sound.closes {s s' : Session τ} (hs : s.Sound) (hat : s.At id o h) (hc : h.closed = false)
    (hobjs : s'.objs = s.objs)
    (hhandles : s'.runner.handles = s.runner.handles.set id { h with closed := true })
    (huse : s'.runner.sys.inUse = s.runner.sys.inUse ∨
      s'.runner.sys.inUse = Function.update s.runner.sys.inUse o.desc false) : s'.Sound := by
  have hid : id < s.runner.handles.length := (List.getElem?_eq_some_iff.mp hat.2).1
  have hold : ∀ j o' h', s'.At j o' h' → (j ≠ id ∧ s.At j o' h') ∨
      j = id ∧ o' = o ∧ h' = { h with closed := true } := by
    rintro j o' h' ⟨ho', hh'⟩
    rw [hobjs] at ho'
    rw [hhandles] at hh'
    by_cases hj : j = id
    · subst hj
      rw [List.getElem?_set_self hid] at hh'
      rw [hat.1] at ho'
      exact .inr ⟨rfl, (Option.some.inj ho').symm, (Option.some.inj hh').symm⟩
    · rw [List.getElem?_set_ne (Ne.symm hj)] at hh'
      exact .inl ⟨hj, ho', hh'⟩
  constructor
  · simp [hobjs, hhandles, hs.length]
  · intro j o' h' h''
    rcases hold j o' h' h'' with ⟨-, h₀⟩ | ⟨rfl, rfl, rfl⟩
    · exact hs.index j o' h' h₀
    · exact hs.index j o' h hat
  · intro j o' h' h'' hc'
    rcases hold j o' h' h'' with ⟨hj, h₀⟩ | ⟨rfl, rfl, rfl⟩
    · have hlive := hs.live j o' h' h₀ hc'
      rcases huse with huse | huse
      · rw [huse]
        exact hlive
      · rw [huse, Function.update_of_ne (hs.ne hat h₀ hc hc' hj)]
        exact hlive
    · simp at hc'
  · intro j o' h' h'' hc' k o'' hk ho''
    rcases hold j o' h' h'' with ⟨-, h₀⟩ | ⟨rfl, rfl, rfl⟩
    · exact hs.sole j o' h' h₀ hc' k o'' hk (hobjs ▸ ho'')
    · simp at hc'

/-- A method that neither reaches the module nor closes: an error before the module. -/
theorem on_other (hat : s.At id o h) (hr : m.reaches o.desc = false) (hm : m ≠ .close) :
    Refused (s.exec W (.on id m)).1 ∧ s.step W (.on id m) = s := by
  obtain ⟨ho, hh⟩ := hat
  obtain ⟨d, name⟩ := o
  cases d with
  | file i =>
    cases m with
    | seek off whence =>
      have hw : Runner.whenceCode whence = none := by simpa [Method.reaches] using hr
      have hrun : s.runner.exec W (.fSeek id off whence) =
          ⟨.error s!"seek: bad whence '{whence}'", s.runner, []⟩ := by
        simp only [Runner.exec, Runner.onHandle, hh, hw]
      rw [step, exec_on ho (.fSeek id off whence) rfl, hrun]
      exact ⟨trivial, rfl⟩
    | close => exact absurd rfl hm
    | _ => simp [Method.reaches] at hr
  | dir i =>
    cases m with
    | read n => simp [Method.reaches] at hr
    | close => exact absurd rfl hm
    | _ =>
      rw [step, exec_none ho rfl]
      exact ⟨trivial, rfl⟩

theorem Sound.step (c : HandleCall) (hs : s.Sound) :
    (s.step (D.wasm boot caps ex) c).Sound := by
  cases c with
  | open_ name mode => exact hs.opens (opens_file name mode)
  | openDir pre => exact hs.opens (opens_dir pre)
  | on id m =>
    rcases ho : s.objs[id]? with - | o
    · have hstep : s.step (D.wasm boot caps ex) (.on id m) = s := by
        simp [Session.step, exec, request, ho]
      rwa [hstep]
    · obtain ⟨h, hh⟩ : ∃ h, s.runner.handles[id]? = some h := by
        have hlt := (List.getElem?_eq_some_iff.mp ho).1
        exact ⟨_, List.getElem?_eq_getElem (hs.length ▸ hlt)⟩
      have hat : s.At id o h := ⟨ho, hh⟩
      have hix := hs.index id o h hat
      by_cases hr : m.reaches o.desc = true
      · rcases hu : s.runner.sys.inUse o.desc with - | -
        · rwa [(on_free hat hix hr hu).2]
        · obtain ⟨hobjs, hhandles, hst⟩ := on_used boot caps ex hat hix hr hu
          exact hs.of_same hobjs hhandles (ShimState.inUse_steps hst)
      · by_cases hm : m = .close
        · subst hm
          rcases hc : h.closed with - | -
          · obtain ⟨hobjs, hhandles, -, huse⟩ := on_close boot caps ex hat hix hc
              (hs.live id o h hat hc)
            exact hs.closes hat hc hobjs hhandles (huse.imp And.right And.right)
          · rwa [(on_closed hat hc).2]
        · rwa [(on_other hat (by simpa using hr) hm).2]

theorem Sound.at (hs : s.Sound) (ho : s.objs[id]? = some o) : ∃ h, s.At id o h := by
  have hlt := (List.getElem?_eq_some_iff.mp ho).1
  exact ⟨_, ho, List.getElem?_eq_getElem (hs.length ▸ hlt)⟩

theorem on_missing (ho : s.objs[id]? = none) : s.step W (.on id m) = s := by
  simp [step, exec, request, ho]

theorem Opens.at {s' : Session τ} (hop : Opens s s') (hat : s.At id o h) : s'.At id o h := by
  rcases hop with ⟨hobjs, hhandles, -, -⟩ | ⟨o', -, hobjs, hhandles, -, -⟩
  · exact ⟨hobjs ▸ hat.1, hhandles ▸ hat.2⟩
  · have h1 := (List.getElem?_eq_some_iff.mp hat.1).1
    have h2 := (List.getElem?_eq_some_iff.mp hat.2).1
    refine ⟨?_, ?_⟩
    · rw [hobjs, List.getElem?_append_left h1]
      exact hat.1
    · rw [hhandles, List.getElem?_append_left h2]
      exact hat.2

/-- **An object stays as it is** until its own `close()`: so a closed one does for good. -/
theorem Sound.at_step (hs : s.Sound) (hat : s.At id o h) {c : HandleCall}
    (hc : h.closed = true ∨ ∀ m, c ≠ .on id m) : (s.step (D.wasm boot caps ex) c).At id o h := by
  cases c with
  | open_ name mode => exact (opens_file name mode).at hat
  | openDir pre => exact (opens_dir pre).at hat
  | on j m =>
    rcases ho : s.objs[j]? with - | o'
    · rw [on_missing ho]
      exact hat
    · obtain ⟨h', hat'⟩ := hs.at ho
      have hix := hs.index j o' h' hat'
      by_cases hr : m.reaches o'.desc = true
      · rcases hu : s.runner.sys.inUse o'.desc with - | -
        · rw [(on_free hat' hix hr hu).2]
          exact hat
        · obtain ⟨hobjs, hhandles, -⟩ := on_used boot caps ex hat' hix hr hu
          exact ⟨hobjs ▸ hat.1, hhandles ▸ hat.2⟩
      · by_cases hm : m = .close
        · subst hm
          rcases hc' : h'.closed with - | -
          · obtain ⟨hobjs, hhandles, -⟩ :=
              on_close (D := D) boot caps ex hat' hix hc' (hs.live j o' h' hat' hc')
            have hne : j ≠ id := by
              intro heq
              rw [heq] at hat' hc
              rcases hc with hc | hc
              · rw [Option.some.inj (hat.2.symm.trans hat'.2), hc'] at hc
                exact Bool.false_ne_true hc
              · exact hc .close rfl
            exact ⟨hobjs ▸ hat.1, by rw [hhandles, List.getElem?_set_ne hne]; exact hat.2⟩
          · rw [(on_closed hat' hc').2]
            exact hat
        · rw [(on_other hat' (by simpa using hr) hm).2]
          exact hat

/-- A call on an object, as the invariant sees it: it does nothing, or it hands the library the
object's own descriptor. A closed object's call does nothing exactly on `Fresh`. -/
theorem apart_on (hs : s.Sound) :
    s.Apart (D.wasm boot caps ex) (.on id m) ↔ s.Fresh (.on id m) := by
  constructor
  · intro hap o h hat hc hr
    obtain ⟨-, hsame⟩ := (hap o h hat).1 hc
    by_contra hu
    obtain ⟨-, -, hst⟩ := on_used boot caps ex hat (hs.index id o h hat) hr
      (by simpa using hu)
    have htouch := ShimState.touched_steps hst
    rw [hsame] at htouch
    simpa using congrArg List.length htouch
  · intro hf o h hat
    have hix := hs.index id o h hat
    refine ⟨fun hc => ?_, fun hc => ⟨?_, hs.sole id o h hat hc⟩⟩
    · by_cases hr : m.reaches o.desc = true
      · exact on_free hat hix hr (hf o h hat hc hr)
      · by_cases hm : m = .close
        · subst hm
          exact on_closed hat hc
        · exact on_other hat (by simpa using hr) hm
    · have hlive := hs.live id o h hat hc
      by_cases hr : m.reaches o.desc = true
      · obtain ⟨-, -, hst⟩ := on_used boot caps ex hat hix hr hlive
        exact ⟨_, ShimState.touched_steps hst, by simp⟩
      · by_cases hm : m = .close
        · subst hm
          obtain ⟨-, -, htouch, -⟩ := on_close boot caps ex hat hix hc hlive
          exact ⟨_, htouch, by simp⟩
        · obtain ⟨-, hsame⟩ := on_other (W := D.wasm boot caps ex) hat (by simpa using hr) hm
          exact ⟨[], by rw [hsame, List.append_nil], by simp⟩

/-- A session over a module just loaded. -/
def start (W : Wasm (ShimState τ)) (fsId : String) (g : Geometry) : Session τ :=
  ⟨createRunner W fsId g 0, []⟩

theorem start_sound (fsId : String) (g : Geometry) :
    (start (D.wasm boot caps ex) fsId g).Sound where
  length := rfl
  index _ _ _ h := by simp [At, start] at h
  live _ _ _ h := by simp [At, start] at h
  sole _ _ _ h := by simp [At, start] at h

/-- Files by name, and the file and position behind every descriptor. -/
structure MemFs where
  files : List (String × List UInt8) := []
  pos : Fin FF_MAX_FILES → String × Nat := fun _ => ("", 0)

namespace MemFs

def data (m : MemFs) (name : String) : Option (List UInt8) := m.files.lookup name

def store (m : MemFs) (name : String) (data : List UInt8) : MemFs :=
  { m with files := (name, data) :: m.files.filter (·.1 ≠ name) }

def point (m : MemFs) (i : Fin FF_MAX_FILES) (name : String) (at_ : Nat) : MemFs :=
  { m with pos := Function.update m.pos i (name, at_) }

/-- Small files in memory: no chip traffic, no directories. -/
def library : Library MemFs where
  err _ := .lit 22
  openFile i name access m _ :=
    match access, m.data name with
    | .read, none => (.ok (.error (.lit 2)), m, [])
    | .replace, _ => (.ok (.ok ()), (m.store name []).point i name 0, [])
    | .append, some data => (.ok (.ok ()), m.point i name data.length, [])
    | .append, none => (.ok (.ok ()), (m.store name []).point i name 0, [])
    | .read, some _ => (.ok (.ok ()), m.point i name 0, [])
  readFile i n m _ :=
    let (name, at_) := m.pos i
    let got := (((m.data name).getD []).drop at_).take n
    (.ok (.ok got), m.point i name (at_ + got.length), [])
  writeFile i data m _ :=
    let (name, at_) := m.pos i
    let old := (m.data name).getD []
    (.ok (.ok data.length),
      (m.store name (old.take at_ ++ data ++ old.drop (at_ + data.length))).point i name
        (at_ + data.length), [])
  seekFile i off _ m _ := (.ok (.ok off.toNat), m.point i (m.pos i).1 off.toNat, [])
  lseek i ofs m _ := (.ok (.ok ()), m.point i (m.pos i).1 ofs, [])
  rewind i m _ := (.ok (.ok ()), m.point i (m.pos i).1 0, [])
  skip i n m _ := (.ok (.ok n), m.point i (m.pos i).1 ((m.pos i).2 + n), [])
  tell i m := (m.pos i).2
  size i m := ((m.data (m.pos i).1).getD []).length
  statFile i m _ := (.ok (.ok (encode (m.pos i).1, ((m.data (m.pos i).1).getD []).length)), m, [])
  closeFile _ m _ := (.ok (.ok ()), m, [])
  openDir _ _ m _ := (.ok (.ok ()), m, [])
  nextFile _ m _ := (.ok (.ok none), m, [])
  closeDir _ m _ := (.ok (), m, [])
  ensure m _ := (.ok true, m, [])
  format m _ := (.ok 0, { m with files := [] }, [])
  mount m _ := (.ok 0, m, [])
  unmount m _ := (.ok (), m, [])
  whole _ m _ := (.ok ⟨0, []⟩, m, [])

end MemFs

def memWasm : Wasm (ShimState MemFs) :=
  (littlefs MemFs.library).wasm (fun _ => {}) 12 fun _ => true

end Session

end FlashVis

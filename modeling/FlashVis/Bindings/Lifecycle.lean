import FlashVis.Bindings.Handles
import FlashVis.Worker.Host

/-!
# The pools across formats, mounts and RESETs

A worker RESET reuses the runner it has: it unmounts and wipes the chip (`Runner.blank`).  No
export but the opens and closes writes the used-bitmaps.

* `Loan.pools_count_out`   so the pools count the handles that are out, whatever lifecycle calls come
                           in between;
* `Era.pools_survive`      they count those opened since the last lifecycle call exactly where each
                           such call finds every slot free;
* `pool_stays_full`        eight files left open before a RESET.
-/

namespace FlashVis

/-- The runner after a worker's RESET (session-worker.js `handleReset`). -/
def Runner.blank {σ : Type} (W : Wasm σ) (r : Runner σ) : Runner σ :=
  let st := r.exec W .unmount
  { st.next with device := st.next.device.reset }

theorem Worker.onDevices_runner {σ : Type} (evs : List DevEvent) (w : Worker σ) :
    (evs.foldl onDevice w).runner = w.runner := by
  induction evs generalizing w with
  | nil => rfl
  | cons ev evs ih =>
    rw [List.foldl_cons, ih]
    cases ev <;> rfl

theorem Worker.handleReset_runner {σ : Type} (H : Host σ) (epoch : Int) (w : Worker σ)
    {r : Runner σ} (hr : w.runner = some r) :
    (w.handleReset H epoch).runner = some (r.blank H.wasm) := by
  have hwipe : ∀ w : Worker σ, ((w.onDevice .reset).resetLocalState epoch).runner = w.runner :=
    fun _ => rfl
  simp only [handleReset, hr]
  rw [hwipe, onDevices_runner]
  rfl

/-- A call that can move a slot, or that one might expect to. -/
inductive PoolCall where
  | handle (c : HandleCall)
  | format | mount | unmount
  | reset
  deriving DecidableEq, Repr

namespace Session
variable {τ : Type}

/-- A lifecycle call; what the commands of the old epoch held open is simply not used again. -/
def lifecycle (W : Wasm (ShimState τ)) (s : Session τ) : PoolCall → Session τ
  | .handle c => s.step W c
  | .format => { s with runner := (s.runner.exec W .format).next }
  | .mount => { s with runner := (s.runner.exec W .mount).next }
  | .unmount => { s with runner := (s.runner.exec W .unmount).next }
  | .reset => { s with runner := s.runner.blank W }

end Session

/-- A session with the descriptors that are out. -/
structure Loan (τ : Type) where
  session : Session τ
  out : Finset Desc := ∅

namespace Loan
variable {τ : Type}

/-- An open that made an object takes its descriptor out, a close that returned gives it back;
nothing else moves one. -/
def settle (W : Wasm (ShimState τ)) (l : Loan τ) : PoolCall → Finset Desc
  | .handle (.on id .close) => l.out \ (l.session.returned W id).toFinset
  | .handle c =>
    l.out ∪ (((l.session.step W c).objs.drop l.session.objs.length).map Opened.desc).toFinset
  | _ => l.out

def step (W : Wasm (ShimState τ)) (l : Loan τ) (c : PoolCall) : Loan τ :=
  ⟨l.session.lifecycle W c, l.settle W c⟩

def start (W : Wasm (ShimState τ)) (fsId : String) (g : Geometry) : Loan τ :=
  ⟨Session.start W fsId g, ∅⟩

/-- The file (directory) slots that are out. -/
def files (l : Loan τ) : Finset (Fin FF_MAX_FILES) := Finset.univ.filter fun h => .file h ∈ l.out
def dirs (l : Loan τ) : Finset (Fin FF_MAX_DIRS) := Finset.univ.filter fun h => .dir h ∈ l.out

end Loan

namespace Driver
variable {τ : Type} (D : Driver τ)

theorem inUse_runLib {α : Type} (p : Prog τ α) (s : ShimState τ) (f : Flash) :
    (runLib p s f).2.1.inUse = s.inUse := by
  funext d
  cases d <;> rfl

theorem inUse_mounted (s : ShimState τ) (b : Bool) : { s with g_mounted := b }.inUse = s.inUse := by
  funext d
  cases d <;> rfl

theorem inUse_format (s : ShimState τ) (f : Flash) : (D.ff_format s f).next.inUse = s.inUse := by
  have h := inUse_runLib D.lib.format.prog s f
  unfold ff_format
  split
  · next heq => simpa [heq] using h
  · next heq => rw [inUse_mounted]; simpa [heq] using h

theorem inUse_mount (s : ShimState τ) (f : Flash) : (D.ff_mount s f).next.inUse = s.inUse := by
  have h := inUse_runLib D.mountProg s f
  unfold ff_mount
  split
  · next heq => simpa [heq] using h
  · next heq => simpa [heq] using h
  · next heq => rw [inUse_mounted]; simpa [heq] using h

theorem inUse_unmount (s : ShimState τ) (f : Flash) : (D.ff_unmount s f).next.inUse = s.inUse := by
  have h := inUse_runLib D.lib.unmount.prog s f
  unfold ff_unmount
  split
  · split
    · next heq => simpa [heq] using h
    · next heq => rw [inUse_mounted]; simpa [heq] using h
  · rfl

end Driver

theorem ShimState.inUse_of_counts {τ : Type} {s : ShimState τ} (hfiles : s.file_used.count = 0)
    (hdirs : s.dir_used.count = 0) (d : Desc) : s.inUse d = false := by
  cases d with
  | file h =>
    refine Bool.eq_false_iff.mpr fun hu => ?_
    exact Finset.notMem_empty h (Finset.card_eq_zero.mp hfiles ▸ Pool.mem_slots.mpr hu)
  | dir h =>
    refine Bool.eq_false_iff.mpr fun hu => ?_
    exact Finset.notMem_empty h (Finset.card_eq_zero.mp hdirs ▸ Pool.mem_slots.mpr hu)

namespace Session
variable {τ : Type} {D : Driver τ} {boot : Geometry → τ} {caps : Nat} {ex : String → Bool}
  {s : Session τ}

/-- A lifecycle call leaves every object and every slot as it was. -/
theorem lifecycle_same (boot : Geometry → τ) (caps : Nat) (ex : String → Bool)
    {c : PoolCall} (hc : ∀ h, c ≠ .handle h) :
    let s' := s.lifecycle (D.wasm boot caps ex) c
    s'.objs = s.objs ∧ s'.runner.handles = s.runner.handles ∧
      s'.runner.sys.inUse = s.runner.sys.inUse := by
  cases c with
  | handle h => exact absurd rfl (hc h)
  | format =>
    refine ⟨rfl, ?_⟩
    simp only [lifecycle, Runner.exec, Runner.format]
    rw [Runner.checked_next fun ret => Val.num ret.rc]
    exact ⟨rfl, D.inUse_format _ _⟩
  | mount =>
    refine ⟨rfl, ?_⟩
    simp only [lifecycle, Runner.exec]
    rw [Runner.checked_next fun ret => Val.num ret.rc]
    exact ⟨rfl, D.inUse_mount _ _⟩
  | unmount =>
    refine ⟨rfl, ?_⟩
    simp only [lifecycle, Runner.exec]
    rw [Runner.plain_next]
    exact ⟨rfl, D.inUse_unmount _ _⟩
  | reset =>
    refine ⟨rfl, ?_⟩
    simp only [lifecycle, Runner.blank, Runner.exec]
    rw [Runner.plain_next]
    exact ⟨rfl, D.inUse_unmount _ _⟩

theorem on_objs (W : Wasm (ShimState τ)) (s : Session τ) (id : Nat) (m : Method) :
    (s.step W (.on id m)).objs = s.objs := by
  simp only [step, exec]
  split
  · rfl
  · simp [made_on]

/-- Only `close()` moves a slot. -/
theorem Sound.inUse_on {id : Nat} {m : Method} (hs : s.Sound) (hm : m ≠ .close) :
    (s.step (D.wasm boot caps ex) (.on id m)).runner.sys.inUse = s.runner.sys.inUse := by
  rcases ho : s.objs[id]? with - | o
  · rw [on_missing ho]
  · obtain ⟨h, hat⟩ := hs.at ho
    have hix := hs.index id o h hat
    by_cases hr : m.reaches o.desc = true
    · rcases hu : s.runner.sys.inUse o.desc with - | -
      · rw [(on_free hat hix hr hu).2]
      · exact ShimState.inUse_steps (on_used _ _ _ hat hix hr hu).2.2
    · rw [(on_other hat (by simpa using hr) hm).2]

theorem Sound.lifecycle (hs : s.Sound) (c : PoolCall) :
    (s.lifecycle (D.wasm boot caps ex) c).Sound := by
  by_cases hc : ∃ h, c = .handle h
  · obtain ⟨h, rfl⟩ := hc
    exact hs.step h
  · obtain ⟨hobjs, hhandles, huse⟩ := lifecycle_same (D := D) boot caps ex (s := s)
      fun h heq => hc ⟨h, heq⟩
    exact hs.of_same hobjs hhandles huse

end Session

namespace Loan
variable {τ : Type} {D : Driver τ} {boot : Geometry → τ} {caps : Nat} {ex : String → Bool}
  {l : Loan τ}

/-- The bitmaps say exactly what is out. -/
structure Matched (l : Loan τ) : Prop where
  sound : l.session.Sound
  used : ∀ d, l.session.runner.sys.inUse d = true ↔ d ∈ l.out

theorem Matched.opens {c : HandleCall} (hm : l.Matched)
    (hop : Session.Opens l.session (l.session.step (D.wasm boot caps ex) c)) (d : Desc) :
    (l.session.step (D.wasm boot caps ex) c).runner.sys.inUse d = true ↔
      d ∈ l.out ∪ (((l.session.step (D.wasm boot caps ex) c).objs.drop
        l.session.objs.length).map Opened.desc).toFinset := by
  rcases hop with ⟨hobjs, -, huse, -⟩ | ⟨o, -, hobjs, -, huse, -⟩
  · rw [hobjs, huse, hm.used]
    simp
  · rw [hobjs, huse, Function.update_apply, List.drop_left]
    by_cases hd : d = o.desc
    · simp [hd]
    · simp [hd, hm.used]

theorem Matched.on {id : Nat} {m : Method} (hm : l.Matched) (d : Desc) :
    (l.session.step (D.wasm boot caps ex) (.on id m)).runner.sys.inUse d = true ↔
      d ∈ l.settle (D.wasm boot caps ex) (.handle (.on id m)) := by
  by_cases hclose : m = .close
  · subst hclose
    show _ ↔ d ∈ l.out \ (l.session.returned (D.wasm boot caps ex) id).toFinset
    rcases ho : l.session.objs[id]? with - | o
    · rw [Session.on_missing ho, hm.used]
      simp [Session.returned, ho]
    · obtain ⟨h, hat⟩ := hm.sound.at ho
      rcases hc : h.closed with - | -
      · obtain ⟨-, -, -, ⟨hret, huse⟩ | ⟨hret, huse⟩⟩ := Session.on_close boot caps ex
          hat (hm.sound.index id o h hat) hc (hm.sound.live id o h hat hc)
        · rw [huse, hret, hm.used]
          simp
        · rw [huse, hret, Function.update_apply]
          by_cases hd : d = o.desc
          · simp [hd]
          · simp [hd, hm.used]
      · rw [(Session.on_closed hat hc).2, hm.used]
        simp [Session.returned, hat.1, hat.2, hc]
  · have hsettle : l.settle (D.wasm boot caps ex) (.handle (.on id m)) = l.out := by
      cases m with
      | close => exact absurd rfl hclose
      | _ => simp [settle, Session.on_objs]
    rw [hsettle, hm.sound.inUse_on hclose, hm.used]

theorem Matched.step (hm : l.Matched) (c : PoolCall) : (l.step (D.wasm boot caps ex) c).Matched := by
  refine ⟨hm.sound.lifecycle c, ?_⟩
  intro d
  by_cases hc : ∃ h, c = .handle h
  · obtain ⟨h, rfl⟩ := hc
    cases h with
    | open_ name mode => exact hm.opens (Session.opens_file name mode) d
    | openDir pre => exact hm.opens (Session.opens_dir pre) d
    | on id m => exact hm.on d
  · have hne : ∀ h, c ≠ .handle h := fun h heq => hc ⟨h, heq⟩
    obtain ⟨-, -, huse⟩ := Session.lifecycle_same (D := D) boot caps ex (s := l.session)
      hne
    have hout : (l.step (D.wasm boot caps ex) c).out = l.out := by
      cases c with
      | handle h => exact absurd rfl (hne h)
      | _ => rfl
    rw [hout, ← hm.used]
    exact iff_of_eq (congrArg (fun use : Desc → Bool => use d = true) huse)

theorem start_matched (fsId : String) (g : Geometry) :
    (start (D.wasm boot caps ex) fsId g).Matched := by
  refine ⟨Session.start_sound fsId g, fun d => ?_⟩
  cases d <;> simp [start, Session.start, createRunner, Driver.wasm, ShimState.inUse]

theorem Matched.files_eq (hm : l.Matched) : l.files = l.session.runner.sys.file_used.slots := by
  ext h
  simp only [files, Finset.mem_filter, Finset.mem_univ, true_and, Pool.mem_slots, ← hm.used]
  rfl

theorem Matched.dirs_eq (hm : l.Matched) : l.dirs = l.session.runner.sys.dir_used.slots := by
  ext h
  simp only [dirs, Finset.mem_filter, Finset.mem_univ, true_and, Pool.mem_slots, ← hm.used]
  rfl

theorem Matched.counts (hm : l.Matched) :
    l.session.runner.sys.file_used.count = l.files.card ∧
      l.session.runner.sys.dir_used.count = l.dirs.card := by
  rw [hm.files_eq, hm.dirs_eq]
  exact ⟨rfl, rfl⟩

/-- **The pools count what is out.** After any run of handle calls, formats, mounts, unmounts and
RESETs over any driver, as many file (directory) slots are used as file (directory) handles are out,
and an open finds a slot exactly while fewer than `FF_MAX_FILES` (`FF_MAX_DIRS`) are: a slot is freed
by the close of its handle alone. -/
theorem pools_count_out (D : Driver τ) (boot : Geometry → τ) (caps : Nat) (ex : String → Bool)
    (fsId : String) (g : Geometry) (calls : List PoolCall) :
    let W := D.wasm boot caps ex
    let l := Machine.run (step W) (start W fsId g) calls
    let sys := l.session.runner.sys
    (sys.file_used.count = l.files.card ∧ sys.dir_used.count = l.dirs.card) ∧
      (sys.file_used.first?.isSome = true ↔ l.files.card < FF_MAX_FILES) ∧
      (sys.dir_used.first?.isSome = true ↔ l.dirs.card < FF_MAX_DIRS) := by
  intro W l sys
  have hm : l.Matched := Machine.run_inv' (fun _ c h => h.step c) calls (start_matched fsId g)
  obtain ⟨hfiles, hdirs⟩ := hm.counts
  refine ⟨⟨hfiles, hdirs⟩, ?_, ?_⟩
  · rw [Pool.first?_isSome, hfiles]
  · rw [Pool.first?_isSome, hdirs]

theorem Matched.out_eq_empty (hm : l.Matched) (h : ∀ d, l.session.runner.sys.inUse d = false) :
    l.out = ∅ := by
  refine Finset.eq_empty_of_forall_notMem fun d hd => ?_
  exact Bool.false_ne_true ((h d).symm.trans ((hm.used d).mpr hd))

end Loan

/-! ## since the last lifecycle call -/

/-- A session with the descriptors that were opened since the last lifecycle call and are not closed
yet; the objects before number `old` are from before that call. -/
structure Era (τ : Type) where
  loan : Loan τ
  since : Finset Desc := ∅
  old : Nat := 0

namespace Era
variable {τ : Type}

def step (W : Wasm (ShimState τ)) (e : Era τ) (c : PoolCall) : Era τ :=
  match c with
  | .handle h => { e with
      loan := e.loan.step W (.handle h)
      since := Loan.settle W ⟨e.loan.session, e.since⟩ (.handle h) }
  | c => ⟨e.loan.step W c, ∅, e.loan.session.objs.length⟩

def start (W : Wasm (ShimState τ)) (fsId : String) (g : Geometry) : Era τ := ⟨Loan.start W fsId g, ∅, 0⟩

/-- The shim's statics. -/
def sys (e : Era τ) : ShimState τ := e.loan.session.runner.sys

/-- The file (directory) slots that were taken since the last lifecycle call. -/
def files (e : Era τ) : Finset (Fin FF_MAX_FILES) := Finset.univ.filter fun h => .file h ∈ e.since
def dirs (e : Era τ) : Finset (Fin FF_MAX_DIRS) := Finset.univ.filter fun h => .dir h ∈ e.since

/-- After the call, the pools count what was opened since the last lifecycle call and is not closed
yet, and an open finds a slot exactly while fewer than the pool's size are. -/
structure Counts (W : Wasm (ShimState τ)) (e : Era τ) (c : PoolCall) : Prop where
  files : (e.step W c).sys.file_used.count = (e.step W c).files.card
  dirs : (e.step W c).sys.dir_used.count = (e.step W c).dirs.card
  file : (e.step W c).sys.file_used.first?.isSome = true ↔ (e.step W c).files.card < FF_MAX_FILES
  dir : (e.step W c).sys.dir_used.first?.isSome = true ↔ (e.step W c).dirs.card < FF_MAX_DIRS

/-- A call through an object from before the last lifecycle call fails, and leaves chip, library and
session as they are. -/
def Spares (W : Wasm (ShimState τ)) (e : Era τ) (c : PoolCall) : Prop :=
  ∀ id m, c = .handle (.on id m) → id < e.old →
    Session.Refused (e.loan.session.exec W (.on id m)).1 ∧
      (e.step W c).loan.session = e.loan.session

/-- A format, mount, unmount or RESET finds every slot free. -/
def Emptied (e : Era τ) (c : PoolCall) : Prop :=
  (∀ h, c ≠ .handle h) → ∀ d, e.sys.inUse d = false

/-- A call through an object from before the last lifecycle call names no slot in use. -/
def Unused (e : Era τ) (c : PoolCall) : Prop :=
  ∀ id m, c = .handle (.on id m) → id < e.old → ∀ o h, e.loan.session.At id o h →
    m.reaches o.desc = true → e.sys.inUse o.desc = false

variable {D : Driver τ} {boot : Geometry → τ} {caps : Nat} {ex : String → Bool} {e : Era τ}
  {c : PoolCall}

/-- What is out was opened since the last lifecycle call, and everything older is closed. -/
structure Kept (e : Era τ) : Prop where
  matched : e.loan.Matched
  same : e.since = e.loan.out
  closed : ∀ id < e.old, ∀ o h, e.loan.session.At id o h → h.closed = true
  length : e.old ≤ e.loan.session.objs.length

theorem step_loan (W : Wasm (ShimState τ)) (e : Era τ) (c : PoolCall) :
    (e.step W c).loan = e.loan.step W c := by
  cases c <;> rfl

theorem lifecycle_forgets (W : Wasm (ShimState τ)) (hc : ∀ h, c ≠ .handle h) :
    (e.step W c).since = ∅ ∧ (e.step W c).old = e.loan.session.objs.length ∧
      (e.loan.step W c).out = e.loan.out := by
  cases c with
  | handle h => exact absurd rfl (hc h)
  | _ => exact ⟨rfl, rfl, rfl⟩

theorem objs_length (h : HandleCall) :
    e.loan.session.objs.length ≤ (e.loan.session.step (D.wasm boot caps ex) h).objs.length := by
  have hopens : ∀ s', Session.Opens e.loan.session s' → e.loan.session.objs.length ≤ s'.objs.length := by
    rintro s' (⟨hobjs, -⟩ | ⟨o, -, hobjs, -⟩)
    · rw [hobjs]
    · rw [hobjs, List.length_append]
      exact Nat.le_add_right _ _
  cases h with
  | open_ name mode => exact hopens _ (Session.opens_file name mode)
  | openDir pre => exact hopens _ (Session.opens_dir pre)
  | on id m => rw [Session.on_objs]

theorem Kept.step (hk : e.Kept) (he : e.Emptied c) : (e.step (D.wasm boot caps ex) c).Kept := by
  have hm : (e.step (D.wasm boot caps ex) c).loan.Matched := by
    rw [step_loan]
    exact hk.matched.step c
  by_cases hc : ∃ h, c = .handle h
  · obtain ⟨h, rfl⟩ := hc
    refine ⟨hm, ?_, fun id hid o h' hat => ?_, Nat.le_trans hk.length (objs_length h)⟩
    · show Loan.settle _ ⟨_, e.since⟩ _ = Loan.settle _ _ _
      rw [hk.same]
    · -- the object was closed before, and has stayed so
      have hlt : id < e.loan.session.objs.length := Nat.lt_of_lt_of_le hid hk.length
      obtain ⟨h₀, hat₀⟩ := hk.matched.sound.at (List.getElem?_eq_getElem hlt)
      have hc₀ := hk.closed id hid _ _ hat₀
      have hstays : (e.loan.session.step (D.wasm boot caps ex) h).At id _ h₀ :=
        hk.matched.sound.at_step hat₀ (.inl hc₀)
      rw [← Option.some.inj (hstays.2.symm.trans hat.2)]
      exact hc₀
  · have hne : ∀ h, c ≠ .handle h := fun h heq => hc ⟨h, heq⟩
    obtain ⟨hsince, hold, hout⟩ := lifecycle_forgets (D.wasm boot caps ex) hne (e := e)
    obtain ⟨hobjs, hhandles, -⟩ :=
      Session.lifecycle_same (D := D) boot caps ex (s := e.loan.session) hne
    refine ⟨hm, ?_, fun id hid o h hat => ?_, ?_⟩
    · rw [hsince, step_loan, hout, hk.matched.out_eq_empty (he hne)]
    · rw [step_loan] at hat
      have hat₀ : e.loan.session.At id o h := ⟨hobjs ▸ hat.1, hhandles ▸ hat.2⟩
      by_contra hopen
      have hused := hk.matched.sound.live id o h hat₀ (by simpa using hopen)
      exact Bool.false_ne_true ((he hne o.desc).symm.trans hused)
    · rw [hold, step_loan]
      exact Nat.le_of_eq (congrArg List.length hobjs.symm)

theorem Kept.counts (hk : (e.step (D.wasm boot caps ex) c).Kept) : e.Counts (D.wasm boot caps ex) c := by
  obtain ⟨hfiles, hdirs⟩ := hk.matched.counts
  unfold Loan.files at hfiles
  unfold Loan.dirs at hdirs
  rw [← hk.same] at hfiles hdirs
  refine ⟨hfiles, hdirs, ?_, ?_⟩
  · rw [Pool.first?_isSome]
    exact iff_of_eq (congrArg (· < FF_MAX_FILES) hfiles)
  · rw [Pool.first?_isSome]
    exact iff_of_eq (congrArg (· < FF_MAX_DIRS) hdirs)

/-- Where the pools count right after a lifecycle call, it found every slot free. -/
theorem emptied_of_counts (h : e.Counts (D.wasm boot caps ex) c) : e.Emptied c := by
  intro hne
  obtain ⟨hsince, -, -⟩ := lifecycle_forgets (D.wasm boot caps ex) hne (e := e)
  obtain ⟨-, -, huse⟩ := Session.lifecycle_same (D := D) boot caps ex (s := e.loan.session) hne
  have hfiles := h.files
  have hdirs := h.dirs
  unfold files at hfiles
  unfold dirs at hdirs
  rw [hsince] at hfiles hdirs
  simp only [Finset.notMem_empty, Finset.filter_false, Finset.card_empty] at hfiles hdirs
  intro d
  rw [← ShimState.inUse_of_counts hfiles hdirs d]
  unfold sys
  rw [step_loan]
  exact (congrFun huse d).symm

/-- An old object is closed: a call through it does nothing where its slot is free. -/
theorem Kept.spares (hk : e.Kept) (hu : e.Unused c) : e.Spares (D.wasm boot caps ex) c := by
  rintro id m rfl hid
  obtain ⟨h, hat⟩ := hk.matched.sound.at
    (List.getElem?_eq_getElem (Nat.lt_of_lt_of_le hid hk.length))
  have hfresh : e.loan.session.Fresh (.on id m) := fun o h hat _ hr => hu id m rfl hid o h hat hr
  exact ((Session.apart_on hk.matched.sound).mpr hfresh _ _ hat).1 (hk.closed id hid _ _ hat)

theorem start_kept (fsId : String) (g : Geometry) : (start (D.wasm boot caps ex) fsId g).Kept where
  matched := Loan.start_matched fsId g
  same := rfl
  closed _ h := absurd h (Nat.not_lt_zero _)
  length := Nat.zero_le _

/-- **When the pools survive the lifecycle calls.**  For every driver and every run of handle calls,
formats, mounts, unmounts and RESETs:

* the pools count the handles that were opened since the last lifecycle call and are not closed yet
  exactly if every lifecycle call finds every slot free;
* if, too, no call through an object from before the last lifecycle call names a slot in use, then
  every such call fails and changes nothing. -/
theorem pools_survive (D : Driver τ) (boot : Geometry → τ) (caps : Nat) (ex : String → Bool)
    (fsId : String) (g : Geometry) (calls : List PoolCall) :
    let W := D.wasm boot caps ex
    (Machine.Along (step W) Emptied (start W fsId g) calls ↔
      Machine.Along (step W) (Counts W) (start W fsId g) calls) ∧
    (Machine.Along (step W) (fun e c => e.Emptied c ∧ e.Unused c) (start W fsId g) calls →
      Machine.Along (step W) (fun e c => e.Counts W c ∧ e.Spares W c) (start W fsId g) calls) := by
  intro W
  have hstep : ∀ (e : Era τ) c, e.Emptied c → e.Kept → (e.step W c).Kept := fun _ _ he hk => hk.step he
  refine ⟨⟨fun hg => ?_, fun hg => hg.mono fun _ _ h => emptied_of_counts h⟩, fun hg => ?_⟩
  · exact hg.strengthen hstep (fun _ _ he hk => (hk.step he).counts) (start_kept fsId g)
  · exact hg.strengthen (fun _ _ he hk => hk.step he.1)
      (fun _ _ he hk => ⟨(hk.step he.1).counts, hk.spares he.2⟩) (start_kept fsId g)

end Era

/-! ## eight files left open -/

/-- What FatFs knows of a volume: whether it is mounted, the number of the mount, its files with their
sizes, and mount number and size in every open file object. -/
structure FatVolume where
  mounted : Bool := false
  fsid : Nat := 0
  files : List (String × Nat) := []
  objs : Fin FF_MAX_FILES → Nat × Nat := fun _ => (0, 0)

namespace FatVolume

/-- `validate`: the object is of the present mount. -/
def valid (v : FatVolume) (i : Fin FF_MAX_FILES) : Bool := v.mounted && (v.objs i).1 == v.fsid

def set (v : FatVolume) (i : Fin FF_MAX_FILES) (size : Nat) : FatVolume :=
  { v with objs := Function.update v.objs i (v.fsid, size) }

/-- FatFs, as far as the objects go: an object of an earlier mount is invalid (`FR_INVALID_OBJECT`),
but `f_size` is a field of the object. -/
def library : Library FatVolume where
  err _ := .lit 19
  openFile i name access v _ :=
    if !v.mounted then (.ok (.error (.lit 12)), v, [])
    else
      match access, v.files.lookup name with
      | .read, none => (.ok (.error (.lit 4)), v, [])
      | .read, some size | .append, some size => (.ok (.ok ()), v.set i size, [])
      | _, _ => (.ok (.ok ()), { v with files := (name, 0) :: v.files.filter (·.1 ≠ name) }.set i 0, [])
  readFile i _ v _ := (if v.valid i then .ok (.ok []) else .ok (.error (.lit 9)), v, [])
  writeFile i data v _ :=
    if v.valid i then (.ok (.ok data.length), v.set i ((v.objs i).2 + data.length), [])
    else (.ok (.error (.lit 9)), v, [])
  seekFile i _ _ v _ := (if v.valid i then .ok (.ok 0) else .ok (.error (.lit 9)), v, [])
  lseek i _ v _ := (if v.valid i then .ok (.ok ()) else .ok (.error (.lit 9)), v, [])
  rewind i v _ := (if v.valid i then .ok (.ok ()) else .ok (.error (.lit 9)), v, [])
  skip i n v _ := (if v.valid i then .ok (.ok n) else .ok (.error (.lit 9)), v, [])
  tell _ _ := 0
  size i v := (v.objs i).2
  statFile i v _ := (.ok (.ok ([], (v.objs i).2)), v, [])
  closeFile i v _ := (if v.valid i then .ok (.ok ()) else .ok (.error (.lit 9)), v, [])
  openDir _ _ v _ := (.ok (.ok ()), v, [])
  nextFile _ v _ := (.ok (.ok none), v, [])
  closeDir _ v _ := (.ok (), v, [])
  ensure v _ := (.ok true, v, [])
  format v _ := (.ok 0, { v with mounted := false, files := [] }, [])
  mount v _ := (.ok 0, { v with mounted := true, fsid := v.fsid + 1 }, [])
  unmount v _ := (.ok (), { v with mounted := false }, [])
  whole _ v _ := (.ok ⟨0, []⟩, v, [])

end FatVolume

def fatWasm : Wasm (ShimState FatVolume) :=
  (fatfs FatVolume.library).wasm (fun _ => {}) 12 fun _ => true

/-- Eight files are opened and a byte is written to the first; then RESET, format and mount. -/
def leftOpen : List PoolCall :=
  [.format, .mount] ++ (["a", "b", "c", "d", "e", "f", "g", "h"].map fun n => .handle (.open_ n "w")) ++
    [.handle (.on 0 (.write [65])), .reset, .format, .mount]

/-- Every slot is used though nothing was opened since the mount, an open fails; and of the old
objects one still answers, while another is refused. -/
theorem pool_stays_full :
    let e := Machine.run (Era.step fatWasm) (Era.start fatWasm "fatfs" ⟨4096, 64, 256, 1⟩) leftOpen
    e.since = ∅ ∧ e.old = 8 ∧ e.sys.file_used.count = FF_MAX_FILES ∧
      (e.loan.session.exec fatWasm (.open_ "i" "w")).1 = .error "open i failed: -1" ∧
      (e.loan.session.exec fatWasm (.on 0 .stat)).1 = .ok (.file "a" 1) ∧
      (e.loan.session.exec fatWasm (.on 0 (.write [66]))).1 = .error "write handle 0 failed: -9" := by
  decide +kernel

/-- A file is opened and closed before the RESET, and its object used after the mount. -/
def allClosed : List PoolCall :=
  [.format, .mount, .handle (.open_ "a" "w"), .handle (.on 0 .close), .reset, .format, .mount,
    .handle (.on 0 .stat)]

theorem pools_survive_closed :
    Machine.Along (Era.step fatWasm) (fun e c => e.Counts fatWasm c ∧ e.Spares fatWasm c)
      (Era.start fatWasm "fatfs" ⟨4096, 64, 256, 1⟩) allClosed := by
  -- a lifecycle call while no slot is in use, an open, and the first `close()`
  have hcall : ∀ (e : Era FatVolume) c, e.sys.file_used.count = 0 → e.sys.dir_used.count = 0 →
      (∀ h, c ≠ .handle h) → e.Emptied c ∧ e.Unused c := by
    intro e c hf hd hne
    exact ⟨fun _ => ShimState.inUse_of_counts hf hd, fun id m heq => absurd heq (hne _)⟩
  have hopen : ∀ (e : Era FatVolume) name mode,
      e.Emptied (.handle (.open_ name mode)) ∧ e.Unused (.handle (.open_ name mode)) :=
    fun e name mode => ⟨fun hne => absurd rfl (hne _), fun id m heq => by simp at heq⟩
  have hon : ∀ (e : Era FatVolume) id m, (e.old = 0 ∨ ∀ d, e.sys.inUse d = false) →
      e.Emptied (.handle (.on id m)) ∧ e.Unused (.handle (.on id m)) := by
    intro e id m h
    refine ⟨fun hne => absurd rfl (hne _), fun id' m' _ hid o _ _ _ => ?_⟩
    rcases h with h | h
    · rw [h] at hid
      exact absurd hid (Nat.not_lt_zero _)
    · exact h o.desc
  refine (Era.pools_survive (fatfs FatVolume.library) (fun _ => {}) 12 (fun _ => true) "fatfs"
    ⟨4096, 64, 256, 1⟩ allClosed).2 ⟨hcall _ _ ?_ ?_ (by simp), hcall _ _ ?_ ?_ (by simp),
      hopen _ _ _, hon _ _ _ (.inl ?_), hcall _ _ ?_ ?_ (by simp), hcall _ _ ?_ ?_ (by simp),
      hcall _ _ ?_ ?_ (by simp), hon _ _ _ (.inr (ShimState.inUse_of_counts ?_ ?_)), trivial⟩
  all_goals decide +kernel

end FlashVis

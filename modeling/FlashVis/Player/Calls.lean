import FlashVis.Player.Machine

/-!
# What a runner call does to a worker

A runner call changes its runner, the view and the capture sink; only `format()` reaches the
playback queue, through the device reset it starts with.  `useRunner_tame` and `useRunner_format`
say this once for every caller.
-/

namespace FlashVis

/-! ## runner steps -/

/-- A runner step that keeps the runner's identity and whose events are neither resets nor of
negative cost. -/
structure RunnerStep.Tame {σ : Type} (r : Runner σ) (s : RunnerStep σ) : Prop where
  build : s.next.build = r.build
  events : ∀ ev ∈ s.events, ev ≠ .reset ∧ 0 ≤ ev.ns

namespace Runner
variable {σ : Type} (W : Wasm σ)

theorem ff_tame (c : FfCall) (r : Runner σ) :
    (r.ff W c).2.1.build = r.build ∧ ∀ ev ∈ (r.ff W c).2.2, ev ≠ .reset ∧ 0 ≤ ev.ns := by
  refine ⟨rfl, fun ev hev => ⟨?_, Device.hals_ns_nonneg _ _ ev hev⟩⟩
  rintro rfl
  exact Device.hals_no_reset _ _ hev

theorem checked_tame (c : FfCall) (what : String) (r : Runner σ)
    (ok : FfRet → Runner σ → Val × Runner σ) (hok : ∀ ret r, (ok ret r).2.build = r.build) :
    (checked W c what r ok).Tame r := by
  have h := ff_tame W c r
  unfold checked
  generalize r.ff W c = x at h ⊢
  rcases x with ⟨_ | ret, r', evs⟩
  · exact ⟨h.1, h.2⟩
  · dsimp only at h ⊢
    cases check what ret.rc with
    | error e => exact ⟨h.1, h.2⟩
    | ok _ => exact ⟨(hok ret r').trans h.1, h.2⟩

theorem plain_tame (c : FfCall) (r : Runner σ) (ok : FfRet → Val) : (plain W c r ok).Tame r := by
  have h := ff_tame W c r
  unfold plain
  generalize r.ff W c = x at h ⊢
  rcases x with ⟨_ | ret, r', evs⟩
  · exact ⟨h.1, h.2⟩
  · exact ⟨h.1, h.2⟩

theorem bind_tame {s : RunnerStep σ} {f : Val → Runner σ → RunnerStep σ} {r : Runner σ}
    (hs : s.Tame r) (hf : ∀ v r', (f v r').Tame r') : (bind s f).Tame r := by
  unfold bind
  cases s.val with
  | error e => exact ⟨hs.build, hs.events⟩
  | ok v =>
    refine ⟨(hf v s.next).build.trans hs.build, fun ev hev => ?_⟩
    rcases List.mem_append.mp hev with hev | hev
    · exact hs.events ev hev
    · exact (hf v s.next).events ev hev

theorem pure_tame (v : Except String Val) (r : Runner σ) : (RunnerStep.mk v r []).Tame r :=
  ⟨rfl, fun _ h => absurd h (by simp)⟩

theorem onHandle_tame (id : Nat) (r : Runner σ) (f : HandleObj → RunnerStep σ)
    (hf : ∀ o, (f o).Tame r) : (onHandle id r f).Tame r := by
  unfold onHandle
  cases r.handles[id]? with
  | none => exact pure_tame _ _
  | some o => exact hf o

theorem close_tame (id : Nat) (r : Runner σ) (f : Int → Runner σ → RunnerStep σ)
    (hf : ∀ h r', (f h r').Tame r') : (close id r f).Tame r := by
  refine onHandle_tame id r _ fun o => ?_
  cases o.closed with
  | true => exact pure_tame _ _
  | false => exact ⟨(hf _ _).build, (hf _ _).events⟩

theorem write_tame (name : String) (data : List UInt8) (r : Runner σ) :
    (write W name data r).Tame r := checked_tame W _ _ r _ fun _ _ => rfl

theorem read_tame (name : String) (r : Runner σ) : (read W name r).Tame r := by
  unfold read
  exact checked_tame W _ _ r _ fun _ _ => rfl

theorem remove_tame (name : String) (r : Runner σ) : (remove W name r).Tame r :=
  checked_tame W _ _ r _ fun _ _ => rfl

theorem gcStep_tame (r : Runner σ) : (gcStep W r).Tame r := by
  unfold gcStep
  split
  · exact checked_tame W _ _ r _ fun _ _ => rfl
  · exact pure_tame _ _

theorem gcSteps_tame (k : Nat) (r : Runner σ) : (gcSteps W k r).Tame r := by
  induction k generalizing r with
  | zero => exact gcStep_tame W r
  | succ k ih => exact bind_tame (gcStep_tame W r) fun _ r' => ih r'

theorem classes_tame (sym : String) (bit : Nat) (c : FfCall) (k : Nat) (r : Runner σ) :
    (classes W sym bit c k r).Tame r := by
  unfold classes
  split
  · exact plain_tame W _ _ _
  · exact pure_tame _ _

theorem open_tame (name mode : String) (r : Runner σ) : (open_ W name mode r).Tame r := by
  unfold open_
  cases modeCode mode with
  | none => exact pure_tame _ _
  | some m => exact checked_tame W _ _ r _ fun _ _ => rfl

theorem exec_tame (c : RCall) (hc : c ≠ .format) (r : Runner σ) : (exec W c r).Tame r := by
  cases c <;> unfold exec
  case format => exact absurd rfl hc
  all_goals dsimp only
  case mount => exact checked_tame W _ _ r _ fun _ _ => rfl
  case unmount => exact plain_tame W _ _ _
  case gcStep steps => exact gcSteps_tame W _ r
  case write name data => exact write_tame W name data r
  case writeSized name size => exact bind_tame (write_tame W _ _ r) fun _ r' => pure_tame _ r'
  case read name => exact read_tame W name r
  case readSize name =>
    refine bind_tame (read_tame W name r) fun v r' => ?_
    cases v <;> exact pure_tame _ r'
  case cat name =>
    refine bind_tame (read_tame W name r) fun v r' => ?_
    cases v <;> exact pure_tame _ r'
  case remove name => exact remove_tame W name r
  case statRemove name =>
    refine bind_tame (plain_tame W _ _ _) fun v r' => bind_tame (remove_tame W name r') fun _ r'' => ?_
    cases v <;> exact pure_tame _ r''
  case exists_ name => exact plain_tame W _ _ _
  case fsinfo =>
    unfold fsinfo
    exact bind_tame (plain_tame W _ _ _) fun _ r' => plain_tame W _ r' _
  case stat name => exact plain_tame W _ _ _
  case list => exact checked_tame W _ _ r _ fun _ _ => rfl
  case mkdir name => exact checked_tame W _ _ r _ fun _ _ => rfl
  case sectorClasses => exact classes_tame W _ _ _ _ r
  case liveMap => exact classes_tame W _ _ _ _ r
  case open_ name mode => exact open_tame W name mode r
  case openDir pre => exact checked_tame W _ _ r _ fun _ _ => rfl
  case fRead id n => exact onHandle_tame id r _ fun o => checked_tame W _ _ r _ fun _ _ => rfl
  case fWrite id data => exact onHandle_tame id r _ fun o => checked_tame W _ _ r _ fun _ _ => rfl
  case fSeek id off whence =>
    refine onHandle_tame id r _ fun o => ?_
    cases whenceCode whence with
    | none => exact pure_tame _ _
    | some w => exact checked_tame W _ _ r _ fun _ _ => rfl
  case fStat id => exact onHandle_tame id r _ fun o => checked_tame W _ _ r _ fun _ _ => rfl
  case fClose id => exact close_tame id r _ fun h r' => checked_tame W _ _ r' _ fun _ _ => rfl
  case dRead id => exact onHandle_tame id r _ fun o => plain_tame W _ r _
  case dClose id => exact close_tame id r _ fun h r' => plain_tame W _ r' _

/-- `format()` reports the chip reset first; the rest is tame. -/
theorem exec_format (r : Runner σ) : ∃ evs, (exec W .format r).events = .reset :: evs ∧
    (exec W .format r).next.build = r.build ∧ ∀ ev ∈ evs, ev ≠ .reset ∧ 0 ≤ ev.ns := by
  have h := checked_tame W .format "format"
    { r with device := r.device.reset, hostBytes := 0, tracked := [] }
    (fun ret r => (.num ret.rc, r)) fun _ _ => rfl
  exact ⟨_, rfl, h.build, h.events⟩

end Runner

namespace Worker
variable {σ : Type}

/-! ## the device listener -/

/-- Events without a reset reach the view and the capture sink only. -/
theorem foldDevice_tame (evs : List DevEvent) (w : Worker σ) (h : ∀ ev ∈ evs, ev ≠ .reset) :
    ∃ v : View, v.heat = w.heat ∧ evs.foldl onDevice w =
      { w with toView := v, captureBatch := w.captureBatch.map (· ++ evs) } := by
  induction evs generalizing w with
  | nil => exact ⟨w.toView, rfl, by simp⟩
  | cons ev evs ih =>
    have hev := h ev List.mem_cons_self
    have htl : ∀ e ∈ evs, e ≠ .reset := fun e he => h e (List.mem_cons_of_mem _ he)
    obtain ⟨v, hv, heq⟩ := ih (w.onDevice ev) htl
    rw [List.foldl_cons, heq]
    cases ev with
    | reset => exact absurd rfl hev
    | read off len ns =>
      refine ⟨v, hv, ?_⟩
      simp only [onDevice, Option.map_map]
      congr 3
      funext l
      simp
    | prog off len ns =>
      refine ⟨v, hv, ?_⟩
      simp only [onDevice, Option.map_map]
      congr 3
      funext l
      simp
    | erase s off len ns =>
      refine ⟨v, hv, ?_⟩
      simp only [onDevice, Option.map_map]
      congr 3
      funext l
      simp

theorem useRunner_tame (H : Host σ) (c : RCall) (hc : c ≠ .format) (w : Worker σ) (r : Runner σ)
    (hr : w.runner = some r) :
    ∃ (val : Except String Val) (v : View) (r' : Runner σ) (evs : List DevEvent),
      v.heat = w.heat ∧ r'.build = r.build ∧ (∀ ev ∈ evs, 0 ≤ ev.ns) ∧
      useRunner H c w = (val, { w with
        toView := v, runner := some r', captureBatch := w.captureBatch.map (· ++ evs) }) := by
  have ht := Runner.exec_tame H.wasm c hc r
  obtain ⟨v, hv, heq⟩ := foldDevice_tame (r.exec H.wasm c).events
    { w with runner := some (r.exec H.wasm c).next } fun ev he => (ht.events ev he).1
  refine ⟨(r.exec H.wasm c).val, v, (r.exec H.wasm c).next, (r.exec H.wasm c).events, hv,
    ht.build, fun ev he => (ht.events ev he).2, ?_⟩
  unfold useRunner
  rw [hr]
  simp only
  rw [heq]

/-- What `format()` does to the worker: the queue and the running total are dropped. -/
theorem useRunner_format (H : Host σ) (w : Worker σ) (r : Runner σ) (hr : w.runner = some r) :
    ∃ (val : Except String Val) (v : View) (r' : Runner σ) (evs : List DevEvent),
      v.heat.map (·.geometry) = w.heat.map (·.geometry) ∧ r'.build = r.build ∧
      (∀ ev ∈ evs, 0 ≤ ev.ns) ∧
      useRunner H .format w = (val, { w with
        toView := v, runner := some r', pbQueue := [], executedTapeNs := 0
        hist := w.hist ++ [.wiped w.playbackNs]
        captureBatch := w.captureBatch.map (· ++ evs) }) := by
  obtain ⟨evs, hevs, hb, ht⟩ := Runner.exec_format H.wasm r
  obtain ⟨v, hv, heq⟩ := foldDevice_tame evs
    (onDevice { w with runner := some (r.exec H.wasm .format).next } .reset) fun ev he => (ht ev he).1
  refine ⟨(r.exec H.wasm .format).val, v, (r.exec H.wasm .format).next, evs, ?_, hb,
    fun ev he => (ht ev he).2, ?_⟩
  · rw [hv]
    simp only [onDevice, Option.map_map]
    rfl
  · unfold useRunner
    rw [hr]
    simp only
    rw [hevs, List.foldl_cons, heq]
    rfl

end Worker
end FlashVis

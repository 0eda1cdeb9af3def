import FlashVis.Player.Tasks

/-!
# The history against the runner

The runner calls that a history records of event and gc entries are the calls that the pump makes:
each is made once, on the build that the record names, and in the order of the records.

* `ranOf h`          the calls that a history records, each with its build and entry;
* `Replays H w w'`   from `w` to `w'` the runner took the calls that the history gained, no others;
* `pump_replays`
-/

namespace FlashVis

def Act.ran? : Act → Option (Nat × Nat × RCall)
  | .ran build index call => some (build, index, call)
  | _ => none

def ranOf (h : List Act) : List (Nat × Nat × RCall) := h.filterMap Act.ran?

theorem ranOf_append (h h' : List Act) : ranOf (h ++ h') = ranOf h ++ ranOf h' :=
  List.filterMap_append

/-- The runner after some calls. -/
def Runner.replay {σ : Type} (W : Wasm σ) (r : Runner σ) (calls : List RCall) : Runner σ :=
  calls.foldl (fun r c => (r.exec W c).next) r

theorem Runner.replay_build {σ : Type} (W : Wasm σ) (calls : List RCall) (r : Runner σ)
    (hc : ∀ c ∈ calls, c ≠ .format) : (r.replay W calls).build = r.build := by
  induction calls generalizing r with
  | nil => rfl
  | cons c calls ih =>
    calc (r.replay W (c :: calls)).build = (r.exec W c).next.build :=
          ih (r.exec W c).next fun d hd => hc d (List.mem_cons_of_mem _ hd)
      _ = r.build := (Runner.exec_tame W c (hc c List.mem_cons_self) r).build

namespace Worker
variable {σ : Type} {H : Host σ} {w w₁ w₂ : Worker σ}

/-- Nothing of an entry runs between the two. -/
def Rests (w w' : Worker σ) : Prop := w'.runner = w.runner ∧ ranOf w'.hist = ranOf w.hist

def Replays (H : Host σ) (w w' : Worker σ) : Prop :=
  ∀ r, w.runner = some r → ∃ ran : List (Nat × RCall), (∀ x ∈ ran, x.2 ≠ .format) ∧
    ranOf w'.hist = ranOf w.hist ++ ran.map (fun x => (r.build, x)) ∧
    w'.runner = some (r.replay H.wasm (ran.map Prod.snd))

theorem Rests.trans (h : w.Rests w₁) (h' : w₁.Rests w₂) : w.Rests w₂ :=
  ⟨h'.1.trans h.1, h'.2.trans h.2⟩

theorem Rests.replays (h : w.Rests w₁) : Replays H w w₁ := by
  intro r hr
  refine ⟨[], fun x hx => absurd hx List.not_mem_nil, ?_, ?_⟩
  · rw [List.map_nil, List.append_nil]
    exact h.2
  · exact h.1.trans hr

theorem Replays.trans (h : Replays H w w₁) (h' : Replays H w₁ w₂) : Replays H w w₂ := by
  intro r hr
  obtain ⟨ran, hc, hran, hrun⟩ := h r hr
  obtain ⟨ran', hc', hran', hrun'⟩ := h' _ hrun
  have hb : (r.replay H.wasm (ran.map Prod.snd)).build = r.build := by
    refine Runner.replay_build H.wasm _ r fun c hmem => ?_
    obtain ⟨x, hx, rfl⟩ := List.mem_map.mp hmem
    exact hc x hx
  refine ⟨ran ++ ran', fun x hx => ?_, ?_, ?_⟩
  · rcases List.mem_append.mp hx with h | h
    · exact hc x h
    · exact hc' x h
  · rw [hran', hran, hb, List.map_append, List.append_assoc]
  · rw [hrun', List.map_append]
    exact congrArg some List.foldl_append.symm

/-! ## what makes no call -/

theorem openEntry_rests (call : Option RCall) (w : Worker σ) : w.Rests (w.openEntry call) := by
  refine ⟨openEntry_runner call w, ?_⟩
  exact congrArg (fun p : Player => ranOf p.hist) (openEntry_core call w)

theorem foldEager_rests (batch : List DevEvent) (w : Worker σ) :
    w.Rests (batch.foldl applyEager w) := by
  induction batch generalizing w with
  | nil => exact ⟨rfl, rfl⟩
  | cons ev batch ih =>
    have h : w.Rests (w.applyEager ev) := by cases ev <;> exact ⟨rfl, rfl⟩
    exact h.trans (ih _)

theorem enqueueBatch_rests (index : Nat) (batch : List DevEvent) (last : Bool) (ops : Nat)
    (w : Worker σ) : w.Rests (w.enqueueBatch index batch last ops) := by
  have h : w.Rests { w with hist := w.hist ++ [.enqueued index batch w.prepActive] } := by
    refine ⟨rfl, ?_⟩
    rw [ranOf_append]
    exact List.append_nil _
  refine h.trans ?_
  unfold enqueueBatch
  dsimp only
  cases w.prepActive with
  | false => exact ⟨rfl, rfl⟩
  | true =>
    rw [if_pos rfl]
    cases last <;> exact foldEager_rests batch _

theorem closeEntry_rests (index : Nat) (label : Option String) (w : Worker σ) :
    w.Rests (w.closeEntry index label) := by
  have hlog : w.Rests ({ w with captureBatch := none }.logBatch index label
      (w.captureBatch.getD [])) := by
    unfold logBatch
    cases label with
    | none => exact ⟨rfl, rfl⟩
    | some l => dsimp only; split <;> exact ⟨rfl, rfl⟩
  exact hlog.trans (enqueueBatch_rests index _ true _ _)

theorem realCommand_rests (H : Host σ) (e : Entry) (w : Worker σ) : w.Rests (w.realCommand H e) := by
  have hopen : w.Rests (w.openCommand w.cursor e) := by
    unfold openCommand
    dsimp only
    cases e.payload <;> refine ⟨rfl, ?_⟩ <;> exact (ranOf_append _ _).trans (List.append_nil _)
  unfold realCommand
  split
  · exact ⟨rfl, rfl⟩
  split
  · exact ⟨rfl, rfl⟩
  split
  · exact ⟨rfl, rfl⟩
  unfold startRealCommand
  dsimp only
  cases H.compileError (sourceOf e.payload) with
  | none => exact hopen
  | some err => exact hopen.trans (enqueueBatch_rests w.cursor [] true 0 ((w.openCommand w.cursor e).log
      { entryIndex := w.cursor, kind := .done, text := "command compile error: " ++ err }))

theorem syntheticCommand_rests (costNs : Option ℚ) (fileOps ticks : Option Nat)
    (prep : Option Bool) (w : Worker σ) :
    w.Rests (w.syntheticCommand costNs fileOps ticks prep).1 := by
  unfold syntheticCommand
  dsimp only
  split
  · exact ⟨rfl, rfl⟩
  · exact ⟨rfl, rfl⟩
  · split
    · split <;> exact ⟨rfl, rfl⟩
    · split <;> exact ⟨rfl, rfl⟩

/-! ## the pump -/

/-- An entry's call is made once, thrown or not, and recorded once. -/
theorem execRealEntry_replays (w : Worker σ) (index : Nat) (e : Entry) :
    Replays H w (w.execRealEntry H index e).w := by
  refine (openEntry_rests ((entryCall e).map Prod.fst) w).replays.trans ?_
  unfold execRealEntry
  dsimp only
  generalize w.openEntry ((entryCall e).map Prod.fst) = w₁
  cases hcall : entryCall e with
  | none => exact (closeEntry_rests index none w₁).replays
  | some cl =>
    obtain ⟨call, label⟩ := cl
    have huse : Replays H w₁ (useRunner H call (w₁.noteRan index call)).2 := by
      intro r hr
      have hnote : w₁.noteRan index call =
          { w₁ with hist := w₁.hist ++ [.ran r.build index call] } := by
        simp only [noteRan, hr]
      have htame := Runner.exec_tame H.wasm call (entryCall_ne_format hcall) r
      obtain ⟨v, -, heq⟩ := foldDevice_tame (r.exec H.wasm call).events
        { w₁.noteRan index call with runner := some (r.exec H.wasm call).next }
        fun ev he => (htame.events ev he).1
      have hstep : (useRunner H call (w₁.noteRan index call)).2 = (r.exec H.wasm call).events.foldl
          onDevice { w₁.noteRan index call with runner := some (r.exec H.wasm call).next } := by
        simp only [useRunner, hnote, hr]
      rw [hstep, heq, hnote]
      refine ⟨[(index, call)], fun x hx => ?_, ranOf_append _ _, rfl⟩
      rw [List.mem_singleton.mp hx]
      exact entryCall_ne_format hcall
    dsimp only
    rcases hres : useRunner H call (w₁.noteRan index call) with ⟨_ | val, w₂⟩
    · rw [hres] at huse
      exact huse
    · rw [hres] at huse
      exact huse.trans (closeEntry_rests index (some label) w₂).replays

theorem turn_replays (w : Worker σ) (e : Entry) : Replays H w (w.turn H e).1.w := by
  have hreal := (realCommand_rests H e w).replays (H := H)
  have hexec := execRealEntry_replays (H := H) w w.cursor e
  have hrest : w.Rests w := ⟨rfl, rfl⟩
  unfold turn
  split
  · split
    · exact (syntheticCommand_rests _ _ _ _ w).replays
    · exact hreal
  · exact hreal
  · split
    · exact hrest.replays
    · exact Rests.replays ⟨rfl, rfl⟩
  · split
    · exact hrest.replays
    split
    · exact hrest.replays
    · exact hexec

theorem pumpLoop_replays (fuel : Nat) (w : Worker σ) : Replays H w (w.pumpLoop H fuel).w := by
  induction fuel generalizing w with
  | zero => exact Rests.replays ⟨rfl, rfl⟩
  | succ fuel ih =>
    unfold pumpLoop
    split
    · exact Rests.replays ⟨rfl, rfl⟩
    split
    · exact Rests.replays ⟨rfl, rfl⟩
    rename_i e _
    have hturn := turn_replays (H := H) w e
    rcases hres : w.turn H e with ⟨r, _ | _⟩
    · rw [hres] at hturn
      exact hturn
    · rw [hres] at hturn
      exact hturn.trans (ih r.w)

/-- **What the history records is what the runner ran**: a pump takes the runner through the calls
that it adds to the history, in order and once each. -/
theorem pump_replays (w : Worker σ) : Replays H w (w.pump H).w :=
  pumpLoop_replays _ w

end Worker
end FlashVis

import FlashVis.Worker.Host
import FlashVis.Coord.Proxy
import FlashVis.Lib.Machine

/-!
# The page's view of one session (playground.js)

The page pulls the focused session once per render tick and applies the newest frame that has come
back.

* `Viewer`     what the page keeps of the session: cursors, tape, sweeps;
* `Watch`      the viewer, the proxy's frame, the pulls and frames in flight, the worker's rings;
* `Watch.step` one task of the page or the worker, or one message delivered.

The worker is its two rings here: what it pushes, and when it answers, is arbitrary
(`handlePull_answers` is the link to the worker).
-/

namespace FlashVis

/-- `JOURNAL_MIN` -/
def JOURNAL_MIN : Nat := 400

theorem journal_min_lt : JOURNAL_MIN < JOURNAL_MAX := by
  unfold JOURNAL_MIN JOURNAL_MAX
  omega

/-- `{ newest: true, limit: 0 }`: the head only. -/
def headSel : RingSel := { newest := true, limit := some 0 }

/-- `{ since: c, limit: JOURNAL_MIN }` -/
def fromSel (c : Nat) : RingSel := { since := some (c : Int), limit := some JOURNAL_MIN }

/-- What the page keeps of the session. `lastFrame` is the frame object processed last, by its number;
`ingested` and `applied` are all lines that `ingestJournal` has taken and all events that
`viz.applyEvents` has animated. -/
structure Viewer where
  liveMapSince : Int := -1
  journalSince : Nat := 0
  eventsSince : Nat := 0
  attachedFresh : Bool := true
  lastFrame : Option Nat := none
  journalEntries : List (Nat × JournalItem) := []
  tapeSeen : List Nat := []
  pulling : Bool := true
  ingested : List (Nat × JournalItem) := []
  applied : List (Nat × VizEvent) := []

namespace Viewer

/-- One turn of the loop of `ingestJournal`. -/
def ingest (st : Viewer) (e : Nat × JournalItem) : Viewer :=
  if e.1 ∈ st.tapeSeen then st
  else
    let entries := st.journalEntries ++ [e]
    { st with
      tapeSeen := e.1 :: st.tapeSeen
      journalEntries := if JOURNAL_MIN < entries.length then entries.drop 1 else entries
      ingested := st.ingested ++ [e] }

/-- `ingestJournal` -/
def ingestJournal (journal : List (Nat × JournalItem)) (st : Viewer) : Viewer :=
  journal.foldl ingest st

/-- The frame part of `renderTick`, for frame object `k`. -/
def applyFrame (k : Nat) (f : FrameMsg) (st : Viewer) : Viewer :=
  let st := { st with
    lastFrame := some k
    applied := st.applied ++ f.events
    liveMapSince := match f.liveMap with | some (version, _) => version | none => st.liveMapSince
    journalSince := f.journalHead
    eventsSince := f.eventHead }
  { st.ingestJournal f.journal with attachedFresh := false }

/-- What `renderTick` asks of the event ring: after an attach the head only. -/
def eventSel (st : Viewer) : RingSel :=
  if st.attachedFresh then headSel else fromSel st.eventsSince

/-- The pull of `renderTick`. -/
def pullSel (st : Viewer) : PullSel where
  liveMap := some (some (if st.attachedFresh then -1 else st.liveMapSince))
  journal := some (fromSel st.journalSince)
  events := some st.eventSel

/-- `setFocus` to this session, with frame object `k` at its proxy. -/
def focus (k : Option Nat) (st : Viewer) : Viewer :=
  { st with pulling := true, attachedFresh := true, liveMapSince := -1, lastFrame := k }

/-- `setFocus` to another session. -/
def blur (st : Viewer) : Viewer := { st with pulling := false }

end Viewer

/-- A frame with its number as an object, and the pull that it answers. -/
structure Reply where
  sel : PullSel
  msg : FrameMsg

/-- One session between worker and page within an epoch. -/
structure Watch where
  journal : Ring JournalItem
  events : Ring VizEvent
  pulls : List PullSel := []
  replies : List Reply := []
  frame : Option (Nat × Reply) := none
  heard : Nat := 0
  st : Viewer := {}

/-- The ring parts of a frame that answers `sel`. -/
def FrameMsg.answer (sel : PullSel) (journal : Ring JournalItem) (events : Ring VizEvent)
    (f : FrameMsg) : FrameMsg :=
  { f with
    journal := Worker.selectRing sel.journal journal, events := Worker.selectRing sel.events events
    journalHead := journal.head, eventHead := events.head }

namespace Worker
variable {σ : Type} {w : Worker σ}

theorem onDevice_rings (evs : List DevEvent) (w : Worker σ) :
    (evs.foldl onDevice w).journal = w.journal ∧
      ∃ es, (evs.foldl onDevice w).events = w.events.pushAll es := by
  induction evs generalizing w with
  | nil => exact ⟨rfl, [], rfl⟩
  | cons ev evs ih =>
    obtain ⟨h1, es, h2⟩ := ih (w.onDevice ev)
    cases ev with
    | reset => exact ⟨h1, .reset :: es, h2⟩
    | read off len ns => exact ⟨h1, es, h2⟩
    | prog off len ns => exact ⟨h1, es, h2⟩
    | erase sector off len ns => exact ⟨h1, es, h2⟩

theorem useRunner_rings (H : Host σ) (c : RCall) (w : Worker σ) :
    (useRunner H c w).2.journal = w.journal ∧
      ∃ es, (useRunner H c w).2.events = w.events.pushAll es := by
  unfold useRunner
  cases hr : w.runner with
  | none => exact ⟨rfl, [], rfl⟩
  | some r => exact onDevice_rings _ _

theorem ensureLiveness_rings (H : Host σ) (w : Worker σ) :
    (w.ensureLiveness H).w.journal = w.journal ∧
      ∃ es, (w.ensureLiveness H).w.events = w.events.pushAll es := by
  unfold ensureLiveness
  split
  · exact ⟨rfl, [], rfl⟩
  split
  · exact ⟨rfl, [], rfl⟩
  · dsimp only
    have h := useRunner_rings H .liveMap { w with
      mapDirty := false, lastLivenessWalk := w.clock, livenessGen := w.livenessGen + 1 }
    split
    · rename_i heq
      rw [heq] at h
      exact h
    · rename_i heq
      rw [heq] at h
      exact h
    · rename_i heq
      rw [heq] at h
      exact h

/-- **The worker answers a pull** with a frame of its rings, or not at all; what it pushes in between
are events of the chip. -/
theorem handlePull_answers (H : Host σ) (sel : PullSel) (w : Worker σ) :
    ∃ u : Worker σ, u.journal = w.journal ∧ (∃ es, u.events = w.events.pushAll es) ∧
      (w.handlePull H sel = u ∨
        ∃ f : FrameMsg, w.handlePull H sel = u.post (.frame u.epoch (f.answer sel u.journal u.events))) := by
  unfold handlePull
  dsimp only
  generalize hv : ({ w with heat := w.heat.map (HeatPlayer.snapshotHeat H.pow w.clock w.scale) } :
    Worker σ) = v
  have hj : v.journal = w.journal := by rw [← hv]
  have he : v.events = w.events := by rw [← hv]
  have h : (if sel.liveMap.isSome then v.ensureLiveness H else ⟨v, none⟩ : Ran σ).w.journal =
      w.journal ∧ ∃ es, (if sel.liveMap.isSome then v.ensureLiveness H else ⟨v, none⟩ : Ran σ).w.events =
        w.events.pushAll es := by
    rw [← hj, ← he]
    split
    · exact ensureLiveness_rings H v
    · exact ⟨rfl, [], rfl⟩
  generalize (if sel.liveMap.isSome then v.ensureLiveness H else ⟨v, none⟩ : Ran σ) = walked at h
  obtain ⟨u, thrown⟩ := walked
  refine ⟨u, h.1, h.2, ?_⟩
  cases thrown with
  | none => exact .inr ⟨⟨_, _, _, _, _, [], [], 0, 0⟩, rfl⟩
  | some e => exact .inl rfl

end Worker

/-- What happens next. -/
inductive Glance where
  /-- the worker pushes a line -/
  | line (it : JournalItem)
  /-- the worker pushes an event -/
  | event (ev : VizEvent)
  /-- the worker takes the oldest pull and posts a frame, with the heat, wear and map of `f` -/
  | answer (f : FrameMsg)
  /-- the worker takes the oldest pull, and its liveness walk throws -/
  | fail
  /-- the proxy takes the oldest frame -/
  | deliver
  /-- `renderTick` -/
  | tick
  /-- `setFocus` to this session -/
  | focus
  /-- `setFocus` to another session -/
  | blur

namespace Watch

/-- The frame that `renderTick` processes: each frame object once. -/
def fresh (S : Watch) : Option (Nat × Reply) :=
  match S.frame with
  | none => none
  | some (k, r) => if S.st.lastFrame = some k then none else some (k, r)

/-- `renderTick`: it runs for the focused session. -/
def renderTick (S : Watch) : Watch :=
  if !S.st.pulling then S
  else
    let st := match S.fresh with
      | none => S.st
      | some (k, r) => S.st.applyFrame k r.msg
    { S with st := st, pulls := S.pulls ++ [st.pullSel] }

/-- One step. -/
def step (S : Watch) (g : Glance) : Watch :=
  match g with
  | .line it => { S with journal := S.journal.push it }
  | .event ev => { S with events := S.events.push ev }
  | .answer f =>
    match S.pulls with
    | [] => S
    | sel :: pulls =>
      { S with pulls := pulls, replies := S.replies ++ [⟨sel, f.answer sel S.journal S.events⟩] }
  | .fail => { S with pulls := S.pulls.drop 1 }
  | .deliver =>
    match S.replies with
    | [] => S
    | r :: replies => { S with replies := replies, frame := some (S.heard, r), heard := S.heard + 1 }
  | .tick => S.renderTick
  | .focus => { S with st := S.st.focus (S.frame.map (·.1)) }
  | .blur => { S with st := S.st.blur }

/-- The replies that the page has still to see, or has at hand, oldest first. -/
def mail (S : Watch) : List Reply := (S.frame.map (·.2)).toList ++ S.replies

/-- An epoch begins: its rings are empty, though their ids go on from `h` and `e`, and nothing of it
is in flight; the viewer may have seen earlier epochs. -/
structure Opened (h e : Nat) (S : Watch) : Prop where
  journal : S.journal = ⟨JOURNAL_MAX, [], h⟩
  events : S.events = ⟨JOURNAL_MAX, [], e⟩
  pulls : S.pulls = []
  replies : S.replies = []
  frame : S.frame = none
  last : ∀ k, S.st.lastFrame = some k → k < S.heard
  journalSince : S.st.journalSince ≤ h
  eventsSince : S.st.eventsSince ≤ e
  seen : ∀ id ∈ S.st.tapeSeen, id < h
  ingested : S.st.ingested = []
  applied : S.st.applied = []

/-- The lines and the events pushed by a run. -/
def linesOf (gs : List Glance) : List JournalItem :=
  gs.filterMap fun | .line it => some it | _ => none

def eventsOf (gs : List Glance) : List VizEvent :=
  gs.filterMap fun | .event ev => some ev | _ => none

/-- The selection leaves nothing of the ring out: no more than `JOURNAL_MIN` items lie past the
cursor. -/
def fits {α : Type} (sel : Option RingSel) (r : Ring α) : Prop :=
  match sel with
  | none => True
  | some s => s.newest = true ∨
      (r.items.filter fun it => Worker.ringSince s.since < (it.1 : Int)).length ≤ JOURNAL_MIN

open Window in
theorem selectRing_window {α : Type} {h c : Nat} {xs : List α} {r : Ring α} (hr : r.Holds h xs)
    (hmax : r.max = JOURNAL_MAX) (hfit : fits (some (fromSel c)) r) :
    Worker.selectRing (some (fromSel c)) r = window c r.head (numbered h xs) := by
  have hroom := hfit.resolve_left Bool.false_ne_true
  have hwin : (r.items.filter fun it => Worker.ringSince (some (c : Int)) < (it.1 : Int)) =
      r.items.filter fun it => c ≤ it.1 := by
    refine List.filter_congr fun x _ => ?_
    unfold Worker.ringSince
    simp only [Option.getD_some, decide_eq_decide]
    omega
  have hlimit : JOURNAL_MIN < r.max := by
    rw [hmax]
    exact journal_min_lt
  have hsel : Worker.selectRing (some (fromSel c)) r = r.since ((c : Int) - 1) (some JOURNAL_MIN) := by
    unfold Worker.selectRing fromSel
    exact if_neg Bool.false_ne_true
  rw [hsel]
  exact hr.since_window hlimit (hwin ▸ hroom)

theorem answer_mail {S : Watch} {sel : PullSel} {pulls : List PullSel} (hp : S.pulls = sel :: pulls)
    (f : FrameMsg) : S.step (.answer f) = { S with
      pulls := pulls
      replies := S.replies ++ [⟨sel, f.answer sel S.journal S.events⟩] } ∧
    (S.step (.answer f)).mail = S.mail ++ [⟨sel, f.answer sel S.journal S.events⟩] := by
  unfold step mail
  rw [hp]
  dsimp only
  exact ⟨rfl, (List.append_assoc ..).symm⟩

end Watch

end FlashVis

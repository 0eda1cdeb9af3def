import FlashVis.Page.Viewer

/-!
# The tape

* `ingestJournal_eq`   what a frame adds to the tape: its lines that were not seen;
* `Taped`              the cursors and replies in flight fit the lines pushed so far;
* `step_taped`         every step keeps them so;
* `tape_exactly_once`  the tape is the lines below the head of the last frame, once each, in order.
-/

namespace FlashVis
open Window

theorem Viewer.ingestJournal_eq {l : List (Nat × JournalItem)} (hl : Rising l) (st : Viewer) :
    ∃ entries seen, st.ingestJournal l =
        { st with
          journalEntries := entries, tapeSeen := seen
          ingested := st.ingested ++ l.filter fun e => e.1 ∉ st.tapeSeen } ∧
      ∀ id, id ∈ seen ↔ id ∈ st.tapeSeen ∨ ∃ e ∈ l, e.1 = id := by
  induction l generalizing st with
  | nil => exact ⟨st.journalEntries, st.tapeSeen, by simp [ingestJournal], by simp⟩
  | cons e l ih =>
    obtain ⟨he, hl⟩ := List.pairwise_cons.mp hl
    by_cases hs : e.1 ∈ st.tapeSeen
    · have hstep : st.ingest e = st := if_pos hs
      obtain ⟨entries, seen, h, hseen⟩ := ih hl st
      refine ⟨entries, seen, ?_, fun id => ?_⟩
      · show (st.ingest e).ingestJournal l = _
        rw [hstep, h, List.filter_cons_of_neg (by simpa using hs)]
      · rw [hseen, List.exists_mem_cons_iff]
        constructor
        · rintro (h | h)
          · exact .inl h
          · exact .inr (.inr h)
        · rintro (h | rfl | h)
          · exact .inl h
          · exact .inl hs
          · exact .inr h
    · have hstep : st.ingest e = { st with
          tapeSeen := e.1 :: st.tapeSeen
          journalEntries := if JOURNAL_MIN < (st.journalEntries ++ [e]).length then
            (st.journalEntries ++ [e]).drop 1 else st.journalEntries ++ [e]
          ingested := st.ingested ++ [e] } := if_neg hs
      obtain ⟨entries, seen, h, hseen⟩ := ih hl (st.ingest e)
      rw [hstep] at h hseen
      refine ⟨entries, seen, ?_, fun id => ?_⟩
      · show (st.ingest e).ingestJournal l = _
        have hrest : l.filter (fun x => x.1 ∉ e.1 :: st.tapeSeen) =
            l.filter fun x => x.1 ∉ st.tapeSeen := by
          refine List.filter_congr fun x hx => ?_
          have hne : x.1 ≠ e.1 := by
            have := he x hx
            omega
          simp [hne]
        rw [hstep, h, List.filter_cons_of_pos (by simpa using hs), hrest]
        simp
      · rw [hseen, List.exists_mem_cons_iff, List.mem_cons]
        constructor
        · rintro ((rfl | h) | h)
          · exact .inr (.inl rfl)
          · exact .inl h
          · exact .inr (.inr h)
        · rintro (h | rfl | h)
          · exact .inl (.inr h)
          · exact .inl (.inl rfl)
          · exact .inr h

theorem Viewer.applyFrame_eq (k : Nat) {f : FrameMsg} (hl : Rising f.journal) (st : Viewer) :
    ∃ entries seen since, st.applyFrame k f =
        { st with
          lastFrame := some k, applied := st.applied ++ f.events, liveMapSince := since
          journalSince := f.journalHead, eventsSince := f.eventHead
          journalEntries := entries, tapeSeen := seen
          ingested := st.ingested ++ f.journal.filter fun e => e.1 ∉ st.tapeSeen
          attachedFresh := false } ∧
      ∀ id, id ∈ seen ↔ id ∈ st.tapeSeen ∨ ∃ e ∈ f.journal, e.1 = id := by
  obtain ⟨since, happly⟩ : ∃ since, st.applyFrame k f =
      { ({ st with
          lastFrame := some k, applied := st.applied ++ f.events, liveMapSince := since
          journalSince := f.journalHead, eventsSince := f.eventHead }).ingestJournal f.journal with
        attachedFresh := false } := ⟨_, rfl⟩
  obtain ⟨entries, seen, heq, hseen⟩ := Viewer.ingestJournal_eq hl { st with
    lastFrame := some k, applied := st.applied ++ f.events, liveMapSince := since
    journalSince := f.journalHead, eventsSince := f.eventHead }
  refine ⟨entries, seen, since, ?_, hseen⟩
  rw [happly, heq]

namespace Watch
variable {h : Nat} {xs : List JournalItem} {S : Watch} {g : Glance}

/-- The lines `xs` have been pushed, with ids from `h` on; what is in flight and what the page has fit
them. -/
structure Taped (h : Nat) (xs : List JournalItem) (S : Watch) : Prop where
  cap : S.journal.max = JOURNAL_MAX
  ring : S.journal.Holds h xs
  order : Ascending S.st.journalSince (S.mail.map (·.msg.journalHead)) S.journal.head
  asked : ∀ sel ∈ S.pulls, ∃ c ≤ S.st.journalSince, sel.journal = some (fromSel c)
  told : ∀ r ∈ S.mail, ∃ c ≤ S.st.journalSince,
    r.msg.journal = window c r.msg.journalHead (numbered h xs)
  seen : ∀ id, h ≤ id → (id ∈ S.st.tapeSeen ↔ id < S.st.journalSince)
  ingested : S.st.ingested = upTo S.st.journalSince (numbered h xs)

/-- At most `JOURNAL_MIN` lines were pushed between the cursor of a pull and its reply. -/
def tapeFits (S : Watch) (g : Glance) : Prop :=
  match g, S.pulls with
  | .answer _, sel :: _ => fits sel.journal S.journal
  | _, _ => True

theorem Opened.taped {e : Nat} (hS : Opened h e S) : Taped h [] S := by
  have hmail : S.mail = [] := by
    unfold mail
    rw [hS.frame, hS.replies]
    rfl
  refine ⟨by rw [hS.journal], ⟨by rw [hS.journal]; rfl, by rw [hS.journal]; rfl⟩, ?_, ?_, ?_, ?_, ?_⟩
  · rw [hmail, hS.journal, ascending_iff]
    exact ⟨hS.journalSince, by simp, List.Pairwise.nil⟩
  · rw [hS.pulls]
    exact fun sel hsel => absurd hsel List.not_mem_nil
  · rw [hmail]
    exact fun r hr => absurd hr List.not_mem_nil
  · intro id hid
    have h1 := hS.journalSince
    exact ⟨fun hm => absurd (hS.seen id hm) (by omega), fun hlt => absurd hlt (by omega)⟩
  · rw [hS.ingested, upTo_nil hS.journalSince]

/-! ## the steps -/

theorem Taped.line (hS : Taped h xs S) (it : JournalItem) :
    Taped h (xs ++ [it]) (S.step (.line it)) := by
  have hhead : S.journal.head = h + xs.length := hS.ring.nextId
  have hle := ascending_iff.mp hS.order
  refine ⟨hS.cap, hS.ring.push it, hS.order.grow (Nat.le_succ _), hS.asked, fun r hr => ?_, hS.seen, ?_⟩
  · obtain ⟨c, hc, htold⟩ := hS.told r hr
    refine ⟨c, hc, htold.trans ?_⟩
    have hlt := (hle.2.1 _ (List.mem_map_of_mem hr)).2
    rw [numbered_concat, window_concat it (by omega)]
  · show S.st.ingested = upTo S.st.journalSince _
    rw [numbered_concat, upTo_concat it (by have := hle.1; omega)]
    exact hS.ingested

theorem Taped.event (hS : Taped h xs S) (ev : VizEvent) : Taped h xs (S.step (.event ev)) :=
  ⟨hS.cap, hS.ring, hS.order, hS.asked, hS.told, hS.seen, hS.ingested⟩

theorem Taped.fail (hS : Taped h xs S) : Taped h xs (S.step .fail) :=
  ⟨hS.cap, hS.ring, hS.order, fun sel hsel => hS.asked sel (List.mem_of_mem_drop hsel), hS.told,
    hS.seen, hS.ingested⟩

theorem Taped.answer (hS : Taped h xs S) (f : FrameMsg) (hfit : S.tapeFits (.answer f)) :
    Taped h xs (S.step (.answer f)) := by
  unfold tapeFits at hfit
  cases hp : S.pulls with
  | nil =>
    unfold step
    rw [hp]
    exact hS
  | cons sel pulls =>
    rw [hp] at hfit
    dsimp only at hfit
    obtain ⟨c, hc, hsel⟩ := hS.asked sel (by rw [hp]; exact List.mem_cons_self)
    obtain ⟨hstep, hmail⟩ := answer_mail hp f
    have hasked : ∀ s ∈ pulls, ∃ c ≤ S.st.journalSince, s.journal = some (fromSel c) :=
      fun s hs => hS.asked s (by rw [hp]; exact List.mem_cons_of_mem _ hs)
    have horder := hS.order.post
    rw [hstep] at hmail ⊢
    refine ⟨hS.cap, hS.ring, ?_, hasked, ?_, hS.seen, hS.ingested⟩
    · rw [hmail, List.map_append]
      exact horder
    · rw [hmail]
      intro r hr
      rcases List.mem_append.mp hr with hr | hr
      · exact hS.told r hr
      · rw [List.mem_singleton.mp hr]
        refine ⟨c, hc, ?_⟩
        show Worker.selectRing sel.journal S.journal = window c S.journal.head _
        rw [hsel] at hfit ⊢
        exact selectRing_window hS.ring hS.cap hfit

/-- A frame at the proxy is overwritten. -/
theorem deliver_mail (S : Watch) : (S.step .deliver).mail.Sublist S.mail := by
  unfold step mail
  cases hr : S.replies with
  | nil =>
    dsimp only
    rw [hr]
  | cons r replies => exact List.sublist_append_right _ _

theorem deliver_spared (S : Watch) : (S.step .deliver).st = S.st ∧
    (S.step .deliver).journal = S.journal ∧ (S.step .deliver).events = S.events ∧
    (S.step .deliver).pulls = S.pulls := by
  unfold step
  cases hr : S.replies <;> exact ⟨rfl, rfl, rfl, rfl⟩

theorem Taped.deliver (hS : Taped h xs S) : Taped h xs (S.step .deliver) := by
  obtain ⟨hst, hj, -, hp⟩ := S.deliver_spared
  have hmail := S.deliver_mail
  refine ⟨?_, ?_, ?_, ?_, ?_, ?_, ?_⟩
  · rw [hj]
    exact hS.cap
  · rw [hj]
    exact hS.ring
  · rw [hst, hj]
    exact hS.order.sublist (hmail.map _)
  · rw [hst, hp]
    exact hS.asked
  · rw [hst]
    exact fun r hr => hS.told r (hmail.subset hr)
  · rw [hst]
    exact hS.seen
  · rw [hst]
    exact hS.ingested

/-- A frame is applied: the lines from the cursor to its head are new. -/
theorem Taped.applyFrame (hS : Taped h xs S) {k : Nat} {r : Reply} (hf : S.frame = some (k, r)) :
    Taped h xs { S with st := S.st.applyFrame k r.msg } := by
  have hmail : S.mail = r :: S.replies := by
    unfold mail
    rw [hf]
    rfl
  obtain ⟨c, hc, htold⟩ := hS.told r (by rw [hmail]; exact List.mem_cons_self)
  have horder := hS.order
  rw [hmail, List.map_cons] at horder
  have hhead := (ascending_iff.mp horder).2.1 r.msg.journalHead List.mem_cons_self
  have hnum := numbered_rising h xs
  have hlt : S.journal.head = h + xs.length := hS.ring.nextId
  -- the lines of the frame that were not seen
  have hnew : r.msg.journal.filter (fun e => e.1 ∉ S.st.tapeSeen) =
      window S.st.journalSince r.msg.journalHead (numbered h xs) := by
    rw [← window_from hc, ← htold]
    refine List.filter_congr fun x hx => ?_
    rw [htold] at hx
    have hid := (mem_numbered (List.mem_of_mem_filter hx)).1
    rw [decide_eq_decide, hS.seen x.1 hid]
    omega
  have hrising : Rising r.msg.journal := by
    rw [htold]
    exact hnum.filter _
  obtain ⟨entries, seen, since, hst, hseen⟩ := Viewer.applyFrame_eq k hrising S.st
  rw [hst]
  refine ⟨hS.cap, hS.ring, ?_, fun s hs => ?_, fun r' hr' => ?_, fun id hid => ?_, ?_⟩
  · show Ascending r.msg.journalHead (S.mail.map _) _
    rw [hmail]
    exact horder.take
  · obtain ⟨c', hc', hs'⟩ := hS.asked s hs
    exact ⟨c', Nat.le_trans hc' hhead.1, hs'⟩
  · obtain ⟨c', hc', hr''⟩ := hS.told r' hr'
    exact ⟨c', Nat.le_trans hc' hhead.1, hr''⟩
  · show id ∈ seen ↔ id < r.msg.journalHead
    rw [hseen]
    show id ∈ S.st.tapeSeen ∨ _ ↔ _
    rw [hS.seen id hid, htold]
    constructor
    · rintro (h1 | ⟨e, he, rfl⟩)
      · have := hhead.1
        omega
      · have := List.of_mem_filter he
        simp only [decide_eq_true_eq] at this
        exact this.2
    · intro h1
      by_cases h2 : id < S.st.journalSince
      · exact .inl h2
      · have hidlt : id < h + xs.length := by
          have := hhead.2
          omega
        obtain ⟨x, hx⟩ := exists_numbered hid hidlt
        refine .inr ⟨(id, x), List.mem_filter.mpr ⟨hx, ?_⟩, rfl⟩
        simp only [decide_eq_true_eq]
        omega
  · show S.st.ingested ++ r.msg.journal.filter (fun e => e.1 ∉ S.st.tapeSeen) = upTo r.msg.journalHead _
    rw [hnew, hS.ingested]
    exact upTo_append_window hnum hhead.1

theorem Taped.ask (hS : Taped h xs S) : Taped h xs { S with pulls := S.pulls ++ [S.st.pullSel] } := by
  refine ⟨hS.cap, hS.ring, hS.order, fun s hs => ?_, hS.told, hS.seen, hS.ingested⟩
  rcases List.mem_append.mp hs with hs | hs
  · exact hS.asked s hs
  · rw [List.mem_singleton.mp hs]
    exact ⟨S.st.journalSince, Nat.le_refl _, rfl⟩

theorem fresh_frame {k : Nat} {r : Reply} (hf : S.fresh = some (k, r)) : S.frame = some (k, r) := by
  unfold fresh at hf
  cases hfr : S.frame with
  | none =>
    rw [hfr] at hf
    exact nomatch hf
  | some p =>
    rw [hfr] at hf
    dsimp only at hf
    split at hf
    · exact nomatch hf
    · exact hf

theorem Taped.tick (hS : Taped h xs S) : Taped h xs (S.step .tick) := by
  show Taped h xs S.renderTick
  unfold renderTick
  split
  · exact hS
  · cases hf : S.fresh with
    | none => exact hS.ask
    | some p => exact (hS.applyFrame (fresh_frame hf)).ask

/-- **Every step keeps the tape in order.** -/
theorem step_taped (hS : Taped h xs S) (hfit : S.tapeFits g) :
    Taped h (xs ++ linesOf [g]) (S.step g) := by
  cases g with
  | line it => exact hS.line it
  | event ev => exact (List.append_nil xs).symm ▸ hS.event ev
  | answer f => exact (List.append_nil xs).symm ▸ hS.answer f hfit
  | fail => exact (List.append_nil xs).symm ▸ hS.fail
  | deliver => exact (List.append_nil xs).symm ▸ hS.deliver
  | tick => exact (List.append_nil xs).symm ▸ hS.tick
  | focus =>
    exact (List.append_nil xs).symm ▸
      ⟨hS.cap, hS.ring, hS.order, hS.asked, hS.told, hS.seen, hS.ingested⟩
  | blur =>
    exact (List.append_nil xs).symm ▸
      ⟨hS.cap, hS.ring, hS.order, hS.asked, hS.told, hS.seen, hS.ingested⟩

theorem run_taped {gs : List Glance} (hS : Taped h xs S) (hfit : Machine.Along step tapeFits S gs) :
    Taped h (xs ++ linesOf gs) (Machine.run step S gs) := by
  induction gs generalizing S xs with
  | nil => exact (List.append_nil xs).symm ▸ hS
  | cons g gs ih =>
    have hlines : linesOf (g :: gs) = linesOf [g] ++ linesOf gs := by
      unfold linesOf
      rw [← List.filterMap_append, List.singleton_append]
    rw [hlines, ← List.append_assoc]
    exact ih (step_taped hS hfit.1) hfit.2

/-- **Lines reach the tape exactly once and in order.** In an epoch whose lines have the ids from `h`
on, with pulls in flight, frames overwritten and the focus switched at any time: while no more than
`JOURNAL_MIN` lines are pushed between the cursor of a pull and its reply, the lines ingested so far are
those with ids below the head of the frame processed last. -/
theorem tape_exactly_once {e : Nat} {gs : List Glance} (hS : Opened h e S)
    (hfit : Machine.Along step tapeFits S gs) :
    (Machine.run step S gs).st.ingested =
      upTo (Machine.run step S gs).st.journalSince (numbered h (linesOf gs)) :=
  (run_taped hS.taped hfit).ingested

/-- A page just loaded, over a worker just built. -/
def loaded : Watch := { journal := createRing JOURNAL_MAX, events := createRing JOURNAL_MAX }

theorem loaded_opened : Opened 0 0 loaded :=
  ⟨rfl, rfl, rfl, rfl, rfl, nofun, Nat.le_refl 0, Nat.le_refl 0, nofun, rfl, rfl⟩

/-- A frame of an empty die. -/
def bareFrame : FrameMsg := ⟨[], [], [], [], none, [], [], 0, 0⟩

/-- One line on its way to the tape. -/
def firstLine : List Glance :=
  [.line ⟨0, .echo, "help()", none⟩, .tick, .answer bareFrame, .deliver, .tick]

theorem tape_exactly_once_first_line : (Machine.run step loaded firstLine).st.ingested =
    upTo (Machine.run step loaded firstLine).st.journalSince (numbered 0 (linesOf firstLine)) :=
  tape_exactly_once loaded_opened
    ⟨trivial, trivial, .inr (by decide +kernel), trivial, trivial, trivial⟩

end Watch
end FlashVis

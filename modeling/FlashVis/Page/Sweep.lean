import FlashVis.Page.Tape

/-!
# The erase sweeps

Unlike lines, events are not told apart by their ids: what a frame brings is animated.

* `Swept`             the cursors and replies in flight fit the events pushed so far;
* `Current`           the frame at hand answers what the page would ask now;
* `step_swept`        every step keeps them so;
* `sweeps_once`       where frames are current: each event at most once, none from before an attach,
                      and every one from then on exactly once.
-/

namespace FlashVis
open Window

namespace Watch
variable {e : Nat} {es : List VizEvent} {S : Watch} {g : Glance}

/-- The events `es` have been pushed, with ids from `e` on; what is in flight fits them. -/
structure Swept (e : Nat) (es : List VizEvent) (S : Watch) : Prop where
  cap : S.events.max = JOURNAL_MAX
  ring : S.events.Holds e es
  order : Ascending S.st.eventsSince (S.mail.map (·.msg.eventHead)) S.events.head
  asked : ∀ sel ∈ S.pulls, sel.events = some headSel ∨
    ∃ c ≤ S.st.eventsSince, sel.events = some (fromSel c)
  told : ∀ r ∈ S.mail, (r.sel.events = some headSel ∧ r.msg.events = []) ∨
    ∃ c ≤ S.st.eventsSince, r.sel.events = some (fromSel c) ∧
      r.msg.events = window c r.msg.eventHead (numbered e es)

/-- At most `JOURNAL_MIN` events were pushed between the cursor of a pull and its reply. -/
def sweepFits (S : Watch) (g : Glance) : Prop :=
  match g, S.pulls with
  | .answer _, sel :: _ => fits sel.events S.events
  | _, _ => True

/-- A frame that `renderTick` is about to process answers a pull for what the page would ask now, or no
event has been pushed since the cursor of the page: then nothing is missed and nothing comes twice. -/
def Current (S : Watch) (g : Glance) : Prop :=
  match g, S.fresh with
  | .tick, some (_, r) => S.st.pulling = true → r.sel.events = some S.st.eventSel ∨
      (r.msg.events = [] ∧ (S.st.attachedFresh = true ∨ r.msg.eventHead = S.st.eventsSince))
  | _, _ => True

theorem Opened.swept {h : Nat} (hS : Opened h e S) : Swept e [] S := by
  have hmail : S.mail = [] := by
    unfold mail
    rw [hS.frame, hS.replies]
    rfl
  refine ⟨by rw [hS.events], ⟨by rw [hS.events]; rfl, by rw [hS.events]; rfl⟩, ?_, ?_, ?_⟩
  · rw [hmail, hS.events, ascending_iff]
    exact ⟨hS.eventsSince, by simp, List.Pairwise.nil⟩
  · rw [hS.pulls]
    exact fun sel hsel => absurd hsel List.not_mem_nil
  · rw [hmail]
    exact fun r hr => absurd hr List.not_mem_nil

/-! ## the steps -/

theorem Swept.event (hS : Swept e es S) (ev : VizEvent) :
    Swept e (es ++ [ev]) (S.step (.event ev)) := by
  have hhead : S.events.head = e + es.length := hS.ring.nextId
  have hle := ascending_iff.mp hS.order
  refine ⟨hS.cap, hS.ring.push ev, hS.order.grow (Nat.le_succ _), hS.asked, fun r hr => ?_⟩
  refine (hS.told r hr).imp_right ?_
  rintro ⟨c, hc, hsel, htold⟩
  refine ⟨c, hc, hsel, htold.trans ?_⟩
  have hlt := (hle.2.1 _ (List.mem_map_of_mem hr)).2
  rw [numbered_concat, window_concat ev (by omega)]

theorem headSel_ne_fromSel (c : Nat) : headSel ≠ fromSel c := fun h =>
  Bool.false_ne_true (congrArg RingSel.newest h).symm

theorem fromSel_inj {c d : Nat} (h : fromSel c = fromSel d) : c = d :=
  Int.ofNat_inj.mp (Option.some.inj (congrArg RingSel.since h))

theorem Swept.answer (hS : Swept e es S) (f : FrameMsg) (hfit : S.sweepFits (.answer f)) :
    Swept e es (S.step (.answer f)) := by
  unfold sweepFits at hfit
  cases hp : S.pulls with
  | nil =>
    unfold step
    rw [hp]
    exact hS
  | cons sel pulls =>
    rw [hp] at hfit
    dsimp only at hfit
    obtain ⟨hstep, hmail⟩ := answer_mail hp f
    have hasked : ∀ s ∈ pulls, s.events = some headSel ∨
        ∃ c ≤ S.st.eventsSince, s.events = some (fromSel c) :=
      fun s hs => hS.asked s (by rw [hp]; exact List.mem_cons_of_mem _ hs)
    have horder := hS.order.post
    rw [hstep] at hmail ⊢
    refine ⟨hS.cap, hS.ring, ?_, hasked, ?_⟩
    · rw [hmail, List.map_append]
      exact horder
    · rw [hmail]
      intro r hr
      rcases List.mem_append.mp hr with hr | hr
      · exact hS.told r hr
      · rw [List.mem_singleton.mp hr]
        refine (hS.asked sel (by rw [hp]; exact List.mem_cons_self)).imp (fun h => ⟨h, ?_⟩) ?_
        · show Worker.selectRing sel.events S.events = []
          rw [h]
          exact List.drop_eq_nil_of_le (Nat.le_refl _)
        · rintro ⟨c, hc, hsel⟩
          refine ⟨c, hc, hsel, ?_⟩
          show Worker.selectRing sel.events S.events = window c S.events.head _
          rw [hsel] at hfit ⊢
          exact selectRing_window hS.ring hS.cap hfit

theorem Swept.deliver (hS : Swept e es S) : Swept e es (S.step .deliver) := by
  obtain ⟨hst, -, he, hp⟩ := S.deliver_spared
  have hmail := S.deliver_mail
  refine ⟨?_, ?_, ?_, ?_, ?_⟩
  · rw [he]
    exact hS.cap
  · rw [he]
    exact hS.ring
  · rw [hst, he]
    exact hS.order.sublist (hmail.map _)
  · rw [hst, hp]
    exact hS.asked
  · rw [hst]
    exact fun r hr => hS.told r (hmail.subset hr)

theorem applyFrame_events (k : Nat) (f : FrameMsg) (st : Viewer) :
    (st.applyFrame k f).eventsSince = f.eventHead ∧ (st.applyFrame k f).attachedFresh = false ∧
      (st.applyFrame k f).applied = st.applied ++ f.events := by
  have hone : ∀ (v : Viewer) (x : Nat × JournalItem),
      (v.ingest x).eventsSince = v.eventsSince ∧ (v.ingest x).applied = v.applied := by
    intro v x
    unfold Viewer.ingest
    split <;> exact ⟨rfl, rfl⟩
  have hspared : ∀ (l : List (Nat × JournalItem)) (v : Viewer),
      (v.ingestJournal l).eventsSince = v.eventsSince ∧ (v.ingestJournal l).applied = v.applied := by
    intro l
    induction l with
    | nil => exact fun v => ⟨rfl, rfl⟩
    | cons x l ih => exact fun v => ⟨(ih _).1.trans (hone v x).1, (ih _).2.trans (hone v x).2⟩
  unfold Viewer.applyFrame
  exact ⟨(hspared f.journal _).1, rfl, (hspared f.journal _).2⟩

theorem Swept.applyFrame (hS : Swept e es S) {k : Nat} {r : Reply} (hf : S.frame = some (k, r)) :
    Swept e es { S with st := S.st.applyFrame k r.msg } ∧
      S.st.eventsSince ≤ r.msg.eventHead := by
  have hmail : S.mail = r :: S.replies := by
    unfold mail
    rw [hf]
    rfl
  have horder := hS.order
  rw [hmail, List.map_cons] at horder
  have hhead := (ascending_iff.mp horder).2.1 r.msg.eventHead List.mem_cons_self
  obtain ⟨hcur, -, -⟩ := applyFrame_events k r.msg S.st
  refine ⟨⟨hS.cap, hS.ring, ?_, fun s hs => ?_, fun r' hr' => ?_⟩, hhead.1⟩
  · show Ascending (S.st.applyFrame k r.msg).eventsSince (S.mail.map _) _
    rw [hmail, hcur]
    exact horder.take
  · refine (hS.asked s hs).imp_right ?_
    rintro ⟨c, hc, h⟩
    exact ⟨c, hcur ▸ Nat.le_trans hc hhead.1, h⟩
  · refine (hS.told r' hr').imp_right ?_
    rintro ⟨c, hc, h⟩
    exact ⟨c, hcur ▸ Nat.le_trans hc hhead.1, h⟩

/-- **What a current frame animates**: nothing at an attach, else the events from the cursor to its
head. -/
theorem Swept.current (hS : Swept e es S) (hpull : S.st.pulling = true) (hcur : S.Current .tick)
    {k : Nat} {r : Reply} (hf : S.fresh = some (k, r)) :
    r.msg.events = if S.st.attachedFresh = true then []
      else window S.st.eventsSince r.msg.eventHead (numbered e es) := by
  have hmem : r ∈ S.mail := by
    unfold mail
    rw [fresh_frame hf]
    exact List.mem_cons_self
  unfold Current at hcur
  rw [hf] at hcur
  dsimp only at hcur
  rcases hcur hpull with hsel | ⟨hnil, hhead⟩
  · unfold Viewer.eventSel at hsel
    by_cases ha : S.st.attachedFresh = true
    · rw [if_pos ha] at hsel ⊢
      rcases hS.told r hmem with ⟨-, h⟩ | ⟨c, -, h, -⟩
      · exact h
      · exact absurd (Option.some.inj (hsel.symm.trans h)) (headSel_ne_fromSel c)
    · rw [if_neg ha] at hsel ⊢
      rcases hS.told r hmem with ⟨h, -⟩ | ⟨c, -, h, hev⟩
      · exact absurd (Option.some.inj (h.symm.trans hsel)) (headSel_ne_fromSel _)
      · rw [hev, fromSel_inj (Option.some.inj (h.symm.trans hsel))]
  · rw [hnil]
    by_cases ha : S.st.attachedFresh = true
    · rw [if_pos ha]
    · rw [if_neg ha, hhead.resolve_left ha, window_self]

theorem Swept.ask (hS : Swept e es S) : Swept e es { S with pulls := S.pulls ++ [S.st.pullSel] } := by
  refine ⟨hS.cap, hS.ring, hS.order, fun s hs => ?_, hS.told⟩
  rcases List.mem_append.mp hs with hs | hs
  · exact hS.asked s hs
  · rw [List.mem_singleton.mp hs]
    show some S.st.eventSel = _ ∨ ∃ c ≤ _, some S.st.eventSel = _
    unfold Viewer.eventSel
    split
    · exact .inl rfl
    · exact .inr ⟨S.st.eventsSince, Nat.le_refl _, rfl⟩

theorem Swept.tick (hS : Swept e es S) : Swept e es (S.step .tick) := by
  show Swept e es S.renderTick
  unfold renderTick
  split
  · exact hS
  · cases hf : S.fresh with
    | none => exact hS.ask
    | some p => exact (hS.applyFrame (fresh_frame hf)).1.ask

/-- **Every step keeps the replies in order.** -/
theorem step_swept (hS : Swept e es S) (hfit : S.sweepFits g) :
    Swept e (es ++ eventsOf [g]) (S.step g) := by
  cases g with
  | line it =>
    exact (List.append_nil es).symm ▸ ⟨hS.cap, hS.ring, hS.order, hS.asked, hS.told⟩
  | event ev => exact hS.event ev
  | answer f => exact (List.append_nil es).symm ▸ hS.answer f hfit
  | fail =>
    exact (List.append_nil es).symm ▸ ⟨hS.cap, hS.ring, hS.order,
      fun sel hsel => hS.asked sel (List.mem_of_mem_drop hsel), hS.told⟩
  | deliver => exact (List.append_nil es).symm ▸ hS.deliver
  | tick => exact (List.append_nil es).symm ▸ hS.tick
  | focus =>
    exact (List.append_nil es).symm ▸ ⟨hS.cap, hS.ring, hS.order, hS.asked, hS.told⟩
  | blur =>
    exact (List.append_nil es).symm ▸ ⟨hS.cap, hS.ring, hS.order, hS.asked, hS.told⟩

/-- Every frame processed is current, and no pull has too long a reply. -/
def steady (S : Watch) (g : Glance) : Prop := S.sweepFits g ∧ S.Current g

theorem renderTick_st (S : Watch) : S.renderTick.st = S.st ∨ (S.st.pulling = true ∧
    ∃ k r, S.fresh = some (k, r) ∧ S.renderTick.st = S.st.applyFrame k r.msg) := by
  unfold renderTick
  cases hp : S.st.pulling with
  | false => exact .inl rfl
  | true =>
    cases hf : S.fresh with
    | none => exact .inl rfl
    | some p => exact .inr ⟨rfl, p.1, p.2, rfl, rfl⟩

/-- Only a tick animates anything or moves the cursor, only it and `focus` touch the attach flag. -/
theorem step_still (S : Watch) (hg : g ≠ .tick) : (S.step g).st.eventsSince = S.st.eventsSince ∧
    (S.step g).st.applied = S.st.applied ∧
    (g ≠ .focus → (S.step g).st.attachedFresh = S.st.attachedFresh) := by
  cases g with
  | tick => exact absurd rfl hg
  | focus => exact ⟨rfl, rfl, fun h => absurd rfl h⟩
  | answer f =>
    have hst : (S.step (.answer f)).st = S.st := by
      unfold step
      dsimp only
      split <;> rfl
    rw [hst]
    exact ⟨rfl, rfl, fun _ => rfl⟩
  | deliver =>
    rw [S.deliver_spared.1]
    exact ⟨rfl, rfl, fun _ => rfl⟩
  | line it => exact ⟨rfl, rfl, fun _ => rfl⟩
  | event ev => exact ⟨rfl, rfl, fun _ => rfl⟩
  | fail => exact ⟨rfl, rfl, fun _ => rfl⟩
  | blur => exact ⟨rfl, rfl, fun _ => rfl⟩

/-- What a step animates: a tick that processes a frame the events up to its head, or none at an
attach; any other step nothing. -/
theorem step_applied (hS : Swept e es S) (hg : S.steady g) :
    S.st.eventsSince ≤ (S.step g).st.eventsSince ∧ (S.step g).st.eventsSince ≤ S.events.head ∧
      ∃ more, (S.step g).st.applied = S.st.applied ++ more ∧
        (more = [] ∨ more = window S.st.eventsSince (S.step g).st.eventsSince (numbered e es)) ∧
        (S.st.attachedFresh = false → g ≠ .focus → (S.step g).st.attachedFresh = false ∧
          more = window S.st.eventsSince (S.step g).st.eventsSince (numbered e es)) := by
  have hsame (hcur : (S.step g).st.eventsSince = S.st.eventsSince)
      (happ : (S.step g).st.applied = S.st.applied)
      (hatt : g ≠ .focus → (S.step g).st.attachedFresh = S.st.attachedFresh) :
      S.st.eventsSince ≤ (S.step g).st.eventsSince ∧ (S.step g).st.eventsSince ≤ S.events.head ∧
        ∃ more, (S.step g).st.applied = S.st.applied ++ more ∧
          (more = [] ∨ more = window S.st.eventsSince (S.step g).st.eventsSince (numbered e es)) ∧
          (S.st.attachedFresh = false → g ≠ .focus → (S.step g).st.attachedFresh = false ∧
            more = window S.st.eventsSince (S.step g).st.eventsSince (numbered e es)) := by
    have hle := (ascending_iff.mp hS.order).1
    refine ⟨Nat.le_of_eq hcur.symm, hcur ▸ hle, [], ?_, .inl rfl, fun ha hg => ⟨?_, ?_⟩⟩
    · rw [happ, List.append_nil]
    · rw [hatt hg]
      exact ha
    · rw [hcur, window_self]
  by_cases ht : g = .tick
  · subst ht
    rcases S.renderTick_st with hst | ⟨hp, k, r, hf, hst⟩
    · have hst : (S.step .tick).st = S.st := hst
      exact hsame (by rw [hst]) (by rw [hst]) fun _ => by rw [hst]
    · have hst : (S.step .tick).st = S.st.applyFrame k r.msg := hst
      obtain ⟨hcur, hatt, happ⟩ := applyFrame_events k r.msg S.st
      obtain ⟨hS', hle⟩ := hS.applyFrame (fresh_frame hf)
      have hhead := (ascending_iff.mp hS'.order).1
      rw [hcur] at hhead
      have hev := hS.current hp hg.2 hf
      rw [hst, hcur, happ, hatt]
      refine ⟨hle, hhead, _, rfl, ?_, fun ha _ => ⟨rfl, ?_⟩⟩
      · rw [hev]
        split
        · exact .inl rfl
        · exact .inr rfl
      · rw [hev, if_neg (by rw [ha]; exact Bool.false_ne_true)]
  · obtain ⟨hcur, happ, hatt⟩ := S.step_still ht
    exact hsame hcur happ hatt

/-- **While the page attaches, nothing is animated**: the frame that ends it is head-only. -/
theorem step_attaching (hS : Swept e es S) (hg : S.steady g) (ha : S.st.attachedFresh = true) :
    (S.step g).st.applied = S.st.applied ∧ ∀ k r, g = .tick → S.st.pulling = true →
      S.fresh = some (k, r) → (S.step g).st.eventsSince = r.msg.eventHead := by
  by_cases ht : g = .tick
  · subst ht
    show S.renderTick.st.applied = _ ∧ ∀ k r, _ → _ → _ → S.renderTick.st.eventsSince = _
    unfold renderTick
    cases hp : S.st.pulling with
    | false => exact ⟨rfl, fun _ _ _ h => absurd h Bool.false_ne_true⟩
    | true =>
      cases hf : S.fresh with
      | none => exact ⟨rfl, fun _ _ _ _ h => by cases h⟩
      | some p =>
        obtain ⟨k, r⟩ := p
        have hev := hS.current hp hg.2 hf
        rw [if_pos ha] at hev
        obtain ⟨hcur, -, happ⟩ := applyFrame_events k r.msg S.st
        refine ⟨?_, fun k' r' _ _ h => ?_⟩
        · show (S.st.applyFrame k r.msg).applied = _
          rw [happ, hev, List.append_nil]
        · obtain ⟨rfl, rfl⟩ := Prod.mk.inj (Option.some.inj h)
          exact hcur
  · exact ⟨(S.step_still ht).2.1, fun _ _ h => absurd h ht⟩

/-! ## runs -/

theorem eventsOf_cons (g : Glance) (gs : List Glance) :
    eventsOf (g :: gs) = eventsOf [g] ++ eventsOf gs := by
  unfold eventsOf
  rw [← List.filterMap_append, List.singleton_append]

theorem run_swept {gs : List Glance} (hS : Swept e es S) (hg : Machine.Along step steady S gs) :
    Swept e (es ++ eventsOf gs) (Machine.run step S gs) := by
  induction gs generalizing S es with
  | nil => exact (List.append_nil es).symm ▸ hS
  | cons g gs ih =>
    rw [eventsOf_cons, ← List.append_assoc]
    exact ih (step_swept hS hg.1.1) hg.2

/-- More events have been pushed, all past the head. -/
theorem Swept.window_more (hS : Swept e es S) (more : List VizEvent) {a b : Nat}
    (hb : b ≤ S.events.head) :
    window a b (numbered e (es ++ more)) = window a b (numbered e es) := by
  have hhead : S.events.head = e + es.length := hS.ring.nextId
  induction more using List.reverseRecOn with
  | nil => rw [List.append_nil]
  | append_singleton more x ih =>
    rw [← List.append_assoc, numbered_concat, window_concat, ih]
    rw [List.length_append]
    omega

theorem run_applied {gs : List Glance} (hS : Swept e es S) (hg : Machine.Along step steady S gs) :
    S.st.eventsSince ≤ (Machine.run step S gs).st.eventsSince ∧
      ∃ more, (Machine.run step S gs).st.applied = S.st.applied ++ more ∧
        more.Sublist (window S.st.eventsSince (Machine.run step S gs).st.eventsSince
          (numbered e (es ++ eventsOf gs))) ∧
        (S.st.attachedFresh = false → Glance.focus ∉ gs → (Machine.run step S gs).st.attachedFresh = false ∧
          more = window S.st.eventsSince (Machine.run step S gs).st.eventsSince
            (numbered e (es ++ eventsOf gs))) := by
  induction gs generalizing S es with
  | nil =>
    refine ⟨Nat.le_refl _, [], (List.append_nil _).symm, List.nil_sublist _, fun ha _ => ⟨ha, ?_⟩⟩
    exact (window_self ..).symm
  | cons g gs ih =>
    obtain ⟨hle, hhead, first, happ, hfirst, hatt⟩ := step_applied hS hg.1
    have hS' := step_swept hS hg.1.1
    obtain ⟨hle', more, happ', hsub, hatt'⟩ := ih hS' hg.2
    rw [eventsOf_cons, ← List.append_assoc]
    -- the window of the first step, and that of the rest, over all events
    have hfull : window S.st.eventsSince (S.step g).st.eventsSince
        (numbered e (es ++ eventsOf [g] ++ eventsOf gs)) =
        window S.st.eventsSince (S.step g).st.eventsSince (numbered e es) := by
      rw [List.append_assoc]
      exact hS.window_more _ hhead
    have hjoin := window_append (numbered_rising e (es ++ eventsOf [g] ++ eventsOf gs)) hle hle'
    refine ⟨Nat.le_trans hle hle', first ++ more, ?_, ?_, fun ha hg => ?_⟩
    · rw [Machine.run_cons, happ', happ, List.append_assoc]
    · rw [Machine.run_cons, ← hjoin, hfull]
      refine List.Sublist.append ?_ hsub
      rcases hfirst with h | h
      · rw [h]
        exact List.nil_sublist _
      · rw [h]
    · rw [List.mem_cons, not_or] at hg
      obtain ⟨h1, h2⟩ := hg
      obtain ⟨ha', hw⟩ := hatt ha fun h => h1 h.symm
      obtain ⟨ha'', hw'⟩ := hatt' ha' h2
      rw [Machine.run_cons]
      refine ⟨ha'', ?_⟩
      rw [← hjoin, hfull, hw, hw']

/-- **When each event is animated once.** In every run of an epoch (event ids from `e` on) whose frames
are current, over its part `gs` and what follows it, `js`:

* no event has been animated twice;
* what `js` animates lies at or past the cursor of the page after `gs`;
* while the page stays attached, `js` animates exactly the events between the cursors, in order;
* while it attaches nothing is animated, nor by the frame that ends the attach, and from then on only
  events at or past the head of that frame are. -/
theorem sweeps_once {h : Nat} {gs js : List Glance} (hS : Opened h e S)
    (hg : Machine.Along step steady S (gs ++ js)) :
    ((Machine.run step S (gs ++ js)).st.applied.map Prod.fst).Nodup ∧
      ∃ more, (Machine.run step S (gs ++ js)).st.applied = (Machine.run step S gs).st.applied ++ more ∧
        (∀ x ∈ more, (Machine.run step S gs).st.eventsSince ≤ x.1) ∧
        ((Machine.run step S gs).st.attachedFresh = false → Glance.focus ∉ js →
          more = window (Machine.run step S gs).st.eventsSince
            (Machine.run step S (gs ++ js)).st.eventsSince (numbered e (eventsOf (gs ++ js)))) ∧
        ∀ g ks, js = g :: ks → (Machine.run step S gs).st.attachedFresh = true →
          (Machine.run step S (gs ++ [g])).st.applied = (Machine.run step S gs).st.applied ∧
          ∀ k r, g = .tick → (Machine.run step S gs).st.pulling = true →
            (Machine.run step S gs).fresh = some (k, r) → ∀ x ∈ more, r.msg.eventHead ≤ x.1 := by
  obtain ⟨hg1, hg2⟩ := Machine.along_append.mp hg
  have hrun := run_swept hS.swept hg1
  obtain ⟨-, more, happ, hsub, hatt⟩ := run_applied hrun hg2
  obtain ⟨-, all, hall, hrising, -⟩ := run_applied hS.swept hg
  have hevents : [] ++ eventsOf gs ++ eventsOf js = eventsOf (gs ++ js) := by
    unfold eventsOf
    rw [List.filterMap_append, List.nil_append]
  rw [hevents, ← Machine.run_append] at hatt hsub
  rw [hS.applied, List.nil_append] at hall
  refine ⟨?_, more, by rw [Machine.run_append]; exact happ, fun x hx => ?_,
    fun ha hf => (hatt ha hf).2, fun g ks hjs ha => ?_⟩
  · rw [hall]
    have hnum : Rising all := ((numbered_rising e _).filter _).sublist hrising
    exact List.pairwise_map.mpr (hnum.imp fun hlt heq => absurd heq (Nat.ne_of_lt hlt))
  · have hmem := List.of_mem_filter (hsub.subset hx)
    simp only [decide_eq_true_eq] at hmem
    exact hmem.1
  · rw [hjs] at hg2 happ
    obtain ⟨hnone, hhead⟩ := step_attaching hrun hg2.1 ha
    refine ⟨by rw [Machine.run_append]; exact hnone, fun k r hgt hpull hf x hx => ?_⟩
    -- all that is animated comes after the step, and lies past the cursor that it leaves
    obtain ⟨-, later, hlater, hlsub, -⟩ := run_applied (step_swept hrun hg2.1.1) hg2.2
    rw [Machine.run_cons, hlater, hnone] at happ
    rw [← List.append_cancel_left happ] at hx
    have hmem := List.of_mem_filter (hlsub.subset hx)
    simp only [decide_eq_true_eq] at hmem
    rw [← hhead k r hgt hpull hf]
    exact hmem.1

/-- An event is pushed while two pulls with one cursor are on their way. -/
def overlapping : List Glance :=
  [.tick, .answer bareFrame, .deliver, .tick, .event (.erase 0 110), .tick,
    .answer bareFrame, .answer bareFrame, .deliver, .tick, .deliver, .tick]

theorem sweep_replayed : ∃ S gs, Opened 0 0 S ∧ Machine.Along step sweepFits S gs ∧
    ¬((Machine.run step S gs).st.applied.map Prod.fst).Nodup := by
  refine ⟨loaded, overlapping, loaded_opened, ?_, by decide +kernel⟩
  refine ⟨trivial, .inl rfl, trivial, trivial, trivial, trivial, .inr ?_, .inr ?_, trivial, trivial,
    trivial, trivial, trivial⟩
  · decide +kernel
  · decide +kernel

/-- The page attaches, animates an event, and looks at another session when the next one is pushed;
its last pull was answered before.  Then it comes back. -/
def lookAway : List Glance :=
  [.tick, .answer bareFrame, .deliver, .tick, .event (.erase 0 110), .answer bareFrame, .deliver, .tick,
    .answer bareFrame, .deliver, .blur, .event (.erase 1 110), .focus, .tick, .answer bareFrame, .deliver]

/-- The frame that ends the attach, and one more event. -/
def lookBack : List Glance :=
  [.tick, .event (.erase 2 110), .answer bareFrame, .deliver, .tick]

theorem lookBack_steady : Machine.Along step steady loaded (lookAway ++ lookBack) := by
  refine ⟨⟨trivial, trivial⟩, ⟨.inl rfl, trivial⟩, ⟨trivial, trivial⟩, ⟨trivial, fun _ => .inl rfl⟩,
    ⟨trivial, trivial⟩, ⟨.inr ?_, trivial⟩, ⟨trivial, trivial⟩, ⟨trivial, fun _ => .inl rfl⟩,
    ⟨.inr ?_, trivial⟩, ⟨trivial, trivial⟩, ⟨trivial, trivial⟩, ⟨trivial, trivial⟩, ⟨trivial, trivial⟩,
    ⟨trivial, trivial⟩, ⟨.inl rfl, trivial⟩, ⟨trivial, trivial⟩, ⟨trivial, fun _ => .inl rfl⟩,
    ⟨trivial, trivial⟩, ⟨.inr ?_, trivial⟩, ⟨trivial, trivial⟩, ⟨trivial, fun _ => .inl rfl⟩, trivial⟩ <;>
  decide +kernel

/-- The page comes back over a ring that still holds events 0 and 1: it has animated 0 and, from the
head of the attach frame on, 2. -/
theorem sweeps_once_reattach :
    (Machine.run step loaded lookAway).events.items.map Prod.fst = [0, 1] ∧
      (Machine.run step loaded (lookAway ++ lookBack)).st.applied =
        [(0, .erase 0 110), (2, .erase 2 110)] ∧
      (Machine.run step loaded (lookAway ++ [.tick])).st.applied =
        (Machine.run step loaded lookAway).st.applied ∧
      ((Machine.run step loaded (lookAway ++ lookBack)).st.applied.map Prod.fst).Nodup := by
  obtain ⟨hnodup, more, -, -, -, hatt⟩ := sweeps_once loaded_opened lookBack_steady
  exact ⟨by decide +kernel, by decide +kernel, (hatt .tick _ rfl (by decide +kernel)).1, hnodup⟩

end Watch
end FlashVis

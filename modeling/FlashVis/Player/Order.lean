import FlashVis.Player.Meter

/-!
# Entries in order

Outside prep brackets, when operations are only issued by the command in flight, the markers on
the queue close the entries in order and the last one closes the entry before the cursor.

* `marks q`          the entries that the queue closes;
* `Ordered p`        the invariant;
* `Move.prompt`      operations come from the command in flight;
* `Ordered.apply`    every prompt move keeps the order;
* `Ordered.idle`     a player that has drained everything before its cursor has an empty queue.
-/

namespace FlashVis

/-- The entries whose terminal markers are on the queue. -/
def marks (q : List PbStep) : List Nat := (q.filter (·.last)).map (·.entryIndex)

theorem marks_append (q q' : List PbStep) : marks (q ++ q') = marks q ++ marks q' := by
  simp [marks]

theorem mem_marks {q : List PbStep} {x : Nat} :
    x ∈ marks q ↔ ∃ st ∈ q, st.last = true ∧ st.entryIndex = x := by
  simp [marks, and_assoc]

theorem marks_cut (x : ℚ) (st : PbStep) (q : List PbStep) : marks (st.cut x :: q) = marks (st :: q) := by
  unfold marks PbStep.cut
  cases h : st.last <;> simp [h]

theorem marks_steps {idx : Nat} {steps : List PbStep} (h : Player.stepsFor idx steps) :
    marks steps = [] := by
  unfold marks
  rw [List.filter_eq_nil_iff.mpr, List.map_nil]
  intro st hst
  simp [(h st hst).2.1]

theorem marks_marker (idx ops : Nat) : marks [Worker.marker idx ops] = [idx] := rfl

theorem drainedTo_mem (e : Int) (q : List PbStep) :
    (drainedTo e q = e ∧ marks q = []) ∨ ∃ x ∈ marks q, drainedTo e q = x := by
  induction q using List.reverseRecOn with
  | nil => exact .inl ⟨rfl, rfl⟩
  | append_singleton q st ih =>
    have hd : drainedTo e (q ++ [st]) = if st.last then (st.entryIndex : Int) else drainedTo e q := by
      simp [drainedTo, List.foldl_append]
    rw [hd, marks_append]
    cases hl : st.last with
    | true =>
      exact .inr ⟨st.entryIndex, List.mem_append_right _ (mem_marks.mpr ⟨st, by simp, hl, rfl⟩), rfl⟩
    | false =>
      have hm : marks [st] = [] := by simp [marks, hl]
      rw [hm, List.append_nil]
      exact ih

theorem drainedTo_concat (e : Int) (q : List PbStep) {st : PbStep} (h : st.last = true) :
    drainedTo e (q ++ [st]) = st.entryIndex := by
  simp [drainedTo, List.foldl_append, h]

/-- Operations come from the command in flight. -/
def Move.prompt (p : Player) : Move → Prop
  | .op idx _ _ _ => p.realCmd = some idx
  | .wipe => p.realCmd ≠ none
  | .prep _ => False
  | _ => True

namespace Player

/-- Entry `k` was started: it was executed, or it is the command in flight. -/
def Started (p : Player) (k : Nat) : Prop := k < p.cursor ∨ p.realCmd = some k

/-- The queue closes the entries before the cursor in order. -/
structure Ordered (p : Player) : Prop where
  cmd : ∀ k, p.realCmd = some k → k = p.cursor
  cmdEntry : ∀ k, p.realCmd = some k → ∃ e, p.entries[k]? = some e ∧ e.kind = .command
  behind : p.entriesDrained + 1 ≤ p.cursor
  sorted : (marks p.queue).Pairwise (· < ·)
  range : ∀ x ∈ marks p.queue, p.entriesDrained < x ∧ x < p.cursor
  closed : p.realCmd = none → (p.queue = [] ∧ p.entriesDrained + 1 = p.cursor) ∨
    ∃ q st, p.queue = q ++ [st] ∧ st.last = true ∧ st.entryIndex + 1 = p.cursor

namespace Ordered
variable {p : Player}

theorem fresh (p : Player) (e : Int) (keep : Bool) (ps : Option Nat) : (p.fresh e keep ps).Ordered where
  cmd := fun _ h => absurd h (by simp [Player.fresh])
  cmdEntry := fun _ h => absurd h (by simp [Player.fresh])
  behind := le_refl _
  sorted := List.Pairwise.nil
  range := fun _ h => absurd h (by simp [Player.fresh, marks])
  closed := fun _ => .inl ⟨rfl, rfl⟩

/-- A player that has drained everything before its cursor, and has no command in flight, has an
empty queue. -/
theorem idle (h : p.Ordered) (hc : p.realCmd = none) (hd : (p.cursor : Int) ≤ p.entriesDrained + 1) :
    p.queue = [] := by
  rcases h.closed hc with ⟨hq, -⟩ | ⟨q, st, hq, hl, hi⟩
  · exact hq
  · have := h.range st.entryIndex (mem_marks.mpr ⟨st, by rw [hq]; simp, hl, rfl⟩)
    omega

/-- A real event or gc entry is due only when no command is in flight. -/
theorem no_cmd_of_due (h : p.Ordered) {e : Entry} (hdue : p.due e)
    (hk : e.kind ≠ .command ∨ p.realCmd ≠ some p.cursor) : p.realCmd = none := by
  cases hr : p.realCmd with
  | none => rfl
  | some k =>
    have hk' := h.cmd k hr
    rcases hk with hk | hk
    · obtain ⟨e', he', hkind⟩ := h.cmdEntry k hr
      rw [hk', hdue.2, Option.some.injEq] at he'
      exact absurd hkind (he' ▸ hk)
    · exact absurd (hk' ▸ hr) hk

theorem close (h : p.Ordered) {steps : List PbStep} (hs : stepsFor p.cursor steps) (ops : Nat)
    {q : Player} (hq : q.queue = p.queue ++ steps ++ [Worker.marker p.cursor ops])
    (hd : q.entriesDrained = p.entriesDrained) (hcur : q.cursor = p.cursor + 1)
    (hcmd : q.realCmd = none) : q.Ordered := by
  have hm : marks q.queue = marks p.queue ++ [p.cursor] := by
    rw [hq, marks_append, marks_append, marks_steps hs, marks_marker, List.append_nil]
  have hb := h.behind
  refine ⟨fun _ hr => absurd hr (by simp [hcmd]), fun _ hr => absurd hr (by simp [hcmd]),
    by rw [hd, hcur]; push_cast; omega, ?_, ?_, fun _ => .inr ⟨_, _, hq, rfl, by rw [hcur]; rfl⟩⟩
  · rw [hm, List.pairwise_append]
    refine ⟨h.sorted, List.pairwise_singleton _ _, fun x hx y hy => ?_⟩
    rw [List.mem_singleton.mp hy]
    exact (h.range x hx).2
  · intro x hx
    rw [hm] at hx
    rw [hd, hcur]
    rcases List.mem_append.mp hx with hx | hx
    · have := h.range x hx
      omega
    · rw [List.mem_singleton.mp hx]
      omega

theorem meter (h : p.Ordered) (hq : Playable p.queue) :
    p.meter.Ordered ∧ p.entriesDrained ≤ p.meter.entriesDrained := by
  obtain ⟨⟨done, rest, x, hsplit, -, -, hdr, hqu, -⟩⟩ := meter_spec p hq
  obtain ⟨pb, fl, ed, fo, q', heq⟩ := meter_eq p
  have hmarks : marks p.queue = marks done ++ marks rest := by rw [hsplit, marks_append]
  have hm' : marks p.meter.queue = marks rest := by
    rcases hqu with ⟨-, hq'⟩ | ⟨st, r, hr, -, hq'⟩
    · rw [hq']
    · rw [hq', hr, marks_cut]
  have hcur : p.meter.cursor = p.cursor := by rw [heq]
  have hcmd : p.meter.realCmd = p.realCmd := by rw [heq]
  have hent : p.meter.entries = p.entries := by rw [heq]
  have hsorted := h.sorted
  have hrange := h.range
  rw [hmarks] at hsorted hrange
  obtain ⟨-, hsr, hcross⟩ := List.pairwise_append.mp hsorted
  -- what has drained is in front of what has not
  have hfront : p.entriesDrained ≤ p.meter.entriesDrained ∧ p.meter.entriesDrained + 1 ≤ p.cursor ∧
      ∀ y ∈ marks rest, p.meter.entriesDrained < y := by
    rw [hdr]
    rcases drainedTo_mem p.entriesDrained done with ⟨he, -⟩ | ⟨z, hz, he⟩
    · rw [he]
      exact ⟨le_refl _, h.behind, fun y hy => (hrange y (List.mem_append_right _ hy)).1⟩
    · rw [he]
      have hzr := hrange z (List.mem_append_left _ hz)
      refine ⟨le_of_lt hzr.1, by omega, fun y hy => ?_⟩
      exact_mod_cast hcross z hz y hy
  refine ⟨⟨?_, ?_, ?_, ?_, ?_, ?_⟩, hfront.1⟩
  · rw [hcmd, hcur]
    exact h.cmd
  · rw [hcmd, hent]
    exact h.cmdEntry
  · rw [hcur]
    exact hfront.2.1
  · rw [hm']
    exact hsr
  · rw [hm', hcur]
    exact fun y hy => ⟨hfront.2.2 y hy, (hrange y (List.mem_append_right _ hy)).2⟩
  · rw [hcmd, hcur]
    intro hc
    -- the last step of the queue is the last of the rest, played in part at most
    rcases h.closed hc with ⟨hnil, hd⟩ | ⟨q, st, hqs, hl, hi⟩
    · rw [hnil] at hsplit
      obtain ⟨hdone, hrest⟩ := List.append_eq_nil_iff.mp hsplit.symm
      refine .inl ⟨?_, by rw [hdr, hdone]; exact hd⟩
      rcases hqu with ⟨-, hq'⟩ | ⟨st, r, hr, -, -⟩
      · rw [hq', hrest]
      · exact absurd hrest (by simp [hr])
    · have hlast : rest = [] ∨ ∃ q', rest = q' ++ [st] := by
        rcases List.eq_nil_or_concat rest with hr | ⟨q', st', hr⟩
        · exact .inl hr
        · refine .inr ⟨q', ?_⟩
          rw [hqs, hr, List.concat_eq_append, ← List.append_assoc] at hsplit
          have := (List.append_inj' hsplit rfl).2
          rw [hr, List.concat_eq_append, this]
      rcases hlast with hr | ⟨q₂, hr⟩
      · refine .inl ⟨?_, ?_⟩
        · rcases hqu with ⟨-, hq'⟩ | ⟨st', r, hr', -, -⟩
          · rw [hq', hr]
          · exact absurd hr (by simp [hr'])
        · rw [hr, List.append_nil] at hsplit
          rw [hdr, ← hsplit, hqs, drainedTo_concat _ _ hl]
          exact_mod_cast hi
      · refine .inr ?_
        rcases hqu with ⟨-, hq'⟩ | ⟨st', r, hr', -, hq'⟩
        · exact ⟨q₂, st, by rw [hq', hr], hl, hi⟩
        · rw [hq']
          cases q₂ with
          | nil =>
            rw [hr, List.nil_append, List.cons.injEq] at hr'
            exact ⟨[], st'.cut x, by rw [← hr'.2]; rfl, by rw [← hr'.1]; exact hl,
              by rw [← hr'.1]; exact hi⟩
          | cons a q₂ =>
            rw [hr, List.cons_append, List.cons.injEq] at hr'
            exact ⟨st'.cut x :: q₂, st, by rw [← hr'.2]; rfl, hl, hi⟩

/-- Every prompt move outside prep brackets keeps the order; `entriesDrained` and the cursor do
not fall, and only the entry at the cursor is started, when it is authorized. -/
theorem apply (h : p.Ordered) {m : Move} (hp : p.prepActive = false) (hs : m.synthetic = false)
    (he : p.Enabled m) (hm : m.prompt p) (hq : Playable p.queue) :
    (p.apply m).Ordered ∧ p.entriesDrained ≤ (p.apply m).entriesDrained ∧
      p.cursor ≤ (p.apply m).cursor ∧
      ∀ k, (p.apply m).Started k → p.Started k ∨ k = p.cursor ∧ p.cursor < p.entryLimit := by
  have hf := apply_frame p m
  have hstart : ∀ k, (p.apply m).Started k ↔ (k < m.cursor p ∨ m.realCmd p = some k) := by
    intro k
    unfold Started
    rw [hf.cursor, hf.realCmd]
  -- a move that leaves the cursor, the command, the entries and the queue's marks alone
  have keep : (p.apply m).cursor = p.cursor → (p.apply m).realCmd = p.realCmd →
      (p.apply m).queue = p.queue → (p.apply m).entriesDrained = p.entriesDrained →
      (p.apply m).Ordered ∧ p.entriesDrained ≤ (p.apply m).entriesDrained ∧
        p.cursor ≤ (p.apply m).cursor ∧
        ∀ k, (p.apply m).Started k → p.Started k ∨ k = p.cursor ∧ p.cursor < p.entryLimit := by
    intro h1 h2 h3 h4
    refine ⟨⟨?_, ?_, ?_, ?_, ?_, ?_⟩, le_of_eq h4.symm, le_of_eq h1.symm, fun k hk => .inl ?_⟩
    · rw [h2, h1]; exact h.cmd
    · rw [h2, hf.entries]; exact h.cmdEntry
    · rw [h4, h1]; exact h.behind
    · rw [h3]; exact h.sorted
    · rw [h3, h4, h1]; exact h.range
    · rw [h2, h3, h4, h1]; exact h.closed
    · unfold Started at hk ⊢
      rwa [h1, h2] at hk
  cases m with
  | exec call batch steps ops =>
    obtain ⟨e, hdue, hreal, -, -, -, -, hst, -⟩ := he
    have hnone := h.no_cmd_of_due hdue (.inl hreal.1)
    have hres : (p.apply (.exec call batch steps ops)).queue
          = p.queue ++ steps ++ [Worker.marker p.cursor ops] ∧
        (p.apply (.exec call batch steps ops)).entriesDrained = p.entriesDrained := by
      cases call with
      | none => simp only [Player.apply, enqueue_metered hp, if_true, and_self]
      | some c =>
        have hp' : ({ p with hist := p.hist ++ [.ran (p.runner.getD 0) p.cursor c] } :
          Player).prepActive = false := hp
        simp only [Player.apply, enqueue_metered hp', if_true, and_self]
    refine ⟨h.close hst ops hres.1 hres.2 hf.cursor (hf.realCmd.trans hnone), le_of_eq hres.2.symm,
      by rw [hf.cursor]; exact Nat.le_succ _, fun k hk => ?_⟩
    rcases (hstart k).mp hk with hk | hk
    · rcases Nat.lt_succ_iff_lt_or_eq.mp hk with hk | hk
      · exact .inl (.inl hk)
      · exact .inr ⟨hk, hdue.1⟩
    · exact .inl (.inr hk)
  | start =>
    obtain ⟨e, hdue, hkind, -, hne, -⟩ := he
    refine ⟨⟨fun k hk => ?_, fun k hk => ?_, h.behind, h.sorted, h.range, fun hk => ?_⟩, le_refl _,
      le_refl _, fun k hk => ?_⟩
    · exact (Option.some.inj hk).symm
    · exact ⟨e, by rw [← Option.some.inj hk]; exact hdue.2, hkind⟩
    · exact absurd hk (by simp [Player.apply])
    · rcases (hstart k).mp hk with hk | hk
      · exact .inl (.inl hk)
      · exact .inr ⟨(Option.some.inj hk).symm, hdue.1⟩
  | syntaxError =>
    obtain ⟨e, hdue, hkind, -, hne, -⟩ := he
    have hp' : ({ p with
        realCmd := some p.cursor, hist := p.hist ++ [.started p.cursor] } : Player).prepActive
          = false := hp
    have hres : (p.apply .syntaxError).queue = p.queue ++ [] ++ [Worker.marker p.cursor 0] ∧
        (p.apply .syntaxError).entriesDrained = p.entriesDrained := by
      simp only [Player.apply, enqueue_metered hp', if_true, and_self]
    refine ⟨h.close (fun _ hst => absurd hst (by simp)) 0 hres.1 hres.2 hf.cursor hf.realCmd,
      le_of_eq hres.2.symm, by rw [hf.cursor]; exact Nat.le_succ _, fun k hk => ?_⟩
    rcases (hstart k).mp hk with hk | hk
    · rcases Nat.lt_succ_iff_lt_or_eq.mp hk with hk | hk
      · exact .inl (.inl hk)
      · exact .inr ⟨hk, hdue.1⟩
    · exact absurd hk (by simp [Move.realCmd])
  | close idx ops =>
    have hidx : idx = p.cursor := h.cmd idx he
    have hres : (p.apply (.close idx ops)).queue = p.queue ++ [] ++ [Worker.marker p.cursor ops] ∧
        (p.apply (.close idx ops)).entriesDrained = p.entriesDrained := by
      rw [← hidx]
      simp only [Player.apply, enqueue_metered hp, if_true, and_self]
    refine ⟨h.close (fun _ hst => absurd hst (by simp)) ops hres.1 hres.2
      (hf.cursor.trans (by rw [← hidx]; rfl)) hf.realCmd, le_of_eq hres.2.symm, ?_, fun k hk => .inl ?_⟩
    · rw [hf.cursor, ← hidx]
      exact Nat.le_succ _
    · rcases (hstart k).mp hk with hk | hk
      · rcases Nat.lt_succ_iff_lt_or_eq.mp hk with hk | hk
        · exact .inl (hidx ▸ hk)
        · exact .inr (hk ▸ he)
      · exact absurd hk (by simp [Move.realCmd])
  | op idx w batch steps =>
    have hcmd : p.realCmd = some idx := hm
    have hst := marks_steps he.2.1
    have hkeep : ∀ q : Player, q.Ordered → q.realCmd = some idx → q.prepActive = false →
        (q.enqueue idx batch steps false 0).Ordered := by
      intro q hq hqc hqp
      rw [enqueue_metered hqp]
      refine ⟨hq.cmd, hq.cmdEntry, hq.behind, ?_, ?_, fun hn => ?_⟩
      · show (marks (q.queue ++ steps ++ [])).Pairwise _
        rw [List.append_nil, marks_append, hst, List.append_nil]
        exact hq.sorted
      · show ∀ x ∈ marks (q.queue ++ steps ++ []), _
        rw [List.append_nil, marks_append, hst, List.append_nil]
        exact hq.range
      · exact absurd (show q.realCmd = none from hn) (by simp [hqc])
    have hord : (p.apply (.op idx w batch steps)).Ordered ∧
        (p.apply (.op idx w batch steps)).entriesDrained = p.entriesDrained := by
      cases w with
      | false =>
        refine ⟨hkeep p h hcmd hp, ?_⟩
        simp only [Player.apply, Bool.false_eq_true, if_false, enqueue_metered hp]
      | true =>
        have hp' : p.wipe.prepActive = false := hp
        refine ⟨hkeep p.wipe ⟨h.cmd, h.cmdEntry, h.behind, List.Pairwise.nil,
          fun x hx => absurd hx (by simp [wipe, marks]), fun hn => ?_⟩ hcmd hp, ?_⟩
        · exact absurd (show p.realCmd = none from hn) (by simp [hcmd])
        · simp only [Player.apply, if_true, enqueue_metered hp']
          rfl
    refine ⟨hord.1, le_of_eq hord.2.symm, le_of_eq hf.cursor.symm, fun k hk => .inl ?_⟩
    exact (hstart k).mp hk
  | wipe =>
    refine ⟨⟨h.cmd, h.cmdEntry, h.behind, List.Pairwise.nil,
      fun x hx => absurd hx (by simp [Player.apply, wipe, marks]), fun hn => absurd hn hm⟩, le_refl _,
      le_refl _, fun k hk => .inl hk⟩
  | meter =>
    have hmeter := h.meter hq
    exact ⟨hmeter.1, hmeter.2, le_of_eq hf.cursor.symm, fun k hk => .inl ((hstart k).mp hk)⟩
  | prep v => exact absurd hm (by simp [Move.prompt])
  | openPrep | closePrep _ | commit _ _ => exact absurd hs (by simp [Move.synthetic])
  | fail _ | ack | post _ | land _ | drop _ => exact keep rfl rfl rfl rfl

end Ordered
end Player
end FlashVis

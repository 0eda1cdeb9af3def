import FlashVis.Player.Order

/-!
# The cursor of a player

In every run, prep brackets and stray operations included: the cursor stays among the entries that
have arrived, the command in flight stands at it, and nothing at or past it has drained or is
about to.

* `Indexed l`        entries stand at their own index;
* `Standing p`       the invariant;
* `Standing.receive`, `Standing.apply`   messages and moves keep it.
-/

namespace FlashVis

/-- Entries stand at their own index. -/
def Indexed (l : List Entry) : Prop := ∀ i (e : Entry), l[i]? = some e → e.index = i

theorem Indexed.take {l es : List Entry} (h : Indexed l) : Indexed (Worker.takeEntries l es) := by
  induction es generalizing l with
  | nil => exact h
  | cons x es ih =>
    refine ih (l := if x.index = l.length then l ++ [x] else l) ?_
    split
    · rename_i hx
      intro i e he
      rcases Nat.lt_trichotomy i l.length with hi | hi | hi
      · rw [List.getElem?_append_left hi] at he
        exact h i e he
      · subst hi
        rw [List.getElem?_concat_length, Option.some.injEq] at he
        exact he ▸ hx
      · rw [List.getElem?_eq_none (by simp; omega)] at he
        exact absurd he (by simp)
    · exact h

theorem takeEntries_append (l es : List Entry) : ∃ l', Worker.takeEntries l es = l ++ l' := by
  induction es generalizing l with
  | nil => exact ⟨[], by simp [Worker.takeEntries]⟩
  | cons x es ih =>
    obtain ⟨l', h⟩ := ih (if x.index = l.length then l ++ [x] else l)
    have hstep : Worker.takeEntries l (x :: es) =
        Worker.takeEntries (if x.index = l.length then l ++ [x] else l) es := rfl
    rw [hstep, h]
    split
    · exact ⟨x :: l', by simp⟩
    · exact ⟨l', rfl⟩

theorem takeEntries_length {l es : List Entry} {k : Nat} (hl : l.length ≤ k)
    (hes : ∀ x ∈ es, x.index < k) : (Worker.takeEntries l es).length ≤ k := by
  induction es generalizing l with
  | nil => exact hl
  | cons x es ih =>
    have hx := hes x List.mem_cons_self
    refine ih (l := if x.index = l.length then l ++ [x] else l) ?_
      fun y hy => hes y (List.mem_cons_of_mem x hy)
    split
    · rw [List.length_append, List.length_singleton]
      omega
    · exact hl

namespace Player

structure Standing (p : Player) : Prop where
  indexed : Indexed p.entries
  arrived : p.cursor ≤ p.entries.length
  cmd : ∀ k, p.realCmd = some k → k = p.cursor ∧
    ∃ e, p.entries[k]? = some e ∧ e.kind = .command ∧ e.synthetic = false
  playable : Playable p.queue
  drained : p.entriesDrained < p.cursor
  marked : ∀ x ∈ marks p.queue, x < p.cursor

theorem synthetic_due {p : Player} {m : Move} (hs : m.synthetic = true) (he : p.Enabled m) :
    ∃ e, p.due e ∧ e.synthetic = true := by
  cases m with
  | openPrep | closePrep _ =>
    obtain ⟨e, hdue, hk, hs⟩ := he
    exact ⟨e, hdue, by simp [Entry.synthetic, hk, hs]⟩
  | commit cost ops =>
    obtain ⟨e, hdue, ⟨hk, hs⟩ | ⟨hk, hs⟩⟩ := he
    · exact ⟨e, hdue, by simp [Entry.synthetic, hk, hs]⟩
    · refine ⟨e, hdue, ?_⟩
      unfold Entry.synthetic
      cases h : e.kind <;> simp_all
  | _ => exact absurd hs (by simp [Move.synthetic])

theorem isReal.synthetic {e : Entry} (h : isReal e) : e.synthetic = false := by
  unfold Entry.synthetic
  cases hk : e.kind with
  | command => exact absurd hk h.1
  | event | gc => exact h.2

/-- What a queue and its drained entry look like below `c`. -/
structure Below (c : Nat) (p : Player) : Prop where
  playable : Playable p.queue
  drained : p.entriesDrained < c
  marked : ∀ x ∈ marks p.queue, x < c

namespace Below
variable {c : Nat} {p : Player}

theorem mono {c' : Nat} (h : Below c p) (hc : c ≤ c') : Below c' p :=
  ⟨h.playable, lt_of_lt_of_le h.drained (by exact_mod_cast hc),
    fun x hx => lt_of_lt_of_le (h.marked x hx) hc⟩

/-- The cursor of the bound, the queue and the drained entry are all that counts. -/
theorem of_queue {c' : Nat} {q : Player} (h : Below c p) (hc : c' = c) (hq : q.queue = p.queue)
    (hd : q.entriesDrained = p.entriesDrained) : Below c' q := by
  subst hc
  exact ⟨by rw [hq]; exact h.playable, by rw [hd]; exact h.drained, by rw [hq]; exact h.marked⟩

/-- A batch is enqueued, or played at once inside a prep bracket. -/
theorem enqueue (h : Below c p) {idx : Nat} {steps : List PbStep} (hs : stepsFor idx steps)
    (batch : List DevEvent) {l : Bool} (ops : Nat) (hl : l = true → idx < c) :
    Below c (p.enqueue idx batch steps l ops) := by
  have hmark : ∀ ms : List PbStep, ms = (if l then [Worker.marker idx ops] else []) →
      Playable ms ∧ ∀ x ∈ marks ms, x < c := by
    rintro ms rfl
    cases l with
    | false => exact ⟨fun _ hst => absurd hst (by simp), fun _ hx => absurd hx (by simp [marks])⟩
    | true =>
      refine ⟨fun st hst => ?_, fun x hx => ?_⟩
      · rw [List.mem_singleton.mp hst, marker_unplayed]
      · rw [List.mem_singleton.mp hx]
        exact hl rfl
  unfold Player.enqueue
  dsimp only
  split
  · refine ⟨h.playable, ?_, h.marked⟩
    dsimp only
    split
    · exact_mod_cast hl ‹_›
    · exact h.drained
  · obtain ⟨hp, hm⟩ := hmark _ rfl
    refine ⟨(h.playable.append hs.playable).append hp, h.drained, fun x hx => ?_⟩
    rw [marks_append, marks_append, marks_steps hs, List.append_nil] at hx
    exact (List.mem_append.mp hx).elim (h.marked x) (hm x)

theorem meter (h : Below c p) : Below c p.meter := by
  obtain ⟨hm⟩ := meter_spec p h.playable
  have hmarks : marks p.queue = marks hm.done ++ marks hm.rest := by rw [hm.split, marks_append]
  have hrest : marks p.meter.queue = marks hm.rest := by
    rcases hm.queue with ⟨-, hq⟩ | ⟨st, r, hr, -, hq⟩
    · rw [hq]
    · rw [hq, hr, marks_cut]
  refine ⟨hm.playable h.playable, ?_, fun x hx => ?_⟩
  · rw [hm.drained]
    rcases drainedTo_mem p.entriesDrained hm.done with ⟨he, -⟩ | ⟨x, hx, he⟩ <;> rw [he]
    · exact h.drained
    · exact_mod_cast h.marked x (hmarks ▸ List.mem_append_left _ hx)
  · rw [hrest] at hx
    exact h.marked x (hmarks ▸ List.mem_append_right _ hx)

end Below

namespace Standing
variable {p : Player}

theorem fresh (p : Player) (e : Int) (keep : Bool) (ps : Option Nat) :
    (p.fresh e keep ps).Standing where
  indexed := fun _ _ h => absurd h (by simp [Player.fresh])
  arrived := Nat.zero_le _
  cmd := fun _ h => absurd h (by simp [Player.fresh])
  playable := fun _ h => absurd h (by simp [Player.fresh])
  drained := Int.negSucc_lt_zero 0
  marked := fun _ h => absurd h (by simp [Player.fresh, marks])

theorem feed (h : p.Standing) (es : List Entry) : (p.feed es).Standing := by
  obtain ⟨l', hl⟩ := takeEntries_append p.entries es
  have he : (p.feed es).entries = p.entries ++ l' := hl
  refine ⟨h.indexed.take, ?_, fun k hk => ?_, h.playable, h.drained, h.marked⟩
  · rw [he, List.length_append]
    exact le_trans h.arrived (Nat.le_add_right _ _)
  · obtain ⟨h1, e, h2, h3⟩ := h.cmd k hk
    refine ⟨h1, e, ?_, h3⟩
    rw [he, List.getElem?_append_left (List.getElem?_eq_some_iff.mp h2).1]
    exact h2

theorem receive (h : p.Standing) (ps : Option Nat) (m : C2W) : (p.receive ps m).Standing := by
  cases m with
  | init e f g => exact fresh p e false ps
  | reset e => exact fresh p e true ps
  | pull e sel => exact h
  | entries e es =>
    unfold Player.receive
    dsimp only
    split
    · exact h.feed es
    · exact h
  | grant e g =>
    unfold Player.receive
    dsimp only
    split
    · exact ⟨h.indexed, h.arrived, h.cmd, h.playable, h.drained, h.marked⟩
    · exact h

theorem below (h : p.Standing) : Below p.cursor p := ⟨h.playable, h.drained, h.marked⟩

theorem idle (h : p.Standing) {e : Entry} (hdue : p.due e)
    (hne : e.kind ≠ .command ∨ e.synthetic = true ∨ p.realCmd ≠ some p.cursor) :
    p.realCmd = none := by
  cases hr : p.realCmd with
  | none => rfl
  | some k =>
    obtain ⟨rfl, e', he', hk, hs⟩ := h.cmd k hr
    rw [hdue.2, Option.some.injEq] at he'
    subst he'
    rcases hne with hne | hne | hne
    · exact absurd hk hne
    · rw [hs] at hne
      exact absurd hne (by simp)
    · exact absurd hr hne

/-- The queue and the drained entry stay below the cursor. -/
theorem apply_below (h : p.Standing) {m : Move} (he : p.Enabled m) :
    Below (m.cursor p) (p.apply m) := by
  have hb := h.below
  have hup : Below (p.cursor + 1) p := hb.mono (Nat.le_succ _)
  have hnil : ∀ idx, stepsFor idx [] := fun _ _ hst => absurd hst (by simp)
  cases m with
  | exec call batch steps ops =>
    obtain ⟨e, -, -, -, -, -, -, hst, -⟩ := he
    have hexec : ∀ q : Player, q.queue = p.queue → q.entriesDrained = p.entriesDrained →
        Below (p.cursor + 1) (q.enqueue p.cursor batch steps true ops) :=
      fun q hq hd => (hup.of_queue rfl hq hd).enqueue hst batch ops fun _ => Nat.lt_succ_self _
    cases call with
    | none => exact (hexec p rfl rfl).of_queue rfl rfl rfl
    | some c =>
      exact (hexec { p with hist := p.hist ++ [.ran (p.runner.getD 0) p.cursor c] } rfl rfl).of_queue
        rfl rfl rfl
  | syntaxError =>
    have hsyn : Below (p.cursor + 1) { p with
        realCmd := some p.cursor, hist := p.hist ++ [.started p.cursor] } := hup.of_queue rfl rfl rfl
    exact (hsyn.enqueue (l := true) (hnil _) [] 0 fun _ => Nat.lt_succ_self _).of_queue rfl rfl rfl
  | op idx w batch steps =>
    have hst := he.2.1
    cases w with
    | false => exact hb.enqueue (l := false) hst batch 0 nofun
    | true =>
      have hw : Below p.cursor p.wipe := ⟨fun _ hst => absurd hst (by simp [Player.wipe]), h.drained,
        fun _ hx => absurd hx (by simp [Player.wipe, marks])⟩
      exact hw.enqueue (l := false) hst batch 0 nofun
  | wipe =>
    exact ⟨fun _ hst => absurd hst (by simp [Player.apply, Player.wipe]), h.drained,
      fun _ hx => absurd hx (by simp [Player.apply, Player.wipe, marks])⟩
  | close idx ops =>
    obtain ⟨rfl, -⟩ := h.cmd idx he
    exact (hup.enqueue (l := true) (hnil _) [] ops fun _ => Nat.lt_succ_self _).of_queue rfl rfl rfl
  | prep v => cases v <;> exact hb.of_queue rfl rfl rfl
  | meter => exact hb.meter
  | openPrep | closePrep _ | commit _ _ =>
    refine ⟨hup.playable, ?_, hup.marked⟩
    show ((p.cursor : Nat) : Int) < ((p.cursor + 1 : Nat) : Int)
    push_cast
    omega
  | fail _ | start | ack | post _ | land _ | drop _ => exact hb.of_queue rfl rfl rfl

/-- **Every move keeps the cursor standing.** -/
theorem apply (h : p.Standing) {m : Move} (he : p.Enabled m) : (p.apply m).Standing := by
  have hf := apply_frame p m
  have hb := h.apply_below he
  rw [← hf.cursor] at hb
  -- the cursor passes the entry it stands on
  have pass : ∀ e, p.entries[p.cursor]? = some e → m.cursor p = p.cursor + 1 → m.realCmd p = none →
      (p.apply m).Standing := by
    intro e hent h1 h2
    refine ⟨by rw [hf.entries]; exact h.indexed, ?_, ?_, hb.playable, hb.drained, hb.marked⟩
    · rw [hf.entries, hf.cursor, h1]
      exact (List.getElem?_eq_some_iff.mp hent).1
    · rw [hf.realCmd, h2]
      exact fun k hk => absurd hk (by simp)
  have stay : m.cursor p = p.cursor → m.realCmd p = p.realCmd → (p.apply m).Standing := by
    intro h1 h2
    refine ⟨by rw [hf.entries]; exact h.indexed, by rw [hf.entries, hf.cursor, h1]; exact h.arrived,
      ?_, hb.playable, hb.drained, hb.marked⟩
    rw [hf.realCmd, hf.cursor, hf.entries, h1, h2]
    exact h.cmd
  cases m with
  | exec call batch steps ops =>
    obtain ⟨e, hdue, hreal, -⟩ := he
    exact pass e hdue.2 rfl (h.idle hdue (.inl hreal.1))
  | syntaxError =>
    obtain ⟨e, hdue, -⟩ := he
    exact pass e hdue.2 rfl rfl
  | start =>
    obtain ⟨e, hdue, hkind, hs, -⟩ := he
    refine ⟨h.indexed, h.arrived, fun k hk => ?_, hb.playable, hb.drained, hb.marked⟩
    refine ⟨(Option.some.inj hk).symm, e, by rw [← Option.some.inj hk]; exact hdue.2, hkind, ?_⟩
    simp [Entry.synthetic, hkind, hs]
  | close idx ops =>
    obtain ⟨rfl, e, hent, -⟩ := h.cmd idx he
    exact pass e hent rfl rfl
  | openPrep | closePrep _ | commit _ _ =>
    obtain ⟨e, hdue, hsyn⟩ := synthetic_due rfl he
    exact pass e hdue.2 rfl (h.idle hdue (.inr (.inl hsyn)))
  | fail _ | op _ _ _ _ | wipe | prep _ | meter | ack | post _ | land _ | drop _ =>
    exact stay rfl rfl

end Standing
end Player
end FlashVis

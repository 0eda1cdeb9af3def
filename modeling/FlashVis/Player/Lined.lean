import FlashVis.Player.Runs
import FlashVis.Player.History
import FlashVis.System

/-!
# The line of the playback queue

The steps on the queue stand in the order of their entries, each entry closed by one marker behind
its steps, and `entriesDrained` is what has left the queue.  An entry that is closed at once (a
declared cost, or anything closed inside a prep bracket) while others are queued breaks the line,
and so does a chip reset that drops markers.

* `Line d c cmd q`    queue `q` holds what is drained past `d` and executed below `c`;
* `Move.orderly`      the moves that keep the line;
* `Drained w`         what `entriesDrained` tells about worker `w`;
* `entries_drained`   it is true after every run of orderly moves.
-/

namespace FlashVis

/-- Two steps in queue order: by entry, nothing of an entry behind its marker. -/
def PbStep.before (a b : PbStep) : Prop :=
  if a.last then a.entryIndex < b.entryIndex else a.entryIndex ≤ b.entryIndex

theorem PbStep.before.le {a b : PbStep} (h : a.before b) : a.entryIndex ≤ b.entryIndex := by
  unfold PbStep.before at h
  split at h
  · exact le_of_lt h
  · exact h

/-- On a queue in order, what drains last is at or past every marker of it. -/
theorem drainedTo_last {d : Int} {q : List PbStep} (hs : q.Pairwise PbStep.before) {y : PbStep}
    (hy : y ∈ q) (hl : y.last = true) : (y.entryIndex : Int) ≤ drainedTo d q := by
  induction q using List.reverseRecOn with
  | nil => exact absurd hy (by simp)
  | append_singleton q st ih =>
    have hd : drainedTo d (q ++ [st]) = if st.last then (st.entryIndex : Int) else drainedTo d q := by
      simp [drainedTo, List.foldl_append]
    obtain ⟨hsq, -, hcross⟩ := List.pairwise_append.mp hs
    rw [hd]
    rcases List.mem_append.mp hy with hy | hy
    · split
      · exact_mod_cast (hcross y hy st (List.mem_singleton_self st)).le
      · exact ih hsq hy
    · rw [List.mem_singleton.mp hy] at hl ⊢
      rw [if_pos hl]

/-- The queue between the last drained entry `d` and the cursor `c`, with command `cmd` in
flight. -/
structure Line (d : Int) (c : Nat) (cmd : Option Nat) (q : List PbStep) : Prop where
  low : -1 ≤ d
  behind : d < c
  sorted : q.Pairwise PbStep.before
  ahead : ∀ st ∈ q, d < st.entryIndex
  owned : ∀ st ∈ q, st.entryIndex < c ∨ st.last = false ∧ cmd = some st.entryIndex
  closed : ∀ k : Nat, d < k → k < c → k ∈ marks q

namespace Line
variable {d : Int} {c : Nat} {cmd : Option Nat} {q : List PbStep}

theorem nil {d : Int} (hlow : -1 ≤ d) (h : d + 1 = c) : Line d c cmd [] :=
  ⟨hlow, by omega, .nil, nofun, nofun, fun k hd hk => by omega⟩

/-- Without a marker on the queue everything below the cursor is drained. -/
theorem drained (h : Line d c cmd q) (hm : marks q = []) : d + 1 = c := by
  have hlow := h.low
  have hbehind := h.behind
  by_contra hne
  have hmem := h.closed (d + 1).toNat (by omega) (by omega)
  rw [hm] at hmem
  exact absurd hmem (by simp)

theorem start (h : Line d c none q) (k : Nat) : Line d c (some k) q := by
  refine ⟨h.low, h.behind, h.sorted, h.ahead, fun st hst => ?_, h.closed⟩
  rcases h.owned st hst with hlt | ⟨-, hn⟩
  · exact .inl hlt
  · exact absurd hn (by simp)

theorem append (h : Line d c cmd q) (hcmd : ∀ k, cmd = some k → k = c) {steps : List PbStep}
    (hs : Player.stepsFor c steps) : (q ++ steps).Pairwise PbStep.before ∧
      (∀ st ∈ q ++ steps, d < st.entryIndex) ∧ ∀ st ∈ q ++ steps, st.entryIndex ≤ c := by
  have hle : ∀ st ∈ q, st.entryIndex ≤ c := by
    intro st hst
    rcases h.owned st hst with hlt | ⟨-, hk⟩
    · exact le_of_lt hlt
    · exact le_of_eq (hcmd _ hk)
  refine ⟨List.pairwise_append.mpr ⟨h.sorted, ?_, ?_⟩, ?_, ?_⟩
  · rw [List.pairwise_iff_forall_sublist]
    intro a b hab
    have ha := hs a (hab.subset (by simp))
    have hb := hs b (hab.subset (by simp))
    unfold PbStep.before
    rw [ha.2.1, ha.1, hb.1]
    simp
  · intro a ha b hb
    unfold PbStep.before
    rw [(hs b hb).1]
    split
    · rename_i hlast
      rcases h.owned a ha with hlt | ⟨hl, -⟩
      · exact hlt
      · rw [hl] at hlast
        exact absurd hlast (by simp)
    · exact hle a ha
  · intro st hst
    rcases List.mem_append.mp hst with hst | hst
    · exact h.ahead st hst
    · rw [(hs st hst).1]
      exact h.behind
  · intro st hst
    rcases List.mem_append.mp hst with hst | hst
    · exact hle st hst
    · exact le_of_eq (hs st hst).1

theorem op (h : Line d c (some c) q) {steps : List PbStep} (hs : Player.stepsFor c steps) :
    Line d c (some c) (q ++ steps) := by
  obtain ⟨hsort, hahead, -⟩ := h.append (fun k hk => (Option.some.inj hk).symm) hs
  refine ⟨h.low, h.behind, hsort, hahead, fun st hst => ?_, fun k hd hk => ?_⟩
  · rcases List.mem_append.mp hst with hst | hst
    · exact h.owned st hst
    · exact .inr ⟨(hs st hst).2.1, by rw [(hs st hst).1]⟩
  · rw [marks_append]
    exact List.mem_append_left _ (h.closed k hd hk)

theorem close (h : Line d c cmd q) (hcmd : ∀ k, cmd = some k → k = c) {steps : List PbStep}
    (hs : Player.stepsFor c steps) (ops : Nat) :
    Line d (c + 1) none (q ++ steps ++ [Worker.marker c ops]) := by
  obtain ⟨hsort, hahead, hle⟩ := h.append hcmd hs
  have hbehind := h.behind
  refine ⟨h.low, by push_cast; omega, ?_, ?_, ?_, ?_⟩
  · refine List.pairwise_append.mpr ⟨hsort, List.pairwise_singleton _ _, fun a ha b hb => ?_⟩
    rw [List.mem_singleton.mp hb]
    unfold PbStep.before
    split
    · rename_i hlast
      show a.entryIndex < c
      rcases List.mem_append.mp ha with ha | ha
      · rcases h.owned a ha with hlt | ⟨hl, -⟩
        · exact hlt
        · rw [hl] at hlast
          exact absurd hlast (by simp)
      · rw [(hs a ha).2.1] at hlast
        exact absurd hlast (by simp)
    · exact hle a ha
  · intro st hst
    rcases List.mem_append.mp hst with hst | hst
    · exact hahead st hst
    · rw [List.mem_singleton.mp hst]
      exact hbehind
  · intro st hst
    left
    rcases List.mem_append.mp hst with hst | hst
    · exact Nat.lt_succ_of_le (hle st hst)
    · rw [List.mem_singleton.mp hst]
      exact Nat.lt_succ_self c
  · intro k hd hk
    rw [marks_append, marks_append, marks_marker]
    rcases Nat.lt_or_ge k c with hlt | hge
    · exact List.mem_append_left _ (List.mem_append_left _ (h.closed k hd hlt))
    · have : k = c := by omega
      exact List.mem_append_right _ (by simp [this])

theorem rest {done rest : List PbStep} (h : Line d c cmd (done ++ rest)) :
    Line (drainedTo d done) c cmd rest ∧ d ≤ drainedTo d done := by
  obtain ⟨-, hsr, hcross⟩ := List.pairwise_append.mp h.sorted
  rcases drainedTo_mem d done with ⟨hd, hnil⟩ | ⟨z, hz, hd⟩
  · rw [hd]
    refine ⟨⟨h.low, h.behind, hsr, fun st hst => h.ahead st (List.mem_append_right _ hst),
      fun st hst => h.owned st (List.mem_append_right _ hst), fun k hdk hk => ?_⟩, le_refl _⟩
    have := h.closed k hdk hk
    rw [marks_append, hnil, List.nil_append] at this
    exact this
  · obtain ⟨st, hst, hlast, rfl⟩ := mem_marks.mp hz
    have hin := List.mem_append_left rest hst
    have hdz := h.ahead st hin
    have hzc : st.entryIndex < c := by
      rcases h.owned st hin with hlt | ⟨hl, -⟩
      · exact hlt
      · rw [hl] at hlast
        exact absurd hlast (by simp)
    -- everything behind the marker belongs to a later entry
    have hbehind : ∀ x ∈ rest, st.entryIndex < x.entryIndex := by
      intro x hx
      have := hcross st hst x hx
      unfold PbStep.before at this
      rwa [if_pos hlast] at this
    have hlow := h.low
    rw [hd]
    refine ⟨⟨by omega, by exact_mod_cast hzc, hsr, fun x hx => by exact_mod_cast hbehind x hx,
      fun x hx => h.owned x (List.mem_append_right _ hx), fun k hdk hk => ?_⟩, by omega⟩
    have hk' := h.closed k (by omega) hk
    rw [marks_append] at hk'
    rcases List.mem_append.mp hk' with hk' | hk'
    · -- a marker of the front that is past the last one drained
      exfalso
      obtain ⟨y, hy, hyl, rfl⟩ := mem_marks.mp hk'
      have hlastone := drainedTo_last (d := d) (h.sorted.sublist (List.sublist_append_left _ _)) hy hyl
      rw [hd] at hlastone
      omega
    · exact hk'

theorem cut {st : PbStep} (h : Line d c cmd (st :: q)) (x : ℚ) : Line d c cmd (st.cut x :: q) := by
  have hsorted := List.pairwise_cons.mp h.sorted
  refine ⟨h.low, h.behind, List.pairwise_cons.mpr ⟨fun y hy => hsorted.1 y hy, hsorted.2⟩, ?_, ?_, ?_⟩
  · intro y hy
    rcases List.mem_cons.mp hy with rfl | hy
    · exact h.ahead st List.mem_cons_self
    · exact h.ahead y (List.mem_cons_of_mem _ hy)
  · intro y hy
    rcases List.mem_cons.mp hy with rfl | hy
    · exact h.owned st List.mem_cons_self
    · exact h.owned y (List.mem_cons_of_mem _ hy)
  · intro k hd hk
    rw [marks_cut]
    exact h.closed k hd hk

end Line

/-! ## the moves -/

/-- Moves that keep the line: nothing is closed at once over a queue, no chip reset drops a marker,
and what an operation queues belongs to the command in flight. -/
def Move.orderly (p : Player) : Move → Prop
  | .exec _ _ _ _ | .syntaxError | .close _ _ => p.prepActive = true → p.queue = []
  | .openPrep | .closePrep _ | .commit _ _ => p.queue = []
  | .op idx wiped _ steps => (wiped = true → marks p.queue = []) ∧
      (steps = [] ∨ p.prepActive = true ∨ p.realCmd = some idx)
  | .wipe => marks p.queue = []
  | _ => True

instance (p : Player) : ∀ m : Move, Decidable (m.orderly p)
  | .exec _ _ _ _ | .syntaxError | .close _ _ =>
    inferInstanceAs (Decidable (p.prepActive = true → p.queue = []))
  | .openPrep | .closePrep _ | .commit _ _ => inferInstanceAs (Decidable (p.queue = []))
  | .op idx wiped _ steps => inferInstanceAs (Decidable ((wiped = true → marks p.queue = []) ∧
      (steps = [] ∨ p.prepActive = true ∨ p.realCmd = some idx)))
  | .wipe => inferInstanceAs (Decidable (marks p.queue = []))
  | .fail _ | .start | .prep _ | .meter | .ack | .post _ | .land _ | .drop _ =>
    inferInstanceAs (Decidable True)

namespace Player
variable {p : Player}

/-- The queue of a player is in line. -/
def InLine (p : Player) : Prop := Line p.entriesDrained p.cursor p.realCmd p.queue

/-- An entry is enqueued with its marker, or closed at once over an empty queue. -/
theorem InLine.enqueue_last (h : p.InLine) (hcmd : ∀ k, p.realCmd = some k → k = p.cursor)
    (hq : p.prepActive = true → p.queue = []) {steps : List PbStep} (hs : stepsFor p.cursor steps)
    (batch : List DevEvent) (ops : Nat) :
    Line (p.enqueue p.cursor batch steps true ops).entriesDrained (p.cursor + 1) none
        (p.enqueue p.cursor batch steps true ops).queue ∧
      p.entriesDrained ≤ (p.enqueue p.cursor batch steps true ops).entriesDrained := by
  have hlow := h.low
  have hbehind := h.behind
  by_cases hp : p.prepActive = true
  · unfold enqueue
    dsimp only
    rw [if_pos hp, hq hp]
    refine ⟨?_, ?_⟩
    · show Line (p.cursor : Int) (p.cursor + 1) none []
      exact .nil (by omega) (by push_cast; omega)
    · show p.entriesDrained ≤ (p.cursor : Int)
      omega
  · rw [enqueue_metered (by simpa using hp)]
    exact ⟨h.close hcmd hs ops, le_refl _⟩

theorem InLine.enqueue_op (h : p.InLine) (hcmd : ∀ k, p.realCmd = some k → k = p.cursor) {idx : Nat}
    {steps : List PbStep} (hs : stepsFor idx steps)
    (hop : steps = [] ∨ p.prepActive = true ∨ p.realCmd = some idx) (batch : List DevEvent) :
    (p.enqueue idx batch steps false 0).InLine ∧
      (p.enqueue idx batch steps false 0).entriesDrained = p.entriesDrained := by
  by_cases hp : p.prepActive = true
  · unfold InLine enqueue
    dsimp only
    rw [if_pos hp]
    exact ⟨h, rfl⟩
  · rw [enqueue_metered (by simpa using hp)]
    refine ⟨?_, rfl⟩
    show Line p.entriesDrained p.cursor p.realCmd (p.queue ++ steps ++ [])
    rw [List.append_nil]
    rcases hop with rfl | hp' | hc
    · rw [List.append_nil]
      exact h
    · exact absurd hp' hp
    · obtain rfl := hcmd idx hc
      have h' : Line p.entriesDrained p.cursor (some p.cursor) p.queue := hc ▸ h
      rw [hc]
      exact h'.op hs

/-- Every orderly move keeps the line, and none takes back what has drained. -/
theorem InLine.apply (h : p.InLine) (hst : p.Standing) {m : Move} (he : p.Enabled m)
    (hm : m.orderly p) : (p.apply m).InLine ∧ p.entriesDrained ≤ (p.apply m).entriesDrained := by
  have hcmd : ∀ k, p.realCmd = some k → k = p.cursor := fun k hk => (hst.cmd k hk).1
  have hnil : ∀ idx, stepsFor idx [] := fun _ => nofun
  have hlow := h.low
  have hbehind := h.behind
  -- nothing is queued and the entry at the cursor is closed at once
  have pass : ∀ r, p.queue = [] → Line (p.cursor : Int) (p.cursor + 1) r p.queue ∧
      p.entriesDrained ≤ (p.cursor : Int) := by
    intro r hq
    rw [hq]
    exact ⟨.nil (by omega) (by push_cast; omega), by omega⟩
  -- a chip reset without a marker on the queue
  have wiped : marks p.queue = [] → p.wipe.InLine := fun hq => .nil h.low (h.drained hq)
  cases m with
  | exec call batch steps ops =>
    obtain ⟨e, hdue, hreal, -, -, -, -, hs, -⟩ := he
    have hidle := hst.idle hdue (.inl hreal.1)
    cases call with
    | none =>
      obtain ⟨hl, hle⟩ := h.enqueue_last hcmd hm hs batch ops
      refine ⟨?_, hle⟩
      have hr := (enqueue_frame p.cursor batch steps true ops p).realCmd
      show Line _ (p.cursor + 1) (p.enqueue p.cursor batch steps true ops).realCmd _
      rw [hr, hidle]
      exact hl
    | some c =>
      have h' : ({ p with hist := p.hist ++ [.ran (p.runner.getD 0) p.cursor c] } : Player).InLine := h
      obtain ⟨hl, hle⟩ := h'.enqueue_last hcmd hm hs batch ops
      refine ⟨?_, hle⟩
      have hr := (enqueue_frame p.cursor batch steps true ops
        { p with hist := p.hist ++ [.ran (p.runner.getD 0) p.cursor c] }).realCmd
      show Line _ (p.cursor + 1) (enqueue p.cursor batch steps true ops
        { p with hist := p.hist ++ [.ran (p.runner.getD 0) p.cursor c] }).realCmd _
      rw [hr, show ({ p with hist := p.hist ++ [.ran (p.runner.getD 0) p.cursor c] } : Player).realCmd
        = none from hidle]
      exact hl
  | start =>
    obtain ⟨e, hdue, -, -, hne, -⟩ := he
    have hidle := hst.idle hdue (.inr (.inr hne))
    have h' : Line p.entriesDrained p.cursor none p.queue := hidle ▸ h
    exact ⟨h'.start p.cursor, le_refl _⟩
  | syntaxError =>
    obtain ⟨e, hdue, -, -, hne, -⟩ := he
    have hidle := hst.idle hdue (.inr (.inr hne))
    have h' : Line p.entriesDrained p.cursor none p.queue := hidle ▸ h
    have h'' : ({ p with
        realCmd := some p.cursor, hist := p.hist ++ [.started p.cursor] } : Player).InLine :=
      h'.start p.cursor
    exact h''.enqueue_last (fun k hk => (Option.some.inj hk).symm) hm (hnil _) [] 0
  | op idx w batch steps =>
    obtain ⟨hw, hop⟩ := hm
    have hs := he.2.1
    cases w with
    | false =>
      obtain ⟨hl, hd⟩ := h.enqueue_op hcmd hs hop batch
      exact ⟨hl, le_of_eq hd.symm⟩
    | true =>
      have hl' : p.wipe.InLine := wiped (hw rfl)
      obtain ⟨hl, hd⟩ := hl'.enqueue_op hcmd hs hop batch
      exact ⟨hl, le_of_eq hd.symm⟩
  | wipe => exact ⟨wiped hm, le_refl _⟩
  | close idx ops =>
    obtain rfl := hcmd idx he
    exact h.enqueue_last hcmd hm (hnil _) [] ops
  | prep v => cases v <;> exact ⟨h, le_refl _⟩
  | openPrep | closePrep _ | commit _ _ => exact pass _ hm
  | meter =>
    obtain ⟨hme⟩ := meter_spec p hst.playable
    have hf := apply_frame p .meter
    have hl : Line p.entriesDrained p.cursor p.realCmd (hme.done ++ hme.rest) := hme.split ▸ h
    obtain ⟨hrest, hle⟩ := hl.rest
    unfold InLine
    rw [hf.cursor, hf.realCmd]
    show Line p.meter.entriesDrained p.cursor p.realCmd p.meter.queue ∧ _ ≤ p.meter.entriesDrained
    rw [hme.drained]
    refine ⟨?_, hle⟩
    rcases hme.queue with ⟨-, hq⟩ | ⟨st, r, hr, -, hq⟩
    · rw [hq]
      exact hrest
    · rw [hq]
      rw [hr] at hrest
      exact hrest.cut _
  | fail _ | ack | post _ | land _ | drop _ => exact ⟨h, le_refl _⟩

/-- The line with the acks of the current life: none reports more than has drained. -/
structure Lined (p : Player) : Prop extends Standing p where
  line : p.InLine
  acks : (acksOf (posted p.hist)).Pairwise fun a b => a.entriesDrained ≤ b.entriesDrained
  acked : ∀ a ∈ acksOf (posted p.hist), a.entriesDrained ≤ p.entriesDrained

namespace Lined

theorem receive (h : p.Lined) (ps : Option Nat) (m : C2W) : (p.receive ps m).Lined := by
  refine ⟨h.toStanding.receive ps m, ?_, ?_, ?_⟩
  all_goals
    unfold Player.receive
    cases m with
    | init _ _ _ | reset _ =>
      first
        | exact (Line.nil (le_refl _) rfl : Line (-1) 0 none [])
        | exact List.Pairwise.nil
        | exact fun a ha => absurd ha List.not_mem_nil
    | pull e sel => first | exact h.line | exact h.acks | exact h.acked
    | entries e es =>
      dsimp only
      split <;> first | exact h.line | exact h.acks | exact h.acked
    | grant e g =>
      have hg : acksOf (posted (p.hist ++ [.granted g])) = acksOf (posted p.hist) := by
        rw [posted_append, acksOf_append]
        exact List.append_nil _
      dsimp only
      split
      · first
          | exact h.line
          | exact hg ▸ h.acks
          | exact hg ▸ h.acked
      · first | exact h.line | exact h.acks | exact h.acked

theorem apply (h : p.Lined) {m : Move} (he : p.Enabled m) (hm : m.orderly p) :
    (p.apply m).Lined := by
  obtain ⟨hline, hle⟩ := h.line.apply h.toStanding he hm
  have hacks : acksOf (posted (p.apply m).hist) = acksOf (posted p.hist) ++ acksOf (m.posts p) := by
    rw [(apply_frame p m).hist, posted_append, acksOf_append, posted_acts]
  refine ⟨h.toStanding.apply he, hline, ?_, ?_⟩
  · rw [hacks]
    rcases acksOf_posts he with hnil | ⟨-, hone⟩
    · rw [hnil, List.append_nil]
      exact h.acks
    · rw [hone]
      refine List.pairwise_append.mpr ⟨h.acks, List.pairwise_singleton _ _, fun a ha b hb => ?_⟩
      rw [List.mem_singleton.mp hb]
      exact h.acked a ha
  · rw [hacks]
    intro a ha
    rcases List.mem_append.mp ha with ha | ha
    · exact le_trans (h.acked a ha) hle
    · rcases acksOf_posts he with hnil | ⟨rfl, hone⟩
      · rw [hnil] at ha
        exact absurd ha (by simp)
      · rw [hone, List.mem_singleton] at ha
        rw [ha]
        exact le_refl _

end Lined
end Player

/-! ## what a worker reports -/

/-- `entriesDrained` tells the truth: what it covers was executed and has left the queue, the queue
is in entry order with one marker for every entry that is executed and not drained, behind the
steps of that entry, and acked values never fall. -/
structure Drained {σ : Type} (w : Worker σ) : Prop where
  passed : w.entriesDrained < w.cursor
  gone : ∀ st ∈ w.pbQueue, w.entriesDrained < st.entryIndex
  sorted : w.pbQueue.Pairwise PbStep.before
  marked : ∀ k : Nat, (marks w.pbQueue).count k =
    if w.entriesDrained < k ∧ k < w.cursor then 1 else 0
  acked : (acksOf (posted w.hist)).Pairwise fun a b => a.entriesDrained ≤ b.entriesDrained

theorem marks_nodup {q : List PbStep} (h : q.Pairwise PbStep.before) : (marks q).Nodup := by
  unfold marks List.Nodup
  rw [List.pairwise_map, List.pairwise_filter]
  refine h.imp fun {a b} hab ha _ => ?_
  unfold PbStep.before at hab
  rw [if_pos ha] at hab
  exact Nat.ne_of_lt hab

theorem Player.Lined.told {σ : Type} {w : Worker σ} (h : w.core.Lined) : Drained w := by
  have hl : Line w.entriesDrained w.cursor w.realCmd w.pbQueue := h.line
  refine ⟨hl.behind, hl.ahead, hl.sorted, fun k => ?_, h.acks⟩
  split
  · rename_i hk
    exact List.count_eq_one_of_mem (marks_nodup hl.sorted) (hl.closed k hk.1 hk.2)
  · rename_i hk
    rw [List.count_eq_zero]
    intro hmem
    obtain ⟨st, hst, hlast, rfl⟩ := mem_marks.mp hmem
    exact hk ⟨hl.ahead st hst, h.marked _ hmem⟩

/-- **`entriesDrained` tells the truth** in every run whose moves are orderly. -/
theorem entries_drained {σ : Type} (H : Host σ) (is : List (ℚ × WIn))
    (hobeys : Worker.Obeys (fun p m => m.orderly p) H is) : Drained (Worker.after H is) := by
  refine Player.Lined.told (Worker.run_inv hobeys ?_ (fun p ps m h => h.receive ps m)
    fun p m he hm h => h.apply he hm)
  exact ⟨.start, (Line.nil (le_refl _) rfl : Line (-1) 0 none []), .nil,
    fun a ha => absurd ha List.not_mem_nil⟩

/-- One write is executed, played in part, and drained. -/
def drainedWrite : List (ℚ × WIn) :=
  [(0, .msg (.init 0 "fs" plainGeometry)), (0, .built 1 true),
    (0, .msg (.entries 0 [⟨0, .event, .event { type := .write, name := "f", size := 8 }, 0⟩])),
    (0, .msg (.grant 0 ⟨0, 1, (1000 : ℚ), 20000⟩)), (0, .msg (.grant 0 ⟨1, 1, (60000 : ℚ), 20000⟩))]

theorem entries_drained_write : Drained (Worker.after (plainWorld fun _ => 0).host drainedWrite) :=
  entries_drained (plainWorld fun _ => 0).host drainedWrite (by decide +kernel)

/-- A command opens a prep bracket while the write before it is still queued: it is closed at once,
and the marker of the write then takes `entriesDrained` back below it for good. -/
def overtakenWrite : List (ℚ × WIn) :=
  [(0, .msg (.init 0 "fs" plainGeometry)), (0, .built 1 true),
    (0, .msg (.entries 0 [⟨0, .event, .event { type := .write, name := "f", size := 8 }, 0⟩,
      ⟨1, .command, .source "prep(true)", 0⟩])),
    (0, .msg (.grant 0 ⟨0, 2, (0 : ℚ), 20000⟩)), (0, .cmd 0 (.call (.prep true))),
    (0, .cmd 0 (.settle none)), (0, .cmd 0 .timer)]

theorem entries_drained_overtaken :
    ¬ Drained (Worker.after (plainWorld fun _ => 0).host overtakenWrite) := by
  intro h
  have hcount := h.marked 1
  revert hcount
  decide +kernel

end FlashVis

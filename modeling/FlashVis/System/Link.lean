import FlashVis.Coord.Grants
import FlashVis.Player.Frame
import FlashVis.System.Rule

/-!
# Epochs on the FIFO channels

Every message to a worker is stamped with the epoch that the worker is in when it arrives, or it
is the INIT or RESET that starts that epoch: on a FIFO channel the filter of the worker never
drops anything (`Link.delivered`).  What the worker sends is stamped with an epoch that is not
newer than its own.

* `InOrder e ms e'`    the messages `ms` take a worker from epoch `e` to epoch `e'`;
* `Link c s p`         the epochs of proxy `s`, its channel and its worker;
* `Link.run`           every run keeps the link;
* `Joined c s p`       a link on which the current epoch starts at most once;
* `Arrival`            what a message does to a player, as far as the current epoch goes.
-/

namespace FlashVis

/-- The messages `ms` take a worker from epoch `e` to epoch `e'`, none of them stale. -/
def InOrder : Int → List C2W → Int → Prop
  | e, [], e' => e = e'
  | e, m :: ms, e' =>
    (if m.transition then e ≤ m.epoch else m.epoch = e) ∧ InOrder m.epoch ms e'

theorem InOrder.le {e e' : Int} {ms : List C2W} (h : InOrder e ms e') : e ≤ e' := by
  induction ms generalizing e with
  | nil => exact le_of_eq h
  | cons m ms ih =>
    refine le_trans ?_ (ih h.2)
    have := h.1
    split at this
    · exact this
    · exact le_of_eq this.symm

theorem InOrder.epoch_le {e e' : Int} {ms : List C2W} (h : InOrder e ms e') :
    ∀ m ∈ ms, m.epoch ≤ e' := by
  induction ms generalizing e with
  | nil => exact fun m hm => absurd hm (by simp)
  | cons m ms ih =>
    intro m' hm'
    rcases List.mem_cons.mp hm' with rfl | hm'
    · exact h.2.le
    · exact ih h.2 m' hm'

theorem InOrder.append {e e' e'' : Int} {ms ms' : List C2W} (h : InOrder e ms e')
    (h' : InOrder e' ms' e'') : InOrder e (ms ++ ms') e'' := by
  induction ms generalizing e with
  | nil =>
    have he : e = e' := h
    exact he ▸ h'
  | cons m ms ih => exact ⟨h.1, ih h.2⟩

theorem InOrder.same {e : Int} {ms : List C2W} (h : ∀ m ∈ ms, m.transition = false ∧ m.epoch = e) :
    InOrder e ms e := by
  induction ms with
  | nil => rfl
  | cons m ms ih =>
    obtain ⟨ht, he⟩ := h m List.mem_cons_self
    refine ⟨by rw [ht]; exact he, ?_⟩
    rw [he]
    exact ih fun m' hm' => h m' (List.mem_cons_of_mem _ hm')

/-- An INIT or RESET at the end of a channel. -/
theorem InOrder.transition {e e' : Int} {ms : List C2W} {m : C2W} (h : InOrder e ms e')
    (ht : m.transition = true) (he : e' ≤ m.epoch) : InOrder e (ms ++ [m]) m.epoch :=
  h.append ⟨by rw [ht]; exact he, rfl⟩

/-! ## what the calls send -/

/-- Messages of one epoch that start no new one. -/
def Plain (e : Int) (ms : List C2W) : Prop := ∀ m ∈ ms, m.transition = false ∧ m.epoch = e

theorem plain_entriesMsg (e : Int) (l : List Entry) : Plain e (entriesMsg e l) := by
  intro m hm
  rw [mem_entriesMsg hm]
  exact ⟨rfl, rfl⟩

theorem plain_frameMsgs {γ : Type} {n : Nat} (G : Churn γ) (c : Lockstep γ n) (s : Fin n) :
    Plain (c.proxies s).epoch (c.frameMsgs G s) := by
  intro m hm
  unfold Lockstep.frameMsgs at hm
  dsimp only at hm
  rcases List.mem_append.mp hm with hm | hm
  · rcases List.mem_append.mp hm with hm | hm
    · exact plain_entriesMsg _ _ m hm
    · exact plain_entriesMsg _ _ m hm
  · obtain ⟨g, -, rfl⟩ := List.mem_map.mp hm
    exact ⟨rfl, rfl⟩

/-- A call of the coordinator that keeps the epoch: `reset` and `rejoin` start a new life. -/
def Input.keepsEpoch {n : Nat} : Input n → Bool
  | .reset | .rejoin _ => false
  | _ => true

section
variable {σ γ : Type} {n : Nat}

theorem Lockstep.frame_epoch (G : Churn γ) (c : Lockstep γ n) : (c.frame G).epoch = c.epoch := by
  by_cases hn : n = 0
  · rw [Lockstep.frame, if_pos hn]
  · rw [Lockstep.frame_eq hn]
    exact (Lockstep.advanceRound_derives c.shipEntries).epoch

theorem Fin.pos_ne {n : Nat} (s : Fin n) : n ≠ 0 := fun h => (h ▸ s).elim0

/-- Coordinator before the frame of a manual `step()`. -/
def Lockstep.nudged (G : Churn γ) (c : Lockstep γ n) : Lockstep γ n :=
  let c := match c.mode with
    | .pace => { c with forceProduce := true }
    | .race =>
      let base := c.maxCursor
      let c := c.ensure G (base + 1)
      { c with frontier := c.sequence.length, raceStepLimit := some (base + 1) }
  { c with lastComputedRound := -1 }

theorem Lockstep.step_eq (G : Churn γ) (c : Lockstep γ n) : c.step G = (c.nudged G).frame G := rfl

theorem Lockstep.nudged_eq (G : Churn γ) (c : Lockstep γ n) : ∃ l r g f x y,
    (∀ e ∈ l, e.generated = true) ∧ c.nudged G = { c with
      sequence := c.sequence ++ l, rnd := r, churn := g, lastComputedRound := -1
      forceProduce := f, raceStepLimit := x, frontier := y } := by
  unfold nudged
  cases hm : c.mode with
  | pace => exact ⟨[], c.rnd, c.churn, true, c.raceStepLimit, c.frontier, by simp, by simp⟩
  | race =>
    obtain ⟨l, r, g, -, hgen, heq⟩ := ensure_eq (G := G) (c.maxCursor + 1) c
    refine ⟨l, r, g, c.forceProduce, some (c.maxCursor + 1), (c.sequence ++ l).length, hgen, ?_⟩
    simp only [heq, hm]

theorem mem_wire {l : List SeqEntry} {e : Entry} (h : e ∈ wire l) :
    (wire l)[e.index]? = some e := by
  obtain ⟨i, hi, rfl⟩ := List.mem_mapIdx.mp h
  have hidx : (wireEntry i l[i]).index = i := by
    cases l[i] <;> rfl
  rw [hidx, wire, List.getElem?_mapIdx, List.getElem?_eq_getElem hi]
  rfl

/-- What a call adds to the port of session `s`: messages of the current epoch, the cached grant
(never one that is due to be derived anew, and at once when it is a new one) and entries of the
sequence. -/
structure Sends (c c' : Lockstep γ n) (s : Fin n) (ms : List C2W) : Prop where
  proxy : c'.proxies s = (c.proxies s).sendAll ms
  plain : Plain (c.proxies s).epoch ms
  grants : ∀ e g, .grant e g ∈ ms → c'.cached s = some g
  current : ∀ e g, .grant e g ∈ ms → c'.round ≤ c'.lastComputedRound
  flush : c'.cached s = c.cached s ∨
    ∀ g, c'.cached s = some g → .grant (c.proxies s).epoch g ∈ ms
  entries : ∀ e es, .entries e es ∈ ms → ∀ x ∈ es, x ∈ wire c'.sequence

theorem Sends.nothing {c c' : Lockstep γ n} {s : Fin n} (h : c'.proxies s = c.proxies s)
    (hc : c'.cached = c.cached) : Sends c c' s [] :=
  ⟨by rw [h]; simp [Proxy.sendAll], fun _ h => absurd h (by simp), fun _ _ h => absurd h (by simp),
    fun _ _ h => absurd h (by simp), .inl (congrFun hc s), fun _ _ h => absurd h (by simp)⟩

/-- Every frame sends the cached grant. -/
theorem frame_flush {G : Churn γ} {c : Lockstep γ n} {s : Fin n} {g : Grant}
    (hg : (c.frame G).cached s = some g) : .grant (c.proxies s).epoch g ∈ c.frameMsgs G s := by
  obtain ⟨P, sh, hf⟩ := Lockstep.frame_derived (G := G) (Fin.pos_ne s) c
  rw [hf] at hg
  exact List.mem_append_right _ (List.mem_map.mpr ⟨g, Option.mem_toList.mpr hg, rfl⟩)

theorem frame_sends (G : Churn γ) (c : Lockstep γ n) (s : Fin n) :
    Sends c (c.frame G) s (c.frameMsgs G s) := by
  obtain ⟨P, sh, hf⟩ := Lockstep.frame_derived (G := G) (Fin.pos_ne s) c
  obtain ⟨l, hl, -⟩ := (Lockstep.advanceRound_derives (G := G) c.shipEntries).sequence
  have hseq : (c.frame G).sequence = c.sequence ++ l := by rw [hf]; exact hl
  refine ⟨Lockstep.frame_proxies (Fin.pos_ne s) c s, plain_frameMsgs _ _ _, ?_,
    fun _ _ _ => Lockstep.frame_current (Fin.pos_ne s) c, .inr fun g hg => frame_flush hg, ?_⟩
  · intro e g hg
    rw [hf]
    rcases List.mem_append.mp hg with hg | hg
    · rcases List.mem_append.mp hg with hg | hg <;> exact absurd (mem_entriesMsg hg) (by simp)
    · obtain ⟨g', hg', heq⟩ := List.mem_map.mp hg
      rw [C2W.grant.injEq] at heq
      rw [← heq.2]
      exact Option.mem_toList.mp hg'
  · intro e es hes x hx
    rw [hseq]
    have hwire : ∀ k, ∀ y ∈ (wire c.sequence).drop k, y ∈ wire (c.sequence ++ l) := by
      intro k y hy
      rw [wire, List.mapIdx_append]
      exact List.mem_append_left _ (List.mem_of_mem_drop hy)
    rcases List.mem_append.mp hes with hes | hes
    · rcases List.mem_append.mp hes with hes | hes
      · have := mem_entriesMsg hes
        rw [C2W.entries.injEq] at this
        exact hwire _ x (this.2 ▸ hx)
      · have := mem_entriesMsg hes
        rw [C2W.entries.injEq] at this
        have hd : (c.derived G).sequence = c.sequence ++ l := hl
        rw [hd] at this
        exact List.mem_of_mem_drop (this.2 ▸ hx)
    · obtain ⟨g', -, heq⟩ := List.mem_map.mp hes
      exact absurd heq (by simp)

/-- A call that keeps the epoch appends plain messages to the ports. -/
theorem call_sends (V : World σ γ) {i : Input n} {f : Lockstep γ n → Lockstep γ n}
    (hf : i.call V = some f) (hk : i.keepsEpoch = true) (c : Lockstep γ n) :
    (f c).epoch = c.epoch ∧ ∀ s, ∃ ms, Sends c (f c) s ms := by
  cases i <;> simp only [Input.call, Option.some.injEq, reduceCtorEq] at hf <;> subst hf
  case frame => exact ⟨Lockstep.frame_epoch _ _, fun s => ⟨_, frame_sends _ c s⟩⟩
  case broadcast payload =>
    refine ⟨rfl, fun s => ⟨_, Lockstep.shipEntries_proxies _ s, plain_entriesMsg _ _, ?_, ?_, .inl rfl, ?_⟩⟩
    · exact fun e g hg => absurd (mem_entriesMsg hg) (by simp)
    · exact fun e g hg => absurd (mem_entriesMsg hg) (by simp)
    · intro e es hes x hx
      have := mem_entriesMsg hes
      rw [C2W.entries.injEq] at this
      exact List.mem_of_mem_drop (this.2 ▸ hx)
  case setMode m =>
    have h : (c.setMode m).epoch = c.epoch ∧ (c.setMode m).proxies = c.proxies ∧
        (c.setMode m).cached = c.cached := by
      unfold Lockstep.setMode
      split
      · exact ⟨rfl, rfl, rfl⟩
      · cases m <;> exact ⟨rfl, rfl, rfl⟩
    exact ⟨h.1, fun s => ⟨[], .nothing (congrFun h.2.1 s) h.2.2⟩⟩
  case setSpeed v =>
    have h : (c.setSpeed v).epoch = c.epoch ∧ (c.setSpeed v).proxies = c.proxies ∧
        (c.setSpeed v).cached = c.cached := by
      unfold Lockstep.setSpeed
      split <;> exact ⟨rfl, rfl, rfl⟩
    exact ⟨h.1, fun s => ⟨[], .nothing (congrFun h.2.1 s) h.2.2⟩⟩
  case setGcRatio v => exact ⟨rfl, fun s => ⟨[], .nothing rfl rfl⟩⟩
  case start => exact ⟨rfl, fun s => ⟨[], .nothing rfl rfl⟩⟩
  case stop => exact ⟨rfl, fun s => ⟨[], .nothing rfl rfl⟩⟩
  case step =>
    obtain ⟨l, r, g, x, y, z, -, hnud⟩ := Lockstep.nudged_eq V.churn c
    have hp : (c.nudged V.churn).proxies = c.proxies := by rw [hnud]
    have he : (c.nudged V.churn).epoch = c.epoch := by rw [hnud]
    have hc : (c.nudged V.churn).cached = c.cached := by rw [hnud]
    refine ⟨(Lockstep.frame_epoch _ _).trans he, fun s => ?_⟩
    obtain ⟨h1, h2, h3, h4, h5, h6⟩ := frame_sends V.churn (c.nudged V.churn) s
    rw [hp] at h1 h2 h5
    rw [hc] at h5
    exact ⟨_, h1, h2, h3, h4, h5, h6⟩
  case reset => exact absurd hk (by simp [Input.keepsEpoch])
  case rejoin s => exact absurd hk (by simp [Input.keepsEpoch])
  case pull t sel =>
    refine ⟨rfl, fun s => ?_⟩
    by_cases h : s = t
    · subst h
      refine ⟨[.pull (c.proxies s).epoch sel], Sys.onProxy_same _ _ _, fun m hm => ?_, ?_, ?_, .inl rfl, ?_⟩
      · rw [List.mem_singleton.mp hm]
        exact ⟨rfl, rfl⟩
      · exact fun _ _ h => absurd h (by simp)
      · exact fun _ _ h => absurd h (by simp)
      · exact fun _ _ h => absurd h (by simp)
    · exact ⟨[], .nothing (Sys.onProxy_ne h _ _) rfl⟩

end

theorem call_acked {σ γ : Type} {n : Nat} (V : World σ γ) {i : Input n}
    {f : Lockstep γ n → Lockstep γ n} (hf : i.call V = some f) (hk : i.keepsEpoch = true)
    (c : Lockstep γ n) (s : Fin n) : (f c).acked s = c.acked s := by
  obtain ⟨ms, hms⟩ := (call_sends V hf hk c).2 s
  unfold Lockstep.acked
  rw [hms.proxy, Proxy.sendAll_acked]

/-- A call that keeps the epoch generates entries, or broadcasts one. -/
theorem call_sequence {σ γ : Type} {n : Nat} (V : World σ γ) {i : Input n}
    {f : Lockstep γ n → Lockstep γ n} (hf : i.call V = some f) (hk : i.keepsEpoch = true)
    (c : Lockstep γ n) : Extends c.sequence (f c).sequence ∨
      ∃ payload u, i = .broadcast payload ∧
        (f c).sequence = c.sequence ++ [.command payload u] := by
  have hframe : ∀ c : Lockstep γ n, Extends c.sequence (c.frame V.churn).sequence := by
    intro c
    by_cases hn : n = 0
    · rw [Lockstep.frame, if_pos hn]
      exact .refl _
    · obtain ⟨P, sh, h⟩ := Lockstep.frame_derived (G := V.churn) hn c
      rw [h]
      exact (Lockstep.advanceRound_derives (G := V.churn) c.shipEntries).sequence
  cases i <;> simp only [Input.call, Option.some.injEq, reduceCtorEq] at hf <;> subst hf
  case frame => exact .inl (hframe c)
  case broadcast payload => exact .inr ⟨payload, _, rfl, rfl⟩
  case setMode m =>
    refine .inl ?_
    dsimp only
    unfold Lockstep.setMode
    split
    · exact .refl _
    · cases m <;> exact .refl _
  case setSpeed v =>
    refine .inl ?_
    dsimp only
    unfold Lockstep.setSpeed
    split <;> exact .refl _
  case step =>
    obtain ⟨l, r, g, x, y, z, hgen, hnud⟩ := Lockstep.nudged_eq V.churn c
    obtain ⟨l', hl', hgen'⟩ := hframe (c.nudged V.churn)
    refine .inl ⟨l ++ l', ?_, fun e he => (List.mem_append.mp he).elim (hgen e) (hgen' e)⟩
    show ((c.nudged V.churn).frame V.churn).sequence = _
    rw [hl', hnud, List.append_assoc]
  case reset => exact absurd hk (by simp [Input.keepsEpoch])
  case rejoin s => exact absurd hk (by simp [Input.keepsEpoch])
  all_goals exact .inl (.refl _)

/-! ## what holds of the coordinator in every run -/

/-- The speed and the round are nonnegative, and a one-shot Race step is over once it is called. -/
structure Lockstep.Sound {γ : Type} {n : Nat} (c : Lockstep γ n) : Prop where
  scale : 0 ≤ c.scale
  round : 0 ≤ c.round
  stepLimit : n ≠ 0 → c.raceStepLimit = none

theorem Lockstep.frame_sound {γ : Type} {n : Nat} {G : Churn γ} {c : Lockstep γ n}
    (hs : 0 ≤ c.scale) (hr : 0 ≤ c.round)
    (hl : c.lastComputedRound < c.round ∨ (n ≠ 0 → c.raceStepLimit = none)) :
    (c.frame G).Sound := by
  by_cases hn : n = 0
  · rw [Lockstep.frame, if_pos hn]
    exact ⟨hs, hr, fun h => absurd hn h⟩
  have hround : 0 ≤ (c.frame G).round := by
    rcases Lockstep.frame_round (G := G) c with h | ⟨h, -⟩ <;> rw [h] <;> linarith
  have hscale : (c.frame G).scale = c.scale := by
    rw [Lockstep.frame_eq hn]
    exact (Lockstep.advanceRound_derives (G := G) c.shipEntries).scale
  refine ⟨hscale ▸ hs, hround, fun _ => ?_⟩
  obtain ⟨P, sh, ⟨hle, -, hf⟩ | ⟨r, -, hf⟩⟩ := Lockstep.frame_cases (G := G) hn c
  · rw [hf]
    exact (hl.resolve_left (not_lt.mpr hle)) hn
  · rw [hf]
    rfl

theorem call_sound {σ γ : Type} {n : Nat} (V : World σ γ) {i : Input n}
    {f : Lockstep γ n → Lockstep γ n} (hf : i.call V = some f) {c : Lockstep γ n} (h : c.Sound) :
    (f c).Sound := by
  cases i <;> simp only [Input.call, Option.some.injEq, reduceCtorEq] at hf <;> subst hf
  case frame => exact Lockstep.frame_sound h.scale h.round (.inr h.stepLimit)
  case setMode m =>
    dsimp only
    unfold Lockstep.setMode
    split
    · exact h
    · cases m <;> exact ⟨h.scale, h.round, h.stepLimit⟩
  case setSpeed v =>
    dsimp only
    unfold Lockstep.setSpeed
    split
    · exact h
    · exact ⟨le_min (not_lt.mp ‹_›) (by norm_num [MAX_SCALE]), h.round, h.stepLimit⟩
  case step =>
    obtain ⟨l, r, g, x, y, z, -, hnud⟩ := Lockstep.nudged_eq V.churn c
    refine Lockstep.frame_sound (c := c.nudged V.churn) ?_ ?_ (.inl ?_) <;> rw [hnud]
    · exact h.scale
    · exact h.round
    · exact lt_of_lt_of_le (by norm_num) h.round
  case reset => exact ⟨h.scale, le_refl _, fun _ => rfl⟩
  all_goals exact ⟨h.scale, h.round, h.stepLimit⟩

theorem Sys.step_sound {σ γ : Type} {n : Nat} (V : World σ γ) (S : Sys σ γ n) (i : Input n)
    (h : S.c.Sound) : (S.step V i).c.Sound := by
  cases hf : i.call V with
  | none =>
    obtain ⟨P, hP⟩ := Sys.step_idle V S hf
    rw [hP]
    exact ⟨h.scale, h.round, h.stepLimit⟩
  | some f =>
    rw [Sys.step_call V S hf]
    exact call_sound V hf h

theorem Sys.sound {σ γ : Type} {n : Nat} (V : World σ γ) (churn : γ) (ratio : ℚ)
    (info : Fin n → String × Geometry) (is : List (Input n)) :
    (Sys.after V churn ratio info is).c.Sound :=
  Machine.run_inv' (P := fun S : Sys σ γ n => S.c.Sound) (Sys.step_sound V) is
    ⟨show (0 : ℚ) ≤ 20000 by norm_num, le_refl _, fun _ => rfl⟩

/-! ## the link -/

theorem Proxy.handle_epoch (m : W2C) (p : Proxy) : (p.handle m).epoch = p.epoch := by
  unfold handle
  split
  · rfl
  · cases m <;> rfl

theorem Proxy.handle_port (m : W2C) (p : Proxy) : (p.handle m).port = p.port := by
  unfold handle
  split
  · rfl
  · cases m <;> rfl

/-- The epochs of proxy `s`, of its channel and of its worker. -/
structure Link {γ : Type} {n : Nat} (c : Lockstep γ n) (s : Fin n) (p : Player) : Prop where
  proxy : (c.proxies s).epoch = c.epoch
  chan : InOrder p.epoch (c.proxies s).port c.epoch
  back : ∀ m ∈ p.port, m.epoch ≤ p.epoch

namespace Link
variable {σ γ : Type} {n : Nat} {c : Lockstep γ n} {s : Fin n} {p : Player}

theorem epoch_le (h : Link c s p) : p.epoch ≤ c.epoch := h.chan.le

/-- The oldest message is not stale: it starts an epoch or belongs to the worker's. -/
theorem delivered (h : Link c s p) {m : C2W} {ms : List C2W} (hp : (c.proxies s).port = m :: ms)
    (ht : m.transition = false) : m.epoch = p.epoch := by
  have := h.chan
  rw [hp] at this
  have h1 := this.1
  rw [ht] at h1
  exact h1

theorem receive_epoch (p : Player) (ps : Option Nat) (m : C2W)
    (h : m.transition = false → m.epoch = p.epoch) : (p.receive ps m).epoch = m.epoch := by
  cases m with
  | init e f g => rfl
  | reset e => rfl
  | entries e es =>
    have he : e = p.epoch := h rfl
    rw [Player.receive, if_pos he]
    exact he.symm
  | grant e g =>
    have he : e = p.epoch := h rfl
    rw [Player.receive, if_pos he]
    exact he.symm
  | pull e sel => exact (h rfl).symm

theorem receive_port (p : Player) (ps : Option Nat) (m : C2W) : (p.receive ps m).port = p.port := by
  cases m with
  | init e f g => rfl
  | reset e => rfl
  | pull e sel => rfl
  | entries e es => simp only [Player.receive]; split <;> rfl
  | grant e g => simp only [Player.receive]; split <;> rfl

theorem posts_epoch {m : Move} (he : p.Enabled m) : ∀ x ∈ m.posts p, x.epoch = p.epoch := by
  intro x hx
  cases m <;> simp only [Move.posts, List.mem_singleton, List.not_mem_nil] at hx
  case ack => exact hx ▸ rfl
  case post m => exact hx ▸ he.1

theorem apply (h : Link c s p) {m : Move} (he : p.Enabled m) : Link c s (p.apply m) := by
  have hf := Player.apply_frame p m
  refine ⟨h.proxy, ?_, ?_⟩
  · rw [hf.epoch]
    exact h.chan
  · intro x hx
    rw [hf.port] at hx
    rw [hf.epoch]
    rcases List.mem_append.mp hx with hx | hx
    · exact h.back x hx
    · exact le_of_eq (posts_epoch he x hx)

theorem receive (h : Link c s p) {m : C2W} {ms : List C2W} (hp : (c.proxies s).port = m :: ms)
    (ps : Option Nat) : Link (Sys.onProxy s (·.setPort ms) c) s (p.receive ps m) := by
  have he := receive_epoch p ps m (h.delivered hp)
  have hch := h.chan
  rw [hp] at hch
  refine ⟨?_, ?_, ?_⟩
  · rw [Sys.onProxy_same]
    exact h.proxy
  · rw [Sys.onProxy_same, he]
    exact hch.2
  · intro x hx
    rw [receive_port] at hx
    rw [he]
    refine le_trans (h.back x hx) ?_
    have h1 := hch.1
    split at h1
    · exact h1
    · exact le_of_eq h1.symm

theorem back_of (h : Link c s p) {m : W2C} {ms : List W2C} (hp : p.port = m :: ms) :
    Link (Sys.onProxy s (·.handle m) c) s (p.setPort ms) := by
  refine ⟨?_, ?_, ?_⟩
  · rw [Sys.onProxy_same, Proxy.handle_epoch]
    exact h.proxy
  · rw [Sys.onProxy_same, Proxy.handle_port]
    exact h.chan
  · exact fun x hx => h.back x (hp ▸ List.mem_cons_of_mem m hx)

theorem frame {t : Fin n} (ht : t ≠ s) (f : Proxy → Proxy) (h : Link c t p) :
    Link (Sys.onProxy s f c) t p := by
  refine ⟨?_, ?_, h.back⟩
  · rw [Sys.onProxy_ne ht]
    exact h.proxy
  · rw [Sys.onProxy_ne ht]
    exact h.chan

theorem call (V : World σ γ) {i : Input n} {f : Lockstep γ n → Lockstep γ n}
    (hf : i.call V = some f) (h : Link c s p) : Link (f c) s p := by
  by_cases hk : i.keepsEpoch = true
  · obtain ⟨he, hs⟩ := call_sends V hf hk c
    obtain ⟨ms, hms, hpl, -⟩ := hs s
    refine ⟨?_, ?_, h.back⟩
    · rw [hms, he]
      exact h.proxy
    · rw [hms, he]
      refine h.chan.append (InOrder.same ?_)
      rw [h.proxy] at hpl
      exact hpl
  · cases i <;> simp only [Input.call, Option.some.injEq, reduceCtorEq, Input.keepsEpoch,
      not_true, not_false_iff] at hf hk
    case reset =>
      subst hf
      exact ⟨rfl, h.chan.transition (m := .reset (c.epoch + 1)) rfl (by simp [C2W.epoch]), h.back⟩
    case rejoin t =>
      subst hf
      by_cases hst : s = t
      · subst hst
        refine ⟨by simp [Lockstep.rejoin, Proxy.init, Proxy.send, Proxy.setEpoch], ?_, h.back⟩
        have hch := h.chan.transition (m := .init c.epoch (c.proxies s).fsId (c.proxies s).geometry)
          rfl (le_refl _)
        simp only [Lockstep.rejoin, Function.update_self]
        exact hch
      · refine ⟨?_, ?_, h.back⟩
        · simp only [Lockstep.rejoin, Function.update_of_ne hst]
          exact h.proxy
        · simp only [Lockstep.rejoin, Function.update_of_ne hst]
          exact h.chan

theorem step (V : World σ γ) (S : Sys σ γ n) (i : Input n) (h : ∀ s, Link S.c s (S.player s)) :
    ∀ s, Link (S.step V i).c s ((S.step V i).player s) :=
  Sys.step_each V S i (fun _ _ _ f _ ht h => h.frame ht f)
    (fun _ hf h s => (h s).call V hf) (fun _ _ _ _ ps _ hp h => h.receive hp ps)
    (fun _ _ _ _ _ _ _ _ he h => h.apply he) (fun _ _ _ _ hp h => h.back_of hp) h

theorem init (churn : γ) (ratio : ℚ) (info : Fin n → String × Geometry) (s : Fin n) :
    Link (Sys.init (σ := σ) churn ratio info).c s ((Sys.init (σ := σ) churn ratio info).player s) :=
  ⟨rfl, ⟨show (-1 : Int) ≤ 0 by decide, rfl⟩, fun _ h => absurd h (by simp [Sys.init, Sys.player, Worker.core])⟩

theorem run (V : World σ γ) (churn : γ) (ratio : ℚ) (info : Fin n → String × Geometry)
    (is : List (Input n)) (s : Fin n) :
    Link (Machine.run (Sys.step V) (Sys.init churn ratio info) is).c s
      ((Machine.run (Sys.step V) (Sys.init churn ratio info) is).player s) :=
  Machine.run_inv' (P := fun S : Sys σ γ n => ∀ s, Link S.c s (S.player s)) (step V) is
    (init churn ratio info) s

end Link

/-! ## one start of the epoch -/

/-- An INIT or RESET that starts epoch `E` finds its worker in an earlier one. -/
def Once (E : Int) : Int → List C2W → Prop
  | _, [] => True
  | e, m :: ms => (m.transition = true → m.epoch = E → e < E) ∧ Once E m.epoch ms

theorem Once.append {E e e' : Int} {ms ms' : List C2W} (h : Once E e ms) (ho : InOrder e ms e')
    (h' : Once E e' ms') : Once E e (ms ++ ms') := by
  induction ms generalizing e with
  | nil =>
    have he : e = e' := ho
    exact he ▸ h'
  | cons m ms ih => exact ⟨h.1, ih h.2 ho.2⟩

theorem Once.plain {E e : Int} {ms : List C2W} (h : Plain e ms) : Once E e ms := by
  induction ms with
  | nil => trivial
  | cons m ms ih =>
    obtain ⟨ht, he⟩ := h m List.mem_cons_self
    refine ⟨by simp [ht], ?_⟩
    rw [he]
    exact ih fun m' hm' => h m' (List.mem_cons_of_mem _ hm')

theorem Once.earlier {E e : Int} {ms : List C2W} (h : ∀ m ∈ ms, m.epoch < E) : Once E e ms := by
  induction ms generalizing e with
  | nil => trivial
  | cons m ms ih =>
    refine ⟨fun _ hm => ?_, ih fun m' hm' => h m' (List.mem_cons_of_mem _ hm')⟩
    exact absurd (h m List.mem_cons_self) (by omega)

/-- A link on which the current epoch starts at most once: the session has not joined anew since
the last `reset()`. -/
structure Joined {γ : Type} {n : Nat} (c : Lockstep γ n) (s : Fin n) (p : Player) : Prop
    extends Link c s p where
  once : Once c.epoch p.epoch (c.proxies s).port

/-- What a message does to player `p`, as far as epoch `E` goes. -/
inductive Arrival (E : Int) (ps : Option Nat) (p : Player) (m : C2W) : Player → Prop
  | feed (es : List Entry) (now : p.epoch = E) (hm : m = .entries E es) : Arrival E ps p m (p.feed es)
  | grant (g : Grant) (now : p.epoch = E) (hm : m = .grant E g) : Arrival E ps p m (p.grant g)
  | pull (sel : PullSel) (now : p.epoch = E) (hm : m = .pull E sel) : Arrival E ps p m p
  | fresh (keep : Bool) (before : p.epoch < E) (hm : m.transition = true) :
    Arrival E ps p m (p.fresh E keep ps)
  | early (q : Player) (before : p.epoch < E) (after : q.epoch < E) (hm : m.epoch < E) :
    Arrival E ps p m q

namespace Joined
variable {σ γ : Type} {n : Nat} {c : Lockstep γ n} {s : Fin n} {p : Player}

theorem apply (h : Joined c s p) {m : Move} (he : p.Enabled m) : Joined c s (p.apply m) := by
  refine ⟨h.toLink.apply he, ?_⟩
  rw [(Player.apply_frame p m).epoch]
  exact h.once

theorem receive (h : Joined c s p) {m : C2W} {ms : List C2W} (hp : (c.proxies s).port = m :: ms)
    (ps : Option Nat) : Joined (Sys.onProxy s (·.setPort ms) c) s (p.receive ps m) := by
  refine ⟨h.toLink.receive hp ps, ?_⟩
  rw [Sys.onProxy_same, Link.receive_epoch p ps m (h.delivered hp)]
  have := h.once
  rw [hp] at this
  exact this.2

/-- A message that starts an epoch finds its worker in an epoch before the current one. -/
theorem before (h : Joined c s p) {m : C2W} {ms : List C2W} (hp : (c.proxies s).port = m :: ms)
    (ht : m.transition = true) : p.epoch < c.epoch := by
  have hle : m.epoch ≤ c.epoch := h.chan.epoch_le m (hp ▸ List.mem_cons_self)
  have hchan := h.chan
  have honce := h.once
  rw [hp] at hchan honce
  have h1 := hchan.1
  rw [ht, if_pos rfl] at h1
  rcases eq_or_lt_of_le hle with hm | hm
  · exact honce.1 ht hm
  · exact lt_of_le_of_lt h1 hm

/-- **Inversion of a delivery.** -/
theorem arrival (h : Joined c s p) {m : C2W} {ms : List C2W} (hp : (c.proxies s).port = m :: ms)
    (ps : Option Nat) : Arrival c.epoch ps p m (p.receive ps m) := by
  have hle : m.epoch ≤ c.epoch := h.chan.epoch_le m (hp ▸ List.mem_cons_self)
  have hepoch := Link.receive_epoch p ps m (h.delivered hp)
  have hbefore := h.before hp
  have hnow := h.delivered hp
  by_cases hm : m.epoch = c.epoch
  · cases m with
    | init e f g =>
      rw [show p.receive ps (.init e f g) = p.fresh c.epoch false ps by rw [← hm]; rfl]
      exact .fresh false (hbefore rfl) rfl
    | reset e =>
      rw [show p.receive ps (.reset e) = p.fresh c.epoch true ps by rw [← hm]; rfl]
      exact .fresh true (hbefore rfl) rfl
    | pull e sel => exact .pull sel ((hnow rfl).symm.trans hm) (by rw [← hm]; rfl)
    | entries e es =>
      rw [show p.receive ps (.entries e es) = p.feed es from if_pos (hnow rfl)]
      exact .feed es ((hnow rfl).symm.trans hm) (by rw [← hm]; rfl)
    | grant e g =>
      rw [show p.receive ps (.grant e g) = p.grant g from if_pos (hnow rfl)]
      exact .grant g ((hnow rfl).symm.trans hm) (by rw [← hm]; rfl)
  · refine .early _ ?_ (by rw [hepoch]; omega) (by omega)
    by_cases ht : m.transition = true
    · exact hbefore ht
    · have := hnow (Bool.not_eq_true _ ▸ ht)
      omega

theorem back_of (h : Joined c s p) {m : W2C} {ms : List W2C} (hp : p.port = m :: ms) :
    Joined (Sys.onProxy s (·.handle m) c) s (p.setPort ms) := by
  refine ⟨h.toLink.back_of hp, ?_⟩
  rw [Sys.onProxy_same, Proxy.handle_port]
  exact h.once

theorem frame {t : Fin n} (ht : t ≠ s) (f : Proxy → Proxy) (h : Joined c t p) :
    Joined (Sys.onProxy s f c) t p := by
  refine ⟨h.toLink.frame ht f, ?_⟩
  rw [Sys.onProxy_ne ht]
  exact h.once

theorem call (V : World σ γ) {i : Input n} {f : Lockstep γ n → Lockstep γ n}
    (hf : i.call V = some f) (hk : i.keepsEpoch = true) (h : Joined c s p) : Joined (f c) s p := by
  obtain ⟨he, hs⟩ := call_sends V hf hk c
  obtain ⟨ms, hms, hpl, -⟩ := hs s
  refine ⟨h.toLink.call V hf, ?_⟩
  rw [hms, he]
  rw [h.proxy] at hpl
  exact h.once.append h.chan (.plain hpl)

end Joined

/-- `reset()` starts an epoch of its own on every link. -/
theorem Link.reset {γ : Type} {n : Nat} {c : Lockstep γ n} {s : Fin n} {p : Player}
    (h : Link c s p) (G : Churn γ) : Joined (c.reset G) s p where
  proxy := rfl
  chan := h.chan.transition (m := .reset (c.epoch + 1)) rfl (by simp [C2W.epoch])
  back := h.back
  once := by
    have hlt : ∀ m ∈ (c.proxies s).port, m.epoch < c.epoch + 1 :=
      fun m hm => Int.lt_add_one_of_le (h.chan.epoch_le m hm)
    exact (Once.earlier hlt).append h.chan ⟨fun _ _ => Int.lt_succ _, trivial⟩

end FlashVis

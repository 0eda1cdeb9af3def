import FlashVis.Player.History
import FlashVis.System.Link

/-!
# Epoch isolation at the coordinator

What a proxy shows is a fold over the messages that its worker posted since it handled the RESET
(or INIT) of the current epoch, in the order posted; before that it is the reset state.

* `Seen`            what a proxy shows, as a fold over the messages it took;
* `Tracked c s p`   the invariant of session `s`;
* `epoch_isolation` provenance, the round bound and the barrier.
-/

namespace FlashVis

/-! ## what a proxy shows -/

/-- What a proxy shows of its worker. -/
structure Seen where
  acked : Acked := {}
  telemetry : Telemetry := {}
  frame : Option FrameMsg := none

/-- A message of the current epoch is taken. -/
def Seen.take (v : Seen) : W2C → Seen
  | .grantAck _ a => { v with acked := v.acked.merge a }
  | .telemetry _ t => { v with telemetry := v.telemetry.merge t }
  | .frame _ f => { v with frame := some f }

/-- The reset state; `caps` belongs to the module. -/
def Seen.reset (caps : Option Nat) : Seen := { telemetry := { caps := caps } }

def Proxy.seen (p : Proxy) : Seen := { acked := p.acked, telemetry := p.telemetry, frame := p.frame }

theorem Proxy.handle_seen {p : Proxy} {m : W2C} (h : m.epoch = p.epoch) :
    (p.handle m).seen = p.seen.take m := by
  unfold handle
  rw [if_neg (not_not.mpr h)]
  cases m <;> rfl

theorem Proxy.handle_stale {p : Proxy} {m : W2C} (h : m.epoch ≠ p.epoch) : p.handle m = p :=
  if_pos h

theorem foldl_take_acked (l : List W2C) (v : Seen) :
    (l.foldl Seen.take v).acked = (acksOf l).foldl Acked.merge v.acked := by
  induction l generalizing v with
  | nil => rfl
  | cons m l ih => cases m <;> exact ih _

/-- Every field of a merge is the start's or an ack's. -/
theorem foldl_merge_from {α : Type} [LinearOrder α] {f : Acked → α} {g : GrantAck → α}
    (h : ∀ a m, f (a.merge m) = max (f a) (g m)) (l : List GrantAck) (a : Acked) :
    f (l.foldl Acked.merge a) = f a ∨ ∃ m ∈ l, f (l.foldl Acked.merge a) = g m := by
  induction l generalizing a with
  | nil => exact .inl rfl
  | cons m l ih =>
    rw [List.foldl_cons]
    rcases ih (a.merge m) with hl | ⟨m', hm', hl⟩
    · rw [hl, h]
      rcases max_choice (f a) (g m) with hmax | hmax
      · exact .inl hmax
      · exact .inr ⟨m, List.mem_cons_self, hmax⟩
    · exact .inr ⟨m', List.mem_cons_of_mem m hm', hl⟩

theorem foldl_take_telemetry (l : List W2C) (v : Seen) :
    (l.foldl Seen.take v).telemetry = v.telemetry ∨
      ∃ e t, .telemetry e t ∈ l ∧ (l.foldl Seen.take v).telemetry = Telemetry.merge {} t := by
  induction l generalizing v with
  | nil => exact .inl rfl
  | cons m l ih =>
    rw [List.foldl_cons]
    rcases ih (v.take m) with hl | ⟨e, t, ht, hl⟩
    · rw [hl]
      cases m with
      | grantAck e a => exact .inl rfl
      | telemetry e t => exact .inr ⟨e, t, List.mem_cons_self, rfl⟩
      | frame e f => exact .inl rfl
    · exact .inr ⟨e, t, List.mem_cons_of_mem m ht, hl⟩

theorem foldl_take_frame (l : List W2C) (v : Seen) :
    (l.foldl Seen.take v).frame = v.frame ∨
      ∃ e f, .frame e f ∈ l ∧ (l.foldl Seen.take v).frame = some f := by
  induction l generalizing v with
  | nil => exact .inl rfl
  | cons m l ih =>
    rw [List.foldl_cons]
    rcases ih (v.take m) with hl | ⟨e, f, hf, hl⟩
    · rw [hl]
      cases m with
      | grantAck e a => exact .inl rfl
      | telemetry e t => exact .inl rfl
      | frame e f => exact .inr ⟨e, f, List.mem_cons_self, rfl⟩
    · exact .inr ⟨e, f, List.mem_cons_of_mem m hf, hl⟩

/-! ## the invariant -/

/-- A session that is not joined anew: what its proxy shows is what its worker posted in the
current epoch, and no round is ahead of the coordinator's. -/
structure Tracked {γ : Type} {n : Nat} (c : Lockstep γ n) (s : Fin n) (p : Player) : Prop where
  link : Joined c s p
  round : 0 ≤ c.round
  cached : ∀ g, c.cached s = some g → g.round ≤ c.round
  sent : ∀ g, .grant c.epoch g ∈ (c.proxies s).port → g.round ≤ c.round
  granted : p.epoch = c.epoch → ∀ g, .granted g ∈ p.hist → g.round ≤ c.round
  last : lastRound p.hist = p.round
  tagged : AcksTagged p.hist
  seen : ∃ caps done, (c.proxies s).seen = done.foldl Seen.take (Seen.reset caps) ∧
    if p.epoch = c.epoch then posted p.hist = done ++ p.port.filter (·.epoch = c.epoch) else done = []

/-- A call that keeps the set of sessions. -/
def Input.fixed {n : Nat} : Input n → Bool
  | .rejoin _ => false
  | _ => true

section
variable {σ γ : Type} {n : Nat}

/-- A call that keeps the epoch keeps the round, or it is a frame that passes the barrier. -/
theorem call_round (V : World σ γ) {i : Input n} {f : Lockstep γ n → Lockstep γ n}
    (hf : i.call V = some f) (hk : i.keepsEpoch = true) (c : Lockstep γ n) :
    ((f c).round = c.round ∨ (f c).round = c.round + 1 ∧ ∀ t, c.round ≤ (c.acked t).round) ∧
    ∀ s, (∀ g, c.cached s = some g → g.round ≤ c.round) →
      ∀ g, (f c).cached s = some g → g.round ≤ (f c).round := by
  cases i <;> simp only [Input.call, Option.some.injEq, reduceCtorEq] at hf <;> subst hf
  case frame => exact ⟨Lockstep.frame_round c, fun s h => Lockstep.frame_cached c s h⟩
  case broadcast payload => exact ⟨.inl rfl, fun _ h => h⟩
  case setMode m =>
    have h : (c.setMode m).round = c.round ∧ (c.setMode m).cached = c.cached := by
      unfold Lockstep.setMode
      split
      · exact ⟨rfl, rfl⟩
      · cases m <;> exact ⟨rfl, rfl⟩
    dsimp only
    rw [h.1, h.2]
    exact ⟨.inl rfl, fun _ h => h⟩
  case setSpeed v =>
    have h : (c.setSpeed v).round = c.round ∧ (c.setSpeed v).cached = c.cached := by
      unfold Lockstep.setSpeed
      split <;> exact ⟨rfl, rfl⟩
    dsimp only
    rw [h.1, h.2]
    exact ⟨.inl rfl, fun _ h => h⟩
  case setGcRatio v => exact ⟨.inl rfl, fun _ h => h⟩
  case start => exact ⟨.inl rfl, fun _ h => h⟩
  case stop => exact ⟨.inl rfl, fun _ h => h⟩
  case step =>
    obtain ⟨l, r, g, x, y, z, -, hnud⟩ := Lockstep.nudged_eq V.churn c
    have hr := Lockstep.frame_round (G := V.churn) (c.nudged V.churn)
    have hc := Lockstep.frame_cached (G := V.churn) (c.nudged V.churn)
    have ha : ∀ t, (c.nudged V.churn).acked t = c.acked t :=
      Lockstep.acked_congr (by rw [hnud])
    rw [show (c.nudged V.churn).round = c.round by rw [hnud]] at hr hc
    rw [show (c.nudged V.churn).cached = c.cached by rw [hnud]] at hc
    simp only [ha] at hr
    exact ⟨hr, hc⟩
  case reset => exact absurd hk (by simp [Input.keepsEpoch])
  case rejoin s => exact absurd hk (by simp [Input.keepsEpoch])
  case pull t sel => exact ⟨.inl rfl, fun _ h => h⟩

end

namespace Tracked
variable {σ γ : Type} {n : Nat} {c : Lockstep γ n} {s : Fin n} {p : Player}

theorem apply (h : Tracked c s p) {m : Move} (he : p.Enabled m) : Tracked c s (p.apply m) := by
  have hf := Player.apply_frame p m
  refine ⟨h.link.apply he, h.round, h.cached, h.sent, ?_, ?_, ?_, ?_⟩
  · intro hep g hg
    rw [hf.hist] at hg
    rcases List.mem_append.mp hg with hg | hg
    · exact h.granted (hf.epoch ▸ hep) g hg
    · exact absurd hg (no_granted_acts p m g)
  · rw [hf.hist, lastRound_append (no_granted_acts p m), hf.round]
    exact h.last
  · rw [hf.hist]
    have hno : (∀ e a, Act.posted (.grantAck e a) ∉ m.acts p) → AcksTagged (p.hist ++ m.acts p) :=
      h.tagged.append
    cases m with
    | ack => exact h.tagged.ack _ h.last.symm
    | post m => exact hno fun e a hm => he.2 e a (by simpa [Move.acts, eq_comm] using hm)
    | exec call batch steps ops => cases call <;> exact hno (by simp [Move.acts])
    | op idx w batch steps => cases w <;> exact hno (by simp [Move.acts])
    | _ => exact hno (by simp [Move.acts])
  · obtain ⟨caps, done, hseen, hd⟩ := h.seen
    refine ⟨caps, done, hseen, ?_⟩
    rw [hf.epoch]
    split at hd
    · rename_i hep
      have hall : (m.posts p).filter (·.epoch = c.epoch) = m.posts p := by
        rw [List.filter_eq_self]
        intro x hx
        simpa using (Link.posts_epoch he x hx).trans hep
      rw [if_pos hep, hf.hist, hf.port, posted_append, posted_acts, hd, List.filter_append, hall,
        List.append_assoc]
    · rw [if_neg ‹_›]
      exact hd

theorem frame {t : Fin n} (ht : t ≠ s) (f : Proxy → Proxy) (h : Tracked c t p) :
    Tracked (Sys.onProxy s f c) t p := by
  have hp : (Sys.onProxy s f c).proxies t = c.proxies t := Sys.onProxy_ne ht f c
  refine ⟨h.link.frame ht f, h.round, h.cached, ?_, h.granted, h.last, h.tagged, ?_⟩
  · rw [hp]
    exact h.sent
  · rw [hp]
    exact h.seen

theorem back_of (h : Tracked c s p) {m : W2C} {ms : List W2C} (hp : p.port = m :: ms) :
    Tracked (Sys.onProxy s (·.handle m) c) s (p.setPort ms) := by
  obtain ⟨caps, done, hseen, hd⟩ := h.seen
  refine ⟨h.link.back_of hp, h.round, h.cached, ?_, h.granted, h.last, h.tagged, ?_⟩
  · rw [Sys.onProxy_same, Proxy.handle_port]
    exact h.sent
  · rw [Sys.onProxy_same]
    by_cases hm : m.epoch = c.epoch
    · -- a message of the current epoch: the worker is in it
      have hep : p.epoch = c.epoch := le_antisymm h.link.epoch_le
        (hm ▸ h.link.back m (hp ▸ List.mem_cons_self))
      refine ⟨caps, done ++ [m], ?_, ?_⟩
      · rw [Proxy.handle_seen (hm.trans h.link.proxy.symm), hseen, List.foldl_append]
        rfl
      · rw [if_pos hep] at hd
        show if p.epoch = c.epoch then posted p.hist = _ else _
        rw [if_pos hep, hd, hp, List.filter_cons_of_pos (by simpa using hm), List.append_assoc]
        rfl
    · refine ⟨caps, done, ?_, ?_⟩
      · rw [Proxy.handle_stale (fun he => hm (he.trans h.link.proxy)), hseen]
      · rw [hp, List.filter_cons_of_neg (by simpa using hm)] at hd
        exact hd

theorem receive (h : Tracked c s p) {m : C2W} {ms : List C2W} (hp : (c.proxies s).port = m :: ms)
    (ps : Option Nat) : Tracked (Sys.onProxy s (·.setPort ms) c) s (p.receive ps m) := by
  have hlink := h.link.receive hp ps
  have hport : ((Sys.onProxy s (·.setPort ms) c).proxies s).port = ms := by
    rw [Sys.onProxy_same]
    rfl
  have hseen' : ((Sys.onProxy s (·.setPort ms) c).proxies s).seen = (c.proxies s).seen := by
    rw [Sys.onProxy_same]
    rfl
  have hsent : ∀ g, C2W.grant c.epoch g ∈ ms → g.round ≤ c.round :=
    fun g hg => h.sent g (hp ▸ List.mem_cons_of_mem m hg)
  obtain ⟨caps, done, hseen, hd⟩ := h.seen
  -- a message that starts a new life
  have new : ∀ e keep, m.transition = true → p.receive ps m = p.fresh e keep ps →
      Tracked (Sys.onProxy s (·.setPort ms) c) s (p.receive ps m) := by
    intro e keep ht hr
    have hlt := h.link.before hp ht
    rw [if_neg (ne_of_lt hlt)] at hd
    rw [hr] at hlink ⊢
    refine ⟨hlink, h.round, h.cached, by rw [hport]; exact hsent, ?_, rfl, ?_, caps, done,
      hseen'.trans hseen, ?_⟩
    · exact fun _ g hg => absurd hg (by simp [Player.fresh])
    · exact fun h₁ e a h₂ heq => absurd heq (by simp [Player.fresh])
    · have hno : p.port.filter (·.epoch = c.epoch) = [] := by
        rw [List.filter_eq_nil_iff]
        intro x hx
        have := h.link.back x hx
        simp only [decide_eq_true_eq]
        omega
      show if e = c.epoch then posted [] = done ++ p.port.filter (·.epoch = c.epoch) else done = []
      rw [hd, hno]
      split <;> rfl
  -- a message that leaves the epoch, the messages and the rounds of the worker
  have same : ∀ p' : Player, p.receive ps m = p' → p'.epoch = p.epoch → p'.port = p.port →
      p'.hist = p.hist → p'.round = p.round →
      Tracked (Sys.onProxy s (·.setPort ms) c) s (p.receive ps m) := by
    intro p' hr hpe h1 h2 h3
    rw [hr] at hlink ⊢
    refine ⟨hlink, h.round, h.cached, by rw [hport]; exact hsent, ?_, by rw [h2, h3]; exact h.last,
      by rw [h2]; exact h.tagged, caps, done, hseen'.trans hseen, ?_⟩
    · rw [hpe, h2]
      exact h.granted
    · rw [hpe, h1, h2]
      exact hd
  cases m with
  | init e f g => exact new e false rfl rfl
  | reset e => exact new e true rfl rfl
  | pull e sel => exact same p rfl rfl rfl rfl rfl
  | entries e es => exact same (p.feed es) (if_pos (h.link.delivered hp rfl)) rfl rfl rfl rfl
  | grant e g =>
    have he : e = p.epoch := h.link.delivered hp rfl
    have hr : p.receive ps (.grant e g) = p.grant g := if_pos he
    rw [hr] at hlink ⊢
    refine ⟨hlink, h.round, h.cached, by rw [hport]; exact hsent, ?_, lastRound_granted _ _, ?_,
      caps, done, hseen'.trans hseen, ?_⟩
    · intro hep g' hg'
      rcases List.mem_append.mp hg' with hg' | hg'
      · exact h.granted hep g' hg'
      · have hgg : g' = g := by simpa using hg'
        have hec : e = c.epoch := he.trans hep
        exact hgg ▸ h.sent g (hp ▸ hec ▸ List.mem_cons_self)
    · exact h.tagged.append (by simp)
    · show if p.epoch = c.epoch then posted (p.hist ++ [.granted g]) = _ else _
      rw [posted_append, show posted [Act.granted g] = [] from rfl, List.append_nil]
      exact hd

theorem call (V : World σ γ) {i : Input n} {f : Lockstep γ n → Lockstep γ n}
    (hf : i.call V = some f) (hi : i.fixed = true) (h : Tracked c s p) : Tracked (f c) s p := by
  by_cases hk : i.keepsEpoch = true
  · have hlink := h.link.call V hf hk
    obtain ⟨he, hs⟩ := call_sends V hf hk c
    obtain ⟨ms, hms, hpl, hgr, -⟩ := hs s
    rw [h.link.proxy] at hpl
    have hround := call_round V hf hk c
    have hcached := hround.2 s h.cached
    have hle : c.round ≤ (f c).round := by
      rcases hround.1 with hr | ⟨hr, -⟩ <;> omega
    refine ⟨hlink, le_trans h.round hle, hcached, ?_, ?_, h.last, h.tagged, ?_⟩
    · rw [hms, he]
      intro g hg
      rcases List.mem_append.mp hg with hg | hg
      · exact le_trans (h.sent g hg) hle
      · exact hcached g (hgr _ g hg)
    · rw [he]
      exact fun hep g hg => le_trans (h.granted hep g hg) hle
    · rw [hms, he]
      exact h.seen
  · cases i <;> simp only [Input.call, Option.some.injEq, reduceCtorEq, Input.keepsEpoch,
      not_true, not_false_iff, Input.fixed] at hf hk hi
    subst hf
    have hle := h.link.epoch_le
    refine ⟨h.link.toLink.reset V.churn, le_refl _, fun g hg => absurd hg (by simp [Lockstep.reset]),
      ?_, ?_, h.last, h.tagged, (c.proxies s).telemetry.caps, [], rfl, ?_⟩
    · intro g hg
      rcases List.mem_append.mp hg with hg | hg
      · exact absurd (h.link.chan.epoch_le _ hg) (by simp [C2W.epoch, Lockstep.reset])
      · exact absurd hg (by simp)
    · intro hep
      exact absurd hep (by simp only [Lockstep.reset]; omega)
    · rw [if_neg (by simp only [Lockstep.reset]; omega)]

theorem step (V : World σ γ) (S : Sys σ γ n) {i : Input n} (hi : i.fixed = true)
    (h : ∀ s, Tracked S.c s (S.player s)) :
    ∀ s, Tracked (S.step V i).c s ((S.step V i).player s) :=
  Sys.step_each V S i (fun _ _ _ f _ ht h => h.frame ht f)
    (fun _ hf h s => (h s).call V hf hi) (fun _ _ _ _ ps _ hp h => h.receive hp ps)
    (fun _ _ _ _ _ _ _ _ he h => h.apply he) (fun _ _ _ _ hp h => h.back_of hp) h

theorem init (churn : γ) (ratio : ℚ) (info : Fin n → String × Geometry) (s : Fin n) :
    Tracked (Sys.init (σ := σ) churn ratio info).c s ((Sys.init (σ := σ) churn ratio info).player s) where
  link := ⟨Link.init churn ratio info s, fun _ _ => show (-1 : Int) < 0 by decide, trivial⟩
  round := le_refl _
  cached := fun _ h => absurd h (by simp [Sys.init, Lockstep.create])
  sent := fun g h => absurd h (by simp [Sys.init, Lockstep.create, Proxy.init, Proxy.send,
    Proxy.setEpoch])
  granted := fun _ g h => absurd h (by simp [Sys.init, Sys.player, Worker.core])
  last := rfl
  tagged := fun h₁ e a h₂ heq => absurd heq (by simp [Sys.init, Sys.player, Worker.core])
  seen := ⟨none, [], rfl, rfl⟩

theorem run (V : World σ γ) (churn : γ) (ratio : ℚ) (info : Fin n → String × Geometry)
    {is : List (Input n)} (hfix : ∀ i ∈ is, i.fixed = true) (s : Fin n) :
    Tracked (Sys.after V churn ratio info is).c s ((Sys.after V churn ratio info is).player s) :=
  Machine.run_inv (P := fun S : Sys σ γ n => ∀ s, Tracked S.c s (S.player s))
    (fun S _ hi h => step V S hi h) (Machine.Along.of_forall hfix _) (init churn ratio info) s

/-- An ack that the proxy has merged carries a round that was granted, or none. -/
theorem ack_round (h : Tracked c s p) (hep : p.epoch = c.epoch) {e : Int} {a : GrantAck}
    (ha : .grantAck e a ∈ posted p.hist) : a.round ≤ c.round := by
  obtain ⟨l₁, l₂, hl⟩ := List.append_of_mem ha
  obtain ⟨h₁, h₂, heq, -, -⟩ := posted_split hl
  rw [h.tagged h₁ e a h₂ heq]
  by_cases hr : lastRound h₁ = -1
  · rw [hr]
    exact le_trans (by decide) h.round
  · obtain ⟨k₁, g, k₂, hk, hg⟩ := granted_of_lastRound hr
    rw [← hg]
    refine h.granted hep g ?_
    rw [heq, hk]
    simp

theorem acked_round (h : Tracked c s p) : (c.acked s).round ≤ c.round := by
  obtain ⟨caps, done, hseen, hd⟩ := h.seen
  have hack : c.acked s = (acksOf done).foldl Acked.merge {} := by
    show (c.proxies s).seen.acked = _
    rw [hseen, foldl_take_acked]
    rfl
  rw [hack]
  rcases foldl_merge_from (f := (·.round)) (g := (·.round)) (fun _ _ => rfl) (acksOf done) {} with
    h0 | ⟨a, ha, h0⟩
  · rw [h0]
    exact le_trans (by decide) h.round
  · rw [h0]
    obtain ⟨e, he⟩ := mem_acksOf ha
    split at hd
    · rename_i hep
      exact h.ack_round hep (hd ▸ List.mem_append_left _ he)
    · rw [hd] at he
      exact absurd he (by simp)

end Tracked

/-! ## the theorem -/

/-- Every value that a proxy shows (the capabilities of the module apart) is its reset value or
comes from a message of `l`. -/
structure Proxy.From (l : List W2C) (p : Proxy) : Prop where
  round : p.acked.round = -1 ∨ ∃ a ∈ acksOf l, p.acked.round = a.round
  playbackNs : p.acked.playbackNs = 0 ∨ ∃ a ∈ acksOf l, p.acked.playbackNs = a.playbackNs
  cursor : p.acked.cursor = 0 ∨ ∃ a ∈ acksOf l, p.acked.cursor = a.cursor
  entriesDrained : p.acked.entriesDrained = -1 ∨
    ∃ a ∈ acksOf l, p.acked.entriesDrained = a.entriesDrained
  fileOpCount : p.acked.fileOpCount = 0 ∨ ∃ a ∈ acksOf l, p.acked.fileOpCount = a.fileOpCount
  flashTimeNs : p.acked.flashTimeNs = 0 ∨ ∃ a ∈ acksOf l, p.acked.flashTimeNs = a.flashTimeNs
  telemetry : { p.telemetry with caps := none } = {} ∨
    ∃ e t, .telemetry e t ∈ l ∧ p.telemetry = Telemetry.merge {} t
  frame : p.frame = none ∨ ∃ e f, .frame e f ∈ l ∧ p.frame = some f

namespace Sys
variable {σ γ : Type} {n : Nat}

/-- What worker `s` has posted since it handled the RESET (or INIT) of the current epoch. -/
def sentNow (S : Sys σ γ n) (s : Fin n) : List W2C :=
  if (S.w s).epoch = S.c.epoch then posted (S.w s).hist else []

/-- The acked state of session `s` is what its worker had acked by some moment of the current
epoch, after it handled a grant of round `r`. -/
def AckedAfter (S : Sys σ γ n) (s : Fin n) (r : Int) : Prop :=
  (S.w s).epoch = S.c.epoch ∧ ∃ h₁ g h₂ e a h₃, g.round = r ∧
    (S.w s).hist = (h₁ ++ .granted g :: h₂) ++ .posted (.grantAck e a) :: h₃ ∧
    S.c.acked s =
      (acksOf (posted ((h₁ ++ .granted g :: h₂) ++ [.posted (.grantAck e a)]))).foldl Acked.merge {}

end Sys

namespace Tracked
variable {σ γ : Type} {n : Nat}

theorem from_sentNow {S : Sys σ γ n} {s : Fin n} (h : Tracked S.c s (S.player s)) :
    (S.c.proxies s).From (S.sentNow s) := by
  obtain ⟨caps, done, hseen, hd⟩ := h.seen
  have hsub : ∀ m ∈ done, m ∈ S.sentNow s := by
    intro m hm
    unfold Sys.sentNow
    split at hd
    · rename_i hep
      rw [if_pos (show (S.w s).epoch = S.c.epoch from hep),
        show (S.w s).hist = (S.player s).hist from rfl, hd]
      exact List.mem_append_left _ hm
    · rw [hd] at hm
      exact absurd hm (by simp)
  have hack : (S.c.proxies s).acked = (acksOf done).foldl Acked.merge {} := by
    show (S.c.proxies s).seen.acked = _
    rw [hseen, foldl_take_acked]
    rfl
  have hfield : ∀ {α : Type} [LinearOrder α] (f : Acked → α) (g : GrantAck → α),
      (∀ a m, f (a.merge m) = max (f a) (g m)) → f (S.c.proxies s).acked = f {} ∨
        ∃ a ∈ acksOf (S.sentNow s), f (S.c.proxies s).acked = g a := by
    intro α _ f g hfg
    rw [hack]
    rcases foldl_merge_from hfg (acksOf done) {} with h0 | ⟨a, ha, h0⟩
    · exact .inl h0
    · obtain ⟨m, hm, hma⟩ := List.mem_filterMap.mp ha
      exact .inr ⟨a, List.mem_filterMap.mpr ⟨m, hsub m hm, hma⟩, h0⟩
  refine ⟨hfield (·.round) (·.round) fun _ _ => rfl,
    hfield (·.playbackNs) (·.playbackNs) fun _ _ => rfl,
    hfield (·.cursor) (·.cursor) fun _ _ => rfl,
    hfield (·.entriesDrained) (·.entriesDrained) fun _ _ => rfl,
    hfield (·.fileOpCount) (·.fileOpCount) fun _ _ => rfl,
    hfield (·.flashTimeNs) (·.flashTimeNs) fun _ _ => rfl, ?_, ?_⟩
  · have ht : (S.c.proxies s).telemetry = (done.foldl Seen.take (Seen.reset caps)).telemetry := by
      rw [← hseen]
      rfl
    rcases foldl_take_telemetry done (Seen.reset caps) with h0 | ⟨e, t, hmem, h0⟩
    · exact .inl (by rw [ht, h0]; rfl)
    · exact .inr ⟨e, t, hsub _ hmem, ht.trans h0⟩
  · have hf : (S.c.proxies s).frame = (done.foldl Seen.take (Seen.reset caps)).frame := by
      rw [← hseen]
      rfl
    rcases foldl_take_frame done (Seen.reset caps) with h0 | ⟨e, f, hmem, h0⟩
    · exact .inl (hf.trans h0)
    · exact .inr ⟨e, f, hsub _ hmem, hf.trans h0⟩

theorem last_ack {l : List W2C} (h : acksOf l ≠ []) : ∃ l₁ e a l₂,
    l = l₁ ++ .grantAck e a :: l₂ ∧ acksOf l₂ = [] := by
  induction l with
  | nil => exact absurd rfl h
  | cons m l ih =>
    by_cases hl : acksOf l = []
    · cases m with
      | grantAck e a => exact ⟨[], e, a, l, rfl, hl⟩
      | telemetry e t => exact absurd hl h
      | frame e f => exact absurd hl h
    · obtain ⟨l₁, e, a, l₂, heq, h2⟩ := ih hl
      exact ⟨m :: l₁, e, a, l₂, by rw [heq]; rfl, h2⟩

/-- A session that has acked the current round acked it after it handled a grant of that round. -/
theorem ackedAfter {S : Sys σ γ n} {s : Fin n} (h : Tracked S.c s (S.player s))
    (hr : S.c.round ≤ (S.c.acked s).round) : S.AckedAfter s S.c.round := by
  obtain ⟨caps, done, hseen, hd⟩ := h.seen
  have hround := h.round
  have hack : S.c.acked s = (acksOf done).foldl Acked.merge {} := by
    show (S.c.proxies s).seen.acked = _
    rw [hseen, foldl_take_acked]
    rfl
  -- the ack that carries the current round
  rcases foldl_merge_from (f := (·.round)) (g := (·.round)) (fun _ _ => rfl) (acksOf done) {} with
    h0 | ⟨a₀, ha₀, h0⟩
  · rw [hack, h0] at hr
    exact absurd (le_trans hround hr) (by decide)
  obtain ⟨e₀, he₀⟩ := mem_acksOf ha₀
  split at hd
  swap
  · rw [hd] at he₀
    exact absurd he₀ (by simp)
  rename_i hep
  have ha₀r : a₀.round = S.c.round := by
    refine le_antisymm (h.ack_round hep (e := e₀) (hd ▸ List.mem_append_left _ he₀)) ?_
    rw [← h0, ← hack]
    exact hr
  -- the last ack that was delivered
  obtain ⟨l₁, e, a, l₂, hdone, hl₂⟩ := last_ack (fun hnil => by rw [hnil] at ha₀; exact absurd ha₀ (by simp))
  have hposted : posted (S.player s).hist = l₁ ++ .grantAck e a ::
      (l₂ ++ (S.player s).port.filter (·.epoch = S.c.epoch)) := by
    rw [hd, hdone, List.append_assoc]
    rfl
  obtain ⟨k₁, k₂, hk, hk₁, -⟩ := posted_split hposted
  -- a grant of that round was handled before it
  have hgr : ∃ h₁ g h₂, k₁ = h₁ ++ .granted g :: h₂ ∧ g.round = S.c.round := by
    have hmem : W2C.grantAck e₀ a₀ ∈ l₁ ∨ a₀ = a := by
      rw [hdone] at he₀
      rcases List.mem_append.mp he₀ with hm | hm
      · exact .inl hm
      · rcases List.mem_cons.mp hm with hm | hm
        · rw [W2C.grantAck.injEq] at hm
          exact .inr hm.2
        · have : a₀ ∈ acksOf l₂ := List.mem_filterMap.mpr ⟨_, hm, rfl⟩
          rw [hl₂] at this
          exact absurd this (by simp)
    rcases hmem with hm | rfl
    · obtain ⟨m₁, m₂, hm⟩ := List.append_of_mem (hk₁ ▸ hm)
      obtain ⟨j₁, j₂, hj, -, -⟩ := posted_split hm
      have hlr : a₀.round = lastRound j₁ :=
        h.tagged j₁ e₀ a₀ (j₂ ++ .posted (.grantAck e a) :: k₂) (by
          rw [hk, hj, List.append_assoc]
          rfl)
      obtain ⟨i₁, g, i₂, hi, hg⟩ := granted_of_lastRound (h := j₁) (by rw [← hlr, ha₀r]; omega)
      refine ⟨i₁, g, i₂ ++ .posted (.grantAck e₀ a₀) :: j₂, ?_, by rw [hg, ← hlr, ha₀r]⟩
      rw [hj, hi, List.append_assoc]
      rfl
    · have hlr : a₀.round = lastRound k₁ := h.tagged k₁ e a₀ k₂ hk
      obtain ⟨i₁, g, i₂, hi, hg⟩ := granted_of_lastRound (h := k₁) (by rw [← hlr, ha₀r]; omega)
      exact ⟨i₁, g, i₂, hi, by rw [hg, ← hlr, ha₀r]⟩
  obtain ⟨h₁, g, h₂, hk₁', hg⟩ := hgr
  refine ⟨hep, h₁, g, h₂, e, a, k₂, hg, by rw [← hk₁']; exact hk, ?_⟩
  rw [hack, ← hk₁', posted_append, hk₁, hdone, acksOf_append, acksOf_append]
  congr 1
  show acksOf l₁ ++ (a :: acksOf l₂) = _
  rw [hl₂]
  rfl

end Tracked

section
variable {σ γ : Type} {n : Nat}

/-- **Epoch isolation.** Over a fixed set of sessions and any delays, what a proxy shows comes
from the current epoch of its worker, acked rounds stay behind the coordinator's, and grants of
the next round are derived only from acks that follow a grant of the current one. -/
theorem epoch_isolation (V : World σ γ) (churn : γ) (ratio : ℚ) (info : Fin n → String × Geometry)
    (is : List (Input n)) (hfix : ∀ i ∈ is, i.fixed = true) :
    let S := Sys.after V churn ratio info is
    (∀ s, (S.c.proxies s).From (S.sentNow s) ∧ (S.c.acked s).round ≤ S.c.round) ∧
    ∀ i, i.fixed = true → ∀ t g, (S.step V i).c.cached t = some g → S.c.round < g.round →
      g.round = S.c.round + 1 ∧ ∀ s, S.AckedAfter s S.c.round := by
  intro S
  have hT : ∀ s, Tracked S.c s (S.player s) := Tracked.run V churn ratio info hfix
  refine ⟨fun s => ⟨(hT s).from_sentNow, (hT s).acked_round⟩, fun i hi t g hg hlt => ?_⟩
  have hle : g.round ≤ (S.step V i).c.round := (Tracked.step V S hi hT t).cached g hg
  cases hf : i.call V with
  | none =>
    rw [Sys.step_cached V S hf] at hg
    exact absurd ((hT t).cached g hg) (not_le.mpr hlt)
  | some f =>
    rw [Sys.step_call V S hf] at hle hg
    change g.round ≤ (f S.c).round at hle
    change (f S.c).cached t = some g at hg
    by_cases hk : i.keepsEpoch = true
    · rcases (call_round V hf hk S.c).1 with hr | ⟨hr, hall⟩
      · rw [hr] at hle
        exact absurd hle (not_le.mpr hlt)
      · exact ⟨by omega, fun s => (hT s).ackedAfter (hall s)⟩
    · cases i <;> simp only [Input.call, Option.some.injEq, reduceCtorEq, Input.keepsEpoch,
        not_true, not_false_iff, Input.fixed] at hf hk hi
      subst hf
      exact absurd hg (by simp [Lockstep.reset])

end

/-- A reset while grants to both workers and an ack of the first are on their way: all of these
arrive after it, the second worker handles the old grant before the RESET, and a grant of the new
epoch is handled and acked by both. -/
def crossed (s t : Fin 2) : List (Input 2) :=
  [.toWorker s 0, .toWorker t 0, .frame, .toWorker s 0, .toWorker t 0, .toProxy t, .frame, .reset,
    .frame, .toProxy s, .toWorker t 0, .toWorker t 0, .toWorker s 0, .toWorker s 0, .toProxy s,
    .toWorker t 0, .toWorker s 0, .toProxy t, .toProxy s, .toProxy t]

/-- The next frame derives round 1 of the second epoch, from acks of that epoch alone. -/
theorem epoch_isolation_crossed :
    let S := Sys.after writingWorld () 0 fastAndSlow (crossed 0 1)
    S.c.epoch = 1 ∧ S.c.round = 0 ∧ ∀ s, S.AckedAfter s 0 :=
  ⟨by decide +kernel, by decide +kernel,
    ((epoch_isolation writingWorld () 0 fastAndSlow (crossed 0 1) (by decide)).2 .frame rfl 0
      { round := 1, entryLimit := 1, playLimitNs := ((1000000 / 3 : ℚ) : Limit), scale := 20000 }
      (by decide +kernel) (by decide +kernel)).2⟩

end FlashVis

import FlashVis.Player.Forward
import FlashVis.Player.Runs
import FlashVis.System.Epoch
import FlashVis.System.Pace

/-!
# The acked state is the last ack

A proxy keeps the maximum of every field.  Over a run whose moves are `Move.forward` the acks of an
epoch rise in every field, so the maximum is the last ack handled.

* `merge_last`       merging acks that rise keeps the last one;
* `Latest c s p`     the rounds on their way to worker `s` rise, and so do its acks;
* `acked_last`       what a proxy shows is the last ack of those it has handled.
-/

namespace FlashVis

/-- The fields of an ack, as a proxy keeps them. -/
def GrantAck.fields (a : GrantAck) : Acked where
  round := a.round
  playbackNs := a.playbackNs
  cursor := a.cursor
  entriesDrained := a.entriesDrained
  fileOpCount := a.fileOpCount
  flashTimeNs := a.flashTimeNs

/-- The fields of the last ack of a list; what a proxy has before any, for none. -/
def lastAcked (l : List GrantAck) : Acked := (l.getLast?.getD .unset).fields

@[simp] theorem lastAcked_concat (l : List GrantAck) (a : GrantAck) :
    lastAcked (l ++ [a]) = a.fields := by
  simp [lastAcked]

theorem GrantAck.Le.merge {a b : GrantAck} (h : a.Le b) : a.fields.merge b = b.fields := by
  simp only [Acked.merge, fields, max_eq_right h.round, max_eq_right h.playbackNs,
    max_eq_right h.cursor, max_eq_right h.entriesDrained, max_eq_right h.fileOpCount,
    max_eq_right h.flashTimeNs]

/-- **Merging acks that rise keeps the last one.** -/
theorem merge_last {l : List GrantAck} (h : (.unset :: l).Pairwise GrantAck.Le) :
    l.foldl Acked.merge {} = lastAcked l := by
  induction l using List.reverseRecOn with
  | nil => rfl
  | append_singleton l a ih =>
    rw [← List.cons_append, List.pairwise_append] at h
    obtain ⟨hl, -, hcross⟩ := h
    rw [List.foldl_append, ih hl, lastAcked_concat]
    -- the ack before is the last of `l`, or there is none
    have hle : (l.getLast?.getD .unset).Le a := by
      refine hcross _ ?_ a List.mem_cons_self
      cases hlast : l.getLast? with
      | none => exact List.mem_cons_self
      | some b => exact List.mem_cons_of_mem _ (List.mem_of_getLast? hlast)
    exact hle.merge

/-! ## rounds -/

/-- The round that a worker has in epoch `E`. -/
def Player.roundIn (E : Int) (p : Player) : Int := if p.epoch = E then p.round else -1

theorem Player.roundIn_eq {E : Int} {p : Player} (h : p.epoch = E) : p.roundIn E = p.round := if_pos h

theorem Player.roundIn_ne {E : Int} {p : Player} (h : p.epoch ≠ E) : p.roundIn E = -1 := if_neg h

/-- The rounds of session `s`, from what its worker holds to what was sent last. -/
def roundsOf {γ : Type} {n : Nat} (c : Lockstep γ n) (s : Fin n) (p : Player) : List Int :=
  p.roundIn c.epoch :: (grantsOf c.epoch (c.proxies s).port).map (·.round)

/-- The round of the cached grant. -/
def Lockstep.cachedRound {γ : Type} {n : Nat} (c : Lockstep γ n) (s : Fin n) : Int :=
  ((c.cached s).map (·.round)).getD (-1)

section
variable {σ γ : Type} {n : Nat}

/-- A call that keeps the epoch keeps the cached grants, or derives them for the current round or a
later one. -/
theorem call_cached (V : World σ γ) {i : Input n} {f : Lockstep γ n → Lockstep γ n}
    (hf : i.call V = some f) (hk : i.keepsEpoch = true) (c : Lockstep γ n) (s : Fin n) :
    (f c).cached s = c.cached s ∨ ∃ g, (f c).cached s = some g ∧ c.round ≤ g.round := by
  have hframe : ∀ c : Lockstep γ n, (c.frame V.churn).cached s = c.cached s ∨
      ∃ g, (c.frame V.churn).cached s = some g ∧ c.round ≤ g.round := by
    intro c
    obtain ⟨P, sh, ⟨-, -, h⟩ | ⟨r, hr, h⟩⟩ := Lockstep.frame_cases (G := V.churn) (Fin.pos_ne s) c
    · exact .inl (by rw [h])
    · refine .inr ⟨_, by rw [h]; exact Lockstep.computeGrants_cached r (c.entering r) s, ?_⟩
      rw [Lockstep.grantOf_round]
      rcases hr with ⟨-, rfl⟩ | ⟨-, rfl, -⟩ <;> omega
  cases i <;> simp only [Input.call, Option.some.injEq, reduceCtorEq] at hf <;> subst hf
  case frame => exact hframe c
  case setMode m =>
    refine .inl ?_
    dsimp only
    unfold Lockstep.setMode
    split
    · rfl
    · cases m <;> rfl
  case setSpeed v =>
    refine .inl ?_
    dsimp only
    unfold Lockstep.setSpeed
    split <;> rfl
  case step =>
    obtain ⟨l, r, g, x, y, z, -, hnud⟩ := Lockstep.nudged_eq V.churn c
    have h := hframe (c.nudged V.churn)
    rw [show (c.nudged V.churn).cached = c.cached by rw [hnud],
      show (c.nudged V.churn).round = c.round by rw [hnud]] at h
    exact h
  case reset => exact absurd hk (by simp [Input.keepsEpoch])
  case rejoin t => exact absurd hk (by simp [Input.keepsEpoch])
  all_goals exact .inl rfl

end

/-- Session `s`: the rounds it was granted rise, and in the current epoch so do its acks. -/
structure Latest {γ : Type} {n : Nat} (c : Lockstep γ n) (s : Fin n) (p : Player) : Prop where
  tracked : Tracked c s p
  standing : p.Standing
  rising : (roundsOf c s p).Pairwise (· ≤ ·)
  top : ∀ x ∈ roundsOf c s p, x ≤ c.cachedRound s
  now : p.epoch = c.epoch → p.Forward

namespace Latest
variable {σ γ : Type} {n : Nat} {c : Lockstep γ n} {s : Fin n} {p : Player}

theorem of_rounds {c' : Lockstep γ n} {q : Player} (h : Latest c s p) (ht : Tracked c' s q)
    (hst : q.Standing) (hr : roundsOf c' s q = roundsOf c s p) (hc : c'.cached s = c.cached s)
    (hnow : q.epoch = c'.epoch → q.Forward) : Latest c' s q := by
  refine ⟨ht, hst, by rw [hr]; exact h.rising, ?_, hnow⟩
  unfold Lockstep.cachedRound
  rw [hr, hc]
  exact h.top

theorem apply (h : Latest c s p) {m : Move} (he : p.Enabled m) (hm : m.forward p) :
    Latest c s (p.apply m) := by
  have hf := Player.apply_frame p m
  refine h.of_rounds (h.tracked.apply he) (h.standing.apply he) ?_ rfl fun hep => ?_
  · unfold roundsOf Player.roundIn
    rw [hf.epoch, hf.round]
  · exact (h.now (hf.epoch ▸ hep)).apply he hm

theorem frame {t : Fin n} (ht : t ≠ s) (f : Proxy → Proxy) (h : Latest c t p) :
    Latest (Sys.onProxy s f c) t p := by
  refine h.of_rounds (h.tracked.frame ht f) h.standing ?_ rfl h.now
  unfold roundsOf
  rw [Sys.onProxy_ne ht]
  rfl

theorem back_of (h : Latest c s p) {m : W2C} {ms : List W2C} (hp : p.port = m :: ms) :
    Latest (Sys.onProxy s (·.handle m) c) s (p.setPort ms) := by
  have hst : (p.setPort ms).Standing := ⟨h.standing.indexed, h.standing.arrived, h.standing.cmd,
    h.standing.playable, h.standing.drained, h.standing.marked⟩
  refine h.of_rounds (h.tracked.back_of hp) hst ?_ rfl fun hep => ?_
  · unfold roundsOf
    rw [Sys.onProxy_same, Proxy.handle_port]
    rfl
  · have hnow := h.now hep
    exact ⟨hst, ⟨hnow.queued.sorted, hnow.queued.above⟩, hnow.rising, hnow.told⟩

theorem receive (h : Latest c s p) {m : C2W} {ms : List C2W} (hp : (c.proxies s).port = m :: ms)
    (ps : Option Nat) : Latest (Sys.onProxy s (·.setPort ms) c) s (p.receive ps m) := by
  have htracked := h.tracked.receive hp ps
  have hst := h.standing.receive ps m
  have hrest : ((Sys.onProxy s (·.setPort ms) c).proxies s).port = ms := by
    rw [Sys.onProxy_same]
    rfl
  -- the rounds on the way, when the message is not a grant of this epoch
  have same : ∀ q : Player, (∀ g, m ≠ .grant c.epoch g) → q.roundIn c.epoch = p.roundIn c.epoch →
      roundsOf (Sys.onProxy s (·.setPort ms) c) s q = roundsOf c s p := by
    intro q hm hq
    have hgs : grantsOf c.epoch (c.proxies s).port = grantsOf c.epoch ms := by
      rw [hp]
      unfold grantsOf
      rw [List.filterMap_cons_none]
      cases m with
      | grant e g =>
        refine if_neg fun he => ?_
        exact hm g (by rw [he])
      | init _ _ _ | entries _ _ | pull _ _ | reset _ => rfl
    show q.roundIn c.epoch :: _ = _
    rw [hq, hrest, show (Sys.onProxy s (·.setPort ms) c).epoch = c.epoch from rfl, ← hgs]
    rfl
  -- in the current epoch the worker takes the message with its acks in order
  have live : p.epoch = c.epoch → (∀ g, m = .grant p.epoch g → p.round ≤ g.round) →
      (p.receive ps m).Forward := fun hep hr => (h.now hep).receive ps m hr
  have harr := h.tracked.link.arrival hp ps
  generalize p.receive ps m = q at htracked hst live harr ⊢
  cases harr with
  | feed es now hm =>
    refine h.of_rounds htracked hst (same _ (by simp [hm]) rfl) rfl fun _ => ?_
    exact live now fun g hg => absurd (hm.symm.trans hg) (by simp)
  | pull sel now hm =>
    refine h.of_rounds htracked hst (same _ (by simp [hm]) rfl) rfl fun _ => ?_
    exact live now fun g hg => absurd (hm.symm.trans hg) (by simp)
  | fresh keep before hm =>
    refine h.of_rounds htracked hst (same _ ?_ ?_) rfl fun _ => .of_start hst rfl rfl rfl
    · exact fun g hg => absurd hm (by simp [hg, C2W.transition])
    · rw [Player.roundIn_ne (ne_of_lt before)]
      exact Player.roundIn_eq (p := p.fresh c.epoch keep ps) rfl
  | early q before after hm =>
    refine h.of_rounds htracked hst (same _ ?_ ?_) rfl fun hep => absurd hep (ne_of_lt after)
    · exact fun g hg => absurd hm (by simp [hg, C2W.epoch])
    · rw [Player.roundIn_ne (ne_of_lt before), Player.roundIn_ne (ne_of_lt after)]
  | grant g now hm =>
    have hgs : grantsOf c.epoch (c.proxies s).port = g :: grantsOf c.epoch ms := by
      rw [hp, hm]
      simp [grantsOf]
    have hrs' : roundsOf (Sys.onProxy s (·.setPort ms) c) s (p.grant g)
        = g.round :: (grantsOf c.epoch ms).map (·.round) := by
      unfold roundsOf
      rw [hrest, show (Sys.onProxy s (·.setPort ms) c).epoch = c.epoch from rfl,
        Player.roundIn_eq (p := p.grant g) now]
      rfl
    have hrs : roundsOf c s p = p.round :: roundsOf (Sys.onProxy s (·.setPort ms) c) s (p.grant g) := by
      rw [hrs']
      unfold roundsOf
      rw [Player.roundIn_eq now, hgs, List.map_cons]
    have hrise := h.rising
    have htop := h.top
    rw [hrs] at hrise htop
    obtain ⟨hfirst, hrise⟩ := List.pairwise_cons.mp hrise
    refine ⟨htracked, hst, hrise, fun x hx => htop x (List.mem_cons_of_mem _ hx), fun _ => ?_⟩
    refine live now fun g' hg' => ?_
    obtain ⟨-, rfl⟩ := C2W.grant.inj (hm.symm.trans hg')
    exact hfirst _ (by rw [hrs']; exact List.mem_cons_self)

theorem call (V : World σ γ) {i : Input n} {f : Lockstep γ n → Lockstep γ n}
    (hf : i.call V = some f) (hi : i.fixed = true) (h : Latest c s p) : Latest (f c) s p := by
  have htracked := h.tracked.call V hf hi
  by_cases hk : i.keepsEpoch = true
  · obtain ⟨he, hs⟩ := call_sends V hf hk c
    obtain ⟨ms, hms⟩ := hs s
    have hrs : roundsOf (f c) s p = roundsOf c s p ++ (grantsOf c.epoch ms).map (·.round) := by
      unfold roundsOf
      rw [hms.proxy, he, Proxy.sendAll_port, grantsOf_append, List.map_append]
      rfl
    -- everything granted so far is of the cached round at most, and that does not fall
    have hup : c.cachedRound s ≤ (f c).cachedRound s := by
      unfold Lockstep.cachedRound
      rcases call_cached V hf hk c s with hc | ⟨g, hc, hg⟩
      · rw [hc]
      · rw [hc]
        cases hold : c.cached s with
        | none => exact le_trans (by decide : (-1 : Int) ≤ 0) (h.tracked.round.trans hg)
        | some g' => exact (h.tracked.cached g' hold).trans hg
    have hnew : ∀ x ∈ (grantsOf c.epoch ms).map (·.round), x = (f c).cachedRound s := by
      intro x hx
      obtain ⟨g, hg, rfl⟩ := List.mem_map.mp hx
      unfold Lockstep.cachedRound
      rw [hms.grants _ g (mem_grantsOf.mp hg)]
      rfl
    refine ⟨htracked, h.standing, ?_, fun x hx => ?_, fun hep => h.now (he ▸ hep)⟩
    · rw [hrs, List.pairwise_append]
      refine ⟨h.rising, List.pairwise_of_forall_mem_list fun x hx y hy => ?_, fun x hx y hy => ?_⟩
      · rw [hnew x hx, hnew y hy]
      · rw [hnew y hy]
        exact (h.top x hx).trans hup
    · rw [hrs] at hx
      rcases List.mem_append.mp hx with hx | hx
      · exact (h.top x hx).trans hup
      · exact le_of_eq (hnew x hx)
  · cases i <;> simp only [Input.call, Option.some.injEq, reduceCtorEq, Input.keepsEpoch,
      not_true, not_false_iff, Input.fixed] at hf hk hi
    subst hf
    have hlt : p.epoch < c.epoch + 1 := Int.lt_add_one_of_le h.tracked.link.epoch_le
    have hrs : roundsOf (c.reset V.churn) s p = [-1] := by
      have hnone : grantsOf (c.epoch + 1) (((c.reset V.churn).proxies s).port) = [] := by
        rw [List.eq_nil_iff_forall_not_mem]
        intro g hg
        rcases List.mem_append.mp (mem_grantsOf.mp hg) with hg | hg
        · exact absurd (h.tracked.link.chan.epoch_le _ hg) (by simp [C2W.epoch])
        · exact absurd hg (by simp)
      show p.roundIn (c.epoch + 1) :: (grantsOf (c.epoch + 1) _).map _ = _
      rw [hnone, Player.roundIn_ne (ne_of_lt hlt)]
      rfl
    refine ⟨htracked, h.standing, ?_, ?_, fun hep => absurd hep (ne_of_lt hlt)⟩
    · rw [hrs]
      exact List.pairwise_singleton _ _
    · rw [hrs]
      intro x hx
      rw [List.mem_singleton.mp hx]
      exact le_refl _

theorem init (churn : γ) (ratio : ℚ) (info : Fin n → String × Geometry) (s : Fin n) :
    Latest (Sys.init (σ := σ) churn ratio info).c s
      ((Sys.init (σ := σ) churn ratio info).player s) := by
  refine ⟨.init churn ratio info s, .start, List.pairwise_singleton _ _, fun x hx => ?_,
    fun hep => absurd hep (by show ¬(-1 : Int) = 0; decide)⟩
  rw [List.mem_singleton.mp hx]
  exact le_refl _

theorem step (V : World σ γ) (S : Sys σ γ n) {i : Input n} (hi : i.fixed = true)
    (hT : S.heeds Move.forward V i) (h : ∀ s, Latest S.c s (S.player s)) :
    ∀ s, Latest (S.step V i).c s ((S.step V i).player s) :=
  Sys.heeds_each V S i hT (fun _ _ _ f _ ht h => h.frame ht f)
    (fun _ hf h s => (h s).call V hf hi) (fun _ _ _ _ ps _ hp h => h.receive hp ps)
    (fun _ _ _ _ _ _ _ _ he hm h => h.apply he hm) (fun _ _ _ _ hp h => h.back_of hp) h

/-- What is acked is the last of the acks posted in this epoch that are no longer on their way. -/
theorem acked_eq (h : Latest c s p) : ∃ done,
    (if p.epoch = c.epoch then posted p.hist else []) = done ++ p.port.filter (·.epoch = c.epoch) ∧
      c.acked s = lastAcked (acksOf done) := by
  obtain ⟨caps, done, hseen, hd⟩ := h.tracked.seen
  have hack : c.acked s = (acksOf done).foldl Acked.merge {} := by
    show (c.proxies s).seen.acked = _
    rw [hseen, foldl_take_acked]
    rfl
  refine ⟨done, ?_, ?_⟩
  · split at hd
    · rename_i hep
      rw [if_pos hep, hd]
    · rename_i hep
      rw [if_neg hep, hd]
      symm
      rw [List.nil_append, List.filter_eq_nil_iff]
      intro m hm
      have hle := h.tracked.link.back m hm
      have hepoch := h.tracked.link.epoch_le
      simp only [decide_eq_true_eq]
      omega
  · rw [hack]
    split at hd
    · rename_i hep
      have hrising := (h.now hep).rising
      rw [hd, acksOf_append, ← List.cons_append] at hrising
      exact merge_last (List.pairwise_append.mp hrising).1
    · rw [hd]
      rfl

end Latest

variable {σ γ : Type} {n : Nat}

/-- **The acked state of a session is the last ack handled**: of what its worker posted in this
epoch, all but the messages on their way has been handled. -/
theorem acked_last (V : World σ γ) (churn : γ) (ratio : ℚ) (info : Fin n → String × Geometry)
    (is : List (Input n)) (hfix : ∀ i ∈ is, i.fixed = true)
    (hforward : Machine.Along (Sys.step V) (fun S i => S.heeds Move.forward V i)
      (Sys.init churn ratio info) is) (s : Fin n) :
    let S := Sys.after V churn ratio info is
    ∃ handled, S.sentNow s = handled ++ (S.w s).port.filter (·.epoch = S.c.epoch) ∧
      S.c.acked s = lastAcked (acksOf handled) := by
  have hlatest : ∀ s, Latest (Sys.after V churn ratio info is).c s
      ((Sys.after V churn ratio info is).player s) :=
    Machine.run_inv (P := fun S : Sys σ γ n => ∀ s, Latest S.c s (S.player s))
      (fun S i hi h => Latest.step V S hi.1 hi.2 h)
      ((Machine.Along.of_forall hfix _).and hforward) (Latest.init churn ratio info)
  exact (hlatest s).acked_eq

/-- A prep bracket before anything is reported. -/
def bracketFirst : List (Input 1) :=
  [.toWorker 0 0, .built 0 1 true 0, .broadcast (.source "prep(true)"),
    .broadcast (.source "prep(false)"), .frame, .toWorker 0 0, .toWorker 0 0, .toWorker 0 0,
    .cmd 0 0 (.call (.prep true)) 0, .cmd 0 0 (.settle none) 0, .cmd 0 0 .timer 0,
    .toProxy 0, .toProxy 0, .frame, .toWorker 0 0,
    .cmd 0 1 (.call (.prep false)) 0, .cmd 0 1 (.settle none) 0, .cmd 0 1 .timer 0, .toProxy 0]

theorem acked_last_bracket :
    let S := Sys.after (plainWorld fun _ => 0) () 0 (fun _ => ("fs", plainGeometry)) bracketFirst
    ∃ handled, S.sentNow 0 = handled ++ (S.w 0).port.filter (·.epoch = S.c.epoch) ∧
      S.c.acked 0 = lastAcked (acksOf handled) :=
  acked_last (plainWorld fun _ => 0) () 0 (fun _ => ("fs", plainGeometry)) bracketFirst
    (by decide) (by decide +kernel) 0

/-- A command counts a file operation and is acked; the next one closes a prep bracket, and the
proxy keeps the old count. -/
def bracketLate : List (Input 1) :=
  [.toWorker 0 0, .built 0 1 true 0, .broadcast (.source "stat('f')"),
    .broadcast (.source "prep(false)"), .frame, .toWorker 0 0, .toWorker 0 0, .toWorker 0 0,
    .cmd 0 0 (.call (.stat "f")) 0, .cmd 0 0 (.task 0) 0, .cmd 0 0 (.settle none) 0, .cmd 0 0 .timer 0,
    .toProxy 0, .toProxy 0, .frame, .toWorker 0 0,
    .cmd 0 1 (.call (.prep false)) 0, .cmd 0 1 (.settle none) 0, .cmd 0 1 .timer 0,
    .toProxy 0, .toProxy 0]

theorem acked_last_stale :
    let S := Sys.after (plainWorld fun _ => 0) () 0 (fun _ => ("fs", plainGeometry)) bracketLate
    ¬∃ handled, S.sentNow 0 = handled ++ (S.w 0).port.filter (·.epoch = S.c.epoch) ∧
      S.c.acked 0 = lastAcked (acksOf handled) := by
  intro S
  rintro ⟨handled, hsent, hack⟩
  have hport : (S.w 0).port = [] := by decide +kernel
  rw [hport, List.filter_nil, List.append_nil] at hsent
  rw [← hsent] at hack
  have hcount : (S.c.acked 0).fileOpCount = 1 := by decide +kernel
  have hlast : (lastAcked (acksOf (S.sentNow 0))).fileOpCount = 0 := by decide +kernel
  rw [hack, hlast] at hcount
  exact absurd hcount (by decide)

end FlashVis

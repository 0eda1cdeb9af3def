import FlashVis.Player.History
import FlashVis.System.Pace

/-!
# Pace: every step starts level

A Pace run from `reset()`.  Until the grant that authorizes entry `k` arrives, a worker that has
drained entry `k - 1` has nothing to play, whatever its watermark; so the ack that the coordinator
rebases on is still exact when the baseline is stored, and the new grant is one chunk past it.

* `Level c s p`    the invariant of session `s`, with the shared index `i` of `c`: the grants on
                   the way rise to `i + 1`, and the first to reach it is one chunk past the
                   worker's position;
* `Levels c P`     the invariant of the run;
* `pace_rebase`
-/

namespace FlashVis

/-- Everything session `s` was granted, from what its worker holds to what was sent last. -/
def limitsOf {γ : Type} {n : Nat} (c : Lockstep γ n) (s : Fin n) (p : Player) : List Nat :=
  p.limitIn c.epoch :: (grantsOf c.epoch (c.proxies s).port).map (·.entryLimit)

structure Level {γ : Type} {n : Nat} (c : Lockstep γ n) (s : Fin n) (p : Player) : Prop where
  lively : Lively c s p
  started : p.epoch = c.epoch → ∀ k, p.Started k → k < p.entryLimit
  rising : (limitsOf c s p).Pairwise (· ≤ ·)
  top : ∀ x ∈ limitsOf c s p, x ≤ c.sharedIndex + 1
  drained : (c.sharedIndex : Int) ≤ drainedField.now c.epoch p + 1
  cached : ∀ g, c.cached s = some g → g.entryLimit = c.sharedIndex + 1 ∧
    c.sharedIndex + 1 ∈ limitsOf c s p
  uncached : c.cached s = none → c.sharedIndex = 0 ∧ limitsOf c s p = [0] ∧
    playbackField.now c.epoch p = 0
  first : p.limitIn c.epoch ≤ c.sharedIndex → ∀ g,
    (grantsOf c.epoch (c.proxies s).port).find? (c.sharedIndex < ·.entryLimit) = some g →
    g.playLimitNs = ((playbackField.now c.epoch p + g.scale * MS_PER_FRAME : ℚ) : Limit)
  acked : (c.sharedIndex : Int) ≤ (c.acked s).entriesDrained →
    (c.acked s).playbackNs = playbackField.now c.epoch p
  flying : ∀ a, .grantAck c.epoch a ∈ p.port → (c.sharedIndex : Int) ≤ a.entriesDrained →
    a.playbackNs = playbackField.now c.epoch p
  granted : p.epoch = c.epoch → p.entryLimit = 0 ∨ ∃ g, .granted g ∈ p.hist ∧ g.entryLimit = p.entryLimit
  posted : p.epoch = c.epoch → ∀ a ∈ acksOf (posted p.hist), a.entriesDrained ≤ p.entriesDrained ∧
    ((p.entryLimit : Int) ≤ a.entriesDrained + 1 → a.playbackNs = p.playbackNs)

theorem Player.apply_empty {p : Player} {m : Move} (hp : p.prepActive = false)
    (hs : m.synthetic = false) (hq : p.queue = []) : (p.apply m).playbackNs = p.playbackNs := by
  by_cases hm : m = .meter
  · subst hm
    show p.meter.playbackNs = _
    unfold Player.meter
    rw [if_pos hq]
  · exact Player.apply_playback hp hs hm

namespace Level
variable {σ γ : Type} {n : Nat} {c : Lockstep γ n} {s : Fin n} {p : Player}

/-- Nothing beyond the authorized entries: a worker that has drained them has an empty queue. -/
theorem empty (h : Level c s p) (hep : p.epoch = c.epoch)
    (hd : (p.entryLimit : Int) ≤ p.entriesDrained + 1) : p.queue = [] := by
  have ho := h.lively.ordered hep
  have hst := h.started hep
  have hb := ho.behind
  refine ho.idle ?_ ?_
  · cases hr : p.realCmd with
    | none => rfl
    | some k =>
      have h1 := hst k (.inr hr)
      have h2 := ho.cmd k hr
      omega
  · rcases Nat.eq_zero_or_pos p.cursor with h0 | h0
    · omega
    · have := hst (p.cursor - 1) (.inl (by omega))
      omega

theorem drained_le (h : Level c s p) :
    (c.acked s).entriesDrained ≤ c.sharedIndex ∧ (c.acked s).cursor ≤ c.sharedIndex + 1 := by
  have hd : (c.acked s).entriesDrained ≤ drainedField.now c.epoch p := h.lively.drained.acked
  have hc : (c.acked s).cursor ≤ cursorField.now c.epoch p := h.lively.cursor.acked
  have htop := h.top (p.limitIn c.epoch) List.mem_cons_self
  by_cases hep : p.epoch = c.epoch
  · rw [AckField.now_eq hep] at hd hc
    rw [Player.limitIn_eq hep] at htop
    have hb := (h.lively.ordered hep).behind
    have hcur : p.cursor ≤ p.entryLimit := by
      rcases Nat.eq_zero_or_pos p.cursor with h0 | h0
      · omega
      · have := h.started hep (p.cursor - 1) (.inl (by omega))
        omega
    change (c.acked s).entriesDrained ≤ p.entriesDrained at hd
    change (c.acked s).cursor ≤ p.cursor at hc
    omega
  · rw [AckField.now_ne hep] at hd hc
    change (c.acked s).entriesDrained ≤ -1 at hd
    change (c.acked s).cursor ≤ 0 at hc
    omega

theorem apply (h : Level c s p) {m : Move} (he : p.Enabled m) (hm : m.prompt p) :
    Level c s (p.apply m) := by
  have hf := Player.apply_frame p m
  have hlively := h.lively.apply he hm
  have hlim : (p.apply m).limitIn c.epoch = p.limitIn c.epoch := by
    unfold Player.limitIn
    rw [hf.epoch, hf.entryLimit]
  have hls : limitsOf c s (p.apply m) = limitsOf c s p := by
    unfold limitsOf
    rw [hlim]
  by_cases hep : p.epoch = c.epoch
  swap
  · -- not in this epoch: nothing of it changes
    have hep' : (p.apply m).epoch ≠ c.epoch := hf.epoch ▸ hep
    have hX : playbackField.now c.epoch (p.apply m) = playbackField.now c.epoch p := by
      rw [AckField.now_ne hep', AckField.now_ne hep]
    have hD : drainedField.now c.epoch (p.apply m) = drainedField.now c.epoch p := by
      rw [AckField.now_ne hep', AckField.now_ne hep]
    refine ⟨hlively, fun h' => absurd h' hep', by rw [hls]; exact h.rising, by rw [hls]; exact h.top,
      by rw [hD]; exact h.drained, by rw [hls]; exact h.cached, by rw [hls, hX]; exact h.uncached,
      by rw [hX, hlim]; exact h.first, by rw [hX]; exact h.acked, fun a ha => ?_,
      fun h' => absurd h' hep', fun h' => absurd h' hep'⟩
    rw [hX]
    rw [hf.port] at ha
    rcases List.mem_append.mp ha with ha | ha
    · exact h.flying a ha
    · exact absurd (Link.posts_epoch he _ ha).symm hep
  obtain ⟨hreal, hprep, hq, -⟩ := h.lively.steady.now hep
  obtain ⟨-, hdr, -, hstart⟩ := h.lively.move hep he hm
  have hep' : (p.apply m).epoch = c.epoch := hf.epoch.trans hep
  have hX : ∀ p' : Player, p'.epoch = c.epoch → playbackField.now c.epoch p' = p'.playbackNs :=
    fun p' hp' => AckField.now_eq hp'
  have hD : ∀ p' : Player, p'.epoch = c.epoch → drainedField.now c.epoch p' = p'.entriesDrained :=
    fun p' hp' => AckField.now_eq hp'
  -- once the authorized entries are drained, the position stands
  have hstill : (p.entryLimit : Int) ≤ p.entriesDrained + 1 →
      (p.apply m).playbackNs = p.playbackNs := fun hd =>
    Player.apply_empty hprep (Player.not_synthetic hreal he) (h.empty hep hd)
  have htop : p.entryLimit ≤ c.sharedIndex + 1 := by
    have := h.top (p.limitIn c.epoch) List.mem_cons_self
    rwa [Player.limitIn_eq hep] at this
  have hack : ∀ a, .grantAck c.epoch a ∈ p.port → a.entriesDrained ≤ p.entriesDrained := by
    intro a ha
    have : a.entriesDrained ≤ drainedField.now c.epoch p := h.lively.drained.flying a ha
    rwa [hD p hep] at this
  refine ⟨hlively, fun _ k hk => ?_, by rw [hls]; exact h.rising, by rw [hls]; exact h.top, ?_,
    by rw [hls]; exact h.cached, fun hn => ?_, fun hle => ?_, fun hle => ?_, fun a ha hle => ?_,
    fun _ => ?_, fun _ a ha => ?_⟩
  · rw [hf.entryLimit]
    rcases hstart k hk with hk' | ⟨rfl, hk'⟩
    · exact h.started hep k hk'
    · exact hk'
  · rw [hD _ hep']
    have := h.drained
    rw [hD p hep] at this
    omega
  · obtain ⟨h0, hgs, hx⟩ := h.uncached hn
    refine ⟨h0, by rw [hls]; exact hgs, ?_⟩
    rw [hX p hep] at hx
    rw [hX _ hep', hstill, hx]
    have hlow : -1 ≤ drainedField.now c.epoch p := le_trans h.lively.drained.low h.lively.drained.acked
    rw [hD p hep] at hlow
    have hz : p.limitIn c.epoch = 0 := (List.cons.inj hgs).1
    rw [Player.limitIn_eq hep] at hz
    omega
  · rw [hlim] at hle
    have hd := h.drained
    rw [hD p hep] at hd
    rw [Player.limitIn_eq hep] at hle
    rw [hX _ hep', hstill (by omega), ← hX p hep]
    exact h.first (by rw [Player.limitIn_eq hep]; exact hle)
  · have hd : (c.acked s).entriesDrained ≤ drainedField.now c.epoch p := h.lively.drained.acked
    rw [hD p hep] at hd
    rw [hX _ hep', hstill (by omega), ← hX p hep]
    exact h.acked hle
  · rw [hX _ hep']
    rw [hf.port] at ha
    rcases List.mem_append.mp ha with ha | ha
    · have := hack a ha
      rw [hstill (by omega), ← hX p hep]
      exact h.flying a ha hle
    · cases m <;> simp only [Move.posts, List.mem_singleton, List.not_mem_nil, W2C.grantAck.injEq] at ha
      case ack =>
        rw [ha.2]
        rfl
      case post m => exact absurd ha.symm (he.2 _ a)
  · rw [hf.entryLimit, hf.hist]
    rcases h.granted hep with h0 | ⟨g, hg, hl⟩
    · exact .inl h0
    · exact .inr ⟨g, List.mem_append_left _ hg, hl⟩
  · rw [hf.entryLimit]
    rw [hf.hist, posted_append, acksOf_append] at ha
    rcases List.mem_append.mp ha with ha | ha
    · obtain ⟨h1, h2⟩ := h.posted hep a ha
      exact ⟨le_trans h1 hdr, fun hle => by rw [hstill (by omega)]; exact h2 hle⟩
    · rw [posted_acts] at ha
      obtain ⟨e, ha⟩ := mem_acksOf ha
      cases m <;> simp only [Move.posts, List.mem_singleton, List.not_mem_nil, W2C.grantAck.injEq] at ha
      case ack => exact ha.2 ▸ ⟨le_refl _, fun _ => rfl⟩
      case post m => exact absurd ha.symm (he.2 e a)

theorem receive (h : Level c s p) {m : C2W} {ms : List C2W} (hp : (c.proxies s).port = m :: ms)
    (ps : Option Nat) : Level (Sys.onProxy s (·.setPort ms) c) s (p.receive ps m) := by
  have hlively := h.lively.receive hp ps
  have harr := h.lively.joined.arrival hp ps
  have hport := Link.receive_port p ps m
  generalize p.receive ps m = q at hlively harr hport ⊢
  have hX : playbackField.now c.epoch q = playbackField.now c.epoch p := harr.now
  have hD : drainedField.now c.epoch q = drainedField.now c.epoch p := harr.now
  have hrest : ((Sys.onProxy s (·.setPort ms) c).proxies s).port = ms := by
    rw [Sys.onProxy_same]
    rfl
  have hack : (Sys.onProxy s (·.setPort ms) c).acked s = c.acked s := by
    unfold Lockstep.acked
    rw [Sys.onProxy_same]
    rfl
  -- the limits of the rest, when the message is not a grant of this epoch
  have same : (∀ g, m ≠ .grant c.epoch g) → q.limitIn c.epoch = p.limitIn c.epoch →
      (q.epoch = c.epoch → (∀ k, q.Started k → k < q.entryLimit) ∧
        (q.entryLimit = 0 ∨ ∃ g, .granted g ∈ q.hist ∧ g.entryLimit = q.entryLimit) ∧
        ∀ a ∈ acksOf (FlashVis.posted q.hist), a.entriesDrained ≤ q.entriesDrained ∧
          ((q.entryLimit : Int) ≤ a.entriesDrained + 1 → a.playbackNs = q.playbackNs)) →
      Level (Sys.onProxy s (·.setPort ms) c) s q := by
    intro hm hlim hlife
    have hgs : grantsOf c.epoch (c.proxies s).port = grantsOf c.epoch ms := by
      rw [hp]
      unfold grantsOf
      rw [List.filterMap_cons_none]
      cases m with
      | grant e g =>
        refine if_neg fun he => ?_
        exact hm g (by rw [he])
      | init _ _ _ | entries _ _ | pull _ _ | reset _ => rfl
    have hls : limitsOf (Sys.onProxy s (·.setPort ms) c) s q = limitsOf c s p := by
      show q.limitIn c.epoch :: _ = _
      rw [hrest, hlim, show (Sys.onProxy s (·.setPort ms) c).epoch = c.epoch from rfl, ← hgs]
      rfl
    refine ⟨hlively, fun hep => (hlife hep).1, by rw [hls]; exact h.rising, by rw [hls]; exact h.top,
      le_of_le_of_eq h.drained (by rw [← hD]; rfl), by rw [hls]; exact h.cached, ?_, ?_, ?_, ?_,
      fun hep => (hlife hep).2.1, fun hep => (hlife hep).2.2⟩
    · rw [hls]
      exact fun hn => ⟨(h.uncached hn).1, (h.uncached hn).2.1, hX.trans (h.uncached hn).2.2⟩
    · rw [hrest]
      show q.limitIn c.epoch ≤ _ → _
      rw [hlim]
      intro hle g hg
      show g.playLimitNs = ((playbackField.now c.epoch q + _ : ℚ) : Limit)
      rw [hX]
      exact h.first hle g (hgs ▸ hg)
    · rw [hack]
      exact fun hle => (h.acked hle).trans hX.symm
    · rw [hport]
      exact fun a ha hle => (h.flying a ha hle).trans hX.symm
  cases harr with
  | feed es now hm =>
    refine same (by simp [hm]) rfl fun _ => ⟨h.started now, h.granted now, h.posted now⟩
  | pull sel now hm =>
    refine same (by simp [hm]) rfl fun _ => ⟨h.started now, h.granted now, h.posted now⟩
  | fresh keep before hm =>
    refine same (fun g hg => absurd hm (by simp [hg, C2W.transition])) ?_ fun _ => ⟨?_, ?_, ?_⟩
    · rw [Player.limitIn_ne (ne_of_lt before)]
      exact Player.limitIn_eq (p := p.fresh c.epoch keep ps) rfl
    · exact fun k hk => absurd hk (by simp [Player.Started, Player.fresh])
    · exact .inl rfl
    · exact fun a ha => absurd ha (by simp [Player.fresh, FlashVis.posted, acksOf])
  | early q before after hm =>
    refine same (fun g hg => absurd hm (by simp [hg, C2W.epoch])) ?_
      fun hep => absurd hep (ne_of_lt after)
    rw [Player.limitIn_ne (ne_of_lt before), Player.limitIn_ne (ne_of_lt after)]
  | grant g now hm =>
    have hgs : grantsOf c.epoch (c.proxies s).port = g :: grantsOf c.epoch ms := by
      rw [hp, hm]
      simp [grantsOf]
    have hls' : limitsOf (Sys.onProxy s (·.setPort ms) c) s (p.grant g)
        = g.entryLimit :: (grantsOf c.epoch ms).map (·.entryLimit) := by
      unfold limitsOf
      rw [hrest, show (Sys.onProxy s (·.setPort ms) c).epoch = c.epoch from rfl,
        Player.limitIn_eq (p := p.grant g) now]
      rfl
    have hls : limitsOf c s p = p.entryLimit :: limitsOf (Sys.onProxy s (·.setPort ms) c) s (p.grant g) := by
      rw [hls']
      unfold limitsOf
      rw [Player.limitIn_eq now, hgs, List.map_cons]
    have hrise := h.rising
    have htop := h.top
    rw [hls] at hrise htop
    obtain ⟨hfirst, hrise⟩ := List.pairwise_cons.mp hrise
    have hge : p.entryLimit ≤ g.entryLimit := hfirst _ (by rw [hls']; exact List.mem_cons_self)
    have hgtop : g.entryLimit ≤ c.sharedIndex + 1 :=
      htop _ (List.mem_cons_of_mem _ (by rw [hls']; exact List.mem_cons_self))
    refine ⟨hlively, fun _ k hk => lt_of_lt_of_le (h.started now k hk) hge, hrise,
      fun x hx => htop x (List.mem_cons_of_mem _ hx), h.drained, fun g' hg' => ?_, fun hn => ?_,
      fun hle g' hg' => ?_, ?_, h.flying, fun _ => .inr ⟨g, by simp [Player.grant], rfl⟩,
      fun _ a ha => ?_⟩
    · obtain ⟨h1, h2⟩ := h.cached g' hg'
      refine ⟨h1, ?_⟩
      rw [hls] at h2
      rcases List.mem_cons.mp h2 with h2 | h2
      · -- the worker had it already, so this grant has it too
        rw [hls']
        exact List.mem_cons.mpr (.inl (le_antisymm (h2 ▸ hge) hgtop))
      · exact h2
    · have := (h.uncached hn).2.1
      rw [hls, hls'] at this
      exact absurd (List.cons.inj this).2 (by simp)
    · change (p.grant g).limitIn c.epoch ≤ c.sharedIndex at hle
      rw [Player.limitIn_eq (p := p.grant g) now] at hle
      change g.entryLimit ≤ c.sharedIndex at hle
      rw [hrest] at hg'
      have := h.first (by rw [Player.limitIn_eq now]; omega) g'
      rw [hgs, List.find?_cons_of_neg (by simpa using hle)] at this
      exact this hg'
    · rw [hack]
      exact h.acked
    · have ha' : a ∈ acksOf (FlashVis.posted p.hist) := by
        change a ∈ acksOf (FlashVis.posted (p.hist ++ [.granted g])) at ha
        rw [posted_append, show FlashVis.posted [Act.granted g] = [] from rfl, List.append_nil] at ha
        exact ha
      obtain ⟨h1, h2⟩ := h.posted now a ha'
      refine ⟨h1, fun hle => h2 ?_⟩
      change (g.entryLimit : Int) ≤ _ at hle
      omega

theorem back_of (h : Level c s p) {m : W2C} {ms : List W2C} (hp : p.port = m :: ms) :
    Level (Sys.onProxy s (·.handle m) c) s (p.setPort ms) := by
  have hls : limitsOf (Sys.onProxy s (·.handle m) c) s (p.setPort ms) = limitsOf c s p := by
    unfold limitsOf
    rw [Sys.onProxy_same, Proxy.handle_port]
    rfl
  refine ⟨h.lively.back_of hp, h.started, by rw [hls]; exact h.rising, by rw [hls]; exact h.top,
    h.drained, by rw [hls]; exact h.cached, by rw [hls]; exact h.uncached, ?_, ?_,
    fun a ha => h.flying a (hp ▸ List.mem_cons_of_mem m ha), h.granted, h.posted⟩
  · rw [Sys.onProxy_same, Proxy.handle_port]
    exact h.first
  · show _ → _ = playbackField.now c.epoch p
    have hle : (c.acked s).playbackNs ≤ playbackField.now c.epoch p := h.lively.playback.acked
    rcases h.lively.joined.handle_acked m with hack | ⟨a, hm, hack⟩ <;> rw [hack]
    · exact h.acked
    · have hmem : W2C.grantAck c.epoch a ∈ p.port := hp ▸ hm ▸ List.mem_cons_self
      have hale : a.playbackNs ≤ playbackField.now c.epoch p := h.lively.playback.flying a hmem
      intro hi
      show max (c.acked s).playbackNs a.playbackNs = _
      rcases le_max_iff.mp (show (c.sharedIndex : Int) ≤ max (c.acked s).entriesDrained a.entriesDrained
        from hi) with hi | hi
      · rw [h.acked hi]
        exact max_eq_left hale
      · rw [h.flying a hmem hi]
        exact max_eq_right hle

theorem frame {t : Fin n} (ht : t ≠ s) (f : Proxy → Proxy) (h : Level c t p) :
    Level (Sys.onProxy s f c) t p := by
  have hpr : (Sys.onProxy s f c).proxies t = c.proxies t := Sys.onProxy_ne ht f c
  have hls : limitsOf (Sys.onProxy s f c) t p = limitsOf c t p := by
    unfold limitsOf
    rw [hpr]
    rfl
  have hack : (Sys.onProxy s f c).acked t = c.acked t := by
    unfold Lockstep.acked
    rw [hpr]
  refine ⟨h.lively.frame ht f, h.started, by rw [hls]; exact h.rising, by rw [hls]; exact h.top,
    h.drained, by rw [hls]; exact h.cached, by rw [hls]; exact h.uncached, ?_, ?_, h.flying,
    h.granted, h.posted⟩
  · rw [hpr]
    exact h.first
  · rw [hack]
    exact h.acked

/-- What a call appends to the limits: the cached one, if anything. -/
theorem limitsOf_sends {c' : Lockstep γ n} {ms : List C2W} (hs : Sends c c' s ms)
    (he : c'.epoch = c.epoch) :
    grantsOf c'.epoch (c'.proxies s).port
        = grantsOf c.epoch (c.proxies s).port ++ grantsOf c.epoch ms ∧
      limitsOf c' s p = limitsOf c s p ++ (grantsOf c.epoch ms).map (·.entryLimit) ∧
      ∀ g ∈ grantsOf c.epoch ms, c'.cached s = some g := by
  have hg : grantsOf c'.epoch (c'.proxies s).port
      = grantsOf c.epoch (c.proxies s).port ++ grantsOf c.epoch ms := by
    rw [hs.proxy, he, Proxy.sendAll_port, grantsOf_append]
  refine ⟨hg, ?_, fun g hmem => hs.grants _ g (mem_grantsOf.mp hmem)⟩
  unfold limitsOf
  rw [hg, he, List.map_append]
  rfl

/-- The limits stay sorted below the new cached one. -/
theorem rising_sends (h : Level c s p) {c' : Lockstep γ n} {ms : List C2W} (hs : Sends c c' s ms)
    (he : c'.epoch = c.epoch) (hi : c.sharedIndex ≤ c'.sharedIndex)
    (hel : ∀ g, c'.cached s = some g → g.entryLimit = c'.sharedIndex + 1) :
    (limitsOf c' s p).Pairwise (· ≤ ·) ∧ ∀ x ∈ limitsOf c' s p, x ≤ c'.sharedIndex + 1 := by
  obtain ⟨-, hls, hcach⟩ := limitsOf_sends hs he
  have hnew : ∀ x ∈ (grantsOf c.epoch ms).map (·.entryLimit), x = c'.sharedIndex + 1 := by
    intro x hx
    obtain ⟨g, hg, rfl⟩ := List.mem_map.mp hx
    exact hel g (hcach g hg)
  rw [hls]
  constructor
  · rw [List.pairwise_append]
    refine ⟨h.rising, List.pairwise_of_forall_mem_list fun x hx y hy => ?_, fun x hx y hy => ?_⟩
    · rw [hnew x hx, hnew y hy]
    · rw [hnew y hy]
      exact le_trans (h.top x hx) (by omega)
  · intro x hx
    rcases List.mem_append.mp hx with hx | hx
    · exact le_trans (h.top x hx) (by omega)
    · exact le_of_eq (hnew x hx)

theorem call_same (h : Level c s p) {c' : Lockstep γ n} {ms : List C2W} (hs : Sends c c' s ms)
    (hl : Lively c' s p) (he : c'.epoch = c.epoch) (hack : c'.acked s = c.acked s)
    (hi : c'.sharedIndex = c.sharedIndex)
    (hel : ∀ g, c'.cached s = some g → g.entryLimit = c.sharedIndex + 1)
    (hnone : c'.cached s = none → c.cached s = none)
    (hnew : c.cached s = none → ∀ g, c'.cached s = some g →
      g.playLimitNs = ((playbackField.now c.epoch p + g.scale * MS_PER_FRAME : ℚ) : Limit)) :
    Level c' s p := by
  obtain ⟨hgs, hls, hcach⟩ := limitsOf_sends hs he
  obtain ⟨hrise, htop⟩ := h.rising_sends hs he (le_of_eq hi.symm) (by rw [hi]; exact hel)
  refine ⟨hl, by rw [he]; exact h.started, hrise, htop, by rw [he, hi]; exact h.drained, ?_, ?_, ?_,
    by rw [he, hi, hack]; exact h.acked, by rw [he, hi]; exact h.flying, by rw [he]; exact h.granted,
    by rw [he]; exact h.posted⟩
  · intro g hg
    rw [hi]
    refine ⟨hel g hg, ?_⟩
    rw [hls]
    rcases hs.flush with hfl | hfl
    · exact List.mem_append_left _ (h.cached g (hfl ▸ hg)).2
    · refine List.mem_append_right _ (List.mem_map.mpr ⟨g, mem_grantsOf.mpr ?_, hel g hg⟩)
      exact h.lively.joined.proxy ▸ hfl g hg
  · intro hn
    obtain ⟨h1, h2, h3⟩ := h.uncached (hnone hn)
    have hnil : grantsOf c.epoch ms = [] :=
      List.eq_nil_iff_forall_not_mem.mpr fun g hg => by simp [hcach g hg] at hn
    exact ⟨hi.trans h1, by rw [hls, hnil, h2]; rfl, by rw [he]; exact h3⟩
  · rw [he, hi, ← he, hgs, he]
    intro hle g hg
    rw [List.find?_append, Option.or_eq_some_iff] at hg
    rcases hg with hg | ⟨hno, hg⟩
    · exact h.first hle g hg
    · -- the first grant to reach the limit is a new one: nothing was granted before
      have hg' := hcach g (List.mem_of_find?_eq_some hg)
      refine hnew ?_ g hg'
      by_contra hsome
      obtain ⟨g₀, hg₀⟩ := Option.ne_none_iff_exists'.mp hsome
      rcases List.mem_cons.mp (h.cached g₀ hg₀).2 with hmem | hmem
      · omega
      · obtain ⟨g₁, hg₁, hel₁⟩ := List.mem_map.mp hmem
        have := List.find?_eq_none.mp hno g₁ hg₁
        simp only [decide_eq_true_eq, not_lt] at this
        omega

theorem call_pass (h : Level c s p) {c' : Lockstep γ n} {ms : List C2W} (hs : Sends c c' s ms)
    (hl : Lively c' s p) (he : c'.epoch = c.epoch) (hack : c'.acked s = c.acked s)
    (hi : c'.sharedIndex = c.sharedIndex + 1) {g₁ : Grant} (hg₁ : c'.cached s = some g₁)
    (hel : g₁.entryLimit = c.sharedIndex + 1 + 1)
    (hlim : g₁.playLimitNs =
      ((playbackField.now c.epoch p + g₁.scale * MS_PER_FRAME : ℚ) : Limit))
    (hd : (c.sharedIndex : Int) ≤ drainedField.now c.epoch p) : Level c' s p := by
  obtain ⟨hgs, hls, hcach⟩ := limitsOf_sends hs he
  have heq : ∀ g, c'.cached s = some g → g = g₁ := fun g hg => Option.some.inj (hg.symm.trans hg₁)
  obtain ⟨hrise, htop⟩ := h.rising_sends hs he (by omega) fun g hg => by rw [heq g hg, hel, hi]
  -- what is acked has not drained the new step
  have hlow : drainedField.now c.epoch p ≤ c.sharedIndex := by
    by_cases hep : p.epoch = c.epoch
    · rw [AckField.now_eq hep]
      have hb := (h.lively.ordered hep).behind
      have htp := h.top (p.limitIn c.epoch) List.mem_cons_self
      rw [Player.limitIn_eq hep] at htp
      show p.entriesDrained ≤ _
      rcases Nat.eq_zero_or_pos p.cursor with h0 | h0
      · omega
      · have := h.started hep (p.cursor - 1) (.inl (by omega))
        omega
    · rw [AckField.now_ne hep]
      show (-1 : Int) ≤ _
      omega
  refine ⟨hl, by rw [he]; exact h.started, hrise, htop, by rw [he, hi]; push_cast; omega, ?_, ?_, ?_,
    ?_, ?_, by rw [he]; exact h.granted, by rw [he]; exact h.posted⟩
  · intro g hg
    rw [heq g hg, hi]
    refine ⟨hel, ?_⟩
    rw [hls]
    rcases hs.flush with hfl | hfl
    · have := (h.cached g₁ (hfl ▸ hg₁)).1
      omega
    · refine List.mem_append_right _ (List.mem_map.mpr ⟨g₁, mem_grantsOf.mpr ?_, hel⟩)
      exact h.lively.joined.proxy ▸ hfl g₁ hg₁
  · exact fun hn => absurd (hn.symm.trans hg₁) (by simp)
  · rw [he, ← he, hgs, he]
    intro _ g hg
    rw [List.find?_append, Option.or_eq_some_iff] at hg
    rcases hg with hg | ⟨-, hg⟩
    · have h1 := h.top g.entryLimit (List.mem_cons_of_mem _
        (List.mem_map.mpr ⟨g, List.mem_of_find?_eq_some hg, rfl⟩))
      have h2 := List.find?_some hg
      simp only [decide_eq_true_eq] at h2
      omega
    · rw [heq g (hcach g (List.mem_of_find?_eq_some hg))]
      exact hlim
  · rw [he, hi, hack]
    have : (c.acked s).entriesDrained ≤ drainedField.now c.epoch p := h.lively.drained.acked
    push_cast
    intro hle
    omega
  · rw [he, hi]
    intro a ha
    have : a.entriesDrained ≤ drainedField.now c.epoch p := h.lively.drained.flying a ha
    push_cast
    intro hle
    omega

end Level

/-! ## the run -/

/-- Every session is level, and before the first frame nothing was granted to anybody. -/
structure Levels {γ : Type} {n : Nat} (c : Lockstep γ n) (P : Fin n → Player) : Prop where
  pacing : c.Pacing
  level : ∀ s, Level c s (P s)
  uniform : ∀ s t, c.cached s = none → c.cached t = none
  baseline : c.sharedIndex = 0 → ∀ s, c.baseline s = 0

namespace Levels
variable {σ γ : Type} {n : Nat} {c : Lockstep γ n} {P : Fin n → Player}

/-- The shared index passes at most one entry at a time, and then every acked position is the
worker's. -/
theorem passes (h : Levels c P) {k : Nat} (hk : 0 < k)
    (hd : ∀ j < k, ∀ s, ((c.sharedIndex + j : Nat) : Int) ≤ (c.acked s).entriesDrained) (s : Fin n) :
    k = 1 ∧ (P s).epoch = c.epoch ∧ (c.acked s).playbackNs = (P s).playbackNs ∧
      (c.sharedIndex : Int) ≤ (P s).entriesDrained := by
  have h0 := hd 0 hk s
  rw [Nat.add_zero] at h0
  have hle := ((h.level s).drained_le).1
  have hk1 : k = 1 := by
    by_contra hne
    have := hd 1 (by omega) s
    push_cast at this
    omega
  have hdr : (c.acked s).entriesDrained ≤ drainedField.now c.epoch (P s) :=
    (h.level s).lively.drained.acked
  have hep : (P s).epoch = c.epoch := by
    by_contra hne
    rw [AckField.now_ne hne] at hdr
    change (c.acked s).entriesDrained ≤ -1 at hdr
    omega
  have hX := (h.level s).acked h0
  rw [AckField.now_eq hep] at hX hdr
  exact ⟨hk1, hep, hX, le_trans h0 hdr⟩

theorem call (V : World σ γ) {i : Input n} {f : Lockstep γ n → Lockstep γ n}
    (hf : i.call V = some f) (hi : i.pacing = true) (h : Levels c P) : Levels (f c) P := by
  have hk := Input.pacing_keepsEpoch hi
  obtain ⟨hpacing, hcall⟩ := call_pace V hf hi h.pacing
  obtain ⟨he, hs⟩ := call_sends V hf hk c
  have hlively : ∀ s, Lively (f c) s (P s) := fun s =>
    (h.level s).lively.call V hf hk (Input.pacing_metered hi)
  have hack := call_acked V hf hk c
  cases hcall with
  | keep index baseline cached stale =>
    refine ⟨hpacing, fun s => ?_, by rw [cached]; exact h.uniform, by rw [index, baseline]; exact h.baseline⟩
    obtain ⟨ms, hms⟩ := hs s
    refine (h.level s).call_same hms (hlively s) he (hack s) index ?_ ?_ ?_
    · rw [cached]
      exact fun g hg => ((h.level s).cached g hg).1
    · rw [cached]
      exact id
    · rw [cached]
      exact fun hn g hg => absurd (hn.symm.trans hg) (by simp)
  | derive k r index drained baseline cached =>
    have hnew : ∀ s, (f c).cached s ≠ none := fun s hn => absurd (hn.symm.trans (cached s)) (by simp)
    rcases Nat.eq_zero_or_pos k with rfl | hpos
    · refine ⟨hpacing, fun s => ?_, fun s t hn => absurd hn (hnew s), ?_⟩
      swap
      · rw [index, baseline]
        exact h.baseline
      obtain ⟨ms, hms⟩ := hs s
      refine (h.level s).call_same hms (hlively s) he (hack s) index ?_ (fun hn => absurd hn (hnew s)) ?_
      · intro g hg
        rw [cached s, Option.some.injEq] at hg
        rw [← hg]
        exact max_eq_left ((h.level s).drained_le).2
      · -- the first grants of the run: nobody has moved
        intro hn g hg
        rw [cached s, Option.some.injEq] at hg
        rw [← hg]
        have hzero : ∀ t, (c.acked t).playbackNs = 0 := by
          intro t
          obtain ⟨-, -, hx⟩ := (h.level t).uncached (h.uniform s t hn)
          exact le_antisymm (hx ▸ (h.level t).lively.playback.acked) (h.level t).lively.playback.low
        obtain ⟨h0, -, hx⟩ := (h.level s).uncached hn
        have hb := h.baseline h0
        obtain ⟨⟨t, ht⟩, -⟩ := Lockstep.relMax_spec (c := c) (fun h => (h ▸ s).elim0)
        have hp0 : (c.passed 0).playLimit s = c.playLimit s := by
          apply Lockstep.playLimit_congr
          · exact fun _ => rfl
          · rfl
          · rfl
          · rfl
        show (((c.passed 0).playLimit s : ℚ) : Limit) = _
        rw [hp0, (Lockstep.playLimit_pace h.pacing.mode h.pacing.chunk s).1, ht, hzero, hb, hb, hx]
        congr 1
        simp [Lockstep.chunkNs]
    · have hpass := h.passes hpos drained
      have hk1 : ∀ s : Fin n, k = 1 := fun s => (hpass s).1
      refine ⟨hpacing, fun s => ?_, fun s t hn => absurd hn (hnew s), fun h0 => by omega⟩
      obtain ⟨-, hep, hX, hD⟩ := hpass s
      obtain ⟨ms, hms⟩ := hs s
      have hlim := Lockstep.playLimit_passed hpos h.pacing.mode h.pacing.chunk s
      have hkk := hk1 s
      refine (h.level s).call_pass hms (hlively s) he (hack s) (by omega) (cached s) ?_ ?_ ?_
      · have := ((h.level s).drained_le).2
        show max _ _ = _
        omega
      · rw [hlim, hX, AckField.now_eq hep]
        rfl
      · rw [AckField.now_eq hep]
        exact hD

theorem step (V : World σ γ) (S : Sys σ γ n) {i : Input n} (hi : i.pacing = true)
    (hp : S.prompt i = true) (h : Levels S.c S.player) :
    Levels (S.step V i).c (S.step V i).player := by
  refine Sys.step_rule V S i ?_ ?_ ?_ ?_ h
  · exact fun f hf h => h.call V hf hi
  · intro s now m ms ps _ hport h
    exact ⟨⟨h.pacing.mode, h.pacing.stepLimit, h.pacing.scale, h.pacing.round⟩,
      (Function.forall_update_iff S.player fun t p => Level _ t p).mpr
        ⟨(h.level s).receive hport ps, fun t ht => (h.level t).frame ht _⟩, h.uniform, h.baseline⟩
  · intro s now t c P m ht hok hen h
    exact ⟨h.pacing, (Function.forall_update_iff P fun t p => Level c t p).mpr
      ⟨(h.level s).apply hen (Sys.prompt_move hp (Input.pacing_metered hi) ht hok),
        fun t _ => h.level t⟩, h.uniform, h.baseline⟩
  · intro s m ms _ hport h
    exact ⟨⟨h.pacing.mode, h.pacing.stepLimit, h.pacing.scale, h.pacing.round⟩,
      (Function.forall_update_iff S.player fun t p => Level _ t p).mpr
        ⟨(h.level s).back_of hport, fun t ht => (h.level t).frame ht _⟩, h.uniform, h.baseline⟩

theorem reset (G : Churn γ) (hm : c.mode = .pace) (hs : 0 ≤ c.scale) (hl : ∀ s, Link c s (P s)) :
    Levels (c.reset G) P := by
  refine ⟨⟨hm, rfl, hs, le_refl _⟩, fun s => ?_, fun _ _ _ => rfl, fun _ _ => rfl⟩
  have hne : (P s).epoch ≠ c.epoch + 1 := ne_of_lt (Int.lt_add_one_of_le (hl s).epoch_le)
  have hX : playbackField.now (c.reset G).epoch (P s) = 0 := AckField.now_ne hne
  have hgs : grantsOf (c.epoch + 1) ((c.reset G).proxies s).port = [] := by
    refine List.eq_nil_iff_forall_not_mem.mpr fun g hg => ?_
    rcases List.mem_append.mp (mem_grantsOf.mp hg) with hg | hg
    · exact absurd ((hl s).chan.epoch_le _ hg) (not_le.mpr (Int.lt_succ _))
    · exact absurd hg (by simp)
  have hls : limitsOf (c.reset G) s (P s) = [0] := by
    show (P s).limitIn (c.epoch + 1) :: _ = _
    rw [Player.limitIn_ne hne]
    exact congrArg (fun l => 0 :: l.map Grant.entryLimit) hgs
  refine ⟨(hl s).reset_lively G, fun hep => absurd hep hne, by rw [hls]; simp, by rw [hls]; simp, ?_,
    fun g hg => absurd hg (by simp [Lockstep.reset]), fun _ => ⟨rfl, hls, hX⟩, fun _ g hg => ?_,
    fun hle => ?_, fun a ha => ?_, fun hep => absurd hep hne, fun hep => absurd hep hne⟩
  · have : drainedField.now (c.reset G).epoch (P s) = -1 := AckField.now_ne hne
    rw [this]
    exact le_refl _
  · rw [show (c.reset G).epoch = c.epoch + 1 from rfl, hgs] at hg
    exact absurd hg (by simp)
  · exact absurd (show (0 : Int) ≤ -1 from hle) (by decide)
  · exact absurd ((hl s).back _ ha) (not_le.mpr (Int.lt_add_one_of_le (hl s).epoch_le))

end Levels

/-! ## the theorem -/

/-- No grant handled in the worker's current life authorizes entry `k`. -/
def Worker.Awaits {σ : Type} (k : Nat) (w : Worker σ) : Prop :=
  ∀ g, .granted g ∈ w.hist → g.entryLimit ≤ k

def Act.authorized : Act → Nat
  | .granted g => g.entryLimit
  | _ => 0

theorem Worker.Awaits.of_authorized {σ : Type} {k : Nat} {w : Worker σ}
    (h : ∀ x ∈ w.hist, x.authorized ≤ k) : w.Awaits k := by
  intro g hg
  exact h (.granted g) hg

namespace Level
variable {σ γ : Type} {n : Nat} {S : Sys σ γ n} {s : Fin n}

theorem limit_le (h : Level S.c s (S.player s)) (hep : (S.w s).epoch = S.c.epoch) {k : Nat}
    (hk : (S.w s).Awaits k) : (S.w s).entryLimit ≤ k := by
  rcases h.granted hep with h0 | ⟨g, hg, hl⟩
  · exact le_of_eq_of_le h0 (Nat.zero_le k)
  · exact le_of_eq_of_le hl.symm (hk g hg)

end Level

section
variable {σ γ : Type} {n : Nat}

/-- **Pace rebase and no burst.** After a `reset()` in Pace, at every moment: a worker that acked
the drain of entry `k - 1` stands still, with nothing queued, until a grant authorizes entry `k`;
when the shared index advances, it advances by one and every stored baseline is the worker's
position; and the first grant that authorizes an entry is one chunk past the worker's position. -/
theorem pace_rebase (V : World σ γ) (churn : γ) (ratio : ℚ) (info : Fin n → String × Geometry)
    (pre post : List (Input n)) (hmode : (Sys.after V churn ratio info pre).c.mode = .pace)
    (hpost : Machine.Along (Sys.step V) (fun S i => i.pacing = true ∧ S.prompt i = true)
      ((Sys.after V churn ratio info pre).step V .reset) post) :
    let S := Machine.run (Sys.step V) ((Sys.after V churn ratio info pre).step V .reset) post
    (∀ s (k : Nat) a, (S.w s).epoch = S.c.epoch → a ∈ acksOf (posted (S.w s).hist) →
      (k : Int) - 1 ≤ a.entriesDrained → (S.w s).Awaits k →
      (S.w s).playbackNs = a.playbackNs ∧ (S.w s).pbQueue = []) ∧
    (∀ i, i.pacing = true → (S.step V i).c.sharedIndex ≠ S.c.sharedIndex → ∀ s,
      (S.step V i).c.sharedIndex = S.c.sharedIndex + 1 ∧ (S.w s).epoch = S.c.epoch ∧
        (S.step V i).c.baseline s = (S.w s).playbackNs) ∧
    ∀ s k g ms, (S.c.proxies s).port = .grant S.c.epoch g :: ms → (S.w s).Awaits k →
      k < g.entryLimit →
      g.playLimitNs = (((S.w s).playbackNs + g.scale * MS_PER_FRAME : ℚ) : Limit) := by
  intro S
  have hinv : Levels S.c S.player := Machine.run_inv (P := fun S : Sys σ γ n => Levels S.c S.player)
    (fun S i hg h => Levels.step V S hg.1 hg.2 h) hpost
    (Levels.reset V.churn hmode ((Sys.sound V churn ratio info pre).scale)
      (fun s => Link.run V churn ratio info pre s))
  refine ⟨fun s k a hep ha hk hw => ?_, fun i hi hne s => ?_, fun s k g ms hp hw hk => ?_⟩
  · have hl := hinv.level s
    have hle := hl.limit_le hep hw
    obtain ⟨h1, h2⟩ := hl.posted hep a ha
    change a.entriesDrained ≤ (S.w s).entriesDrained at h1
    exact ⟨(h2 (by show ((S.w s).entryLimit : Int) ≤ _; omega)).symm,
      hl.empty hep (by show ((S.w s).entryLimit : Int) ≤ (S.w s).entriesDrained + 1; omega)⟩
  · cases hf : i.call V with
    | none => exact absurd (Sys.step_sharedIndex V S hf) hne
    | some f =>
      rw [Sys.step_call V S hf] at hne ⊢
      change (f S.c).sharedIndex ≠ _ at hne
      show (f S.c).sharedIndex = _ ∧ _ ∧ (f S.c).baseline s = _
      rcases (call_pace V hf hi hinv.pacing).2 with ⟨index, -, -, -⟩ | ⟨k, r, index, drained, baseline, -⟩
      · exact absurd index hne
      · have hpos : 0 < k := by omega
        obtain ⟨hk1, hep, hX, -⟩ := hinv.passes hpos drained s
        refine ⟨by omega, hep, ?_⟩
        rw [baseline, if_neg (by omega)]
        exact hX
  · have hl := hinv.level s
    have hep : (S.w s).epoch = S.c.epoch := (hl.lively.joined.delivered hp rfl).symm
    have hle := hl.limit_le hep hw
    have hgs : grantsOf S.c.epoch (S.c.proxies s).port = g :: grantsOf S.c.epoch ms := by
      rw [hp]
      simp [grantsOf]
    have htop : g.entryLimit ≤ S.c.sharedIndex + 1 := hl.top _ (by
      unfold limitsOf
      rw [hgs]
      simp)
    -- the worker has drained the entry before the shared one, so it was authorized up to there
    have hd := hl.drained
    rw [AckField.now_eq (p := S.player s) hep] at hd
    change (S.c.sharedIndex : Int) ≤ (S.w s).entriesDrained + 1 at hd
    have hb := (hl.lively.ordered hep).behind
    change (S.w s).entriesDrained + 1 ≤ ((S.w s).cursor : Int) at hb
    have hcur : (S.w s).cursor ≤ (S.w s).entryLimit := by
      rcases Nat.eq_zero_or_pos (S.w s).cursor with h0 | h0
      · omega
      · have : (S.w s).cursor - 1 < (S.w s).entryLimit :=
          hl.started hep ((S.w s).cursor - 1) (.inl (Nat.sub_lt h0 Nat.one_pos))
        omega
    have hfirst := hl.first (by
      rw [Player.limitIn_eq (p := S.player s) hep]
      show (S.w s).entryLimit ≤ _
      omega) g
    rw [hgs, List.find?_cons_of_pos (by simp only [decide_eq_true_eq]; omega)] at hfirst
    rw [hfirst rfl, AckField.now_eq (p := S.player s) hep]
    rfl

end

/-- Before and after the reset: both sessions build in Pace, drain entry 0 at different costs, and
entry 1 is granted. -/
def paced (s t : Fin 2) : List (Input 2) × List (Input 2) :=
  ([.toWorker s 0, .toWorker t 0, .built s 1 true 0, .built t 1 true 0, .start],
   [.toWorker s 0, .toWorker t 0, .frame, .toWorker s 0, .toWorker t 0, .toWorker s 0, .toWorker t 0,
    .toProxy s, .toProxy t, .frame, .toWorker s 0, .toWorker t 0])

/-- Two sessions of different cost past a join: the grant of entry 1 to the second is one chunk past
its own baseline. -/
theorem pace_rebase_past_join :
    let S := Machine.run (Sys.step writingWorld)
      ((Sys.after writingWorld () 0 fastAndSlow (paced 0 1).1).step writingWorld .reset) (paced 0 1).2
    S.c.baseline 0 = 47496 ∧ S.c.baseline 1 = 189984 ∧
    (⟨1, 2, ((189984 + 1000000 / 3 : ℚ) : Limit), 20000⟩ : Grant).playLimitNs =
      (((S.w 1).playbackNs + 20000 * MS_PER_FRAME : ℚ) : Limit) := by
  intro S
  refine ⟨by decide +kernel, by decide +kernel, ?_⟩
  exact (pace_rebase writingWorld () 0 fastAndSlow (paced 0 1).1 (paced 0 1).2 (by decide +kernel)
    (by decide +kernel)).2.2 1 1 ⟨1, 2, ((189984 + 1000000 / 3 : ℚ) : Limit), 20000⟩ []
    (by decide +kernel) (.of_authorized (by decide +kernel)) (by decide)

end FlashVis

import FlashVis.Coord.Lockstep

/-!
# What the calls of the coordinator change

Each call is described once, as a record update of the coordinator before it; every later proof
starts from these equations.

* `ensure_eq`, `raceFrontier_eq`, `paceAdvance_eq`   generation and the two modes;
* `computeGrants_derives`                             the derived grants;
* `frame_proxies`                                     the messages of one frame;
* `derived_cases`                                     the three outcomes of a round step.
-/

namespace FlashVis

/-- The messages `ms` follow what is already in the port. -/
def Proxy.sendAll (ms : List C2W) (p : Proxy) : Proxy := { p with port := p.port ++ ms }

@[simp] theorem Proxy.sendAll_acked (ms : List C2W) (p : Proxy) :
    (p.sendAll ms).acked = p.acked := rfl

@[simp] theorem Proxy.sendAll_port (ms : List C2W) (p : Proxy) :
    (p.sendAll ms).port = p.port ++ ms := rfl

theorem Proxy.sendAll_sendAll (ms ms' : List C2W) (p : Proxy) :
    (p.sendAll ms).sendAll ms' = p.sendAll (ms ++ ms') := by
  simp [sendAll, List.append_assoc]

/-- The ENTRIES message of a list, none for the empty list. -/
def entriesMsg (e : Int) (l : List Entry) : List C2W := if l = [] then [] else [.entries e l]

theorem Proxy.entries_eq (l : List Entry) (p : Proxy) :
    p.entries l = p.sendAll (entriesMsg p.epoch l) := by
  unfold Proxy.entries entriesMsg Proxy.sendAll Proxy.send
  split <;> simp

theorem mem_entriesMsg {e : Int} {l : List Entry} {m : C2W} (h : m ∈ entriesMsg e l) :
    m = .entries e l := by
  unfold entriesMsg at h
  split at h
  · exact absurd h (by simp)
  · simpa using h

/-- The entries that `ensure` makes; commands come from `broadcast`. -/
def SeqEntry.generated : SeqEntry → Bool
  | .gc | .event _ => true
  | .command _ _ => false

/-- `l` continues `k` by generated entries only. -/
def Extends (k l : List SeqEntry) : Prop := ∃ x, l = k ++ x ∧ ∀ e ∈ x, e.generated = true

theorem Extends.refl (k : List SeqEntry) : Extends k k := ⟨[], by simp, by simp⟩

theorem Extends.grows {k l : List SeqEntry} (h : Extends k l) : k <+: l := by
  obtain ⟨x, rfl, -⟩ := h
  exact List.prefix_append _ _

namespace Lockstep
variable {γ : Type} {n : Nat} {G : Churn γ}

/-! ## generation -/

theorem extend_eq (c : Lockstep γ n) : ∃ e r g, e.generated = true ∧
    c.extend G = { c with sequence := c.sequence ++ [e], rnd := r, churn := g } := by
  have h1 : ∃ e r g, SeqEntry.generated e = true ∧ c.genStep G = (e, { c with rnd := r, churn := g }) := by
    unfold genStep
    generalize mulberry32 c.rnd = draw
    obtain ⟨s, u⟩ := draw
    dsimp only
    by_cases hu : unitOf u < c.ratio
    · rw [if_pos hu]
      exact ⟨_, _, _, rfl, rfl⟩
    · rw [if_neg hu]
      exact ⟨_, _, _, rfl, rfl⟩
  obtain ⟨e, r, g, hgen, he⟩ := h1
  refine ⟨e, r, g, hgen, ?_⟩
  unfold extend
  rw [he]

theorem generate_eq (k : Nat) (c : Lockstep γ n) : ∃ l r g, l.length = k ∧
    (∀ e ∈ l, e.generated = true) ∧
    c.generate G k = { c with sequence := c.sequence ++ l, rnd := r, churn := g } := by
  induction k generalizing c with
  | zero =>
    exact ⟨[], c.rnd, c.churn, rfl, by simp,
      by rw [List.append_nil, generate, Function.iterate_zero, id]⟩
  | succ k ih =>
    obtain ⟨e, r, g, hgen, he⟩ := extend_eq (G := G) c
    obtain ⟨l, r', g', hl, hgl, heq⟩ := ih (c.extend G)
    refine ⟨e :: l, r', g', by rw [List.length_cons, hl], ?_, ?_⟩
    · exact fun x hx => (List.mem_cons.mp hx).elim (fun h => h ▸ hgen) (hgl x)
    rw [generate, Function.iterate_succ_apply]
    show (c.extend G).generate G k = _
    rw [heq, he]
    simp only [List.append_assoc, List.singleton_append]

theorem ensure_eq (len : Nat) (c : Lockstep γ n) : ∃ l r g,
    l.length = len - c.sequence.length ∧ (∀ e ∈ l, e.generated = true) ∧
    c.ensure G len = { c with sequence := c.sequence ++ l, rnd := r, churn := g } :=
  generate_eq _ c

theorem raceFrontier_eq (c : Lockstep γ n) : ∃ l r g,
    (c.running = false → l = []) ∧ (∀ e ∈ l, e.generated = true) ∧
    c.raceFrontier G = { c with
      sequence := c.sequence ++ l, rnd := r, churn := g, frontier := (c.sequence ++ l).length } := by
  unfold raceFrontier
  by_cases h : c.running = true
  · obtain ⟨l, r, g, -, hgen, heq⟩ := ensure_eq (G := G) (c.maxCursor + RACE_LOOKAHEAD) c
    refine ⟨l, r, g, by simp [h], hgen, ?_⟩
    simp only [h, if_true, heq]
  · exact ⟨[], c.rnd, c.churn, fun _ => rfl, by simp, by simp [h]⟩

/-! ## the Pace join -/

/-- `k` shared steps passed: the baselines are the acked positions, unless `k` is zero. -/
def passed (k : Nat) (c : Lockstep γ n) : Lockstep γ n :=
  { c with
    sharedIndex := c.sharedIndex + k
    baseline := if k = 0 then c.baseline else fun s => (c.acked s).playbackNs }

theorem advanceLoop_eq (fuel : Nat) (c : Lockstep γ n) : ∃ k, k ≤ fuel ∧
    advanceLoop fuel c = c.passed k ∧
    (k < fuel → (c.passed k).joined = false) ∧
    (∀ j < k, ∀ s, ((c.sharedIndex + j : Nat) : Int) ≤ (c.acked s).entriesDrained) ∧
    (0 < k → 0 < n) := by
  induction fuel generalizing c with
  | zero => exact ⟨0, le_refl _, rfl, by simp, by simp, by simp⟩
  | succ fuel ih =>
    unfold advanceLoop
    by_cases h : c.joined = true
    · obtain ⟨k, hk, heq, hdone, hle, -⟩ := ih { c with
        baseline := fun s => (c.acked s).playbackNs, sharedIndex := c.sharedIndex + 1 }
      have hj := h
      simp only [joined, Bool.and_eq_true, decide_eq_true_eq] at hj
      have hpass : ({ c with
          baseline := fun s => (c.acked s).playbackNs
          sharedIndex := c.sharedIndex + 1 } : Lockstep γ n).passed k = c.passed (k + 1) := by
        simp only [passed, Nat.add_assoc, Nat.add_comm 1 k, Nat.succ_ne_zero, if_false]
        split <;> rfl
      refine ⟨k + 1, Nat.succ_le_succ hk, ?_, ?_, ?_, fun _ => hj.1⟩
      · rw [if_pos h, heq, hpass]
      · intro hlt
        rw [← hpass]
        exact hdone (Nat.lt_of_succ_lt_succ hlt)
      · intro j hj' s
        cases j with
        | zero => exact hj.2 s
        | succ j =>
          have := hle j (Nat.lt_of_succ_lt_succ hj') s
          have hacc : ∀ b x, ({ c with baseline := b, sharedIndex := x } : Lockstep γ n).acked s
              = c.acked s := fun _ _ => rfl
          rw [hacc] at this
          push_cast at this ⊢
          linarith
    · rw [if_neg h]
      refine ⟨0, Nat.zero_le _, rfl, fun _ => ?_, by simp, by simp⟩
      rw [Bool.not_eq_true] at h
      exact h

/-- The fuel of the loop is enough: afterwards some session has not drained the shared index. -/
theorem advanceLoop_done (c : Lockstep γ n) : (advanceLoop c.advanceFuel c).joined = false := by
  obtain ⟨k, hk, heq, hdone, hle, hn⟩ := advanceLoop_eq c.advanceFuel c
  rw [heq]
  rcases Nat.lt_or_eq_of_le hk with hlt | hkf
  · exact hdone hlt
  by_contra hj
  rw [Bool.not_eq_false] at hj
  simp only [joined, Bool.and_eq_true, decide_eq_true_eq] at hj
  have h0 := hj.2 ⟨0, hj.1⟩
  have hacc : (c.passed k).acked ⟨0, hj.1⟩ = c.acked ⟨0, hj.1⟩ := rfl
  rw [hacc] at h0
  simp only [passed, advanceFuel, dif_pos hj.1] at h0 hkf
  omega

theorem paceAdvance_eq (c : Lockstep γ n) : ∃ k l r g,
    c.paceAdvance G = { c.passed k with
      sequence := c.sequence ++ l, rnd := r, churn := g, forceProduce := false } ∧
    (c.passed k).joined = false ∧
    (∀ j < k, ∀ s, ((c.sharedIndex + j : Nat) : Int) ≤ (c.acked s).entriesDrained) ∧
    (c.running = false → c.forceProduce = false → l = []) ∧ (∀ e ∈ l, e.generated = true) := by
  obtain ⟨k, -, heq, -, hle, -⟩ := advanceLoop_eq c.advanceFuel c
  have hdone := advanceLoop_done c
  unfold paceAdvance
  rw [heq] at hdone ⊢
  dsimp only
  by_cases h : (((c.passed k).running || (c.passed k).forceProduce)
      && decide ((c.passed k).sequence.length ≤ (c.passed k).sharedIndex)) = true
  · obtain ⟨l, r, g, -, hgen, he⟩ := ensure_eq (G := G) ((c.passed k).sharedIndex + 1) (c.passed k)
    refine ⟨k, l, r, g, ?_, hdone, hle, ?_, hgen⟩
    · rw [if_pos h, he]
      rfl
    · intro hr hf
      exact absurd h (by simp [passed, hr, hf])
  · refine ⟨k, [], c.rnd, c.churn, ?_, hdone, hle, fun _ _ => rfl, by simp⟩
    rw [if_neg h]
    simp [passed]

/-! ## grants -/

theorem acked_congr {c c' : Lockstep γ n} (h : c'.proxies = c.proxies) (s : Fin n) :
    c'.acked s = c.acked s := by
  unfold acked
  rw [h]

/-- What `computeGrants` leaves alone. -/
structure Derives (c c' : Lockstep γ n) : Prop where
  proxies : c'.proxies = c.proxies
  epoch : c'.epoch = c.epoch
  mode : c'.mode = c.mode
  scale : c'.scale = c.scale
  running : c'.running = c.running
  shipped : c'.shipped = c.shipped
  sequence : Extends c.sequence c'.sequence

theorem prepareGrants_derives (c : Lockstep γ n) : Derives c (c.prepareGrants G) ∧
    (c.prepareGrants G).raceStepLimit = c.raceStepLimit ∧
    (c.prepareGrants G).round = c.round ∧
    (c.prepareGrants G).lastComputedRound = c.lastComputedRound := by
  unfold prepareGrants
  cases c.mode with
  | race =>
    obtain ⟨l, r, g, -, hgen, heq⟩ := raceFrontier_eq (G := G) c
    dsimp only
    rw [heq]
    exact ⟨⟨rfl, rfl, rfl, rfl, rfl, rfl, l, rfl, hgen⟩, rfl, rfl, rfl⟩
  | pace =>
    obtain ⟨k, l, r, g, heq, -, -, -, hgen⟩ := paceAdvance_eq (G := G) c
    dsimp only
    rw [heq]
    exact ⟨⟨rfl, rfl, rfl, rfl, rfl, rfl, l, rfl, hgen⟩, rfl, rfl, rfl⟩

theorem computeGrants_derives (r : Int) (c : Lockstep γ n) : Derives c (c.computeGrants G r) := by
  have h := (prepareGrants_derives (G := G) c).1
  exact ⟨h.proxies, h.epoch, h.mode, h.scale, h.running, h.shipped, h.sequence⟩

theorem computeGrants_cached (r : Int) (c : Lockstep γ n) (s : Fin n) :
    (c.computeGrants G r).cached s = some ((c.prepareGrants G).grantOf r s) := rfl

theorem advanceRound_derives (c : Lockstep γ n) : Derives c (c.advanceRound G) := by
  unfold advanceRound
  split
  · have h := computeGrants_derives (G := G) c.round c
    exact ⟨h.proxies, h.epoch, h.mode, h.scale, h.running, h.shipped, h.sequence⟩
  · split
    · have h := computeGrants_derives (G := G) (c.round + 1) { c with round := c.round + 1 }
      exact ⟨h.proxies, h.epoch, h.mode, h.scale, h.running, h.shipped, h.sequence⟩
    · exact ⟨rfl, rfl, rfl, rfl, rfl, rfl, .refl _⟩

/-! ## frames -/

theorem shipEntries_proxies (c : Lockstep γ n) (s : Fin n) :
    c.shipEntries.proxies s = (c.proxies s).sendAll
      (entriesMsg (c.proxies s).epoch ((wire c.sequence).drop (c.shipped s))) :=
  Proxy.entries_eq _ _

theorem sendGrants_proxies (c : Lockstep γ n) (s : Fin n) :
    c.sendGrants.proxies s = (c.proxies s).sendAll
      ((c.cached s).toList.map fun g => .grant (c.proxies s).epoch g) := by
  unfold sendGrants
  cases h : c.cached s with
  | none => simp [h, Proxy.sendAll]
  | some g => simp [h, Proxy.sendAll, Proxy.grant, Proxy.send]

/-- The coordinator of a frame after its round step. -/
def derived (G : Churn γ) (c : Lockstep γ n) : Lockstep γ n := c.shipEntries.advanceRound G

theorem frame_eq (hn : n ≠ 0) (c : Lockstep γ n) :
    c.frame G = (c.derived G).shipEntries.sendGrants := by
  unfold frame derived
  rw [if_neg hn]

/-- The messages that one frame sends to session `s`. -/
def frameMsgs (G : Churn γ) (c : Lockstep γ n) (s : Fin n) : List C2W :=
  let e := (c.proxies s).epoch
  entriesMsg e ((wire c.sequence).drop (c.shipped s))
    ++ entriesMsg e ((wire (c.derived G).sequence).drop (max (c.shipped s) c.sequence.length))
    ++ ((c.derived G).cached s).toList.map fun g => .grant e g

theorem frame_proxies (hn : n ≠ 0) (c : Lockstep γ n) (s : Fin n) :
    (c.frame G).proxies s = (c.proxies s).sendAll (c.frameMsgs G s) := by
  have hd := advanceRound_derives (G := G) c.shipEntries
  have h1 : (c.derived G).proxies s = c.shipEntries.proxies s := congrFun hd.proxies s
  have h2 : (c.derived G).shipped s = max (c.shipped s) c.sequence.length := congrFun hd.shipped s
  rw [frame_eq hn, sendGrants_proxies, shipEntries_proxies, h1, h2, shipEntries_proxies]
  rw [Proxy.sendAll_sendAll, Proxy.sendAll_sendAll, frameMsgs, List.append_assoc]
  rfl

theorem frame_derived (hn : n ≠ 0) (c : Lockstep γ n) : ∃ P sh,
    c.frame G = { c.derived G with proxies := P, shipped := sh } := by
  rw [frame_eq hn]
  exact ⟨_, _, rfl⟩

theorem shipEntries_acked (c : Lockstep γ n) (s : Fin n) : c.shipEntries.acked s = c.acked s := by
  unfold acked
  rw [shipEntries_proxies]
  rfl

theorem roundAcked_iff (c : Lockstep γ n) :
    c.shipEntries.roundAcked = true ↔ ∀ s, c.round ≤ (c.acked s).round := by
  unfold roundAcked
  rw [decide_eq_true_iff]
  exact forall_congr' fun s => by rw [shipEntries_acked]; rfl

/-- The three outcomes of a round step: grants for the same round, for the next one (every session
has acked this one), or none. -/
theorem derived_cases (c : Lockstep γ n) :
    (c.lastComputedRound < c.round ∧ c.derived G =
      { c.shipEntries.computeGrants G c.round with lastComputedRound := c.round }) ∨
    (c.round ≤ c.lastComputedRound ∧ (∀ s, c.round ≤ (c.acked s).round) ∧ c.derived G =
      { { c.shipEntries with round := c.round + 1 }.computeGrants G (c.round + 1) with
        lastComputedRound := c.round + 1 }) ∨
    (c.round ≤ c.lastComputedRound ∧ (¬ ∀ s, c.round ≤ (c.acked s).round) ∧
      c.derived G = c.shipEntries) := by
  unfold derived advanceRound
  by_cases h1 : c.lastComputedRound < c.round
  · rw [if_pos (show c.shipEntries.lastComputedRound < c.shipEntries.round from h1)]
    exact .inl ⟨h1, rfl⟩
  rw [if_neg (show ¬ c.shipEntries.lastComputedRound < c.shipEntries.round from h1)]
  by_cases h2 : c.shipEntries.roundAcked = true
  · rw [if_pos h2]
    exact .inr (.inl ⟨le_of_not_gt h1, (roundAcked_iff c).mp h2, rfl⟩)
  · rw [if_neg h2]
    exact .inr (.inr ⟨le_of_not_gt h1, fun h => h2 ((roundAcked_iff c).mpr h), rfl⟩)

theorem grantOf_round (r : Int) (c : Lockstep γ n) (s : Fin n) : (c.grantOf r s).round = r := by
  unfold grantOf
  split <;> rfl

theorem computeGrants_round (r : Int) (c : Lockstep γ n) : (c.computeGrants G r).round = c.round :=
  (prepareGrants_derives (G := G) c).2.2.1

/-- A frame keeps the round or passes the barrier. -/
theorem frame_round (c : Lockstep γ n) :
    (c.frame G).round = c.round ∨
      (c.frame G).round = c.round + 1 ∧ ∀ s, c.round ≤ (c.acked s).round := by
  by_cases hn : n = 0
  · rw [frame, if_pos hn]
    exact .inl rfl
  obtain ⟨P, sh, hf⟩ := frame_derived (G := G) hn c
  rw [hf]
  rcases derived_cases (G := G) c with ⟨-, h⟩ | ⟨-, hall, h⟩ | ⟨-, -, h⟩ <;> rw [h]
  · exact .inl (computeGrants_round c.round c.shipEntries)
  · exact .inr ⟨computeGrants_round (c.round + 1) { c.shipEntries with round := c.round + 1 }, hall⟩
  · exact .inl rfl

theorem frame_cached (c : Lockstep γ n) (s : Fin n)
    (h : ∀ g, c.cached s = some g → g.round ≤ c.round) :
    ∀ g, (c.frame G).cached s = some g → g.round ≤ (c.frame G).round := by
  by_cases hn : n = 0
  · rw [frame, if_pos hn]
    exact h
  obtain ⟨P, sh, hf⟩ := frame_derived (G := G) hn c
  rw [hf]
  intro g hg
  rcases derived_cases (G := G) c with ⟨-, hd⟩ | ⟨-, -, hd⟩ | ⟨-, -, hd⟩ <;> rw [hd] at hg ⊢
  · dsimp only at hg ⊢
    rw [computeGrants_cached, Option.some.injEq] at hg
    rw [computeGrants_round, ← hg, grantOf_round]
    exact le_refl _
  · dsimp only at hg ⊢
    rw [computeGrants_cached, Option.some.injEq] at hg
    rw [computeGrants_round, ← hg, grantOf_round]
  · exact h g hg

end Lockstep
end FlashVis

import FlashVis.Coord.Facts

/-!
# The clock-release algebra of `computeGrants`

What the derived watermarks are, in both modes, and when a frame derives them.

* `relMin_spec`, `relMax_spec`   the slowest and the furthest session;
* `Bounded c s g`                the bounds of a Race grant: nothing below the acked position, one
                                 to two chunks for the slowest session, at most two for the others;
* `bounded_race`                 every Race watermark has them;
* `frame_cases`                  a frame keeps the grants or derives all of them.
-/

namespace FlashVis
namespace Lockstep
variable {γ : Type} {n : Nat} {G : Churn γ} {c c' : Lockstep γ n}

theorem relMin_spec (hn : n ≠ 0) :
    (∃ t, c.relMin = (c.acked t).playbackNs - c.baseline t) ∧
      ∀ t, c.relMin ≤ (c.acked t).playbackNs - c.baseline t := by
  have hne : c.rels ≠ [] := by simpa [rels] using hn
  obtain ⟨m, hm⟩ := Option.isSome_iff_exists.mp (List.isSome_min?_of_ne_nil hne)
  have h := List.min?_eq_some_iff.mp hm
  have hr : c.relMin = m := by rw [relMin, hm]; rfl
  rw [hr]
  constructor
  · obtain ⟨t, -, ht⟩ := List.mem_map.mp h.1
    exact ⟨t, ht.symm⟩
  · exact fun t => h.2 _ (List.mem_map.mpr ⟨t, List.mem_finRange t, rfl⟩)

theorem relMax_spec (hn : n ≠ 0) :
    (∃ t, c.relMax = (c.acked t).playbackNs - c.baseline t) ∧
      ∀ t, (c.acked t).playbackNs - c.baseline t ≤ c.relMax := by
  have hne : c.rels ≠ [] := by simpa [rels] using hn
  obtain ⟨m, hm⟩ := Option.isSome_iff_exists.mp (List.isSome_max?_of_ne_nil hne)
  have h := List.max?_eq_some_iff.mp hm
  have hr : c.relMax = m := by rw [relMax, hm]; rfl
  rw [hr]
  constructor
  · obtain ⟨t, -, ht⟩ := List.mem_map.mp h.1
    exact ⟨t, ht.symm⟩
  · exact fun t => h.2 _ (List.mem_map.mpr ⟨t, List.mem_finRange t, rfl⟩)

/-! ## watermarks -/

theorem playLimit_congr (ha : ∀ s, c'.acked s = c.acked s) (hb : c'.baseline = c.baseline)
    (hs : c'.scale = c.scale) (hm : c'.mode = c.mode) (s : Fin n) :
    c'.playLimit s = c.playLimit s := by
  have hr : c'.rels = c.rels := by simp only [rels, ha, hb]
  have hrel : c'.rel = c.rel := by
    unfold rel relMax relMin chunkNs
    rw [hr, hs, hm]
  unfold playLimit
  rw [hrel, ha, hb]

/-- The bounds of the grant `g` for session `s`, with the acks and the chunk of `c`. -/
def Bounded (c : Lockstep γ n) (s : Fin n) (g : Grant) : Prop :=
  ∃ l : ℚ, g.playLimitNs = l ∧ (c.acked s).playbackNs ≤ l ∧
    l - (c.acked s).playbackNs ≤ 2 * c.chunkNs ∧
    ((∀ t, (c.acked s).playbackNs ≤ (c.acked t).playbackNs) →
      c.chunkNs ≤ l - (c.acked s).playbackNs)

/-- Race over zero baselines: no session is granted more than two chunks past any session's acked
position, or past its own. -/
theorem playLimit_race (hm : c.mode = .race) (hb : ∀ s, c.baseline s = 0) (hc : 0 ≤ c.chunkNs)
    (hpos : ∀ s, 0 ≤ (c.acked s).playbackNs) (s : Fin n) :
    (c.acked s).playbackNs ≤ c.playLimit s ∧
      (∀ t, c.playLimit s ≤ max (c.acked s).playbackNs ((c.acked t).playbackNs + 2 * c.chunkNs)) ∧
      ((∀ t, (c.acked s).playbackNs ≤ (c.acked t).playbackNs) →
        c.chunkNs ≤ c.playLimit s - (c.acked s).playbackNs) := by
  have hn : n ≠ 0 := fun h => (h ▸ s).elim0
  obtain ⟨⟨tmin, hmin⟩, hle⟩ := relMin_spec (c := c) hn
  obtain ⟨⟨tmax, hmax⟩, hge⟩ := relMax_spec (c := c) hn
  simp only [hb, sub_zero] at hmin hle hmax hge
  have hmin0 : 0 ≤ c.relMin := hmin ▸ hpos tmin
  have hrel : c.rel = max (min (c.relMax + c.chunkNs) (c.relMin + 2 * c.chunkNs)) c.chunkNs := by
    unfold rel
    rw [hm]
    rfl
  have hup : c.rel ≤ c.relMin + 2 * c.chunkNs := by
    rw [hrel]
    exact max_le (min_le_right _ _) (by linarith)
  have hlow : c.relMin + c.chunkNs ≤ c.rel := by
    rw [hrel]
    refine le_trans (le_min ?_ (by linarith)) (le_max_left _ _)
    linarith [hge tmin, hle tmin]
  have hlim : c.playLimit s = max (c.acked s).playbackNs c.rel := by
    unfold playLimit
    rw [hb, zero_add]
    split
    · exact (max_eq_left (le_of_lt ‹_›)).symm
    · exact (max_eq_right (not_lt.mp ‹_›)).symm
  rw [hlim]
  refine ⟨le_max_left _ _, fun t => max_le_max_left _ ?_, fun hs => ?_⟩
  · linarith [hle t]
  · have := hs tmin
    linarith [le_max_right (c.acked s).playbackNs c.rel]

theorem bounded_race (hm : c.mode = .race) (hb : ∀ s, c.baseline s = 0) (hc : 0 ≤ c.chunkNs)
    (hpos : ∀ s, 0 ≤ (c.acked s).playbackNs) (s : Fin n) {g : Grant}
    (hg : g.playLimitNs = (c.playLimit s : ℚ)) : c.Bounded s g := by
  obtain ⟨h1, h2, h3⟩ := playLimit_race hm hb hc hpos s
  refine ⟨_, hg, h1, ?_, h3⟩
  have := h2 s
  rw [max_eq_right (by linarith)] at this
  linarith

/-- Pace: one chunk past the furthest session, counted from the baselines; so at least one chunk
for everybody. -/
theorem playLimit_pace (hm : c.mode = .pace) (hc : 0 ≤ c.chunkNs) (s : Fin n) :
    c.playLimit s = c.baseline s + c.relMax + c.chunkNs ∧
      (c.acked s).playbackNs + c.chunkNs ≤ c.playLimit s := by
  obtain ⟨-, hge⟩ := relMax_spec (c := c) (fun h => (h ▸ s).elim0)
  have hrel : c.rel = c.relMax + c.chunkNs := by
    unfold rel
    rw [hm]
  have hlim : c.playLimit s = c.baseline s + c.relMax + c.chunkNs := by
    unfold playLimit
    rw [hrel, if_neg (by linarith [hge s]), add_assoc]
  exact ⟨hlim, by linarith [hge s]⟩

/-- Right after a shared step is passed, the watermark is one chunk past the acked position. -/
theorem playLimit_passed {k : Nat} (hk : 0 < k) (hm : c.mode = .pace) (hc : 0 ≤ c.chunkNs)
    (s : Fin n) : (c.passed k).playLimit s = (c.acked s).playbackNs + c.chunkNs := by
  obtain ⟨⟨t, ht⟩, -⟩ := relMax_spec (c := c.passed k) (fun h => (h ▸ s).elim0)
  have hb : (c.passed k).baseline = fun s => (c.acked s).playbackNs := by
    unfold passed
    rw [if_neg (by omega)]
  have hmax : (c.passed k).relMax = 0 := by
    rw [ht, hb]
    exact sub_self _
  rw [(playLimit_pace (c := c.passed k) hm hc s).1, hmax, hb, add_zero]
  rfl

/-! ## when grants are derived -/

/-- The coordinator of a frame when it derives the grants of round `r`. -/
def entering (r : Int) (c : Lockstep γ n) : Lockstep γ n := { c.shipEntries with round := r }

theorem entering_acked (r : Int) (c : Lockstep γ n) (s : Fin n) :
    (c.entering r).acked s = c.acked s := shipEntries_acked c s

theorem entering_playLimit (r : Int) (c : Lockstep γ n) (s : Fin n) :
    (c.entering r).playLimit s = c.playLimit s := by
  apply playLimit_congr
  · exact entering_acked r c
  · rfl
  · rfl
  · rfl

/-- A frame keeps the grants of every session, or derives all of them for a newer round. -/
theorem frame_cases (hn : n ≠ 0) (c : Lockstep γ n) : ∃ P sh,
    (c.round ≤ c.lastComputedRound ∧ (¬ ∀ s, c.round ≤ (c.acked s).round) ∧
      c.frame G = { c with proxies := P, shipped := sh }) ∨
    ∃ r, (c.lastComputedRound < c.round ∧ r = c.round ∨
        c.round ≤ c.lastComputedRound ∧ r = c.round + 1 ∧ ∀ s, c.round ≤ (c.acked s).round) ∧
      c.frame G = { (c.entering r).computeGrants G r with
        lastComputedRound := r, proxies := P, shipped := sh } := by
  obtain ⟨P, sh, hf⟩ := frame_derived (G := G) hn c
  refine ⟨P, sh, ?_⟩
  rw [hf]
  rcases derived_cases (G := G) c with ⟨hlt, h⟩ | ⟨hle, hall, h⟩ | ⟨hle, hno, h⟩
  · exact .inr ⟨c.round, .inl ⟨hlt, rfl⟩, by rw [h]; rfl⟩
  · exact .inr ⟨c.round + 1, .inr ⟨hle, rfl, hall⟩, by rw [h]; rfl⟩
  · exact .inl ⟨hle, hno, by rw [h]; rfl⟩

theorem frame_current (hn : n ≠ 0) (c : Lockstep γ n) :
    (c.frame G).round ≤ (c.frame G).lastComputedRound := by
  obtain ⟨P, sh, ⟨hle, -, hf⟩ | ⟨r, -, hf⟩⟩ := frame_cases (G := G) hn c
  · rw [hf]
    exact hle
  · rw [hf]
    exact le_of_eq (computeGrants_round r (c.entering r))

theorem computeGrants_race (hm : c.mode = .race) (hs : c.raceStepLimit = none) (r : Int) :
    ∃ l rnd g, (c.running = false → l = []) ∧ (∀ e ∈ l, e.generated = true) ∧
      c.computeGrants G r = { c with
        sequence := c.sequence ++ l, rnd := rnd, churn := g, frontier := (c.sequence ++ l).length
        cached := fun s => some ⟨r, (c.sequence ++ l).length, (c.playLimit s : ℚ), c.scale⟩ } := by
  obtain ⟨l, rnd, g, hrun, hgen, heq⟩ := raceFrontier_eq (G := G) c
  refine ⟨l, rnd, g, hrun, hgen, ?_⟩
  have hprep : c.prepareGrants G = c.raceFrontier G := by
    unfold prepareGrants
    rw [hm]
  unfold computeGrants
  rw [hprep, heq]
  simp only [grantOf, hs, entryLimit, hm]
  congr 1
  funext s
  simp only [Option.some.injEq, Grant.mk.injEq, WithTop.coe_inj, true_and, and_true]
  apply playLimit_congr
  · exact fun _ => rfl
  · rfl
  · rfl
  · exact hm.symm

theorem computeGrants_pace (hm : c.mode = .pace) (hs : c.raceStepLimit = none) (r : Int) :
    ∃ k l rnd g, (c.passed k).joined = false ∧
      (∀ j < k, ∀ s, ((c.sharedIndex + j : Nat) : Int) ≤ (c.acked s).entriesDrained) ∧
      c.computeGrants G r = { c.passed k with
        sequence := c.sequence ++ l, rnd := rnd, churn := g, forceProduce := false
        cached := fun s => some ⟨r, max (c.sharedIndex + k + 1) (c.acked s).cursor,
          ((c.passed k).playLimit s : ℚ), c.scale⟩ } := by
  obtain ⟨k, l, rnd, g, heq, hdone, hle, -⟩ := paceAdvance_eq (G := G) c
  refine ⟨k, l, rnd, g, hdone, hle, ?_⟩
  have hprep : c.prepareGrants G = c.paceAdvance G := by
    unfold prepareGrants
    rw [hm]
  unfold computeGrants
  rw [hprep, heq]
  simp only [grantOf, passed, hs, entryLimit, hm]
  congr 1

end Lockstep
end FlashVis

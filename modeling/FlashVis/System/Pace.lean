import FlashVis.System.Lively

/-!
# Pace: what a call does to the shared index and the grants

* `Input.pacing`      events of a Pace run over a fixed set of sessions;
* `Pacing c`          the coordinator of a Pace run;
* `PaceCall c c'`     a call keeps the shared step, or passes steps and derives all grants;
* `call_pace`         every call of a Pace run is one or the other;
* `grantsOf E ms`     the grants of epoch `E` on a channel, `limitIn E p` the entries authorized.
-/

namespace FlashVis

/-- Events of a Pace run over a fixed set of sessions: no switch to Race, no prep. -/
def Input.pacing {n : Nat} (i : Input n) : Bool :=
  i.metered && i.keepsEpoch && match i with
    | .setMode .race => false
    | _ => true

theorem Input.pacing_metered {n : Nat} {i : Input n} (h : i.pacing = true) : i.metered = true := by
  unfold pacing at h
  simp_all

theorem Input.pacing_keepsEpoch {n : Nat} {i : Input n} (h : i.pacing = true) :
    i.keepsEpoch = true := by
  unfold pacing at h
  simp_all

namespace Lockstep
variable {γ : Type} {n : Nat}

/-- The coordinator of a Pace run. -/
structure Pacing (c : Lockstep γ n) : Prop where
  mode : c.mode = .pace
  stepLimit : c.raceStepLimit = none
  scale : 0 ≤ c.scale
  round : 0 ≤ c.round

theorem Pacing.chunk {c : Lockstep γ n} (h : c.Pacing) : 0 ≤ c.chunkNs :=
  mul_nonneg h.scale (le_of_lt MS_PER_FRAME_pos)

/-- What a call of a Pace run does: it keeps the shared step, or it passes `k` steps that every
session has drained and derives all grants. -/
inductive PaceCall (c c' : Lockstep γ n) : Prop
  | keep (index : c'.sharedIndex = c.sharedIndex) (baseline : c'.baseline = c.baseline)
      (cached : c'.cached = c.cached)
      (stale : c'.round ≤ c'.lastComputedRound → c.round ≤ c.lastComputedRound)
  | derive (k : Nat) (r : Int) (index : c'.sharedIndex = c.sharedIndex + k)
      (drained : ∀ j < k, ∀ s, ((c.sharedIndex + j : Nat) : Int) ≤ (c.acked s).entriesDrained)
      (baseline : c'.baseline = if k = 0 then c.baseline else fun s => (c.acked s).playbackNs)
      (cached : ∀ s, c'.cached s = some ⟨r, max (c.sharedIndex + k + 1) (c.acked s).cursor,
        ((c.passed k).playLimit s : ℚ), c.scale⟩)

theorem Pacing.derive {G : Churn γ} {c : Lockstep γ n} (h : c.Pacing) {P : Fin n → Proxy}
    {sh : Fin n → Nat} {r : Int} (hf : c.frame G = { (c.entering r).computeGrants G r with
      lastComputedRound := r, proxies := P, shipped := sh }) :
    (c.frame G).mode = .pace ∧ (c.frame G).raceStepLimit = none ∧ (c.frame G).scale = c.scale ∧
      ∃ k : Nat, (c.frame G).sharedIndex = c.sharedIndex + k ∧
        (∀ j < k, ∀ s, ((c.sharedIndex + j : Nat) : Int) ≤ (c.acked s).entriesDrained) ∧
        (c.frame G).baseline = (if k = 0 then c.baseline else fun s => (c.acked s).playbackNs) ∧
        ∀ s, (c.frame G).cached s = some ⟨r, max (c.sharedIndex + k + 1) (c.acked s).cursor,
          ((c.passed k).playLimit s : ℚ), c.scale⟩ := by
  obtain ⟨k, l, rnd, g, -, hle, heq⟩ := computeGrants_pace (G := G) (c := c.entering r) h.mode
    h.stepLimit r
  rw [hf, heq]
  refine ⟨h.mode, h.stepLimit, rfl, k, rfl, ?_, ?_, fun s => ?_⟩
  · intro j hj s
    have := hle j hj s
    rwa [entering_acked] at this
  · show (if k = 0 then _ else fun s => ((c.entering r).acked s).playbackNs) = _
    simp only [entering_acked]
    rfl
  · have hl : ((c.entering r).passed k).playLimit s = (c.passed k).playLimit s := by
      apply playLimit_congr
      · exact entering_acked r c
      · show (if k = 0 then _ else fun s => ((c.entering r).acked s).playbackNs) = _
        simp only [entering_acked]
        rfl
      · rfl
      · rfl
    show some _ = some _
    rw [hl, entering_acked]
    rfl

/-- `step()` in Pace forces an entry, and the grants to be derived anew. -/
theorem nudged_pace (G : Churn γ) {c : Lockstep γ n} (hm : c.mode = .pace) :
    c.nudged G = { c with forceProduce := true, lastComputedRound := -1 } := by
  unfold nudged
  rw [hm]

theorem Pacing.nudged {c : Lockstep γ n} (h : c.Pacing) (G : Churn γ) : (c.nudged G).Pacing := by
  rw [nudged_pace G h.mode]
  exact ⟨h.mode, h.stepLimit, h.scale, h.round⟩

theorem Pacing.frame {G : Churn γ} {c : Lockstep γ n} (h : c.Pacing) :
    (c.frame G).Pacing ∧ PaceCall c (c.frame G) := by
  by_cases hn : n = 0
  · rw [Lockstep.frame, if_pos hn]
    exact ⟨h, .keep rfl rfl rfl id⟩
  have hround : 0 ≤ (c.frame G).round := by
    rcases Lockstep.frame_round (G := G) c with hr | ⟨hr, -⟩ <;> rw [hr] <;> linarith [h.round]
  obtain ⟨P, sh, ⟨-, -, hf⟩ | ⟨r, -, hf⟩⟩ := frame_cases (G := G) hn c
  · rw [hf]
    exact ⟨⟨h.mode, h.stepLimit, h.scale, h.round⟩, .keep rfl rfl rfl id⟩
  · obtain ⟨hmode, hlimit, hscale, k, index, drained, baseline, cached⟩ := h.derive hf
    exact ⟨⟨hmode, hlimit, hscale ▸ h.scale, hround⟩, .derive k r index drained baseline cached⟩

end Lockstep

section
variable {σ γ : Type} {n : Nat}
open Lockstep

theorem call_pace (V : World σ γ) {i : Input n} {f : Lockstep γ n → Lockstep γ n}
    (hf : i.call V = some f) (hi : i.pacing = true) {c : Lockstep γ n} (h : c.Pacing) :
    (f c).Pacing ∧ PaceCall c (f c) := by
  have hkeep := Input.pacing_keepsEpoch hi
  cases i <;> simp only [Input.call, Option.some.injEq, reduceCtorEq] at hf <;> subst hf
  case frame => exact h.frame
  case setMode m =>
    cases m with
    | pace =>
      have hm : c.setMode .pace = c := if_pos h.mode.symm
      dsimp only
      rw [hm]
      exact ⟨h, .keep rfl rfl rfl id⟩
    | race => exact absurd hi (by simp [Input.pacing])
  case setSpeed v =>
    dsimp only
    unfold Lockstep.setSpeed
    split
    · exact ⟨h, .keep rfl rfl rfl id⟩
    · rename_i hv
      refine ⟨⟨h.mode, h.stepLimit, le_min (not_lt.mp hv) (by norm_num [MAX_SCALE]), h.round⟩,
        .keep rfl rfl rfl fun hr => ?_⟩
      exact absurd (le_trans h.round hr) (by norm_num)
  case step =>
    -- the frame of a `step()` starts from `forceProduce` and a stale cache
    have hnud := Lockstep.nudged_pace V.churn h.mode
    have hN := h.nudged V.churn
    obtain ⟨hp, hcall⟩ := hN.frame (G := V.churn)
    refine ⟨hp, ?_⟩
    show PaceCall c ((c.nudged V.churn).frame V.churn)
    generalize (c.nudged V.churn).frame V.churn = c' at hcall ⊢
    rw [hnud] at hcall
    cases hcall with
    | keep index baseline cached stale =>
      refine .keep index baseline cached fun hr => ?_
      exact absurd (le_trans h.round (stale hr)) (by norm_num)
    | derive k r index drained baseline cached =>
      refine .derive k r index drained baseline fun s => ?_
      rw [cached s]
      have hl : (({ c with forceProduce := true, lastComputedRound := -1 } : Lockstep γ n).passed
          k).playLimit s = (c.passed k).playLimit s := by
        apply playLimit_congr
        · exact fun _ => rfl
        · rfl
        · rfl
        · rfl
      rw [hl]
      rfl
  case reset => exact absurd hkeep (by simp [Input.keepsEpoch])
  case rejoin s => exact absurd hkeep (by simp [Input.keepsEpoch])
  all_goals exact ⟨⟨h.mode, h.stepLimit, h.scale, h.round⟩, .keep rfl rfl rfl id⟩

end

/-- The grants of epoch `E` on a channel. -/
def grantsOf (E : Int) (ms : List C2W) : List Grant := ms.filterMap fun
  | .grant e g => if e = E then some g else none
  | _ => none

theorem grantsOf_append (E : Int) (ms ms' : List C2W) :
    grantsOf E (ms ++ ms') = grantsOf E ms ++ grantsOf E ms' := List.filterMap_append

theorem mem_grantsOf {E : Int} {ms : List C2W} {g : Grant} : g ∈ grantsOf E ms ↔ .grant E g ∈ ms := by
  constructor
  · intro h
    obtain ⟨m, hm, hg⟩ := List.mem_filterMap.mp h
    cases m <;> simp only [reduceCtorEq, Option.ite_none_right_eq_some, Option.some.injEq] at hg
    rw [← hg.1, ← hg.2]
    exact hm
  · exact fun h => List.mem_filterMap.mpr ⟨_, h, by simp⟩

/-- How many entries the worker is authorized to start in epoch `E`. -/
def Player.limitIn (E : Int) (p : Player) : Nat := if p.epoch = E then p.entryLimit else 0

theorem Player.limitIn_eq {E : Int} {p : Player} (h : p.epoch = E) : p.limitIn E = p.entryLimit :=
  if_pos h

theorem Player.limitIn_ne {E : Int} {p : Player} (h : p.epoch ≠ E) : p.limitIn E = 0 := if_neg h

end FlashVis

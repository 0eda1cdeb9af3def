import FlashVis.System.Dispatch
import FlashVis.System.Epoch
import FlashVis.System.Rebase

/-!
# The join of Pace, whatever was in flight

A period in Pace begins with `reset()` or with a switch from Race at any moment.  Grants that were
computed before may still be on their way then; once a worker has handled one of the period, its
authorization follows the shared index.

* `Turn`, `Sys.turns`   which messages to a worker were sent before the period, and whether it has
                        handled a grant of the period;
* `Joining m t c s p`   the invariant of session `s` in the period;
* `pace_join`           safety and headroom of the join.
-/

namespace FlashVis

/-- The messages to a worker that were sent before the period and are still on their way, and
whether it has handled a grant of the period. -/
structure Turn where
  left : Nat
  fresh : Bool
  deriving DecidableEq

def C2W.isGrant : C2W → Bool
  | .grant _ _ => true
  | _ => false

/-- The oldest message of a channel is delivered. -/
def Turn.take (t : Turn) : List C2W → Turn
  | [] => t
  | m :: _ =>
    if 0 < t.left then { t with left := t.left - 1 }
    else { t with fresh := t.fresh || m.isGrant }

namespace Sys
variable {σ γ : Type} {n : Nat}

/-- The turns after an event. -/
def turns (S : Sys σ γ n) (i : Input n) (t : Fin n → Turn) : Fin n → Turn :=
  match i with
  | .toWorker s _ => Function.update t s ((t s).take (S.c.proxies s).port)
  | _ => t

/-- One event, with the turns of the period. -/
def stepTurns (V : World σ γ) (x : Sys σ γ n × (Fin n → Turn)) (i : Input n) :
    Sys σ γ n × (Fin n → Turn) := (x.1.step V i, x.1.turns i x.2)

/-- The turns at the start of a period: everything on its way was sent before. -/
def startTurns (S : Sys σ γ n) (s : Fin n) : Turn := ⟨(S.c.proxies s).port.length, false⟩

theorem run_stepTurns (V : World σ γ) (x : Sys σ γ n × (Fin n → Turn)) (is : List (Input n)) :
    (Machine.run (stepTurns V) x is).1 = Machine.run (step V) x.1 is := by
  induction is generalizing x with
  | nil => rfl
  | cons i is ih => exact ih (stepTurns V x i)

end Sys

/-! ## lively runs -/

namespace Lively
variable {σ γ : Type} {n : Nat} {c : Lockstep γ n} {s : Fin n} {p : Player}

theorem step (V : World σ γ) (S : Sys σ γ n) {i : Input n} (hfix : i.fixed = true)
    (hmet : i.metered = true) (hp : S.prompt i = true) (h : ∀ s, Lively S.c s (S.player s)) :
    ∀ s, Lively (S.step V i).c s ((S.step V i).player s) := by
  by_cases hk : i.keepsEpoch = true
  · exact Sys.step_each V S i (fun _ _ _ f _ ht h => h.frame ht f)
      (fun _ hf h s => (h s).call V hf hk hmet) (fun _ _ _ _ ps _ hp h => h.receive hp ps)
      (fun _ _ _ _ _ _ ht hok he h => h.apply he (Sys.prompt_move hp hmet ht hok))
      (fun _ _ _ _ hp h => h.back_of hp) h
  · cases i <;> simp only [Input.keepsEpoch, not_true, Input.fixed, reduceCtorEq] at hk hfix
    case reset => exact fun s => (h s).joined.toLink.reset_lively V.churn

theorem init (churn : γ) (ratio : ℚ) (info : Fin n → String × Geometry) (s : Fin n) :
    Lively (Sys.init (σ := σ) churn ratio info).c s
      ((Sys.init (σ := σ) churn ratio info).player s) := by
  have hne : ((Sys.init (σ := σ) churn ratio info).player s).epoch
      ≠ (Sys.init (σ := σ) churn ratio info).c.epoch := show (-1 : Int) ≠ 0 by decide
  have hlink := Link.init (σ := σ) churn ratio info s
  have hback : ((Sys.init (σ := σ) churn ratio info).player s).port = [] := rfl
  have hbehind : ∀ {α : Type} [LinearOrder α] (F : AckField α),
      Behind F (Sys.init (σ := σ) churn ratio info).c s
        ((Sys.init (σ := σ) churn ratio info).player s) := by
    intro α _ F
    have hack : F.acked ((Sys.init (σ := σ) churn ratio info).c.acked s) = F.start := F.reset
    refine ⟨le_of_eq hack.symm, ?_, fun a ha => absurd (hback ▸ ha) List.not_mem_nil⟩
    rw [AckField.now_ne hne]
    exact le_of_eq hack
  have hjoined : Joined (Sys.init (σ := σ) churn ratio info).c s
      ((Sys.init (σ := σ) churn ratio info).player s) :=
    ⟨hlink, ⟨fun _ _ => show (-1 : Int) < 0 by decide, trivial⟩⟩
  refine ⟨⟨hjoined, fun e he => absurd he List.not_mem_nil, fun es hes => ?_,
    fun hep => absurd hep hne⟩, fun hep => absurd hep hne, hbehind _, hbehind _, hbehind _⟩
  exact absurd hes (by simp [Sys.init, Lockstep.create, Proxy.init, Proxy.send, Proxy.setEpoch])

end Lively

/-! ## the period -/

/-- Session `s` in a period of Pace that began with shared index `m`. -/
structure Joining {γ : Type} {n : Nat} (m : Nat) (t : Turn) (c : Lockstep γ n) (s : Fin n)
    (p : Player) : Prop where
  lively : Lively c s p
  index : c.sharedIndex ≤ m ∨ (c.sharedIndex : Int) ≤ (c.acked s).entriesDrained + 1
  left : t.left ≤ (c.proxies s).port.length
  done : t.fresh = true → t.left = 0
  now : ∀ x ∈ (c.proxies s).port.drop t.left, x.transition = false ∧ x.epoch = c.epoch
  held : t.fresh = true → p.epoch = c.epoch ∧ p.entryLimit ≤ max (c.sharedIndex + 1) p.cursor
  sent : ∀ e g, .grant e g ∈ (c.proxies s).port.drop t.left →
    g.entryLimit ≤ max (c.sharedIndex + 1) (cursorField.now c.epoch p)
  cached : c.round ≤ c.lastComputedRound → ∀ g, c.cached s = some g →
    g.entryLimit ≤ max (c.sharedIndex + 1) (cursorField.now c.epoch p)

namespace Joining
variable {σ γ : Type} {n : Nat} {m : Nat} {t : Turn} {c : Lockstep γ n} {s : Fin n} {p : Player}

theorem apply (h : Joining m t c s p) {mv : Move} (he : p.Enabled mv) (hm : mv.prompt p) :
    Joining m t c s (p.apply mv) := by
  have hf := Player.apply_frame p mv
  have hup : p.epoch = c.epoch → p.cursor ≤ (p.apply mv).cursor := fun hep =>
    (h.lively.move hep he hm).2.2.1
  have hnow : cursorField.now c.epoch p ≤ cursorField.now c.epoch (p.apply mv) := by
    unfold AckField.now
    rw [hf.epoch]
    split
    · exact hup ‹_›
    · exact le_refl _
  refine ⟨h.lively.apply he hm, h.index, h.left, h.done, h.now, fun hfresh => ?_, ?_, ?_⟩
  · obtain ⟨hep, hlim⟩ := h.held hfresh
    rw [hf.epoch, hf.entryLimit]
    exact ⟨hep, le_trans hlim (max_le_max (le_refl _) (hup hep))⟩
  · exact fun e g hg => le_trans (h.sent e g hg) (max_le_max (le_refl _) hnow)
  · exact fun hr g hg => le_trans (h.cached hr g hg) (max_le_max (le_refl _) hnow)

theorem frame {u : Fin n} (hu : u ≠ s) (f : Proxy → Proxy) (h : Joining m t c u p) :
    Joining m t (Sys.onProxy s f c) u p := by
  have hack : (Sys.onProxy s f c).acked u = c.acked u := by
    unfold Lockstep.acked
    rw [Sys.onProxy_ne hu]
  refine ⟨h.lively.frame hu f, ?_, ?_, h.done, ?_, h.held, ?_, h.cached⟩
  · rw [hack]
    exact h.index
  · rw [Sys.onProxy_ne hu]
    exact h.left
  · rw [Sys.onProxy_ne hu]
    exact h.now
  · rw [Sys.onProxy_ne hu]
    exact h.sent

theorem back_of (h : Joining m t c s p) {x : W2C} {ms : List W2C} (hp : p.port = x :: ms) :
    Joining m t (Sys.onProxy s (·.handle x) c) s (p.setPort ms) := by
  have hport : ((Sys.onProxy s (·.handle x) c).proxies s).port = (c.proxies s).port := by
    rw [Sys.onProxy_same, Proxy.handle_port]
  have hnow : cursorField.now c.epoch (p.setPort ms) = cursorField.now c.epoch p := rfl
  refine ⟨h.lively.back_of hp, ?_, ?_, h.done, ?_, h.held, ?_, h.cached⟩
  · rcases h.lively.joined.handle_acked x with hack | ⟨a, -, hack⟩ <;> rw [hack]
    · exact h.index
    · refine h.index.imp_right fun hle => le_trans hle ?_
      exact add_le_add_left (le_max_left _ _) 1
  · rw [hport]
    exact h.left
  · rw [hport]
    exact h.now
  · rw [hport]
    exact h.sent

/-- A message of the period is handled, or one that was sent before. -/
theorem receive (h : Joining m t c s p) {x : C2W} {ms : List C2W}
    (hp : (c.proxies s).port = x :: ms) (ps : Option Nat) :
    Joining m (t.take (c.proxies s).port) (Sys.onProxy s (·.setPort ms) c) s (p.receive ps x) := by
  have hlively := h.lively.receive hp ps
  have harr := h.lively.joined.arrival hp ps
  have hnow := harr.now (F := cursorField)
  have hport : ((Sys.onProxy s (·.setPort ms) c).proxies s).port = ms := by
    rw [Sys.onProxy_same]
    rfl
  have hack : (Sys.onProxy s (·.setPort ms) c).acked s = c.acked s := by
    unfold Lockstep.acked
    rw [Sys.onProxy_same]
    rfl
  have hcached : c.round ≤ c.lastComputedRound → ∀ g, c.cached s = some g →
      g.entryLimit ≤ max (c.sharedIndex + 1) (cursorField.now c.epoch (p.receive ps x)) := by
    rw [hnow]
    exact h.cached
  have hleft := h.left
  have hin := h.now
  have hsent := h.sent
  rw [hp] at hleft hin hsent ⊢
  unfold Turn.take
  dsimp only
  by_cases ht : 0 < t.left
  · -- sent before the period
    rw [if_pos ht]
    have hdrop : (x :: ms).drop t.left = ms.drop (t.left - 1) := by
      obtain ⟨k, hk⟩ := Nat.exists_eq_succ_of_ne_zero (Nat.ne_of_gt ht)
      rw [hk]
      rfl
    have hold : t.fresh = false := by
      cases hf : t.fresh with
      | false => rfl
      | true => exact absurd (h.done hf) (Nat.ne_of_gt ht)
    rw [hdrop] at hin hsent
    refine ⟨hlively, hack ▸ h.index, ?_, fun hf => absurd hf (by simp [hold]), ?_,
      fun hf => absurd hf (by simp [hold]), ?_, hcached⟩
    · rw [hport]
      rw [List.length_cons] at hleft
      exact Nat.sub_le_of_le_add hleft
    · rw [hport]
      exact hin
    · rw [hport]
      show ∀ (e : Int) (g : Grant), _ →
        g.entryLimit ≤ max (c.sharedIndex + 1) (cursorField.now c.epoch _)
      rw [hnow]
      exact hsent
  · -- of the period: an ENTRIES, GRANT or PULL of the current epoch
    rw [if_neg ht]
    have h0 : t.left = 0 := Nat.eq_zero_of_not_pos ht
    rw [h0, List.drop_zero] at hin hsent
    obtain ⟨htrans, hepoch⟩ := hin x List.mem_cons_self
    refine ⟨hlively, hack ▸ h.index, ?_, fun _ => h0, ?_, fun hf => ?_, ?_, hcached⟩
    · show t.left ≤ _
      rw [h0]
      exact Nat.zero_le _
    · rw [hport]
      show ∀ y ∈ ms.drop t.left, _
      rw [h0, List.drop_zero]
      exact fun y hy => hin y (List.mem_cons_of_mem x hy)
    · show (p.receive ps x).epoch = c.epoch ∧ (p.receive ps x).entryLimit
        ≤ max (c.sharedIndex + 1) (p.receive ps x).cursor
      generalize p.receive ps x = q at harr
      cases harr with
      | feed es now hm =>
        exact h.held (by simpa [hm, C2W.isGrant] using hf)
      | grant g now hm =>
        have hlim := hsent c.epoch g (hm ▸ List.mem_cons_self)
        rw [AckField.now_eq now] at hlim
        exact ⟨now, hlim⟩
      | pull sel now hm =>
        exact h.held (by simpa [hm, C2W.isGrant] using hf)
      | fresh keep before hm => exact absurd (htrans.symm.trans hm) (by simp)
      | early q before after hm => exact absurd hepoch (ne_of_lt hm)
    · rw [hport]
      show ∀ e g, .grant e g ∈ ms.drop t.left → g.entryLimit ≤ max (c.sharedIndex + 1)
        (cursorField.now c.epoch _)
      rw [h0, List.drop_zero, hnow]
      exact fun e g hg => hsent e g (List.mem_cons_of_mem x hg)

theorem call (V : World σ γ) {i : Input n} {f : Lockstep γ n → Lockstep γ n}
    (hf : i.call V = some f) (hi : i.pacing = true) (hpace : c.Pacing)
    (h : Joining m t c s p) : Joining m t (f c) s p := by
  have hk := Input.pacing_keepsEpoch hi
  obtain ⟨hep, hsends⟩ := call_sends V hf hk c
  obtain ⟨ms, hms⟩ := hsends s
  have hack := call_acked V hf hk c s
  have hcall := (call_pace V hf hi hpace).2
  have hbehind : (c.acked s).cursor ≤ cursorField.now c.epoch p := h.lively.cursor.acked
  -- the shared index only rises, and past drained steps only
  have hindex : c.sharedIndex ≤ (f c).sharedIndex ∧ ((f c).sharedIndex ≤ m ∨
      ((f c).sharedIndex : Int) ≤ (c.acked s).entriesDrained + 1) := by
    cases hcall with
    | keep index baseline cached stale =>
      rw [index]
      exact ⟨le_refl _, h.index⟩
    | derive k r index drained baseline cached =>
      rw [index]
      refine ⟨Nat.le_add_right _ _, ?_⟩
      rcases Nat.eq_zero_or_pos k with rfl | hpos
      · exact h.index
      · have hd := drained (k - 1) (Nat.sub_lt hpos Nat.one_pos) s
        refine .inr ?_
        push_cast at hd ⊢
        omega
  have hgrown : ∀ x : Nat, x ≤ max (c.sharedIndex + 1) (cursorField.now c.epoch p) →
      x ≤ max ((f c).sharedIndex + 1) (cursorField.now (f c).epoch p) := by
    intro x hx
    rw [hep]
    exact le_trans hx (max_le_max (Nat.succ_le_succ hindex.1) (le_refl _))
  have hcached : (f c).round ≤ (f c).lastComputedRound → ∀ g, (f c).cached s = some g →
      g.entryLimit ≤ max ((f c).sharedIndex + 1) (cursorField.now (f c).epoch p) := by
    cases hcall with
    | keep index baseline cached stale =>
      rw [cached]
      exact fun hr g hg => hgrown _ (h.cached (stale hr) g hg)
    | derive k r index drained baseline cached =>
      intro _ g hg
      rw [cached s, Option.some.injEq] at hg
      rw [← hg, index, hep]
      exact max_le_max (le_refl _) hbehind
  have hdrop : ((f c).proxies s).port.drop t.left = (c.proxies s).port.drop t.left ++ ms := by
    rw [hms.proxy]
    exact List.drop_append_of_le_length h.left
  refine ⟨h.lively.call V hf hk (Input.pacing_metered hi), ?_, ?_, h.done, ?_, fun hfresh => ?_, ?_,
    hcached⟩
  · rw [hack]
    exact hindex.2
  · rw [hms.proxy]
    exact le_trans h.left (by simp [Proxy.sendAll])
  · rw [hdrop, hep]
    intro x hx
    rcases List.mem_append.mp hx with hx | hx
    · exact h.now x hx
    · obtain ⟨h1, h2⟩ := hms.plain x hx
      exact ⟨h1, h2.trans h.lively.joined.proxy⟩
  · obtain ⟨hpe, hlim⟩ := h.held hfresh
    refine ⟨hpe.trans hep.symm, ?_⟩
    have := hgrown p.entryLimit (by rw [AckField.now_eq hpe]; exact hlim)
    rwa [AckField.now_eq (hpe.trans hep.symm)] at this
  · rw [hdrop]
    intro e g hg
    rcases List.mem_append.mp hg with hg | hg
    · exact hgrown _ (h.sent e g hg)
    · exact hcached (hms.current e g hg) g (hms.grants e g hg)

/-- Past `m`, the shared index follows what every session has drained. -/
theorem drained (h : Joining m t c s p) {k : Nat} (hm : m < c.sharedIndex) (hk : k ≤ c.sharedIndex) :
    p.epoch = c.epoch ∧ (k : Int) - 1 ≤ p.entriesDrained := by
  have hd : (c.acked s).entriesDrained ≤ drainedField.now c.epoch p := h.lively.drained.acked
  have hi := h.index.resolve_left (not_le.mpr hm)
  by_cases hep : p.epoch = c.epoch
  · rw [AckField.now_eq hep] at hd
    change (c.acked s).entriesDrained ≤ p.entriesDrained at hd
    exact ⟨hep, by omega⟩
  · rw [AckField.now_ne hep] at hd
    change (c.acked s).entriesDrained ≤ -1 at hd
    omega

theorem switch (h : Lively c s p) (hr : 0 ≤ c.round) (hm : c.mode = .race) (V : World σ γ) :
    Joining (c.setMode .pace).sharedIndex ⟨((c.setMode .pace).proxies s).port.length, false⟩
      (c.setMode .pace) s p := by
  have hset : c.setMode .pace = { c with
      sharedIndex := (c.setMode .pace).sharedIndex, baseline := fun s => (c.acked s).playbackNs
      lastComputedRound := -1, mode := .pace } := by
    unfold Lockstep.setMode
    rw [if_neg (by rw [hm]; decide)]
  have hstale : ¬ (c.setMode .pace).round ≤ (c.setMode .pace).lastComputedRound := by
    rw [hset]
    exact not_le.mpr (lt_of_lt_of_le (by decide : (-1 : Int) < 0) hr)
  refine ⟨h.call V (i := .setMode .pace) rfl rfl rfl, .inl (le_refl _), le_refl _,
    fun hf => absurd hf (by simp), ?_, fun hf => absurd hf (by simp), ?_,
    fun hle => absurd hle hstale⟩
  · rw [List.drop_length]
    exact fun x hx => absurd hx List.not_mem_nil
  · rw [List.drop_length]
    exact fun e g hg => absurd hg List.not_mem_nil

theorem reset (h : Lively c s p) (G : Churn γ) :
    Joining 0 ⟨((c.reset G).proxies s).port.length, false⟩ (c.reset G) s p := by
  refine ⟨h.joined.toLink.reset_lively G, .inl (le_refl _), le_refl _,
    fun hf => absurd hf (by simp), ?_, fun hf => absurd hf (by simp), ?_,
    fun _ g hg => absurd hg (by simp [Lockstep.reset])⟩
  · rw [List.drop_length]
    exact fun x hx => absurd hx List.not_mem_nil
  · rw [List.drop_length]
    exact fun e g hg => absurd hg List.not_mem_nil

end Joining

/-! ## the run -/

namespace Sys
variable {σ γ : Type} {n : Nat}

theorem turns_call (V : World σ γ) (S : Sys σ γ n) {i : Input n} {f : Lockstep γ n → Lockstep γ n}
    (hf : i.call V = some f) (t : Fin n → Turn) : S.turns i t = t := by
  cases i <;> simp only [Input.call, reduceCtorEq] at hf <;> rfl

/-- An event of the period keeps the invariant, and an entry that a worker starts under a grant of
the period is not past the shared one. -/
theorem joining_step (V : World σ γ) (S : Sys σ γ n) {i : Input n} {m : Nat} {t : Fin n → Turn}
    (hi : i.pacing = true) (hp : S.prompt i = true) (hpace : S.c.Pacing)
    (h : ∀ s, Joining m (t s) S.c s (S.player s)) :
    (∀ s, Joining m (S.turns i t s) (S.step V i).c s ((S.step V i).player s)) ∧
      (S.step V i).c.Pacing ∧
      ∀ s k, (S.turns i t s).fresh = true → ((S.step V i).player s).Started k →
        (S.player s).Started k ∨ k ≤ (S.step V i).c.sharedIndex := by
  have hmet := Input.pacing_metered hi
  refine Sys.heeds_post
    (fun c P => (∀ s, Joining m (t s) c s (P s)) ∧ c.Pacing ∧ P = S.player)
    (fun c P => (∀ s, Joining m (S.turns i t s) c s (P s)) ∧ c.Pacing ∧
      ∀ s k, (S.turns i t s).fresh = true → (P s).Started k →
        (S.player s).Started k ∨ k ≤ c.sharedIndex) V S i (Sys.heeds_true V S i)
    ?_ ?_ ?_ ?_ ?_ ⟨h, hpace, rfl⟩
  · rintro hidle ⟨hj, hc, -⟩
    have hturns : S.turns i t = t := by
      cases i with
      | toWorker s now =>
        have htake : (t s).take (S.c.proxies s).port = t s := by
          rw [hidle s now rfl]
          rfl
        show Function.update t s _ = t
        rw [htake, Function.update_eq_self]
      | _ => rfl
    rw [hturns]
    exact ⟨hj, hc, fun s k _ hk => .inl hk⟩
  · rintro f hf ⟨hj, hc, -⟩
    rw [turns_call V S hf]
    exact ⟨fun s => (hj s).call V hf hi hc, (call_pace V hf hi hc).1, fun s k _ hk => .inl hk⟩
  · rintro s now x ms ps rfl hport ⟨hj, hc, -⟩
    have hrecv := (hj s).receive hport ps
    refine ⟨?_, ⟨hc.mode, hc.stepLimit, hc.scale, hc.round⟩, fun u k hf hk => .inl ?_⟩
    · intro u
      by_cases hu : u = s
      · subst hu
        simp only [turns, Function.update_self]
        exact hrecv
      · simp only [turns, Function.update_of_ne hu]
        exact (hj u).frame hu _
    · by_cases hu : u = s
      · subst hu
        simp only [turns, Function.update_self] at hf hk
        have hnow := (hrecv.held hf).1
        have harr := (hj u).lively.joined.arrival hport ps
        generalize (S.player u).receive ps x = q at harr hk hnow
        cases harr with
        | feed es now hm => exact hk
        | grant g now hm => exact hk
        | pull sel now hm => exact hk
        | fresh keep before hm => exact absurd hk (by simp [Player.Started, Player.fresh])
        | early q before after hm => exact absurd hnow (ne_of_lt after)
      · simpa only [Function.update_of_ne hu] using hk
  · rintro s now task c P mv ht hok hen - ⟨hj, hc, hst⟩
    have hprompt := Sys.prompt_move hp hmet ht hok
    refine ⟨(Function.forall_update_iff P fun u p => Joining m (S.turns i t u) c u p).mpr
      ⟨(hj s).apply hen hprompt, fun u _ => hj u⟩, hc, fun u k hf hk => ?_⟩
    by_cases hu : u = s
    · subst hu
      rw [Function.update_self] at hk
      obtain ⟨hep, hlim⟩ := (hj u).held hf
      rcases ((hj u).lively.move hep hen hprompt).2.2.2 k hk with hold | ⟨rfl, hlt⟩
      · exact hst u k hf hold
      · -- below its limit, so below the shared index
        refine .inr (Nat.le_of_lt_succ ?_)
        rcases le_max_iff.mp hlim with hle | hle
        · exact lt_of_lt_of_le hlt hle
        · exact absurd hlt (not_lt.mpr hle)
    · rw [Function.update_of_ne hu] at hk
      exact hst u k hf hk
  · rintro s x ms rfl hport ⟨hj, hc, -⟩
    refine ⟨fun u => ?_, ⟨hc.mode, hc.stepLimit, hc.scale, hc.round⟩, fun u k _ hk => .inl ?_⟩
    · by_cases hu : u = s
      · subst hu
        rw [Function.update_self]
        exact (hj u).back_of hport
      · rw [Function.update_of_ne hu]
        exact (hj u).frame hu _
    · by_cases hu : u = s
      · subst hu
        rw [Function.update_self] at hk
        exact hk
      · rwa [Function.update_of_ne hu] at hk

theorem along_stepTurns {V : World σ γ} {G : Sys σ γ n → Input n → Prop} {is : List (Input n)}
    {x : Sys σ γ n × (Fin n → Turn)} (h : Machine.Along (step V) G x.1 is) :
    Machine.Along (stepTurns V) (fun x i => G x.1 i) x is := by
  induction is generalizing x with
  | nil => trivial
  | cons i is ih => exact ⟨h.1, ih h.2⟩

/-- The event derives the grants anew: a frame of a new round or of one that every session has
acked, and every `step()`. -/
def derives (S : Sys σ γ n) : Input n → Bool
  | .frame => decide (S.c.lastComputedRound < S.c.round) || S.c.roundAcked
  | .step => true
  | _ => false

end Sys

namespace Lockstep
variable {γ : Type} {n : Nat} {c : Lockstep γ n}

/-- The shared index after a switch to Pace is the smallest acked cursor. -/
theorem setMode_pace_index (hm : c.mode = .race) :
    (∀ s, (c.setMode .pace).sharedIndex ≤ (c.acked s).cursor) ∧
      (n ≠ 0 → ∃ s, (c.setMode .pace).sharedIndex = (c.acked s).cursor) := by
  have hset : (c.setMode .pace).sharedIndex
      = (((List.finRange n).map fun s => (c.acked s).cursor).min?).getD 0 := by
    unfold setMode
    rw [if_neg (by rw [hm]; decide)]
  have hmin : ∀ k, ((List.finRange n).map fun s => (c.acked s).cursor).min? = some k →
      (c.setMode .pace).sharedIndex = k := by
    intro k hk
    rw [hset, hk]
    rfl
  constructor
  · intro s
    have hmem : (c.acked s).cursor ∈ (List.finRange n).map fun s => (c.acked s).cursor :=
      List.mem_map.mpr ⟨s, List.mem_finRange s, rfl⟩
    obtain ⟨k, hk⟩ := Option.isSome_iff_exists.mp
      (List.isSome_min?_of_ne_nil (List.ne_nil_of_mem hmem))
    rw [hmin k hk]
    exact (List.min?_eq_some_iff.mp hk).2 _ hmem
  · intro hn
    have hne : ((List.finRange n).map fun s => (c.acked s).cursor) ≠ [] := by simpa using hn
    obtain ⟨k, hk⟩ := Option.isSome_iff_exists.mp (List.isSome_min?_of_ne_nil hne)
    obtain ⟨s, -, hs⟩ := List.mem_map.mp (List.min?_eq_some_iff.mp hk).1
    exact ⟨s, (hmin k hk).trans hs.symm⟩

theorem setMode_pacing (h : c.Sound) (hn : n ≠ 0) (hm : c.mode = .race) :
    (c.setMode .pace).Pacing := by
  unfold setMode
  rw [if_neg (by rw [hm]; decide)]
  exact ⟨rfl, h.stepLimit hn, h.scale, h.round⟩

/-- Grants derived in Pace are sent at once; they authorize the shared entry, with a chunk of
headroom. -/
theorem Pacing.authorizes {G : Churn γ} (h : c.Pacing)
    (hd : c.lastComputedRound < c.round ∨ c.roundAcked = true) (s : Fin n) :
    ∃ g, (c.frame G).cached s = some g ∧
      .grant (c.proxies s).epoch g ∈ ((c.frame G).proxies s).port ∧
      (c.frame G).sharedIndex < g.entryLimit ∧
      (((c.acked s).playbackNs + c.chunkNs : ℚ) : Limit) ≤ g.playLimitNs := by
  obtain ⟨P, sh, ⟨hle, hno, -⟩ | ⟨r, -, hf⟩⟩ := frame_cases (G := G) (Fin.pos_ne s) c
  · -- a round that not every session has acked keeps its grants
    rcases hd with hlt | hall
    · exact absurd hle (not_le.mpr hlt)
    · exact absurd (of_decide_eq_true hall) hno
  · obtain ⟨-, -, -, k, index, -, -, cached⟩ := h.derive hf
    refine ⟨_, cached s, ?_, ?_, ?_⟩
    · rw [frame_proxies (Fin.pos_ne s) c s]
      exact List.mem_append_right _ (frame_flush (cached s))
    · rw [index]
      exact lt_of_lt_of_le (Nat.lt_succ_self _) (le_max_left _ _)
    · exact WithTop.coe_le_coe.mpr (playLimit_pace (c := c.passed k) h.mode h.chunk s).2

end Lockstep

/-! ## the theorem -/

section
variable {σ γ : Type} {n : Nat}

theorem Levels.cursors {c : Lockstep γ n} {P : Fin n → Player} (h : Levels c P) (s u : Fin n) :
    cursorField.now c.epoch (P s) ≤ cursorField.now c.epoch (P u) + 1 := by
  have hs : cursorField.now c.epoch (P s) ≤ c.sharedIndex + 1 := by
    by_cases hep : (P s).epoch = c.epoch
    · have htop := (h.level s).top ((P s).limitIn c.epoch) List.mem_cons_self
      rw [Player.limitIn_eq hep] at htop
      rw [AckField.now_eq hep]
      refine le_trans ?_ htop
      show (P s).cursor ≤ _
      rcases Nat.eq_zero_or_pos (P s).cursor with h0 | h0
      · exact le_of_eq_of_le h0 (Nat.zero_le _)
      · have := (h.level s).started hep ((P s).cursor - 1) (.inl (Nat.sub_lt h0 Nat.one_pos))
        omega
    · rw [AckField.now_ne hep]
      exact Nat.zero_le _
  have hu : c.sharedIndex ≤ cursorField.now c.epoch (P u) := by
    have hd := (h.level u).drained
    by_cases hep : (P u).epoch = c.epoch
    · rw [AckField.now_eq hep] at hd ⊢
      have hb := ((h.level u).lively.ordered hep).behind
      change (c.sharedIndex : Int) ≤ (P u).entriesDrained + 1 at hd
      show c.sharedIndex ≤ (P u).cursor
      omega
    · rw [AckField.now_ne hep] at hd ⊢
      change (c.sharedIndex : Int) ≤ -1 + 1 at hd
      omega
  exact le_trans hs (Nat.succ_le_succ hu)

/-- **The Pace join.** A period of Pace begins with `reset()`, or with a switch at any moment of a
Race run.  A worker that has handled a grant of the period starts an entry past `m` only when every
session has drained the entry before it; nothing is dispatched twice; and grants derived in the
period authorize the shared entry, with a chunk of headroom. -/
theorem pace_join (hn : n ≠ 0) (V : World σ γ) (churn : γ) (ratio : ℚ)
    (info : Fin n → String × Geometry) (pre post : List (Input n)) (first : Input n)
    (hrun : Machine.Along (Sys.step V) (fun S i => (i.fixed = true ∧ i.metered = true) ∧
      S.prompt i = true ∧ S.heeds (fun _ m => m.returns = true) V i) (Sys.init churn ratio info)
      (pre ++ first :: post))
    (hfirst : first = .reset ∧ (Sys.after V churn ratio info pre).c.mode = .pace ∨
      first = .setMode .pace ∧ (Sys.after V churn ratio info pre).c.mode = .race)
    (hpost : ∀ i ∈ post, i.pacing = true) :
    let S₀ := Sys.after V churn ratio info pre
    let S₁ := S₀.step V first
    let m := S₁.c.sharedIndex
    let S := Sys.after V churn ratio info (pre ++ first :: post)
    let t := (Machine.run (Sys.stepTurns V) (S₁, S₁.startTurns) post).2
    ((first = .reset → m = 0) ∧ (first = .setMode .pace →
      (∀ s, m ≤ (S₀.c.acked s).cursor) ∧ ∃ s, m = (S₀.c.acked s).cursor)) ∧
    (∀ i, i.pacing = true → S.prompt i = true → ∀ s k, (S.turns i t s).fresh = true → m < k →
      ¬ (S.player s).Started k → ((S.step V i).player s).Started k →
        ∀ u, (S.w u).epoch = S.c.epoch ∧ (k : Int) - 1 ≤ (S.w u).entriesDrained) ∧
    (first = .reset → ∀ s u, cursorField.now S.c.epoch (S.player s)
      ≤ cursorField.now S.c.epoch (S.player u) + 1) ∧
    (∀ s, ((dispatched (S.w s).hist).map Prod.fst).Pairwise (· < ·)) ∧
    ∀ i, i.pacing = true → S.derives i = true → ∀ s, ∃ g, (S.step V i).c.cached s = some g ∧
      .grant S.c.epoch g ∈ ((S.step V i).c.proxies s).port ∧
      (S.step V i).c.sharedIndex < g.entryLimit ∧
      (((S.c.acked s).playbackNs + S.c.chunkNs : ℚ) : Limit) ≤ g.playLimitNs := by
  intro S₀ S₁ m S t
  obtain ⟨hpre, -, hrest⟩ := Machine.along_append.mp hrun
  have hlive : ∀ s, Lively S₀.c s (S₀.player s) := Machine.run_inv
    (P := fun S : Sys σ γ n => ∀ s, Lively S.c s (S.player s))
    (fun S i hg h => Lively.step V S hg.1.1 hg.1.2 hg.2.1 h) hpre (Lively.init churn ratio info)
  have hsound := Sys.sound V churn ratio info pre
  have hS : S = Machine.run (Sys.step V) S₁ post := by
    show Machine.run _ _ _ = _
    rw [Machine.run_append]
    rfl
  have hguard : Machine.Along (Sys.step V) (fun S i => i.pacing = true ∧ S.prompt i = true) S₁ post :=
    (Machine.Along.of_forall hpost S₁).and (hrest.mono fun _ _ h => h.2.1)
  have hbegin : (∀ s, Joining m (S₁.startTurns s) S₁.c s (S₁.player s)) ∧ S₁.c.Pacing := by
    rcases hfirst with ⟨rfl, hmode⟩ | ⟨rfl, hmode⟩
    · exact ⟨fun s => Joining.reset (hlive s) V.churn, hmode, rfl, hsound.scale, le_refl _⟩
    · exact ⟨fun s => Joining.switch (hlive s) hsound.round hmode V,
        Lockstep.setMode_pacing hsound hn hmode⟩
  have hinv : (∀ s, Joining m (t s) S.c s (S.player s)) ∧ S.c.Pacing := by
    have := Machine.run_inv
      (P := fun x : Sys σ γ n × (Fin n → Turn) =>
        (∀ s, Joining m (x.2 s) x.1.c s (x.1.player s)) ∧ x.1.c.Pacing)
      (fun x i hg h => (Sys.joining_step V x.1 hg.1 hg.2 h.2 h.1).imp_right And.left)
      (Sys.along_stepTurns (x := (S₁, S₁.startTurns)) hguard) hbegin
    rw [Sys.run_stepTurns] at this
    rwa [hS]
  refine ⟨?_, fun i hi hp s k hf hm hold hnew u => ?_, fun hreset s u => ?_, fun s => ?_,
    fun i hi hd s => ?_⟩
  · rcases hfirst with ⟨rfl, -⟩ | ⟨rfl, hmode⟩
    · exact ⟨fun _ => rfl, fun h => absurd h (by simp)⟩
    · refine ⟨fun h => absurd h (by simp), fun _ => ?_⟩
      exact (Lockstep.setMode_pace_index hmode).imp_right fun h => h hn
  · obtain ⟨-, -, hst⟩ := Sys.joining_step V S hi hp hinv.2 hinv.1
    have hk : k ≤ (S.step V i).c.sharedIndex := (hst s k hf hnew).resolve_left hold
    -- a call starts nothing, and nothing else changes the shared index
    have hidle : i.call V = none := by
      cases hc : i.call V with
      | none => rfl
      | some f =>
        rw [Sys.step_call V S hc] at hnew
        exact absurd hnew hold
    rw [Sys.step_sharedIndex V S hidle] at hk
    exact (hinv.1 u).drained (lt_of_lt_of_le hm hk) hk
  · have hmode : S₀.c.mode = .pace := by
      rcases hfirst with ⟨-, hmode⟩ | ⟨h, -⟩
      · exact hmode
      · exact absurd (hreset.symm.trans h) (by simp)
    have hlevels : Levels S.c S.player := by
      rw [hS]
      refine Machine.run_inv (P := fun S : Sys σ γ n => Levels S.c S.player)
        (fun S i hg h => Levels.step V S hg.1 hg.2 h) hguard ?_
      show Levels (S₀.step V first).c (S₀.step V first).player
      rw [hreset]
      exact Levels.reset V.churn hmode hsound.scale fun s => (hlive s).joined.toLink
    exact hlevels.cursors s u
  · exact (Sys.dispatched V churn ratio info (hrun.mono fun _ _ h => h.2.2) s).increasing
  · have hep : (S.c.proxies s).epoch = S.c.epoch := (hinv.1 s).lively.joined.proxy
    cases i <;> simp only [Sys.derives, Bool.or_eq_true, decide_eq_true_eq, reduceCtorEq] at hd
    case frame =>
      rw [← hep]
      exact hinv.2.authorizes hd s
    case step =>
      rw [← hep]
      have hstep := (hinv.2.nudged V.churn).authorizes (G := V.churn) (.inl ?_) s
      · rw [← Lockstep.step_eq, Lockstep.nudged_pace V.churn hinv.2.mode] at hstep
        exact hstep
      · rw [Lockstep.nudged_pace V.churn hinv.2.mode]
        exact lt_of_lt_of_le (by decide : (-1 : Int) < 0) hinv.2.round

end
/-- Two sessions race on a gc entry; after the switch both handle a grant of Pace. -/
def raceThenPace (s t : Fin 2) : List (Input 2) × List (Input 2) :=
  ([.setMode .race, .start, .frame, .toWorker s 0, .built s 1 true 0, .toWorker s 0, .toWorker s 0,
      .toWorker t 0, .built t 1 true 0, .toProxy s],
    [.frame, .toWorker s 0, .toWorker t 0, .toWorker t 0, .toWorker t 0])

theorem pace_join_switch :
    let S := Sys.after (plainWorld fun _ => 0) () 1 (fun _ => ("fs", plainGeometry))
      ((raceThenPace 0 1).1 ++ .setMode .pace :: (raceThenPace 0 1).2)
    ∃ g, (S.step (plainWorld fun _ => 0) .step).c.cached 1 = some g ∧
      .grant S.c.epoch g ∈ ((S.step (plainWorld fun _ => 0) .step).c.proxies 1).port ∧
      (S.step (plainWorld fun _ => 0) .step).c.sharedIndex < g.entryLimit ∧
      (((S.c.acked 1).playbackNs + S.c.chunkNs : ℚ) : Limit) ≤ g.playLimitNs :=
  (pace_join (by decide) (plainWorld fun _ => 0) () 1 (fun _ => ("fs", plainGeometry))
    (raceThenPace 0 1).1 (raceThenPace 0 1).2 (.setMode .pace) (by decide +kernel)
    (.inr ⟨rfl, by decide +kernel⟩) (by decide)).2.2.2.2 .step rfl rfl 1

end FlashVis

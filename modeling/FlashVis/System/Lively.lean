import FlashVis.Player.Order
import FlashVis.System.Steady

/-!
# Metered sessions whose commands are prompt

A command that issues operations only through its own chain of microtasks has none left when it
quiesces: every operation of the current generation belongs to the command in flight.  Then the
queue closes entries in order, and cursors, `entriesDrained` and positions never fall.

* `Sys.prompt S i`   event `i` is not an operation of a command that has quiesced;
* `Lively c s p`     the invariant of session `s`.
-/

namespace FlashVis

/-- An operation of the current generation comes from the command in flight. -/
def Sys.prompt {σ γ : Type} {n : Nat} (S : Sys σ γ n) : Input n → Bool
  | .cmd s id (.task _) _ =>
    match (S.w s).cmds[id]? with
    | some c => c.gen != (S.w s).gen || decide ((S.w s).realCmd = some c.index)
    | none => true
  | _ => true

theorem Sys.prompt_move {σ γ : Type} {n : Nat} {V : World σ γ} {S : Sys σ γ n} {i : Input n}
    (hi : S.prompt i = true) (hmet : i.metered = true) {s : Fin n} {now : ℚ} {t : WIn}
    (ht : S.task s i = some (now, t)) {p : Player} {m : Move}
    (hok : (S.w s).allows V.host t p m) : m.prompt p := by
  have key : ∀ id j c, t = .cmd id (.task j) → (S.w s).cmds[id]? = some c →
      c.gen = (S.w s).gen → (S.w s).realCmd = some c.index := by
    rintro id j c rfl hc hg
    cases i <;> simp only [Sys.task, reduceCtorEq] at ht
    case toWorker u now' =>
      split at ht
      · obtain ⟨m', -, hm'⟩ := Option.map_eq_some_iff.mp ht
        exact absurd (Prod.mk.inj hm').2 (by simp)
      · exact absurd ht (by simp)
    case cmd u id' a now' =>
      split at ht
      · rename_i hu
        subst hu
        rw [Option.some.injEq, Prod.mk.injEq, WIn.cmd.injEq] at ht
        obtain ⟨-, rfl, rfl⟩ := ht
        unfold Sys.prompt at hi
        dsimp only at hi
        rw [hc] at hi
        simpa [hg] using hi
      · exact absurd ht (by simp)
    all_goals
      split at ht
      · rw [Option.some.injEq, Prod.mk.injEq] at ht
        exact absurd ht.2 (by simp)
      · exact absurd ht (by simp)
  cases m with
  | op idx w batch steps =>
    obtain ⟨hp, id, j, c, hw, hc, hg, rfl⟩ := hok
    rw [hp]
    exact key id j c hw hc hg
  | wipe =>
    obtain ⟨hp, id, j, c, hw, hc, hg⟩ := hok
    rw [hp]
    intro hn
    exact absurd ((key id j c hw hc hg).symm.trans hn) (by simp)
  | prep v => exact absurd rfl (Steady.not_prep hmet ht hok v)
  | _ => trivial

/-- Session `s`: metered, in order, and ahead of what the coordinator knows of it. -/
structure Lively {γ : Type} {n : Nat} (c : Lockstep γ n) (s : Fin n) (p : Player) : Prop where
  steady : Steady c s p
  ordered : p.epoch = c.epoch → p.Ordered
  playback : Behind playbackField c s p
  cursor : Behind cursorField c s p
  drained : Behind drainedField c s p

namespace Lively
variable {σ γ : Type} {n : Nat} {c : Lockstep γ n} {s : Fin n} {p : Player}

theorem joined (h : Lively c s p) : Joined c s p := h.steady.joined

/-- What one prompt move does in the current epoch. -/
theorem move (h : Lively c s p) (hep : p.epoch = c.epoch) {m : Move} (he : p.Enabled m)
    (hm : m.prompt p) : (p.apply m).Ordered ∧ p.entriesDrained ≤ (p.apply m).entriesDrained ∧
      p.cursor ≤ (p.apply m).cursor ∧
      ∀ k, (p.apply m).Started k → p.Started k ∨ k = p.cursor ∧ p.cursor < p.entryLimit := by
  obtain ⟨hreal, hprep, hq, -⟩ := h.steady.now hep
  exact (h.ordered hep).apply hprep (Player.not_synthetic hreal he) he hm hq

theorem apply (h : Lively c s p) {m : Move} (he : p.Enabled m) (hm : m.prompt p) :
    Lively c s (p.apply m) where
  steady := h.steady.apply he (by rintro v rfl; exact hm)
  ordered := fun hep => (h.move ((Player.apply_frame p m).epoch ▸ hep) he hm).1
  playback := h.playback.apply he fun hep => (h.steady.bounds hep he).1
  cursor := h.cursor.apply he fun hep => (h.move hep he hm).2.2.1
  drained := h.drained.apply he fun hep => (h.move hep he hm).2.1

theorem receive (h : Lively c s p) {m : C2W} {ms : List C2W} (hp : (c.proxies s).port = m :: ms)
    (ps : Option Nat) : Lively (Sys.onProxy s (·.setPort ms) c) s (p.receive ps m) := by
  refine ⟨h.steady.receive hp ps, ?_, h.playback.receive h.joined hp ps,
    h.cursor.receive h.joined hp ps, h.drained.receive h.joined hp ps⟩
  have harr := h.joined.arrival hp ps
  generalize p.receive ps m = q at harr ⊢
  cases harr with
  | feed es now hm =>
    intro _
    have ho := h.ordered now
    refine ⟨ho.cmd, fun k hk => ?_, ho.behind, ho.sorted, ho.range, ho.closed⟩
    obtain ⟨e, he, hkind⟩ := ho.cmdEntry k hk
    exact ⟨e, takeEntries_getElem? he, hkind⟩
  | grant g now hm =>
    intro _
    have ho := h.ordered now
    exact ⟨ho.cmd, ho.cmdEntry, ho.behind, ho.sorted, ho.range, ho.closed⟩
  | pull sel now hm => exact h.ordered
  | fresh keep before hm => exact fun _ => .fresh p _ keep ps
  | early q before after hm => exact fun hep => absurd hep (ne_of_lt after)

theorem back_of (h : Lively c s p) {m : W2C} {ms : List W2C} (hp : p.port = m :: ms) :
    Lively (Sys.onProxy s (·.handle m) c) s (p.setPort ms) where
  steady := h.steady.back_of hp
  ordered := fun hep =>
    have ho := h.ordered hep
    ⟨ho.cmd, ho.cmdEntry, ho.behind, ho.sorted, ho.range, ho.closed⟩
  playback := h.playback.back_of h.joined hp
  cursor := h.cursor.back_of h.joined hp
  drained := h.drained.back_of h.joined hp

theorem frame {t : Fin n} (ht : t ≠ s) (f : Proxy → Proxy) (h : Lively c t p) :
    Lively (Sys.onProxy s f c) t p :=
  ⟨h.steady.frame ht f, h.ordered, h.playback.frame ht f, h.cursor.frame ht f, h.drained.frame ht f⟩

theorem call (V : World σ γ) {i : Input n} {f : Lockstep γ n → Lockstep γ n}
    (hf : i.call V = some f) (hk : i.keepsEpoch = true) (hi : i.metered = true)
    (h : Lively c s p) : Lively (f c) s p :=
  ⟨h.steady.call V hf hk hi, fun hep => h.ordered (hep.trans (call_sends V hf hk c).1),
    h.playback.call V hf hk, h.cursor.call V hf hk, h.drained.call V hf hk⟩

end Lively

theorem Link.reset_lively {γ : Type} {n : Nat} {c : Lockstep γ n} {s : Fin n} {p : Player}
    (h : Link c s p) (G : Churn γ) : Lively (c.reset G) s p :=
  ⟨h.reset_steady G, fun hep => absurd hep (ne_of_lt (Int.lt_add_one_of_le h.epoch_le)),
    h.reset_behind _ G, h.reset_behind _ G, h.reset_behind _ G⟩

end FlashVis

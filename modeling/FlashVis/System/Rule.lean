import FlashVis.System
import FlashVis.Player.Tasks
import FlashVis.Coord.Facts

/-!
# The invariant rule of the system

An invariant of the system speaks of the coordinator and of the players of the workers.  One event
changes them in one of four ways: a call of the coordinator, a message that reaches a worker, a
move of a worker's player, a message that reaches a proxy.

* `Input.call`, `Sys.task`   what an event asks of the coordinator, of a worker;
* `Sys.step_post`            from what holds before an event to what holds after it;
* `Sys.step_rule`            the rule for an invariant over all sessions;
* `Sys.step_each`            the rule for an invariant of each session by itself;
* `Sys.heeds`                every move that an event makes a worker's player make meets a condition.
-/

namespace FlashVis

/-- The rest of a channel after its oldest message was delivered. -/
def Proxy.setPort (ms : List C2W) (p : Proxy) : Proxy := { p with port := ms }

/-- The rest of a channel after its oldest message was delivered. -/
def Player.setPort (ms : List W2C) (p : Player) : Player := { p with port := ms }

/-- The call of the coordinator that an event is, if any. -/
def Input.call {σ γ : Type} {n : Nat} (V : World σ γ) :
    Input n → Option (Lockstep γ n → Lockstep γ n)
  | .frame => some (·.frame V.churn)
  | .broadcast payload => some (·.broadcast payload)
  | .setMode m => some (·.setMode m)
  | .setSpeed v => some (·.setSpeed v)
  | .setGcRatio v => some fun c => { c with ratio := v }
  | .start => some fun c => { c with running := true }
  | .stop => some fun c => { c with running := false }
  | .step => some (·.step V.churn)
  | .reset => some (·.reset V.churn)
  | .rejoin s => some (·.rejoin s)
  | .pull s sel => some (Sys.onProxy s (·.pull sel))
  | .toWorker _ _ | .toProxy _ | .built _ _ _ _ | .telemetry _ _ | .cmd _ _ _ _ => none

namespace Sys
variable {σ γ : Type} {n : Nat}

/-- The players of the workers. -/
def player (S : Sys σ γ n) (s : Fin n) : Player := (S.w s).core

/-- The task that an event gives worker `s`, if any. -/
def task (S : Sys σ γ n) (s : Fin n) : Input n → Option (ℚ × WIn)
  | .toWorker t now =>
    if t = s then (S.c.proxies s).port.head?.map fun m => (now, .msg m) else none
  | .built t g ok now => if t = s then some (now, .built g ok) else none
  | .telemetry t now => if t = s then some (now, .telemetry) else none
  | .cmd t id a now => if t = s then some (now, .cmd id a) else none
  | _ => none

theorem onProxy_same (s : Fin n) (f : Proxy → Proxy) (c : Lockstep γ n) :
    (onProxy s f c).proxies s = f (c.proxies s) := by
  simp [onProxy]

theorem onProxy_ne {s t : Fin n} (h : t ≠ s) (f : Proxy → Proxy) (c : Lockstep γ n) :
    (onProxy s f c).proxies t = c.proxies t := by
  simp [onProxy, Function.update_of_ne h]

theorem player_update (S : Sys σ γ n) (s : Fin n) (w : Worker σ) (c : Lockstep γ n) :
    player { c := c, w := Function.update S.w s w } = Function.update S.player s w.core := by
  funext t
  by_cases h : t = s
  · subst h
    simp [player]
  · simp [player, Function.update_of_ne h]

theorem step_call (V : World σ γ) (S : Sys σ γ n) {i : Input n} {f : Lockstep γ n → Lockstep γ n}
    (hf : i.call V = some f) : S.step V i = S.onC f := by
  cases i <;> simp only [Input.call, Option.some.injEq, reduceCtorEq] at hf <;> subst hf <;> rfl

/-- Everything else leaves the coordinator alone, up to its proxies. -/
theorem step_idle (V : World σ γ) (S : Sys σ γ n) {i : Input n} (hf : i.call V = none) :
    ∃ P, (S.step V i).c = { S.c with proxies := P } := by
  cases i with
  | toWorker u now =>
    show ∃ P, (S.toWorker V u now).c = _
    unfold toWorker
    split <;> exact ⟨_, rfl⟩
  | toProxy u =>
    show ∃ P, (S.toProxy u).c = _
    unfold toProxy
    split <;> exact ⟨_, rfl⟩
  | built _ _ _ _ | telemetry _ _ | cmd _ _ _ _ => exact ⟨_, rfl⟩
  | _ => exact absurd hf (by simp [Input.call])

theorem step_cached (V : World σ γ) (S : Sys σ γ n) {i : Input n} (hf : i.call V = none) :
    (S.step V i).c.cached = S.c.cached := by
  obtain ⟨P, h⟩ := step_idle V S hf
  rw [h]

theorem step_sharedIndex (V : World σ γ) (S : Sys σ γ n) {i : Input n} (hf : i.call V = none) :
    (S.step V i).c.sharedIndex = S.c.sharedIndex := by
  obtain ⟨P, h⟩ := step_idle V S hf
  rw [h]

/-- Every move of a worker's player in the event meets `T`. -/
def heeds (T : Player → Move → Prop) (V : World σ γ) (S : Sys σ γ n) (i : Input n) : Prop :=
  ∀ s, match S.task s i with
    | none => True
    | some x => (S.w s).heeds T V.host x.1 x.2

instance (T : Player → Move → Prop) [∀ p m, Decidable (T p m)] (V : World σ γ) (S : Sys σ γ n)
    (i : Input n) : Decidable (S.heeds T V i) :=
  have (s : Fin n) : Decidable (match S.task s i with
      | none => True
      | some x => (S.w s).heeds T V.host x.1 x.2) :=
    match S.task s i with
    | none => isTrue trivial
    | some _ => inferInstanceAs (Decidable (Machine.Along _ _ _ _))
  inferInstanceAs (Decidable (∀ _, _))

theorem heeds_true (V : World σ γ) (S : Sys σ γ n) (i : Input n) :
    S.heeds (fun _ _ => True) V i := by
  intro s
  split
  · trivial
  · exact Machine.Along.of_forall (g := fun _ => True) (fun _ _ => trivial) _

/-- **Step rule of the system** under a condition on the moves, from what holds before an event to
what holds after it. -/
theorem heeds_post (J K : Lockstep γ n → (Fin n → Player) → Prop) {T : Player → Move → Prop}
    (V : World σ γ) (S : Sys σ γ n) (i : Input n) (hT : S.heeds T V i)
    (hidle : (∀ s now, i = .toWorker s now → (S.c.proxies s).port = []) → J S.c S.player →
      K S.c S.player)
    (hcall : ∀ f, i.call V = some f → J S.c S.player → K (f S.c) S.player)
    (hrecv : ∀ s now m ms ps, i = .toWorker s now → (S.c.proxies s).port = m :: ms →
      J S.c S.player → K (onProxy s (·.setPort ms) S.c)
        (Function.update S.player s ((S.player s).receive ps m)))
    (hmove : ∀ s now t c P m, S.task s i = some (now, t) → (S.w s).allows V.host t (P s) m →
      (P s).Enabled m → T (P s) m → K c P → K c (Function.update P s ((P s).apply m)))
    (hback : ∀ s m ms, i = .toProxy s → (S.player s).port = m :: ms → J S.c S.player →
      K (onProxy s (·.handle m) S.c) (Function.update S.player s ((S.player s).setPort ms)))
    (hJ : J S.c S.player) : K (S.step V i).c (S.step V i).player := by
  -- a task of worker `s`, once its message is taken
  have htask : ∀ s now t c, S.task s i = some (now, t) →
      (∀ ps, K c (Function.update S.player s (Worker.taken ps t (S.player s)))) →
      K c (player { c := c, w := Function.update S.w s ((S.w s).step V.host now t) }) := by
    intro s now t c ht hJ0
    rw [player_update]
    have hTs := hT s
    rw [ht] at hTs
    refine Worker.heeds_from (I := fun p => K c (Function.update S.player s p)) hTs
      (fun ps => hJ0 ps) fun p m hok hen hTm hp => ?_
    have h := hmove s now t c (Function.update S.player s p) m ht
    rw [Function.update_self, Function.update_idem] at h
    exact h hok hen hTm hp
  have hself : ∀ s, Function.update S.player s (S.player s) = S.player :=
    fun s => Function.update_eq_self s S.player
  cases i with
  | frame | broadcast _ | setMode _ | setSpeed _ | setGcRatio _ | start | stop | step | reset
  | rejoin _ | pull _ _ => exact hcall _ rfl hJ
  | toWorker s now =>
    show K (S.toWorker V s now).c (S.toWorker V s now).player
    unfold toWorker
    cases hp : (S.c.proxies s).port with
    | nil => exact hidle (fun _ now' h => by cases h; exact hp) hJ
    | cons m ms =>
      exact htask s now (.msg m) _ (by simp [task, hp])
        fun ps => hrecv s now m ms ps rfl hp hJ
  | toProxy s =>
    show K (S.toProxy s).c (S.toProxy s).player
    unfold toProxy
    cases hp : (S.w s).port with
    | nil => exact hidle (fun t now' h => by cases h) hJ
    | cons m ms =>
      dsimp only
      rw [player_update]
      exact hback s m ms rfl hp hJ
  | built s g ok now =>
    exact htask s now (.built g ok) S.c (by simp [task])
      fun _ => (hself s).symm ▸ hidle (fun t now' h => by cases h) hJ
  | telemetry s now =>
    exact htask s now .telemetry S.c (by simp [task])
      fun _ => (hself s).symm ▸ hidle (fun t now' h => by cases h) hJ
  | cmd s id a now =>
    exact htask s now (.cmd id a) S.c (by simp [task])
      fun _ => (hself s).symm ▸ hidle (fun t now' h => by cases h) hJ

/-- **Step rule of the system**, from what holds before an event to what holds after it. -/
theorem step_post {J J' : Lockstep γ n → (Fin n → Player) → Prop} (V : World σ γ) (S : Sys σ γ n)
    (i : Input n)
    (hidle : (∀ s now, i = .toWorker s now → (S.c.proxies s).port = []) → J S.c S.player →
      J' S.c S.player)
    (hcall : ∀ f, i.call V = some f → J S.c S.player → J' (f S.c) S.player)
    (hrecv : ∀ s now m ms ps, i = .toWorker s now → (S.c.proxies s).port = m :: ms →
      J S.c S.player → J' (onProxy s (·.setPort ms) S.c)
        (Function.update S.player s ((S.player s).receive ps m)))
    (hmove : ∀ s now t c P m, S.task s i = some (now, t) → (S.w s).allows V.host t (P s) m →
      (P s).Enabled m → J' c P → J' c (Function.update P s ((P s).apply m)))
    (hback : ∀ s m ms, i = .toProxy s → (S.player s).port = m :: ms → J S.c S.player →
      J' (onProxy s (·.handle m) S.c) (Function.update S.player s ((S.player s).setPort ms)))
    (hJ : J S.c S.player) : J' (S.step V i).c (S.step V i).player := by
  exact heeds_post _ _ V S i (heeds_true V S i) hidle hcall hrecv
    (fun s now t c P m ht hok hen _ h => hmove s now t c P m ht hok hen h) hback hJ

/-- **Invariant rule of the system.** -/
theorem step_rule {J : Lockstep γ n → (Fin n → Player) → Prop} (V : World σ γ) (S : Sys σ γ n)
    (i : Input n)
    (hcall : ∀ f, i.call V = some f → J S.c S.player → J (f S.c) S.player)
    (hrecv : ∀ s now m ms ps, i = .toWorker s now → (S.c.proxies s).port = m :: ms →
      J S.c S.player → J (onProxy s (·.setPort ms) S.c)
        (Function.update S.player s ((S.player s).receive ps m)))
    (hmove : ∀ s now t c P m, S.task s i = some (now, t) → (S.w s).allows V.host t (P s) m →
      (P s).Enabled m → J c P → J c (Function.update P s ((P s).apply m)))
    (hback : ∀ s m ms, i = .toProxy s → (S.player s).port = m :: ms → J S.c S.player →
      J (onProxy s (·.handle m) S.c) (Function.update S.player s ((S.player s).setPort ms)))
    (hJ : J S.c S.player) : J (S.step V i).c (S.step V i).player :=
  step_post V S i (fun _ h => h) hcall hrecv hmove hback hJ

/-- **Invariant rule for each session** under a condition on the moves: `I c s p` may read the whole
coordinator, but changes of another session's proxy keep it. -/
theorem heeds_each {I : Lockstep γ n → Fin n → Player → Prop} {T : Player → Move → Prop}
    (V : World σ γ) (S : Sys σ γ n) (i : Input n) (hT : S.heeds T V i)
    (hframe : ∀ c s t f p, t ≠ s → I c t p → I (onProxy s f c) t p)
    (hcall : ∀ f, i.call V = some f → (∀ s, I S.c s (S.player s)) → ∀ s, I (f S.c) s (S.player s))
    (hrecv : ∀ s now m ms ps, i = .toWorker s now → (S.c.proxies s).port = m :: ms →
      I S.c s (S.player s) → I (onProxy s (·.setPort ms) S.c) s ((S.player s).receive ps m))
    (hmove : ∀ s now t c p m, S.task s i = some (now, t) → (S.w s).allows V.host t p m →
      p.Enabled m → T p m → I c s p → I c s (p.apply m))
    (hback : ∀ s m ms, i = .toProxy s → (S.player s).port = m :: ms → I S.c s (S.player s) →
      I (onProxy s (·.handle m) S.c) s ((S.player s).setPort ms))
    (hI : ∀ s, I S.c s (S.player s)) : ∀ s, I (S.step V i).c s ((S.step V i).player s) := by
  have hother : ∀ c s p f, (∀ t, I c t (S.player t)) → I (onProxy s f c) s p →
      ∀ t, I (onProxy s f c) t (Function.update S.player s p t) := by
    intro c s p f hall hs t
    by_cases h : t = s
    · subst h
      rwa [Function.update_self]
    · rw [Function.update_of_ne h]
      exact hframe c s t f _ h (hall t)
  refine heeds_post (fun c P => ∀ s, I c s (P s)) (fun c P => ∀ s, I c s (P s)) V S i hT
    (fun _ h => h) hcall ?_ ?_ ?_ hI
  · intro s now m ms ps hi hp hall
    exact hother S.c s _ _ hall (hrecv s now m ms ps hi hp (hall s))
  · intro s now t c P m ht hok hen hTm hall u
    by_cases h : u = s
    · subst h
      rw [Function.update_self]
      exact hmove u now t c (P u) m ht hok hen hTm (hall u)
    · rw [Function.update_of_ne h]
      exact hall u
  · intro s m ms hi hp hall
    exact hother S.c s _ _ hall (hback s m ms hi hp (hall s))

/-- **Invariant rule for each session.** -/
theorem step_each {I : Lockstep γ n → Fin n → Player → Prop} (V : World σ γ) (S : Sys σ γ n)
    (i : Input n)
    (hframe : ∀ c s t f p, t ≠ s → I c t p → I (onProxy s f c) t p)
    (hcall : ∀ f, i.call V = some f → (∀ s, I S.c s (S.player s)) → ∀ s, I (f S.c) s (S.player s))
    (hrecv : ∀ s now m ms ps, i = .toWorker s now → (S.c.proxies s).port = m :: ms →
      I S.c s (S.player s) → I (onProxy s (·.setPort ms) S.c) s ((S.player s).receive ps m))
    (hmove : ∀ s now t c p m, S.task s i = some (now, t) → (S.w s).allows V.host t p m →
      p.Enabled m → I c s p → I c s (p.apply m))
    (hback : ∀ s m ms, i = .toProxy s → (S.player s).port = m :: ms → I S.c s (S.player s) →
      I (onProxy s (·.handle m) S.c) s ((S.player s).setPort ms))
    (hI : ∀ s, I S.c s (S.player s)) : ∀ s, I (S.step V i).c s ((S.step V i).player s) :=
  heeds_each V S i (heeds_true V S i) hframe hcall hrecv
    (fun s now t c p m ht hok hen _ h => hmove s now t c p m ht hok hen h) hback hI

end Sys
end FlashVis

import FlashVis.Player.Frame

/-!
# Readings of a player's history

* `posted`, `acksOf`   the messages posted in the current life, and the grant acks among them;
* `lastRound`          the round of the last grant handled;
* `AcksTagged`         every ack carries the round of the last grant handled before it.
-/

namespace FlashVis

/-- The messages posted, in order. -/
def posted (h : List Act) : List W2C := h.filterMap fun
  | .posted m => some m
  | _ => none

/-- The grant acks of a list of messages. -/
def acksOf (l : List W2C) : List GrantAck := l.filterMap fun
  | .grantAck _ a => some a
  | _ => none

/-- The round of the last grant handled. -/
def lastRound (h : List Act) : Int := h.foldl
  (fun r act => match act with
    | .granted g => g.round
    | _ => r) (-1)

theorem posted_append (h h' : List Act) : posted (h ++ h') = posted h ++ posted h' :=
  List.filterMap_append

theorem acksOf_append (l l' : List W2C) : acksOf (l ++ l') = acksOf l ++ acksOf l' :=
  List.filterMap_append

theorem mem_acksOf {l : List W2C} {a : GrantAck} (h : a ∈ acksOf l) : ∃ e, .grantAck e a ∈ l := by
  obtain ⟨m, hm, ha⟩ := List.mem_filterMap.mp h
  cases m with
  | grantAck e b => exact ⟨e, Option.some.inj ha ▸ hm⟩
  | telemetry e t => exact absurd ha (by simp)
  | frame e f => exact absurd ha (by simp)

theorem posted_split {h : List Act} {l₁ l₂ : List W2C} {m : W2C} (hp : posted h = l₁ ++ m :: l₂) :
    ∃ h₁ h₂, h = h₁ ++ .posted m :: h₂ ∧ posted h₁ = l₁ ∧ posted h₂ = l₂ := by
  obtain ⟨h₁, h', rfl, h1, h2⟩ := List.filterMap_eq_append_iff.mp hp
  obtain ⟨k₁, a, k₂, rfl, hk, ha, h3⟩ := List.filterMap_eq_cons_iff.mp h2
  have ham : a = .posted m := by
    cases a <;> simp_all
  refine ⟨h₁ ++ k₁, k₂, by rw [ham, List.append_assoc], ?_, h3⟩
  rw [posted_append, show posted h₁ = l₁ from h1,
    show posted k₁ = [] from List.filterMap_eq_nil_iff.mpr hk, List.append_nil]

theorem lastRound_append {h h' : List Act} (hno : ∀ g, Act.granted g ∉ h') :
    lastRound (h ++ h') = lastRound h := by
  unfold lastRound
  rw [List.foldl_append]
  generalize List.foldl _ (-1) h = r
  induction h' generalizing r with
  | nil => rfl
  | cons a h' ih =>
    have hrest : ∀ g, Act.granted g ∉ h' := fun g hg => hno g (List.mem_cons_of_mem a hg)
    cases a with
    | granted g => exact absurd List.mem_cons_self (hno g)
    | posted _ | ran _ _ _ | started _ | enqueued _ _ _ | wiped _ => exact ih hrest r

theorem lastRound_granted (h : List Act) (g : Grant) : lastRound (h ++ [.granted g]) = g.round := by
  simp [lastRound, List.foldl_append]

/-- A round other than the initial one was granted. -/
theorem granted_of_lastRound {h : List Act} (hr : lastRound h ≠ -1) :
    ∃ h₁ g h₂, h = h₁ ++ .granted g :: h₂ ∧ g.round = lastRound h := by
  induction h using List.reverseRecOn with
  | nil => exact absurd rfl hr
  | append_singleton h a ih =>
    cases a with
    | granted g => exact ⟨h, g, [], rfl, (lastRound_granted h g).symm⟩
    | posted _ | ran _ _ _ | started _ | enqueued _ _ _ | wiped _ =>
      rw [lastRound_append (by simp)] at hr ⊢
      obtain ⟨h₁, g, h₂, heq, hg⟩ := ih hr
      exact ⟨h₁, g, h₂ ++ [_], by rw [heq, List.append_assoc, List.cons_append], hg⟩

/-- Every ack carries the round of the last grant handled before it. -/
def AcksTagged (h : List Act) : Prop :=
  ∀ h₁ e a h₂, h = h₁ ++ .posted (.grantAck e a) :: h₂ → a.round = lastRound h₁

theorem AcksTagged.append {h h' : List Act} (hh : AcksTagged h)
    (hno : ∀ e a, Act.posted (.grantAck e a) ∉ h') : AcksTagged (h ++ h') := by
  intro h₁ e a h₂ heq
  rcases List.append_eq_append_iff.mp heq with ⟨t, -, ht⟩ | ⟨t, ht, ht'⟩
  · exact absurd (ht ▸ by simp) (hno e a)
  · cases t with
    | nil => exact absurd (by rw [List.nil_append] at ht'; rw [← ht']; simp) (hno e a)
    | cons x t =>
      rw [List.cons_append, List.cons.injEq] at ht'
      exact hh h₁ e a t (by rw [ht, ht'.1])

theorem AcksTagged.ack {h : List Act} (hh : AcksTagged h) (e : Int) {a : GrantAck}
    (ha : a.round = lastRound h) : AcksTagged (h ++ [.posted (.grantAck e a)]) := by
  intro h₁ e' a' h₂ heq
  rcases List.append_eq_append_iff.mp heq with ⟨t, ht, ht'⟩ | ⟨t, ht, ht'⟩
  · cases t with
    | nil =>
      rw [List.nil_append, List.cons.injEq, Act.posted.injEq, W2C.grantAck.injEq] at ht'
      rw [List.append_nil] at ht
      rw [← ht'.1.2, ha, ht]
    | cons x t => simp at ht'
  · cases t with
    | nil =>
      rw [List.nil_append, List.cons.injEq, Act.posted.injEq, W2C.grantAck.injEq] at ht'
      rw [List.append_nil] at ht
      rw [ht'.1.2, ha, ht]
    | cons x t =>
      rw [List.cons_append, List.cons.injEq] at ht'
      exact hh h₁ e' a' t (by rw [ht, ht'.1])

theorem posted_acts (p : Player) (m : Move) : posted (m.acts p) = m.posts p := by
  cases m with
  | exec call batch steps ops => cases call <;> rfl
  | op idx w batch steps => cases w <;> rfl
  | _ => rfl

theorem Player.acksOf_posts {p : Player} {m : Move} (he : p.Enabled m) :
    acksOf (m.posts p) = [] ∨ m = .ack ∧ acksOf (m.posts p) = [p.ackOf] := by
  cases m with
  | ack => exact .inr ⟨rfl, rfl⟩
  | post t =>
    left
    obtain ⟨-, hno⟩ := he
    cases t with
    | grantAck e a => exact absurd rfl (hno e a)
    | telemetry _ _ | frame _ _ => rfl
  | _ => exact .inl rfl

theorem no_granted_acts (p : Player) (m : Move) (g : Grant) : Act.granted g ∉ m.acts p := by
  cases m with
  | exec call batch steps ops => cases call <;> simp [Move.acts]
  | op idx w batch steps => cases w <;> simp [Move.acts]
  | _ => simp [Move.acts]

end FlashVis

import FlashVis.Player.Standing
import FlashVis.System.Acks

/-!
# Acks are about entries of the sequence

Whatever happens, rejoined sessions and prep brackets included: a session acks a cursor inside the
sequence, and a drained entry before that cursor.

* `Truthful c s p`      the acked, the acks in flight and the entries of session `s`;
* `Truthful.step`       every event keeps it;
* `maxCursor_le`, `cursor_le_max`   the furthest acked cursor.
-/

namespace FlashVis

namespace Lockstep
variable {γ : Type} {n : Nat} {c c' : Lockstep γ n}

theorem foldl_max_le {l : List Nat} {a b : Nat} :
    l.foldl max a ≤ b ↔ a ≤ b ∧ ∀ x ∈ l, x ≤ b := by
  induction l generalizing a with
  | nil => simp
  | cons x l ih =>
    rw [List.foldl_cons, ih]
    simp only [max_le_iff, List.forall_mem_cons, and_assoc]

theorem maxCursor_le {b : Nat} : c.maxCursor ≤ b ↔ ∀ s, (c.acked s).cursor ≤ b := by
  unfold maxCursor
  rw [foldl_max_le]
  simp

theorem cursor_le_max (c : Lockstep γ n) (s : Fin n) : (c.acked s).cursor ≤ c.maxCursor :=
  maxCursor_le.mp (le_refl _) s

theorem maxCursor_mono (h : ∀ s, (c.acked s).cursor ≤ (c'.acked s).cursor) :
    c.maxCursor ≤ c'.maxCursor :=
  maxCursor_le.mpr fun s => le_trans (h s) (cursor_le_max c' s)

theorem maxCursor_congr (h : ∀ s, c'.acked s = c.acked s) : c'.maxCursor = c.maxCursor := by
  unfold maxCursor
  simp only [h]

end Lockstep

/-- A cursor inside a sequence of length `len`, and a drained entry before it. -/
def Sensible (len cursor : Nat) (drained : Int) : Prop := cursor ≤ len ∧ drained < cursor

theorem Sensible.mono {len len' cursor : Nat} {drained : Int} (h : Sensible len cursor drained)
    (hl : len ≤ len') : Sensible len' cursor drained := ⟨le_trans h.1 hl, h.2⟩

theorem Sensible.merge {len : Nat} {a : Acked} {m : GrantAck}
    (h : Sensible len a.cursor a.entriesDrained) (h' : Sensible len m.cursor m.entriesDrained) :
    Sensible len (a.merge m).cursor (a.merge m).entriesDrained := by
  refine ⟨max_le h.1 h'.1, ?_⟩
  have := h.2
  have := h'.2
  simp only [Acked.merge]
  omega

/-- What session `s` has acked, what it is about to, and the entries it has. -/
structure Truthful {γ : Type} {n : Nat} (c : Lockstep γ n) (s : Fin n) (p : Player) : Prop where
  link : Link c s p
  standing : p.Standing
  acked : Sensible c.sequence.length (c.acked s).cursor (c.acked s).entriesDrained
  flying : ∀ a, .grantAck c.epoch a ∈ p.port →
    Sensible c.sequence.length a.cursor a.entriesDrained
  sent : ∀ es, .entries c.epoch es ∈ (c.proxies s).port → ∀ x ∈ es, x.index < c.sequence.length
  now : p.epoch = c.epoch → p.entries.length ≤ c.sequence.length

namespace Truthful
variable {σ γ : Type} {n : Nat} {c : Lockstep γ n} {s : Fin n} {p : Player}

/-- What a worker of the current epoch would ack. -/
theorem own (h : Truthful c s p) (hep : p.epoch = c.epoch) :
    Sensible c.sequence.length p.cursor p.entriesDrained :=
  ⟨le_trans h.standing.arrived (h.now hep), h.standing.drained⟩

theorem apply (h : Truthful c s p) {m : Move} (he : p.Enabled m) : Truthful c s (p.apply m) := by
  have hf := Player.apply_frame p m
  refine ⟨h.link.apply he, h.standing.apply he, h.acked, fun a ha => ?_, h.sent, ?_⟩
  · rw [hf.port] at ha
    rcases List.mem_append.mp ha with ha | ha
    · exact h.flying a ha
    · cases m <;> simp only [Move.posts, List.mem_singleton, List.not_mem_nil, W2C.grantAck.injEq] at ha
      case ack =>
        rw [ha.2]
        exact h.own ha.1.symm
      case post m => exact absurd ha.symm (he.2 _ a)
  · rw [hf.epoch, hf.entries]
    exact h.now

theorem receive (h : Truthful c s p) {m : C2W} {ms : List C2W} (hp : (c.proxies s).port = m :: ms)
    (ps : Option Nat) : Truthful (Sys.onProxy s (·.setPort ms) c) s (p.receive ps m) := by
  refine ⟨h.link.receive hp ps, h.standing.receive ps m, ?_, fun a ha => ?_, fun es hes => ?_, ?_⟩
  · unfold Lockstep.acked
    rw [Sys.onProxy_same]
    exact h.acked
  · rw [Link.receive_port] at ha
    exact h.flying a ha
  · rw [Sys.onProxy_same] at hes
    exact h.sent es (hp ▸ List.mem_cons_of_mem m hes)
  · show (p.receive ps m).epoch = c.epoch → _ ≤ c.sequence.length
    cases m with
    | init e f g => exact fun _ => Nat.zero_le _
    | reset e => exact fun _ => Nat.zero_le _
    | pull e sel => exact h.now
    | entries e es =>
      unfold Player.receive
      dsimp only
      split
      · rename_i he
        intro hep
        have hep' : e = c.epoch := he.trans hep
        refine takeEntries_length (h.now hep) (h.sent es ?_)
        rw [hp, ← hep']
        exact List.mem_cons_self
      · exact h.now
    | grant e g =>
      unfold Player.receive
      dsimp only
      split <;> exact h.now

theorem handled (h : Truthful c s p) {m : W2C} {ms : List W2C} (hp : p.port = m :: ms) :
    (Sys.onProxy s (·.handle m) c).acked s = c.acked s ∨
      ∃ a, .grantAck c.epoch a ∈ p.port ∧
        (Sys.onProxy s (·.handle m) c).acked s = (c.acked s).merge a := by
  unfold Lockstep.acked
  rw [Sys.onProxy_same]
  unfold Proxy.handle
  split
  · exact .inl rfl
  · rename_i hm
    rw [not_not, h.link.proxy] at hm
    cases m with
    | telemetry e t => exact .inl rfl
    | frame e f => exact .inl rfl
    | grantAck e a => exact .inr ⟨a, by rw [hp, ← hm]; exact List.mem_cons_self, rfl⟩

theorem back_of (h : Truthful c s p) {m : W2C} {ms : List W2C} (hp : p.port = m :: ms) :
    Truthful (Sys.onProxy s (·.handle m) c) s (p.setPort ms) := by
  refine ⟨h.link.back_of hp, ⟨h.standing.indexed, h.standing.arrived, h.standing.cmd,
    h.standing.playable, h.standing.drained, h.standing.marked⟩, ?_, fun a ha => ?_, ?_, h.now⟩
  · rcases h.handled hp with h' | ⟨a, ha, h'⟩ <;> rw [h']
    · exact h.acked
    · exact h.acked.merge (h.flying a ha)
  · exact h.flying a (hp ▸ List.mem_cons_of_mem m ha)
  · rw [Sys.onProxy_same, Proxy.handle_port]
    exact h.sent

theorem frame {t : Fin n} (ht : t ≠ s) (f : Proxy → Proxy) (h : Truthful c t p) :
    Truthful (Sys.onProxy s f c) t p := by
  refine ⟨h.link.frame ht f, h.standing, ?_, h.flying, ?_, h.now⟩
  · unfold Lockstep.acked
    rw [Sys.onProxy_ne ht]
    exact h.acked
  · rw [Sys.onProxy_ne ht]
    exact h.sent

/-- An epoch starts: nothing of it has been acked or sent. -/
theorem of_reset (h : Link c s p) (hs : p.Standing) (G : Churn γ) :
    Truthful (c.reset G) s p := by
  have hlt : p.epoch < c.epoch + 1 := Int.lt_add_one_of_le h.epoch_le
  refine ⟨(h.reset G).toLink, hs, ⟨le_refl _, Int.negSucc_lt_zero 0⟩, fun a ha => ?_,
    fun es hes => ?_, fun hep => absurd hep (ne_of_lt hlt)⟩
  · exact absurd (h.back _ ha) (not_le.mpr hlt)
  · rcases List.mem_append.mp hes with hes | hes
    · exact absurd (h.chan.epoch_le _ hes) (not_le.mpr (Int.lt_succ _))
    · exact absurd hes (by simp)

theorem call (V : World σ γ) {i : Input n} {f : Lockstep γ n → Lockstep γ n}
    (hf : i.call V = some f) (h : Truthful c s p) : Truthful (f c) s p := by
  by_cases hk : i.keepsEpoch = true
  · obtain ⟨he, hs⟩ := call_sends V hf hk c
    obtain ⟨ms, hms⟩ := hs s
    have hlen : c.sequence.length ≤ (f c).sequence.length := by
      rcases call_sequence V hf hk c with hx | ⟨payload, u, -, hx⟩
      · exact hx.grows.length_le
      · rw [hx, List.length_append]
        exact Nat.le_add_right _ _
    refine ⟨h.link.call V hf, h.standing, ?_, ?_, ?_, ?_⟩
    · rw [call_acked V hf hk]
      exact h.acked.mono hlen
    · rw [he]
      exact fun a ha => (h.flying a ha).mono hlen
    · rw [hms.proxy, he]
      intro es hes x hx
      rcases List.mem_append.mp hes with hes | hes
      · exact lt_of_lt_of_le (h.sent es hes x hx) hlen
      · have hw := mem_wire (hms.entries _ es hes x hx)
        have := (List.getElem?_eq_some_iff.mp hw).1
        rwa [wire, List.length_mapIdx] at this
    · rw [he]
      exact fun hep => le_trans (h.now hep) hlen
  · cases i <;> simp only [Input.call, Option.some.injEq, reduceCtorEq, Input.keepsEpoch,
      not_true, not_false_iff] at hf hk
    case reset =>
      subst hf
      exact of_reset h.link h.standing V.churn
    case rejoin t =>
      have hlink := h.link.call V (i := .rejoin t) rfl
      subst hf
      by_cases hst : s = t
      · subst hst
        refine ⟨hlink, h.standing, ?_, h.flying, ?_, h.now⟩
        · simp only [Lockstep.acked, Lockstep.rejoin, Function.update_self]
          exact h.acked
        · simp only [Lockstep.rejoin, Function.update_self]
          intro es hes
          rcases List.mem_append.mp hes with hes | hes
          · exact h.sent es hes
          · exact absurd hes (by simp)
      · refine ⟨hlink, h.standing, ?_, h.flying, ?_, h.now⟩
        · simp only [Lockstep.acked, Lockstep.rejoin, Function.update_of_ne hst]
          exact h.acked
        · simp only [Lockstep.rejoin, Function.update_of_ne hst]
          exact h.sent

theorem step (V : World σ γ) (S : Sys σ γ n) (i : Input n)
    (h : ∀ s, Truthful S.c s (S.player s)) :
    ∀ s, Truthful (S.step V i).c s ((S.step V i).player s) :=
  Sys.step_each V S i (fun _ _ _ f _ ht h => h.frame ht f)
    (fun _ hf h s => (h s).call V hf) (fun _ _ _ _ ps _ hp h => h.receive hp ps)
    (fun _ _ _ _ _ _ _ _ he h => h.apply he) (fun _ _ _ _ hp h => h.back_of hp) h

theorem init (churn : γ) (ratio : ℚ) (info : Fin n → String × Geometry) (s : Fin n) :
    Truthful (Sys.init (σ := σ) churn ratio info).c s
      ((Sys.init (σ := σ) churn ratio info).player s) := by
  refine ⟨.init churn ratio info s, ⟨fun _ _ h => absurd h (by simp [Sys.init, Sys.player, Worker.core]),
    le_refl _, fun _ h => absurd h (by simp [Sys.init, Sys.player, Worker.core]),
    fun _ h => absurd h (by simp [Sys.init, Sys.player, Worker.core]), Int.negSucc_lt_zero 0,
    fun _ h => absurd h (by simp [Sys.init, Sys.player, Worker.core, marks])⟩,
    ⟨le_refl _, Int.negSucc_lt_zero 0⟩,
    fun _ h => absurd h (by simp [Sys.init, Sys.player, Worker.core]), fun es hes => ?_, fun _ => le_refl _⟩
  simp [Sys.init, Lockstep.create, Proxy.setEpoch, Proxy.init, Proxy.send] at hes

end Truthful
end FlashVis

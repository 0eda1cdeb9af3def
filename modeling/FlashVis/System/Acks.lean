import FlashVis.System.Link

/-!
# What the coordinator knows is behind what the workers are

The acked state is a maximum over stale messages.  For a quantity that a worker never lowers
within an epoch, what is acked and what is on its way is at most what the worker has.

* `AckField`      such a quantity: how it is acked, merged and held by the worker;
* `Behind F c s p`  acked and in-flight values of session `s` are behind its worker;
* `playbackField`, `cursorField`, `drainedField`   the three that grants are derived from.
-/

namespace FlashVis

/-- A quantity that workers ack and the coordinator keeps the maximum of. -/
structure AckField (α : Type) [LinearOrder α] where
  acked : Acked → α
  ack : GrantAck → α
  own : Player → α
  start : α
  merge : ∀ a m, acked (a.merge m) = max (acked a) (ack m)
  reset : acked {} = start
  ackOf : ∀ p : Player, ack p.ackOf = own p
  fresh : ∀ (p : Player) e keep ps, own (p.fresh e keep ps) = start
  feed : ∀ (p : Player) es, own (p.feed es) = own p
  grant : ∀ (p : Player) g, own (p.grant g) = own p
  setPort : ∀ (p : Player) ms, own (p.setPort ms) = own p

def playbackField : AckField ℚ where
  acked := (·.playbackNs)
  ack := (·.playbackNs)
  own := (·.playbackNs)
  start := 0
  merge _ _ := rfl
  reset := rfl
  ackOf _ := rfl
  fresh _ _ _ _ := rfl
  feed _ _ := rfl
  grant _ _ := rfl
  setPort _ _ := rfl

def cursorField : AckField Nat where
  acked := (·.cursor)
  ack := (·.cursor)
  own := (·.cursor)
  start := 0
  merge _ _ := rfl
  reset := rfl
  ackOf _ := rfl
  fresh _ _ _ _ := rfl
  feed _ _ := rfl
  grant _ _ := rfl
  setPort _ _ := rfl

def drainedField : AckField Int where
  acked := (·.entriesDrained)
  ack := (·.entriesDrained)
  own := (·.entriesDrained)
  start := -1
  merge _ _ := rfl
  reset := rfl
  ackOf _ := rfl
  fresh _ _ _ _ := rfl
  feed _ _ := rfl
  grant _ _ := rfl
  setPort _ _ := rfl

variable {α : Type} [LinearOrder α] {F : AckField α}

/-- What a worker has in epoch `E`: nothing before it has joined it. -/
def AckField.now (F : AckField α) (E : Int) (p : Player) : α :=
  if p.epoch = E then F.own p else F.start

theorem AckField.now_eq {E : Int} {p : Player} (h : p.epoch = E) : F.now E p = F.own p := if_pos h

theorem AckField.now_ne {E : Int} {p : Player} (h : p.epoch ≠ E) : F.now E p = F.start := if_neg h

theorem Arrival.now {E : Int} {ps : Option Nat} {p q : Player} {m : C2W}
    (h : Arrival E ps p m q) : F.now E q = F.now E p := by
  cases h with
  | feed es now hm =>
    rw [AckField.now_eq (p := p.feed es) now, AckField.now_eq now, F.feed]
  | grant g now hm =>
    rw [AckField.now_eq (p := p.grant g) now, AckField.now_eq now, F.grant]
  | pull sel now hm => rfl
  | fresh keep before hm =>
    have hnew : F.now E (p.fresh E keep ps) = F.own (p.fresh E keep ps) := AckField.now_eq rfl
    rw [hnew, AckField.now_ne (ne_of_lt before), F.fresh]
  | early q before after hm => rw [AckField.now_ne (ne_of_lt before), AckField.now_ne (ne_of_lt after)]

/-- A proxy merges an ack of the current epoch and nothing else. -/
theorem Joined.handle_acked {γ : Type} {n : Nat} {c : Lockstep γ n} {s : Fin n} {p : Player}
    (hj : Joined c s p) (m : W2C) : (Sys.onProxy s (·.handle m) c).acked s = c.acked s ∨
      ∃ a, m = .grantAck c.epoch a ∧
        (Sys.onProxy s (·.handle m) c).acked s = (c.acked s).merge a := by
  unfold Lockstep.acked
  rw [Sys.onProxy_same]
  unfold Proxy.handle
  split
  · exact .inl rfl
  · rename_i hm
    rw [not_not, hj.proxy] at hm
    cases m with
    | telemetry e t => exact .inl rfl
    | frame e f => exact .inl rfl
    | grantAck e a => exact .inr ⟨a, by rw [← hm]; rfl, rfl⟩

/-- The acked value of session `s` and those on their way are behind its worker. -/
structure Behind {γ : Type} {n : Nat} (F : AckField α) (c : Lockstep γ n) (s : Fin n) (p : Player) :
    Prop where
  low : F.start ≤ F.acked (c.acked s)
  acked : F.acked (c.acked s) ≤ F.now c.epoch p
  flying : ∀ a, .grantAck c.epoch a ∈ p.port → F.ack a ≤ F.now c.epoch p

namespace Behind
variable {σ γ : Type} {n : Nat} {c : Lockstep γ n} {s : Fin n} {p : Player}

/-- A move that does not lower the quantity. -/
theorem apply (h : Behind F c s p) {m : Move} (he : p.Enabled m)
    (hup : p.epoch = c.epoch → F.own p ≤ F.own (p.apply m)) : Behind F c s (p.apply m) := by
  have hf := Player.apply_frame p m
  have hnow : F.now c.epoch p ≤ F.now c.epoch (p.apply m) := by
    unfold AckField.now
    rw [hf.epoch]
    split
    · exact hup ‹_›
    · exact le_refl _
  refine ⟨h.low, le_trans h.acked hnow, fun a ha => ?_⟩
  rw [hf.port] at ha
  rcases List.mem_append.mp ha with ha | ha
  · exact le_trans (h.flying a ha) hnow
  · cases m <;> simp only [Move.posts, List.mem_singleton, List.not_mem_nil, W2C.grantAck.injEq] at ha
    case ack =>
      rw [ha.2, F.ackOf, ← AckField.now_eq (F := F) ha.1.symm]
      exact hnow
    case post m => exact absurd ha.symm (he.2 _ a)

theorem receive (h : Behind F c s p) (hj : Joined c s p) {m : C2W} {ms : List C2W}
    (hp : (c.proxies s).port = m :: ms) (ps : Option Nat) :
    Behind F (Sys.onProxy s (·.setPort ms) c) s (p.receive ps m) := by
  have hnow := (hj.arrival hp ps).now (F := F)
  have hack : (Sys.onProxy s (·.setPort ms) c).acked s = c.acked s := by
    unfold Lockstep.acked
    rw [Sys.onProxy_same]
    rfl
  constructor
  · rw [hack]
    exact h.low
  · rw [hack]
    exact hnow ▸ h.acked
  · intro a ha
    rw [Link.receive_port] at ha
    exact hnow ▸ h.flying a ha

theorem back_of (h : Behind F c s p) (hj : Joined c s p) {m : W2C} {ms : List W2C}
    (hp : p.port = m :: ms) :
    Behind F (Sys.onProxy s (·.handle m) c) s (p.setPort ms) := by
  have hnow : F.now c.epoch (p.setPort ms) = F.now c.epoch p := by
    unfold AckField.now
    rw [F.setPort]
    rfl
  have hack := hj.handle_acked m
  refine ⟨?_, ?_, fun a ha => ?_⟩
  · rcases hack with h' | ⟨a, -, h'⟩ <;> rw [h']
    · exact h.low
    · exact le_trans h.low (by rw [F.merge]; exact le_max_left _ _)
  · show F.acked _ ≤ F.now c.epoch (p.setPort ms)
    rw [hnow]
    rcases hack with h' | ⟨a, hm, h'⟩ <;> rw [h']
    · exact h.acked
    · rw [F.merge]
      exact max_le h.acked (h.flying a (hp ▸ hm ▸ List.mem_cons_self))
  · show F.ack a ≤ F.now c.epoch (p.setPort ms)
    rw [hnow]
    exact h.flying a (hp ▸ List.mem_cons_of_mem m ha)

theorem frame {t : Fin n} (ht : t ≠ s) (f : Proxy → Proxy) (h : Behind F c t p) :
    Behind F (Sys.onProxy s f c) t p := by
  have hack : (Sys.onProxy s f c).acked t = c.acked t := by
    unfold Lockstep.acked
    rw [Sys.onProxy_ne ht]
  exact ⟨hack ▸ h.low, hack ▸ h.acked, h.flying⟩

theorem call (V : World σ γ) {i : Input n} {f : Lockstep γ n → Lockstep γ n}
    (hf : i.call V = some f) (hk : i.keepsEpoch = true) (h : Behind F c s p) :
    Behind F (f c) s p := by
  have he := (call_sends V hf hk c).1
  refine ⟨?_, ?_, ?_⟩
  · rw [call_acked V hf hk]
    exact h.low
  · rw [call_acked V hf hk, he]
    exact h.acked
  · rw [he]
    exact h.flying

end Behind

theorem Link.reset_behind {γ : Type} {n : Nat} {c : Lockstep γ n} {s : Fin n} {p : Player}
    (h : Link c s p) (F : AckField α) (G : Churn γ) : Behind F (c.reset G) s p := by
  have hlt : p.epoch < c.epoch + 1 := Int.lt_add_one_of_le h.epoch_le
  constructor
  · exact le_of_eq F.reset.symm
  · show F.acked {} ≤ F.now (c.epoch + 1) p
    rw [AckField.now_ne (ne_of_lt hlt)]
    exact le_of_eq F.reset
  · intro a ha
    have := h.back _ ha
    exact absurd this (not_le.mpr hlt)

end FlashVis

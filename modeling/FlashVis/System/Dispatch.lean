import FlashVis.Player.Dispatch
import FlashVis.Player.Runs
import FlashVis.System.Steady

/-!
# Exactly once, in order

What a worker has dispatched in its current life, against the canonical sequence of its epoch.  The
sequence of an epoch that is over is read off the run: what the coordinator left of it.

* `Sys.ledger V .. is`   the canonical sequence of every epoch of the run `is`;
* `Kept book c s p`      entries on their way to worker `s` and arrived there are the book's;
* `Landed V .. is s b`   build `b` of worker `s` landed before an INIT or RESET superseded it;
* `dispatched_once`      dispatch is exactly once, in order, authorized and on a landed runner.
-/

namespace FlashVis

namespace Sys
variable {σ γ : Type} {n : Nat}

/-- The canonical sequence of every epoch: as the coordinator has it now, or left it. -/
def ledger (V : World σ γ) (churn : γ) (ratio : ℚ) (info : Fin n → String × Geometry)
    (is : List (Input n)) : Int → List SeqEntry :=
  is.inits.foldl (fun book js =>
    let c := (after V churn ratio info js).c
    Function.update book c.epoch c.sequence) fun _ => []

theorem ledger_concat (V : World σ γ) (churn : γ) (ratio : ℚ) (info : Fin n → String × Geometry)
    (is : List (Input n)) (i : Input n) :
    let c := (after V churn ratio info (is ++ [i])).c
    ledger V churn ratio info (is ++ [i])
      = Function.update (ledger V churn ratio info is) c.epoch c.sequence := by
  intro c
  unfold ledger
  rw [List.inits_append]
  simp only [List.inits, List.map_cons, List.map_nil, List.tail_cons, List.foldl_append,
    List.foldl_cons, List.foldl_nil]
  rfl

end Sys

/-! ## entries are the book's -/

theorem wire_grows {l l' : List SeqEntry} (h : l <+: l') : wire l <+: wire l' := by
  obtain ⟨t, rfl⟩ := h
  unfold wire
  rw [List.mapIdx_append]
  exact List.prefix_append _ _

theorem takeEntries_stays {l es : List Entry} {seq : List SeqEntry} (h : l <+: wire seq)
    (hes : ∀ x ∈ es, x ∈ wire seq) : Worker.takeEntries l es <+: wire seq := by
  induction es generalizing l with
  | nil => exact h
  | cons x es ih =>
    refine ih ?_ fun y hy => hes y (List.mem_cons_of_mem x hy)
    dsimp only
    split
    · rename_i hidx
      have hx := mem_wire (hes x List.mem_cons_self)
      rw [hidx] at hx
      obtain ⟨t, ht⟩ := h
      rw [← ht, List.getElem?_append_right (le_refl _), Nat.sub_self] at hx
      cases t with
      | nil => exact absurd hx (by simp)
      | cons y t =>
        rw [List.getElem?_cons_zero, Option.some.injEq] at hx
        exact ⟨t, by rw [← ht, hx, List.append_assoc, List.singleton_append]⟩
    · exact h

/-- Entries on their way to worker `s`, and those that have arrived, are the book's. -/
structure Kept {γ : Type} {n : Nat} (book : Int → List SeqEntry) (c : Lockstep γ n) (s : Fin n)
    (p : Player) : Prop where
  link : Link c s p
  now : book c.epoch = c.sequence
  own : p.entries <+: wire (book p.epoch)
  sent : ∀ e es, .entries e es ∈ (c.proxies s).port → ∀ x ∈ es, x ∈ wire (book e)

namespace Kept
variable {σ γ : Type} {n : Nat} {book : Int → List SeqEntry} {c : Lockstep γ n} {s : Fin n}
  {p : Player}

theorem apply (h : Kept book c s p) {m : Move} (he : p.Enabled m) : Kept book c s (p.apply m) := by
  have hf := Player.apply_frame p m
  refine ⟨h.link.apply he, h.now, ?_, h.sent⟩
  rw [hf.entries, hf.epoch]
  exact h.own

theorem receive (h : Kept book c s p) {m : C2W} {ms : List C2W}
    (hp : (c.proxies s).port = m :: ms) (ps : Option Nat) :
    Kept book (Sys.onProxy s (·.setPort ms) c) s (p.receive ps m) := by
  refine ⟨h.link.receive hp ps, h.now, ?_, fun e es hes => ?_⟩
  · cases m with
    | init e f g => exact List.nil_prefix
    | reset e => exact List.nil_prefix
    | pull e sel => exact h.own
    | entries e es =>
      unfold Player.receive
      dsimp only
      split
      · rename_i hep
        have hes := h.sent e es (hp ▸ List.mem_cons_self)
        rw [hep] at hes
        exact takeEntries_stays h.own hes
      · exact h.own
    | grant e g =>
      unfold Player.receive
      dsimp only
      split
      · exact h.own
      · exact h.own
  · rw [Sys.onProxy_same] at hes
    exact h.sent e es (hp ▸ List.mem_cons_of_mem m hes)

theorem back_of (h : Kept book c s p) {m : W2C} {ms : List W2C} (hp : p.port = m :: ms) :
    Kept book (Sys.onProxy s (·.handle m) c) s (p.setPort ms) := by
  refine ⟨h.link.back_of hp, h.now, h.own, ?_⟩
  rw [Sys.onProxy_same, Proxy.handle_port]
  exact h.sent

theorem frame {t : Fin n} (ht : t ≠ s) (f : Proxy → Proxy) (h : Kept book c t p) :
    Kept book (Sys.onProxy s f c) t p := by
  refine ⟨h.link.frame ht f, h.now, h.own, ?_⟩
  rw [Sys.onProxy_ne ht]
  exact h.sent

theorem call (V : World σ γ) {i : Input n} {f : Lockstep γ n → Lockstep γ n}
    (hf : i.call V = some f) (h : Kept book c s p) :
    Kept (Function.update book (f c).epoch (f c).sequence) (f c) s p := by
  have hlink := h.link.call V hf
  -- the book grows in every epoch there has been
  have grown : (∀ e, e ≤ c.epoch → book e <+: Function.update book (f c).epoch (f c).sequence e) →
      (∀ e es, .entries e es ∈ ((f c).proxies s).port → .entries e es ∈ (c.proxies s).port ∨
        e = (f c).epoch ∧ ∀ x ∈ es, x ∈ wire (f c).sequence) →
      Kept (Function.update book (f c).epoch (f c).sequence) (f c) s p := by
    intro hup hnew
    refine ⟨hlink, Function.update_self .., ?_, fun e es hes x hx => ?_⟩
    · exact h.own.trans (wire_grows (hup p.epoch h.link.epoch_le))
    · rcases hnew e es hes with hold | ⟨rfl, hwire⟩
      · have hle : e ≤ c.epoch := h.link.chan.epoch_le _ hold
        exact (wire_grows (hup e hle)).subset (h.sent e es hold x hx)
      · rw [Function.update_self]
        exact hwire x hx
  by_cases hk : i.keepsEpoch = true
  · obtain ⟨hep, hs⟩ := call_sends V hf hk c
    obtain ⟨ms, hms⟩ := hs s
    refine grown (fun e _ => ?_) fun e es hes => ?_
    · by_cases hee : e = c.epoch
      · rw [hep, hee, Function.update_self, h.now]
        rcases call_sequence V hf hk c with ⟨l, hl, -⟩ | ⟨payload, u, -, hl⟩
        · exact ⟨l, hl.symm⟩
        · exact ⟨_, hl.symm⟩
      · rw [hep, Function.update_of_ne hee]
    · rw [hms.proxy] at hes
      rcases List.mem_append.mp hes with hes | hes
      · exact .inl hes
      · refine .inr ⟨?_, hms.entries e es hes⟩
        rw [hep, ← h.link.proxy]
        exact (hms.plain _ hes).2
  · cases i <;> simp only [Input.call, Option.some.injEq, reduceCtorEq, Input.keepsEpoch,
      not_true, not_false_iff] at hf hk
    case reset =>
      subst hf
      refine grown (fun e he => ?_) fun e es hes => ?_
      · have hne : e ≠ (c.reset V.churn).epoch := ne_of_lt (Int.lt_add_one_of_le he)
        rw [Function.update_of_ne hne]
      · rcases List.mem_append.mp hes with hes | hes
        · exact .inl hes
        · exact absurd hes (by simp)
    case rejoin t =>
      subst hf
      refine grown (fun e _ => ?_) fun e es hes => .inl ?_
      · have hsame : Function.update book (c.rejoin t).epoch (c.rejoin t).sequence = book := by
          show Function.update book c.epoch c.sequence = book
          rw [← h.now, Function.update_eq_self]
        rw [hsame]
      · by_cases hst : s = t
        · subst hst
          simp only [Lockstep.rejoin, Function.update_self] at hes
          rcases List.mem_append.mp hes with hes | hes
          · exact hes
          · exact absurd hes (by simp)
        · simpa only [Lockstep.rejoin, Function.update_of_ne hst] using hes

/-- One event: the book takes the sequence that the coordinator has after it. -/
theorem step (V : World σ γ) (S : Sys σ γ n) (i : Input n)
    (h : ∀ s, Kept book S.c s (S.player s)) :
    ∀ s, Kept (Function.update book (S.step V i).c.epoch (S.step V i).c.sequence) (S.step V i).c s
      ((S.step V i).player s) := by
  cases hf : i.call V with
  | some f =>
    rw [Sys.step_call V S hf]
    exact fun s => (h s).call V hf
  | none =>
    intro s
    have hsame : Function.update book (S.step V i).c.epoch (S.step V i).c.sequence = book := by
      obtain ⟨P, hP⟩ := Sys.step_idle V S hf
      rw [hP]
      show Function.update book S.c.epoch S.c.sequence = book
      rw [← (h s).now, Function.update_eq_self]
    rw [hsame]
    exact Sys.step_each V S i (fun _ _ _ f _ ht h => h.frame ht f)
      (fun f hf' _ => absurd (hf.symm.trans hf') (by simp))
      (fun _ _ _ _ ps _ hp h => h.receive hp ps)
      (fun _ _ _ _ _ _ _ _ he h => h.apply he) (fun _ _ _ _ hp h => h.back_of hp) h s

theorem run (V : World σ γ) (churn : γ) (ratio : ℚ) (info : Fin n → String × Geometry)
    (is : List (Input n)) (s : Fin n) :
    Kept (Sys.ledger V churn ratio info is) (Sys.after V churn ratio info is).c s
      ((Sys.after V churn ratio info is).player s) := by
  induction is using List.reverseRecOn generalizing s with
  | nil =>
    refine ⟨Link.init churn ratio info s, ?_, List.nil_prefix, fun e es hes => ?_⟩
    · exact Function.update_self (0 : Int) _ fun _ => []
    · exact absurd hes (by simp [Sys.init, Lockstep.create, Proxy.init, Proxy.send, Proxy.setEpoch])
  | append_singleton is i ih =>
    rw [Sys.ledger_concat, Sys.after, Machine.run_concat]
    exact step V _ i ih s

end Kept

/-! ## builds that landed -/

section
variable {σ γ : Type} {n : Nat}

/-- Build `b` of worker `s` landed, and no INIT or RESET had come since it was started. -/
def Landed (V : World σ γ) (churn : γ) (ratio : ℚ) (info : Fin n → String × Geometry)
    (is : List (Input n)) (s : Fin n) (b : Nat) : Prop :=
  ∃ is₁ is₂ ok now, is = is₁ ++ .built s b ok now :: is₂ ∧
    let w := (Sys.after V churn ratio info is₁).w s
    b ∈ w.builds.map (·.gen) ∧ b = w.gen

theorem Landed.concat {V : World σ γ} {churn : γ} {ratio : ℚ} {info : Fin n → String × Geometry}
    {is : List (Input n)} {s : Fin n} {b : Nat} (h : Landed V churn ratio info is s b)
    (i : Input n) : Landed V churn ratio info (is ++ [i]) s b := by
  obtain ⟨is₁, is₂, ok, now, rfl, hw⟩ := h
  exact ⟨is₁, is₂ ++ [i], ok, now, by simp, hw⟩

theorem Sys.licensed (V : World σ γ) (churn : γ) (ratio : ℚ) (info : Fin n → String × Geometry)
    (is : List (Input n)) (s : Fin n) :
    ((Sys.after V churn ratio info is).player s).Licensed (Landed V churn ratio info is s) := by
  induction is using List.reverseRecOn generalizing s with
  | nil =>
    refine ⟨.inl rfl, ?_, fun b hb => absurd hb (by simp [Sys.init, Sys.player, Worker.core]), ?_⟩
    · intro h₁ a h₂ d heq
      exact absurd heq (by simp [Sys.init, Sys.player, Worker.core])
    · exact fun b k c hb => absurd hb (by simp [Sys.init, Sys.player, Worker.core])
  | append_singleton is i ih =>
    unfold Sys.after at ih ⊢
    rw [Machine.run_concat]
    generalize hS : Machine.run (Sys.step V) (Sys.init churn ratio info) is = S at ih
    -- a worker that lands a build has the generation and the builds that the event found
    have hstep := Sys.step_each (I := fun _ s p => p.Licensed (Landed V churn ratio info (is ++ [i]) s) ∧
      ((∃ b ok now, i = .built s b ok now) → p.gen = (S.w s).gen ∧
        ∀ b ∈ p.builds, b ∈ (S.w s).builds.map (·.gen))) V S i ?_ ?_ ?_ ?_ ?_ ?_ s
    · exact hstep.1
    · exact fun _ _ _ _ _ _ h => h
    · exact fun _ _ h => h
    · rintro u now m ms ps rfl - ⟨h, -⟩
      refine ⟨h.receive ps m, ?_⟩
      rintro ⟨_, _, _, hi⟩
      exact absurd hi (by simp)
    · rintro u now t c p m ht hok he ⟨h, hgen⟩
      have hf := Player.apply_frame p m
      refine ⟨h.apply he ?_, fun hi => ⟨hf.gen.trans (hgen hi).1, fun b hb => (hgen hi).2 b ?_⟩⟩
      · rintro b rfl
        obtain ⟨ok, rfl⟩ := hok
        obtain ⟨now', rfl⟩ : ∃ now', i = .built u b ok now' := by
          cases i <;> simp only [Sys.task, reduceCtorEq] at ht
          case toWorker v now' =>
            split at ht
            · obtain ⟨m', -, hm'⟩ := Option.map_eq_some_iff.mp ht
              exact absurd (Prod.mk.inj hm').2 (by simp)
            · exact absurd ht (by simp)
          all_goals
            split at ht
            · simp_all
            · exact absurd ht (by simp)
        obtain ⟨hg, hb⟩ := hgen ⟨b, ok, now', rfl⟩
        refine ⟨is, [], ok, now', rfl, ?_⟩
        rw [Sys.after, hS]
        exact ⟨hb b he.1, he.2.trans hg⟩
      · rw [hf.builds] at hb
        cases m with
        | land _ | drop _ => exact (List.mem_filter.mp hb).1
        | _ => exact hb
    · rintro u m ms rfl - ⟨h, -⟩
      refine ⟨⟨h.limit, h.authorized, h.runner, h.ran⟩, ?_⟩
      rintro ⟨_, _, _, hi⟩
      exact absurd hi (by simp)
    · exact fun u => ⟨(ih u).mono fun b hb => hb.concat i, fun _ => ⟨rfl, fun _ hb => hb⟩⟩

/-- In a run in which no call of an entry throws, the history accounts for the entries before the
cursor. -/
theorem Sys.dispatched (V : World σ γ) (churn : γ) (ratio : ℚ) (info : Fin n → String × Geometry)
    {is : List (Input n)} (hreturns : Machine.Along (Sys.step V)
      (fun S i => S.heeds (fun _ m => m.returns = true) V i) (Sys.init churn ratio info) is)
    (s : Fin n) : ((Sys.after V churn ratio info is).player s).Dispatched := by
  refine Machine.run_inv (P := fun S : Sys σ γ n => ∀ s, (S.player s).Dispatched)
    (fun S i hi h => ?_) hreturns (fun s => ⟨.start, rfl⟩) s
  refine Sys.heeds_each (I := fun _ _ p => p.Dispatched) V S i hi ?_ ?_ ?_ ?_ ?_ h
  · exact fun _ _ _ _ _ _ h => h
  · exact fun _ _ h => h
  · exact fun _ _ m _ ps _ _ h => h.receive ps m
  · exact fun _ _ _ _ _ _ _ _ he hm h => h.apply he (Move.returns_ne hm)
  · intro _ _ _ _ _ h
    exact ⟨⟨h.indexed, h.arrived, h.cmd, h.playable, h.drained, h.marked⟩, h.hist⟩

/-- What a worker has dispatched in its life, against the canonical sequence. -/
structure OnceInOrder (seq : List SeqEntry) (w : Worker σ) : Prop where
  /-- entries arrive in order, without a gap -/
  canonical : w.entries <+: wire seq
  arrived : w.cursor ≤ w.entries.length
  /-- the dispatches are those of the entries before the cursor and of the command in flight -/
  exact : dispatched w.hist = ((wire seq).take w.cursor).filterMap Entry.dispatch
    ++ (w.realCmd.map fun k => (k, none)).toList
  inFlight : ∀ k, w.realCmd = some k → k = w.cursor ∧ ∃ e, (wire seq)[k]? = some e ∧ e.kind = .command
  increasing : ((dispatched w.hist).map Prod.fst).Pairwise (· < ·)
  authorized : Authorized w.hist

/-- **Dispatch is exactly once and in order**, never ahead of a grant, and never on a runner whose
build was superseded before it landed. -/
theorem dispatched_once (V : World σ γ) (churn : γ) (ratio : ℚ) (info : Fin n → String × Geometry)
    (is : List (Input n)) (hreturns : Machine.Along (Sys.step V)
      (fun S i => S.heeds (fun _ m => m.returns = true) V i) (Sys.init churn ratio info) is)
    (s : Fin n) :
    let w := (Sys.after V churn ratio info is).w s
    OnceInOrder (Sys.ledger V churn ratio info is w.epoch) w ∧
      ∀ b index call, .ran b index call ∈ w.hist → Landed V churn ratio info is s b := by
  intro w
  have hdisp := Sys.dispatched V churn ratio info hreturns s
  have hlic := Sys.licensed V churn ratio info is s
  have hown := (Kept.run V churn ratio info is s).own
  have harrived : w.cursor ≤ w.entries.length := hdisp.arrived
  obtain ⟨t, ht⟩ : w.entries <+: wire (Sys.ledger V churn ratio info is w.epoch) := hown
  refine ⟨⟨⟨t, ht⟩, harrived, ?_, ?_, hdisp.increasing, hlic.authorized⟩, hlic.ran⟩
  · rw [← ht, List.take_append_of_le_length harrived]
    exact hdisp.hist
  · intro k hk
    obtain ⟨hcur, e, he, hkind, -⟩ := hdisp.cmd k hk
    have he' : w.entries[k]? = some e := he
    refine ⟨hcur, e, ?_, hkind⟩
    rw [← ht, List.getElem?_append_left (List.getElem?_eq_some_iff.mp he').1]
    exact he'

/-- A RESET overtakes the build that INIT started; two gc entries then run on the build of the
RESET. -/
def resetFirst (s : Fin 1) : List (Input 1) :=
  [.reset, .toWorker s 0, .toWorker s 0, .built s 1 true 0, .built s 2 true 0, .start, .frame,
    .toWorker s 0, .toWorker s 0, .toProxy s, .frame, .toWorker s 0, .toWorker s 0]

theorem dispatched_once_reset :
    let w := (Sys.after (plainWorld fun _ => 0) () 1 (fun _ => ("fs", plainGeometry)) (resetFirst 0)).w 0
    OnceInOrder (Sys.ledger (plainWorld fun _ => 0) () 1 (fun _ => ("fs", plainGeometry))
      (resetFirst 0) w.epoch) w ∧ ∀ b index call, .ran b index call ∈ w.hist →
        Landed (plainWorld fun _ => 0) () 1 (fun _ => ("fs", plainGeometry)) (resetFirst 0) 0 b :=
  dispatched_once (plainWorld fun _ => 0) () 1 (fun _ => ("fs", plainGeometry)) (resetFirst 0)
    (by decide +kernel) 0

end

end FlashVis

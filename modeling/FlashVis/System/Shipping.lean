import FlashVis.System.Dispatch

/-!
# Shipping: no entry is lost, doubled or out of place

What a worker will have once everything on its way to it has arrived is exactly the part of the
canonical sequence that the coordinator takes for shipped, whatever reset, reinit or reordering of
sessions came between.

* `C2W.arrive x m`         what a message makes of the epoch and the entries of its worker;
* `Lockstep.arrived c s p` the worker once its channel is empty;
* `Shipping c s p`         the invariant of session `s`;
* `shipped_exactly`
-/

namespace FlashVis

/-- What a message makes of the epoch and the entries of the worker that handles it. -/
def C2W.arrive (x : Int × List Entry) : C2W → Int × List Entry
  | .init e _ _ | .reset e => (e, [])
  | .entries e es => if e = x.1 then (x.1, Worker.takeEntries x.2 es) else x
  | .grant _ _ | .pull _ _ => x

theorem Player.receive_arrive (p : Player) (ps : Option Nat) (m : C2W) :
    ((p.receive ps m).epoch, (p.receive ps m).entries) = m.arrive (p.epoch, p.entries) := by
  cases m with
  | init e fsId g => rfl
  | reset e => rfl
  | pull e sel => rfl
  | entries e es =>
    unfold receive C2W.arrive
    dsimp only
    split <;> rfl
  | grant e g =>
    unfold receive
    dsimp only
    split <;> rfl

theorem takeEntries_next {l es : List Entry}
    (h : ∀ j (hj : j < es.length), es[j].index = l.length + j) :
    Worker.takeEntries l es = l ++ es := by
  induction es generalizing l with
  | nil => exact (List.append_nil l).symm
  | cons e es ih =>
    have h0 : e.index = l.length := h 0 (Nat.zero_lt_succ _)
    have hcons : Worker.takeEntries l (e :: es) = Worker.takeEntries (l ++ [e]) es := by
      unfold Worker.takeEntries
      rw [List.foldl_cons, if_pos h0]
    rw [hcons, ih, List.append_assoc, List.singleton_append]
    intro j hj
    have := h (j + 1) (Nat.succ_lt_succ hj)
    rw [List.getElem_cons_succ] at this
    rw [this, List.length_append, List.length_singleton]
    omega

theorem foldl_arrive_still {ms : List C2W} (h : ∀ m ∈ ms, ∀ x, C2W.arrive x m = x)
    (x : Int × List Entry) : ms.foldl C2W.arrive x = x := by
  induction ms with
  | nil => rfl
  | cons m ms ih =>
    rw [List.foldl_cons, h m List.mem_cons_self]
    exact ih fun m' hm' => h m' (List.mem_cons_of_mem m hm')

theorem wire_length (l : List SeqEntry) : (wire l).length = l.length := List.length_mapIdx

/-- The rest of the sequence follows what was shipped of it. -/
theorem takeEntries_wire {l : List SeqEntry} {k : Nat} (hk : k ≤ l.length) :
    Worker.takeEntries ((wire l).take k) ((wire l).drop k) = wire l := by
  rw [takeEntries_next, List.take_append_drop]
  intro j hj
  have hlt : k + j < l.length := by
    rw [List.length_drop, wire_length] at hj
    omega
  rw [List.getElem_drop, List.length_take, wire_length, Nat.min_eq_left hk]
  unfold wire
  rw [List.getElem_mapIdx]
  cases l[k + j] <;> rfl

theorem wire_take {l l' : List SeqEntry} (h : l <+: l') {k : Nat} (hk : k ≤ l.length) :
    (wire l').take k = (wire l).take k := by
  obtain ⟨t, ht⟩ := wire_grows h
  rw [← ht, List.take_append_of_le_length (by rw [wire_length]; exact hk)]

namespace Lockstep
variable {γ : Type} {n : Nat}

/-- The epoch and the entries of worker `s` once everything on its way has arrived. -/
def arrived (c : Lockstep γ n) (s : Fin n) (p : Player) : Int × List Entry :=
  (c.proxies s).port.foldl C2W.arrive (p.epoch, p.entries)

end Lockstep

/-- What has arrived or is on its way is what the coordinator takes for shipped. -/
structure Shipping {γ : Type} {n : Nat} (c : Lockstep γ n) (s : Fin n) (p : Player) : Prop where
  proxy : (c.proxies s).epoch = c.epoch
  shipped : c.shipped s ≤ c.sequence.length
  arrived : c.arrived s p = (c.epoch, (wire c.sequence).take (c.shipped s))

namespace Shipping
variable {σ γ : Type} {n : Nat} {c c' : Lockstep γ n} {s : Fin n} {p : Player}

/-- Messages that are no entries follow what is on its way. -/
theorem follow (h : Shipping c s p) (ms : List C2W)
    (hp : c'.proxies s = (c.proxies s).sendAll ms) (hms : ∀ m ∈ ms, ∀ x, C2W.arrive x m = x)
    (he : c'.epoch = c.epoch) (hs : c'.shipped s = c.shipped s)
    (hseq : c.sequence <+: c'.sequence) : Shipping c' s p := by
  refine ⟨?_, ?_, ?_⟩
  · rw [hp, he]
    exact h.proxy
  · rw [hs]
    exact le_trans h.shipped hseq.length_le
  · unfold Lockstep.arrived
    rw [hp, Proxy.sendAll_port, List.foldl_append, foldl_arrive_still hms, hs, he, wire_take hseq h.shipped]
    exact h.arrived

theorem keep (h : Shipping c s p) (hp : c'.proxies s = c.proxies s) (he : c'.epoch = c.epoch)
    (hs : c'.shipped s = c.shipped s) (hseq : c.sequence <+: c'.sequence) : Shipping c' s p :=
  h.follow [] (by rw [hp]; simp [Proxy.sendAll]) (fun _ hm => absurd hm List.not_mem_nil)
    he hs hseq

/-- `shipEntries` ships all there is. -/
theorem ship (h : Shipping c s p) : Shipping c.shipEntries s p := by
  have hmax : max (c.shipped s) c.sequence.length = c.sequence.length := max_eq_right h.shipped
  have hentries : (entriesMsg c.epoch ((wire c.sequence).drop (c.shipped s))).foldl C2W.arrive
      (c.epoch, (wire c.sequence).take (c.shipped s)) = (c.epoch, wire c.sequence) := by
    unfold entriesMsg
    split
    · -- all of it is shipped already
      rename_i hnil
      have hle : (wire c.sequence).length ≤ c.shipped s := List.drop_eq_nil_iff.mp hnil
      rw [List.foldl_nil, List.take_of_length_le hle]
    · rw [List.foldl_cons, List.foldl_nil, C2W.arrive, if_pos rfl, takeEntries_wire h.shipped]
  refine ⟨?_, ?_, ?_⟩
  · rw [Lockstep.shipEntries_proxies]
    exact h.proxy
  · show max _ _ ≤ _
    rw [hmax]
    exact le_refl _
  · unfold Lockstep.arrived
    rw [Lockstep.shipEntries_proxies, Proxy.sendAll_port, List.foldl_append]
    show (entriesMsg _ _).foldl _ (c.arrived s p) = (c.epoch, (wire c.sequence).take (max _ _))
    rw [h.arrived, h.proxy, hentries, hmax, List.take_of_length_le (le_of_eq (wire_length _))]

theorem frame_call (G : Churn γ) (h : Shipping c s p) : Shipping (c.frame G) s p ∧
    (c.frame G).shipped s = (c.frame G).sequence.length := by
  have hd := Lockstep.advanceRound_derives (G := G) c.shipEntries
  have hderived : Shipping (c.derived G) s p := by
    refine h.ship.keep ?_ hd.epoch (congrFun hd.shipped s) hd.sequence.grows
    show (c.shipEntries.advanceRound G).proxies s = _
    rw [hd.proxies]
  rw [Lockstep.frame_eq (Fin.pos_ne s)]
  refine ⟨?_, max_eq_right hderived.shipped⟩
  refine hderived.ship.follow _ (Lockstep.sendGrants_proxies _ s) ?_ rfl rfl (List.prefix_refl _)
  intro m hm x
  obtain ⟨g, -, rfl⟩ := List.mem_map.mp hm
  rfl

theorem call (V : World σ γ) {i : Input n} {f : Lockstep γ n → Lockstep γ n}
    (hf : i.call V = some f) (h : Shipping c s p) : Shipping (f c) s p := by
  cases i <;> simp only [Input.call, Option.some.injEq, reduceCtorEq] at hf <;> subst hf
  case frame => exact (h.frame_call V.churn).1
  case broadcast payload =>
    have hgrown : ∀ e x, Shipping { c with cmdRng := x, sequence := c.sequence ++ [e] } s p :=
      fun _ _ => h.keep rfl rfl rfl (List.prefix_append _ _)
    exact (hgrown _ _).ship
  case setMode m =>
    dsimp only
    unfold Lockstep.setMode
    split
    · exact h
    · cases m <;> exact h.keep rfl rfl rfl (List.prefix_refl _)
  case setSpeed v =>
    dsimp only
    unfold Lockstep.setSpeed
    split
    · exact h
    · exact h.keep rfl rfl rfl (List.prefix_refl _)
  case step =>
    obtain ⟨l, r, g, x, y, z, -, hnud⟩ := Lockstep.nudged_eq V.churn c
    have hN : Shipping (c.nudged V.churn) s p := by
      rw [hnud]
      exact h.keep rfl rfl rfl (List.prefix_append _ _)
    exact (hN.frame_call V.churn).1
  case reset =>
    refine ⟨rfl, Nat.zero_le _, ?_⟩
    show (((c.proxies s).port ++ [C2W.reset (c.epoch + 1)]).foldl C2W.arrive (p.epoch, p.entries)) = _
    rw [List.foldl_append]
    rfl
  case rejoin t =>
    by_cases hst : s = t
    · subst hst
      refine ⟨?_, ?_, ?_⟩
      · simp [Lockstep.rejoin, Proxy.init, Proxy.send, Proxy.setEpoch]
      · simp [Lockstep.rejoin]
      · unfold Lockstep.arrived Lockstep.rejoin
        simp only [Function.update_self]
        show (((c.proxies s).port ++ [_]).foldl C2W.arrive (p.epoch, p.entries)) = _
        rw [List.foldl_append]
        rfl
    · refine h.keep ?_ rfl ?_ (List.prefix_refl _)
      · simp [Lockstep.rejoin, Function.update_of_ne hst]
      · simp [Lockstep.rejoin, Function.update_of_ne hst]
  case pull t sel =>
    by_cases hst : s = t
    · subst hst
      refine h.follow [.pull (c.proxies s).epoch sel] ?_ ?_ rfl rfl (List.prefix_refl _)
      · rw [Sys.onProxy_same]
        rfl
      · intro m hm x
        rw [List.mem_singleton.mp hm]
        rfl
    · exact h.keep (Sys.onProxy_ne hst _ c) rfl rfl (List.prefix_refl _)
  all_goals exact h.keep rfl rfl rfl (List.prefix_refl _)

theorem step (V : World σ γ) (S : Sys σ γ n) (i : Input n)
    (h : ∀ s, Shipping S.c s (S.player s)) :
    ∀ s, Shipping (S.step V i).c s ((S.step V i).player s) := by
  refine Sys.step_each V S i ?_ (fun _ hf h s => (h s).call V hf) ?_ ?_ ?_ h
  · exact fun c u t f q ht h => h.keep (Sys.onProxy_ne ht f c) rfl rfl (List.prefix_refl _)
  · intro u now m ms ps _ hport h
    refine ⟨?_, h.shipped, ?_⟩
    · rw [Sys.onProxy_same]
      exact h.proxy
    · have harr := h.arrived
      unfold Lockstep.arrived at harr ⊢
      rw [hport, List.foldl_cons, ← Player.receive_arrive (S.player u) ps m] at harr
      rw [Sys.onProxy_same]
      exact harr
  · intro u now t c p m _ _ _ h
    have hf := Player.apply_frame p m
    refine ⟨h.proxy, h.shipped, ?_⟩
    unfold Lockstep.arrived
    rw [hf.epoch, hf.entries]
    exact h.arrived
  · intro u m ms _ _ h
    refine ⟨?_, h.shipped, ?_⟩
    · rw [Sys.onProxy_same, Proxy.handle_epoch]
      exact h.proxy
    · unfold Lockstep.arrived
      rw [Sys.onProxy_same, Proxy.handle_port]
      exact h.arrived

theorem init (churn : γ) (ratio : ℚ) (info : Fin n → String × Geometry) (s : Fin n) :
    Shipping (Sys.init (σ := σ) churn ratio info).c s
      ((Sys.init (σ := σ) churn ratio info).player s) :=
  ⟨rfl, le_refl _, rfl⟩

end Shipping

/-- A call that ships what it generates. -/
def Input.ships {n : Nat} : Input n → Bool
  | .frame | .step | .broadcast _ => true
  | _ => false

/-- **Shipping is exact**, in every run: once everything on its way has arrived, worker `s` has
exactly the entries that count as shipped to it, each at its own index; and after a frame, a step
or a broadcast these are all the entries there are. -/
theorem shipped_exactly {σ γ : Type} {n : Nat} (V : World σ γ) (churn : γ) (ratio : ℚ)
    (info : Fin n → String × Geometry) (is : List (Input n)) (s : Fin n) :
    let S := Sys.after V churn ratio info is
    S.c.arrived s (S.player s) = (S.c.epoch, (wire S.c.sequence).take (S.c.shipped s)) ∧
      S.c.shipped s ≤ S.c.sequence.length ∧
      ((S.c.proxies s).port = [] → (S.w s).epoch = S.c.epoch ∧
        (S.w s).entries = (wire S.c.sequence).take (S.c.shipped s)) ∧
      ∀ i, i.ships = true → (S.step V i).c.shipped s = (S.step V i).c.sequence.length := by
  intro S
  have h : Shipping S.c s (S.player s) :=
    Machine.run_inv' (P := fun S : Sys σ γ n => ∀ s, Shipping S.c s (S.player s))
      (Shipping.step V) is (Shipping.init churn ratio info) s
  refine ⟨h.arrived, h.shipped, fun hport => ?_, fun i hi => ?_⟩
  · have harr := h.arrived
    unfold Lockstep.arrived at harr
    rw [hport] at harr
    exact Prod.mk.inj harr
  · cases i <;> simp only [Input.ships, reduceCtorEq] at hi
    case frame => exact (h.frame_call V.churn).2
    case broadcast payload => exact max_eq_right (le_trans h.shipped (by simp))
    case step =>
      obtain ⟨l, r, g, x, y, z, -, hnud⟩ := Lockstep.nudged_eq V.churn S.c
      have hN : Shipping (S.c.nudged V.churn) s (S.player s) := by
        rw [hnud]
        exact h.keep rfl rfl rfl (List.prefix_append _ _)
      exact (hN.frame_call V.churn).2

end FlashVis

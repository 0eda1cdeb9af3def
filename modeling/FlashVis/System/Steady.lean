import FlashVis.Player.Meter
import FlashVis.System.Acks

/-!
# Runs without prep brackets and declared costs

Every entry of the current epoch needs a runner, and no prep bracket opens: all flash time goes
through the metered queue.

* `Input.metered`    the events that keep it so;
* `Steady c s p`     the entries of session `s`, on their way and arrived, and its queue.
-/

namespace FlashVis

/-- Neither a console `prep(v)` nor the broadcast of a declared-cost entry. -/
def Input.metered {n : Nat} : Input n → Bool
  | .broadcast payload => !isSyntheticCommand payload
  | .cmd _ _ (.call (.prep _)) _ => false
  | _ => true

def SeqEntry.synthetic : SeqEntry → Bool
  | .command payload _ => isSyntheticCommand payload
  | .gc | .event _ => false

theorem wireEntry_synthetic (i : Nat) (e : SeqEntry) : (wireEntry i e).synthetic = e.synthetic := by
  cases e <;> rfl

theorem allReal_wire {l : List SeqEntry} (h : ∀ e ∈ l, e.synthetic = false) :
    Player.AllReal (wire l) := by
  intro e he
  obtain ⟨i, hi, rfl⟩ := List.mem_mapIdx.mp he
  rw [wireEntry_synthetic]
  exact h _ (List.getElem_mem hi)

theorem SeqEntry.generated_real {e : SeqEntry} (h : e.generated = true) : e.synthetic = false := by
  cases e with
  | gc | event _ => rfl
  | command _ _ => exact absurd h (by simp [SeqEntry.generated])

theorem mem_takeEntries {l es : List Entry} {e : Entry} (h : e ∈ Worker.takeEntries l es) :
    e ∈ l ∨ e ∈ es := by
  induction es generalizing l with
  | nil => exact .inl h
  | cons x es ih =>
    rcases ih h with h | h
    · dsimp only at h
      split at h
      · rcases List.mem_append.mp h with h | h
        · exact .inl h
        · exact .inr (by rw [List.mem_singleton.mp h]; exact List.mem_cons_self)
      · exact .inl h
    · exact .inr (List.mem_cons_of_mem x h)

theorem takeEntries_getElem? {l es : List Entry} {k : Nat} {e : Entry} (h : l[k]? = some e) :
    (Worker.takeEntries l es)[k]? = some e := by
  induction es generalizing l with
  | nil => exact h
  | cons x es ih =>
    refine ih ?_
    dsimp only
    split
    · rw [List.getElem?_append_left (List.getElem?_eq_some_iff.mp h).1]
      exact h
    · exact h

/-- Session `s` in the current epoch: entries that need a runner, no prep bracket, and a queue
without negative steps. -/
structure Steady {γ : Type} {n : Nat} (c : Lockstep γ n) (s : Fin n) (p : Player) : Prop where
  joined : Joined c s p
  sequence : ∀ e ∈ c.sequence, e.synthetic = false
  sent : ∀ es, .entries c.epoch es ∈ (c.proxies s).port → Player.AllReal es
  now : p.epoch = c.epoch →
    Player.AllReal p.entries ∧ p.prepActive = false ∧ Playable p.queue ∧ 0 ≤ p.playbackNs

namespace Steady
variable {σ γ : Type} {n : Nat} {c : Lockstep γ n} {s : Fin n} {p : Player}

theorem not_prep {V : World σ γ} {S : Sys σ γ n} {i : Input n} (hi : i.metered = true) {s : Fin n}
    {now : ℚ} {t : WIn} (ht : S.task s i = some (now, t)) {p : Player} {m : Move}
    (hok : (S.w s).allows V.host t p m) : ∀ v, m ≠ .prep v := by
  rintro v rfl
  obtain ⟨id, rfl⟩ := hok
  cases i <;> simp only [Sys.task, reduceCtorEq] at ht
  case toWorker u now' =>
    split at ht
    · obtain ⟨m, -, hm⟩ := Option.map_eq_some_iff.mp ht
      exact absurd (Prod.mk.inj hm).2 (by simp)
    · exact absurd ht (by simp)
  all_goals
    split at ht
    · rw [Option.some.injEq, Prod.mk.injEq] at ht
      simp_all [Input.metered]
    · exact absurd ht (by simp)

theorem apply (h : Steady c s p) {m : Move} (he : p.Enabled m) (hm : ∀ v, m ≠ .prep v) :
    Steady c s (p.apply m) := by
  have hf := Player.apply_frame p m
  refine ⟨h.joined.apply he, h.sequence, h.sent, fun hep => ?_⟩
  rw [hf.epoch] at hep
  obtain ⟨hreal, hprep, hq, hpb⟩ := h.now hep
  have hs := Player.not_synthetic hreal he
  rw [hf.entries, hf.prepActive]
  refine ⟨hreal, ?_, Player.apply_playable hprep hs he hq,
    le_trans hpb (Player.apply_bounds hprep hs hq).1⟩
  cases m with
  | prep v => exact absurd rfl (hm v)
  | openPrep | closePrep _ => exact absurd hs (by simp [Move.synthetic])
  | _ => exact hprep

/-- In the current epoch, playback does not fall and stops at the watermark. -/
theorem bounds (h : Steady c s p) (hep : p.epoch = c.epoch) {m : Move} (he : p.Enabled m) :
    p.playbackNs ≤ (p.apply m).playbackNs ∧
      ((p.apply m).playbackNs = p.playbackNs ∨ ((p.apply m).playbackNs : Limit) ≤ p.playLimitNs) := by
  obtain ⟨hreal, hprep, hq, -⟩ := h.now hep
  exact Player.apply_bounds hprep (Player.not_synthetic hreal he) hq

theorem receive (h : Steady c s p) {m : C2W} {ms : List C2W} (hp : (c.proxies s).port = m :: ms)
    (ps : Option Nat) : Steady (Sys.onProxy s (·.setPort ms) c) s (p.receive ps m) := by
  refine ⟨h.joined.receive hp ps, h.sequence, fun es hes => ?_, ?_⟩
  · rw [Sys.onProxy_same] at hes
    exact h.sent es (hp ▸ List.mem_cons_of_mem m hes)
  · have harr := h.joined.arrival hp ps
    generalize p.receive ps m = q at harr ⊢
    cases harr with
    | feed es now hm =>
      intro hep
      obtain ⟨hreal, hrest⟩ := h.now now
      have hes := h.sent es (hp ▸ hm ▸ List.mem_cons_self)
      exact ⟨fun e he => (mem_takeEntries he).elim (hreal e) (hes e), hrest⟩
    | grant g now hm => exact fun _ => h.now now
    | pull sel now hm => exact fun _ => h.now now
    | fresh keep before hm =>
      exact fun _ => ⟨fun e he => absurd he (by simp [Player.fresh]), rfl,
        fun e he => absurd he (by simp [Player.fresh]), le_refl _⟩
    | early q before after hm => exact fun hep => absurd hep (ne_of_lt after)

theorem back_of (h : Steady c s p) {m : W2C} {ms : List W2C} (hp : p.port = m :: ms) :
    Steady (Sys.onProxy s (·.handle m) c) s (p.setPort ms) := by
  refine ⟨h.joined.back_of hp, h.sequence, ?_, h.now⟩
  rw [Sys.onProxy_same, Proxy.handle_port]
  exact h.sent

theorem frame {t : Fin n} (ht : t ≠ s) (f : Proxy → Proxy) (h : Steady c t p) :
    Steady (Sys.onProxy s f c) t p := by
  refine ⟨h.joined.frame ht f, h.sequence, ?_, h.now⟩
  rw [Sys.onProxy_ne ht]
  exact h.sent

theorem call (V : World σ γ) {i : Input n} {f : Lockstep γ n → Lockstep γ n}
    (hf : i.call V = some f) (hk : i.keepsEpoch = true) (hi : i.metered = true)
    (h : Steady c s p) : Steady (f c) s p := by
  have hseq : ∀ e ∈ (f c).sequence, e.synthetic = false := by
    rcases call_sequence V hf hk c with ⟨l, hl, hgen⟩ | ⟨payload, u, rfl, hl⟩
    · rw [hl]
      intro e he
      rcases List.mem_append.mp he with he | he
      · exact h.sequence e he
      · exact SeqEntry.generated_real (hgen e he)
    · rw [hl]
      intro e he
      rcases List.mem_append.mp he with he | he
      · exact h.sequence e he
      · rw [List.mem_singleton.mp he]
        simpa [Input.metered, SeqEntry.synthetic] using hi
  obtain ⟨he, hs⟩ := call_sends V hf hk c
  obtain ⟨ms, hms⟩ := hs s
  refine ⟨h.joined.call V hf hk, hseq, ?_, he ▸ h.now⟩
  rw [hms.proxy, he]
  intro es hes
  rcases List.mem_append.mp hes with hes | hes
  · exact h.sent es hes
  · exact fun e he => allReal_wire hseq e (hms.entries _ es hes e he)

end Steady

theorem Link.reset_steady {γ : Type} {n : Nat} {c : Lockstep γ n} {s : Fin n} {p : Player}
    (h : Link c s p) (G : Churn γ) : Steady (c.reset G) s p := by
  have hlt : p.epoch < c.epoch + 1 := Int.lt_add_one_of_le h.epoch_le
  refine ⟨h.reset G, fun e he => absurd he (by simp [Lockstep.reset]), fun es hes => ?_,
    fun hep => absurd hep (ne_of_lt hlt)⟩
  rcases List.mem_append.mp hes with hes | hes
  · have := h.chan.epoch_le _ hes
    exact absurd this (not_le.mpr (Int.lt_succ _))
  · exact absurd hes (by simp)

end FlashVis

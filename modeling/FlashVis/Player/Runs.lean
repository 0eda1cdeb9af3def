import FlashVis.Player.Tasks
import FlashVis.Player.Standing

/-!
# Runs of one worker

A run of a worker is a list of tasks at wall-clock times, whatever is behind the port: messages in
any order and of any epoch, builds that land or fail, telemetry ticks, and anything that the code
of a command does.

* `Worker.after H is`     the worker after the tasks `is`;
* `Worker.Obeys T H is`   every move of the run meets `T` in the player that makes it;
* `Worker.run_inv`        what messages and the moves that meet `T` preserve holds after such a run;
* `Worker.Obeys.strengthen`   what `T` and an invariant give of every move.
-/

namespace FlashVis

/-- The call of an event or gc entry does not throw. -/
def Move.returns : Move → Bool
  | .fail _ => false
  | _ => true

theorem Move.returns_ne {m : Move} (h : m.returns = true) : ∀ call, m ≠ .fail call := by
  rintro call rfl
  exact absurd h (by simp [returns])

namespace Worker
variable {σ : Type}

/-- One task of a run. -/
def next (H : Host σ) (w : Worker σ) (x : ℚ × WIn) : Worker σ := w.step H x.1 x.2

/-- The worker after a run from its start. -/
def after (H : Host σ) (is : List (ℚ × WIn)) : Worker σ := Machine.run (next H) {} is

/-- Every move of the run meets `T`. -/
def Obeys (T : Player → Move → Prop) (H : Host σ) (is : List (ℚ × WIn)) : Prop :=
  Machine.Along (next H) (fun w x => w.heeds T H x.1 x.2) {} is

instance (T : Player → Move → Prop) [∀ p m, Decidable (T p m)] (H : Host σ) (is : List (ℚ × WIn)) :
    Decidable (Obeys T H is) :=
  have (w : Worker σ) (x : ℚ × WIn) : Decidable (w.heeds T H x.1 x.2) :=
    inferInstanceAs (Decidable (Machine.Along _ _ _ _))
  inferInstanceAs (Decidable (Machine.Along _ _ _ _))

theorem after_concat (H : Host σ) (is : List (ℚ × WIn)) (x : ℚ × WIn) :
    after H (is ++ [x]) = next H (after H is) x := Machine.run_concat _ _ _ _

/-- **Invariant rule of a run** whose moves all meet `T`. -/
theorem run_inv {I : Player → Prop} {T : Player → Move → Prop} {H : Host σ} {is : List (ℚ × WIn)}
    (hT : Obeys T H is) (h0 : I (core ({} : Worker σ)))
    (hr : ∀ p ps m, I p → I (p.receive ps m))
    (hI : ∀ p m, p.Enabled m → T p m → I p → I (p.apply m)) : I (after H is).core := by
  refine Machine.run_inv (P := fun w : Worker σ => I w.core) (fun w x hx hw => ?_) hT h0
  exact heeds_inv hx (fun ps m _ h => hr _ ps m h) (fun p m _ he ht h => hI p m he ht h) hw

theorem heeds_strengthen {I : Player → Prop} {T T' : Player → Move → Prop} {H : Host σ} {now : ℚ}
    {i : WIn} {w : Worker σ} (hT : w.heeds T H now i) (hr : ∀ p ps m, I p → I (p.receive ps m))
    (hI : ∀ p m, p.Enabled m → T p m → I p → I (p.apply m))
    (hT' : ∀ p m, p.Enabled m → T p m → I p → T' p m) (hp : I w.core) : w.heeds T' H now i := by
  obtain ⟨ps, hps, h⟩ := step_path (H := H) now i w
  unfold heeds at hT ⊢
  rcases hps with hnil | rfl
  · rw [hnil]
    trivial
  · have harr : I (w.arrive i) := by
      cases i with
      | msg m => exact hr _ none m hp
      | built _ _ | telemetry | cmd _ _ => exact hp
    have halong : Machine.Along Player.apply (fun p m => w.allows H i p m ∧ p.Enabled m)
        (w.arrive i) (w.moves H now i) := by
      cases i <;> exact h.along
    refine (halong.and hT).strengthen (fun p m hg hp => ?_) (fun p m hg hp => ?_) harr
    · exact hI p m hg.1.2 hg.2 hp
    · exact hT' p m hg.1.2 hg.2 hp

/-- What `T` and an invariant give of the moves of a run. -/
theorem Obeys.strengthen {I : Player → Prop} {T T' : Player → Move → Prop} {H : Host σ}
    {is : List (ℚ × WIn)} (hT : Obeys T H is) (h0 : I (core ({} : Worker σ)))
    (hr : ∀ p ps m, I p → I (p.receive ps m))
    (hI : ∀ p m, p.Enabled m → T p m → I p → I (p.apply m))
    (hT' : ∀ p m, p.Enabled m → T p m → I p → T' p m) : Obeys T' H is := by
  refine Machine.Along.strengthen (P := fun w : Worker σ => I w.core) (fun w x hx hw => ?_)
    (fun w x hx hw => heeds_strengthen hx hr hI hT' hw) hT h0
  exact heeds_inv hx (fun ps m _ h => hr _ ps m h) (fun p m _ he ht h => hI p m he ht h) hw

/-- A run that obeys obeyed all along. -/
theorem Obeys.prior {T : Player → Move → Prop} {H : Host σ} {is js : List (ℚ × WIn)}
    (hT : Obeys T H is) (h : js <+: is) : Obeys T H js := by
  obtain ⟨ks, rfl⟩ := h
  exact (Machine.along_append.mp hT).1

end Worker

namespace Player

theorem Standing.start {σ : Type} : (Worker.core ({} : Worker σ)).Standing :=
  ⟨nofun, Nat.zero_le _, nofun, nofun, Int.negSucc_lt_zero 0, nofun⟩

end Player

theorem Worker.standing {σ : Type} (H : Host σ) (is : List (ℚ × WIn)) :
    (Worker.after H is).core.Standing := by
  refine Machine.run_inv' (P := fun w : Worker σ => w.core.Standing) (fun w x hw => ?_) is .start
  exact step_inv x.1 x.2 w (fun ps m _ h => h.receive ps m) (fun _ _ _ he h => h.apply he) hw

end FlashVis

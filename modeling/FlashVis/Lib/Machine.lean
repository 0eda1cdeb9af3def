import Mathlib.Data.List.Basic
import Mathlib.Order.Lattice

/-!
# Input-driven machines: runs, guarded runs and invariants

A machine is a total function `step : S → I → S`; a run is a list of inputs.

* `run step s is`           the state after the inputs `is`;
* `Along step G s is`       every input of the run satisfies the guard `G` in the state that
                            takes it;
* `run_inv`                 what one guarded step preserves, a guarded run preserves;
* `Along.strengthen`        what the guard and an invariant give of every step taken;
* `peak f s is`             the largest value of `f` along the states of a run.
-/

namespace Machine

variable {S I : Type*}

/-- The state after a list of inputs. -/
def run (step : S → I → S) (s : S) (is : List I) : S := is.foldl step s

@[simp] theorem run_nil (step : S → I → S) (s : S) : run step s [] = s := rfl

@[simp] theorem run_cons (step : S → I → S) (s : S) (i : I) (is : List I) :
    run step s (i :: is) = run step (step s i) is := rfl

theorem run_append (step : S → I → S) (s : S) (is js : List I) :
    run step s (is ++ js) = run step (run step s is) js := by
  simp [run, List.foldl_append]

theorem run_concat (step : S → I → S) (s : S) (is : List I) (i : I) :
    run step s (is ++ [i]) = step (run step s is) i := by
  rw [run_append]; rfl

/-- Every input of the run meets the guard `G` in the state that takes it. -/
def Along (step : S → I → S) (G : S → I → Prop) : S → List I → Prop
  | _, [] => True
  | s, i :: is => G s i ∧ Along step G (step s i) is

instance Along.decidable (step : S → I → S) (G : S → I → Prop) [∀ s i, Decidable (G s i)] :
    ∀ s is, Decidable (Along step G s is)
  | _, [] => isTrue trivial
  | s, i :: is =>
    have := Along.decidable step G (step s i) is
    inferInstanceAs (Decidable (G s i ∧ Along step G (step s i) is))

theorem Along.mono {step : S → I → S} {G G' : S → I → Prop} (h : ∀ s i, G s i → G' s i) :
    ∀ {is s}, Along step G s is → Along step G' s is
  | [], _, _ => trivial
  | _ :: _, _, hs => ⟨h _ _ hs.1, Along.mono h hs.2⟩

theorem Along.and {step : S → I → S} {G G' : S → I → Prop} :
    ∀ {is s}, Along step G s is → Along step G' s is → Along step (fun s i => G s i ∧ G' s i) s is
  | [], _, _, _ => trivial
  | _ :: _, _, h, h' => ⟨⟨h.1, h'.1⟩, Along.and h.2 h'.2⟩

theorem Along.of_forall {step : S → I → S} {g : I → Prop} {is : List I} (h : ∀ i ∈ is, g i)
    (s : S) : Along step (fun _ i => g i) s is := by
  induction is generalizing s with
  | nil => trivial
  | cons i is ih =>
    exact ⟨h i List.mem_cons_self, ih (fun j hj => h j (List.mem_cons_of_mem _ hj)) _⟩

theorem along_append {step : S → I → S} {G : S → I → Prop} {s : S} {is js : List I} :
    Along step G s (is ++ js) ↔ Along step G s is ∧ Along step G (run step s is) js := by
  induction is generalizing s with
  | nil => simp [Along]
  | cons i is ih => simp only [List.cons_append, Along, ih, run_cons, and_assoc]

/-- **Invariant rule.** What every guarded step preserves holds after every guarded run. -/
theorem run_inv {step : S → I → S} {G : S → I → Prop} {P : S → Prop}
    (hstep : ∀ s i, G s i → P s → P (step s i)) {is : List I} {s : S}
    (hg : Along step G s is) (hp : P s) : P (run step s is) := by
  induction is generalizing s with
  | nil => exact hp
  | cons i is ih => exact ih hg.2 (hstep s i hg.1 hp)

theorem run_inv' {step : S → I → S} {P : S → Prop} (hstep : ∀ s i, P s → P (step s i))
    (is : List I) {s : S} (hp : P s) : P (run step s is) := by
  induction is generalizing s with
  | nil => exact hp
  | cons i is ih => exact ih (hstep s i hp)

/-- What the guard and an invariant give of every step taken. -/
theorem Along.strengthen {step : S → I → S} {G G' : S → I → Prop} {P : S → Prop}
    (hstep : ∀ s i, G s i → P s → P (step s i)) (hG : ∀ s i, G s i → P s → G' s i) {is : List I}
    {s : S} (hg : Along step G s is) (hp : P s) : Along step G' s is := by
  induction is generalizing s with
  | nil => trivial
  | cons i is ih => exact ⟨hG s i hg.1 hp, ih hg.2 (hstep s i hg.1 hp)⟩

section
variable {α : Type*} [LinearOrder α]

/-- The largest value of `f` in the states that a run goes through, first and last included. -/
def peak (step : S → I → S) (f : S → α) : S → List I → α
  | s, [] => f s
  | s, i :: is => max (f s) (peak step f (step s i) is)

theorem le_peak (step : S → I → S) (f : S → α) (is : List I) (s : S) :
    f s ≤ peak step f s is := by
  cases is with
  | nil => exact le_refl _
  | cons i is => exact le_max_left _ _

/-- A bound on `f` that holds in every state of the run is what `peak` gives the invariant
rule: the guard `f s ≤ b` may be assumed of every state taken. -/
theorem along_le_peak (step : S → I → S) (f : S → α) (is : List I) (s : S) {b : α}
    (hb : peak step f s is ≤ b) : Along step (fun s i => f s ≤ b ∧ f (step s i) ≤ b) s is := by
  induction is generalizing s with
  | nil => trivial
  | cons i is ih =>
    have h2 : peak step f (step s i) is ≤ b := le_trans (le_max_right _ _) hb
    exact ⟨⟨le_trans (le_max_left _ _) hb, le_trans (le_peak step f is _) h2⟩, ih _ h2⟩

end

end Machine

import Mathlib.Data.Fintype.Card
import Mathlib.Data.Fintype.Fin

/-!
# Fixed pools: a used-bitmap over `n` slots

* `Pool.first?`       the lowest free slot;
* `Pool.slot?`        the slot a plain integer names, when it is in range and in use;
* `Pool.take`, `Pool.give`  mark a slot as used, as free;
* `Pool.count`        the number of used slots; `first?_isSome` says that a free slot is found
                      exactly when the count is below `n`.
-/

/-- A used-bitmap. -/
@[ext] structure Pool (n : ℕ) where
  used : Fin n → Bool
  deriving DecidableEq

namespace Pool
variable {n : ℕ}

def empty : Pool n := ⟨fun _ => false⟩

/-- The lowest slot that is not in use. -/
def first? (p : Pool n) : Option (Fin n) := (List.finRange n).find? fun i => !p.used i

/-- The used slot that the integer `h` names. -/
def slot? (p : Pool n) (h : ℤ) : Option (Fin n) :=
  if hh : 0 ≤ h ∧ h.toNat < n then
    if p.used ⟨h.toNat, hh.2⟩ then some ⟨h.toNat, hh.2⟩ else none
  else none

def take (p : Pool n) (i : Fin n) : Pool n := ⟨Function.update p.used i true⟩

def give (p : Pool n) (i : Fin n) : Pool n := ⟨Function.update p.used i false⟩

/-- The used slots. -/
def slots (p : Pool n) : Finset (Fin n) := Finset.univ.filter fun i => p.used i = true

/-- How many slots are in use. -/
def count (p : Pool n) : ℕ := p.slots.card

@[simp] theorem empty_used (i : Fin n) : (empty : Pool n).used i = false := rfl

@[simp] theorem take_used (p : Pool n) (i j : Fin n) :
    (p.take i).used j = if j = i then true else p.used j := by
  simp [take, Function.update_apply]

@[simp] theorem give_used (p : Pool n) (i j : Fin n) :
    (p.give i).used j = if j = i then false else p.used j := by
  simp [give, Function.update_apply]

@[simp] theorem mem_slots {p : Pool n} {i : Fin n} : i ∈ p.slots ↔ p.used i = true := by
  simp [slots]

theorem first?_free {p : Pool n} {i : Fin n} (h : p.first? = some i) : p.used i = false := by
  have := List.find?_some h
  simpa using this

theorem first?_isSome (p : Pool n) : p.first?.isSome = true ↔ p.count < n := by
  have hcard : p.count < n ↔ p.slots ≠ Finset.univ := by
    have hle : p.count ≤ n := le_of_le_of_eq (Finset.card_le_univ _) (Fintype.card_fin n)
    rw [ne_eq, ← Finset.card_eq_iff_eq_univ, Fintype.card_fin]
    show p.count < n ↔ ¬ p.count = n
    omega
  rw [hcard, first?, List.find?_isSome]
  constructor
  · rintro ⟨i, -, hi⟩ heq
    have hu : p.used i = true := mem_slots.mp (heq ▸ Finset.mem_univ i)
    simp [hu] at hi
  · intro hne
    by_contra hall
    refine hne (Finset.eq_univ_iff_forall.mpr fun i => mem_slots.mpr ?_)
    by_contra hi
    exact hall ⟨i, List.mem_finRange i, by simpa using hi⟩

theorem slot?_eq_some {p : Pool n} {h : ℤ} {i : Fin n} :
    p.slot? h = some i ↔ h = (i : ℕ) ∧ p.used i = true := by
  unfold slot?
  constructor
  · intro hs
    split at hs
    · next hh =>
      split at hs
      · next hu =>
        obtain rfl : (⟨h.toNat, hh.2⟩ : Fin n) = i := Option.some.inj hs
        exact ⟨(Int.toNat_of_nonneg hh.1).symm, hu⟩
      · exact absurd hs (by simp)
    · exact absurd hs (by simp)
  · rintro ⟨rfl, hu⟩
    simp [hu]

theorem slot?_eq_none {p : Pool n} {i : Fin n} (hi : p.used i = false) :
    p.slot? (i : ℕ) = none := by
  rw [Option.eq_none_iff_forall_ne_some]
  intro j hj
  obtain ⟨hij, hu⟩ := slot?_eq_some.mp hj
  obtain rfl : i = j := Fin.ext (by omega)
  rw [hi] at hu
  exact Bool.false_ne_true hu

end Pool

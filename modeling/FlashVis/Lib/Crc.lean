import Mathlib.Tactic.Common
import Mathlib.Data.BitVec
import Mathlib.Logic.Function.Iterate

/-!
# Cyclic check sums

A reflected check sum shifts its register down by one bit and folds the polynomial in where a one
fell out.  The step is linear, and loses nothing when the polynomial has its highest bit set.

* `Crc.bit`        one step;
* `Crc.feed`       the register after a list of symbols of `m` bits;
* `feed_injective` two messages that fit the register leave it different;
* `feed_burst`     so do two messages that differ in one part that fits it.
-/

namespace Crc
variable {m n : Nat} {p : BitVec n}

/-- One bit of a reflected check sum over the polynomial `p`. -/
def bit (p c : BitVec n) : BitVec n := if c.getLsbD 0 then c >>> 1 ^^^ p else c >>> 1

/-- The register after the symbols `bs`, of `m` bits each. -/
def feed (p c : BitVec n) (bs : List (BitVec m)) : BitVec n :=
  bs.foldl (fun c b => (bit p)^[m] (c ^^^ b.setWidth n)) c

/-- The symbols as one number, the first in the lowest bits. -/
def pack (n : Nat) : List (BitVec m) → BitVec n
  | [] => 0
  | b :: bs => b.setWidth n ^^^ pack n bs <<< m

theorem feed_append (c : BitVec n) (bs bs' : List (BitVec m)) :
    feed p c (bs ++ bs') = feed p (feed p c bs) bs' := List.foldl_append

theorem bit_xor (a b : BitVec n) : bit p (a ^^^ b) = bit p a ^^^ bit p b := by
  unfold bit
  rw [BitVec.getLsbD_xor, BitVec.ushiftRight_xor_distrib]
  cases a.getLsbD 0 <;> cases b.getLsbD 0
  · rfl
  · simp only [Bool.false_xor, if_true, Bool.false_eq_true, if_false, BitVec.xor_assoc]
  · simp only [Bool.xor_false, if_true, Bool.false_eq_true, if_false]
    rw [BitVec.xor_assoc, BitVec.xor_comm (b >>> 1), ← BitVec.xor_assoc]
  · simp only [Bool.xor_self, Bool.false_eq_true, if_false, if_true]
    rw [BitVec.xor_comm (b >>> 1) p, BitVec.xor_assoc, ← BitVec.xor_assoc p p, BitVec.xor_self,
      BitVec.zero_xor]

theorem iterate_xor (k : Nat) (a b : BitVec n) :
    (bit p)^[k] (a ^^^ b) = (bit p)^[k] a ^^^ (bit p)^[k] b := by
  induction k with
  | zero => rfl
  | succ k ih => simp only [Function.iterate_succ_apply', ih, bit_xor]

/-- No register but the empty one is emptied, as the polynomial has its highest bit set. -/
theorem eq_zero_of_bit (hp : p.msb = true) {c : BitVec n} (h : bit p c = 0#n) : c = 0#n := by
  have hn : 0 < n := by
    rcases Nat.eq_zero_or_pos n with rfl | hn
    · rw [BitVec.eq_nil p] at hp
      exact absurd hp (by decide)
    · exact hn
  unfold bit at h
  split at h
  · -- the shift has freed the highest bit
    have hmsb : (c >>> 1 ^^^ p).msb = false := by
      rw [h]
      exact BitVec.msb_zero
    rw [BitVec.msb_xor, hp, BitVec.msb_ushiftRight] at hmsb
    simp at hmsb
  · rename_i hlow
    refine BitVec.eq_of_getLsbD_eq fun i hi => ?_
    rcases i with - | i
    · simpa using hlow
    · have hbit := congrArg (·.getLsbD i) h
      simp only [BitVec.getLsbD_ushiftRight] at hbit
      rw [Nat.add_comm 1 i] at hbit
      simpa using hbit

theorem bit_injective (hp : p.msb = true) : Function.Injective (bit p) := by
  intro a b h
  have h0 : bit p (a ^^^ b) = 0#n := by rw [bit_xor, h, BitVec.xor_self]
  exact BitVec.xor_eq_zero_iff.mp (eq_zero_of_bit hp h0)

theorem iterate_shiftLeft {k : Nat} {x : BitVec n} (hx : ∀ i, n ≤ i + k → x.getLsbD i = false) :
    (bit p)^[k] (x <<< k) = x := by
  induction k with
  | zero => simp
  | succ k ih =>
    have hlow : (x <<< (k + 1)).getLsbD 0 = false := by simp
    have hshift : x <<< (k + 1) >>> 1 = x <<< k := by
      refine BitVec.eq_of_getLsbD_eq fun i hi => ?_
      rw [BitVec.getLsbD_ushiftRight, BitVec.getLsbD_shiftLeft, BitVec.getLsbD_shiftLeft]
      by_cases hin : 1 + i < n
      · have hsub : 1 + i - (k + 1) = i - k := by omega
        have hlt : 1 + i < k + 1 ↔ i < k := by omega
        simp [hin, hi, hsub, hlt]
      · -- the highest bit of `x <<< k` is clear
        have h0 : i < k ∨ x.getLsbD (i - k) = false := by
          by_cases hik : i < k
          · exact .inl hik
          · exact .inr (hx _ (by omega))
        rcases h0 with h0 | h0 <;> simp [hin, h0]
    rw [Function.iterate_succ_apply, bit, hlow, if_neg Bool.false_ne_true, hshift,
      ih fun i hi => hx i (by omega)]

theorem pack_high (bs : List (BitVec m)) {i : Nat} (hi : m * bs.length ≤ i) :
    (pack n bs).getLsbD i = false := by
  induction bs generalizing i with
  | nil => exact BitVec.getLsbD_zero
  | cons b bs ih =>
    rw [List.length_cons, Nat.mul_succ] at hi
    rw [pack, BitVec.getLsbD_xor, BitVec.getLsbD_shiftLeft, ih (by omega), BitVec.getLsbD_setWidth,
      BitVec.getLsbD_of_ge b i (by omega)]
    simp

/-- **The register after a burst** that fits it: the burst can be fed all at once. -/
theorem feed_eq (c : BitVec n) (bs : List (BitVec m)) (hbs : m * bs.length ≤ n) :
    feed p c bs = (bit p)^[m * bs.length] (c ^^^ pack n bs) := by
  induction bs generalizing c with
  | nil => simp [feed, pack]
  | cons b bs ih =>
    rw [List.length_cons, Nat.mul_succ] at hbs
    have hrest : (bit p)^[m] (pack n bs <<< m) = pack n bs :=
      iterate_shiftLeft fun i hi => pack_high bs (by omega)
    calc feed p c (b :: bs) = feed p ((bit p)^[m] (c ^^^ b.setWidth n)) bs := rfl
      _ = (bit p)^[m * bs.length] ((bit p)^[m] (c ^^^ b.setWidth n) ^^^ pack n bs) := ih _ (by omega)
      _ = (bit p)^[m * bs.length] ((bit p)^[m] (c ^^^ pack n (b :: bs))) := by
        rw [pack, ← BitVec.xor_assoc, iterate_xor m _ (pack n bs <<< m), hrest]
      _ = (bit p)^[m * (b :: bs).length] (c ^^^ pack n (b :: bs)) := by
        rw [List.length_cons, Nat.mul_succ, Function.iterate_add_apply]

theorem pack_injective {bs bs' : List (BitVec m)} (hlen : bs.length = bs'.length)
    (hbs : m * bs.length ≤ n) (h : pack n bs = pack n bs') : bs = bs' := by
  induction bs generalizing bs' with
  | nil => exact (List.length_eq_zero_iff.mp hlen.symm).symm
  | cons b bs ih =>
    cases bs' with
    | nil => exact absurd hlen (Nat.succ_ne_zero _)
    | cons b' bs' =>
      rw [List.length_cons, Nat.mul_succ] at hbs
      have hbit : ∀ i < n, (if i < m then b.getLsbD i else (pack n bs).getLsbD (i - m)) =
          if i < m then b'.getLsbD i else (pack n bs').getLsbD (i - m) := by
        intro i hi
        have hi' := congrArg (·.getLsbD i) h
        simp only [pack, BitVec.getLsbD_xor, BitVec.getLsbD_shiftLeft, BitVec.getLsbD_setWidth, hi,
          decide_true, Bool.true_and] at hi'
        by_cases him : i < m
        · simpa [him] using hi'
        · simpa [him, BitVec.getLsbD_of_ge _ _ (Nat.le_of_not_lt him)] using hi'
      have hhead : b = b' := BitVec.eq_of_getLsbD_eq fun i hi => by
        have := hbit i (by omega)
        rwa [if_pos hi, if_pos hi] at this
      have htail : pack n bs = pack n bs' := BitVec.eq_of_getLsbD_eq fun i hi => by
        by_cases hin : i + m < n
        · have := hbit (i + m) hin
          rwa [if_neg (by omega), if_neg (by omega), Nat.add_sub_cancel] at this
        · have hlen' : bs.length = bs'.length := Nat.succ.inj hlen
          rw [pack_high bs (by omega), pack_high bs' (by rw [← hlen']; omega)]
      rw [hhead, ih (Nat.succ.inj hlen) (by omega) htail]

/-- Two messages that fit the register leave it different. -/
theorem feed_injective (hp : p.msb = true) {c : BitVec n} {bs bs' : List (BitVec m)}
    (hlen : bs.length = bs'.length) (hbs : m * bs.length ≤ n) (h : feed p c bs = feed p c bs') :
    bs = bs' := by
  rw [feed_eq c bs hbs, feed_eq c bs' (hlen ▸ hbs), ← hlen] at h
  have h' := (bit_injective hp).iterate _ h
  refine pack_injective hlen hbs ?_
  exact (BitVec.xor_right_inj c).mp h'

/-- What follows does not hide a difference. -/
theorem feed_state_injective (hp : p.msb = true) {c c' : BitVec n} (bs : List (BitVec m))
    (h : feed p c bs = feed p c' bs) : c = c' := by
  induction bs generalizing c c' with
  | nil => exact h
  | cons b bs ih =>
    have h' := (bit_injective hp).iterate m (ih h)
    exact (BitVec.xor_left_inj _).mp h'

/-- **A burst is detected**, whatever comes before and after it. -/
theorem feed_burst (hp : p.msb = true) {c : BitVec n} (pre post : List (BitVec m))
    {bs bs' : List (BitVec m)} (hlen : bs.length = bs'.length) (hbs : m * bs.length ≤ n)
    (h : feed p c (pre ++ bs ++ post) = feed p c (pre ++ bs' ++ post)) : bs = bs' := by
  simp only [feed_append] at h
  exact feed_injective hp hlen hbs (feed_state_injective hp post h)

end Crc

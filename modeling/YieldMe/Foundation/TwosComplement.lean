/-
  Foundation/TwosComplement.lean --- integers as bits without end.

  An integer is its low bits and, above them, its sign without end.  An integer within
  `2 ^ k` on either side of zero is given by its last `k` bits and its sign, so a
  program that works on the last bits alone computes a bitwise operation on integers,
  as long as it puts the sign back.
-/
import Mathlib.Data.Int.Bitwise
import Mathlib.Data.Nat.Bitwise
import Mathlib.Tactic.Ring

set_option autoImplicit false

namespace TwosComplement

/-- The last `k` bits of an integer, as a number. -/
def low (k : Nat) (z : Int) : Nat := (z % (2 ^ k : Nat)).toNat

/-- Within `2 ^ k` of zero. -/
def Fits (k : Nat) (z : Int) : Prop := -(2 ^ k : Nat) ≤ z ∧ z < (2 ^ k : Nat)

theorem low_lt (k : Nat) (z : Int) : low k z < 2 ^ k := by
  have hpos : ((2 ^ k : Nat) : Int) ≠ 0 := by
    have := Nat.two_pow_pos k
    omega
  have hlow := Int.emod_nonneg z hpos
  have hhigh := Int.emod_lt_of_pos z (by
    have := Nat.two_pow_pos k
    omega : (0 : Int) < (2 ^ k : Nat))
  rw [low]
  omega

/-- The last bits and the sign give the integer. -/
theorem Fits.eq {k : Nat} {z : Int} (h : Fits k z) :
    z = low k z - if z < 0 then ((2 ^ k : Nat) : Int) else 0 := by
  obtain ⟨hlow, hhigh⟩ := h
  have hpos := Nat.two_pow_pos k
  rw [low]
  split
  · rename_i hneg
    have hmod : z % ((2 ^ k : Nat) : Int) = z + (2 ^ k : Nat) := by
      rw [← Int.add_emod_right]
      exact Int.emod_eq_of_lt (by omega) (by omega)
    rw [hmod]
    omega
  · rename_i hneg
    rw [Int.emod_eq_of_lt (by omega) hhigh]
    omega

theorem low_natCast (k n : Nat) : low k n = n % 2 ^ k := by
  rw [low, ← Int.natCast_emod, Int.toNat_natCast]

theorem low_negSucc (k n : Nat) : low k (Int.negSucc n) = 2 ^ k - (n % 2 ^ k + 1) := by
  have hlt := Nat.mod_lt n (Nat.two_pow_pos k)
  have hdiv :
      ((2 ^ k : Nat) : Int) * ((n / 2 ^ k : Nat) : Int) + ((n % 2 ^ k : Nat) : Int) = n := by
    exact_mod_cast Nat.div_add_mod n (2 ^ k)
  have hsplit : Int.negSucc n = ((2 ^ k - (n % 2 ^ k + 1) : Nat) : Int) +
      ((2 ^ k : Nat) : Int) * (-((n / 2 ^ k : Nat) : Int) - 1) := by
    rw [Int.negSucc_eq, Int.ofNat_sub hlt, Int.mul_sub, Int.mul_neg, Int.mul_one]
    generalize ((2 ^ k : Nat) : Int) * ((n / 2 ^ k : Nat) : Int) = t at *
    omega
  rw [low, hsplit, Int.add_mul_emod_self_left, Int.emod_eq_of_lt (by omega) (by omega),
    Int.toNat_natCast]

/-- The bits of the last `k` are those of the integer. -/
theorem testBit_low {k i : Nat} (hi : i < k) (z : Int) : (low k z).testBit i = z.testBit i := by
  cases z with
  | ofNat n =>
      rw [Int.ofNat_eq_natCast, low_natCast, Nat.testBit_mod_two_pow, decide_eq_true hi,
        Bool.true_and]
      rfl
  | negSucc n =>
      rw [low_negSucc, Nat.testBit_two_pow_sub_succ (Nat.mod_lt n (Nat.two_pow_pos k)),
        Nat.testBit_mod_two_pow, decide_eq_true hi, Bool.true_and, Bool.true_and]
      rfl

/-- A number with the bits of an integer's last `k` bits is these bits. -/
theorem eq_low {k w : Nat} {z : Int} (hw : w < 2 ^ k)
    (h : ∀ i < k, w.testBit i = z.testBit i) : w = low k z := by
  refine Nat.eq_of_testBit_eq fun i => ?_
  by_cases hi : i < k
  · rw [h i hi, testBit_low hi]
  · have hpow : (2 : Nat) ^ k ≤ 2 ^ i := Nat.pow_le_pow_right Nat.two_pos (Nat.not_lt.mp hi)
    rw [Nat.testBit_lt_two_pow (Nat.lt_of_lt_of_le hw hpow),
      Nat.testBit_lt_two_pow (Nat.lt_of_lt_of_le (low_lt k z) hpow)]

/-! ## Bitwise operations -/

theorem natBitwise_lt_zero (f : Bool → Bool → Bool) (m n : Nat) :
    Int.natBitwise f m n < 0 ↔ f false false = true := by
  unfold Int.natBitwise
  cases f false false with
  | false => simp
  | true => simp [Int.negSucc_lt_zero]

/-- The sign of the result is the operation on the signs. -/
theorem bitwise_lt_zero (f : Bool → Bool → Bool) (a b : Int) :
    Int.bitwise f a b < 0 ↔ f (decide (a < 0)) (decide (b < 0)) = true := by
  have hpos : ∀ n : Nat, decide ((n : Int) < 0) = false := fun n =>
    decide_eq_false (Int.not_lt.mpr (Int.natCast_nonneg n))
  have hneg : ∀ n : Nat, decide (Int.negSucc n < 0) = true := fun n =>
    decide_eq_true (Int.negSucc_lt_zero n)
  cases a with
  | ofNat m =>
      cases b with
      | ofNat n =>
          rw [Int.ofNat_eq_natCast, Int.ofNat_eq_natCast, hpos, hpos]
          exact natBitwise_lt_zero f m n
      | negSucc n =>
          rw [Int.ofNat_eq_natCast, hpos, hneg]
          exact natBitwise_lt_zero (fun x y => f x !y) m n
  | negSucc m =>
      cases b with
      | ofNat n =>
          rw [Int.ofNat_eq_natCast, hpos, hneg]
          exact natBitwise_lt_zero (fun x y => f (!x) y) m n
      | negSucc n =>
          rw [hneg, hneg]
          exact natBitwise_lt_zero (fun x y => f (!x) !y) m n

theorem natBitwise_fits (f : Bool → Bool → Bool) {k m n : Nat} (hm : m < 2 ^ k)
    (hn : n < 2 ^ k) : Fits k (Int.natBitwise f m n) := by
  unfold Int.natBitwise
  cases f false false with
  | false =>
      have hlt := Nat.bitwise_lt_two_pow (f := f) hm hn
      simp only [cond_false]
      exact ⟨by omega, by omega⟩
  | true =>
      have hlt := Nat.bitwise_lt_two_pow (f := fun x y => !f x y) hm hn
      simp only [cond_true, Int.negSucc_eq]
      exact ⟨by omega, by omega⟩

theorem fits_negSucc {k m : Nat} : Fits k (Int.negSucc m) ↔ m < 2 ^ k := by
  rw [Fits, Int.negSucc_eq]
  omega

theorem fits_natCast {k m : Nat} : Fits k (m : Int) ↔ m < 2 ^ k := by
  rw [Fits]
  omega

/-- The result is no wider than the operands. -/
theorem Fits.bitwise (f : Bool → Bool → Bool) {k : Nat} {a b : Int} (ha : Fits k a)
    (hb : Fits k b) : Fits k (Int.bitwise f a b) := by
  cases a with
  | ofNat m =>
      rw [Int.ofNat_eq_natCast, fits_natCast] at ha
      cases b with
      | ofNat n =>
          rw [Int.ofNat_eq_natCast, fits_natCast] at hb
          exact natBitwise_fits f ha hb
      | negSucc n => exact natBitwise_fits (fun x y => f x !y) ha (fits_negSucc.mp hb)
  | negSucc m =>
      cases b with
      | ofNat n =>
          rw [Int.ofNat_eq_natCast, fits_natCast] at hb
          exact natBitwise_fits (fun x y => f (!x) y) (fits_negSucc.mp ha) hb
      | negSucc n =>
          exact natBitwise_fits (fun x y => f (!x) !y) (fits_negSucc.mp ha) (fits_negSucc.mp hb)

theorem ldiff_le (m n : Nat) : Nat.ldiff m n ≤ m := by
  refine Nat.le_of_testBit fun i hi => ?_
  rw [Nat.testBit_ldiff, Bool.and_eq_true] at hi
  exact hi.1

/-- Setting bits moves an integer away from the lower bound. -/
theorem neg_two_pow_lt_lor {k : Nat} {a b : Int} (ha : -(2 ^ k : Nat) < a)
    (hb : -(2 ^ k : Nat) < b) : -(2 ^ k : Nat) < Int.lor a b := by
  cases a with
  | ofNat m =>
      cases b with
      | ofNat n =>
          have hpos := Nat.two_pow_pos k
          exact Int.lt_of_lt_of_le (by omega) (Int.natCast_nonneg (m ||| n))
      | negSucc n =>
          have hle := ldiff_le n m
          rw [Int.lor, Int.negSucc_eq]
          rw [Int.negSucc_eq] at hb
          omega
  | negSucc m =>
      rw [Int.negSucc_eq] at ha
      cases b with
      | ofNat n =>
          have hle := ldiff_le m n
          rw [Int.lor, Int.negSucc_eq]
          omega
      | negSucc n =>
          have hle : m &&& n ≤ m := Nat.and_le_left
          rw [Int.lor, Int.negSucc_eq]
          omega

/-- A number that is the operation on the operands' last bits is the result's last
bits; the operation on the signs is its sign. -/
theorem bitwise_eq (f : Bool → Bool → Bool) {k w : Nat} {a b : Int} (ha : Fits k a)
    (hb : Fits k b) (hw : w < 2 ^ k)
    (hbits : ∀ i < k, w.testBit i = f ((low k a).testBit i) ((low k b).testBit i)) :
    Int.bitwise f a b =
      w - if f (decide (a < 0)) (decide (b < 0)) = true then ((2 ^ k : Nat) : Int) else 0 := by
  have hlow : w = low k (Int.bitwise f a b) := eq_low hw fun i hi => by
    rw [hbits i hi, testBit_low hi, testBit_low hi, Int.testBit_bitwise]
  rw [(ha.bitwise f hb).eq, ← hlow]
  simp only [bitwise_lt_zero]

end TwosComplement

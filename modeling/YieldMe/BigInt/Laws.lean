/-
  BigInt/Laws.lean --- the operations of the package against each other.

  The modules before say what each operation computes.  Here the operations meet: the
  ways to multiply agree, division and its relatives fit together, the modular power is
  the power and then the modulus, and roots, divisors and inverses are what their
  products say.  The laws are stated with the operations of the package, so that a
  result that stops the process shows as none.
-/
import YieldMe.BigInt.Exponentiation
import YieldMe.BigInt.GCD
import YieldMe.BigInt.ShiftOperators
import YieldMe.BigInt.SquareRoot
import YieldMe.BigInt.WordsAndBits

set_option autoImplicit false

namespace YieldMe

open BigUInt

namespace BigUInt

/-! ## Magnitudes -/

/-- What is added is subtracted again, at every shift, and what cannot be subtracted is
larger. -/
theorem sums_and_differences (a b : BigUInt) (shift : Nat) :
    (a.add b shift).subtract b shift = some a ∧
      ((∃ d, a.subtract b shift = some d ∧ d.add b shift = a) ∨
        (a.subtract b shift = none ∧ a.lt (b.shiftLeftWords shift) = true)) := by
  refine ⟨?_, ?_⟩
  · rw [add_eq, subtract_eq, toNat_ofNat, if_pos (Nat.le_add_left _ _), Nat.add_sub_cancel,
      ofNat_toNat]
  · rw [subtract_eq, lt_iff, toNat_shiftLeftWords]
    by_cases hle : b.toNat * weight shift ≤ a.toNat
    · refine .inl ⟨_, if_pos hle, ?_⟩
      rw [add_eq, toNat_ofNat, Nat.sub_add_cancel hle, ofNat_toNat]
    · exact .inr ⟨if_neg hle, Nat.not_le.mp hle⟩

/-- The product does not depend on the limit below which it is computed row by row, nor
on the order of its factors, and it distributes over shifted sums. -/
theorem products_agree (limit limit' : Int) (a b c : BigUInt) (shift : Nat) :
    ∃ p q, a.multiplied limit b = some p ∧ a.multiplied limit' b = some p ∧
      b.multiplied limit a = some p ∧ longMultiplication a b = p ∧
      a.multiplied limit c = some q ∧
      a.multiplied limit (b.add c shift) = some (p.add q shift) := by
  refine ⟨ofNat (a.toNat * b.toNat), ofNat (a.toNat * c.toNat), multiplied_eq _ _ _,
    multiplied_eq _ _ _, ?_, longMultiplication_eq a b, multiplied_eq _ _ _, ?_⟩
  · rw [multiplied_eq, Nat.mul_comm]
  · rw [multiplied_eq, add_eq, add_eq, toNat_ofNat, toNat_ofNat, toNat_ofNat, Nat.mul_add,
      Nat.mul_assoc]

/-- A division stops the process for zero alone, and its quotient and remainder make up
the dividend; the remainder formed in place with a normalized divisor is the same. -/
theorem divisions_agree (limit : Int) (a b : BigUInt) :
    (b.isZero = true ∧ a.quotientAndRemainder b = none ∧ a.divided b = none ∧
        a.remainder b = none) ∨
      ∃ q r p, a.quotientAndRemainder b = some (q, r) ∧ a.divided b = some q ∧
        a.remainder b = some r ∧
        a.formRemainder (b.shiftedLeft b.leadingZeroBitCount) b.leadingZeroBitCount = some r ∧
        r.lt b = true ∧ q.multiplied limit b = some p ∧ p.add r 0 = a := by
  rw [isZero_iff, quotientAndRemainder_eq, divided_eq, remainder_eq]
  by_cases hzero : b.toNat = 0
  · exact .inl ⟨hzero, if_pos hzero, if_pos hzero, if_pos hzero⟩
  · have hpos := Nat.pos_of_ne_zero hzero
    refine .inr ⟨_, _, _, if_neg hzero, if_neg hzero, if_neg hzero, formRemainder_eq a hpos, ?_,
      multiplied_eq limit _ _, ?_⟩
    · rw [lt_iff, toNat_ofNat]
      exact Nat.mod_lt _ hpos
    · rw [add_eq, toNat_ofNat, toNat_ofNat, toNat_ofNat, weight_zero, Nat.mul_one,
        Nat.div_add_mod', ofNat_toNat]

/-- The square of the root is at most the number, and the next square is above it. -/
theorem root_between_squares (limit : Int) (n : BigUInt) :
    ∃ r s t, n.squareRoot = some r ∧ r.multiplied limit r = some s ∧ s.le n = true ∧
      (r.add (ofWord 1) 0).multiplied limit (r.add (ofWord 1) 0) = some t ∧ n.lt t = true := by
  refine ⟨_, _, _, squareRoot_eq n, multiplied_eq limit _ _, ?_, multiplied_eq limit _ _, ?_⟩
  · rw [le_iff, toNat_ofNat, toNat_ofNat]
    exact Nat.sqrt_le n.toNat
  · rw [lt_iff, toNat_ofNat, add_eq, toNat_ofNat, toNat_ofNat, toNat_ofWord, UInt64.toNat_one,
      weight_zero, Nat.mul_one]
    exact Nat.lt_succ_sqrt n.toNat

end BigUInt

namespace BigInt

/-! ## Divisions of signed numbers -/

/-- The remainder is zero or has the sign of the dividend. -/
theorem tmod_sign (a b : BigInt) :
    (ofInt (a.toInt.tmod b.toInt)).isZero = true ∨
      (ofInt (a.toInt.tmod b.toInt)).sign = a.sign := by
  have hsigned : a.toInt.tmod b.toInt =
      signed a.sign (BigUInt.ofNat (a.magnitude.toNat % b.magnitude.toNat)).toNat := by
    rw [toNat_ofNat, signed_mod a.sign b.sign]
    rfl
  rw [hsigned, ← ofSign_eq]
  unfold isZero ofSign
  simp only
  cases (BigUInt.ofNat (a.magnitude.toNat % b.magnitude.toNat)).isZero with
  | true => exact .inl rfl
  | false => exact .inr rfl

/-- The modulus is the remainder, or it is one divisor more. -/
theorem emod_cases (a b : Int) :
    ofInt (a % b) = ofInt (a.tmod b) ∨
      (ofInt (a.tmod b)).add (ofInt b.natAbs) = some (ofInt (a % b)) := by
  rw [add_eq, toInt_ofInt, toInt_ofInt, Int.tmod_eq_emod]
  split
  · rw [Nat.cast_zero, Int.sub_zero]
    exact .inl rfl
  · rw [Int.sub_add_cancel]
    exact .inr rfl

/-- The remainder has the sign of the dividend, and the modulus none; they are the same
or one divisor apart. -/
theorem signed_divisions_agree (limit : Int) (a b : BigInt) :
    (b.isZero = true ∧ a.quotientAndRemainder b = none ∧ a.divided b = none ∧
        a.remainder b = none ∧ a.modulus b = none) ∨
      ∃ q r m p, a.quotientAndRemainder b = some (q, r) ∧ a.divided b = some q ∧
        a.remainder b = some r ∧ a.modulus b = some m ∧
        q.multiplied limit b = some p ∧ p.add r = some (ofInt a.toInt) ∧
        r.magnitude.lt b.magnitude = true ∧ (r.isZero = true ∨ r.sign = a.sign) ∧
        m.sign = .plus ∧ m.magnitude.lt b.magnitude = true ∧
        (m = r ∨ r.add (ofInt b.toInt.natAbs) = some m) := by
  have habs := toInt_natAbs b
  rw [isZero, isZero_iff, ← toInt_eq_zero_iff, quotientAndRemainder_eq, divided_eq, remainder_eq,
    modulus_eq]
  by_cases hzero : b.toInt = 0
  · exact .inl ⟨hzero, if_pos hzero, if_pos hzero, if_pos hzero, if_pos hzero⟩
  have hnonneg := Int.emod_nonneg a.toInt hzero
  have hlt := Int.emod_lt a.toInt hzero
  refine .inr ⟨_, _, _, _, if_neg hzero, if_neg hzero, if_neg hzero, if_neg hzero,
    multiplied_eq limit _ b, ?_, ?_, tmod_sign a b, ?_, ?_, ?_⟩
  · rw [add_eq, toInt_ofInt, toInt_ofInt, toInt_ofInt, Int.mul_comm, Int.mul_tdiv_add_tmod]
  · rw [BigUInt.lt_iff, natAbs_ofInt, Int.natAbs_tmod, ← habs]
    exact Nat.mod_lt _ (Int.natAbs_pos.mpr hzero)
  · obtain ⟨k, hk⟩ := Int.eq_ofNat_of_zero_le hnonneg
    rw [hk, ← plus_ofNat]
  · rw [BigUInt.lt_iff, natAbs_ofInt]
    omega
  · exact emod_cases a.toInt b.toInt

/-! ## Divisors and inverses -/

/-- What divides both numbers divides their greatest common divisor, and nothing else. -/
theorem divides_gcd (a b : BigInt) :
    ∃ g, a.greatestCommonDivisor b = some g ∧ b.greatestCommonDivisor a = some g ∧
      0 ≤ g.toInt ∧ ∀ d : Int, d ∣ g.toInt ↔ d ∣ a.toInt ∧ d ∣ b.toInt := by
  refine ⟨_, greatestCommonDivisor_eq a b, ?_, ?_, fun d => ?_⟩
  · rw [greatestCommonDivisor_eq, Int.gcd_comm]
  · rw [toInt_ofInt]
    exact Int.natCast_nonneg _
  · rw [toInt_ofInt, Int.dvd_coe_gcd_iff]

/-- An inverse is there exactly where there is no common divisor, and its product with
the number is one modulo the modulus. -/
theorem inverse_product (limit : Int) (a m : BigInt) :
    (m.magnitude.le (.ofWord 1) = true ∧ a.inverse limit m = none) ∨
      (1 < m.toInt.natAbs ∧ m.greatestCommonDivisor a ≠ some (ofInt 1) ∧
        a.inverse limit m = some none) ∨
      ∃ r p, m.greatestCommonDivisor a = some (ofInt 1) ∧ a.inverse limit m = some (some r) ∧
        0 ≤ r.toInt ∧ r.toInt < m.toInt.natAbs ∧
        r.multiplied limit a = some p ∧ p.modulus m = some (ofInt 1) := by
  have habs := toInt_natAbs m
  rw [le_one_iff]
  by_cases hone : m.toInt.natAbs ≤ 1
  · exact .inl ⟨by omega, inverse_of_le_one limit a hone⟩
  have hm : 1 < m.toInt.natAbs := Nat.not_le.mp hone
  rw [greatestCommonDivisor_eq]
  by_cases hgcd : Int.gcd m.toInt a.toInt = 1
  · obtain ⟨r, hinverse, hlt, hprod⟩ := inverse_of_coprime limit hm hgcd
    refine .inr (.inr ⟨_, _, by rw [hgcd]; rfl, hinverse, ?_, ?_, multiplied_eq limit _ a, ?_⟩)
    · rw [toInt_ofInt]
      exact Int.natCast_nonneg r
    · rw [toInt_ofInt]
      exact_mod_cast hlt
    · rw [modulus_eq, toInt_ofInt, toInt_ofInt, hprod, if_neg (by omega)]
  · refine .inr (.inl ⟨hm, fun h => hgcd ?_, inverse_of_not_coprime limit hm hgcd⟩)
    have hint := congrArg toInt (Option.some.inj h)
    rw [toInt_ofInt, toInt_ofInt] at hint
    exact_mod_cast hint

/-! ## Powers -/

/-- To a negative exponent zero has no power, and only one and minus one keep theirs. -/
theorem power_opposite (limit : Int) (a : BigInt) (n : Nat) :
    a.power limit (-(n + 1 : Nat)) =
      if a.isZero then none
      else if a.magnitude.eq (.ofWord 1) then a.power limit (n + 1 : Nat)
      else some (ofInt 0) := by
  rw [power_neg limit a (Nat.succ_pos n), power_eq]
  simp only [isZero, isZero_iff, eq_one_iff, toInt_eq_zero_iff, toInt_natAbs]
  split
  · rfl
  · split
    · rfl
    · rfl

theorem powerModulus_nat (limit : Int) (a : BigInt) (n : Nat) (modulus : BigInt) :
    a.powerModulus limit (ofInt n) modulus =
      (a.power limit n).bind fun p => p.modulus modulus := by
  rw [power_eq, Option.bind_some, modulus_eq, toInt_ofInt]
  by_cases hzero : modulus.toInt = 0
  · have hmag := (toInt_eq_zero_iff modulus).mp hzero
    rw [if_pos hzero, powerModulus, isZero, if_pos ((isZero_iff _).mpr hmag)]
  · rw [if_neg hzero, powerModulus_eq limit a hzero (by
      rw [toInt_ofInt]
      exact Int.natCast_nonneg n), toInt_ofInt, Int.toNat_natCast]

/-- To a negative exponent the power of zero is none, and the modulus alone decides what
the modular power is. -/
theorem powerModulus_opposite (limit : Int) (a : BigInt) (n : Nat) (modulus : BigInt) :
    a.powerModulus limit (ofInt (-(n + 1 : Nat))) modulus =
      if a.isZero = true ∧ modulus.magnitude.eq (.ofWord 1) = true then some (ofInt 0)
      else (a.power limit (-(n + 1 : Nat))).bind fun p => p.modulus modulus := by
  have hneg : (ofInt (-(n + 1 : Nat))).toInt < 0 := by
    rw [toInt_ofInt]
    omega
  rw [powerModulus_neg limit a hneg, toInt_ofInt, power_neg limit a (Nat.succ_pos n)]
  simp only [isZero, isZero_iff, eq_one_iff, toInt_eq_zero_iff, toInt_natAbs]
  by_cases hazero : a.magnitude.toNat = 0
  · rw [if_pos hazero, if_pos hazero, Option.bind_none]
    by_cases hmone : modulus.magnitude.toNat = 1
    · rw [if_neg (by omega), if_pos hmone, if_pos (And.intro hazero hmone)]
    · have hnot : ¬ (a.magnitude.toNat = 0 ∧ modulus.magnitude.toNat = 1) := fun h => hmone h.2
      rw [if_neg hmone, ite_self, if_neg hnot]
  have hnot : ¬ (a.magnitude.toNat = 0 ∧ modulus.magnitude.toNat = 1) := fun h => hazero h.1
  rw [if_neg hnot, if_neg hazero, if_neg hazero, Option.bind_some, modulus_eq, toInt_ofInt,
    Int.natAbs_neg, Int.natAbs_natCast]
  simp only [toInt_eq_zero_iff]
  by_cases hmzero : modulus.magnitude.toNat = 0
  · rw [if_pos hmzero, if_pos hmzero]
  rw [if_neg hmzero, if_neg hmzero]
  by_cases hmone : modulus.magnitude.toNat = 1
  · rw [if_pos hmone, emod_toInt, hmone, Nat.cast_one, Int.emod_one]
  rw [if_neg hmone]
  by_cases haone : a.magnitude.toNat = 1
  · rw [if_pos haone, if_pos haone]
  · rw [if_neg haone, if_neg haone, Int.zero_emod]

/-- The modular power and the power, for exponents of either sign. -/
theorem powerModulus_power (limit : Int) (a : BigInt) (e : Int) (modulus : BigInt) :
    a.powerModulus limit (ofInt e) modulus =
      if e < 0 ∧ a.isZero = true ∧ modulus.magnitude.eq (.ofWord 1) = true then some (ofInt 0)
      else (a.power limit e).bind fun p => p.modulus modulus := by
  by_cases hneg : e < 0
  · obtain ⟨n, rfl⟩ : ∃ n : Nat, e = -(n + 1 : Nat) := ⟨(-e - 1).toNat, by omega⟩
    rw [powerModulus_opposite]
    simp only [hneg, true_and]
  · obtain ⟨n, rfl⟩ := Int.eq_ofNat_of_zero_le (Int.not_lt.mp hneg)
    rw [if_neg (fun h => hneg h.1)]
    exact powerModulus_nat limit a n modulus

/-- Powers multiply and nest as exponents that are not negative add and multiply.  A
negative exponent stops the process for zero, is as good as its opposite for one and
minus one, and gives zero for all others.  For exponents of either sign the modular
power is the power and then the modulus, but that zero to a negative exponent is zero
where the modulus is one or minus one. -/
theorem powers_agree (limit : Int) (a : BigInt) (m n : Nat) (e : Int) (modulus : BigInt) :
    (∃ p q, a.power limit m = some p ∧ a.power limit n = some q ∧
      a.power limit ((m : Int) + n) = p.multiplied limit q ∧
      a.power limit ((m : Int) * n) = p.power limit n) ∧
    a.power limit (-(n + 1 : Nat)) =
      (if a.isZero then none
        else if a.magnitude.eq (.ofWord 1) then a.power limit (n + 1 : Nat)
        else some (ofInt 0)) ∧
    a.powerModulus limit (ofInt e) modulus =
      (if e < 0 ∧ a.isZero = true ∧ modulus.magnitude.eq (.ofWord 1) = true then some (ofInt 0)
        else (a.power limit e).bind fun p => p.modulus modulus) := by
  refine ⟨⟨_, _, power_eq limit a m, power_eq limit a n, ?_, ?_⟩, power_opposite limit a n,
    powerModulus_power limit a e modulus⟩
  · have hsum := power_eq limit a (m + n)
    rw [Nat.cast_add] at hsum
    rw [hsum, multiplied_eq, toInt_ofInt, toInt_ofInt, pow_add]
  · have hprod := power_eq limit a (m * n)
    rw [Nat.cast_mul] at hprod
    rw [hprod, power_eq, toInt_ofInt, pow_mul]

/-! ## Numbers that were computed -/

/-- What the operations make of numbers without a minus sign on zero, whatever their
order. -/
inductive Computed : BigInt → Prop where
  | given {a : BigInt} (h : a.IsCanonical) : Computed a
  | ofWords (words : List Word) : Computed (ofWords words)
  | negate {a : BigInt} (ha : Computed a) : Computed a.negate
  | add {a b c : BigInt} (ha : Computed a) (hb : Computed b) (h : a.add b = some c) : Computed c
  | subtract {a b c : BigInt} (ha : Computed a) (hb : Computed b) (h : a.subtract b = some c) :
      Computed c
  | multiplied {limit : Int} {a b c : BigInt} (ha : Computed a) (hb : Computed b)
      (h : a.multiplied limit b = some c) : Computed c
  | quotient {a b q r : BigInt} (ha : Computed a) (hb : Computed b)
      (h : a.quotientAndRemainder b = some (q, r)) : Computed q
  | remainder {a b q r : BigInt} (ha : Computed a) (hb : Computed b)
      (h : a.quotientAndRemainder b = some (q, r)) : Computed r
  | modulus {a b c : BigInt} (ha : Computed a) (hb : Computed b) (h : a.modulus b = some c) :
      Computed c
  | power {limit exponent : Int} {a c : BigInt} (ha : Computed a)
      (h : a.power limit exponent = some c) : Computed c
  | powerModulus {limit : Int} {a b m c : BigInt} (ha : Computed a) (hb : Computed b)
      (hm : Computed m) (h : a.powerModulus limit b m = some c) : Computed c
  | squareRoot {a c : BigInt} (ha : Computed a) (h : a.squareRoot = some c) : Computed c
  | divisor {a b c : BigInt} (ha : Computed a) (hb : Computed b)
      (h : a.greatestCommonDivisor b = some c) : Computed c
  | inverse {limit : Int} {a b c : BigInt} (ha : Computed a) (hb : Computed b)
      (h : a.inverse limit b = some (some c)) : Computed c
  | leftShifted {Other : BinaryInteger} {count : Count Other} {a c : BigInt} (ha : Computed a)
      (h : a.leftShifted count = some c) : Computed c
  | rightShifted {Other : BinaryInteger} {count : Count Other} {a c : BigInt} (ha : Computed a)
      (h : a.rightShifted count = some c) : Computed c
  | leftShift {Other : BinaryInteger} {count : Count Other} {a c : BigInt} (ha : Computed a)
      (h : a.leftShift count = some c) : Computed c
  | rightShift {Other : BinaryInteger} {count : Count Other} {a c : BigInt} (ha : Computed a)
      (h : a.rightShift count = some c) : Computed c
  | bitwise {op : Word → Word → Word} {negative : Bool} {a b c : BigInt} (ha : Computed a)
      (hb : Computed b) (h : bitwise op negative a b = some c) : Computed c
  | complement {a c : BigInt} (ha : Computed a) (h : a.complement = some c) : Computed c

theorem isCanonical_ofSign (sign : Sign) (magnitude : BigUInt) :
    (ofSign sign magnitude).IsCanonical := by
  rw [ofSign_eq]
  exact isCanonical_ofInt _

theorem isCanonical_plus (magnitude : BigUInt) : IsCanonical ⟨magnitude, .plus⟩ :=
  fun h => Sign.noConfusion h

theorem isCanonical_negate {a : BigInt} (ha : a.IsCanonical) : a.negate.IsCanonical := by
  unfold negate
  cases hzero : a.magnitude.isZero with
  | true =>
      rw [if_pos rfl]
      exact ha
  | false =>
      rw [if_neg Bool.false_ne_true]
      exact fun _ => hzero

theorem isCanonical_modulus {a mod c : BigInt} (h : a.modulus mod = some c) : c.IsCanonical := by
  rw [modulus_eq] at h
  split at h
  · cases h
  · obtain rfl := Option.some.inj h
    exact isCanonical_ofInt _

theorem isCanonical_difference {x y : BigUInt} {c : BigInt}
    (h : (x.subtract y 0).map (fun m => (⟨m, .plus⟩ : BigInt)) = some c) : c.IsCanonical := by
  obtain ⟨m, -, rfl⟩ := Option.map_eq_some_iff.mp h
  exact isCanonical_plus m

theorem isCanonical_powerModulus {limit : Int} {a b m c : BigInt}
    (h : a.powerModulus limit b m = some c) : c.IsCanonical := by
  rw [powerModulus] at h
  split at h
  · cases h
  split at h
  · obtain rfl := Option.some.inj h
    exact isCanonical_ofInt _
  split at h
  · obtain rfl := Option.some.inj h
    exact isCanonical_ofInt _
  split at h
  · exact isCanonical_modulus h
  split at h
  · split at h
    · cases h
    split at h
    · obtain rfl := Option.some.inj h
      exact isCanonical_ofInt _
    split at h
    · obtain rfl := Option.some.inj h
      exact isCanonical_ofInt _
    split at h
    · obtain rfl := Option.some.inj h
      exact isCanonical_ofInt _
    · exact isCanonical_difference h
  · obtain ⟨power, -, hpower⟩ := Option.bind_eq_some_iff.mp h
    split at hpower
    · obtain rfl := Option.some.inj hpower
      exact isCanonical_plus power
    · exact isCanonical_difference hpower

theorem isCanonical_inverse {limit : Int} {a m c : BigInt}
    (h : a.inverse limit m = some (some c)) : c.IsCanonical := by
  obtain ⟨answer, -, hanswer⟩ := Option.bind_eq_some_iff.mp h
  cases answer with
  | none => cases hanswer
  | some inv =>
      simp only at hanswer
      split at hanswer
      · obtain rfl := Option.some.inj (Option.some.inj hanswer)
        exact isCanonical_plus _
      · obtain ⟨d, -, hd⟩ := Option.map_eq_some_iff.mp hanswer
        obtain rfl := Option.some.inj hd
        exact isCanonical_plus _

theorem isCanonical_bitwise {op : Word → Word → Word} {negative : Bool} {a b c : BigInt}
    (h : bitwise op negative a b = some c) : c.IsCanonical := by
  obtain ⟨left, -, hleft⟩ := Option.bind_eq_some_iff.mp h
  obtain ⟨right, -, hright⟩ := Option.map_eq_some_iff.mp hleft
  simp only at hright
  split at hright
  · rw [← hright]
    exact isCanonical_ofSign _ _
  · rw [← hright]
    exact isCanonical_ofSign _ _

theorem isCanonical_scaled {p : Prop} [Decidable p] {z n : Int} {c : BigInt}
    (h : (if p then scaled z n else none) = some c) : c.IsCanonical := by
  split at h
  · rw [scaled] at h
    split at h
    · obtain rfl := Option.some.inj h
      exact isCanonical_ofInt _
    · cases h
  · cases h

/-- No operation puts a minus sign on zero. -/
theorem Computed.isCanonical {a : BigInt} (h : Computed a) : a.IsCanonical := by
  induction h with
  | given h => exact h
  | ofWords words =>
      rw [ofWords_eq]
      exact isCanonical_ofInt _
  | negate _ ih => exact isCanonical_negate ih
  | add _ _ h =>
      rw [add_eq] at h
      obtain rfl := Option.some.inj h
      exact isCanonical_ofInt _
  | subtract _ _ h =>
      rw [subtract_eq] at h
      obtain rfl := Option.some.inj h
      exact isCanonical_ofInt _
  | multiplied _ _ h =>
      rw [multiplied_eq] at h
      obtain rfl := Option.some.inj h
      exact isCanonical_ofInt _
  | quotient _ _ h =>
      obtain ⟨p, -, hp⟩ := Option.map_eq_some_iff.mp h
      obtain ⟨rfl, -⟩ := Prod.mk.inj hp
      exact isCanonical_ofSign _ _
  | remainder _ _ h =>
      obtain ⟨p, -, hp⟩ := Option.map_eq_some_iff.mp h
      obtain ⟨-, rfl⟩ := Prod.mk.inj hp
      exact isCanonical_ofSign _ _
  | modulus _ _ h => exact isCanonical_modulus h
  | power _ h =>
      obtain ⟨p, -, rfl⟩ := Option.map_eq_some_iff.mp h
      exact isCanonical_ofSign _ _
  | powerModulus _ _ _ h => exact isCanonical_powerModulus h
  | squareRoot _ h =>
      rw [squareRoot_eq] at h
      split at h
      · obtain rfl := Option.some.inj h
        exact isCanonical_ofInt _
      · cases h
  | divisor _ _ h =>
      rw [greatestCommonDivisor_eq] at h
      obtain rfl := Option.some.inj h
      exact isCanonical_ofInt _
  | inverse _ _ h => exact isCanonical_inverse h
  | leftShifted _ h ih => exact isCanonical_scaled ((leftShifted_eq ih _).symm.trans h)
  | rightShifted _ h ih => exact isCanonical_scaled ((rightShifted_eq ih _).symm.trans h)
  | leftShift _ h ih => exact isCanonical_scaled ((leftShift_eq ih _).symm.trans h)
  | rightShift _ h ih => exact isCanonical_scaled ((rightShift_eq ih _).symm.trans h)
  | bitwise _ _ h => exact isCanonical_bitwise h
  | complement _ h =>
      rw [complement_eq] at h
      split at h
      · cases h
      · obtain rfl := Option.some.inj h
        exact isCanonical_ofInt _

/-- Numbers that were computed compare like their integers. -/
theorem computed_compares {a b : BigInt} (ha : Computed a) (hb : Computed b) :
    (a.lt b = true ↔ a.toInt < b.toInt) ∧ (a.eq b = true ↔ a.toInt = b.toInt) := by
  refine ⟨lt_iff ha.isCanonical, ?_⟩
  rw [eq_iff]
  refine ⟨congrArg toInt, fun h => ?_⟩
  rw [ha.isCanonical.eq_ofInt, hb.isCanonical.eq_ofInt, h]

/-- A sum of computed numbers against a literal. -/
theorem computed_compares_sum :
    ((ofInt ((ofInt 2).toInt + (ofInt (-5)).toInt)).lt (ofInt 0) = true ↔
        (ofInt ((ofInt 2).toInt + (ofInt (-5)).toInt)).toInt < (ofInt 0).toInt) ∧
      ((ofInt ((ofInt 2).toInt + (ofInt (-5)).toInt)).eq (ofInt 0) = true ↔
        (ofInt ((ofInt 2).toInt + (ofInt (-5)).toInt)).toInt = (ofInt 0).toInt) :=
  computed_compares
    (.add (.given (isCanonical_ofInt 2)) (.given (isCanonical_ofInt (-5))) (add_eq _ _))
    (.given (isCanonical_ofInt 0))

end BigInt

end YieldMe

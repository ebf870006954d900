/-
  BigInt/Signed.lean --- arithmetic of signed big integers.

  A signed big integer is a magnitude and a sign, and its operations choose among
  those of magnitudes by the signs.  Every result is built by `init(sign:magnitude:)`,
  which gives zero a plus sign; the parser and the reader of bytes can leave a minus on it.
  Arithmetic takes such a zero for zero, and comparison does not.
-/
import YieldMe.BigInt.Conversion
import YieldMe.BigInt.Product
import YieldMe.BigInt.LongDivision

set_option autoImplicit false

namespace YieldMe

open BigUInt

namespace BigInt

/-! ## Operations -/

/-- `isZero`. -/
def isZero (a : BigInt) : Bool := a.magnitude.isZero

/-- `+`. -/
def add (a b : BigInt) : Option BigInt :=
  match a.sign, b.sign with
  | .plus, .plus => some (ofSign .plus (a.magnitude.add b.magnitude 0))
  | .minus, .minus => some (ofSign .minus (a.magnitude.add b.magnitude 0))
  | .plus, .minus =>
      if b.magnitude.le a.magnitude then
        (a.magnitude.subtract b.magnitude 0).map (ofSign .plus)
      else (b.magnitude.subtract a.magnitude 0).map (ofSign .minus)
  | .minus, .plus =>
      if a.magnitude.le b.magnitude then
        (b.magnitude.subtract a.magnitude 0).map (ofSign .plus)
      else (a.magnitude.subtract b.magnitude 0).map (ofSign .minus)

/-- `negate()`, and the prefix `-`. -/
def negate (a : BigInt) : BigInt :=
  if a.magnitude.isZero then a
  else { a with sign := if a.sign = .plus then .minus else .plus }

/-- `-`. -/
def subtract (a b : BigInt) : Option BigInt := a.add b.negate

/-- `*`. -/
def multiplied (directMultiplicationLimit : Int) (a b : BigInt) : Option BigInt :=
  (a.magnitude.multiplied directMultiplicationLimit b.magnitude).map
    (ofSign (if a.sign = b.sign then .plus else .minus))

/-- `quotientAndRemainder(dividingBy:)`, which rounds the quotient towards zero. -/
def quotientAndRemainder (a b : BigInt) : Option (BigInt × BigInt) :=
  (a.magnitude.quotientAndRemainder b.magnitude).map fun (quotient, remainder) =>
    (ofSign (if a.sign = b.sign then .plus else .minus) quotient, ofSign a.sign remainder)

/-- `/`. -/
def divided (a b : BigInt) : Option BigInt :=
  (a.magnitude.divided b.magnitude).map (ofSign (if a.sign = b.sign then .plus else .minus))

/-- `%`. -/
def remainder (a b : BigInt) : Option BigInt :=
  (a.magnitude.remainder b.magnitude).map (ofSign a.sign)

/-- `modulus(_:)`. -/
def modulus (a mod : BigInt) : Option BigInt :=
  (a.magnitude.remainder mod.magnitude).bind fun remainder =>
    if a.sign = .minus ∧ remainder.isZero = false then
      (mod.magnitude.subtract remainder 0).map fun m => ⟨m, .plus⟩
    else some ⟨remainder, .plus⟩

/-- `<`. -/
def lt (a b : BigInt) : Bool :=
  match a.sign, b.sign with
  | .plus, .plus => a.magnitude.lt b.magnitude
  | .plus, .minus => false
  | .minus, .plus => true
  | .minus, .minus => b.magnitude.lt a.magnitude

/-- `==`. -/
def eq (a b : BigInt) : Bool := a.sign == b.sign && a.magnitude.eq b.magnitude

/-! ## Integers -/

/-- The big integer of an integer. -/
def ofInt (n : Int) : BigInt := ofSign (if 0 ≤ n then .plus else .minus) (.ofNat n.natAbs)

theorem natAbs_signed (sign : Sign) (n : Nat) : (signed sign n).natAbs = n := by
  cases sign with
  | plus => exact Int.natAbs_natCast n
  | minus => rw [signed, Int.natAbs_neg, Int.natAbs_natCast]

theorem toInt_natAbs (a : BigInt) : a.toInt.natAbs = a.magnitude.toNat := natAbs_signed _ _

/-- A sign and a magnitude make the big integer of their integer. -/
theorem ofSign_eq (sign : Sign) (magnitude : BigUInt) :
    ofSign sign magnitude = ofInt (signed sign magnitude.toNat) := by
  rw [ofInt, natAbs_signed, ofNat_toNat]
  cases sign with
  | plus => rw [signed, if_pos (Int.natCast_nonneg _)]
  | minus =>
      unfold ofSign signed
      by_cases hzero : magnitude.isZero = true
      · rw [if_pos hzero, if_pos hzero]
      · rw [if_neg hzero, if_neg hzero]
        have hne : magnitude.toNat ≠ 0 := fun h => hzero ((isZero_iff magnitude).mpr h)
        have hneg : ¬ (0 : Int) ≤ -(magnitude.toNat : Int) := by omega
        simp only [if_neg hneg]

@[simp] theorem toInt_ofInt (n : Int) : (ofInt n).toInt = n := by
  rw [ofInt, toInt_ofSign, toNat_ofNat]
  split
  · simp only [signed]
    omega
  · simp only [signed]
    omega

/-- No minus sign on zero. -/
def IsCanonical (a : BigInt) : Prop := a.sign = .minus → a.magnitude.isZero = false

/-- A big integer without a minus sign on zero is the big integer of its integer. -/
theorem IsCanonical.eq_ofInt {a : BigInt} (h : a.IsCanonical) : a = ofInt a.toInt := by
  rw [toInt, ← ofSign_eq, ofSign]
  cases hzero : a.magnitude.isZero with
  | false => rfl
  | true =>
      cases hsign : a.sign with
      | plus =>
          rw [if_pos rfl, ← hsign]
      | minus =>
          have := h hsign
          rw [hzero] at this
          cases this

theorem isCanonical_ofInt (n : Int) : (ofInt n).IsCanonical := by
  unfold IsCanonical ofInt ofSign
  intro hminus
  cases hzero : (BigUInt.ofNat n.natAbs).isZero with
  | false => rfl
  | true =>
      simp only [hzero, if_true] at hminus
      cases hminus

/-- A natural number as a big integer with a plus sign. -/
theorem plus_ofNat (n : Nat) : (⟨ofNat n, .plus⟩ : BigInt) = ofInt (n : Int) := by
  rw [ofInt, if_pos (Int.natCast_nonneg n), Int.natAbs_natCast, ofSign, ite_self]

/-! ## Sums and differences -/

/-- A difference of magnitudes with the sign of their order. -/
theorem difference_signed (a b : BigUInt) :
    (if b.le a then (a.subtract b 0).map (ofSign .plus)
      else (b.subtract a 0).map (ofSign .minus)) =
        some (ofInt ((a.toNat : Int) - b.toNat)) := by
  by_cases hle : b.toNat ≤ a.toNat
  · rw [if_pos ((le_iff b a).mpr hle), subtract_eq, weight_zero, Nat.mul_one, if_pos hle,
      Option.map_some, ofSign_eq, toNat_ofNat, signed]
    congr 2
    omega
  · have hle' : a.toNat ≤ b.toNat := by omega
    rw [if_neg (fun h => hle ((le_iff b a).mp h)), subtract_eq, weight_zero, Nat.mul_one,
      if_pos hle', Option.map_some, ofSign_eq, toNat_ofNat, signed]
    congr 2
    omega

/-- The sum is the one of integers. -/
theorem add_eq (a b : BigInt) : a.add b = some (ofInt (a.toInt + b.toInt)) := by
  obtain ⟨x, s⟩ := a
  obtain ⟨y, t⟩ := b
  simp only [add, toInt]
  cases s with
  | plus =>
      cases t with
      | plus =>
          simp only [ofSign_eq, BigUInt.add_eq, toNat_ofNat, signed, weight_zero, Nat.mul_one]
          push_cast
          rfl
      | minus =>
          simp only [difference_signed, signed]
          rfl
  | minus =>
      cases t with
      | plus =>
          simp only [difference_signed, signed]
          congr 2
          omega
      | minus =>
          simp only [ofSign_eq, BigUInt.add_eq, toNat_ofNat, signed, weight_zero, Nat.mul_one]
          congr 2
          push_cast
          omega

@[simp] theorem toInt_negate (a : BigInt) : a.negate.toInt = -a.toInt := by
  obtain ⟨x, s⟩ := a
  unfold negate
  by_cases hzero : x.isZero = true
  · have hx := (isZero_iff x).mp hzero
    simp only [hzero, if_true, toInt, hx, signed_zero, Int.neg_zero]
  · cases s with
    | plus => simp [hzero, toInt, signed]
    | minus => simp [hzero, toInt, signed]

theorem subtract_eq (a b : BigInt) : a.subtract b = some (ofInt (a.toInt - b.toInt)) := by
  rw [subtract, add_eq, toInt_negate, Int.sub_eq_add_neg]

/-! ## Products and quotients -/

theorem signed_mul (s t : Sign) (m n : Nat) :
    signed (if s = t then .plus else .minus) (m * n) = signed s m * signed t n := by
  cases s with
  | plus => cases t <;> simp [signed]
  | minus => cases t <;> simp [signed]

/-- The product is the one of integers. -/
theorem multiplied_eq (limit : Int) (a b : BigInt) :
    a.multiplied limit b = some (ofInt (a.toInt * b.toInt)) := by
  rw [multiplied, BigUInt.multiplied_eq, Option.map_some, ofSign_eq, toNat_ofNat, signed_mul]
  rfl

theorem toInt_eq_zero_iff (a : BigInt) : a.toInt = 0 ↔ a.magnitude.toNat = 0 := by
  rw [toInt]
  cases a.sign with
  | plus => simp [signed]
  | minus => simp [signed]

theorem signed_div (s t : Sign) (m n : Nat) :
    signed (if s = t then .plus else .minus) (m / n) = (signed s m).tdiv (signed t n) := by
  cases s with
  | plus => cases t <;> simp [signed, Int.tdiv_neg]
  | minus => cases t <;> simp [signed, Int.tdiv_neg, Int.neg_tdiv]

theorem signed_mod (s t : Sign) (m n : Nat) :
    signed s (m % n) = (signed s m).tmod (signed t n) := by
  have hmod : ((m % n : Nat) : Int) = (m : Int).tmod n := Int.ofNat_tmod m n
  cases s with
  | plus => cases t <;> simp only [signed, hmod, Int.tmod_neg]
  | minus => cases t <;> simp only [signed, hmod, Int.tmod_neg, Int.neg_tmod]

/-- The division rounds towards zero, and stops the process for a zero divisor
only. -/
theorem quotientAndRemainder_eq (a b : BigInt) :
    a.quotientAndRemainder b =
      if b.toInt = 0 then none
      else some (ofInt (a.toInt.tdiv b.toInt), ofInt (a.toInt.tmod b.toInt)) := by
  rw [quotientAndRemainder, BigUInt.quotientAndRemainder_eq]
  simp only [toInt_eq_zero_iff]
  by_cases hzero : b.magnitude.toNat = 0
  · rw [if_pos hzero, if_pos hzero, Option.map_none]
  · rw [if_neg hzero, if_neg hzero, Option.map_some, ofSign_eq, ofSign_eq, toNat_ofNat,
      toNat_ofNat, signed_div, signed_mod a.sign b.sign]
    rfl

theorem divided_eq (a b : BigInt) :
    a.divided b = if b.toInt = 0 then none else some (ofInt (a.toInt.tdiv b.toInt)) := by
  rw [divided, BigUInt.divided_eq]
  simp only [toInt_eq_zero_iff]
  by_cases hzero : b.magnitude.toNat = 0
  · rw [if_pos hzero, if_pos hzero, Option.map_none]
  · rw [if_neg hzero, if_neg hzero, Option.map_some, ofSign_eq, toNat_ofNat, signed_div]
    rfl

theorem remainder_eq (a b : BigInt) :
    a.remainder b = if b.toInt = 0 then none else some (ofInt (a.toInt.tmod b.toInt)) := by
  rw [remainder, BigUInt.remainder_eq]
  simp only [toInt_eq_zero_iff]
  by_cases hzero : b.magnitude.toNat = 0
  · rw [if_pos hzero, if_pos hzero, Option.map_none]
  · rw [if_neg hzero, if_neg hzero, Option.map_some, ofSign_eq, toNat_ofNat,
      signed_mod a.sign b.sign]
    rfl

/-- The modulus of a negative dividend counts from the divisor down. -/
theorem neg_emod_nat (m n : Nat) (hn : n ≠ 0) :
    (-(m : Int)) % (n : Int) = if m % n = 0 then 0 else (n : Int) - ((m % n : Nat) : Int) := by
  have hdiv : (m : Int) = n * ((m / n : Nat) : Int) + ((m % n : Nat) : Int) := by
    exact_mod_cast (Nat.div_add_mod m n).symm
  have hlt : m % n < n := Nat.mod_lt m (Nat.pos_of_ne_zero hn)
  split
  · rename_i hzero
    exact Int.emod_eq_zero_of_dvd
      ((Int.dvd_neg).mpr (Int.natCast_dvd_natCast.mpr (Nat.dvd_of_mod_eq_zero hzero)))
  · have hsum : (-(m : Int)) =
        ((n : Int) - ((m % n : Nat) : Int)) + n * (-((m / n : Nat) : Int) - 1) := by
      rw [Int.mul_sub, Int.mul_neg, Int.mul_one]
      omega
    rw [hsum, Int.add_mul_emod_self_left]
    exact Int.emod_eq_of_lt (by omega) (by omega)

/-- The sign of the divisor does not matter. -/
theorem emod_toInt (n : Int) (mod : BigInt) :
    n % mod.toInt = n % (mod.magnitude.toNat : Int) := by
  rw [toInt]
  cases mod.sign with
  | plus => rw [signed]
  | minus => rw [signed, Int.emod_neg]

/-- The modulus is the remainder of the division that rounds down. -/
theorem modulus_eq (a mod : BigInt) :
    a.modulus mod = if mod.toInt = 0 then none else some (ofInt (a.toInt % mod.toInt)) := by
  rw [modulus, BigUInt.remainder_eq]
  simp only [toInt_eq_zero_iff]
  by_cases hzero : mod.magnitude.toNat = 0
  · rw [if_pos hzero, if_pos hzero, Option.bind_none]
  rw [if_neg hzero, if_neg hzero, Option.bind_some, emod_toInt]
  have hrest : (ofNat (a.magnitude.toNat % mod.magnitude.toNat)).isZero = false ↔
      a.magnitude.toNat % mod.magnitude.toNat ≠ 0 := by
    rw [← Bool.not_eq_true, isZero_iff, toNat_ofNat]
  rw [toInt]
  cases hs : a.sign with
  | plus =>
      rw [if_neg (by rintro ⟨h, -⟩; cases h), plus_ofNat, signed]
      rfl
  | minus =>
      rw [signed, neg_emod_nat _ _ hzero]
      by_cases hmod : a.magnitude.toNat % mod.magnitude.toNat = 0
      · rw [if_neg (fun h => hrest.mp h.2 hmod), if_pos hmod, hmod, plus_ofNat]
        rfl
      · have hlt := Nat.mod_lt a.magnitude.toNat (Nat.pos_of_ne_zero hzero)
        rw [if_pos ⟨rfl, hrest.mpr hmod⟩, if_neg hmod, BigUInt.subtract_eq, weight_zero,
          Nat.mul_one, toNat_ofNat, if_pos (Nat.le_of_lt hlt), Option.map_some, plus_ofNat,
          Int.ofNat_sub (Nat.le_of_lt hlt)]

/-! ## Comparisons -/

theorem eq_iff (a b : BigInt) : a.eq b = true ↔ a = b := by
  obtain ⟨x, s⟩ := a
  obtain ⟨y, t⟩ := b
  rw [eq, Bool.and_eq_true, BigUInt.eq_iff, beq_iff_eq, BigInt.mk.injEq]
  exact and_comm

/-- The order is the one of integers, but for a minus sign on zero. -/
theorem lt_iff {a b : BigInt} (ha : a.IsCanonical) : a.lt b = true ↔ a.toInt < b.toInt := by
  obtain ⟨x, s⟩ := a
  obtain ⟨y, t⟩ := b
  cases s with
  | plus =>
      cases t with
      | plus =>
          simp only [lt, toInt, signed, BigUInt.lt_iff]
          omega
      | minus =>
          simp only [lt, toInt, signed, Bool.false_eq_true, false_iff]
          omega
  | minus =>
      have hx : x.toNat ≠ 0 := fun h => by
        have hfalse := ha rfl
        rw [(isZero_iff x).mpr h] at hfalse
        cases hfalse
      cases t with
      | plus =>
          simp only [lt, toInt, signed, true_iff]
          omega
      | minus =>
          simp only [lt, toInt, signed, BigUInt.lt_iff]
          omega

end BigInt

end YieldMe

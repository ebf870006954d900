/-
  BigInt/ShiftOperators.lean --- the shift operators and their signed counts.

  A shift operator takes a count of either sign and shifts the other way for a
  negative one, by zero minus the count in the type of the count: the least value of a
  fixed width has no opposite there and stops the process.  Each operator exists twice:
  one builds a new number and one shifts in place.  The count of a shift to the left
  has to be a word; a count too large for a shift to the right of a magnitude gives
  zero.  A signed number shifts its magnitude, and a negative one never shifts to zero.
-/
import YieldMe.BigInt.Shifts
import YieldMe.BigInt.Signed

set_option autoImplicit false

namespace YieldMe

open BigUInt

/-! ## Counts -/

/-- A type of counts, by its least and its greatest value; `BigInt` has neither. -/
structure BinaryInteger where
  least : Option Int
  greatest : Option Int

namespace BinaryInteger

/-- The integers that are values of the type. -/
def Has (Other : BinaryInteger) (n : Int) : Prop :=
  (∀ l ∈ Other.least, l ≤ n) ∧ ∀ g ∈ Other.greatest, n ≤ g

instance (Other : BinaryInteger) : DecidablePred Other.Has := fun n =>
  inferInstanceAs (Decidable ((∀ l ∈ Other.least, l ≤ n) ∧ ∀ g ∈ Other.greatest, n ≤ g))

/-- The signed type of a width: `Int8`, `Int16` and so on. -/
def signed (width : Nat) : BinaryInteger where
  least := some (-(2 ^ (width - 1) : Nat))
  greatest := some ((2 ^ (width - 1) : Nat) - 1)

end BinaryInteger

/-- A count of a shift, as a value of its type. -/
structure Count (Other : BinaryInteger) where
  value : Int
  has : Other.Has value

namespace Count

variable {Other : BinaryInteger}

/-- `0 - rhs`, which stops the process where the type has no such value. -/
def opposite (rhs : Count Other) : Option (Count Other) :=
  if h : Other.Has (0 - rhs.value) then some ⟨0 - rhs.value, h⟩ else none

/-- What a shift operator does with its count: one way for itself, and the other way for
the opposite of a negative one. -/
def shift {α : Type} (rhs : Count Other) (along against : Nat → Option α) : Option α :=
  if rhs.value < 0 then rhs.opposite.bind fun rhs => against rhs.value.toNat
  else along rhs.value.toNat

/-- A count that no operator stops at for want of an opposite. -/
def HasOpposite (rhs : Count Other) : Prop :=
  rhs.value < 0 → Other.Has (-rhs.value)

instance (rhs : Count Other) : Decidable rhs.HasOpposite :=
  inferInstanceAs (Decidable (rhs.value < 0 → Other.Has (-rhs.value)))

theorem opposite_eq_some_iff (n m : Count Other) :
    n.opposite = some m ↔ m.value = -n.value := by
  rw [opposite, Int.zero_sub]
  constructor
  · intro h
    split at h
    · rw [← Option.some.inj h]
    · cases h
  · intro h
    have hhas := m.has
    rw [h] at hhas
    rw [dif_pos hhas]
    obtain ⟨value, has⟩ := m
    subst h
    rfl

theorem shift_eq {α : Type} (n : Count Other) (along against : Nat → Option α) :
    n.shift along against =
      if n.HasOpposite then
        (if n.value < 0 then against (-n.value).toNat else along n.value.toNat)
      else none := by
  rw [shift, opposite, Int.zero_sub]
  by_cases hneg : n.value < 0
  · rw [if_pos hneg]
    by_cases hhas : Other.Has (-n.value)
    · rw [dif_pos hhas, Option.bind_some, if_pos (show n.HasOpposite from fun _ => hhas),
        if_pos hneg]
    · have hnone : ¬ n.HasOpposite := fun h => hhas (h hneg)
      rw [dif_neg hhas, Option.bind_none, if_neg hnone]
  · have hopposite : n.HasOpposite := fun h => absurd h hneg
    rw [if_neg hneg, if_pos hopposite, if_neg hneg]

/-- What has an opposite in its type, and that opposite, stop no operator. -/
theorem hasOpposite_of_opposite {n m : Count Other} (h : m.value = -n.value) :
    n.HasOpposite ∧ m.HasOpposite := by
  have hm := m.has
  rw [h] at hm
  refine ⟨fun _ => hm, fun _ => ?_⟩
  rw [h, Int.neg_neg]
  exact n.has

end Count

variable {Other : BinaryInteger}

/-! ## Magnitudes -/

namespace BigUInt

/-- `<<` for a count that is not negative. -/
def shiftedLeftBy (lhs : BigUInt) (rhs : Nat) : Option BigUInt :=
  if rhs < 2 ^ 64 then some (lhs.shiftedLeft rhs) else none

/-- `>>` for a count that is not negative. -/
def shiftedRightBy (lhs : BigUInt) (rhs : Nat) : Option BigUInt :=
  if 2 ^ 64 ≤ rhs then some zero else some (lhs.shiftedRight rhs)

/-- `<<`. -/
def leftShifted (lhs : BigUInt) (rhs : Count Other) : Option BigUInt :=
  rhs.shift lhs.shiftedLeftBy lhs.shiftedRightBy

/-- `>>`. -/
def rightShifted (lhs : BigUInt) (rhs : Count Other) : Option BigUInt :=
  rhs.shift lhs.shiftedRightBy lhs.shiftedLeftBy

/-- `<<=` for a count that is not negative. -/
def shiftLeftBy (lhs : BigUInt) (rhs : Nat) : Option BigUInt :=
  if rhs < 2 ^ 64 then some (lhs.shiftLeft rhs) else none

/-- `>>=` for a count that is not negative. -/
def shiftRightBy (lhs : BigUInt) (rhs : Nat) : Option BigUInt :=
  if lhs.bitWidth ≤ rhs then some zero else some (lhs.shiftRight rhs)

/-- `<<=`. -/
def leftShift (lhs : BigUInt) (rhs : Count Other) : Option BigUInt :=
  rhs.shift lhs.shiftLeftBy lhs.shiftRightBy

/-- `>>=`. -/
def rightShift (lhs : BigUInt) (rhs : Count Other) : Option BigUInt :=
  rhs.shift lhs.shiftRightBy lhs.shiftLeftBy

/-- A number scaled by a power of two, rounded down; a power with no word for its
exponent stops the process. -/
def scaled (n : Nat) (exponent : Int) : Option BigUInt :=
  if exponent < 0 then some (ofNat (n / 2 ^ (-exponent).toNat))
  else if exponent.toNat < 2 ^ 64 then some (ofNat (n * 2 ^ exponent.toNat))
  else none

theorem shiftedLeftBy_eq (x : BigUInt) (n : Nat) :
    x.shiftedLeftBy n = if n < 2 ^ 64 then some (ofNat (x.toNat * 2 ^ n)) else none := by
  rw [shiftedLeftBy, shiftedLeft_eq]

theorem shiftLeftBy_eq (x : BigUInt) (n : Nat) :
    x.shiftLeftBy n = if n < 2 ^ 64 then some (ofNat (x.toNat * 2 ^ n)) else none := by
  rw [shiftLeftBy, shiftLeft_eq]

theorem ofNat_div_of_width {x : BigUInt} {n : Nat} (h : x.bitWidth ≤ n) :
    zero = ofNat (x.toNat / 2 ^ n) := by
  refine eq_ofNat ?_
  rw [toNat_zero, Nat.div_eq_of_lt (toNat_lt_two_pow_of_bitWidth_le h)]

/-- The clamp is no loss where a number has fewer bits than a word counts. -/
theorem shiftedRightBy_eq {x : BigUInt} (hwidth : x.bitWidth ≤ 2 ^ 64) (n : Nat) :
    x.shiftedRightBy n = some (ofNat (x.toNat / 2 ^ n)) := by
  rw [shiftedRightBy]
  by_cases hn : 2 ^ 64 ≤ n
  · rw [if_pos hn, ofNat_div_of_width (Nat.le_trans hwidth hn)]
  · rw [if_neg hn, shiftedRight_eq]

theorem shiftRightBy_eq (x : BigUInt) (n : Nat) :
    x.shiftRightBy n = some (ofNat (x.toNat / 2 ^ n)) := by
  rw [shiftRightBy]
  by_cases hn : x.bitWidth ≤ n
  · rw [if_pos hn, ofNat_div_of_width hn]
  · rw [if_neg hn, shiftRight_eq]

/-- Both operators to the left scale the number. -/
theorem leftShift_eq (x : BigUInt) (n : Count Other) :
    x.leftShift n = if n.HasOpposite then scaled x.toNat n.value else none := by
  rw [leftShift, Count.shift_eq, scaled, shiftRightBy_eq, shiftLeftBy_eq]

theorem leftShifted_eq {x : BigUInt} (hwidth : x.bitWidth ≤ 2 ^ 64) (n : Count Other) :
    x.leftShifted n = if n.HasOpposite then scaled x.toNat n.value else none := by
  rw [leftShifted, Count.shift_eq, scaled, shiftedRightBy_eq hwidth, shiftedLeftBy_eq]

theorem scaled_neg (m : Nat) (n : Int) :
    scaled m (-n) = if n < 0 then
      (if (-n).toNat < 2 ^ 64 then some (ofNat (m * 2 ^ (-n).toNat)) else none)
      else some (ofNat (m / 2 ^ n.toNat)) := by
  rw [scaled, Int.neg_neg]
  rcases Int.lt_trichotomy n 0 with hneg | rfl | hpos
  · rw [if_neg (by omega), if_pos hneg]
  · simp
  · rw [if_pos (by omega), if_neg (by omega)]

/-- Both operators to the right scale it by the opposite count. -/
theorem rightShift_eq (x : BigUInt) (n : Count Other) :
    x.rightShift n = if n.HasOpposite then scaled x.toNat (-n.value) else none := by
  rw [rightShift, Count.shift_eq, scaled_neg, shiftRightBy_eq, shiftLeftBy_eq]

theorem rightShifted_eq {x : BigUInt} (hwidth : x.bitWidth ≤ 2 ^ 64) (n : Count Other) :
    x.rightShifted n = if n.HasOpposite then scaled x.toNat (-n.value) else none := by
  rw [rightShifted, Count.shift_eq, scaled_neg, shiftedRightBy_eq hwidth, shiftedLeftBy_eq]

theorem rightShift_of_opposite (x : BigUInt) {n m : Count Other} (h : m.value = -n.value) :
    x.rightShift n = x.leftShift m := by
  obtain ⟨hn, hm⟩ := Count.hasOpposite_of_opposite h
  rw [rightShift_eq, leftShift_eq, if_pos hn, if_pos hm, h]

/-- The operators that build a number and those in place agree for counts of either sign
and every type.  They stop the process for a negative count without an opposite in its
type; for all others they scale the number, and a shift to the right is one to the left
by the opposite count. -/
theorem shifts_agree {x : BigUInt} (hwidth : x.bitWidth ≤ 2 ^ 64) (n : Count Other) :
    x.leftShifted n = x.leftShift n ∧ x.rightShifted n = x.rightShift n ∧
      x.leftShift n = (if n.HasOpposite then scaled x.toNat n.value else none) ∧
      x.rightShift n = (if n.HasOpposite then scaled x.toNat (-n.value) else none) ∧
      ∀ m, n.opposite = some m → x.rightShift n = x.leftShift m := by
  rw [leftShifted_eq hwidth, rightShifted_eq hwidth, leftShift_eq, rightShift_eq]
  refine ⟨rfl, rfl, rfl, rfl, fun m hm => ?_⟩
  rw [← rightShift_eq]
  exact rightShift_of_opposite x ((Count.opposite_eq_some_iff n m).mp hm)

/-- The least value of `Int8`, which has no opposite there. -/
def leastInt8 : Count (.signed 8) := ⟨-128, by decide⟩

theorem shifts_agree_two_words :
    (ofWords [5, 1]).leftShifted leastInt8 = (ofWords [5, 1]).leftShift leastInt8 ∧
      (ofWords [5, 1]).rightShifted leastInt8 = (ofWords [5, 1]).rightShift leastInt8 ∧
      (ofWords [5, 1]).leftShift leastInt8 =
        (if leastInt8.HasOpposite then scaled (ofWords [5, 1]).toNat leastInt8.value else none) ∧
      (ofWords [5, 1]).rightShift leastInt8 =
        (if leastInt8.HasOpposite then scaled (ofWords [5, 1]).toNat (-leastInt8.value)
          else none) ∧
      ∀ m, leastInt8.opposite = some m →
        (ofWords [5, 1]).rightShift leastInt8 = (ofWords [5, 1]).leftShift m :=
  shifts_agree (by decide) leastInt8

example : (ofWords [5, 1]).leftShift leastInt8 = none := by decide

end BigUInt

/-! ## Signed numbers -/

namespace BigInt

/-- `shiftedLeft(by:)`. -/
def shiftedLeft (a : BigInt) (amount : Nat) : BigInt :=
  ofSign a.sign (a.magnitude.shiftedLeft amount)

/-- `shiftLeft(by:)`. -/
def shiftLeft (a : BigInt) (amount : Nat) : BigInt :=
  { a with magnitude := a.magnitude.shiftLeft amount }

/-- `shiftedRight(by:)`. -/
def shiftedRight (a : BigInt) (amount : Nat) : BigInt :=
  let m := a.magnitude.shiftedRight amount
  ofSign a.sign (if a.sign = .minus ∧ m.isZero = true then .ofWord 1 else m)

/-- `shiftRight(by:)`. -/
def shiftRight (a : BigInt) (amount : Nat) : BigInt :=
  let m := a.magnitude.shiftRight amount
  if a.sign = .minus ∧ m.isZero = true then { a with magnitude := .ofWord 1 }
  else { a with magnitude := m }

/-- The count of a shift operator, which has to be a word. -/
def counted (shift : Nat → BigInt) (rhs : Nat) : Option BigInt :=
  if rhs < 2 ^ 64 then some (shift rhs) else none

/-- `<<`. -/
def leftShifted (lhs : BigInt) (rhs : Count Other) : Option BigInt :=
  rhs.shift (counted lhs.shiftedLeft) (counted lhs.shiftedRight)

/-- `>>`. -/
def rightShifted (lhs : BigInt) (rhs : Count Other) : Option BigInt :=
  rhs.shift (counted lhs.shiftedRight) (counted lhs.shiftedLeft)

/-- `<<=`. -/
def leftShift (lhs : BigInt) (rhs : Count Other) : Option BigInt :=
  rhs.shift (counted lhs.shiftLeft) (counted lhs.shiftRight)

/-- `>>=`. -/
def rightShift (lhs : BigInt) (rhs : Count Other) : Option BigInt :=
  rhs.shift (counted lhs.shiftRight) (counted lhs.shiftLeft)

/-- A shift to the right rounds towards zero, and stops at minus one. -/
def halved (z : Int) (amount : Nat) : Int :=
  if z < 0 ∧ z.tdiv (2 ^ amount : Nat) = 0 then -1 else z.tdiv (2 ^ amount : Nat)

/-- A number in place is the canonical one with its integer. -/
theorem eq_ofInt_of_signed {s : Sign} {m : BigUInt} {z : Int} (h : signed s m.toNat = z)
    (hcanonical : s = .minus → m.toNat ≠ 0) : (⟨m, s⟩ : BigInt) = ofInt z := by
  have hc : IsCanonical ⟨m, s⟩ := by
    intro hs
    have hne := hcanonical hs
    rwa [← Bool.not_eq_true, isZero_iff]
  rw [hc.eq_ofInt]
  congr 1

theorem IsCanonical.ne_zero {a : BigInt} (h : a.IsCanonical) (hs : a.sign = .minus) :
    a.magnitude.toNat ≠ 0 := by
  intro hzero
  have hfalse := h hs
  rw [(isZero_iff a.magnitude).mpr hzero] at hfalse
  cases hfalse

theorem signed_mul_two_pow (s : Sign) (m n : Nat) :
    signed s (m * 2 ^ n) = signed s m * (2 ^ n : Nat) := by
  have h := signed_mul s .plus m (2 ^ n)
  cases s with
  | plus => exact h
  | minus => exact h

theorem shiftedLeft_eq (a : BigInt) (n : Nat) :
    a.shiftedLeft n = ofInt (a.toInt * (2 ^ n : Nat)) := by
  rw [shiftedLeft, BigUInt.shiftedLeft_eq, ofSign_eq, toNat_ofNat, signed_mul_two_pow]
  rfl

theorem shiftLeft_eq {a : BigInt} (ha : a.IsCanonical) (n : Nat) :
    a.shiftLeft n = ofInt (a.toInt * (2 ^ n : Nat)) := by
  rw [shiftLeft, BigUInt.shiftLeft_eq]
  refine eq_ofInt_of_signed ?_ fun hs => ?_
  · rw [toNat_ofNat, signed_mul_two_pow]
    rfl
  · rw [toNat_ofNat]
    exact Nat.mul_ne_zero (ha.ne_zero hs) (Nat.ne_of_gt (Nat.two_pow_pos n))

theorem signed_div_two_pow (s : Sign) (m n : Nat) :
    signed s (m / 2 ^ n) = (signed s m).tdiv (2 ^ n : Nat) := by
  have h := signed_div s .plus m (2 ^ n)
  cases s with
  | plus => exact h
  | minus => exact h

theorem halved_signed (s : Sign) {m : Nat} (hs : s = .minus → m ≠ 0) (n : Nat) :
    halved (signed s m) n =
      if s = .minus ∧ m / 2 ^ n = 0 then -1 else signed s (m / 2 ^ n) := by
  rw [halved, ← signed_div_two_pow]
  cases s with
  | plus => rw [if_neg (by rintro ⟨h, -⟩; simp only [signed] at h; omega),
      if_neg (by rintro ⟨h, -⟩; cases h)]
  | minus =>
      have hm := hs rfl
      have hneg : signed .minus m < 0 := by
        rw [signed]
        omega
      have hzero : signed .minus (m / 2 ^ n) = 0 ↔ m / 2 ^ n = 0 := by
        rw [signed]
        omega
      simp only [hneg, hzero, true_and]

theorem shiftedRight_eq {a : BigInt} (ha : a.IsCanonical) (n : Nat) :
    a.shiftedRight n = ofInt (halved a.toInt n) := by
  rw [shiftedRight, BigUInt.shiftedRight_eq, toInt, halved_signed _ ha.ne_zero]
  simp only [isZero_iff, toNat_ofNat]
  split
  · rename_i h
    rw [ofSign_eq, toNat_ofWord, h.1]
    rfl
  · rw [ofSign_eq, toNat_ofNat]

theorem shiftRight_eq {a : BigInt} (ha : a.IsCanonical) (n : Nat) :
    a.shiftRight n = ofInt (halved a.toInt n) := by
  rw [shiftRight, BigUInt.shiftRight_eq, toInt, halved_signed _ ha.ne_zero]
  simp only [isZero_iff, toNat_ofNat]
  split
  · rename_i h
    refine eq_ofInt_of_signed ?_ fun _ => ?_
    · rw [toNat_ofWord, h.1]
      rfl
    · rw [toNat_ofWord]
      exact Nat.one_ne_zero
  · rename_i h
    refine eq_ofInt_of_signed (by rw [toNat_ofNat]) fun hs hzero => h ⟨hs, ?_⟩
    rwa [toNat_ofNat] at hzero

theorem halved_zero (z : Int) : halved z 0 = z := by
  rw [halved, Nat.pow_zero, Int.natCast_one, Int.tdiv_one]
  split
  · omega
  · rfl

/-- An integer scaled by a power of two, with the rounding of the shifts; an exponent
that is no word in size stops the process. -/
def scaled (z : Int) (exponent : Int) : Option BigInt :=
  if exponent.natAbs < 2 ^ 64 then
    some (ofInt
      (if exponent < 0 then halved z exponent.natAbs else z * (2 ^ exponent.natAbs : Nat)))
  else none

theorem scaled_left {z n : Int} (h : ¬ n < 0) :
    scaled z n = if n.toNat < 2 ^ 64 then some (ofInt (z * (2 ^ n.toNat : Nat))) else none := by
  have habs : n.natAbs = n.toNat := by omega
  rw [scaled, if_neg h, habs]

theorem scaled_right {z n : Int} (h : ¬ n < 0) :
    scaled z (-n) = if n.toNat < 2 ^ 64 then some (ofInt (halved z n.toNat)) else none := by
  have habs : (-n).natAbs = n.toNat := by omega
  rw [scaled, habs]
  by_cases hzero : n = 0
  · rw [hzero]
    simp [halved_zero]
  · rw [if_pos (show -n < 0 by omega)]

theorem counted_eq {shift : Nat → BigInt} {result : Nat → Int}
    (h : ∀ n, shift n = ofInt (result n)) (n : Nat) :
    counted shift n = if n < 2 ^ 64 then some (ofInt (result n)) else none := by
  rw [counted, h]

variable {a : BigInt}

/-- An operator made of a shift to the left and one to the right scales the integer. -/
theorem operator_left {left right : Nat → BigInt}
    (hleft : ∀ n, left n = ofInt (a.toInt * (2 ^ n : Nat)))
    (hright : ∀ n, right n = ofInt (halved a.toInt n)) (n : Count Other) :
    n.shift (counted left) (counted right) =
      if n.HasOpposite then scaled a.toInt n.value else none := by
  rw [Count.shift_eq]
  congr 1
  by_cases hneg : n.value < 0
  · rw [if_pos hneg, counted_eq hright, ← scaled_right (by omega), Int.neg_neg]
  · rw [if_neg hneg, counted_eq hleft, scaled_left hneg]

theorem operator_right {left right : Nat → BigInt}
    (hleft : ∀ n, left n = ofInt (a.toInt * (2 ^ n : Nat)))
    (hright : ∀ n, right n = ofInt (halved a.toInt n)) (n : Count Other) :
    n.shift (counted right) (counted left) =
      if n.HasOpposite then scaled a.toInt (-n.value) else none := by
  rw [Count.shift_eq]
  congr 1
  by_cases hneg : n.value < 0
  · rw [if_pos hneg, counted_eq hleft, ← scaled_left (by omega)]
  · rw [if_neg hneg, counted_eq hright, scaled_right hneg]

theorem leftShifted_eq (ha : a.IsCanonical) (n : Count Other) :
    a.leftShifted n = if n.HasOpposite then scaled a.toInt n.value else none :=
  operator_left a.shiftedLeft_eq (shiftedRight_eq ha) n

theorem rightShifted_eq (ha : a.IsCanonical) (n : Count Other) :
    a.rightShifted n = if n.HasOpposite then scaled a.toInt (-n.value) else none :=
  operator_right a.shiftedLeft_eq (shiftedRight_eq ha) n

theorem leftShift_eq (ha : a.IsCanonical) (n : Count Other) :
    a.leftShift n = if n.HasOpposite then scaled a.toInt n.value else none :=
  operator_left (shiftLeft_eq ha) (shiftRight_eq ha) n

theorem rightShift_eq (ha : a.IsCanonical) (n : Count Other) :
    a.rightShift n = if n.HasOpposite then scaled a.toInt (-n.value) else none :=
  operator_right (shiftLeft_eq ha) (shiftRight_eq ha) n

theorem rightShift_of_opposite (ha : a.IsCanonical) {n m : Count Other}
    (h : m.value = -n.value) : a.rightShift n = a.leftShift m := by
  obtain ⟨hn, hm⟩ := Count.hasOpposite_of_opposite h
  rw [rightShift_eq ha, leftShift_eq ha, if_pos hn, if_pos hm, h]

end BigInt

end YieldMe

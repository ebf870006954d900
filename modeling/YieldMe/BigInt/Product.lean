/-
  BigInt/Product.lean --- products of unsigned big integers.

  `multiplyAndAdd` multiplies by one word and adds the product in the same loop,
  with a carry of each kind.  A product of two operands is a sum of such rows,
  unless both have more words than a limit: then an operand that is longer than
  the other is split, and operands of one length are multiplied by three products
  of their halves.  The limit is a variable of the package that its users may
  set, so that the product is taken for every limit.
-/
import YieldMe.BigInt.Addition

set_option autoImplicit false

namespace YieldMe

open Loop

namespace BigUInt

/-! ## Rows -/

/-- Where the loop of `multiplyAndAdd` is: the integer it writes, the carry of the
product, the carry of the sum and the index of the next word. -/
structure RowLoop where
  value : BigUInt
  mulCarry : Word
  addCarry : Bool
  xi : Nat

/-- The body of the loop of `multiplyAndAdd(_:_:shiftedBy:)`. -/
def multiplyAndAddRound (x : BigUInt) (y : Word) (shift : Nat) (s : RowLoop) : RowLoop :=
  let (h, l) := (x.get s.xi).multipliedFullWidth y
  let (low, o) := l.addingReportingOverflow s.mulCarry
  let ai := shift + s.xi
  let (sum, c) := (s.value.get ai).addingCarry low s.addCarry
  ⟨s.value.set ai sum, if o then h + 1 else h, c, s.xi + 1⟩

/-- `multiplyAndAdd(_:_:shiftedBy:)`. -/
def multiplyAndAdd (a x : BigUInt) (y : Word) (shift : Nat) : BigUInt :=
  if y = 0 ∨ x.count = 0 then a
  else if y = 1 then a.add x shift
  else
    (whileDo (fun s => decide (s.xi < x.count) || s.addCarry || decide (0 < s.mulCarry))
      (multiplyAndAddRound x y shift) (max a.count (shift + x.count + 1) + 1)
      ⟨a, 0, false, 0⟩).value

/-- The sum so far, the carries and the words to come. -/
def RowInvariant (x : BigUInt) (y : Word) (shift total : Nat) (s : RowLoop) : Prop :=
  s.value.toNat + (x.toNat / weight s.xi * y.toNat + s.mulCarry.toNat + s.addCarry.toNat) *
    weight (shift + s.xi) = total

theorem RowInvariant.round {x : BigUInt} {y : Word} {shift total : Nat} {s : RowLoop}
    (h : RowInvariant x y shift total s) :
    RowInvariant x y shift total (multiplyAndAddRound x y shift s) := by
  have hproduct := Word.multiply_round (x.get s.xi) y s.mulCarry
  simp only at hproduct
  unfold RowInvariant at h ⊢
  rw [div_weight x s.xi] at h
  simp only [multiplyAndAddRound, ← Nat.add_assoc]
  generalize (((x.get s.xi).multipliedFullWidth y).2.addingReportingOverflow s.mulCarry).1 =
    low at hproduct ⊢
  generalize (if (((x.get s.xi).multipliedFullWidth y).2.addingReportingOverflow
    s.mulCarry).2 = true then _ else _ : Word) = carry at hproduct ⊢
  have hset := toNat_set s.value (shift + s.xi)
    ((s.value.get (shift + s.xi)).addingCarry low s.addCarry).1
  have hword := Word.addingCarry_spec (s.value.get (shift + s.xi)) low s.addCarry
  have hscaled := congrArg (· * weight (shift + s.xi)) hword
  have hscaled' := congrArg (· * weight (shift + s.xi)) hproduct
  rw [weight_succ (shift + s.xi)]
  linarith

/-- A carry has room below the number of words reserved for the row. -/
theorem RowInvariant.lt {x : BigUInt} {y : Word} {shift total n : Nat} {s : RowLoop}
    (h : RowInvariant x y shift total s) (htotal : total < weight n)
    (hx : shift + x.count ≤ n)
    (hguard : (decide (s.xi < x.count) || s.addCarry || decide (0 < s.mulCarry)) = true) :
    shift + s.xi < n := by
  by_cases hbelow : s.xi < x.count
  · omega
  · apply lt_of_weight_lt
    unfold RowInvariant at h
    have hcarry : 0 < s.mulCarry.toNat + s.addCarry.toNat := by
      rw [decide_eq_false hbelow, Bool.false_or, Bool.or_eq_true_iff] at hguard
      rcases hguard with hadd | hmul
      · rw [hadd, Bool.toNat_true]
        omega
      · rw [decide_eq_true_eq, UInt64.lt_iff_toNat_lt, UInt64.toNat_zero] at hmul
        omega
    have hle := Nat.le_mul_of_pos_left (weight (shift + s.xi))
      (show 0 < x.toNat / weight s.xi * y.toNat + s.mulCarry.toNat + s.addCarry.toNat by omega)
    omega

/-- The row is exact. -/
theorem multiplyAndAdd_eq (a x : BigUInt) (y : Word) (shift : Nat) :
    a.multiplyAndAdd x y shift = ofNat (a.toNat + x.toNat * y.toNat * weight shift) := by
  rw [multiplyAndAdd]
  by_cases hzero : y = 0 ∨ x.count = 0
  · have hproduct : x.toNat * y.toNat = 0 := by
      rcases hzero with hy | hx
      · rw [hy, UInt64.toNat_zero, Nat.mul_zero]
      · rw [(count_eq_zero_iff x).mp hx, Nat.zero_mul]
    rw [if_pos hzero, hproduct, Nat.zero_mul, Nat.add_zero, ofNat_toNat]
  · rw [if_neg hzero]
    by_cases hone : y = 1
    · rw [if_pos hone, hone, add_eq, UInt64.toNat_one, Nat.mul_one]
    · rw [if_neg hone]
      have htotal : a.toNat + x.toNat * y.toNat * weight shift <
          weight (max a.count (shift + x.count + 1) + 1) := by
        have ha := Nat.lt_of_lt_of_le a.toNat_lt_weight
          (weight_le (Nat.le_max_left a.count (shift + x.count + 1)))
        have hrow : x.toNat * y.toNat * weight shift <
            weight (max a.count (shift + x.count + 1)) := by
          refine Nat.lt_of_lt_of_le ?_
            (weight_le (Nat.le_max_right a.count (shift + x.count + 1)))
          rw [weight_succ, Nat.add_comm shift, weight_add, ← Nat.mul_assoc]
          refine Nat.mul_lt_mul_of_pos_right ?_ (weight_pos shift)
          rw [Nat.mul_comm (2 ^ 64)]
          exact Nat.mul_lt_mul_of_lt_of_le x.toNat_lt_weight (Nat.le_of_lt y.toNat_lt)
            (by decide)
        have hdouble := weight_double_le (max a.count (shift + x.count + 1))
        omega
      obtain ⟨hend, hguard⟩ := whileDo_rule
        (RowInvariant x y shift (a.toNat + x.toNat * y.toNat * weight shift))
        (fun s => max a.count (shift + x.count + 1) + 1 - (shift + s.xi))
        (f := multiplyAndAddRound x y shift)
        (g := fun s => decide (s.xi < x.count) || s.addCarry || decide (0 < s.mulCarry))
        (fun s h hguard => ⟨h.round, by
          have hlt := h.lt htotal (by omega) hguard
          simp only [multiplyAndAddRound]
          omega⟩)
        (max a.count (shift + x.count + 1) + 1) ⟨a, 0, false, 0⟩
        (by simp [RowInvariant]) (Nat.sub_le _ _)
      generalize whileDo _ (multiplyAndAddRound x y shift) _ _ = s at hend hguard ⊢
      rw [Bool.or_eq_false_iff, Bool.or_eq_false_iff, decide_eq_false_iff_not,
        decide_eq_false_iff_not, UInt64.lt_iff_toNat_lt, UInt64.toNat_zero, Nat.not_lt,
        Nat.not_lt, Nat.le_zero] at hguard
      unfold RowInvariant at hend
      rw [hguard.1.2, hguard.2, Nat.div_eq_of_lt
        (Nat.lt_of_lt_of_le x.toNat_lt_weight (weight_le hguard.1.1)), Nat.zero_mul,
        Bool.toNat_false, Nat.add_zero, Nat.zero_mul, Nat.add_zero] at hend
      exact eq_ofNat hend

/-! ## Products -/

/-- `middleIndex`. -/
def middleIndex (x : BigUInt) : Nat := (x.count + 1) / 2

/-- `split`: the words from the middle index up, and the words below it. -/
def split (x : BigUInt) : BigUInt × BigUInt :=
  (x.extract x.middleIndex x.count, x.extract 0 x.middleIndex)

/-- Long multiplication: the rows of the longer operand, from the top word of the
other one down. -/
def longMultiplication (x y : BigUInt) : BigUInt :=
  let left := if x.count < y.count then y else x
  let right := if x.count < y.count then x else y
  (List.range right.count).foldr (fun i result => result.multiplyAndAdd left (right.get i) i) zero

/-- The difference of two parts, by their order: `xp ? a - b : b - a`. -/
def difference (ge : Bool) (a b : BigUInt) : Option BigUInt :=
  if ge then a.subtract b 0 else b.subtract a 0

/-- Karatsuba's sum of the three products, with the middle one of the differences
`a - b` and `c - d` taken by their signs. -/
def karatsubaSum (high low m : BigUInt) (xp yp : Bool) (shift : Nat) : Option BigUInt :=
  let r := low.add high (2 * shift)
  let r := r.add low shift
  let r := r.add high shift
  if xp = yp then r.subtract m shift else some (r.add m shift)

section Limit

variable (directMultiplicationLimit : Int)

/-- `*`, for at most the given number of nested calls. -/
def multiplyDeep : Nat → BigUInt → BigUInt → Option BigUInt
  | 0, _, _ => none
  | depth + 1, x, y =>
      let xc := x.count
      let yc := y.count
      if xc = 0 then some zero
      else if yc = 0 then some zero
      else if yc = 1 then some (x.multiply (y.get 0))
      else if xc = 1 then some (y.multiply (x.get 0))
      else if (min xc yc : Int) ≤ directMultiplicationLimit then some (longMultiplication x y)
      else if yc < xc then do
        let r ← multiplyDeep depth x.split.2 y
        let h ← multiplyDeep depth x.split.1 y
        some (r.add h x.middleIndex)
      else if xc < yc then do
        let r ← multiplyDeep depth y.split.2 x
        let h ← multiplyDeep depth y.split.1 x
        some (r.add h y.middleIndex)
      else do
        let high ← multiplyDeep depth x.split.1 y.split.1
        let low ← multiplyDeep depth x.split.2 y.split.2
        let xp := x.split.2.le x.split.1
        let yp := y.split.2.le y.split.1
        let xm ← difference xp x.split.1 x.split.2
        let ym ← difference yp y.split.1 y.split.2
        let m ← multiplyDeep depth xm ym
        karatsubaSum high low m xp yp x.middleIndex

/-- `*`: every nested call has fewer words. -/
def multiplied (x y : BigUInt) : Option BigUInt :=
  multiplyDeep directMultiplicationLimit (x.count + y.count + 1) x y

end Limit

/-- Every row adds its share. -/
theorem longMultiplication_eq (x y : BigUInt) :
    longMultiplication x y = ofNat (x.toNat * y.toNat) := by
  have hrows : ∀ left right : BigUInt,
      (List.range right.count).foldr
        (fun i result => result.multiplyAndAdd left (right.get i) i) zero =
          ofNat (left.toNat * right.toNat) := by
    intro left right
    have hend := foldr_range_rule
      (fun i (result : BigUInt) =>
        result.toNat = left.toNat * (right.toNat / weight i * weight i))
      (n := right.count) (s := zero)
      (f := fun i result => result.multiplyAndAdd left (right.get i) i)
      (by simp [Nat.div_eq_of_lt right.toNat_lt_weight]) (fun i result _ h => by
        rw [multiplyAndAdd_eq, toNat_ofNat, h, div_weight right i, weight_succ]
        ring)
    rw [weight_zero, Nat.div_one, Nat.mul_one] at hend
    exact eq_ofNat hend
  rw [longMultiplication]
  by_cases hless : x.count < y.count
  · simp only [if_pos hless]
    rw [hrows, Nat.mul_comm]
  · simp only [if_neg hless]
    exact hrows x y

/-! ## The two halves -/

@[simp] theorem toNat_split_high (x : BigUInt) :
    x.split.1.toNat = x.toNat / weight x.middleIndex := by
  rw [split, toNat_extract, Nat.mod_eq_of_lt x.toNat_lt_weight]

@[simp] theorem toNat_split_low (x : BigUInt) :
    x.split.2.toNat = x.toNat % weight x.middleIndex := by
  rw [split, toNat_extract, weight_zero, Nat.div_one]

theorem toNat_split (x : BigUInt) :
    x.split.1.toNat * weight x.middleIndex + x.split.2.toNat = x.toNat := by
  rw [toNat_split_high, toNat_split_low, Nat.div_add_mod']

theorem count_split_high {x : BigUInt} (h : 1 < x.count) : x.split.1.count < x.count := by
  have hlt : x.split.1.toNat < weight (x.count - x.middleIndex) := by
    rw [toNat_split_high, Nat.div_lt_iff_lt_mul (weight_pos _), ← weight_add]
    refine Nat.lt_of_lt_of_le x.toNat_lt_weight (weight_le ?_)
    omega
  have hle := count_le_of_lt hlt
  unfold middleIndex at hle
  omega

theorem split_low_lt (x : BigUInt) : x.split.2.toNat < weight x.middleIndex := by
  rw [toNat_split_low]
  exact Nat.mod_lt _ (weight_pos _)

theorem count_split_low {x : BigUInt} (h : 1 < x.count) : x.split.2.count < x.count := by
  have hle := count_le_of_lt x.split_low_lt
  unfold middleIndex at hle
  omega

/-- A number at most a part has no more words than the part. -/
theorem count_le_count {x y : BigUInt} (h : x.toNat ≤ y.toNat) : x.count ≤ y.count :=
  count_le_of_lt (Nat.lt_of_le_of_lt h y.toNat_lt_weight)

/-- The difference of two numbers, the smaller from the larger. -/
theorem difference_eq (a b : BigUInt) :
    difference (b.le a) a b =
      some (ofNat (if b.toNat ≤ a.toNat then a.toNat - b.toNat else b.toNat - a.toNat)) := by
  unfold difference
  by_cases hle : b.toNat ≤ a.toNat
  · rw [if_pos ((le_iff b a).mpr hle), if_pos hle, subtract_eq, weight_zero, Nat.mul_one,
      if_pos hle]
  · have hle' : a.toNat ≤ b.toNat := by omega
    rw [if_neg (fun h => hle ((le_iff b a).mp h)), if_neg hle, subtract_eq, weight_zero,
      Nat.mul_one, if_pos hle']

/-- The cross terms of a product of two sums, by the differences of the terms. -/
theorem cross_eq (a b c d : Nat) :
    if decide (b ≤ a) = decide (d ≤ c) then
      b * d + a * c = a * d + b * c +
        (if b ≤ a then a - b else b - a) * (if d ≤ c then c - d else d - c)
    else
      b * d + a * c + (if b ≤ a then a - b else b - a) * (if d ≤ c then c - d else d - c) =
        a * d + b * c := by
  by_cases hab : b ≤ a
  · obtain ⟨m, rfl⟩ := Nat.exists_eq_add_of_le hab
    by_cases hcd : d ≤ c
    · obtain ⟨n, rfl⟩ := Nat.exists_eq_add_of_le hcd
      simp only [hab, hcd, if_true, Nat.add_sub_cancel_left]
      ring
    · obtain ⟨n, rfl⟩ := Nat.exists_eq_add_of_le (Nat.le_of_not_le hcd)
      simp only [hab, hcd, decide_true, decide_false, Bool.true_eq_false, if_true, if_false,
        Nat.add_sub_cancel_left]
      ring
  · obtain ⟨m, rfl⟩ := Nat.exists_eq_add_of_le (Nat.le_of_not_le hab)
    by_cases hcd : d ≤ c
    · obtain ⟨n, rfl⟩ := Nat.exists_eq_add_of_le hcd
      simp only [hab, hcd, decide_true, decide_false, Bool.false_eq_true, if_true, if_false,
        Nat.add_sub_cancel_left]
      ring
    · obtain ⟨n, rfl⟩ := Nat.exists_eq_add_of_le (Nat.le_of_not_le hcd)
      simp only [hab, hcd, if_true, if_false, Nat.add_sub_cancel_left]
      ring

theorem count_difference_le (a b : BigUInt) :
    (ofNat (if b.toNat ≤ a.toNat then a.toNat - b.toNat else b.toNat - a.toNat)).count ≤
      max a.count b.count := by
  split
  · exact Nat.le_trans (count_le_count (by rw [toNat_ofNat]; omega)) (Nat.le_max_left _ _)
  · exact Nat.le_trans (count_le_count (by rw [toNat_ofNat]; omega)) (Nat.le_max_right _ _)

/-- Karatsuba's identity, with the middle product taken by the signs of the two
differences. -/
theorem karatsubaSum_eq (a b c d shift : Nat) :
    karatsubaSum (ofNat (a * c)) (ofNat (b * d))
      (ofNat ((if b ≤ a then a - b else b - a) * (if d ≤ c then c - d else d - c)))
      (decide (b ≤ a)) (decide (d ≤ c)) shift =
        some (ofNat ((a * weight shift + b) * (c * weight shift + d))) := by
  have hcross := cross_eq a b c d
  have hsquare : weight (2 * shift) = weight shift * weight shift := by
    rw [Nat.two_mul, weight_add]
  simp only [karatsubaSum, add_eq, subtract_eq, toNat_ofNat, hsquare]
  generalize (if b ≤ a then a - b else b - a) * (if d ≤ c then c - d else d - c) = m
    at hcross ⊢
  generalize weight shift = w
  have hproduct : (a * w + b) * (c * w + d) =
      b * d + a * c * (w * w) + (a * d + b * c) * w := by ring
  rw [hproduct]
  by_cases hsigns : decide (b ≤ a) = decide (d ≤ c)
  · rw [if_pos hsigns] at hcross ⊢
    have hsum : b * d + a * c * (w * w) + b * d * w + a * c * w =
        b * d + a * c * (w * w) + (a * d + b * c) * w + m * w := by
      rw [Nat.add_assoc _ (b * d * w), ← Nat.add_mul, hcross]
      ring
    rw [hsum, if_pos (Nat.le_add_left _ _), Nat.add_sub_cancel]
  · rw [if_neg hsigns] at hcross ⊢
    rw [Nat.add_assoc _ (b * d * w), ← Nat.add_mul, Nat.add_assoc, ← Nat.add_mul, hcross]

/-! ## The product -/

/-- The halves of two operands of one length, their products and the sum. -/
theorem karatsuba_eq {x y : BigUInt} (hcount : x.count = y.count) :
    karatsubaSum (ofNat (x.split.1.toNat * y.split.1.toNat))
      (ofNat (x.split.2.toNat * y.split.2.toNat))
      (ofNat ((if x.split.2.toNat ≤ x.split.1.toNat then
          x.split.1.toNat - x.split.2.toNat else x.split.2.toNat - x.split.1.toNat) *
        (if y.split.2.toNat ≤ y.split.1.toNat then
          y.split.1.toNat - y.split.2.toNat else y.split.2.toNat - y.split.1.toNat)))
      (x.split.2.le x.split.1) (y.split.2.le y.split.1) x.middleIndex =
        some (ofNat (x.toNat * y.toNat)) := by
  have hmiddle : y.middleIndex = x.middleIndex := by
    rw [middleIndex, middleIndex, hcount]
  have hx : x.split.2.le x.split.1 = decide (x.split.2.toNat ≤ x.split.1.toNat) :=
    Bool.eq_iff_iff.mpr (by rw [le_iff, decide_eq_true_eq])
  have hy : y.split.2.le y.split.1 = decide (y.split.2.toNat ≤ y.split.1.toNat) :=
    Bool.eq_iff_iff.mpr (by rw [le_iff, decide_eq_true_eq])
  have hysplit := toNat_split y
  rw [hmiddle] at hysplit
  rw [hx, hy, karatsubaSum_eq, toNat_split, hysplit]

theorem multiply_eq (x : BigUInt) (y : Word) : x.multiply y = ofNat (x.toNat * y.toNat) :=
  eq_ofNat (toNat_multiply x y)

/-- The two products of an operand split against one that is not. -/
theorem splitProduct_eq (x y : BigUInt) :
    (ofNat (x.split.2.toNat * y.toNat)).add (ofNat (x.split.1.toNat * y.toNat)) x.middleIndex =
      ofNat (x.toNat * y.toNat) := by
  rw [add_eq, toNat_ofNat, toNat_ofNat]
  conv_rhs => rw [← toNat_split x]
  congr 1
  ring

/-- Every call is exact if the calls may nest deep enough.  A call from a branch
that splits an operand has fewer words. -/
theorem multiplyDeep_eq (limit : Int) :
    ∀ (depth : Nat) (x y : BigUInt), x.count + y.count < depth →
      multiplyDeep limit depth x y = some (ofNat (x.toNat * y.toNat)) := by
  intro depth
  induction depth with
  | zero => intro x y h; cases h
  | succ depth ih =>
      intro x y hdepth
      rw [multiplyDeep]
      by_cases hx0 : x.count = 0
      · rw [if_pos hx0, (count_eq_zero_iff x).mp hx0, Nat.zero_mul]
        rfl
      by_cases hy0 : y.count = 0
      · rw [if_neg hx0, if_pos hy0, (count_eq_zero_iff y).mp hy0, Nat.mul_zero]
        rfl
      rw [if_neg hx0, if_neg hy0]
      by_cases hy1 : y.count = 1
      · rw [if_pos hy1, multiply_eq, toNat_get_zero hy1]
      by_cases hx1 : x.count = 1
      · rw [if_neg hy1, if_pos hx1, multiply_eq, toNat_get_zero hx1, Nat.mul_comm]
      rw [if_neg hy1, if_neg hx1]
      have hx := count_split_high (show 1 < x.count by omega)
      have hx' := count_split_low (show 1 < x.count by omega)
      have hy := count_split_high (show 1 < y.count by omega)
      have hy' := count_split_low (show 1 < y.count by omega)
      by_cases hdirect : (min (x.count : Int) y.count) ≤ limit
      · rw [if_pos hdirect, longMultiplication_eq]
      rw [if_neg hdirect]
      by_cases hless : y.count < x.count
      · rw [if_pos hless, ih x.split.2 y (by omega), ih x.split.1 y (by omega)]
        exact congrArg some (splitProduct_eq x y)
      by_cases hless' : x.count < y.count
      · rw [if_neg hless, if_pos hless', ih y.split.2 x (by omega), ih y.split.1 x (by omega),
          Nat.mul_comm x.toNat]
        exact congrArg some (splitProduct_eq y x)
      have hxm := count_difference_le x.split.1 x.split.2
      have hym := count_difference_le y.split.1 y.split.2
      rw [if_neg hless, if_neg hless', ih x.split.1 y.split.1 (by omega),
        ih x.split.2 y.split.2 (by omega)]
      simp only [Option.bind_eq_bind, Option.bind_some, difference_eq]
      rw [ih _ _ (by omega), Option.bind_some, toNat_ofNat, toNat_ofNat]
      exact karatsuba_eq (by omega)

/-- The product is exact for every limit, and no difference it takes stops the
process. -/
theorem multiplied_eq (limit : Int) (x y : BigUInt) :
    x.multiplied limit y = some (ofNat (x.toNat * y.toNat)) :=
  multiplyDeep_eq limit _ x y (Nat.lt_succ_self _)

end BigUInt

end YieldMe

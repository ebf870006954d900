/-
  BigInt/Addition.lean --- sums, differences and comparisons of unsigned big
  integers.

  `add` and `subtractReportingOverflow` work in place: they write one word of the
  left operand in every round, extending it where the right operand reaches
  above it.  The invariant of both loops is an equation between numbers that
  contains the carry with the weight of the word it is carried to.  A difference
  that would be negative is left as a two's complement and reported; `subtract`
  stops the process then.
-/
import YieldMe.BigInt.Access
import YieldMe.Foundation.While

set_option autoImplicit false

namespace YieldMe

open Loop

namespace Word

/-- `subtractingReportingOverflow(_:)`. -/
def subtractingReportingOverflow (x y : Word) : Word × Bool :=
  (x - y, decide (x.toNat < y.toNat))

/-- The sum of two words and a carry, as the loops over words compute it. -/
def addingCarry (x y : Word) (carry : Bool) : Word × Bool :=
  let (d, c) := x.addingReportingOverflow y
  if carry then
    let (d2, c2) := d.addingReportingOverflow 1
    (d2, c || c2)
  else (d, c)

/-- The difference of two words and a borrow. -/
def subtractingCarry (x y : Word) (carry : Bool) : Word × Bool :=
  let (d, c) := x.subtractingReportingOverflow y
  if carry then
    let (d2, c2) := d.subtractingReportingOverflow 1
    (d2, c || c2)
  else (d, c)

theorem addingCarry_spec (x y : Word) (carry : Bool) :
    (addingCarry x y carry).1.toNat + (addingCarry x y carry).2.toNat * 2 ^ 64 =
      x.toNat + y.toNat + carry.toNat := by
  have hx := x.toNat_lt
  have hy := y.toNat_lt
  simp only [addingCarry, addingReportingOverflow]
  cases carry with
  | false =>
      simp only [Bool.false_eq_true, if_false, UInt64.toNat_add, Bool.toNat]
      by_cases hover : 2 ^ 64 ≤ x.toNat + y.toNat
      · simp only [hover, decide_true, cond_true, cond_false]
        omega
      · simp only [hover, decide_false, cond_false]
        omega
  | true =>
      simp only [if_true, UInt64.toNat_add, UInt64.toNat_one, Bool.toNat]
      by_cases hover : 2 ^ 64 ≤ x.toNat + y.toNat
      · simp only [hover, decide_true, Bool.true_or, cond_true]
        omega
      · by_cases hover' : 2 ^ 64 ≤ (x.toNat + y.toNat) % 2 ^ 64 + 1
        · simp only [hover, hover', decide_true, decide_false, Bool.false_or, cond_true]
          omega
        · simp only [hover, hover', decide_false, Bool.false_or, cond_false, cond_true]
          omega

theorem subtractingCarry_spec (x y : Word) (carry : Bool) :
    (subtractingCarry x y carry).1.toNat + y.toNat + carry.toNat =
      x.toNat + (subtractingCarry x y carry).2.toNat * 2 ^ 64 := by
  have hx := x.toNat_lt
  have hy := y.toNat_lt
  simp only [subtractingCarry, subtractingReportingOverflow]
  cases carry with
  | false =>
      simp only [Bool.false_eq_true, if_false, UInt64.toNat_sub, Bool.toNat]
      by_cases hunder : x.toNat < y.toNat
      · simp only [hunder, decide_true, cond_true, cond_false]
        omega
      · simp only [hunder, decide_false, cond_false]
        omega
  | true =>
      simp only [if_true, UInt64.toNat_sub, UInt64.toNat_one, Bool.toNat]
      by_cases hunder : x.toNat < y.toNat
      · simp only [hunder, decide_true, Bool.true_or, cond_true]
        omega
      · by_cases hunder' : (2 ^ 64 - y.toNat + x.toNat) % 2 ^ 64 < 1
        · simp only [hunder, hunder', decide_true, decide_false, Bool.false_or, cond_true]
          omega
        · simp only [hunder, hunder', decide_false, Bool.false_or, cond_false, cond_true]
          omega

end Word

namespace BigUInt

/-! ## Sums -/

/-- Where a loop with a carry is: the integer it writes, the carry and the index
of the next word of the right operand. -/
structure CarryLoop where
  value : BigUInt
  carry : Bool
  bi : Nat

/-- The body of the loop of `add(_:shiftedBy:)`. -/
def addRound (b : BigUInt) (shift : Nat) (s : CarryLoop) : CarryLoop :=
  let ai := shift + s.bi
  let (d, c) := (s.value.get ai).addingCarry (b.get s.bi) s.carry
  ⟨s.value.set ai d, c, s.bi + 1⟩

/-- `add(_:shiftedBy:)`.  A carry is passed on once above the top words. -/
def add (a b : BigUInt) (shift : Nat) : BigUInt :=
  (whileDo (fun s => decide (s.bi < b.count) || s.carry) (addRound b shift)
    (max a.count (shift + b.count) + 1) ⟨a, false, 0⟩).value

/-- The sum so far, and what is still to be added. -/
def AddInvariant (b : BigUInt) (shift total : Nat) (s : CarryLoop) : Prop :=
  s.value.toNat + (b.toNat / weight s.bi + s.carry.toNat) * weight (shift + s.bi) = total

theorem AddInvariant.round {b : BigUInt} {shift total : Nat} {s : CarryLoop}
    (h : AddInvariant b shift total s) :
    AddInvariant b shift total (addRound b shift s) := by
  have hset := toNat_set s.value (shift + s.bi)
    ((s.value.get (shift + s.bi)).addingCarry (b.get s.bi) s.carry).1
  have hword := Word.addingCarry_spec (s.value.get (shift + s.bi)) (b.get s.bi) s.carry
  have hscaled := congrArg (· * weight (shift + s.bi)) hword
  unfold AddInvariant at h ⊢
  rw [div_weight b s.bi] at h
  simp only [addRound, ← Nat.add_assoc, weight_succ (shift + s.bi)]
  linarith

/-- A carry has room below the number of words reserved for the sum. -/
theorem AddInvariant.lt {b : BigUInt} {shift total n : Nat} {s : CarryLoop}
    (h : AddInvariant b shift total s) (htotal : total < weight n)
    (hb : shift + b.count ≤ n) (hguard : (decide (s.bi < b.count) || s.carry) = true) :
    shift + s.bi < n := by
  rcases Bool.or_eq_true_iff.mp hguard with hbelow | hcarry
  · have := of_decide_eq_true hbelow
    omega
  · apply lt_of_weight_lt
    unfold AddInvariant at h
    rw [hcarry, Bool.toNat_true, Nat.add_mul, Nat.one_mul] at h
    omega

theorem weight_double_le (index : Nat) : weight index + weight index ≤ weight (index + 1) := by
  rw [weight_succ]
  omega

/-- The sum is exact. -/
theorem add_eq (a b : BigUInt) (shift : Nat) :
    a.add b shift = ofNat (a.toNat + b.toNat * weight shift) := by
  have htotal : a.toNat + b.toNat * weight shift <
      weight (max a.count (shift + b.count) + 1) := by
    have ha := Nat.lt_of_lt_of_le a.toNat_lt_weight
      (weight_le (Nat.le_max_left a.count (shift + b.count)))
    have hb : b.toNat * weight shift < weight (max a.count (shift + b.count)) := by
      refine Nat.lt_of_lt_of_le ?_ (weight_le (Nat.le_max_right a.count (shift + b.count)))
      rw [weight_add, Nat.mul_comm]
      exact Nat.mul_lt_mul_of_pos_left b.toNat_lt_weight (weight_pos shift)
    have hdouble := weight_double_le (max a.count (shift + b.count))
    omega
  obtain ⟨hend, hguard⟩ := whileDo_rule
    (AddInvariant b shift (a.toNat + b.toNat * weight shift))
    (fun s => max a.count (shift + b.count) + 1 - (shift + s.bi))
    (f := addRound b shift) (g := fun s => decide (s.bi < b.count) || s.carry)
    (fun s h hguard => ⟨h.round, by
      have hlt := h.lt htotal (by omega) hguard
      simp only [addRound]
      omega⟩)
    (max a.count (shift + b.count) + 1) ⟨a, false, 0⟩
    (by simp [AddInvariant]) (Nat.sub_le _ _)
  rw [Bool.or_eq_false_iff, decide_eq_false_iff_not, Nat.not_lt] at hguard
  apply eq_ofNat
  rw [← hend]
  simp only [add]
  rw [hguard.2, Nat.div_eq_of_lt (Nat.lt_of_lt_of_le b.toNat_lt_weight (weight_le hguard.1))]
  simp

/-! ## Differences -/

/-- The body of the loop of `subtractReportingOverflow(_:shiftedBy:)`. -/
def subtractRound (b : BigUInt) (shift : Nat) (s : CarryLoop) : CarryLoop :=
  let ai := shift + s.bi
  let (d, c) := (s.value.get ai).subtractingCarry (b.get s.bi) s.carry
  ⟨s.value.set ai d, c, s.bi + 1⟩

/-- `subtractReportingOverflow(_:shiftedBy:)`: the difference, and whether it
overflowed. -/
def subtractReportingOverflow (a b : BigUInt) (shift : Nat) : BigUInt × Bool :=
  let s := whileDo
    (fun s => decide (s.bi < b.count) || (decide (shift + s.bi < a.count) && s.carry))
    (subtractRound b shift) (max a.count (shift + b.count)) ⟨a, false, 0⟩
  (s.value, s.carry)

/-- `subtract(_:shiftedBy:)`: an overflow stops the process. -/
def subtract (a b : BigUInt) (shift : Nat) : Option BigUInt :=
  let (difference, overflow) := a.subtractReportingOverflow b shift
  if overflow then none else some difference

theorem count_setWords_le (words : List Word) {index n : Nat} (word : Word)
    (hlen : words.length ≤ n) (hindex : index < n) :
    (setWords words index word).length ≤ n := by
  rw [setWords]
  split
  · rwa [List.length_set]
  · simp only [List.length_append, List.length_replicate, List.length_singleton]
    omega

/-- Writing below a weight keeps a number below it. -/
theorem toNat_set_lt {x : BigUInt} {index n : Nat} (word : Word) (hx : x.toNat < weight n)
    (hindex : index < n) : (x.set index word).toNat < weight n := by
  have hlen := count_setWords_le x.words word (count_le_of_lt hx) hindex
  rw [set, toNat_ofWords]
  exact Nat.lt_of_lt_of_le (wordsToNat_lt _) (weight_le hlen)

/-- The difference so far and what is still to be subtracted, for the words below
`n`. -/
structure SubtractInvariant (a b : BigUInt) (shift n : Nat) (s : CarryLoop) : Prop where
  total : s.value.toNat + b.toNat * weight shift =
    a.toNat + (b.toNat / weight s.bi + s.carry.toNat) * weight (shift + s.bi)
  value_lt : s.value.toNat < weight n
  bi_le : shift + s.bi ≤ n

theorem SubtractInvariant.round {a b : BigUInt} {shift n : Nat} {s : CarryLoop}
    (h : SubtractInvariant a b shift n s) (hbi : shift + s.bi < n) :
    SubtractInvariant a b shift n (subtractRound b shift s) := by
  have hset := toNat_set s.value (shift + s.bi)
    ((s.value.get (shift + s.bi)).subtractingCarry (b.get s.bi) s.carry).1
  have hword := Word.subtractingCarry_spec (s.value.get (shift + s.bi)) (b.get s.bi) s.carry
  have hscaled := congrArg (· * weight (shift + s.bi)) hword
  have htotal := h.total
  refine ⟨?_, toNat_set_lt _ h.value_lt hbi, hbi⟩
  rw [div_weight b s.bi] at htotal
  simp only [subtractRound, ← Nat.add_assoc, weight_succ (shift + s.bi)]
  linarith

/-- What the loop leaves: an exact difference, or a two's complement. -/
theorem subtractReportingOverflow_spec (a b : BigUInt) (shift : Nat) :
    (a.subtractReportingOverflow b shift).1.toNat + b.toNat * weight shift =
        a.toNat + (a.subtractReportingOverflow b shift).2.toNat *
          weight (max a.count (shift + b.count)) ∧
      (a.subtractReportingOverflow b shift).1.toNat <
        weight (max a.count (shift + b.count)) := by
  obtain ⟨hend, hguard⟩ := whileDo_rule
    (SubtractInvariant a b shift (max a.count (shift + b.count)))
    (fun s => max a.count (shift + b.count) - (shift + s.bi))
    (f := subtractRound b shift)
    (g := fun s => decide (s.bi < b.count) || (decide (shift + s.bi < a.count) && s.carry))
    (fun s h hguard => by
      have hbi : shift + s.bi < max a.count (shift + b.count) := by
        rcases Bool.or_eq_true_iff.mp hguard with hbelow | hcarry
        · have := of_decide_eq_true hbelow
          omega
        · have := of_decide_eq_true (Bool.and_eq_true_iff.mp hcarry).1
          omega
      refine ⟨h.round hbi, ?_⟩
      simp only [subtractRound]
      omega)
    (max a.count (shift + b.count)) ⟨a, false, 0⟩
    ⟨by
      simp,
      Nat.lt_of_lt_of_le a.toNat_lt_weight (weight_le (Nat.le_max_left _ _)), by
      simp only [Nat.add_zero]
      omega⟩ (Nat.sub_le _ _)
  unfold subtractReportingOverflow
  generalize whileDo _ (subtractRound b shift) _ _ = s at hend hguard ⊢
  rw [Bool.or_eq_false_iff, decide_eq_false_iff_not, Nat.not_lt] at hguard
  have htotal := hend.total
  have hbi := hend.bi_le
  rw [Nat.div_eq_of_lt (Nat.lt_of_lt_of_le b.toNat_lt_weight (weight_le hguard.1)),
    Nat.zero_add] at htotal
  refine ⟨htotal.trans (congrArg (a.toNat + ·) ?_), hend.value_lt⟩
  change s.carry.toNat * weight (shift + s.bi) =
    s.carry.toNat * weight (max a.count (shift + b.count))
  -- a borrow is left over only above the top words of both operands
  cases hcarry : s.carry with
  | false => rw [Bool.toNat_false, Nat.zero_mul, Nat.zero_mul]
  | true =>
      rw [hcarry, Bool.and_true, decide_eq_false_iff_not] at hguard
      have hbi' : shift + s.bi = max a.count (shift + b.count) := by omega
      rw [hbi']

/-- The difference overflows exactly when it would be negative. -/
theorem subtractReportingOverflow_overflow (a b : BigUInt) (shift : Nat) :
    (a.subtractReportingOverflow b shift).2 =
      decide (a.toNat < b.toNat * weight shift) := by
  obtain ⟨htotal, hlt⟩ := subtractReportingOverflow_spec a b shift
  cases hover : (a.subtractReportingOverflow b shift).2 with
  | false =>
      rw [hover, Bool.toNat_false] at htotal
      symm
      rw [decide_eq_false_iff_not]
      omega
  | true =>
      rw [hover, Bool.toNat_true] at htotal
      symm
      rw [decide_eq_true_eq]
      omega

/-- `subtract` stops the process exactly when the difference would be negative,
and is exact otherwise. -/
theorem subtract_eq (a b : BigUInt) (shift : Nat) :
    a.subtract b shift =
      if b.toNat * weight shift ≤ a.toNat then some (ofNat (a.toNat - b.toNat * weight shift))
      else none := by
  have htotal := (subtractReportingOverflow_spec a b shift).1
  rw [subtractReportingOverflow_overflow] at htotal
  simp only [subtract, subtractReportingOverflow_overflow, decide_eq_true_eq]
  by_cases hle : b.toNat * weight shift ≤ a.toNat
  · rw [if_neg (Nat.not_lt.mpr hle), if_pos hle]
    rw [decide_eq_false (Nat.not_lt.mpr hle), Bool.toNat_false] at htotal
    exact congrArg some (eq_ofNat (by omega))
  · rw [if_pos (Nat.lt_of_not_le hle), if_neg hle]

/-! ## Comparisons -/

/-- The loop of `compare`, over the words below an index from the top one down. -/
def compareWords (a b : BigUInt) : Nat → Ordering
  | 0 => .eq
  | i + 1 =>
      let ad := a.get i
      let bd := b.get i
      if ad ≠ bd then if ad > bd then .gt else .lt else compareWords a b i

/-- `compare`. -/
def compare (a b : BigUInt) : Ordering :=
  if a.count ≠ b.count then if a.count > b.count then .gt else .lt
  else compareWords a b a.count

/-- `==`. -/
def eq (a b : BigUInt) : Bool := a.compare b == .eq

/-- `<`. -/
def lt (a b : BigUInt) : Bool := a.compare b == .lt

/-- `<=`. -/
def le (a b : BigUInt) : Bool := !b.lt a

theorem compareWords_eq (a b : BigUInt) :
    ∀ i, compareWords a b i = Ord.compare (a.toNat % weight i) (b.toNat % weight i) := by
  intro i
  induction i with
  | zero => simp [compareWords, Nat.mod_one]
  | succ i ih =>
      have ha := Nat.mod_lt a.toNat (weight_pos i)
      have hb := Nat.mod_lt b.toNat (weight_pos i)
      rw [compareWords, toNat_mod_weight_succ, toNat_mod_weight_succ]
      rcases Nat.lt_trichotomy (a.get i).toNat (b.get i).toNat with hless | hsame | hgreater
      · have hne : a.get i ≠ b.get i := fun h => by rw [h] at hless; omega
        have hscaled := Nat.mul_le_mul_right (weight i) (Nat.succ_le_of_lt hless)
        rw [Nat.succ_mul] at hscaled
        rw [if_pos hne, if_neg (by rw [gt_iff_lt, UInt64.lt_iff_toNat_lt]; omega)]
        symm
        rw [Nat.compare_eq_lt]
        omega
      · rw [if_neg (by rw [ne_eq, Decidable.not_not, ← UInt64.toNat_inj]; exact hsame), ih, hsame,
          Nat.compare_eq_ite_lt, Nat.compare_eq_ite_lt]
        simp only [Nat.add_lt_add_iff_left]
      · have hne : a.get i ≠ b.get i := fun h => by rw [h] at hgreater; omega
        have hscaled := Nat.mul_le_mul_right (weight i) (Nat.succ_le_of_lt hgreater)
        rw [Nat.succ_mul] at hscaled
        rw [if_pos hne, if_pos (by rw [gt_iff_lt, UInt64.lt_iff_toNat_lt]; omega)]
        symm
        rw [Nat.compare_eq_gt]
        omega

theorem toNat_lt_of_count_lt {a b : BigUInt} (h : a.count < b.count) : a.toNat < b.toNat := by
  have ha := a.toNat_lt_weight
  have hb := weight_le_toNat (show 0 < b.count by omega)
  have hle := weight_le (show a.count ≤ b.count - 1 by omega)
  omega

/-- The comparison is the one of the numbers. -/
theorem compare_eq (a b : BigUInt) : a.compare b = Ord.compare a.toNat b.toNat := by
  rw [compare]
  rcases Nat.lt_trichotomy a.count b.count with hless | hsame | hgreater
  · rw [if_pos (by omega), if_neg (by omega)]
    exact (Nat.compare_eq_lt.mpr (toNat_lt_of_count_lt hless)).symm
  · rw [if_neg (by omega), compareWords_eq, Nat.mod_eq_of_lt a.toNat_lt_weight, hsame,
      Nat.mod_eq_of_lt b.toNat_lt_weight]
  · rw [if_pos (by omega), if_pos (by omega)]
    exact (Nat.compare_eq_gt.mpr (toNat_lt_of_count_lt hgreater)).symm

@[simp] theorem lt_iff (a b : BigUInt) : a.lt b = true ↔ a.toNat < b.toNat := by
  rw [lt, compare_eq, beq_iff_eq, Nat.compare_eq_lt]

@[simp] theorem le_iff (a b : BigUInt) : a.le b = true ↔ a.toNat ≤ b.toNat := by
  rw [le, Bool.not_eq_true', Bool.eq_false_iff, ne_eq, lt_iff, Nat.not_lt]

@[simp] theorem eq_iff (a b : BigUInt) : a.eq b = true ↔ a = b := by
  rw [eq, compare_eq, beq_iff_eq, Nat.compare_eq_eq, toNat_inj]

theorem ofWord_one : ofWord 1 = ofNat 1 := eq_ofNat (by rw [toNat_ofWord, UInt64.toNat_one])

theorem eq_one_iff (x : BigUInt) : x.eq (ofWord 1) = true ↔ x.toNat = 1 := by
  rw [eq_iff, ← toNat_inj, toNat_ofWord, UInt64.toNat_one]

theorem le_one_iff (x : BigUInt) : x.le (ofWord 1) = true ↔ x.toNat ≤ 1 := by
  rw [le_iff, toNat_ofWord, UInt64.toNat_one]

theorem one_lt_iff (x : BigUInt) : (ofWord 1).lt x = true ↔ 1 < x.toNat := by
  rw [lt_iff, toNat_ofWord, UInt64.toNat_one]

end BigUInt

end YieldMe

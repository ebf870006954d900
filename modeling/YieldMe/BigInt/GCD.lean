/-
  BigInt/GCD.lean --- greatest common divisors and inverses.

  The greatest common divisor is Stein's: it strips the trailing zeros of both
  numbers, and subtracts the smaller odd number from the larger one until nothing is
  left.  The inverse is the one of the extended Euclidean algorithm, whose factors
  are signed.  Both loops run on the package's own shifts, differences, products and
  quotients, and none of these stops the process.
-/
import YieldMe.Foundation.NumberTheory
import YieldMe.BigInt.Signed

set_option autoImplicit false

namespace YieldMe

namespace Word

/-- `trailingZeroBitCount` of a word. -/
def trailingZeroBitCount (w : Word) : Nat :=
  (List.range 64).findIdx fun i => w.toNat.testBit i

/-- A word is an odd number times a power of two. -/
theorem trailingZeroBitCount_spec {w : Word} (hw : w ≠ 0) :
    w.trailingZeroBitCount < 64 ∧
      ∃ m, w.toNat = (2 * m + 1) * 2 ^ w.trailingZeroBitCount := by
  have hex : ∃ i ∈ List.range 64, w.toNat.testBit i = true := by
    obtain ⟨i, hi⟩ := Nat.exists_testBit_of_ne_zero (x := w.toNat) (by
      rw [← UInt64.toNat_zero]
      exact fun h => hw (UInt64.toNat_inj.mp h))
    refine ⟨i, List.mem_range.mpr ?_, hi⟩
    by_contra hge
    have hlt : w.toNat < 2 ^ i :=
      Nat.lt_of_lt_of_le w.toNat_lt (Nat.pow_le_pow_right Nat.two_pos (Nat.not_lt.mp hge))
    rw [Nat.testBit_lt_two_pow hlt] at hi
    cases hi
  have hlt : w.trailingZeroBitCount < 64 := by
    have h := List.findIdx_lt_length.mpr hex
    rwa [List.length_range] at h
  refine ⟨hlt, ?_⟩
  have hlen : w.trailingZeroBitCount < (List.range 64).length := by
    rw [List.length_range]
    exact hlt
  -- its own bit is set, and none below
  have hset : w.toNat.testBit w.trailingZeroBitCount = true := by
    have h : w.toNat.testBit ((List.range 64).get ⟨w.trailingZeroBitCount, hlen⟩) = true :=
      List.findIdx_getElem
    rwa [List.get_eq_getElem, List.getElem_range] at h
  have hclear : ∀ i < w.trailingZeroBitCount, w.toNat.testBit i = false := by
    intro i hi
    have h := List.not_of_lt_findIdx hi
    rw [List.getElem_range] at h
    exact h
  have hlow : w.toNat % 2 ^ w.trailingZeroBitCount = 0 := by
    refine Nat.eq_of_testBit_eq fun i => ?_
    rw [Nat.testBit_mod_two_pow, Nat.zero_testBit]
    by_cases hi : i < w.trailingZeroBitCount
    · rw [hclear i hi, Bool.and_false]
    · rw [decide_eq_false hi, Bool.false_and]
  have hodd : w.toNat / 2 ^ w.trailingZeroBitCount % 2 = 1 := by
    have h := hset
    rw [Nat.testBit_eq_decide_div_mod_eq] at h
    exact of_decide_eq_true h
  refine ⟨w.toNat / 2 ^ w.trailingZeroBitCount / 2, ?_⟩
  rw [show 2 * (w.toNat / 2 ^ w.trailingZeroBitCount / 2) + 1 =
    w.toNat / 2 ^ w.trailingZeroBitCount by omega]
  exact (Nat.div_mul_cancel (Nat.dvd_of_mod_eq_zero hlow)).symm

end Word

namespace BigUInt

/-! ## Trailing zeros -/

/-- `trailingZeroBitCount`. -/
def trailingZeroBitCount (x : BigUInt) : Nat :=
  if x.count = 0 then 0
  else
    let i := x.words.findIdx (· ≠ 0)
    i * 64 + (x.get i).trailingZeroBitCount

/-- The odd part of a list of words is above its first word that is not zero. -/
theorem wordsToNat_trailing {words : List Word} (h : wordsToNat words ≠ 0) :
    ∃ m, wordsToNat words = (2 * m + 1) * 2 ^ (words.findIdx (· ≠ 0) * 64 +
      (words.getD (words.findIdx (· ≠ 0)) 0).trailingZeroBitCount) := by
  induction words with
  | nil => exact absurd wordsToNat_nil h
  | cons w words ih =>
      rw [wordsToNat_cons] at h ⊢
      rw [List.findIdx_cons]
      by_cases hw : w = 0
      · rw [hw, UInt64.toNat_zero, Nat.add_zero] at h ⊢
        obtain ⟨m, hm⟩ := ih fun hzero => h (by rw [hzero, Nat.zero_mul])
        refine ⟨m, ?_⟩
        simp only [ne_eq, not_true_eq_false, decide_false, cond_false, List.getD_cons_succ]
        simp only [ne_eq] at hm
        generalize words.findIdx (fun w => decide ¬w = 0) = i at hm ⊢
        rw [hm, Nat.add_mul i 1, Nat.one_mul, Nat.add_right_comm, pow_add _ (_ + _) 64,
          Nat.mul_assoc]
      · obtain ⟨hlt, m, hm⟩ := Word.trailingZeroBitCount_spec hw
        simp only [ne_eq, hw, not_false_eq_true, decide_true, cond_true, Nat.zero_mul,
          Nat.zero_add, List.getD_cons_zero]
        generalize w.trailingZeroBitCount = k at *
        -- the words above add an even number of these powers
        refine ⟨m + wordsToNat words * 2 ^ (63 - k), ?_⟩
        have hsplit : (2 : Nat) ^ 64 = 2 * 2 ^ (63 - k) * 2 ^ k := by
          rw [← pow_succ', ← pow_add, show 63 - k + 1 + k = 64 by omega]
        rw [hm, hsplit]
        ring

/-- A positive number is an odd number times a power of two. -/
theorem trailingZeroBitCount_spec {x : BigUInt} (h : 0 < x.toNat) :
    ∃ m, x.toNat = (2 * m + 1) * 2 ^ x.trailingZeroBitCount := by
  rw [trailingZeroBitCount, if_neg (fun hcount => by
    rw [(count_eq_zero_iff x).mp hcount] at h
    exact Nat.lt_irrefl 0 h)]
  exact wordsToNat_trailing (Nat.ne_of_gt h)

/-- The number without its trailing zeros. -/
def oddPart (x : BigUInt) : Nat := x.toNat / 2 ^ x.trailingZeroBitCount

theorem toNat_oddPart {x : BigUInt} (h : 0 < x.toNat) :
    x.toNat = x.oddPart * 2 ^ x.trailingZeroBitCount ∧ x.oddPart % 2 = 1 := by
  obtain ⟨m, hm⟩ := trailingZeroBitCount_spec h
  have hodd : x.oddPart = 2 * m + 1 := by
    rw [oddPart, hm, Nat.mul_div_cancel _ (Nat.two_pow_pos _)]
  exact ⟨by rw [hodd]; exact hm, by omega⟩

/-! ## Greatest common divisors -/

/-- `swap`, for the larger number first. -/
def descending (x y : BigUInt) : BigUInt × BigUInt := if x.lt y then (y, x) else (x, y)

/-- The body of the loop of `greatestCommonDivisor(with:)`. -/
def gcdRound (s : BigUInt × BigUInt) : Option (BigUInt × BigUInt) :=
  let (x, y) := descending (s.1.shiftRight s.1.trailingZeroBitCount) s.2
  (x.subtract y 0).map fun x => (x, y)

/-- `greatestCommonDivisor(with:)`. -/
def greatestCommonDivisor (x b : BigUInt) : Option BigUInt :=
  if x.isZero then some b
  else if b.isZero then some x
  else
    let az := x.trailingZeroBitCount
    let bz := b.trailingZeroBitCount
    let s := descending (x.shiftedRight az) (b.shiftedRight bz)
    (Loop.whileTry (fun s => !s.1.isZero) gcdRound (s.1.toNat + s.2.toNat) s).map fun s =>
      s.2.shiftedLeft (min az bz)

/-- The invariant of the loop: the second number stays odd. -/
structure GcdInvariant (g : Nat) (s : BigUInt × BigUInt) : Prop where
  gcd_eq : Nat.gcd s.1.toNat s.2.toNat = g
  odd : s.2.toNat % 2 = 1

theorem descending_spec (x y : BigUInt) :
    (descending x y).2.toNat = min x.toNat y.toNat ∧
      (descending x y).1.toNat = max x.toNat y.toNat := by
  unfold descending
  by_cases hlt : x.toNat < y.toNat
  · rw [if_pos ((lt_iff x y).mpr hlt), Nat.min_eq_left (Nat.le_of_lt hlt),
      Nat.max_eq_right (Nat.le_of_lt hlt)]
    exact ⟨rfl, rfl⟩
  · rw [if_neg (fun h => hlt ((lt_iff x y).mp h)), Nat.min_eq_right (Nat.not_lt.mp hlt),
      Nat.max_eq_left (Nat.not_lt.mp hlt)]
    exact ⟨rfl, rfl⟩

theorem gcd_max_sub_min (x y : Nat) :
    Nat.gcd (max x y - min x y) (min x y) = Nat.gcd x y := by
  rcases Nat.le_total x y with hle | hle
  · rw [Nat.max_eq_right hle, Nat.min_eq_left hle, Nat.gcd_sub_self_left hle, Nat.gcd_comm]
  · rw [Nat.max_eq_left hle, Nat.min_eq_right hle, Nat.gcd_sub_self_left hle]

theorem GcdInvariant.round {g : Nat} {s : BigUInt × BigUInt} (h : GcdInvariant g s)
    (hguard : 0 < s.1.toNat) :
    ∃ s', gcdRound s = some s' ∧ GcdInvariant g s' ∧
      s'.1.toNat + s'.2.toNat < s.1.toNat + s.2.toNat := by
  obtain ⟨x, y⟩ := s
  obtain ⟨hx, hodd⟩ := toNat_oddPart hguard
  simp only at hx hodd hguard
  have hshift : (x.shiftRight x.trailingZeroBitCount).toNat = x.oddPart := by
    rw [shiftRight_eq, toNat_ofNat, oddPart]
  obtain ⟨hmin, hmax⟩ := descending_spec (x.shiftRight x.trailingZeroBitCount) y
  rw [hshift] at hmin hmax
  have hle : x.oddPart ≤ x.toNat := Nat.div_le_self _ _
  have hy := h.odd
  simp only at hy
  generalize hd : descending (x.shiftRight x.trailingZeroBitCount) y = d at hmin hmax
  have hminmax : min x.oddPart y.toNat ≤ max x.oddPart y.toNat :=
    Nat.le_trans (Nat.min_le_left _ _) (Nat.le_max_left _ _)
  refine ⟨(ofNat (d.1.toNat - d.2.toNat), d.2), ?_, ⟨?_, ?_⟩, ?_⟩
  · unfold gcdRound
    simp only [hd]
    rw [subtract_eq, weight_zero, Nat.mul_one, if_pos (by rw [hmin, hmax]; exact hminmax),
      Option.map_some]
  · rw [toNat_ofNat, hmin, hmax, gcd_max_sub_min, ← h.gcd_eq]
    conv_rhs => rw [hx]
    exact (NumberTheory.gcd_mul_two_pow _ hy _).symm
  · rw [hmin]
    omega
  · have hsum : max x.oddPart y.toNat < x.toNat + y.toNat := Nat.max_lt.mpr ⟨by omega, by omega⟩
    rw [toNat_ofNat, hmin, hmax, Nat.sub_add_cancel hminmax]
    exact hsum

/-- The greatest common divisor is the one of natural numbers. -/
theorem greatestCommonDivisor_eq (x b : BigUInt) :
    x.greatestCommonDivisor b = some (ofNat (Nat.gcd x.toNat b.toNat)) := by
  rw [greatestCommonDivisor]
  by_cases hxz : x.toNat = 0
  · rw [if_pos ((isZero_iff x).mpr hxz), hxz, Nat.gcd_zero_left, ofNat_toNat]
  by_cases hbz : b.toNat = 0
  · rw [if_neg (fun h => hxz ((isZero_iff x).mp h)), if_pos ((isZero_iff b).mpr hbz), hbz,
      Nat.gcd_zero_right, ofNat_toNat]
  rw [if_neg (fun h => hxz ((isZero_iff x).mp h)), if_neg (fun h => hbz ((isZero_iff b).mp h))]
  dsimp only
  obtain ⟨hx, hxodd⟩ := toNat_oddPart (Nat.pos_of_ne_zero hxz)
  obtain ⟨hb, hbodd⟩ := toNat_oddPart (Nat.pos_of_ne_zero hbz)
  have hxs : (x.shiftedRight x.trailingZeroBitCount).toNat = x.oddPart := by
    rw [shiftedRight_eq, toNat_ofNat, oddPart]
  have hbs : (b.shiftedRight b.trailingZeroBitCount).toNat = b.oddPart := by
    rw [shiftedRight_eq, toNat_ofNat, oddPart]
  obtain ⟨hmin, hmax⟩ := descending_spec (x.shiftedRight x.trailingZeroBitCount)
    (b.shiftedRight b.trailingZeroBitCount)
  rw [hxs, hbs] at hmin hmax
  generalize descending (x.shiftedRight x.trailingZeroBitCount)
    (b.shiftedRight b.trailingZeroBitCount) = s at *
  have hstart : GcdInvariant (Nat.gcd x.oddPart b.oddPart) s := by
    refine ⟨?_, by rw [hmin]; omega⟩
    rw [hmin, hmax]
    rcases Nat.le_total x.oddPart b.oddPart with hle | hle
    · rw [Nat.max_eq_right hle, Nat.min_eq_left hle, Nat.gcd_comm]
    · rw [Nat.max_eq_left hle, Nat.min_eq_right hle]
  obtain ⟨s', hs', hinv, hend⟩ := Loop.whileTry_rule (g := fun s => !s.1.isZero)
    (GcdInvariant (Nat.gcd x.oddPart b.oddPart)) (fun s => s.1.toNat + s.2.toNat)
    (fun s h hguard => h.round (by
      rw [Bool.not_eq_true', ← Bool.not_eq_true, isZero_iff] at hguard
      exact Nat.pos_of_ne_zero hguard))
    (s.1.toNat + s.2.toNat) s hstart (Nat.le_refl _)
  have hzero : s'.1.toNat = 0 := (isZero_iff s'.1).mp (by simpa using hend)
  have hgcd := hinv.gcd_eq
  rw [hzero, Nat.gcd_zero_left] at hgcd
  rw [hs', Option.map_some, shiftedLeft_eq, hgcd,
    ← NumberTheory.gcd_mul_two_pows hxodd hbodd, ← hx, ← hb]

/-! ## Inverses -/

/-- The variables of the loop of `inverse(_:)`. -/
structure EuclidLoop where
  t1 : BigInt
  t2 : BigInt
  r1 : BigUInt
  r2 : BigUInt

/-- The body of the loop of `inverse(_:)`. -/
def inverseRound (directMultiplicationLimit : Int) (s : EuclidLoop) : Option EuclidLoop := do
  let quotient ← s.r1.divided s.r2
  let scaled ← (⟨quotient, .plus⟩ : BigInt).multiplied directMultiplicationLimit s.t2
  let t2 ← s.t1.subtract scaled
  let multiple ← quotient.multiplied directMultiplicationLimit s.r2
  let r2 ← s.r1.subtract multiple 0
  pure { t1 := s.t2, t2 := t2, r1 := s.r2, r2 := r2 }

/-- `inverse(_:)`: no result where the precondition fails, and `nil` as a result where
there is no inverse. -/
def inverse (directMultiplicationLimit : Int) (x modulus : BigUInt) :
    Option (Option BigUInt) := do
  if modulus.le (ofWord 1) then none
  else
    let s ← Loop.whileTry (fun s : EuclidLoop => !s.r2.isZero)
      (inverseRound directMultiplicationLimit) x.toNat
      { t1 := BigInt.ofInt 0, t2 := BigInt.ofInt 1, r1 := modulus, r2 := x }
    if (ofWord 1).lt s.r1 then pure none
    else if s.t1.sign = .minus then
      (modulus.subtract s.t1.magnitude 0).map some
    else pure (some s.t1.magnitude)

/-- The variables with the numbers they stand for. -/
def EuclidLoop.of (t1 t2 : Int) (r1 r2 : Nat) : EuclidLoop :=
  { t1 := .ofInt t1, t2 := .ofInt t2, r1 := ofNat r1, r2 := ofNat r2 }

theorem inverseRound_of (limit : Int) (t1 t2 : Int) (r1 : Nat) {r2 : Nat} (h : 0 < r2) :
    inverseRound limit (.of t1 t2 r1 r2) =
      some (.of t2 (t1 - (r1 / r2 : Nat) * t2) r2 (r1 - r1 / r2 * r2)) := by
  have hplus : (⟨ofNat (r1 / r2), .plus⟩ : BigInt).toInt = (r1 / r2 : Nat) := by
    rw [BigInt.toInt, toNat_ofNat, BigInt.signed]
  unfold inverseRound EuclidLoop.of
  simp only [divided_eq, toNat_ofNat, if_neg (Nat.ne_of_gt h), BigInt.multiplied_eq,
    BigInt.subtract_eq, multiplied_eq, subtract_eq, hplus, BigInt.toInt_ofInt, weight_zero,
    Nat.mul_one, if_pos (Nat.div_mul_le_self r1 r2), Option.bind_eq_bind, Option.bind_some]
  rfl

/-- The loop ends with the last remainders of the Euclidean algorithm. -/
theorem inverse_loop (limit : Int) (a : Nat) {m : Nat} (hm : 0 < m) :
    ∃ t1 t2, Loop.whileTry (fun s : EuclidLoop => !s.r2.isZero) (inverseRound limit) a
        (.of 0 1 m a) = some (.of t1 t2 (Nat.gcd m a) 0) ∧
      NumberTheory.Euclid a m t1 t2 (Nat.gcd m a) 0 := by
  obtain ⟨s, hs, ⟨t1, t2, r1, r2, rfl, h⟩, hend⟩ :=
    Loop.whileTry_rule (g := fun s : EuclidLoop => !s.r2.isZero)
      (f := inverseRound limit)
      (fun s => ∃ t1 t2 r1 r2, s = .of t1 t2 r1 r2 ∧ NumberTheory.Euclid a m t1 t2 r1 r2)
      (fun s => s.r2.toNat)
      (by
        rintro _ ⟨t1, t2, r1, r2, rfl, h⟩ hguard
        have hr : 0 < r2 := by
          rw [Bool.not_eq_true', ← Bool.not_eq_true, isZero_iff, EuclidLoop.of, toNat_ofNat]
            at hguard
          exact Nat.pos_of_ne_zero hguard
        refine ⟨_, inverseRound_of limit t1 t2 r1 hr, ⟨_, _, _, _, rfl, h.step hr⟩, ?_⟩
        simp only [EuclidLoop.of, toNat_ofNat]
        have hlt := Nat.mod_lt r1 hr
        have hmod := Nat.div_add_mod' r1 r2
        omega)
      a (.of 0 1 m a) ⟨0, 1, m, a, rfl, .start a hm⟩ (Nat.le_of_eq (toNat_ofNat a))
  have hzero : r2 = 0 := by
    simpa [EuclidLoop.of, isZero_iff] using hend
  subst hzero
  have hr := h.gcd_of_zero
  subst hr
  exact ⟨t1, t2, hs, h⟩

/-- Negative integers are those with a minus sign. -/
theorem sign_ofInt_iff (t : Int) : (BigInt.ofInt t).sign = .minus ↔ t < 0 := by
  unfold BigInt.ofInt BigInt.ofSign
  by_cases hneg : t < 0
  · have hzero : (ofNat t.natAbs).isZero ≠ true := by
      rw [ne_eq, isZero_iff, toNat_ofNat]
      omega
    simp [hneg, hzero, Int.not_le.mpr hneg]
  · simp [hneg, Int.not_lt.mp hneg]

theorem natAbs_ofInt (t : Int) : (BigInt.ofInt t).magnitude.toNat = t.natAbs := by
  rw [BigInt.ofInt, BigInt.ofSign, toNat_ofNat]

/-- The last steps of `inverse(_:)`, after its loop. -/
theorem inverse_cases (limit : Int) (x : BigUInt) {modulus : BigUInt} (hm : 1 < modulus.toNat) :
    ∃ t1 t2, NumberTheory.Euclid x.toNat modulus.toNat t1 t2 (Nat.gcd modulus.toNat x.toNat) 0 ∧
      x.inverse limit modulus =
        if Nat.gcd modulus.toNat x.toNat = 1 then
          some (some (ofNat (NumberTheory.representative modulus.toNat t1)))
        else some none := by
  obtain ⟨t1, t2, hloop, h⟩ := inverse_loop limit x.toNat (by omega : 0 < modulus.toNat)
  refine ⟨t1, t2, h, ?_⟩
  have hle : ¬ modulus.le (ofWord 1) = true := fun h => by
    have := (le_one_iff modulus).mp h
    omega
  rw [EuclidLoop.of, EuclidLoop.of, ofNat_toNat, ofNat_toNat] at hloop
  unfold inverse
  rw [if_neg hle, hloop, Option.bind_eq_bind, Option.bind_some]
  have hpos : 0 < Nat.gcd modulus.toNat x.toNat := Nat.gcd_pos_of_pos_left _ (by omega)
  by_cases hgcd : Nat.gcd modulus.toNat x.toNat = 1
  · have hone : ¬ (ofWord 1).lt (ofNat (Nat.gcd modulus.toNat x.toNat)) = true := by
      rw [one_lt_iff, toNat_ofNat]
      omega
    rw [if_neg hone, if_pos hgcd, NumberTheory.representative]
    by_cases hneg : t1 < 0
    · rw [if_pos ((sign_ofInt_iff t1).mpr hneg), if_pos hneg, subtract_eq, natAbs_ofInt,
        weight_zero, Nat.mul_one, if_pos h.bound, Option.map_some]
    · rw [if_neg (fun h => hneg ((sign_ofInt_iff t1).mp h)), if_neg hneg, ← natAbs_ofInt,
        ofNat_toNat]
      rfl
  · have hone : (ofWord 1).lt (ofNat (Nat.gcd modulus.toNat x.toNat)) = true := by
      rw [one_lt_iff, toNat_ofNat]
      omega
    rw [if_pos hone, if_neg hgcd]
    rfl

/-- The inverse of a number coprime to the modulus. -/
theorem inverse_of_coprime (limit : Int) {x modulus : BigUInt} (hm : 1 < modulus.toNat)
    (hgcd : Nat.gcd modulus.toNat x.toNat = 1) :
    ∃ r, x.inverse limit modulus = some (some (ofNat r)) ∧ r < modulus.toNat ∧
      r * x.toNat % modulus.toNat = 1 := by
  obtain ⟨t1, t2, h, heq⟩ := inverse_cases limit x hm
  rw [if_pos hgcd] at heq
  rw [hgcd] at h
  exact ⟨_, heq, h.inverse hm⟩

/-- A common factor leaves no inverse. -/
theorem inverse_of_not_coprime (limit : Int) {x modulus : BigUInt} (hm : 1 < modulus.toNat)
    (hgcd : Nat.gcd modulus.toNat x.toNat ≠ 1) : x.inverse limit modulus = some none := by
  obtain ⟨t1, t2, -, heq⟩ := inverse_cases limit x hm
  rw [heq, if_neg hgcd]

/-- The precondition fails for a modulus of zero or one. -/
theorem inverse_of_le_one (limit : Int) (x : BigUInt) {modulus : BigUInt}
    (hm : modulus.toNat ≤ 1) : x.inverse limit modulus = none := by
  unfold inverse
  rw [if_pos ((le_one_iff modulus).mpr hm)]

end BigUInt

namespace BigInt

/-! ## Signed numbers -/

/-- `greatestCommonDivisor(with:)`. -/
def greatestCommonDivisor (a b : BigInt) : Option BigInt :=
  (a.magnitude.greatestCommonDivisor b.magnitude).map fun g => ⟨g, .plus⟩

/-- `inverse(_:)`. -/
def inverse (directMultiplicationLimit : Int) (a modulus : BigInt) : Option (Option BigInt) :=
  (a.magnitude.inverse directMultiplicationLimit modulus.magnitude).bind fun answer =>
    match answer with
    | none => some none
    | some inv =>
        if a.sign = .plus ∨ inv.isZero = true then some (some ⟨inv, .plus⟩)
        else (modulus.magnitude.subtract inv 0).map fun m => some ⟨m, .plus⟩

/-- The greatest common divisor is the one of integers. -/
theorem greatestCommonDivisor_eq (a b : BigInt) :
    a.greatestCommonDivisor b = some (ofInt (Int.gcd a.toInt b.toInt)) := by
  rw [greatestCommonDivisor, BigUInt.greatestCommonDivisor_eq, Option.map_some, Int.gcd,
    toInt_natAbs, toInt_natAbs, plus_ofNat]

/-- The inverse of an integer coprime to the modulus, positive and below the modulus. -/
theorem inverse_of_coprime (limit : Int) {a modulus : BigInt} (hm : 1 < modulus.toInt.natAbs)
    (hgcd : Int.gcd modulus.toInt a.toInt = 1) :
    ∃ r : Nat, a.inverse limit modulus = some (some (ofInt r)) ∧ r < modulus.toInt.natAbs ∧
      r * a.toInt % modulus.toInt = 1 := by
  rw [Int.gcd, toInt_natAbs, toInt_natAbs] at hgcd
  rw [toInt_natAbs] at hm ⊢
  obtain ⟨r, hr, hlt, hinv⟩ := BigUInt.inverse_of_coprime limit hm hgcd
  have hcast : ((r : Int) * a.magnitude.toNat) % modulus.magnitude.toNat = 1 := by
    exact_mod_cast hinv
  have hne : r ≠ 0 := by
    intro hzero
    rw [hzero, Nat.zero_mul, Nat.zero_mod] at hinv
    exact absurd hinv (by decide)
  rw [inverse, hr, Option.bind_some]
  dsimp only
  cases hs : a.sign with
  | plus =>
      refine ⟨r, ?_, hlt, ?_⟩
      · rw [if_pos (Or.inl rfl), plus_ofNat]
      · rw [emod_toInt, toInt, hs, signed, hcast]
  | minus =>
      refine ⟨modulus.magnitude.toNat - r, ?_, by omega, ?_⟩
      · have hguard : ¬ (Sign.minus = .plus ∨ (BigUInt.ofNat r).isZero = true) := by
          rintro (h | h)
          · cases h
          · rw [BigUInt.isZero_iff, BigUInt.toNat_ofNat] at h
            exact hne h
        rw [if_neg hguard, BigUInt.subtract_eq, BigUInt.toNat_ofNat, BigUInt.weight_zero,
          Nat.mul_one, if_pos (Nat.le_of_lt hlt), Option.map_some, plus_ofNat]
      · rw [emod_toInt, toInt, hs, signed, Int.ofNat_sub (Nat.le_of_lt hlt),
          show ((modulus.magnitude.toNat : Int) - r) * -(a.magnitude.toNat : Int) =
            r * a.magnitude.toNat + modulus.magnitude.toNat * -(a.magnitude.toNat : Int) by ring,
          Int.add_mul_emod_self_left, hcast]

theorem inverse_of_not_coprime (limit : Int) {a modulus : BigInt}
    (hm : 1 < modulus.toInt.natAbs) (hgcd : Int.gcd modulus.toInt a.toInt ≠ 1) :
    a.inverse limit modulus = some none := by
  rw [Int.gcd, toInt_natAbs, toInt_natAbs] at hgcd
  rw [toInt_natAbs] at hm
  rw [inverse, BigUInt.inverse_of_not_coprime limit hm hgcd, Option.bind_some]

theorem inverse_of_le_one (limit : Int) (a : BigInt) {modulus : BigInt}
    (hm : modulus.toInt.natAbs ≤ 1) : a.inverse limit modulus = none := by
  rw [toInt_natAbs] at hm
  rw [inverse, BigUInt.inverse_of_le_one limit _ hm, Option.bind_none]

end BigInt

end YieldMe

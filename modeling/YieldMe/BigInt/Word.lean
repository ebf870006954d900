/-
  BigInt/Word.lean --- what the word operations of the package compute.

  Every operation is described by the natural numbers its words stand for.  The
  result of interest is `fastDividingFullWidth_spec`: the division of two words
  by one, done by two divisions of three half-words by two, is exact.  The sums,
  differences and products that would stop the process on overflow do not: each
  is shown equal to the one of natural numbers.
-/
import YieldMe.BigInt
import YieldMe.Foundation.Division
import YieldMe.Foundation.Positional

set_option autoImplicit false

namespace YieldMe

open Division Positional

namespace Word

/-! ## Halves -/

theorem toNat_high (x : Word) : x.high.toNat = x.toNat / 2 ^ 32 := by
  rw [high, UInt64.toNat_shiftRight, Nat.shiftRight_eq_div_pow]
  rfl

theorem toNat_low (x : Word) : x.low.toNat = x.toNat % 2 ^ 32 := by
  rw [low, UInt64.toNat_and]
  exact Nat.and_two_pow_sub_one_eq_mod x.toNat 32

theorem toNat_upshifted (x : Word) : x.upshifted.toNat = x.toNat * 2 ^ 32 % 2 ^ 64 := by
  rw [upshifted, UInt64.toNat_shiftLeft, Nat.shiftLeft_eq]
  rfl

theorem high_eq_zero_iff (x : Word) : x.high = 0 ↔ x.toNat < 2 ^ 32 := by
  rw [← UInt64.toNat_inj, toNat_high]
  simp only [UInt64.toNat_zero]
  omega

theorem toNat_upshifted_add (x y : Word) :
    (x.upshifted + y).toNat = (x.toNat * 2 ^ 32 + y.toNat) % 2 ^ 64 := by
  rw [UInt64.toNat_add, toNat_upshifted]
  omega

/-- Two half-words fit in a word. -/
theorem halves_lt {m n : Nat} (hm : m < 2 ^ 32) (hn : n < 2 ^ 32) :
    m * 2 ^ 32 + n < 2 ^ 64 := by
  omega

/-! ## Three half-words by two -/

/-- The numbers `quotient(dividing:by:)` works with. -/
theorem estimate {uHigh uLow vn : Word} (hnorm : 2 ^ 63 ≤ vn.toNat)
    (htop : uHigh.toNat < vn.toNat) (hlow : uLow.toNat < 2 ^ 32) :
    Estimate (2 ^ 32) vn.high.toNat vn.low.toNat uHigh.toNat uLow.toNat
      (uHigh / vn.high).toNat (uHigh % vn.high).toNat := by
  have hvn := vn.toNat_lt
  have hsplit := Nat.div_add_mod uHigh.toNat vn.high.toNat
  rw [Nat.mul_comm] at hsplit
  rw [UInt64.toNat_div, UInt64.toNat_mod]
  refine ⟨?_, ?_, ?_, ?_, hlow, hsplit.symm, ?_⟩
  · rw [toNat_high]
    omega
  · rw [toNat_high]
    omega
  · rw [toNat_low]
    omega
  · rw [toNat_high, toNat_low]
    omega
  · apply Nat.mod_lt
    rw [toNat_high]
    omega

/-- The divisor is made of its halves. -/
theorem toNat_halves (x : Word) : x.high.toNat * 2 ^ 32 + x.low.toNat = x.toNat := by
  rw [toNat_high, toNat_low]
  omega

/-- The half-word quotient is exact. -/
theorem toNat_quotient {uHigh uLow vn : Word} (hnorm : 2 ^ 63 ≤ vn.toNat)
    (htop : uHigh.toNat < vn.toNat) (hlow : uLow.toNat < 2 ^ 32) :
    (quotient (uHigh, uLow) vn).toNat =
      (uHigh.toNat * 2 ^ 32 + uLow.toNat) / vn.toNat := by
  have hest := estimate hnorm htop hlow
  have hbase := hest.le_base_succ
  have hmul := hest.mul_lt
  have hleft := hest.left_lt
  have hlow0 := hest.digit0
  have hlow1 := hest.digit1
  have hrem := hest.remainder
  have hp : (uHigh / vn.high * vn.low).toNat = (uHigh / vn.high).toNat * vn.low.toNat := by
    rw [UInt64.toNat_mul, Nat.mod_eq_of_lt (by omega)]
  have hr2 : (uHigh % vn.high + vn.high).toNat =
      (uHigh % vn.high).toNat + vn.high.toNat := by
    rw [UInt64.toNat_add, Nat.mod_eq_of_lt (by omega)]
  rw [← toNat_halves vn]
  simp only [quotient, high_eq_zero_iff, UInt64.le_iff_toNat_le, toNat_upshifted_add, ne_eq]
  generalize uHigh / vn.high = q at *
  generalize uHigh % vn.high = r at *
  have hr : r.toNat < 2 ^ 32 := Nat.lt_trans hrem hlow1
  rw [Nat.mod_eq_of_lt (halves_lt hr hlow), hp, hr2]
  split
  · rename_i haccept
    exact (hest.accept haccept.2).symm
  · rename_i hreject
    have hlarge := hest.too_large hreject
    have hpos := Estimate.pos_of_too_large hlarge
    have hone : (1 : Word) ≤ q := UInt64.le_iff_toNat_le.mpr hpos
    have hpred : (q - 1).toNat = q.toNat - 1 := UInt64.toNat_sub_of_le q 1 hone
    split
    · rename_i hcarry
      rw [hpred, hest.accept_pred_of_carry hlarge (by omega)]
    · rename_i hdigit
      rw [Decidable.not_not] at hdigit
      have hlow' : vn.low ≤ q * vn.low := by
        rw [UInt64.le_iff_toNat_le, hp]
        exact Nat.le_mul_of_pos_left _ hpos
      rw [UInt64.toNat_sub_of_le _ _ hlow', hp, hpred, Nat.mod_eq_of_lt (halves_lt hdigit hlow)]
      split
      · rename_i haccept
        rw [hpred, hest.accept_pred hlarge (by omega)]
      · rename_i hreject'
        obtain ⟨htwo, hquotient⟩ :=
          hest.accept_pred_pred (hest.pred_too_large hlarge hreject')
        have htwo : (2 : Word) ≤ q := UInt64.le_iff_toNat_le.mpr htwo
        rw [UInt64.toNat_sub_of_le q 2 htwo, hquotient]
        rfl

/-- Three half-words divided by two, with the remainder. -/
theorem toNat_quotientAndRemainder {uHigh uLow vn : Word} (hnorm : 2 ^ 63 ≤ vn.toNat)
    (htop : uHigh.toNat < vn.toNat) (hlow : uLow.toNat < 2 ^ 32) :
    (quotientAndRemainder (uHigh, uLow) vn).1.toNat =
        (uHigh.toNat * 2 ^ 32 + uLow.toNat) / vn.toNat ∧
      (quotientAndRemainder (uHigh, uLow) vn).2.toNat =
        (uHigh.toNat * 2 ^ 32 + uLow.toNat) % vn.toNat := by
  have hquotient := toNat_quotient hnorm htop hlow
  refine ⟨hquotient, ?_⟩
  have hdivmod := Nat.div_add_mod (uHigh.toNat * 2 ^ 32 + uLow.toNat) vn.toNat
  have hmod : (uHigh.toNat * 2 ^ 32 + uLow.toNat) % vn.toNat < vn.toNat :=
    Nat.mod_lt _ (by omega)
  have hvn := vn.toNat_lt
  simp only [quotientAndRemainder]
  rw [UInt64.toNat_sub, toNat_upshifted_add, UInt64.toNat_mul, hquotient]
  -- the subtraction is exact modulo 2 ^ 64, and the remainder is below it
  rw [Nat.mul_comm] at hdivmod
  generalize (uHigh.toNat * 2 ^ 32 + uLow.toNat) / vn.toNat * vn.toNat = product at *
  omega

/-! ## Two words by one -/

/-- Shifted left by its leading zeros, a divisor has its top bit set. -/
theorem normalized_shift {y : Word} (hy : 0 < y.toNat) :
    y.leadingZeroBitCount < 64 ∧ 2 ^ 63 ≤ y.toNat * 2 ^ y.leadingZeroBitCount ∧
      y.toNat * 2 ^ y.leadingZeroBitCount < 2 ^ 64 := by
  have hne : y ≠ 0 := by
    rintro rfl
    exact absurd hy (by decide)
  have hlt := y.toNat_lt
  have hlog : y.toNat.log2 < 64 := (Nat.log2_lt (by omega)).mpr hlt
  have hlow := Nat.log2_self_le (n := y.toNat) (by omega)
  have hhigh := Nat.lt_log2_self (n := y.toNat)
  rw [leadingZeroBitCount, if_neg hne]
  refine ⟨by omega, ?_, ?_⟩
  · have hpow : (2 : Nat) ^ 63 = 2 ^ y.toNat.log2 * 2 ^ (63 - y.toNat.log2) := by
      rw [← pow_add, Nat.add_sub_cancel' (by omega)]
    rw [hpow]
    exact Nat.mul_le_mul_right _ hlow
  · have hpow : (2 : Nat) ^ 64 = 2 ^ (y.toNat.log2 + 1) * 2 ^ (63 - y.toNat.log2) := by
      rw [← pow_add]
      congr 1
      omega
    rw [hpow]
    exact Nat.mul_lt_mul_of_pos_right hhigh (Nat.two_pow_pos _)

/-- The upper word of a dividend shifted left. -/
def shiftedHigh (dividend : Word × Word) (z : Word) : Word :=
  if z = 0 then dividend.1 else (dividend.1 <<< z) ||| (dividend.2 >>> (64 - z))

/-- No bits are lost in the shift. -/
theorem toNat_shiftedHigh (high low : Word) {z : Word} (hz : z.toNat < 64)
    (hfits : high.toNat * 2 ^ z.toNat < 2 ^ 64) :
    (shiftedHigh (high, low) z).toNat * 2 ^ 64 + low.toNat * 2 ^ z.toNat % 2 ^ 64 =
      (high.toNat * 2 ^ 64 + low.toNat) * 2 ^ z.toNat := by
  have hlow := low.toNat_lt
  unfold shiftedHigh
  by_cases hzero : z = 0
  · rw [if_pos hzero, hzero]
    simp only [UInt64.toNat_zero, pow_zero, Nat.mul_one]
    rw [Nat.mod_eq_of_lt hlow]
  · have hpos : 0 < z.toNat := by
      rcases Nat.eq_zero_or_pos z.toNat with h | h
      · exact absurd (UInt64.toNat_inj.mp h) hzero
      · exact h
    have hw : (64 - z).toNat = 64 - z.toNat :=
      UInt64.toNat_sub_of_le 64 z (UInt64.le_iff_toNat_le.mpr (Nat.le_of_lt hz))
    have hsplit : (2 : Nat) ^ 64 = 2 ^ (64 - z.toNat) * 2 ^ z.toNat := by
      rw [← pow_add, Nat.sub_add_cancel (Nat.le_of_lt hz)]
    have hover : low.toNat / 2 ^ (64 - z.toNat) < 2 ^ z.toNat := by
      apply Nat.div_lt_of_lt_mul
      rw [← hsplit]
      exact hlow
    have hmod : low.toNat * 2 ^ z.toNat % 2 ^ 64 =
        low.toNat % 2 ^ (64 - z.toNat) * 2 ^ z.toNat := by
      rw [hsplit, Nat.mul_mod_mul_right]
    have hlow' := Nat.div_add_mod low.toNat (2 ^ (64 - z.toNat))
    rw [if_neg hzero, UInt64.toNat_or, UInt64.toNat_shiftLeft, UInt64.toNat_shiftRight, hw,
      Nat.mod_eq_of_lt hz, Nat.mod_eq_of_lt (by omega : 64 - z.toNat < 64),
      Nat.shiftLeft_eq, Nat.mod_eq_of_lt hfits, Nat.shiftRight_eq_div_pow,
      Nat.mul_comm high.toNat, ← Nat.two_pow_add_eq_or_of_lt hover, hmod, hsplit]
    calc _ = (high.toNat * (2 ^ (64 - z.toNat) * 2 ^ z.toNat) +
          (2 ^ (64 - z.toNat) * (low.toNat / 2 ^ (64 - z.toNat)) +
            low.toNat % 2 ^ (64 - z.toNat))) * 2 ^ z.toNat := by ring
      _ = _ := by rw [hlow']

/-- The two half-word divisions, by a normalized divisor. -/
def fastDividingNormalized (vn un32 un10 z : Word) : Word × Word :=
  let (q1, un21) := quotientAndRemainder (un32, un10.high) vn
  let (q0, rn) := quotientAndRemainder (un21, un10.low) vn
  (q1.upshifted + q0, rn >>> z)

theorem fastDividingNormalized_spec {vn high : Word} (low : Word) {z : Word}
    (hnorm : 2 ^ 63 ≤ vn.toNat) (hhigh : high.toNat < vn.toNat) (hz : z.toNat < 64) :
    (fastDividingNormalized vn high low z).1.toNat =
        (high.toNat * 2 ^ 64 + low.toNat) / vn.toNat ∧
      (fastDividingNormalized vn high low z).2.toNat =
        (high.toNat * 2 ^ 64 + low.toNat) % vn.toNat / 2 ^ z.toNat := by
  have hpos : 0 < vn.toNat := by omega
  have hlowHigh : low.high.toNat < 2 ^ 32 := by
    have := low.toNat_lt
    rw [toNat_high]
    omega
  have hlowLow : low.low.toNat < 2 ^ 32 := by
    rw [toNat_low]
    omega
  obtain ⟨hq1, hr1⟩ := toNat_quotientAndRemainder hnorm hhigh hlowHigh
  have hr1lt : (quotientAndRemainder (high, low.high) vn).2.toNat < vn.toNat := by
    rw [hr1]
    exact Nat.mod_lt _ hpos
  obtain ⟨hq0, hr0⟩ := toNat_quotientAndRemainder hnorm hr1lt hlowLow
  have hq1lt : (quotientAndRemainder (high, low.high) vn).1.toNat < 2 ^ 32 := by
    rw [hq1]
    exact append_digit_div_lt hhigh hlowHigh
  have hq0lt : (quotientAndRemainder ((quotientAndRemainder (high, low.high) vn).2,
      low.low) vn).1.toNat < 2 ^ 32 := by
    rw [hq0]
    exact append_digit_div_lt hr1lt hlowLow
  have hdividend : high.toNat * 2 ^ 64 + low.toNat =
      (high.toNat * 2 ^ 32 + low.high.toNat) * 2 ^ 32 + low.low.toNat := by
    rw [toNat_high, toNat_low]
    omega
  rw [hdividend]
  simp only [fastDividingNormalized]
  constructor
  · rw [append_digit_div _ _ _ hpos, toNat_upshifted_add,
      Nat.mod_eq_of_lt (halves_lt hq1lt hq0lt), hq0, hr1, hq1]
  · rw [append_digit_mod _ low.low.toNat, UInt64.toNat_shiftRight, Nat.mod_eq_of_lt hz,
      Nat.shiftRight_eq_div_pow, hr0, hr1]

/-- The division of two words by one is exact. -/
theorem fastDividingFullWidth_spec {y high : Word} (low : Word)
    (hhigh : high.toNat < y.toNat) :
    (fastDividingFullWidth y (high, low)).1.toNat =
        (high.toNat * 2 ^ 64 + low.toNat) / y.toNat ∧
      (fastDividingFullWidth y (high, low)).2.toNat =
        (high.toNat * 2 ^ 64 + low.toNat) % y.toNat := by
  obtain ⟨hz, hnorm, hfits⟩ := normalized_shift (y := y) (by omega)
  have hz' : (UInt64.ofNat y.leadingZeroBitCount).toNat = y.leadingZeroBitCount := by
    rw [UInt64.toNat_ofNat']
    omega
  have hdef : fastDividingFullWidth y (high, low) =
      fastDividingNormalized (y <<< UInt64.ofNat y.leadingZeroBitCount)
        (shiftedHigh (high, low) (UInt64.ofNat y.leadingZeroBitCount))
        (low <<< UInt64.ofNat y.leadingZeroBitCount)
        (UInt64.ofNat y.leadingZeroBitCount) := rfl
  rw [hdef]
  generalize UInt64.ofNat y.leadingZeroBitCount = z at *
  rw [← hz'] at hz hnorm hfits
  clear hz' hdef
  -- both sides of the division are multiplied by the same power of two
  have hvn : (y <<< z).toNat = y.toNat * 2 ^ z.toNat := by
    rw [UInt64.toNat_shiftLeft, Nat.mod_eq_of_lt hz, Nat.shiftLeft_eq, Nat.mod_eq_of_lt hfits]
  have hun10 : (low <<< z).toNat = low.toNat * 2 ^ z.toNat % 2 ^ 64 := by
    rw [UInt64.toNat_shiftLeft, Nat.mod_eq_of_lt hz, Nat.shiftLeft_eq]
  have hdividend := toNat_shiftedHigh high low hz
    (Nat.lt_of_le_of_lt (Nat.mul_le_mul_right _ (Nat.le_of_lt hhigh)) hfits)
  rw [← hun10] at hdividend
  have htop : (shiftedHigh (high, low) z).toNat < (y <<< z).toNat := by
    have hle : high.toNat * 2 ^ 64 + low.toNat < y.toNat * 2 ^ 64 := by
      have := low.toNat_lt
      omega
    have hmul := Nat.mul_lt_mul_of_pos_right hle (Nat.two_pow_pos z.toNat)
    rw [hvn]
    by_contra hge
    have hge' := Nat.mul_le_mul_right (2 ^ 64) (Nat.le_of_not_lt hge)
    have hcomm : y.toNat * 2 ^ 64 * 2 ^ z.toNat = y.toNat * 2 ^ z.toNat * 2 ^ 64 := by ring
    omega
  obtain ⟨hquotient, hremainder⟩ :=
    fastDividingNormalized_spec (low <<< z) (by rw [hvn]; exact hnorm) htop hz
  rw [hquotient, hremainder, hdividend, hvn]
  refine ⟨Nat.mul_div_mul_right _ _ (Nat.two_pow_pos _), ?_⟩
  rw [Nat.mul_mod_mul_right, Nat.mul_div_cancel _ (Nat.two_pow_pos _)]

/-! ## Carries -/

/-- One round of a multiplication: the two words of `x * y + carry`. -/
theorem multiply_round (x y carry : Word) :
    let (h, l) := x.multipliedFullWidth y
    let (low, o) := l.addingReportingOverflow carry
    low.toNat + 2 ^ 64 * (if o then h + 1 else h).toNat =
      x.toNat * y.toNat + carry.toNat := by
  have hx := x.toNat_lt
  have hy := y.toNat_lt
  have hcarry := carry.toNat_lt
  have hproduct : x.toNat * y.toNat ≤ (2 ^ 64 - 1) * (2 ^ 64 - 1) :=
    Nat.mul_le_mul (by omega) (by omega)
  have hhigh : (UInt64.ofNat (x.toNat * y.toNat / 2 ^ 64)).toNat =
      x.toNat * y.toNat / 2 ^ 64 := by
    rw [UInt64.toNat_ofNat', Nat.mod_eq_of_lt (by omega)]
  simp only [multipliedFullWidth, addingReportingOverflow, UInt64.toNat_add,
    UInt64.toNat_ofNat', decide_eq_true_eq]
  by_cases hover : 2 ^ 64 ≤ x.toNat * y.toNat % 2 ^ 64 + carry.toNat
  · rw [if_pos hover, UInt64.toNat_add, hhigh, UInt64.toNat_one]
    omega
  · rw [if_neg hover, hhigh]
    omega

/-- One round of an addition. -/
theorem add_round (x carry : Word) :
    let (d, c) := x.addingReportingOverflow carry
    d.toNat + 2 ^ 64 * (if c then (1 : Word) else 0).toNat = x.toNat + carry.toNat := by
  have hx := x.toNat_lt
  have hcarry := carry.toNat_lt
  simp only [addingReportingOverflow, UInt64.toNat_add, decide_eq_true_eq]
  by_cases hover : 2 ^ 64 ≤ x.toNat + carry.toNat
  · rw [if_pos hover, UInt64.toNat_one]
    omega
  · rw [if_neg hover, UInt64.toNat_zero]
    omega

/-! ## Text -/

theorem numeral?_eq (radix : Nat) (c : Char) :
    numeral? radix c = if IsDigit radix c then some (digitValue c) else none := by
  have hdigit : ('0' ≤ c ∧ c ≤ '9') ↔ c.isDigit = true := by
    simp [Char.isDigit, Char.le_def]
  have hlower : ('a' ≤ c ∧ c ≤ 'z') ↔ c.isLower = true := by
    change _ ↔ (decide ('a'.val ≤ c.val) && decide (c.val ≤ 'z'.val)) = true
    simp [Char.le_def]
  have hupper : ('A' ≤ c ∧ c ≤ 'Z') ↔ c.isUpper = true := by
    change _ ↔ decide ('A'.val ≤ c.val ∧ c.val ≤ 'Z'.val) = true
    simp [Char.le_def]
  unfold numeral? IsDigit digitValue Char.isAlphanum Char.isAlpha
  simp only [hdigit, hlower, hupper]
  split
  · rename_i h
    simp [h, Option.filter]
  · split
    · rename_i h
      simp [h, Option.filter]
    · split
      · rename_i h
        simp [h, Option.filter]
      · rename_i h1 h2 h3
        simp [h1, h2, h3]

theorem readNumerals_eq_some_iff {radix : Nat} (hradix : 0 < radix) (text : List Char) :
    ∀ {n m : Nat}, n < 2 ^ 64 →
      (readNumerals radix n text = some m ↔
        (∀ c ∈ text, IsDigit radix c) ∧
          m = n * radix ^ text.length + value radix text ∧ m < 2 ^ 64) := by
  induction text with
  | nil =>
      intro n m hn
      simp only [readNumerals, Option.some.injEq, List.not_mem_nil, false_implies, implies_true,
        true_and, List.length_nil, pow_zero, Nat.mul_one, value_nil, Nat.add_zero]
      constructor
      · rintro rfl
        exact ⟨rfl, hn⟩
      · rintro ⟨rfl, -⟩
        rfl
  | cons c rest ih =>
      intro n m hn
      have hvalue : n * radix ^ (c :: rest).length + value radix (c :: rest) =
          (n * radix + digitValue c) * radix ^ rest.length + value radix rest := by
        rw [value_cons, List.length_cons, pow_succ]
        ring
      rw [readNumerals, numeral?_eq, hvalue]
      by_cases hdigit : IsDigit radix c
      · rw [if_pos hdigit, Option.bind_some]
        by_cases hfits : n * radix + digitValue c < 2 ^ 64
        · rw [if_pos hfits, ih hfits, List.forall_mem_cons]
          simp [hdigit]
        · rw [if_neg hfits]
          constructor
          · intro h
            cases h
          · rintro ⟨-, hm, hlt⟩
            -- the value only grows
            have hgrow := Nat.le_mul_of_pos_right (n * radix + digitValue c)
              (Nat.pow_pos (n := rest.length) hradix)
            omega
      · rw [if_neg hdigit]
        constructor
        · intro h
          cases h
        · rintro ⟨hall, -⟩
          exact absurd (hall c List.mem_cons_self) hdigit

/-- An unsigned numeral, read as a word. -/
theorem readNumeral_eq_some_iff {radix : Nat} (hradix : 0 < radix) {text : List Char}
    {m : Nat} :
    readNumeral radix text = some m ↔
      IsNumeral radix text ∧ m = value radix text ∧ m < 2 ^ 64 := by
  unfold readNumeral IsNumeral
  cases text with
  | nil => simp
  | cons c rest =>
      rw [if_neg (by simp), readNumerals_eq_some_iff hradix _ (by decide), Nat.zero_mul,
        Nat.zero_add]
      simp

/-- The texts `UInt.init?(_:radix:)` accepts, whatever their length. -/
inductive IsWordText (radix : Nat) : List Char → Prop
  | unsigned {text : List Char} (h : IsNumeral radix text) : IsWordText radix text
  | plus {text : List Char} (h : IsNumeral radix text) : IsWordText radix ('+' :: text)
  | minus {text : List Char} (h : IsNumeral radix text) (hzero : value radix text = 0) :
      IsWordText radix ('-' :: text)

theorem not_isDigit_plus (radix : Nat) : ¬ IsDigit radix '+' := fun h => absurd h.1 (by decide)

theorem not_isDigit_minus (radix : Nat) : ¬ IsDigit radix '-' := fun h => absurd h.1 (by decide)

/-- A text that starts with no sign is read as it is. -/
theorem ofText_unsigned (radix : Nat) {text : List Char} (hplus : ∀ rest, text ≠ '+' :: rest)
    (hminus : ∀ rest, text ≠ '-' :: rest) :
    ofText radix text = (readNumeral radix text).map UInt64.ofNat := by
  unfold ofText
  split
  · exact absurd rfl (hplus _)
  · exact absurd rfl (hminus _)
  · rfl

theorem ofText_eq {radix : Nat} (hradix : 0 < radix) {text : List Char}
    (h : IsNumeral radix text) (hfits : value radix text < 2 ^ 64) :
    ofText radix text = some (UInt64.ofNat (value radix text)) := by
  rw [ofText_unsigned, (readNumeral_eq_some_iff hradix).mpr ⟨h, rfl, hfits⟩, Option.map_some]
  · rintro rest rfl
    exact not_isDigit_plus radix (h.2 '+' List.mem_cons_self)
  · rintro rest rfl
    exact not_isDigit_minus radix (h.2 '-' List.mem_cons_self)

/-- A text short enough for a word is accepted exactly when it has the form of one. -/
theorem ofText_isSome_iff {radix : Nat} (hradix : 0 < radix) {text : List Char}
    (hfits : radix ^ text.length ≤ 2 ^ 64) :
    (ofText radix text).isSome = true ↔ IsWordText radix text := by
  have hread : ∀ digits : List Char, digits.length ≤ text.length →
      ((∃ m, readNumeral radix digits = some m) ↔ IsNumeral radix digits) := by
    intro digits hlen
    simp only [readNumeral_eq_some_iff hradix]
    constructor
    · rintro ⟨m, h, -⟩
      exact h
    · intro h
      have hpow := Nat.pow_le_pow_right hradix hlen
      have hlt := value_lt h.2
      exact ⟨_, h, rfl, by omega⟩
  constructor
  · intro h
    obtain ⟨d, hd⟩ := Option.isSome_iff_exists.mp h
    unfold ofText at hd
    split at hd
    · rename_i digits
      obtain ⟨m, hm, -⟩ := Option.map_eq_some_iff.mp hd
      exact .plus ((hread digits (by simp)).mp ⟨m, hm⟩)
    · rename_i digits
      obtain ⟨m, hm, -⟩ := Option.map_eq_some_iff.mp hd
      obtain ⟨hm, hzero⟩ := Option.filter_eq_some_iff.mp hm
      obtain ⟨hnumeral, hvalue, -⟩ := (readNumeral_eq_some_iff hradix).mp hm
      exact .minus hnumeral (by rw [← hvalue]; simpa using hzero)
    · obtain ⟨m, hm, -⟩ := Option.map_eq_some_iff.mp hd
      exact .unsigned ((hread text le_rfl).mp ⟨m, hm⟩)
  · intro h
    cases h with
    | unsigned h =>
        have hlt := value_lt h.2
        rw [ofText_eq hradix h (by omega)]
        rfl
    | @plus digits h =>
        obtain ⟨m, hm⟩ := (hread digits (by simp)).mpr h
        simp [ofText, hm]
    | @minus digits h hzero =>
        have hm := (readNumeral_eq_some_iff hradix).mpr ⟨h, rfl, by omega⟩
        simp [ofText, hm, hzero, Option.filter]

end Word

end YieldMe

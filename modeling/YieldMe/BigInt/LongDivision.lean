/-
  BigInt/LongDivision.lean --- division of unsigned big integers.

  The package divides the way one does on paper, one word of the quotient at a
  time.  Each word is guessed from the three leading words of the remainder and
  the two leading words of the divisor, which is shifted until its top bit is
  set.  The guess is right or one too large, and the second case is found by
  comparing products.  A remainder alone is computed by a second copy of the loop
  that is handed a divisor already shifted.
-/
import YieldMe.BigInt.Shifts

set_option autoImplicit false

namespace YieldMe

open Loop Division

namespace Word

/-! ## Guessing a word of the quotient -/

/-- The end of `approximateQuotient`: a guess and its remainder, refined by the
last word of the dividend and the lower word of the divisor. -/
def refineQuotient (q r x2 y0 y1 : Word) : Word :=
  let (ph, pl) := q.multipliedFullWidth y1
  if ph < r ∨ (ph = r ∧ pl ≤ x2) then q
  else
    let (r1, ro) := r.addingReportingOverflow y0
    if ro then q - 1
    else
      let (pl1, so) := pl.subtractingReportingOverflow y1
      let ph1 := if so then ph - 1 else ph
      if ph1 < r1 ∨ (ph1 = r1 ∧ pl1 ≤ x2) then q - 1 else q - 2

/-- `approximateQuotient(dividing:by:)`. -/
def approximateQuotient (x : Word × Word × Word) (y : Word × Word) : Word :=
  let (x0, x1, x2) := x
  let (y0, y1) := y
  if x0 = y0 then
    let q := 0xFFFFFFFFFFFFFFFF
    let (s, o) := x0.addingReportingOverflow x1
    if o then q else refineQuotient q s x2 y0 y1
  else
    let (q, r) := y0.fastDividingFullWidth (x0, x1)
    refineQuotient q r x2 y0 y1

/-- The two words of a product. -/
theorem multipliedFullWidth_spec (x y : Word) :
    (x.multipliedFullWidth y).1.toNat * 2 ^ 64 + (x.multipliedFullWidth y).2.toNat =
      x.toNat * y.toNat := by
  have hx := x.toNat_lt
  have hy := y.toNat_lt
  have hproduct : x.toNat * y.toNat ≤ (2 ^ 64 - 1) * (2 ^ 64 - 1) :=
    Nat.mul_le_mul (by omega) (by omega)
  simp only [multipliedFullWidth, UInt64.toNat_ofNat']
  omega

/-- Two words compared with two words. -/
theorem pair_le_iff (a b c d : Word) :
    (a < c ∨ (a = c ∧ b ≤ d)) ↔
      a.toNat * 2 ^ 64 + b.toNat ≤ c.toNat * 2 ^ 64 + d.toNat := by
  have hb := b.toNat_lt
  have hd := d.toNat_lt
  rw [UInt64.lt_iff_toNat_lt, UInt64.le_iff_toNat_le, ← UInt64.toNat_inj]
  omega

/-- One word subtracted from two, with a borrow from the upper one. -/
theorem sub_pair {ph pl y : Word} {n : Nat}
    (h : n + y.toNat = ph.toNat * 2 ^ 64 + pl.toNat) :
    (if pl.toNat < y.toNat then ph - 1 else ph).toNat * 2 ^ 64 + (pl - y).toNat = n := by
  have hy := y.toNat_lt
  have hpl := pl.toNat_lt
  split
  · rename_i hborrow
    have hph : (1 : Word) ≤ ph := UInt64.le_iff_toNat_le.mpr (by
      rw [UInt64.toNat_one]
      omega)
    rw [UInt64.toNat_sub_of_le ph 1 hph, UInt64.toNat_sub, UInt64.toNat_one]
    omega
  · rename_i hborrow
    rw [UInt64.toNat_sub_of_le pl y (UInt64.le_iff_toNat_le.mpr (by omega))]
    omega

/-- The refined guess is the exact quotient, or the largest word. -/
theorem toNat_refineQuotient {q r x2 y0 y1 : Word} {u : Nat}
    (h : Capped (2 ^ 64) y0.toNat y1.toNat u x2.toNat q.toNat r.toNat) :
    (refineQuotient q r x2 y0 y1).toNat =
      min ((u * 2 ^ 64 + x2.toNat) / (y0.toNat * 2 ^ 64 + y1.toNat)) (2 ^ 64 - 1) := by
  have hproduct := multipliedFullWidth_spec q y1
  have hr := r.toNat_lt
  have hy0 := y0.toNat_lt
  have hy1 := y1.toNat_lt
  unfold refineQuotient
  simp only [pair_le_iff, addingReportingOverflow, subtractingReportingOverflow,
    decide_eq_true_eq]
  generalize (q.multipliedFullWidth y1).1 = ph at *
  generalize (q.multipliedFullWidth y1).2 = pl at *
  have hpl := pl.toNat_lt
  split
  · rename_i haccept
    exact h.accept (by omega)
  · rename_i hreject
    have hlarge : r.toNat * 2 ^ 64 + x2.toNat < q.toNat * y1.toNat := by omega
    obtain ⟨hq, -⟩ := h.lt_of_reject hlarge
    have hpred : (q - 1).toNat = q.toNat - 1 :=
      UInt64.toNat_sub_of_le q 1 (UInt64.le_iff_toNat_le.mpr hq)
    have hproduct' : (q.toNat - 1) * y1.toNat + y1.toNat = q.toNat * y1.toNat := by
      obtain ⟨c, hc⟩ : ∃ c, q.toNat = c + 1 := ⟨q.toNat - 1, by omega⟩
      rw [hc, Nat.add_sub_cancel]
      ring
    split
    · rename_i hcarry
      rw [hpred, h.accept_pred_of_carry hlarge hcarry]
    · rename_i hcarry
      -- the product less one row, with a borrow from its upper word
      have hpair : (if pl.toNat < y1.toNat then ph - 1 else ph).toNat * 2 ^ 64 +
          (pl - y1).toNat = (q.toNat - 1) * y1.toNat :=
        sub_pair (by omega)
      rw [UInt64.toNat_add, Nat.mod_eq_of_lt (by omega), hpair]
      split
      · rename_i haccept
        rw [hpred, h.accept_pred hlarge haccept]
      · rename_i hreject'
        obtain ⟨htwo, hquotient⟩ := h.accept_pred_pred hlarge (Nat.lt_of_not_le hreject')
        have htwo' : (2 : Word) ≤ q := UInt64.le_iff_toNat_le.mpr htwo
        rw [UInt64.toNat_sub_of_le q 2 htwo', ← hquotient]
        rfl

theorem two_words_div (n : Nat) {m : Nat} (hm : m < 2 ^ 64) : (n * 2 ^ 64 + m) / 2 ^ 64 = n := by
  omega

/-- The quotient of three words by two, where the leading two are at most the
divisor: exact, or the largest word. -/
theorem toNat_approximateQuotient {x0 x1 y0 y1 : Word} (x2 : Word) (hnorm : 2 ^ 63 ≤ y0.toNat)
    (htop : x0.toNat * 2 ^ 64 + x1.toNat ≤ y0.toNat * 2 ^ 64 + y1.toNat) :
    (approximateQuotient (x0, x1, x2) (y0, y1)).toNat =
      min (((x0.toNat * 2 ^ 64 + x1.toNat) * 2 ^ 64 + x2.toNat) /
        (y0.toNat * 2 ^ 64 + y1.toNat)) (2 ^ 64 - 1) := by
  have hx1 := x1.toNat_lt
  have hy1 := y1.toNat_lt
  simp only [approximateQuotient]
  by_cases heq : x0 = y0
  · rw [if_pos heq]
    have hmax : (0xFFFFFFFFFFFFFFFF : Word).toNat = 2 ^ 64 - 1 := rfl
    simp only [addingReportingOverflow, decide_eq_true_eq]
    split
    · -- the remainder of the largest word is no word
      rename_i hover
      rw [hmax, heq]
      symm
      apply Nat.min_eq_right
      rw [Nat.le_div_iff_mul_le (by omega)]
      rw [heq] at hover
      omega
    · rename_i hfits
      refine toNat_refineQuotient ⟨by omega, hy1, ?_, by rw [hmax]; omega, ?_⟩
      · rw [hmax, UInt64.toNat_add, Nat.mod_eq_of_lt (by omega), heq]
        omega
      · rw [hmax]
        omega
  · rw [if_neg heq]
    have hlt : x0.toNat < y0.toNat := by
      have hne : x0.toNat ≠ y0.toNat := fun h => heq (UInt64.toNat_inj.mp h)
      omega
    obtain ⟨hq, hr⟩ := fastDividingFullWidth_spec x1 hlt
    have hpos : 0 < y0.toNat := by omega
    generalize y0.fastDividingFullWidth (x0, x1) = qr at hq hr ⊢
    have hdigit : (x0.toNat * 2 ^ 64 + x1.toNat) / y0.toNat < 2 ^ 64 :=
      append_digit_div_lt hlt hx1
    refine toNat_refineQuotient ⟨by omega, hy1, ?_, by omega, ?_⟩
    · rw [hq, hr]
      exact (Nat.div_add_mod' _ _).symm
    · have hv := two_words_div y0.toNat hy1
      have hu := two_words_div (x0.toNat * 2 ^ 64 + x1.toNat) x2.toNat_lt
      have hlead := div_le_leading (p := 2 ^ 64)
        (u := (x0.toNat * 2 ^ 64 + x1.toNat) * 2 ^ 64 + x2.toNat)
        (v := y0.toNat * 2 ^ 64 + y1.toNat) (by decide) (by rwa [hv])
      rw [hu, hv, ← hq] at hlead
      exact Nat.le_trans (Nat.min_le_left _ _) hlead

end Word

namespace BigUInt

/-! ## Shifting a divisor until its top bit is set -/

/-- The top bit of the top word is set. -/
def IsNormalized (y : BigUInt) : Prop := 2 ^ 63 ≤ (y.get (y.count - 1)).toNat

theorem leadingZeroBitCount_add_size {y : BigUInt} (h : 0 < y.count) :
    y.leadingZeroBitCount + Nat.size y.toNat = 64 * y.count ∧ y.leadingZeroBitCount < 64 := by
  obtain ⟨hz, -, -⟩ := Word.normalized_shift (get_top_pos h)
  have hwidth := bitWidth_eq y
  rw [bitWidth, if_neg (by omega)] at hwidth
  rw [leadingZeroBitCount, if_neg (by omega)]
  omega

/-- Shifted by its leading zeros, a divisor is normalized and has as many words as
before. -/
theorem normalized_shift {y : BigUInt} (h : 0 < y.count) :
    IsNormalized (ofNat (y.toNat * 2 ^ y.leadingZeroBitCount)) ∧
      (ofNat (y.toNat * 2 ^ y.leadingZeroBitCount)).count = y.count := by
  obtain ⟨hz, hz'⟩ := leadingZeroBitCount_add_size h
  generalize y.leadingZeroBitCount = z at *
  have hpos : 0 < Nat.size y.toNat := by omega
  have hlt : y.toNat * 2 ^ z < weight y.count := by
    rw [weight_eq, ← hz, Nat.add_comm, pow_add]
    exact Nat.mul_lt_mul_of_pos_right (Nat.lt_size_self _) (Nat.two_pow_pos z)
  have hge : 2 ^ 63 * weight (y.count - 1) ≤ y.toNat * 2 ^ z := by
    have hsize := Nat.lt_size.mp (show Nat.size y.toNat - 1 < Nat.size y.toNat by omega)
    have hmul := Nat.mul_le_mul_right (2 ^ z) hsize
    rw [weight_eq, ← pow_add]
    rwa [← pow_add, show Nat.size y.toNat - 1 + z = 63 + 64 * (y.count - 1) by omega] at hmul
  have hcount : (ofNat (y.toNat * 2 ^ z)).count = y.count := by
    apply Nat.le_antisymm
    · exact count_le_of_lt (by rwa [toNat_ofNat])
    · by_contra hfew
      have hsmall := (ofNat (y.toNat * 2 ^ z)).toNat_lt_weight
      rw [toNat_ofNat] at hsmall
      have hmono := weight_le (show (ofNat (y.toNat * 2 ^ z)).count ≤ y.count - 1 by omega)
      have hone : weight (y.count - 1) ≤ 2 ^ 63 * weight (y.count - 1) :=
        Nat.le_mul_of_pos_left _ (by decide)
      omega
  refine ⟨?_, hcount⟩
  rw [IsNormalized, toNat_get_top (by omega), hcount, toNat_ofNat,
    Nat.le_div_iff_mul_le (weight_pos _)]
  exact hge

/-! ## The loop -/

/-- What a round of both division loops does with the remainder: the remainder
after it, and the word of the quotient.  The loops take the words of the divisor
before they start. -/
def divideRound (y : BigUInt) (dc : Nat) (d1 d0 : Word) (k : Nat) (x : BigUInt) :
    Option (BigUInt × Word) :=
  let j := dc + k
  let q := Word.approximateQuotient (x.get j, x.get (j - 1), x.get (j - 2)) (d1, d0)
  let product := y.multiply q
  if product.le (x.extract (j - dc) (j + 1)) then
    (x.subtract product (j - dc)).map fun x' => (x', q)
  else ((x.add y (j - dc)).subtract product (j - dc)).map fun x' => (x', q - 1)

/-- `divide(_:by:)`: the quotient and the remainder.  A zero divisor stops the
process. -/
def quotientAndRemainder (x y : BigUInt) : Option (BigUInt × BigUInt) :=
  if y.isZero then none
  else if x.lt y then some (zero, x)
  else if y.count = 1 then
    let (quotient, remainder) := x.divide (y.get 0)
    some (quotient, ofWord remainder)
  else
    let z := y.leadingZeroBitCount
    let y := y.shiftLeft z
    let x := x.shiftLeft z
    let dc := y.count
    let rounds := (List.range (x.count + 1 - dc)).foldrM
      (fun k (s : BigUInt × BigUInt) =>
        (divideRound y dc (y.get (dc - 1)) (y.get (dc - 2)) k s.1).map fun (x', q) =>
          (x', s.2.set k q))
      (x, zero)
    rounds.map fun (x, quotient) => (quotient, x.shiftRight z)

/-- `formRemainder(dividingBy:normalizedBy:)`: the divisor comes shifted. -/
def formRemainder (x y : BigUInt) (shift : Nat) : Option BigUInt :=
  if y.isZero then none
  else if y.count = 1 then
    some (ofWord (x.divide (y.get 0 >>> UInt64.ofNat shift)).2)
  else
    let x := x.shiftLeft shift
    let dc := y.count
    let rounds :=
      if y.le x then
        (List.range (x.count + 1 - dc)).foldrM
          (fun k x =>
            (divideRound y dc (y.get (dc - 1)) (y.get (dc - 2)) k x).map Prod.fst) x
      else some x
    rounds.map fun x => x.shiftRight shift

/-- `/`. -/
def divided (x y : BigUInt) : Option BigUInt := (x.quotientAndRemainder y).map Prod.fst

/-- `%`. -/
def remainder (x y : BigUInt) : Option BigUInt :=
  let shift := y.leadingZeroBitCount
  x.formRemainder (y.shiftedLeft shift) shift

/-! ## One round -/

/-- A number and the numbers above its words: the three words from an index up. -/
theorem three_words {x : BigUInt} {i : Nat} (h : x.toNat < weight (i + 3)) :
    (x.get (i + 2)).toNat * 2 ^ 64 + (x.get (i + 1)).toNat = x.toNat / weight (i + 1) ∧
      ((x.get (i + 2)).toNat * 2 ^ 64 + (x.get (i + 1)).toNat) * 2 ^ 64 + (x.get i).toNat =
        x.toNat / weight i := by
  have htop := div_weight x (i + 2)
  rw [Nat.div_eq_of_lt h, Nat.zero_mul, Nat.zero_add] at htop
  have hmiddle := div_weight x (i + 1)
  rw [htop] at hmiddle
  have hlow := div_weight x i
  rw [hmiddle] at hlow
  exact ⟨hmiddle.symm, hlow.symm⟩

/-- The two leading words of a divisor. -/
theorem leading_words {y : BigUInt} {c : Nat} (h : y.count = c + 2) :
    (y.get (c + 1)).toNat * 2 ^ 64 + (y.get c).toNat = y.toNat / weight c := by
  have htop := toNat_get_top (show 0 < y.count by omega)
  rw [h, show c + 2 - 1 = c + 1 by omega] at htop
  rw [div_weight y c, ← htop]

/-- A remainder before a round has at most one word more than its shifted divisor. -/
theorem remainder_lt {x y : BigUInt} {k : Nat} (hx : x.toNat < y.toNat * weight (k + 1)) :
    x.toNat < weight (y.count + k + 1) := by
  refine Nat.lt_of_lt_of_le hx ?_
  rw [Nat.add_assoc, weight_add y.count (k + 1)]
  exact Nat.mul_le_mul_right _ (Nat.le_of_lt y.toNat_lt_weight)

/-- The guess from the leading words is the quotient or one more. -/
theorem guess_spec {x y : BigUInt} {k : Nat} (hcount : 2 ≤ y.count)
    (hnorm : IsNormalized y) (hx : x.toNat < y.toNat * weight (k + 1)) :
    let q := Word.approximateQuotient
      (x.get (y.count + k), x.get (y.count + k - 1), x.get (y.count + k - 2))
      (y.get (y.count - 1), y.get (y.count - 2))
    x.toNat / weight k / y.toNat ≤ q.toNat ∧
      q.toNat ≤ x.toNat / weight k / y.toNat + 1 := by
  have hlt := remainder_lt hx
  obtain ⟨c, hc⟩ : ∃ c, y.count = c + 2 := ⟨y.count - 2, by omega⟩
  have hlead := leading_words hc
  rw [IsNormalized] at hnorm
  rw [show y.count - 2 = c by omega, show y.count + k - 1 = c + k + 1 by omega,
    show y.count + k - 2 = c + k by omega, show y.count + k = c + k + 2 by omega]
  rw [show y.count + k = c + k + 2 by omega] at hlt
  rw [show y.count - 1 = c + 1 by omega] at hnorm ⊢
  obtain ⟨htwo, hthree⟩ := three_words hlt
  have hu : x.toNat / weight k < y.toNat * 2 ^ 64 := by
    rw [Nat.div_lt_iff_lt_mul (weight_pos k), Nat.mul_assoc, ← weight_succ]
    exact hx
  have hthree' : x.toNat / weight (c + k) = x.toNat / weight k / weight c := by
    rw [Nat.add_comm c, weight_add, ← Nat.div_div_eq_div_mul]
  have htop : x.toNat / weight (c + k + 1) ≤ y.toNat / weight c := by
    have hsplit : x.toNat / weight (c + k + 1) = x.toNat / weight k / 2 ^ 64 / weight c := by
      rw [Nat.div_div_eq_div_mul, Nat.div_div_eq_div_mul, weight_succ, weight_add]
      congr 1
      ring
    rw [hsplit]
    exact Nat.div_le_div_right (Nat.le_of_lt (Nat.div_lt_of_lt_mul (by rwa [Nat.mul_comm])))
  have hspec := Word.toNat_approximateQuotient (x.get (c + k)) hnorm
    (by rw [htwo, hlead]; exact htop)
  rw [hthree, hlead, hthree'] at hspec
  intro q
  rw [show q.toNat = _ from hspec]
  exact digit_of_leading (weight_pos c) (by omega) (by decide) hu

/-- A round takes the largest multiple of the divisor away that it can. -/
theorem divideRound_spec {x y : BigUInt} {k : Nat} (hcount : 2 ≤ y.count)
    (hnorm : IsNormalized y) (hx : x.toNat < y.toNat * weight (k + 1)) :
    ∃ q, divideRound y y.count (y.get (y.count - 1)) (y.get (y.count - 2)) k x =
        some (ofNat (x.toNat % (y.toNat * weight k)), q) ∧
      q.toNat = x.toNat / (y.toNat * weight k) := by
  have hguess := guess_spec hcount hnorm hx
  simp only [divideRound] at hguess ⊢
  generalize Word.approximateQuotient _ _ = q at hguess ⊢
  obtain ⟨hle, hge⟩ := hguess
  have hypos : 0 < y.toNat := toNat_pos (by omega)
  have hquotient : x.toNat / (y.toNat * weight k) = x.toNat / weight k / y.toNat := by
    rw [Nat.mul_comm, Nat.div_div_eq_div_mul]
  have hmod := Nat.div_add_mod' x.toNat (y.toNat * weight k)
  rw [hquotient] at hmod ⊢
  have hfits : (y.multiply q).le (x.extract (y.count + k - y.count) (y.count + k + 1)) = true ↔
      q.toNat ≤ x.toNat / weight k / y.toNat := by
    rw [le_iff, toNat_multiply, toNat_extract, Nat.mod_eq_of_lt (remainder_lt hx),
      Nat.add_sub_cancel_left, Nat.le_div_iff_mul_le hypos, Nat.mul_comm]
  generalize x.toNat / weight k / y.toNat = t at *
  split
  · rename_i haccept
    have hq : q.toNat = t := Nat.le_antisymm (hfits.mp haccept) hle
    refine ⟨q, ?_, hq⟩
    have hproduct : y.toNat * t * weight k = t * (y.toNat * weight k) := by ring
    rw [Nat.add_sub_cancel_left, subtract_eq, toNat_multiply, hq, hproduct, if_pos (by omega),
      Option.map_some, show x.toNat - t * (y.toNat * weight k) =
        x.toNat % (y.toNat * weight k) by omega]
  · rename_i hreject
    have hq : q.toNat = t + 1 := by
      have hlarge : ¬ q.toNat ≤ t := fun h => hreject (hfits.mpr h)
      omega
    refine ⟨q - 1, ?_, ?_⟩
    · have hproduct : y.toNat * (t + 1) * weight k =
          t * (y.toNat * weight k) + y.toNat * weight k := by ring
      rw [Nat.add_sub_cancel_left, subtract_eq, add_eq, toNat_ofNat, toNat_multiply, hq, hproduct,
        if_pos (by omega), Option.map_some, Nat.add_sub_add_right,
        show x.toNat - t * (y.toNat * weight k) = x.toNat % (y.toNat * weight k) by omega]
    · rw [UInt64.toNat_sub_of_le q 1 (UInt64.le_iff_toNat_le.mpr (by rw [UInt64.toNat_one]; omega)),
        hq]
      rfl

/-! ## All rounds -/

/-- The remainder is below the divisor shifted to the round before the first. -/
theorem lt_first_round {x y : BigUInt} (h : 0 < y.count) :
    x.toNat < y.toNat * weight (x.count + 1 - y.count) := by
  have hle : weight x.count ≤ weight (y.count - 1) * weight (x.count + 1 - y.count) := by
    rw [← weight_add]
    exact weight_le (by omega)
  have hmul := Nat.mul_le_mul_right (weight (x.count + 1 - y.count)) (weight_le_toNat h)
  have hx := x.toNat_lt_weight
  omega

/-- The remainder and the words of the quotient so far, for the rounds from `k` up. -/
def DivideInvariant (n y : Nat) (k : Nat) (s : BigUInt × BigUInt) : Prop :=
  s.1.toNat = n % (y * weight k) ∧ s.2.toNat = n / (y * weight k) * weight k

theorem mul_weight_succ (y k : Nat) : y * weight (k + 1) = y * weight k * 2 ^ 64 := by
  rw [weight_succ]
  ring

theorem divide_rounds {x y : BigUInt} (hcount : 2 ≤ y.count) (hnorm : IsNormalized y) :
    (List.range (x.count + 1 - y.count)).foldrM
      (fun k (s : BigUInt × BigUInt) =>
        (divideRound y y.count (y.get (y.count - 1)) (y.get (y.count - 2)) k s.1).map
          fun (x', q) => (x', s.2.set k q))
      (x, zero) = some (ofNat (x.toNat % y.toNat), ofNat (x.toNat / y.toNat)) := by
  have hfirst := lt_first_round (x := x) (show 0 < y.count by omega)
  obtain ⟨s, hs, hremainder, hquotient⟩ := foldrM_range_rule
    (DivideInvariant x.toNat y.toNat) (n := x.count + 1 - y.count) (s := (x, zero))
    (f := fun k (s : BigUInt × BigUInt) =>
      (divideRound y y.count (y.get (y.count - 1)) (y.get (y.count - 2)) k s.1).map
        fun (x', q) => (x', s.2.set k q))
    ⟨(Nat.mod_eq_of_lt hfirst).symm, by rw [Nat.div_eq_of_lt hfirst, Nat.zero_mul]; rfl⟩
    (fun k s _ h => by
      obtain ⟨hx, hq⟩ := h
      have hlt : s.1.toNat < y.toNat * weight (k + 1) := by
        rw [hx]
        exact Nat.mod_lt _ (Nat.mul_pos (toNat_pos (by omega)) (weight_pos _))
      obtain ⟨q, hround, hword⟩ := divideRound_spec hcount hnorm hlt
      refine ⟨_, by rw [hround, Option.map_some], ?_, ?_⟩
      · rw [toNat_ofNat, hx, mul_weight_succ y.toNat k, Nat.mod_mul_right_mod]
      · have hzero : (s.2.get k).toNat = 0 := by
          rw [toNat_get, hq, weight_succ, ← Nat.mul_assoc, Nat.mul_div_cancel _ (weight_pos k),
            Nat.mul_mod_left]
        have hset := toNat_set s.2 k q
        rw [hzero, Nat.zero_mul, Nat.add_zero, hq, hword, hx, mul_weight_succ y.toNat k,
          Nat.mod_mul_right_div_self, ← Nat.div_div_eq_div_mul, weight_succ] at hset
        have hsplit := Nat.div_add_mod' (x.toNat / (y.toNat * weight k)) (2 ^ 64)
        generalize x.toNat / (y.toNat * weight k) = t at hset hsplit ⊢
        calc (s.2.set k q).toNat = (t / 2 ^ 64 * 2 ^ 64 + t % 2 ^ 64) * weight k := by
              rw [hset]
              ring
          _ = t * weight k := by rw [hsplit])
  rw [hs]
  rw [weight_zero, Nat.mul_one] at hremainder hquotient
  rw [Nat.mul_one] at hquotient
  exact congrArg some (Prod.ext (eq_ofNat hremainder) (eq_ofNat hquotient))

theorem remainder_rounds {x y : BigUInt} (hcount : 2 ≤ y.count) (hnorm : IsNormalized y) :
    (List.range (x.count + 1 - y.count)).foldrM
      (fun k x => (divideRound y y.count (y.get (y.count - 1)) (y.get (y.count - 2)) k x).map
        Prod.fst) x = some (ofNat (x.toNat % y.toNat)) := by
  have hfirst := lt_first_round (x := x) (show 0 < y.count by omega)
  obtain ⟨x', hx', hremainder⟩ := foldrM_range_rule
    (fun k (x' : BigUInt) => x'.toNat = x.toNat % (y.toNat * weight k))
    (n := x.count + 1 - y.count) (s := x)
    (f := fun k x =>
      (divideRound y y.count (y.get (y.count - 1)) (y.get (y.count - 2)) k x).map Prod.fst)
    (Nat.mod_eq_of_lt hfirst).symm
    (fun k x' _ h => by
      have hlt : x'.toNat < y.toNat * weight (k + 1) := by
        rw [h]
        exact Nat.mod_lt _ (Nat.mul_pos (toNat_pos (by omega)) (weight_pos _))
      obtain ⟨q, hround, -⟩ := divideRound_spec hcount hnorm hlt
      refine ⟨_, by rw [hround, Option.map_some], ?_⟩
      rw [toNat_ofNat, h, mul_weight_succ y.toNat k, Nat.mod_mul_right_mod])
  rw [hx']
  rw [weight_zero, Nat.mul_one] at hremainder
  exact congrArg some (eq_ofNat hremainder)

/-! ## Quotients and remainders -/

theorem isZero_eq_false {y : BigUInt} (h : 0 < y.toNat) : y.isZero = false := by
  cases hzero : y.isZero with
  | false => rfl
  | true =>
      rw [isZero_iff] at hzero
      omega

theorem divide_word {x y : BigUInt} (h : y.count = 1) :
    ((x.divide (y.get 0)).1, ofWord (x.divide (y.get 0)).2) =
      (ofNat (x.toNat / y.toNat), ofNat (x.toNat % y.toNat)) := by
  have hword := toNat_get_zero h
  obtain ⟨hquotient, hremainder⟩ :=
    toNat_divide x (y := y.get 0) (by rw [hword]; exact toNat_pos (by omega))
  rw [hword] at hquotient hremainder
  exact Prod.ext (eq_ofNat hquotient) (eq_ofNat (by rw [toNat_ofWord, hremainder]))

/-- The division is exact, and stops the process for a zero divisor only. -/
theorem quotientAndRemainder_eq (x y : BigUInt) :
    x.quotientAndRemainder y =
      if y.toNat = 0 then none
      else some (ofNat (x.toNat / y.toNat), ofNat (x.toNat % y.toNat)) := by
  unfold quotientAndRemainder
  by_cases hzero : y.toNat = 0
  · rw [if_pos ((isZero_iff y).mpr hzero), if_pos hzero]
  have hpos : 0 < y.toNat := Nat.pos_of_ne_zero hzero
  rw [isZero_eq_false hpos, if_neg hzero, if_neg Bool.false_ne_true]
  by_cases hless : x.lt y = true
  · have hlt := (lt_iff x y).mp hless
    rw [if_pos hless, Nat.div_eq_of_lt hlt, Nat.mod_eq_of_lt hlt, ofNat_toNat]
    rfl
  rw [if_neg hless]
  by_cases hone : y.count = 1
  · rw [if_pos hone]
    exact congrArg some (divide_word hone)
  rw [if_neg hone]
  have hcount : 0 < y.count := Nat.pos_of_ne_zero fun h => hzero ((count_eq_zero_iff y).mp h)
  obtain ⟨hnorm, hcount'⟩ := normalized_shift hcount
  simp only [shiftLeft_eq]
  generalize y.leadingZeroBitCount = z at hnorm hcount' ⊢
  rw [divide_rounds (by omega) hnorm, Option.map_some, toNat_ofNat, toNat_ofNat, shiftRight_eq,
    toNat_ofNat, Nat.mul_div_mul_right _ _ (Nat.two_pow_pos z), Nat.mul_mod_mul_right,
    Nat.mul_div_cancel _ (Nat.two_pow_pos z)]

/-- A divisor shifted by its leading zeros gives the remainder of the one that was
shifted. -/
theorem formRemainder_eq (x : BigUInt) {m : BigUInt} (h : 0 < m.toNat) :
    x.formRemainder (m.shiftedLeft m.leadingZeroBitCount) m.leadingZeroBitCount =
      some (ofNat (x.toNat % m.toNat)) := by
  have hcount : 0 < m.count := Nat.pos_of_ne_zero fun hzero => by
    rw [count_eq_zero_iff] at hzero
    omega
  obtain ⟨hnorm, hcount'⟩ := normalized_shift hcount
  obtain ⟨-, hz⟩ := leadingZeroBitCount_add_size hcount
  rw [shiftedLeft_eq]
  generalize m.leadingZeroBitCount = z at hnorm hcount' hz ⊢
  have hpos : 0 < (ofNat (m.toNat * 2 ^ z)).toNat := by
    rw [toNat_ofNat]
    exact Nat.mul_pos h (Nat.two_pow_pos z)
  unfold formRemainder
  rw [isZero_eq_false hpos, if_neg Bool.false_ne_true]
  by_cases hone : (ofNat (m.toNat * 2 ^ z)).count = 1
  · have hword : ((ofNat (m.toNat * 2 ^ z)).get 0 >>> UInt64.ofNat z).toNat = m.toNat := by
      rw [Word.toNat_shiftRight _ hz, toNat_get_zero hone, toNat_ofNat,
        Nat.mul_div_cancel _ (Nat.two_pow_pos z)]
    rw [if_pos hone]
    obtain ⟨-, hremainder⟩ := toNat_divide x (by rw [hword]; exact h)
    rw [hword] at hremainder
    exact congrArg some (eq_ofNat (by rw [toNat_ofWord, hremainder]))
  · rw [if_neg hone]
    simp only [shiftLeft_eq]
    rw [remainder_rounds (by omega) hnorm]
    split
    · rw [Option.map_some, toNat_ofNat, toNat_ofNat, shiftRight_eq, toNat_ofNat,
        Nat.mul_mod_mul_right, Nat.mul_div_cancel _ (Nat.two_pow_pos z)]
    · rename_i hless
      rw [le_iff, toNat_ofNat, toNat_ofNat, Nat.not_le] at hless
      rw [Option.map_some, shiftRight_eq, toNat_ofNat, Nat.mul_div_cancel _ (Nat.two_pow_pos z),
        Nat.mod_eq_of_lt (Nat.lt_of_mul_lt_mul_right hless)]

theorem divided_eq (x y : BigUInt) :
    x.divided y = if y.toNat = 0 then none else some (ofNat (x.toNat / y.toNat)) := by
  rw [divided, quotientAndRemainder_eq]
  split <;> rfl

/-- The remainder agrees with the one of the division. -/
theorem remainder_eq (x y : BigUInt) :
    x.remainder y = if y.toNat = 0 then none else some (ofNat (x.toNat % y.toNat)) := by
  by_cases hzero : y.toNat = 0
  · have hy : (y.shiftedLeft y.leadingZeroBitCount).isZero = true := by
      rw [isZero_iff, shiftedLeft_eq, toNat_ofNat, hzero, Nat.zero_mul]
    rw [remainder, formRemainder, if_pos hy, if_pos hzero]
  · rw [if_neg hzero]
    exact formRemainder_eq x (Nat.pos_of_ne_zero hzero)

end BigUInt

end YieldMe

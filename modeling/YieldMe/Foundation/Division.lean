/-
  Foundation/Division.lean --- dividing a number of three digits by one of two,
  from an estimate of the quotient.

  The divisor `v1 * b + v0` is normalized: its top digit is at least half of the
  base.  Dividing the top two digits `u1` of the dividend by `v1` alone estimates
  the quotient of `u1 * b + u0` from above, and by at most two.  What an
  implementation has to decide is which of the three candidates is right; the
  lemmas here say so for the two tests that Knuth's algorithm D uses, and that no
  number it computes on the way is as large as `b * b`.
-/
import Mathlib.Tactic.Linarith
import Mathlib.Tactic.Ring

set_option autoImplicit false

namespace Division

/-- The numbers of one estimate: the base, the divisor, the dividend, and the
quotient and the remainder of its top digits by the top digit of the divisor. -/
structure Estimate (b v1 v0 u1 u0 q r : Nat) : Prop where
  normalized : b ≤ 2 * v1
  digit1 : v1 < b
  digit0 : v0 < b
  top : u1 < v1 * b + v0
  low : u0 < b
  split : u1 = q * v1 + r
  remainder : r < v1

namespace Estimate

variable {b v1 v0 u1 u0 q r : Nat}

theorem dividend_lt (h : Estimate b v1 v0 u1 u0 q r) :
    u1 * b + u0 < b * (v1 * b + v0) := by
  have htop : u1 + 1 ≤ v1 * b + v0 := h.top
  have hmul := Nat.mul_le_mul_right b htop
  have hlow := h.low
  rw [Nat.mul_comm b]
  rw [Nat.add_mul, Nat.one_mul] at hmul
  omega

/-- The estimate is at most one more than the base. -/
theorem le_base_succ (h : Estimate b v1 v0 u1 u0 q r) : q ≤ b + 1 := by
  by_contra hlarge
  have hq : b + 2 ≤ q := by omega
  have hmul := Nat.mul_le_mul_right v1 hq
  have hsplit := h.split
  have htop := h.top
  have hnorm := h.normalized
  have hv0 := h.digit0
  have hexpand : (b + 2) * v1 = v1 * b + 2 * v1 := by ring
  omega

/-- The product the tests compare fits in two digits. -/
theorem mul_lt (h : Estimate b v1 v0 u1 u0 q r) : q * v0 < b * b := by
  have hq := h.le_base_succ
  have hv0 : v0 + 1 ≤ b := h.digit0
  have hmul : q * v0 ≤ (b + 1) * v0 := Nat.mul_le_mul_right v0 hq
  obtain ⟨c, hc⟩ : ∃ c, b = v0 + 1 + c := ⟨b - (v0 + 1), by omega⟩
  subst hc
  nlinarith [Nat.zero_le c, Nat.zero_le v0]

/-- The dividend in terms of the estimate. -/
theorem dividend_eq (h : Estimate b v1 v0 u1 u0 q r) :
    u1 * b + u0 + q * v0 = q * (v1 * b + v0) + (r * b + u0) := by
  rw [h.split]
  ring

/-- What is left below a digit is less than the divisor. -/
theorem left_lt (h : Estimate b v1 v0 u1 u0 q r) : r * b + u0 < v1 * b + v0 := by
  have hr : r + 1 ≤ v1 := h.remainder
  have hmul := Nat.mul_le_mul_right b hr
  have hlow := h.low
  rw [Nat.add_mul, Nat.one_mul] at hmul
  omega

/-- A quotient that is no digit is too large. -/
theorem not_le_dividend (h : Estimate b v1 v0 u1 u0 q r) {c : Nat} (hc : b ≤ c) :
    u1 * b + u0 < c * (v1 * b + v0) :=
  Nat.lt_of_lt_of_le h.dividend_lt (Nat.mul_le_mul_right _ hc)

/-- The first test accepts the true quotient. -/
theorem accept (h : Estimate b v1 v0 u1 u0 q r) (hp : q * v0 ≤ r * b + u0) :
    (u1 * b + u0) / (v1 * b + v0) = q := by
  have hleft := h.left_lt
  have heq := h.dividend_eq
  apply Nat.div_eq_of_lt_le
  · omega
  · rw [Nat.succ_mul]
    omega

/-- Where the first test fails, the estimate is too large. -/
theorem too_large (h : Estimate b v1 v0 u1 u0 q r)
    (hreject : ¬ (q < b ∧ q * v0 ≤ r * b + u0)) : r * b + u0 < q * v0 := by
  by_contra hle
  have hq : b ≤ q := by
    by_contra hlt
    exact hreject ⟨by omega, by omega⟩
  have hdividend := h.not_le_dividend hq
  have heq := h.dividend_eq
  omega

/-- An estimate that is too large is positive. -/
theorem pos_of_too_large (hlarge : r * b + u0 < q * v0) : 0 < q := by
  rcases Nat.eq_zero_or_pos q with rfl | hpos
  · simp at hlarge
  · exact hpos

/-- The dividend in terms of the estimate less one. -/
theorem dividend_eq_pred (h : Estimate b v1 v0 u1 u0 q r) (hq : 0 < q) :
    u1 * b + u0 + q * v0 = (q - 1) * (v1 * b + v0) + ((r + v1) * b + u0) + v0 := by
  obtain ⟨c, rfl⟩ : ∃ c, q = c + 1 := ⟨q - 1, by omega⟩
  rw [h.dividend_eq, Nat.add_sub_cancel]
  ring

/-- The second candidate is right when the first one is too large and the second
one is not. -/
theorem accept_pred (h : Estimate b v1 v0 u1 u0 q r) (hlarge : r * b + u0 < q * v0)
    (hp : q * v0 ≤ (r + v1) * b + u0 + v0) :
    (u1 * b + u0) / (v1 * b + v0) = q - 1 := by
  have hq := pos_of_too_large hlarge
  have heq := h.dividend_eq_pred hq
  have hexpand : (r + v1) * b = r * b + v1 * b := Nat.add_mul r v1 b
  apply Nat.div_eq_of_lt_le
  · omega
  · rw [Nat.succ_mul]
    omega

/-- A remainder that is no digit makes the second candidate right. -/
theorem accept_pred_of_carry (h : Estimate b v1 v0 u1 u0 q r)
    (hlarge : r * b + u0 < q * v0) (hcarry : b ≤ r + v1) :
    (u1 * b + u0) / (v1 * b + v0) = q - 1 := by
  have hmul := Nat.mul_le_mul_right b hcarry
  have hlt := h.mul_lt
  exact h.accept_pred hlarge (by omega)

/-- Where both tests fail, the second candidate is too large as well. -/
theorem pred_too_large (h : Estimate b v1 v0 u1 u0 q r) (hlarge : r * b + u0 < q * v0)
    (hreject : ¬ (q - 1 < b ∧ q * v0 - v0 ≤ (r + v1) * b + u0)) :
    (r + v1) * b + u0 + v0 < q * v0 := by
  by_contra hle
  have hq := pos_of_too_large hlarge
  have hq' : b ≤ q - 1 := by
    by_contra hlt
    exact hreject ⟨by omega, by omega⟩
  have hdividend := h.not_le_dividend hq'
  have heq := h.dividend_eq_pred hq
  omega

/-- The third candidate is right when the first two are too large. -/
theorem accept_pred_pred (h : Estimate b v1 v0 u1 u0 q r)
    (hlarge : (r + v1) * b + u0 + v0 < q * v0) :
    2 ≤ q ∧ (u1 * b + u0) / (v1 * b + v0) = q - 2 := by
  have hq : 2 ≤ q := by
    by_contra hsmall
    have hle : q * v0 ≤ 1 * v0 := Nat.mul_le_mul_right v0 (by omega)
    omega
  obtain ⟨c, rfl⟩ : ∃ c, q = c + 2 := ⟨q - 2, by omega⟩
  have heq : u1 * b + u0 + (c + 2) * v0 =
      c * (v1 * b + v0) + ((r + v1) * b + v1 * b + u0) + 2 * v0 := by
    rw [h.split]
    ring
  have hnorm := Nat.mul_le_mul_right b h.normalized
  have hexpand : 2 * v1 * b = v1 * b + v1 * b := by ring
  have hexpand' : (r + v1) * b = r * b + v1 * b := Nat.add_mul r v1 b
  have hlt := h.mul_lt
  refine ⟨hq, ?_⟩
  rw [Nat.add_sub_cancel]
  apply Nat.div_eq_of_lt_le
  · omega
  · rw [Nat.succ_mul]
    omega

end Estimate

/-! ## Estimates of one digit -/

/-- An estimate that is kept below the base, and so is not always the quotient of
the top digits by the top digit of the divisor: the remainder that belongs to it
may be larger than that digit. -/
structure Capped (b v1 v0 u1 u0 q r : Nat) : Prop where
  normalized : b ≤ 2 * v1
  digit0 : v0 < b
  split : u1 = q * v1 + r
  digit : q < b
  large : min ((u1 * b + u0) / (v1 * b + v0)) (b - 1) ≤ q

namespace Capped

variable {b v1 v0 u1 u0 q r : Nat}

/-- A multiple of the divisor, by the share of the low digit. -/
theorem mul_le_iff (h : Capped b v1 v0 u1 u0 q r) :
    q * (v1 * b + v0) ≤ u1 * b + u0 ↔ q * v0 ≤ r * b + u0 := by
  have heq : u1 * b + u0 = q * v1 * b + (r * b + u0) := by
    rw [h.split]
    ring
  have hmul : q * (v1 * b + v0) = q * v1 * b + q * v0 := by ring
  omega

/-- The same for the estimate less one. -/
theorem pred_mul_le_iff (h : Capped b v1 v0 u1 u0 q r) (hq : 0 < q) :
    (q - 1) * (v1 * b + v0) ≤ u1 * b + u0 ↔ (q - 1) * v0 ≤ (r + v1) * b + u0 := by
  obtain ⟨c, rfl⟩ : ∃ c, q = c + 1 := ⟨q - 1, by omega⟩
  rw [Nat.add_sub_cancel]
  have heq : u1 * b + u0 = c * v1 * b + ((r + v1) * b + u0) := by
    rw [h.split]
    ring
  have hmul : c * (v1 * b + v0) = c * v1 * b + c * v0 := by ring
  omega

theorem divisor_pos (h : Capped b v1 v0 u1 u0 q r) : 0 < v1 * b + v0 := by
  have hb : 0 < b := Nat.lt_of_le_of_lt (Nat.zero_le _) h.digit
  have hv1 : 0 < v1 := by
    have hnorm := h.normalized
    omega
  exact Nat.add_pos_left (Nat.mul_pos hv1 hb) _

/-- The first test accepts the right digit. -/
theorem accept (h : Capped b v1 v0 u1 u0 q r) (hp : q * v0 ≤ r * b + u0) :
    q = min ((u1 * b + u0) / (v1 * b + v0)) (b - 1) := by
  have hle := (Nat.le_div_iff_mul_le h.divisor_pos).mpr (h.mul_le_iff.mpr hp)
  have hdigit := h.digit
  have hlarge := h.large
  omega

/-- Where the first test fails, the quotient is a digit below the estimate. -/
theorem lt_of_reject (h : Capped b v1 v0 u1 u0 q r) (hp : r * b + u0 < q * v0) :
    0 < q ∧ (u1 * b + u0) / (v1 * b + v0) < q := by
  have hlt : u1 * b + u0 < q * (v1 * b + v0) := by
    by_contra hle
    have := h.mul_le_iff.mp (Nat.le_of_not_lt hle)
    omega
  refine ⟨?_, (Nat.div_lt_iff_lt_mul h.divisor_pos).mpr hlt⟩
  rcases Nat.eq_zero_or_pos q with rfl | hpos
  · simp at hp
  · exact hpos

theorem accept_pred (h : Capped b v1 v0 u1 u0 q r) (hp : r * b + u0 < q * v0)
    (hp' : (q - 1) * v0 ≤ (r + v1) * b + u0) :
    q - 1 = min ((u1 * b + u0) / (v1 * b + v0)) (b - 1) := by
  obtain ⟨hq, hlt⟩ := h.lt_of_reject hp
  have hle := (Nat.le_div_iff_mul_le h.divisor_pos).mpr ((h.pred_mul_le_iff hq).mpr hp')
  have hdigit := h.digit
  omega

/-- A remainder that is no digit makes the second candidate right. -/
theorem accept_pred_of_carry (h : Capped b v1 v0 u1 u0 q r) (hp : r * b + u0 < q * v0)
    (hcarry : b ≤ r + v1) : q - 1 = min ((u1 * b + u0) / (v1 * b + v0)) (b - 1) := by
  have hdigit := h.digit
  have hmul : (q - 1) * v0 ≤ b * b :=
    Nat.mul_le_mul (by omega) (Nat.le_of_lt h.digit0)
  have hmul' := Nat.mul_le_mul_right b hcarry
  exact h.accept_pred hp (by omega)

/-- The third candidate is right where both tests fail. -/
theorem accept_pred_pred (h : Capped b v1 v0 u1 u0 q r) (hp : r * b + u0 < q * v0)
    (hp' : (r + v1) * b + u0 < (q - 1) * v0) :
    2 ≤ q ∧ q - 2 = min ((u1 * b + u0) / (v1 * b + v0)) (b - 1) := by
  obtain ⟨hq, -⟩ := h.lt_of_reject hp
  have hq2 : 2 ≤ q := by
    by_contra hsmall
    obtain rfl : q = 1 := by omega
    simp at hp'
  have hlt : (u1 * b + u0) / (v1 * b + v0) < q - 1 := by
    rw [Nat.div_lt_iff_lt_mul h.divisor_pos]
    by_contra hle
    have := (h.pred_mul_le_iff hq).mp (Nat.le_of_not_lt hle)
    omega
  have hdigit := h.digit
  have hle : q - 2 ≤ (u1 * b + u0) / (v1 * b + v0) := by
    rw [Nat.le_div_iff_mul_le h.divisor_pos]
    obtain ⟨c, rfl⟩ : ∃ c, q = c + 2 := ⟨q - 2, by omega⟩
    rw [Nat.add_sub_cancel]
    have heq : u1 * b + u0 = c * v1 * b + (2 * v1 * b + r * b + u0) := by
      rw [h.split]
      ring
    have hmul : c * (v1 * b + v0) = c * v1 * b + c * v0 := by ring
    have hshare : c * v0 ≤ b * b := Nat.mul_le_mul (by omega) (Nat.le_of_lt h.digit0)
    have hnorm := Nat.mul_le_mul_right b h.normalized
    omega
  exact ⟨hq2, by omega⟩

end Capped

/-- A quotient is at most the quotient of leading parts. -/
theorem div_le_leading {p u v : Nat} (hp : 0 < p) (hv : 0 < v / p) :
    u / v ≤ u / p / (v / p) := by
  rw [Nat.le_div_iff_mul_le hv, Nat.le_div_iff_mul_le hp, Nat.mul_assoc]
  exact Nat.le_trans (Nat.mul_le_mul_left _ (Nat.div_mul_le_self v p))
    (Nat.div_mul_le_self u v)

/-- The digit estimated from the leading parts of two numbers is the quotient or
one more. -/
theorem digit_of_leading {b p u v : Nat} (hp : 0 < p) (hv : b ≤ v / p) (hb : 0 < b)
    (hu : u < v * b) :
    u / v ≤ min (u / p / (v / p)) (b - 1) ∧ min (u / p / (v / p)) (b - 1) ≤ u / v + 1 := by
  have hv0 : 0 < v := Nat.pos_of_ne_zero fun h => by
    rw [h, Nat.zero_div] at hv
    omega
  constructor
  · have hdigit : u / v < b := (Nat.div_lt_iff_lt_mul hv0).mpr (by rwa [Nat.mul_comm])
    have hquotient : u / v ≤ u / p / (v / p) := div_le_leading hp (by omega)
    omega
  · generalize ht : min (u / p / (v / p)) (b - 1) = t
    have htop : t * (v / p) * p ≤ u := by
      rw [← Nat.le_div_iff_mul_le hp, ← Nat.le_div_iff_mul_le (by omega)]
      omega
    have hsplit := Nat.div_add_mod' v p
    have hmod := Nat.mod_lt v hp
    have hrest : t * (v % p) ≤ (b - 1) * (v % p) := Nat.mul_le_mul_right _ (by omega)
    have hrest' : (b - 1) * (v % p) ≤ (b - 1) * p := Nat.mul_le_mul_left _ (by omega)
    have hbp := Nat.mul_le_mul_right p hv
    have hexpand : t * v = t * (v / p) * p + t * (v % p) := by
      conv_lhs => rw [← hsplit]
      ring
    have hb' : (b - 1) * p + p = b * p := by
      obtain ⟨c, rfl⟩ : ∃ c, b = c + 1 := ⟨b - 1, by omega⟩
      rw [Nat.add_sub_cancel]
      ring
    have hlt : t * v < u + v := by omega
    by_contra hlarge
    have hle := Nat.mul_le_mul_right v (show u / v + 2 ≤ t by omega)
    have hdivmod := Nat.div_add_mod' u v
    have hlast := Nat.mod_lt u hv0
    rw [Nat.add_mul] at hle
    omega

/-! ## Long division -/

theorem append_digit_eq (n l b v : Nat) :
    n * b + l = n % v * b + l + v * (n / v * b) := by
  have hn := Nat.div_add_mod n v
  calc n * b + l = (v * (n / v) + n % v) * b + l := by rw [hn]
    _ = _ := by ring

/-- The quotient of a number with one digit more, from the remainder before it. -/
theorem append_digit_div (n l b : Nat) {v : Nat} (hv : 0 < v) :
    (n * b + l) / v = n / v * b + (n % v * b + l) / v := by
  rw [append_digit_eq n l b v, Nat.add_mul_div_left _ _ hv, Nat.add_comm]

/-- The remainder of a number with one digit more. -/
theorem append_digit_mod (n l b v : Nat) : (n * b + l) % v = (n % v * b + l) % v := by
  rw [append_digit_eq n l b v, Nat.add_mul_mod_self_left]

/-- The quotient of a remainder with one digit more is a digit. -/
theorem append_digit_div_lt {r l b v : Nat} (hr : r < v) (hl : l < b) :
    (r * b + l) / v < b := by
  have hr' : r + 1 ≤ v := hr
  have hmul := Nat.mul_le_mul_right b hr'
  rw [Nat.add_mul, Nat.one_mul] at hmul
  apply Nat.div_lt_of_lt_mul
  omega

end Division

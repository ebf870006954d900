/-
  Foundation/NumberTheory.lean --- the arithmetic under five integer algorithms.

  One section for each algorithm: the greatest common divisor by shifts, the inverse
  by the extended Euclidean algorithm, powers by squaring, square roots by Newton's
  iteration and the strong probable prime test.  Each says what one round keeps and
  what the last state gives, for natural numbers or for any monoid; no program is
  named.
-/
import Mathlib.Algebra.Group.Nat.Even
import Mathlib.Data.Int.ModEq
import Mathlib.Data.Nat.ModEq
import Mathlib.Data.Nat.Sqrt
import Mathlib.FieldTheory.Finite.Basic
import Mathlib.Tactic.Linarith
import Mathlib.Tactic.Ring

set_option autoImplicit false

namespace NumberTheory

/-! ## Greatest common divisors by shifts -/

theorem coprime_two_pow {b : Nat} (hb : b % 2 = 1) (k : Nat) : Nat.Coprime (2 ^ k) b :=
  Nat.Coprime.pow_left k (Nat.coprime_two_left.mpr (Nat.odd_iff.mpr hb))

/-- Next to an odd number, powers of two do not matter. -/
theorem gcd_mul_two_pow (a : Nat) {b : Nat} (hb : b % 2 = 1) (k : Nat) :
    Nat.gcd (a * 2 ^ k) b = Nat.gcd a b :=
  Nat.Coprime.gcd_mul_right_cancel a (coprime_two_pow hb k)

/-- Of two powers of two, the smaller one is common. -/
theorem gcd_mul_two_pows {a b : Nat} (ha : a % 2 = 1) (hb : b % 2 = 1) (i j : Nat) :
    Nat.gcd (a * 2 ^ i) (b * 2 ^ j) = Nat.gcd a b * 2 ^ min i j := by
  rcases Nat.le_total i j with hle | hle
  · obtain ⟨k, rfl⟩ := Nat.exists_eq_add_of_le hle
    rw [Nat.min_eq_left hle, pow_add, Nat.mul_comm (2 ^ i), ← Nat.mul_assoc, Nat.gcd_mul_right,
      Nat.gcd_comm, gcd_mul_two_pow b ha k, Nat.gcd_comm]
  · obtain ⟨k, rfl⟩ := Nat.exists_eq_add_of_le hle
    rw [Nat.min_eq_right hle, pow_add, Nat.mul_comm (2 ^ j), ← Nat.mul_assoc, Nat.gcd_mul_right,
      gcd_mul_two_pow a hb k]

/-! ## Inverses by the extended Euclidean algorithm -/

/-- The state of the algorithm for `a` modulo `m`: two remainders, each a multiple of
`a` modulo `m`.  The weighted sum of the factors stays `m`, which bounds them. -/
structure Euclid (a m : Nat) (t1 t2 : Int) (r1 r2 : Nat) : Prop where
  first : t1 * a ≡ r1 [ZMOD m]
  second : t2 * a ≡ r2 [ZMOD m]
  gcd_eq : Nat.gcd r1 r2 = Nat.gcd m a
  signs : (t1 ≤ 0 ∧ 0 ≤ t2) ∨ (0 ≤ t1 ∧ t2 ≤ 0)
  weighted : t1.natAbs * r2 + t2.natAbs * r1 = m
  bound : t1.natAbs ≤ m
  pos : 0 < r1

theorem Euclid.start (a : Nat) {m : Nat} (hm : 0 < m) : Euclid a m 0 1 m a where
  first := by
    rw [Int.zero_mul]
    exact (Int.modEq_zero_iff_dvd.mpr (Int.dvd_refl _)).symm
  second := by rw [Int.one_mul]
  gcd_eq := rfl
  signs := Or.inl ⟨Int.le_refl 0, Int.one_nonneg⟩
  weighted := by simp
  bound := Nat.zero_le m
  pos := hm

/-- Factors of opposite signs add up in absolute value. -/
theorem natAbs_sub_mul {t1 t2 : Int} (h : (t1 ≤ 0 ∧ 0 ≤ t2) ∨ (0 ≤ t1 ∧ t2 ≤ 0)) (q : Nat) :
    (t1 - q * t2).natAbs = t1.natAbs + q * t2.natAbs := by
  rcases h with ⟨h1, h2⟩ | ⟨h1, h2⟩
  · have hq : 0 ≤ (q : Int) * t2 := Int.mul_nonneg (Int.natCast_nonneg q) h2
    rw [show t1 - q * t2 = -(-t1 + q * t2) by ring, Int.natAbs_neg,
      Int.natAbs_add_of_nonneg (by omega) hq, Int.natAbs_neg, Int.natAbs_mul, Int.natAbs_natCast]
  · have hq : 0 ≤ (q : Int) * -t2 := Int.mul_nonneg (Int.natCast_nonneg q) (by omega)
    rw [show t1 - q * t2 = t1 + q * -t2 by ring, Int.natAbs_add_of_nonneg h1 hq, Int.natAbs_mul,
      Int.natAbs_natCast, Int.natAbs_neg]

theorem Euclid.step {a m : Nat} {t1 t2 : Int} {r1 r2 : Nat} (h : Euclid a m t1 t2 r1 r2)
    (hr : 0 < r2) :
    Euclid a m t2 (t1 - (r1 / r2 : Nat) * t2) r2 (r1 - r1 / r2 * r2) where
  first := h.second
  second := by
    have hle : r1 / r2 * r2 ≤ r1 := Nat.div_mul_le_self r1 r2
    rw [Int.ofNat_sub hle, Int.sub_mul, Int.mul_assoc, Int.natCast_mul]
    exact h.first.sub (h.second.mul_left _)
  gcd_eq := by
    have hmod : r1 - r1 / r2 * r2 = r1 % r2 := by
      rw [Nat.mul_comm]
      exact (Nat.mod_eq_sub_mul_div).symm
    rw [hmod, ← h.gcd_eq, Nat.gcd_comm r1, Nat.gcd_rec r2 r1, Nat.gcd_comm]
  signs := by
    have hq := Int.natCast_nonneg (r1 / r2)
    rcases h.signs with ⟨h1, h2⟩ | ⟨h1, h2⟩
    · have := Int.mul_nonneg hq h2
      exact Or.inr ⟨h2, by omega⟩
    · have := Int.mul_nonpos_of_nonneg_of_nonpos hq h2
      exact Or.inl ⟨h2, by omega⟩
  weighted := by
    have hle : r1 / r2 * r2 ≤ r1 := Nat.div_mul_le_self r1 r2
    rw [natAbs_sub_mul h.signs]
    calc t2.natAbs * (r1 - r1 / r2 * r2) + (t1.natAbs + r1 / r2 * t2.natAbs) * r2
        = t1.natAbs * r2 + t2.natAbs * (r1 - r1 / r2 * r2 + r1 / r2 * r2) := by ring
      _ = m := by rw [Nat.sub_add_cancel hle, h.weighted]
  bound := by
    have hsum := h.weighted
    have hle : t2.natAbs * 1 ≤ t2.natAbs * r1 := Nat.mul_le_mul_left _ h.pos
    omega
  pos := hr

/-- The last remainder is the greatest common divisor. -/
theorem Euclid.gcd_of_zero {a m : Nat} {t1 t2 : Int} {r1 : Nat} (h : Euclid a m t1 t2 r1 0) :
    r1 = Nat.gcd m a := by
  rw [← h.gcd_eq, Nat.gcd_zero_right]

/-- The representative below `m` of a factor. -/
def representative (m : Nat) (t : Int) : Nat := if t < 0 then m - t.natAbs else t.natAbs

/-- A last remainder of one has the inverse for its factor. -/
theorem Euclid.inverse {a m : Nat} {t1 t2 : Int} (h : Euclid a m t1 t2 1 0) (hm : 1 < m) :
    representative m t1 < m ∧ representative m t1 * a % m = 1 := by
  have hone : t1 * a ≡ 1 [ZMOD m] := h.first
  -- neither `0` nor `m` in absolute value, since `1` is no multiple of `m`
  have hdvd : ¬ (m : Int) ∣ t1 := by
    intro hdvd
    have hzero : (1 : Int) ≡ 0 [ZMOD m] :=
      hone.symm.trans (Int.modEq_zero_iff_dvd.mpr (hdvd.mul_right _))
    have := Int.le_of_dvd Int.one_pos (Int.modEq_zero_iff_dvd.mp hzero)
    omega
  have hne : t1.natAbs ≠ 0 := by
    intro hzero
    rw [Int.natAbs_eq_zero.mp hzero] at hdvd
    exact hdvd (Int.dvd_zero _)
  have hnem : t1.natAbs ≠ m := by
    intro heq
    exact hdvd (Int.natAbs_dvd_natAbs.mp (by rw [heq, Int.natAbs_natCast]))
  have hbound := h.bound
  have hrep : (representative m t1 : Int) ≡ t1 [ZMOD m] := by
    unfold representative
    split
    · rw [Int.ofNat_sub hbound]
      refine (Int.modEq_iff_add_fac).mpr ⟨-1, ?_⟩
      omega
    · rw [show ((t1.natAbs : Nat) : Int) = t1 by omega]
  refine ⟨?_, ?_⟩
  · unfold representative
    split <;> omega
  · have hmod : representative m t1 * a ≡ 1 [MOD m] := by
      rw [← Int.natCast_modEq_iff, Int.natCast_mul]
      exact (hrep.mul_right _).trans hone
    rw [hmod, Nat.mod_eq_of_lt hm]

/-! ## Powers by squaring -/

/-- One bit of the exponent: the power still to be made does not change. -/
theorem pow_round {M : Type} [Monoid M] (result b : M) (e : Nat) :
    (if e % 2 = 1 then result * b else result) * (b * b) ^ (e / 2) = result * b ^ e := by
  have hsplit := Nat.div_add_mod e 2
  have hsquare : (b * b) ^ (e / 2) = b ^ (2 * (e / 2)) := by rw [pow_mul, pow_two]
  split
  · rename_i hodd
    rw [hsquare, mul_assoc, ← pow_succ', ← hodd, hsplit]
  · rename_i heven
    rw [hsquare, show 2 * (e / 2) = e by omega]

/-- One bit of the exponent, with the remainders of both products. -/
theorem pow_mod_round (m result b e : Nat) :
    (if e % 2 = 1 then result * b % m else result) * (b * b % m) ^ (e / 2) ≡
      result * b ^ e [MOD m] := by
  rw [← pow_round result b e]
  refine Nat.ModEq.mul ?_ ((Nat.mod_modEq _ m).pow _)
  split
  · exact Nat.mod_modEq _ m
  · exact Nat.ModEq.refl _

/-! ## Square roots by Newton's iteration -/

/-- The next guess for the square root of `n`. -/
def nextGuess (n x : Nat) : Nat := (n / x + x) / 2

/-- No guess is below the root. -/
theorem sqrt_le_nextGuess (n : Nat) {x : Nat} (hx : 0 < x) : Nat.sqrt n ≤ nextGuess n x := by
  have hsq := Nat.sqrt_le n
  generalize Nat.sqrt n = s at hsq ⊢
  have hdiv : 2 * s - x ≤ n / x := by
    rw [Nat.le_div_iff_mul_le hx]
    rcases Nat.le_total (2 * s) x with hle | hle
    · rw [Nat.sub_eq_zero_of_le hle, Nat.zero_mul]
      exact Nat.zero_le n
    · obtain ⟨d, hd⟩ := Nat.exists_eq_add_of_le hle
      rw [hd, Nat.add_sub_cancel_left]
      nlinarith [sq_nonneg ((x : Int) - d)]
  rw [nextGuess, Nat.le_div_iff_mul_le Nat.two_pos]
  omega

/-- A guess above the root gets smaller. -/
theorem nextGuess_lt {n x : Nat} (h : Nat.sqrt n < x) : nextGuess n x < x := by
  have hdiv : n / x < x := Nat.div_lt_of_lt_mul (Nat.sqrt_lt.mp h)
  rw [nextGuess, Nat.div_lt_iff_lt_mul Nat.two_pos]
  omega

/-- The root is its own next guess, or one less. -/
theorem nextGuess_sqrt {n : Nat} (hn : 0 < n) :
    nextGuess n (Nat.sqrt n) = Nat.sqrt n ∨ nextGuess n (Nat.sqrt n) = Nat.sqrt n + 1 := by
  have hpos : 0 < Nat.sqrt n := Nat.sqrt_pos.mpr hn
  have hlow := Nat.sqrt_le n
  have hhigh := Nat.sqrt_le_add n
  generalize Nat.sqrt n = s at *
  have hdiv : n / s ≤ s + 2 := by
    refine Nat.div_le_of_le_mul ?_
    rw [Nat.mul_add]
    omega
  have hdiv' : s ≤ n / s := (Nat.le_div_iff_mul_le hpos).mpr hlow
  rw [nextGuess]
  omega

/-! ## Strong probable primes -/

/-- The strong probable prime test of `n` for the base `b`, for `n - 1 = d * 2 ^ r`. -/
def IsStrong (n b d r : Nat) : Prop :=
  b ^ d % n = 1 ∨ ∃ i, (i = 0 ∨ i < r) ∧ b ^ (d * 2 ^ i) % n = n - 1

theorem isStrong_of_first {n b d r : Nat} (h : b ^ d % n = 1 ∨ b ^ d % n = n - 1) :
    IsStrong n b d r :=
  h.imp id fun hminus => ⟨0, Or.inl rfl, by rw [pow_zero, Nat.mul_one]; exact hminus⟩

/-- Where the first power decides nothing, one of its squares has to be minus one. -/
theorem isStrong_iff_squares {n b d r : Nat} (h : ¬ (b ^ d % n = 1 ∨ b ^ d % n = n - 1)) :
    IsStrong n b d r ↔ ∃ i < r - 1, (b ^ d) ^ 2 ^ (i + 1) % n = n - 1 := by
  unfold IsStrong
  rw [not_or] at h
  constructor
  · rintro (hone | ⟨i, hi, hminus⟩)
    · exact absurd hone h.1
    · cases i with
      | zero =>
          rw [pow_zero, Nat.mul_one] at hminus
          exact absurd hminus h.2
      | succ i => exact ⟨i, by omega, by rw [← pow_mul]; exact hminus⟩
  · intro ⟨i, hi, hminus⟩
    rw [← pow_mul] at hminus
    exact Or.inr ⟨i + 1, Or.inr (by omega), hminus⟩

/-- Modulo a prime, one has no square roots but one and minus one. -/
theorem square_eq_one {p x : Nat} (hp : p.Prime) (h : x * x % p = 1) :
    x % p = 1 ∨ x % p = p - 1 := by
  have := Fact.mk hp
  have hone : (x : ZMod p) * x = 1 := by
    have hmod : x * x ≡ 1 [MOD p] := by rw [Nat.ModEq, h, Nat.mod_eq_of_lt hp.one_lt]
    exact_mod_cast (ZMod.natCast_eq_natCast_iff _ _ _).mpr hmod
  rcases mul_self_eq_one_iff.mp hone with hx | hx
  · left
    have hmod : x ≡ 1 [MOD p] := (ZMod.natCast_eq_natCast_iff _ _ _).mp (by rw [hx, Nat.cast_one])
    rw [hmod, Nat.mod_eq_of_lt hp.one_lt]
  · right
    have hcast : (x : ZMod p) = ((p - 1 : Nat) : ZMod p) := by
      rw [hx, Nat.cast_sub hp.one_le, ZMod.natCast_self, Nat.cast_one, zero_sub]
    have hmod : x ≡ p - 1 [MOD p] := (ZMod.natCast_eq_natCast_iff _ _ _).mp hcast
    rw [hmod, Nat.mod_eq_of_lt (Nat.sub_lt hp.pos Nat.one_pos)]

/-- A prime passes the test for every base that it does not divide. -/
theorem isStrong_of_prime {p b d r : Nat} (hp : p.Prime) (hb : ¬ p ∣ b) (hd : p - 1 = d * 2 ^ r) :
    IsStrong p b d r := by
  have hfermat : b ^ (d * 2 ^ r) % p = 1 := by
    have hmod := Nat.ModEq.pow_totient ((Nat.Prime.coprime_iff_not_dvd hp).mpr hb).symm
    rw [Nat.totient_prime hp, hd] at hmod
    rw [hmod, Nat.mod_eq_of_lt hp.one_lt]
  clear hd
  -- from the top power down: each square root of one is one or minus one
  induction r with
  | zero =>
      rw [pow_zero, Nat.mul_one] at hfermat
      exact Or.inl hfermat
  | succ r ih =>
      have hsquare : b ^ (d * 2 ^ r) * b ^ (d * 2 ^ r) % p = 1 := by
        rw [← pow_add, ← Nat.mul_two, Nat.mul_assoc, ← pow_succ]
        exact hfermat
      rcases square_eq_one hp hsquare with hone | hminus
      · rcases ih hone with h | ⟨i, hi, h⟩
        · exact Or.inl h
        · exact Or.inr ⟨i, by omega, h⟩
      · exact Or.inr ⟨r, Or.inr (Nat.lt_succ_self r), hminus⟩

/-! ## Residues -/

/-- The numbers below a multiple of `m` with one residue: one in each block. -/
def residueEquiv {m r : Nat} (k : Nat) (hr : r < m) :
    {x : Fin (m * k) // x.val % m = r} ≃ Fin k where
  toFun x := ⟨x.1.val / m, Nat.div_lt_of_lt_mul x.1.isLt⟩
  invFun q := ⟨⟨m * q.val + r, by
      have hle := Nat.mul_le_mul_left m (Nat.succ_le_of_lt q.isLt)
      rw [Nat.mul_succ] at hle
      omega⟩, by
      rw [Nat.mul_add_mod, Nat.mod_eq_of_lt hr]⟩
  left_inv x := by
    refine Subtype.ext (Fin.ext ?_)
    have hx := Nat.div_add_mod x.1.val m
    rw [x.2] at hx
    exact hx
  right_inv q := by
    refine Fin.ext ?_
    dsimp only
    rw [Nat.mul_add_div (Nat.lt_of_le_of_lt (Nat.zero_le r) hr), Nat.div_eq_of_lt hr,
      Nat.add_zero]

end NumberTheory

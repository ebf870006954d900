/-
  BigInt/SquareRoot.lean --- integer square roots.

  The root is found by Newton's iteration on integers, from a power of two above it.
  The iteration goes down as long as the guess is above the root; the loop is left
  at the first guess whose successor is itself or one more.
-/
import YieldMe.Foundation.NumberTheory
import YieldMe.BigInt.Signed

set_option autoImplicit false

namespace YieldMe

open NumberTheory

namespace BigUInt

/-- The guess of the loop of `squareRoot()`, and whether the loop was left. -/
structure RootLoop where
  x : BigUInt
  found : Bool

/-- The body of the loop of `squareRoot()`. -/
def rootRound (n : BigUInt) (s : RootLoop) : Option RootLoop := do
  let quotient ← n.divided s.x
  let y := (quotient.add s.x 0).shiftRight 1
  if s.x.eq y then pure { s with found := true }
  else
    let below ← y.subtract (ofWord 1) 0
    if s.x.eq below then pure { s with found := true } else pure { s with x := y }

/-- `squareRoot()`. -/
def squareRoot (n : BigUInt) : Option BigUInt :=
  if n.isZero then some zero
  else
    let x := (ofWord 1).shiftedLeft ((n.bitWidth + 1) / 2)
    (Loop.whileTry (fun s : RootLoop => !s.found) (rootRound n) (x.toNat + 1)
      { x, found := false }).map RootLoop.x

/-- The guess is never below the root, and it is the root when the loop is left. -/
structure RootInvariant (n : Nat) (s : RootLoop) : Prop where
  le : Nat.sqrt n ≤ s.x.toNat
  exact : s.found = true → s.x.toNat = Nat.sqrt n

/-- How many rounds may follow. -/
def RootLoop.variant (s : RootLoop) : Nat := if s.found then 0 else s.x.toNat + 1

theorem rootRound_eq (n : BigUInt) {s : RootLoop} (hx : 0 < s.x.toNat)
    (hy : 0 < nextGuess n.toNat s.x.toNat) :
    rootRound n s = some
      (if s.x.toNat = nextGuess n.toNat s.x.toNat ∨ s.x.toNat + 1 = nextGuess n.toNat s.x.toNat
        then { s with found := true }
        else { s with x := ofNat (nextGuess n.toNat s.x.toNat) }) := by
  have hnext : (((ofNat (n.toNat / s.x.toNat)).add s.x 0).shiftRight 1) =
      ofNat (nextGuess n.toNat s.x.toNat) := by
    rw [shiftRight_eq, add_eq, toNat_ofNat, toNat_ofNat, weight_zero, Nat.mul_one, pow_one,
      nextGuess]
  unfold rootRound
  simp only [divided_eq, if_neg (Nat.ne_of_gt hx), Option.bind_eq_bind, Option.bind_some, hnext]
  generalize nextGuess n.toNat s.x.toNat = y at *
  simp only [eq_iff, ← toNat_inj, toNat_ofNat, subtract_eq, toNat_ofWord, UInt64.toNat_one,
    weight_zero, Nat.mul_one, if_pos (Nat.succ_le_of_lt hy), Option.bind_some]
  by_cases heq : s.x.toNat = y
  · rw [if_pos heq, if_pos (Or.inl heq)]
    rfl
  · rw [if_neg heq]
    by_cases heq' : s.x.toNat = y - 1
    · rw [if_pos heq', if_pos (Or.inr (by omega))]
      rfl
    · rw [if_neg heq', if_neg (by omega)]
      rfl

theorem RootInvariant.round {n : BigUInt} (hn : 0 < n.toNat) {s : RootLoop}
    (h : RootInvariant n.toNat s) (hguard : s.found = false) :
    ∃ s', rootRound n s = some s' ∧ RootInvariant n.toNat s' ∧ s'.variant < s.variant := by
  have hroot : 0 < Nat.sqrt n.toNat := Nat.sqrt_pos.mpr hn
  have hx : 0 < s.x.toNat := Nat.lt_of_lt_of_le hroot h.le
  have hge := sqrt_le_nextGuess n.toNat hx
  refine ⟨_, rootRound_eq n hx (Nat.lt_of_lt_of_le hroot hge), ?_⟩
  rw [RootLoop.variant, RootLoop.variant, hguard]
  split
  · rename_i hleft
    refine ⟨⟨h.le, fun _ => ?_⟩, Nat.succ_pos _⟩
    -- a guess above the root would have a smaller successor
    rcases Nat.lt_or_eq_of_le h.le with hlt | heq
    · have hless := nextGuess_lt hlt
      omega
    · exact heq.symm
  · rename_i hnot
    refine ⟨⟨by rw [toNat_ofNat]; exact hge, fun hfound => nomatch hfound⟩, ?_⟩
    simp only [toNat_ofNat]
    rcases Nat.lt_or_eq_of_le h.le with hlt | heq
    · exact Nat.succ_lt_succ (nextGuess_lt hlt)
    · rw [← heq] at hnot
      rcases nextGuess_sqrt hn with hsame | hsucc
      · exact absurd (Or.inl hsame.symm) hnot
      · exact absurd (Or.inr hsucc.symm) hnot

/-- The first guess is above the root. -/
theorem sqrt_le_first (n : BigUInt) : Nat.sqrt n.toNat ≤ 2 ^ ((n.bitWidth + 1) / 2) := by
  have hlt : n.toNat < 2 ^ n.bitWidth := toNat_lt_two_pow_of_bitWidth_le (Nat.le_refl _)
  have hle : (2 : Nat) ^ n.bitWidth ≤ 2 ^ ((n.bitWidth + 1) / 2) * 2 ^ ((n.bitWidth + 1) / 2) := by
    rw [← pow_add]
    exact Nat.pow_le_pow_right Nat.two_pos (by omega)
  exact Nat.le_of_lt (Nat.sqrt_lt.mpr (Nat.lt_of_lt_of_le hlt hle))

/-- The root is the one of natural numbers. -/
theorem squareRoot_eq (n : BigUInt) : n.squareRoot = some (ofNat (Nat.sqrt n.toNat)) := by
  unfold squareRoot
  by_cases hzero : n.toNat = 0
  · rw [if_pos ((isZero_iff n).mpr hzero), hzero, Nat.sqrt_zero]
    exact congrArg some (eq_ofNat toNat_zero)
  rw [if_neg (fun h => hzero ((isZero_iff n).mp h))]
  dsimp only
  have hfirst : ((ofWord 1).shiftedLeft ((n.bitWidth + 1) / 2)).toNat =
      2 ^ ((n.bitWidth + 1) / 2) := by
    rw [shiftedLeft_eq, toNat_ofNat, toNat_ofWord, UInt64.toNat_one, Nat.one_mul]
  generalize (ofWord 1).shiftedLeft ((n.bitWidth + 1) / 2) = x at hfirst ⊢
  obtain ⟨s, hs, hinv, hend⟩ := Loop.whileTry_rule (g := fun s : RootLoop => !s.found)
    (f := rootRound n) (RootInvariant n.toNat) RootLoop.variant
    (fun s h hguard => h.round (Nat.pos_of_ne_zero hzero) (by simpa using hguard))
    (x.toNat + 1) { x, found := false }
    ⟨by rw [hfirst]; exact sqrt_le_first n, fun h => nomatch h⟩ (Nat.le_refl _)
  rw [hs, Option.map_some]
  exact congrArg some (eq_ofNat (hinv.exact (by simpa using hend)))

end BigUInt

namespace BigInt

/-- `squareRoot()`: the precondition is on the sign, not on the number. -/
def squareRoot (a : BigInt) : Option BigInt :=
  if a.sign = .plus then a.magnitude.squareRoot.map (ofSign .plus) else none

theorem squareRoot_eq (a : BigInt) :
    a.squareRoot =
      if a.sign = .plus then some (ofInt (Nat.sqrt a.toInt.natAbs)) else none := by
  rw [squareRoot, BigUInt.squareRoot_eq, Option.map_some, ofSign_eq, BigUInt.toNat_ofNat, signed,
    toInt_natAbs]

end BigInt

end YieldMe

/-
  BigInt/Random.lean --- random big integers.

  The generator is a tape of words and a position on it; every function returns the
  position it has read up to.  A random integer of some width is the number of the
  words read, cut to the width.  Below a limit, numbers of the limit's width are drawn
  until one is below: the answer is the first of them, and nothing says that there is
  one.  So the loop has a bound on the numbers it draws again.
-/
import Mathlib.Algebra.BigOperators.Fin
import Mathlib.SetTheory.Cardinal.Finite
import YieldMe.Foundation.NumberTheory
import YieldMe.BigInt.Shifts

set_option autoImplicit false

namespace YieldMe

open Loop

namespace BigUInt

/-! ## Drawing words -/

/-- Where `randomInteger(withMaximumWidth:using:)` is. -/
structure DrawLoop where
  result : BigUInt
  bitsLeft : Nat
  i : Nat
  position : Nat

/-- The body of the loop of `randomInteger(withMaximumWidth:using:)`. -/
def drawRound (tape : Nat → Word) (s : DrawLoop) : DrawLoop :=
  { result := s.result.set s.i (tape s.position)
    bitsLeft := s.bitsLeft - 64
    i := s.i + 1
    position := s.position + 1 }

/-- `randomInteger(withMaximumWidth:using:)`. -/
def randomInteger (width : Nat) (tape : Nat → Word) (position : Nat) : BigUInt × Nat :=
  let s := whileDo (fun s : DrawLoop => decide (64 ≤ s.bitsLeft)) (drawRound tape) width
    { result := zero, bitsLeft := width, i := 0, position }
  if 0 < s.bitsLeft then
    let mask : Word := (1 : Word) <<< UInt64.ofNat s.bitsLeft - 1
    (s.result.set s.i (tape s.position &&& mask), s.position + 1)
  else (s.result, s.position)

/-- `randomInteger(withExactWidth:using:)`. -/
def randomIntegerExact (width : Nat) (tape : Nat → Word) (position : Nat) : BigUInt × Nat :=
  if width ≤ 1 then (ofWord (UInt64.ofNat width), position)
  else
    let (result, position) := randomInteger (width - 1) tape position
    let index := (width - 1) / 64
    (result.set index
      (result.get index ||| (1 : Word) <<< UInt64.ofNat ((width - 1) % 64)), position)

/-- `randomInteger(lessThan:using:)`: no result where the precondition fails, or if
the given number of further draws does not suffice. -/
def randomIntegerBelow (limit : BigUInt) (tape : Nat → Word) (attempts position : Nat) :
    Option (BigUInt × Nat) :=
  if limit.isZero then none
  else
    let width := limit.bitWidth
    whileTry (fun s : BigUInt × Nat => limit.le s.1)
      (fun s => some (randomInteger width tape s.2)) attempts (randomInteger width tape position)

/-! ## The number drawn -/

/-- The number of the words on the tape from a position. -/
def drawn (tape : Nat → Word) (position : Nat) : Nat → Nat
  | 0 => 0
  | n + 1 => drawn tape position n + (tape (position + n)).toNat * weight n

theorem drawn_lt (tape : Nat → Word) (position : Nat) :
    ∀ n, drawn tape position n < weight n := by
  intro n
  induction n with
  | zero => exact weight_pos 0
  | succ n ih =>
      rw [drawn, Nat.add_comm]
      exact word_add_lt _ ih

/-- A word written above the number. -/
theorem set_above {x : BigUInt} {i : Nat} (h : x.toNat < weight i) (w : Word) :
    (x.set i w).toNat = x.toNat + w.toNat * weight i := by
  rw [toNat_set_eq, Nat.div_eq_of_lt (Nat.lt_of_lt_of_le h (weight_le (Nat.le_succ i))),
    Nat.zero_mul, Nat.zero_add, Nat.mod_eq_of_lt h, Nat.add_comm]

theorem toNat_one_shiftLeft {k : Nat} (hk : k < 64) :
    ((1 : Word) <<< UInt64.ofNat k).toNat = 2 ^ k := by
  rw [Word.toNat_shiftLeft _ hk, UInt64.toNat_one, Nat.one_mul,
    Nat.mod_eq_of_lt (Nat.pow_lt_pow_right (by decide) hk)]

theorem toNat_mask (w : Word) {k : Nat} (hk : k < 64) :
    (w &&& ((1 : Word) <<< UInt64.ofNat k - 1)).toNat = w.toNat % 2 ^ k := by
  have hone := toNat_one_shiftLeft hk
  have hle : (1 : Word) ≤ (1 : Word) <<< UInt64.ofNat k := by
    rw [UInt64.le_iff_toNat_le, hone, UInt64.toNat_one]
    exact Nat.two_pow_pos k
  rw [UInt64.toNat_and, UInt64.toNat_sub_of_le _ _ hle, hone, UInt64.toNat_one,
    Nat.and_two_pow_sub_one_eq_mod]

structure DrawInvariant (width : Nat) (tape : Nat → Word) (position : Nat) (s : DrawLoop) :
    Prop where
  result : s.result.toNat = drawn tape position s.i
  width_eq : s.bitsLeft + 64 * s.i = width
  position_eq : s.position = position + s.i

theorem DrawInvariant.round {width : Nat} {tape : Nat → Word} {position : Nat} {s : DrawLoop}
    (h : DrawInvariant width tape position s) (hguard : 64 ≤ s.bitsLeft) :
    DrawInvariant width tape position (drawRound tape s) where
  result := by
    have hlt := drawn_lt tape position s.i
    rw [← h.result] at hlt
    simp only [drawRound]
    rw [set_above hlt, h.result, h.position_eq, drawn]
  width_eq := by
    have := h.width_eq
    simp only [drawRound]
    omega
  position_eq := by
    simp only [drawRound, h.position_eq]
    omega

/-- How many words a width takes. -/
def wordsNeeded (width : Nat) : Nat := (width + 63) / 64

/-- A random integer is the number of the words read, modulo the width's power of
two. -/
theorem randomInteger_eq (width : Nat) (tape : Nat → Word) (position : Nat) :
    randomInteger width tape position =
      (ofNat (drawn tape position (wordsNeeded width) % 2 ^ width),
        position + wordsNeeded width) := by
  obtain ⟨hinv, hend⟩ := whileDo_rule (g := fun s : DrawLoop => decide (64 ≤ s.bitsLeft))
    (f := drawRound tape) (DrawInvariant width tape position) DrawLoop.bitsLeft
    (fun s h hguard => ⟨h.round (of_decide_eq_true hguard), by
      have hle := of_decide_eq_true hguard
      simp only [drawRound]
      omega⟩)
    width { result := zero, bitsLeft := width, i := 0, position }
    ⟨toNat_zero, rfl, rfl⟩ (Nat.le_refl _)
  unfold randomInteger
  generalize whileDo (fun s : DrawLoop => decide (64 ≤ s.bitsLeft)) (drawRound tape) width
    { result := zero, bitsLeft := width, i := 0, position } = s at *
  have hless : s.bitsLeft < 64 := Nat.not_le.mp (of_decide_eq_false hend)
  have hwidth := hinv.width_eq
  have hlt := drawn_lt tape position s.i
  have hpow : 2 ^ width = weight s.i * 2 ^ s.bitsLeft := by
    rw [weight_eq, ← pow_add, ← hwidth, Nat.add_comm]
  by_cases hbits : 0 < s.bitsLeft
  · have hneeded : wordsNeeded width = s.i + 1 := by
      rw [wordsNeeded]
      omega
    simp only [if_pos hbits]
    rw [hneeded, hinv.position_eq]
    refine Prod.ext (eq_ofNat ?_) rfl
    rw [set_above (by rw [hinv.result]; exact hlt), hinv.result, toNat_mask _ hless, hpow,
      Nat.mod_mul, drawn, Nat.add_mul_mod_self_right, Nat.mod_eq_of_lt hlt,
      Nat.add_mul_div_right _ _ (weight_pos _), Nat.div_eq_of_lt hlt, Nat.zero_add, Nat.mul_comm]
  · have hneeded : wordsNeeded width = s.i := by
      rw [wordsNeeded]
      omega
    simp only [if_neg hbits]
    rw [hneeded, hinv.position_eq, hpow, Nat.eq_zero_of_not_pos hbits, pow_zero, Nat.mul_one,
      Nat.mod_eq_of_lt hlt]
    exact Prod.ext (eq_ofNat hinv.result) rfl

/-! ## Exact widths -/

/-- A random integer of an exact width has its top bit set. -/
theorem randomIntegerExact_eq {width : Nat} (h : 0 < width) (tape : Nat → Word)
    (position : Nat) :
    randomIntegerExact width tape position =
      (ofNat (2 ^ (width - 1) +
          drawn tape position (wordsNeeded (width - 1)) % 2 ^ (width - 1)),
        position + wordsNeeded (width - 1)) := by
  unfold randomIntegerExact
  by_cases hone : width ≤ 1
  · rw [if_pos hone, show width = 1 by omega, Nat.sub_self, pow_zero, Nat.mod_one]
    exact Prod.ext (eq_ofNat (by rw [toNat_ofWord]; rfl)) rfl
  rw [if_neg hone, randomInteger_eq]
  refine Prod.ext (eq_ofNat ?_) rfl
  dsimp only
  have hlt := Nat.mod_lt (drawn tape position (wordsNeeded (width - 1)))
    (Nat.two_pow_pos (width - 1))
  generalize drawn tape position (wordsNeeded (width - 1)) % 2 ^ (width - 1) = n at hlt
  have hpow : 2 ^ (width - 1) = weight ((width - 1) / 64) * 2 ^ ((width - 1) % 64) := by
    rw [weight_eq, ← pow_add, Nat.div_add_mod]
  have hk : (width - 1) % 64 < 64 := Nat.mod_lt _ (by decide)
  generalize (width - 1) / 64 = i at hpow ⊢
  generalize (width - 1) % 64 = k at hpow hk ⊢
  have hword : ((ofNat n).get i).toNat < 2 ^ k := by
    rw [toNat_get, toNat_ofNat]
    refine Nat.lt_of_le_of_lt (Nat.mod_le _ _) ?_
    rw [Nat.div_lt_iff_lt_mul (weight_pos i), Nat.mul_comm, ← hpow]
    exact hlt
  have hset := toNat_set (ofNat n) i ((ofNat n).get i ||| (1 : Word) <<< UInt64.ofNat k)
  rw [UInt64.toNat_or, toNat_one_shiftLeft hk, Nat.or_comm, ← Nat.mul_one (2 ^ k),
    ← Nat.two_pow_add_eq_or_of_lt hword, Nat.mul_one, Nat.add_mul, toNat_ofNat] at hset
  rw [hpow, Nat.mul_comm (weight i)]
  omega

/-! ## Even chances -/

/-- The tape that starts with some words. -/
def tapeOf {k : Nat} (words : Fin k → Fin (2 ^ 64)) (i : Nat) : Word :=
  if h : i < k then UInt64.ofNat (words ⟨i, h⟩).val else 0

theorem drawn_tapeOf {k : Nat} (words : Fin k → Fin (2 ^ 64)) :
    drawn (tapeOf words) 0 k = (finFunctionFinEquiv words).val := by
  have hsum : ∀ n ≤ k, drawn (tapeOf words) 0 n =
      ∑ i ∈ Finset.range n, (tapeOf words i).toNat * weight i := by
    intro n
    induction n with
    | zero => exact fun _ => rfl
    | succ n ih =>
        intro hn
        rw [drawn, ih (Nat.le_of_succ_le hn), Finset.sum_range_succ, Nat.zero_add]
  rw [hsum k (Nat.le_refl k), finFunctionFinEquiv_apply,
    ← Fin.sum_univ_eq_sum_range (fun i => (tapeOf words i).toNat * weight i)]
  refine Finset.sum_congr rfl fun i _ => ?_
  have hword : (tapeOf words i.val).toNat = (words i).val := by
    unfold tapeOf
    rw [dif_pos i.isLt, UInt64.toNat_ofNat', Nat.mod_eq_of_lt (words i).isLt]
  rw [hword, weight]

/-- Every remainder of the number drawn comes from as many tapes as any other. -/
theorem card_drawn (width n : Nat) :
    Nat.card {words : Fin (wordsNeeded width) → Fin (2 ^ 64) //
        drawn (tapeOf words) 0 (wordsNeeded width) % 2 ^ width = n} =
      if n < 2 ^ width then 2 ^ (64 * wordsNeeded width - width) else 0 := by
  have hdrawn : ∀ words : Fin (wordsNeeded width) → Fin (2 ^ 64),
      drawn (tapeOf words) 0 (wordsNeeded width) % 2 ^ width = n ↔
        (finFunctionFinEquiv words).val % 2 ^ width = n := by
    intro words
    rw [drawn_tapeOf]
  rw [Nat.card_congr (finFunctionFinEquiv.subtypeEquiv
    (q := fun x : Fin ((2 ^ 64) ^ wordsNeeded width) => x.val % 2 ^ width = n) hdrawn)]
  split
  · rename_i hn
    have hneeded : width ≤ 64 * wordsNeeded width := by
      rw [wordsNeeded]
      omega
    have htotal : (2 ^ 64) ^ wordsNeeded width =
        2 ^ width * 2 ^ (64 * wordsNeeded width - width) := by
      rw [← pow_mul, ← pow_add, Nat.add_sub_of_le hneeded]
    rw [htotal, Nat.card_congr (NumberTheory.residueEquiv _ hn), Nat.card_eq_fintype_card,
      Fintype.card_fin]
  · rename_i hn
    refine Nat.card_eq_zero.mpr (.inl ⟨fun x => hn ?_⟩)
    rw [← x.2]
    exact Nat.mod_lt _ (Nat.two_pow_pos width)

theorem card_randomInteger (width n : Nat) :
    Nat.card {words : Fin (wordsNeeded width) → Fin (2 ^ 64) //
        (randomInteger width (tapeOf words) 0).1 = ofNat n} =
      if n < 2 ^ width then 2 ^ (64 * wordsNeeded width - width) else 0 := by
  have hdrawn : ∀ words : Fin (wordsNeeded width) → Fin (2 ^ 64),
      (randomInteger width (tapeOf words) 0).1 = ofNat n ↔
        drawn (tapeOf words) 0 (wordsNeeded width) % 2 ^ width = n := by
    intro words
    rw [randomInteger_eq, ← toNat_inj, toNat_ofNat, toNat_ofNat]
  rw [← card_drawn, Nat.card_congr (Equiv.subtypeEquivRight hdrawn)]

/-- The bits below the top one are drawn. -/
theorem card_randomIntegerExact (width n : Nat) :
    Nat.card {words : Fin (wordsNeeded width) → Fin (2 ^ 64) //
        (randomIntegerExact (width + 1) (tapeOf words) 0).1 = ofNat n} =
      if 2 ^ width ≤ n ∧ n < 2 ^ (width + 1) then 2 ^ (64 * wordsNeeded width - width)
      else 0 := by
  have hdrawn : ∀ words : Fin (wordsNeeded width) → Fin (2 ^ 64),
      (randomIntegerExact (width + 1) (tapeOf words) 0).1 = ofNat n ↔
        2 ^ width + drawn (tapeOf words) 0 (wordsNeeded width) % 2 ^ width = n := by
    intro words
    rw [randomIntegerExact_eq (Nat.succ_pos width), Nat.succ_sub_one, ← toNat_inj, toNat_ofNat,
      toNat_ofNat]
  rw [Nat.card_congr (Equiv.subtypeEquivRight hdrawn)]
  by_cases hle : 2 ^ width ≤ n
  · have hrest : ∀ words : Fin (wordsNeeded width) → Fin (2 ^ 64),
        2 ^ width + drawn (tapeOf words) 0 (wordsNeeded width) % 2 ^ width = n ↔
          drawn (tapeOf words) 0 (wordsNeeded width) % 2 ^ width = n - 2 ^ width := by
      intro words
      omega
    have hiff : (2 ^ width ≤ n ∧ n < 2 ^ (width + 1)) ↔ n - 2 ^ width < 2 ^ width := by
      rw [pow_succ]
      omega
    rw [Nat.card_congr (Equiv.subtypeEquivRight hrest), card_drawn]
    simp only [hiff]
  · rw [if_neg (fun h => hle h.1)]
    refine Nat.card_eq_zero.mpr (.inl ⟨fun x => hle ?_⟩)
    rw [← x.2]
    exact Nat.le_add_right _ _

/-- Every number of the width is drawn from as many tapes as any other, and so is every
number of an exact width. -/
theorem randomInteger_uniform (width n : Nat) :
    Nat.card {words : Fin (wordsNeeded width) → Fin (2 ^ 64) //
        (randomInteger width (tapeOf words) 0).1 = ofNat n} =
      (if n < 2 ^ width then 2 ^ (64 * wordsNeeded width - width) else 0) ∧
    Nat.card {words : Fin (wordsNeeded width) → Fin (2 ^ 64) //
        (randomIntegerExact (width + 1) (tapeOf words) 0).1 = ofNat n} =
      (if 2 ^ width ≤ n ∧ n < 2 ^ (width + 1) then 2 ^ (64 * wordsNeeded width - width)
        else 0) :=
  ⟨card_randomInteger width n, card_randomIntegerExact width n⟩

/-! ## Drawing again -/

/-- What attempt `k` draws for a limit. -/
def attempt (limit : BigUInt) (tape : Nat → Word) (position k : Nat) : Nat :=
  drawn tape (position + k * wordsNeeded limit.bitWidth) (wordsNeeded limit.bitWidth) %
    2 ^ limit.bitWidth

theorem attempt_succ (limit : BigUInt) (tape : Nat → Word) (position k : Nat) :
    attempt limit tape (position + wordsNeeded limit.bitWidth) k =
      attempt limit tape position (k + 1) := by
  rw [attempt, attempt, Nat.succ_mul, Nat.add_right_comm, Nat.add_assoc position]

theorem randomInteger_attempt (limit : BigUInt) (tape : Nat → Word) (position : Nat) :
    randomInteger limit.bitWidth tape position =
      (ofNat (attempt limit tape position 0), position + wordsNeeded limit.bitWidth) := by
  rw [randomInteger_eq, attempt, Nat.zero_mul, Nat.add_zero]

/-- The loop of `randomInteger(lessThan:using:)` stops at the first attempt below the
limit. -/
theorem below_loop {limit : BigUInt} {tape : Nat → Word} {k : Nat} :
    ∀ {attempts position : Nat}, k ≤ attempts →
      attempt limit tape position k < limit.toNat →
      (∀ j < k, limit.toNat ≤ attempt limit tape position j) →
      whileTry (fun s : BigUInt × Nat => limit.le s.1)
          (fun s => some (randomInteger limit.bitWidth tape s.2)) attempts
          (randomInteger limit.bitWidth tape position) =
        some (ofNat (attempt limit tape position k),
          position + (k + 1) * wordsNeeded limit.bitWidth) := by
  induction k with
  | zero =>
      intro attempts position _ hlt _
      have hguard : limit.le (ofNat (attempt limit tape position 0)) = false := by
        rw [← Bool.not_eq_true, le_iff, toNat_ofNat]
        omega
      rw [randomInteger_attempt, Nat.zero_add, Nat.one_mul]
      cases attempts with
      | zero => rw [whileTry, hguard, if_neg Bool.false_ne_true]
      | succ attempts => rw [whileTry, hguard, if_neg Bool.false_ne_true]
  | succ k ih =>
      intro attempts position hle hlt hfailed
      have hguard : limit.le (ofNat (attempt limit tape position 0)) = true := by
        rw [le_iff, toNat_ofNat]
        exact hfailed 0 (Nat.succ_pos k)
      cases attempts with
      | zero => exact absurd hle (Nat.not_succ_le_zero k)
      | succ attempts =>
          have hnext := @ih attempts
            (position + wordsNeeded limit.bitWidth) (Nat.le_of_succ_le_succ hle)
            (by rw [attempt_succ]; exact hlt)
            (fun j hj => by rw [attempt_succ]; exact hfailed (j + 1) (Nat.succ_lt_succ hj))
          rw [randomInteger_attempt, whileTry, hguard, if_pos rfl, Option.bind_some, hnext,
            attempt_succ, Nat.succ_mul (k + 1), Nat.add_comm ((k + 1) * _), Nat.add_assoc]

theorem below_loop_none {limit : BigUInt} {tape : Nat → Word} :
    ∀ {attempts position : Nat},
      (∀ k ≤ attempts, limit.toNat ≤ attempt limit tape position k) →
      whileTry (fun s : BigUInt × Nat => limit.le s.1)
          (fun s => some (randomInteger limit.bitWidth tape s.2)) attempts
          (randomInteger limit.bitWidth tape position) = none := by
  intro attempts
  induction attempts with
  | zero =>
      intro position hfailed
      have hguard : limit.le (randomInteger limit.bitWidth tape position).1 = true := by
        rw [randomInteger_attempt, le_iff, toNat_ofNat]
        exact hfailed 0 (Nat.le_refl 0)
      rw [whileTry, hguard, if_pos rfl]
  | succ attempts ih =>
      intro position hfailed
      have hguard : limit.le (randomInteger limit.bitWidth tape position).1 = true := by
        rw [randomInteger_attempt, le_iff, toNat_ofNat]
        exact hfailed 0 (Nat.zero_le _)
      have hposition : (randomInteger limit.bitWidth tape position).2 =
          position + wordsNeeded limit.bitWidth := by
        rw [randomInteger_attempt]
      rw [whileTry, hguard, if_pos rfl, Option.bind_some, hposition]
      exact ih fun k hk => by
        rw [attempt_succ]
        exact hfailed (k + 1) (Nat.succ_le_succ hk)

/-- The answer is the first attempt below the limit. -/
theorem randomIntegerBelow_eq {limit : BigUInt} {tape : Nat → Word}
    {attempts position k : Nat} (hk : k ≤ attempts)
    (hlt : attempt limit tape position k < limit.toNat)
    (hfailed : ∀ j < k, limit.toNat ≤ attempt limit tape position j) :
    randomIntegerBelow limit tape attempts position =
      some (ofNat (attempt limit tape position k),
        position + (k + 1) * wordsNeeded limit.bitWidth) := by
  have hpos : ¬ limit.isZero = true := by
    rw [isZero_iff]
    omega
  rw [randomIntegerBelow, if_neg hpos]
  exact below_loop hk hlt hfailed

/-- No answer reaches the limit. -/
theorem randomIntegerBelow_lt {limit : BigUInt} {tape : Nat → Word}
    {attempts position : Nat} {answer : BigUInt × Nat}
    (h : randomIntegerBelow limit tape attempts position = some answer) :
    answer.1.toNat < limit.toNat := by
  rw [randomIntegerBelow] at h
  split at h
  · cases h
  · have hend := whileTry_guard h
    rw [← Bool.not_eq_true, le_iff] at hend
    omega

/-- A draw is the first attempt below the limit, or there is none. -/
theorem randomIntegerBelow_cases (limit : BigUInt) (tape : Nat → Word)
    (attempts position : Nat) :
    (∃ k ≤ attempts, attempt limit tape position k < limit.toNat ∧
        (∀ j < k, limit.toNat ≤ attempt limit tape position j) ∧
        randomIntegerBelow limit tape attempts position =
          some (ofNat (attempt limit tape position k),
            position + (k + 1) * wordsNeeded limit.bitWidth)) ∨
      ((limit.isZero = true ∨ ∀ k ≤ attempts, limit.toNat ≤ attempt limit tape position k) ∧
        randomIntegerBelow limit tape attempts position = none) := by
  by_cases hsome : ∃ k ≤ attempts, attempt limit tape position k < limit.toNat
  · have hfind := Nat.find_spec hsome
    have hfailed : ∀ j < Nat.find hsome, limit.toNat ≤ attempt limit tape position j :=
      fun j hj => Nat.not_lt.mp fun hlt =>
        Nat.find_min hsome hj ⟨Nat.le_trans (Nat.le_of_lt hj) hfind.1, hlt⟩
    exact .inl ⟨Nat.find hsome, hfind.1, hfind.2, hfailed,
      randomIntegerBelow_eq hfind.1 hfind.2 hfailed⟩
  · have hfailed : ∀ k ≤ attempts, limit.toNat ≤ attempt limit tape position k :=
      fun k hk => Nat.not_lt.mp fun hlt => hsome ⟨k, hk, hlt⟩
    refine .inr ⟨.inr hfailed, ?_⟩
    rw [randomIntegerBelow]
    by_cases hzero : limit.isZero = true
    · rw [if_pos hzero]
    · rw [if_neg hzero]
      exact below_loop_none hfailed

/-- The answer is the first attempt below the limit, and there is none where the limit is
zero or no attempt that is made is below it.  More than half of what can be drawn is. -/
theorem randomIntegerBelow_first (limit : BigUInt) (tape : Nat → Word)
    (attempts position : Nat) :
    ((∃ k ≤ attempts, attempt limit tape position k < limit.toNat ∧
        (∀ j < k, limit.toNat ≤ attempt limit tape position j) ∧
        randomIntegerBelow limit tape attempts position =
          some (ofNat (attempt limit tape position k),
            position + (k + 1) * wordsNeeded limit.bitWidth)) ∨
      ((limit.isZero = true ∨ ∀ k ≤ attempts, limit.toNat ≤ attempt limit tape position k) ∧
        randomIntegerBelow limit tape attempts position = none)) ∧
      (limit.isZero = true ∨ 2 ^ limit.bitWidth ≤ 2 * limit.toNat) := by
  refine ⟨randomIntegerBelow_cases limit tape attempts position, ?_⟩
  rw [isZero_iff, bitWidth_eq]
  by_cases hzero : limit.toNat = 0
  · exact .inl hzero
  · refine .inr ?_
    have hsize : Nat.size limit.toNat - 1 < Nat.size limit.toNat := by
      have := Nat.size_pos.mpr (Nat.pos_of_ne_zero hzero)
      omega
    have hle := Nat.lt_size.mp hsize
    have hpow : 2 ^ Nat.size limit.toNat = 2 * 2 ^ (Nat.size limit.toNat - 1) := by
      rw [← pow_succ', Nat.sub_add_cancel (by omega)]
    omega

end BigUInt

end YieldMe

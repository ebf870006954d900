/-
  BigInt/Exponentiation.lean --- powers, plain and modular.

  Both powers square the base once for each bit of the exponent.  The plain one takes
  its exponent from a machine integer and stops at the last bit set; the modular one
  runs over all 64 bits of every word, and divides after each product by the modulus
  normalized once.
-/
import YieldMe.Foundation.NumberTheory
import YieldMe.BigInt.Signed

set_option autoImplicit false

namespace YieldMe

namespace BigUInt

/-! ## Plain powers -/

/-- The variables of the loop of `power(_:)`. -/
structure PowerLoop where
  result : BigUInt
  b : BigUInt
  e : Nat

/-- The body of the loop of `power(_:)`. -/
def powerRound (directMultiplicationLimit : Int) (s : PowerLoop) : Option PowerLoop := do
  let result ←
    if s.e % 2 = 1 then s.result.multiplied directMultiplicationLimit s.b else some s.result
  let b ← s.b.multiplied directMultiplicationLimit s.b
  pure { result, b, e := s.e / 2 }

/-- `power(_:)`: no result where the precondition fails. -/
def power (directMultiplicationLimit : Int) (x : BigUInt) (exponent : Int) : Option BigUInt :=
  if exponent = 0 then some (ofWord 1)
  else if exponent = 1 then some x
  else if exponent < 0 then
    if x.isZero then none else some (if x.eq (ofWord 1) then ofWord 1 else zero)
  else if x.le (ofWord 1) then some x
  else
    (Loop.whileTry (fun s : PowerLoop => decide (0 < s.e)) (powerRound directMultiplicationLimit)
      exponent.toNat { result := ofWord 1, b := x, e := exponent.toNat }).map PowerLoop.result

theorem powerRound_eq (limit : Int) (s : PowerLoop) :
    powerRound limit s = some
      { result := ofNat (if s.e % 2 = 1 then s.result.toNat * s.b.toNat else s.result.toNat)
        b := ofNat (s.b.toNat * s.b.toNat)
        e := s.e / 2 } := by
  unfold powerRound
  by_cases hodd : s.e % 2 = 1
  · simp only [if_pos hodd, multiplied_eq, Option.bind_eq_bind, Option.bind_some]
    rfl
  · simp only [if_neg hodd, multiplied_eq, Option.bind_eq_bind, Option.bind_some, ofNat_toNat]
    rfl

/-- The loop multiplies its result by the power. -/
theorem power_loop (limit : Int) (s : PowerLoop) :
    ∃ s', Loop.whileTry (fun s : PowerLoop => decide (0 < s.e)) (powerRound limit) s.e s = some s' ∧
      s'.result.toNat = s.result.toNat * s.b.toNat ^ s.e := by
  obtain ⟨s', hs', hinv, hend⟩ :=
    Loop.whileTry_rule (g := fun s : PowerLoop => decide (0 < s.e))
      (f := powerRound limit)
      (fun s' => s'.result.toNat * s'.b.toNat ^ s'.e = s.result.toNat * s.b.toNat ^ s.e)
      PowerLoop.e
      (by
        intro s' hinv hguard
        refine ⟨_, powerRound_eq limit s', ?_, ?_⟩
        · rw [← hinv, toNat_ofNat, toNat_ofNat]
          exact NumberTheory.pow_round _ _ _
        · exact Nat.div_lt_self (of_decide_eq_true hguard) (by decide))
      s.e s rfl (Nat.le_refl _)
  have hzero : s'.e = 0 := Nat.eq_zero_of_not_pos (of_decide_eq_false hend)
  rw [hzero, pow_zero, Nat.mul_one] at hinv
  exact ⟨s', hs', hinv⟩

/-- A power to a natural number. -/
theorem power_eq (limit : Int) (x : BigUInt) (n : Nat) :
    x.power limit n = some (ofNat (x.toNat ^ n)) := by
  unfold power
  by_cases hzero : n = 0
  · rw [hzero, pow_zero, ← ofWord_one]
    rfl
  by_cases hone : n = 1
  · rw [hone, pow_one, ofNat_toNat]
    rfl
  rw [if_neg (by omega), if_neg (by omega), if_neg (by omega)]
  by_cases hle : x.toNat ≤ 1
  · rw [if_pos ((le_one_iff x).mpr hle)]
    refine congrArg some (eq_ofNat ?_)
    rcases Nat.le_one_iff_eq_zero_or_eq_one.mp hle with hx | hx
    · rw [hx, zero_pow hzero]
    · rw [hx, one_pow]
  · obtain ⟨s, hs, hresult⟩ := power_loop limit { result := ofWord 1, b := x, e := n }
    rw [if_neg (fun h => hle ((le_one_iff x).mp h)), Int.toNat_natCast, hs, Option.map_some]
    rw [toNat_ofWord, UInt64.toNat_one, Nat.one_mul] at hresult
    exact congrArg some (eq_ofNat hresult)

/-- A negative exponent gives one for one, zero for anything larger, and stops the
process for zero. -/
theorem power_neg (limit : Int) (x : BigUInt) {exponent : Int} (h : exponent < 0) :
    x.power limit exponent =
      if x.toNat = 0 then none else some (if x.toNat = 1 then ofNat 1 else ofNat 0) := by
  unfold power
  rw [if_neg (by omega), if_neg (by omega), if_pos h]
  have hzero : zero = ofNat 0 := eq_ofNat toNat_zero
  simp only [isZero_iff, eq_one_iff, hzero]
  rw [ofWord_one]

/-! ## Modular powers -/

/-- The body of the inner loop of `power(_:modulus:)`, with the bits of the word that
are left. -/
def powerBit (directMultiplicationLimit : Int) (normalizedModulus : BigUInt) (shift : Nat)
    (s : (BigUInt × BigUInt) × Word) : Option ((BigUInt × BigUInt) × Word) := do
  let result ←
    if s.2 &&& 1 = 1 then
      (s.1.1.multiplied directMultiplicationLimit s.1.2).bind
        (·.formRemainder normalizedModulus shift)
    else some s.1.1
  let square ← s.1.2.multiplied directMultiplicationLimit s.1.2
  let b ← square.formRemainder normalizedModulus shift
  pure ((result, b), s.2 >>> 1)

/-- The inner loop of `power(_:modulus:)`: all bits of one word. -/
def powerWord (directMultiplicationLimit : Int) (normalizedModulus : BigUInt) (shift : Nat)
    (s : BigUInt × BigUInt) (e : Word) : Option (BigUInt × BigUInt) :=
  ((List.range 64).foldlM (fun s _ => powerBit directMultiplicationLimit normalizedModulus shift s)
    (s, e)).map Prod.fst

/-- `power(_:modulus:)`: no result where the precondition fails. -/
def powerModulus (directMultiplicationLimit : Int) (x exponent modulus : BigUInt) :
    Option BigUInt :=
  if modulus.isZero then none
  else if modulus.eq (ofWord 1) then some zero
  else do
    let shift := modulus.leadingZeroBitCount
    let normalizedModulus := modulus.shiftedLeft shift
    let b ← x.formRemainder normalizedModulus shift
    let s ← exponent.words.foldlM (powerWord directMultiplicationLimit normalizedModulus shift)
      (ofWord 1, b)
    pure s.1

/-- The state with a power to be made that is congruent to the whole one. -/
structure PowerInvariant (m total rest : Nat) (s : BigUInt × BigUInt) : Prop where
  congr : s.1.toNat * s.2.toNat ^ rest ≡ total [MOD m]
  lt : s.1.toNat < m

theorem and_one_eq_one_iff (w : Word) : w &&& 1 = 1 ↔ w.toNat % 2 = 1 := by
  rw [← UInt64.toNat_inj, UInt64.toNat_and, UInt64.toNat_one, Nat.and_one_is_mod]

theorem even_iff (x : BigUInt) : x.get 0 &&& 1 = 0 ↔ x.toNat % 2 = 0 := by
  rw [← UInt64.toNat_inj, UInt64.toNat_and, UInt64.toNat_one, Nat.and_one_is_mod,
    UInt64.toNat_zero, toNat_get, weight_zero, Nat.div_one, Nat.mod_mod_of_dvd _ (by decide)]

theorem toNat_shiftRight_one (w : Word) : (w >>> 1).toNat = w.toNat / 2 := by
  have h := Word.toNat_shiftRight w (show 1 < 64 by decide)
  rwa [pow_one] at h

theorem PowerInvariant.bit (limit : Int) {modulus : BigUInt} (hm : 0 < modulus.toNat)
    {total high : Nat} {s : (BigUInt × BigUInt) × Word}
    (h : PowerInvariant modulus.toNat total (s.2.toNat + 2 * high) s.1) :
    ∃ s', powerBit limit (modulus.shiftedLeft modulus.leadingZeroBitCount)
        modulus.leadingZeroBitCount s = some s' ∧
      s'.2.toNat = s.2.toNat / 2 ∧
      PowerInvariant modulus.toNat total (s'.2.toNat + high) s'.1 := by
  obtain ⟨⟨result, b⟩, e⟩ := s
  have hpow := NumberTheory.pow_mod_round modulus.toNat result.toNat b.toNat (e.toNat + 2 * high)
  rw [Nat.add_mul_mod_self_left, Nat.add_mul_div_left _ _ Nat.two_pos] at hpow
  have hnext := hpow.trans h.congr
  unfold powerBit
  simp only [multiplied_eq, formRemainder_eq _ hm, toNat_ofNat, and_one_eq_one_iff,
    Option.bind_eq_bind, Option.bind_some]
  by_cases hodd : e.toNat % 2 = 1
  · rw [if_pos hodd] at hnext
    rw [if_pos hodd]
    refine ⟨_, rfl, toNat_shiftRight_one e, ?_, ?_⟩
    · rw [toNat_ofNat, toNat_ofNat, toNat_shiftRight_one]
      exact hnext
    · rw [toNat_ofNat]
      exact Nat.mod_lt _ hm
  · rw [if_neg hodd] at hnext
    rw [if_neg hodd]
    refine ⟨_, rfl, toNat_shiftRight_one e, ?_, h.lt⟩
    rw [toNat_ofNat, toNat_shiftRight_one]
    exact hnext

/-- All bits of one word: what is left are the words above. -/
theorem PowerInvariant.word (limit : Int) {modulus : BigUInt} (hm : 0 < modulus.toNat)
    {total high : Nat} {s : BigUInt × BigUInt} {e : Word}
    (h : PowerInvariant modulus.toNat total (e.toNat + 2 ^ 64 * high) s) :
    ∃ s', powerWord limit (modulus.shiftedLeft modulus.leadingZeroBitCount)
        modulus.leadingZeroBitCount s e = some s' ∧
      PowerInvariant modulus.toNat total high s' := by
  obtain ⟨s', hs', hlt, hinv⟩ := Loop.foldlM_range_rule (n := 64)
    (f := fun s _ => powerBit limit (modulus.shiftedLeft modulus.leadingZeroBitCount)
      modulus.leadingZeroBitCount s)
    (fun i (s : (BigUInt × BigUInt) × Word) => s.2.toNat < 2 ^ (64 - i) ∧
      PowerInvariant modulus.toNat total (s.2.toNat + 2 ^ (64 - i) * high) s.1)
    (s := (s, e)) ⟨e.toNat_lt, h⟩
    (by
      rintro i s hi ⟨hlt, hinv⟩
      rw [show 64 - i = (64 - (i + 1)) + 1 by omega, pow_succ', Nat.mul_assoc] at hinv
      obtain ⟨s', hs', hword, hinv'⟩ := hinv.bit limit hm
      refine ⟨s', hs', ?_, hinv'⟩
      rw [hword, Nat.div_lt_iff_lt_mul Nat.two_pos, ← pow_succ,
        show 64 - (i + 1) + 1 = 64 - i by omega]
      exact hlt)
  rw [Nat.sub_self, pow_zero] at hlt hinv
  rw [Nat.lt_one_iff.mp hlt, Nat.zero_add, Nat.one_mul] at hinv
  exact ⟨s'.1, by rw [powerWord, hs', Option.map_some], hinv⟩

/-- All words. -/
theorem PowerInvariant.words (limit : Int) {modulus : BigUInt} (hm : 0 < modulus.toNat)
    {total : Nat} (words : List Word) :
    ∀ s, PowerInvariant modulus.toNat total (wordsToNat words) s →
      ∃ s', words.foldlM (powerWord limit (modulus.shiftedLeft modulus.leadingZeroBitCount)
          modulus.leadingZeroBitCount) s = some s' ∧
        PowerInvariant modulus.toNat total 0 s' := by
  induction words with
  | nil => exact fun s h => ⟨s, rfl, h⟩
  | cons e words ih =>
      intro s h
      rw [wordsToNat_cons, Nat.mul_comm, Nat.add_comm] at h
      obtain ⟨s', hs', hinv⟩ := h.word limit hm
      obtain ⟨s'', hs'', hend⟩ := ih s' hinv
      exact ⟨s'', by rw [List.foldlM_cons, hs', Option.bind_eq_bind, Option.bind_some, hs''], hend⟩

/-- The modular power is the remainder of the power, and stops the process for a zero
modulus only. -/
theorem powerModulus_eq (limit : Int) (x exponent modulus : BigUInt) :
    x.powerModulus limit exponent modulus =
      if modulus.toNat = 0 then none
      else some (ofNat (x.toNat ^ exponent.toNat % modulus.toNat)) := by
  unfold powerModulus
  by_cases hzero : modulus.toNat = 0
  · rw [if_pos ((isZero_iff _).mpr hzero), if_pos hzero]
  rw [if_neg (fun h => hzero ((isZero_iff _).mp h)), if_neg hzero]
  by_cases hone : modulus.toNat = 1
  · rw [if_pos ((eq_one_iff _).mpr hone), hone, Nat.mod_one]
    exact congrArg some (eq_ofNat rfl)
  · have hpos : 0 < modulus.toNat := Nat.pos_of_ne_zero hzero
    have hstart : PowerInvariant modulus.toNat (x.toNat ^ exponent.toNat)
        (wordsToNat exponent.words) (ofWord 1, ofNat (x.toNat % modulus.toNat)) := by
      refine ⟨?_, ?_⟩
      · rw [toNat_ofWord, UInt64.toNat_one, Nat.one_mul, toNat_ofNat]
        exact (Nat.mod_modEq _ _).pow _
      · rw [toNat_ofWord, UInt64.toNat_one]
        omega
    obtain ⟨s, hs, hend⟩ := PowerInvariant.words limit hpos exponent.words _ hstart
    rw [if_neg (fun h => hone ((eq_one_iff _).mp h))]
    simp only [formRemainder_eq x hpos, Option.bind_eq_bind, Option.bind_some, hs]
    have hcongr := hend.congr
    rw [pow_zero, Nat.mul_one, Nat.ModEq, Nat.mod_eq_of_lt hend.lt] at hcongr
    exact congrArg some (eq_ofNat hcongr)

end BigUInt

namespace BigInt

open BigUInt

/-! ## Powers of signed numbers -/

/-- `power(_:)`. -/
def power (directMultiplicationLimit : Int) (a : BigInt) (exponent : Int) : Option BigInt :=
  (a.magnitude.power directMultiplicationLimit exponent).map
    (ofSign (if a.sign = .minus ∧ exponent % 2 ≠ 0 then .minus else .plus))

/-- `power(_:modulus:)`. -/
def powerModulus (directMultiplicationLimit : Int) (a exponent modulus : BigInt) :
    Option BigInt :=
  if modulus.isZero then none
  else if modulus.magnitude.eq (.ofWord 1) then some (ofInt 0)
  else if exponent.isZero then some (ofInt 1)
  else if exponent.eq (ofInt 1) then a.modulus modulus
  else if exponent.lt (ofInt 0) then
    -- no inverse is taken: but for one and minus one the answer is zero
    if a.isZero then none
    else if !a.magnitude.eq (.ofWord 1) then some (ofInt 0)
    else if a.sign ≠ .minus then some (ofInt 1)
    else if exponent.magnitude.get 0 &&& 1 = 0 then some (ofInt 1)
    else (modulus.magnitude.subtract (.ofWord 1) 0).map fun m => ⟨m, .plus⟩
  else
    (a.magnitude.powerModulus directMultiplicationLimit exponent.magnitude
      modulus.magnitude).bind fun power =>
        if a.sign = .plus ∨ exponent.magnitude.get 0 &&& 1 = 0 ∨ power.isZero = true then
          some ⟨power, .plus⟩
        else (modulus.magnitude.subtract power 0).map fun m => ⟨m, .plus⟩

theorem signed_pow (s : Sign) (m n : Nat) :
    signed (if s = .minus ∧ (n : Int) % 2 ≠ 0 then .minus else .plus) (m ^ n) =
      signed s m ^ n := by
  cases s with
  | plus => rw [if_neg (fun h => nomatch h.1), signed, signed, Int.natCast_pow]
  | minus =>
      by_cases hodd : (n : Int) % 2 = 0
      · rw [if_neg (fun h => h.2 hodd), signed, signed, Int.natCast_pow,
          Even.neg_pow (Nat.even_iff.mpr (by omega))]
      · rw [if_pos ⟨rfl, hodd⟩, signed, signed, Int.natCast_pow,
          Odd.neg_pow (Nat.odd_iff.mpr (by omega))]

/-- A power to a natural number. -/
theorem power_eq (limit : Int) (a : BigInt) (n : Nat) :
    a.power limit n = some (ofInt (a.toInt ^ n)) := by
  rw [power, BigUInt.power_eq, Option.map_some, ofSign_eq, BigUInt.toNat_ofNat, signed_pow]
  rfl

/-- A power to a negative number is the reciprocal rounded towards zero. -/
theorem power_neg (limit : Int) (a : BigInt) {n : Nat} (hn : 0 < n) :
    a.power limit (-n) =
      if a.toInt = 0 then none
      else some (ofInt (if a.toInt.natAbs = 1 then a.toInt ^ n else 0)) := by
  rw [power, BigUInt.power_neg limit _ (by omega : -(n : Int) < 0)]
  simp only [toInt_eq_zero_iff, toInt_natAbs]
  by_cases hzero : a.magnitude.toNat = 0
  · rw [if_pos hzero, if_pos hzero, Option.map_none]
  rw [if_neg hzero, if_neg hzero, Option.map_some, ofSign_eq]
  by_cases hone : a.magnitude.toNat = 1
  · have hpow := signed_pow a.sign 1 n
    rw [one_pow] at hpow
    have hparity : -(n : Int) % 2 ≠ 0 ↔ (n : Int) % 2 ≠ 0 := by omega
    rw [if_pos hone, if_pos hone, BigUInt.toNat_ofNat, toInt, hone, ← hpow]
    simp only [hparity]
  · rw [if_neg hone, if_neg hone, BigUInt.toNat_ofNat, signed_zero]

/-- The sign of the power, put into the remainder of its magnitude. -/
theorem remainder_of_sign (s : Sign) {modulus : BigInt} (hm : modulus.magnitude.toNat ≠ 0)
    (e n : Nat) :
    (if s = .plus ∨ e % 2 = 0 ∨ n % modulus.magnitude.toNat = 0 then
        some ⟨ofNat (n % modulus.magnitude.toNat), .plus⟩
      else (modulus.magnitude.subtract (ofNat (n % modulus.magnitude.toNat)) 0).map
        fun m => (⟨m, .plus⟩ : BigInt)) =
      some (ofInt (signed (if s = .minus ∧ (e : Int) % 2 ≠ 0 then .minus else .plus) n %
        modulus.toInt)) := by
  rw [emod_toInt]
  by_cases hplus : s = .plus ∨ e % 2 = 0
  · have hsign : ¬ (s = .minus ∧ (e : Int) % 2 ≠ 0) := by
      rintro ⟨hminus, hodd⟩
      rcases hplus with h | h
      · rw [h] at hminus
        cases hminus
      · omega
    rw [if_pos (or_assoc.mp (Or.inl hplus)), if_neg hsign, plus_ofNat, signed, Int.natCast_mod]
  · rw [not_or] at hplus
    have hminus : s = .minus := by
      cases h : s with
      | plus => exact absurd h hplus.1
      | minus => rfl
    rw [if_pos (And.intro hminus (by omega)), signed, neg_emod_nat _ _ hm]
    by_cases hmod : n % modulus.magnitude.toNat = 0
    · rw [if_pos (Or.inr (Or.inr hmod)), if_pos hmod, hmod, plus_ofNat]
      rfl
    · have hlt := Nat.mod_lt n (Nat.pos_of_ne_zero hm)
      have hguard : ¬ (s = .plus ∨ e % 2 = 0 ∨ n % modulus.magnitude.toNat = 0) := by
        rintro (h | h | h)
        · exact hplus.1 h
        · exact hplus.2 h
        · exact hmod h
      rw [if_neg hguard, if_neg hmod, BigUInt.subtract_eq, toNat_ofNat, weight_zero, Nat.mul_one,
        if_pos (Nat.le_of_lt hlt), Option.map_some, plus_ofNat, Int.ofNat_sub (Nat.le_of_lt hlt)]

/-- The modular power to an integer that is not negative. -/
theorem powerModulus_eq (limit : Int) (a : BigInt) {exponent modulus : BigInt}
    (hm : modulus.toInt ≠ 0) (he : 0 ≤ exponent.toInt) :
    a.powerModulus limit exponent modulus =
      some (ofInt (a.toInt ^ exponent.toInt.toNat % modulus.toInt)) := by
  have hm' : modulus.magnitude.toNat ≠ 0 := fun h => hm ((toInt_eq_zero_iff modulus).mpr h)
  rw [powerModulus, isZero, if_neg (fun h => hm' ((isZero_iff _).mp h))]
  by_cases hone : modulus.magnitude.toNat = 1
  · rw [if_pos ((eq_one_iff _).mpr hone), emod_toInt, hone, Nat.cast_one, Int.emod_one]
  rw [if_neg (fun h => hone ((eq_one_iff _).mp h))]
  by_cases hezero : exponent.magnitude.toNat = 0
  · rw [isZero, if_pos ((isZero_iff _).mpr hezero), (toInt_eq_zero_iff exponent).mpr hezero,
      Int.toNat_zero, pow_zero, emod_toInt, Int.emod_eq_of_lt (by decide) (by omega)]
  rw [isZero, if_neg (fun h => hezero ((isZero_iff _).mp h))]
  have hcanon : exponent.IsCanonical := by
    intro _
    rw [← Bool.not_eq_true, isZero_iff]
    exact hezero
  by_cases heone : exponent.eq (ofInt 1) = true
  · rw [if_pos heone, (eq_iff _ _).mp heone, toInt_ofInt, Int.toNat_one, pow_one, modulus_eq,
      if_neg hm]
  have hnonneg : ¬ exponent.lt (ofInt 0) = true := by
    rw [lt_iff hcanon, toInt_ofInt]
    omega
  have hmagnitude : exponent.toInt.toNat = exponent.magnitude.toNat := by
    rw [← toInt_natAbs]
    omega
  rw [if_neg heone, if_neg hnonneg, BigUInt.powerModulus_eq, if_neg hm', Option.bind_some,
    hmagnitude]
  simp only [even_iff, isZero_iff, toNat_ofNat]
  rw [remainder_of_sign a.sign hm', signed_pow]
  rfl

/-- What the modular power makes of one and minus one for a negative exponent. -/
theorem unit_remainder (s : Sign) {modulus : BigInt} (hm : 1 < modulus.magnitude.toNat)
    (exponent : BigUInt) :
    (if s ≠ .minus then some (ofInt 1)
      else if exponent.get 0 &&& 1 = 0 then some (ofInt 1)
      else (modulus.magnitude.subtract (.ofWord 1) 0).map fun m => (⟨m, .plus⟩ : BigInt)) =
      some (ofInt (signed s 1 ^ exponent.toNat % modulus.toInt)) := by
  have hone : (1 : Nat) % modulus.magnitude.toNat = 1 := Nat.mod_eq_of_lt hm
  have hplus : ofInt 1 = ⟨ofNat 1, .plus⟩ := (plus_ofNat 1).symm
  have hzero : modulus.magnitude.toNat ≠ 0 := Nat.ne_of_gt (Nat.lt_trans Nat.zero_lt_one hm)
  have hsign := remainder_of_sign s hzero exponent.toNat (1 ^ exponent.toNat)
  rw [signed_pow, one_pow, hone] at hsign
  simp only [even_iff]
  rw [← hsign, hplus, ofWord_one]
  cases s with
  | plus => rfl
  | minus =>
      rw [if_neg (fun h => h rfl)]
      by_cases heven : exponent.toNat % 2 = 0
      · rw [if_pos heven, if_pos (Or.inr (Or.inl heven))]
      · have hguard : ¬ (Sign.minus = .plus ∨ exponent.toNat % 2 = 0 ∨ (1 : Nat) = 0) := by
          rintro (h | h | h)
          · cases h
          · exact heven h
          · cases h
        rw [if_neg heven, if_neg hguard]

/-- The modular power to a negative integer. -/
theorem powerModulus_neg (limit : Int) (a : BigInt) {exponent modulus : BigInt}
    (he : exponent.toInt < 0) :
    a.powerModulus limit exponent modulus =
      if modulus.toInt = 0 then none
      else if modulus.toInt.natAbs = 1 then some (ofInt 0)
      else if a.toInt = 0 then none
      else some (ofInt
        (if a.toInt.natAbs = 1 then a.toInt ^ exponent.toInt.natAbs % modulus.toInt else 0)) := by
  have hezero : exponent.magnitude.toNat ≠ 0 := fun h => by
    have := (toInt_eq_zero_iff exponent).mpr h
    omega
  have hcanon : exponent.IsCanonical := by
    intro _
    rw [← Bool.not_eq_true, isZero_iff]
    exact hezero
  have heone : ¬ exponent.eq (ofInt 1) = true := by
    rw [eq_iff]
    intro h
    rw [h, toInt_ofInt] at he
    omega
  have hneg : exponent.lt (ofInt 0) = true := by
    rw [lt_iff hcanon, toInt_ofInt]
    exact he
  rw [powerModulus, isZero, isZero, isZero, if_neg (show ¬ exponent.magnitude.isZero = true from
    fun h => hezero ((isZero_iff _).mp h)), if_neg heone, if_pos hneg]
  simp only [isZero_iff, eq_one_iff, toInt_eq_zero_iff, toInt_natAbs]
  by_cases hmzero : modulus.magnitude.toNat = 0
  · rw [if_pos hmzero, if_pos hmzero]
  by_cases hmone : modulus.magnitude.toNat = 1
  · rw [if_neg hmzero, if_neg hmzero, if_pos hmone, if_pos hmone]
  rw [if_neg hmzero, if_neg hmzero, if_neg hmone, if_neg hmone]
  by_cases hazero : a.magnitude.toNat = 0
  · rw [if_pos hazero, if_pos hazero]
  rw [if_neg hazero, if_neg hazero]
  by_cases haone : a.magnitude.toNat = 1
  · have hsigned : a.toInt = signed a.sign 1 := by
      rw [toInt, haone]
    have heq : ¬ (!a.magnitude.eq (ofWord 1)) = true := by
      rw [(eq_one_iff _).mpr haone]
      decide
    rw [if_neg heq, if_pos haone, hsigned]
    exact unit_remainder a.sign (by omega) exponent.magnitude
  · have heq : (!a.magnitude.eq (ofWord 1)) = true := by
      rw [Bool.not_eq_true', ← Bool.not_eq_true, eq_one_iff]
      exact haone
    rw [if_pos heq, if_neg haone]

end BigInt

end YieldMe

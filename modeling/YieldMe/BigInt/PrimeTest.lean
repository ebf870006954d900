/-
  BigInt/PrimeTest.lean --- the strong probable prime test and `isPrime`.

  `isStrongProbablePrime` squares a modular power until it meets minus one; it gives up
  at one, since nothing but one follows.  `isPrime` divides by the first primes, then
  runs the test for these primes as bases, or above the last pseudoprime of its table
  for random bases.  A prime passes all of it.  What fails by division is not prime;
  what passes the rest may not be prime, and below the square of the next prime it is.
  A negative number of rounds stops the process, where rounds are made at all.
-/
import Mathlib.NumberTheory.LucasLehmer
import Mathlib.Tactic.IntervalCases
import Mathlib.Tactic.NormNum.Prime
import YieldMe.BigInt.Exponentiation
import YieldMe.BigInt.GCD
import YieldMe.BigInt.Random

set_option autoImplicit false

namespace YieldMe

open NumberTheory

namespace BigUInt

/-! ## The strong probable prime test -/

/-- The loop of `isStrongProbablePrime(_:)`. -/
def strongRounds (directMultiplicationLimit : Int) (normalized : BigUInt) (shift : Nat)
    (dec : BigUInt) : Nat → BigUInt → Option Bool
  | 0, _ => some false
  | rounds + 1, test => do
      let square ← test.multiplied directMultiplicationLimit test
      let test ← square.formRemainder normalized shift
      if test.eq (ofWord 1) then some false
      else if test.eq dec then some true
      else strongRounds directMultiplicationLimit normalized shift dec rounds test

/-- `isStrongProbablePrime(_:)`: no result where a precondition fails. -/
def isStrongProbablePrime (directMultiplicationLimit : Int) (x base : BigUInt) : Option Bool :=
  if !(ofWord 1).lt base then none
  else if !zero.lt x then none
  else do
    let dec ← x.subtract (ofWord 1) 0
    let r := dec.trailingZeroBitCount
    let d := dec.shiftedRight r
    let test ← base.powerModulus directMultiplicationLimit d x
    if test.eq (ofWord 1) || test.eq dec then some true
    else if 0 < r then
      let shift := x.leadingZeroBitCount
      let normalized := x.shiftedLeft shift
      strongRounds directMultiplicationLimit normalized shift dec (r - 1) test
    else some false

theorem pow_mod_one {y n : Nat} (hn : 1 < n) (hy : y % n = 1) (k : Nat) : y ^ k % n = 1 := by
  rw [Nat.pow_mod, hy, one_pow, Nat.mod_eq_of_lt hn]

/-- The loop looks for minus one among the next squares. -/
theorem strongRounds_spec (limit : Int) {x : BigUInt} (hx : 2 < x.toNat) (rounds : Nat) :
    ∀ y : Nat, ∃ answer,
      strongRounds limit (x.shiftedLeft x.leadingZeroBitCount) x.leadingZeroBitCount
        (ofNat (x.toNat - 1)) rounds (ofNat (y % x.toNat)) = some answer ∧
      (answer = true ↔ ∃ i < rounds, y ^ 2 ^ (i + 1) % x.toNat = x.toNat - 1) := by
  induction rounds with
  | zero =>
      intro y
      refine ⟨false, rfl, ?_⟩
      simp
  | succ rounds ih =>
      intro y
      have hpow : ∀ i, y ^ 2 ^ (i + 1) = (y * y) ^ 2 ^ i := by
        intro i
        rw [pow_succ', pow_mul, pow_two]
      have hsquare : y % x.toNat * (y % x.toNat) % x.toNat = y * y % x.toNat :=
        (Nat.mul_mod _ _ _).symm
      rw [strongRounds]
      simp only [multiplied_eq, toNat_ofNat, Option.bind_eq_bind, Option.bind_some,
        formRemainder_eq _ (by omega : 0 < x.toNat), hsquare, eq_iff, ← toNat_inj,
        toNat_ofWord, UInt64.toNat_one]
      by_cases hone : y * y % x.toNat = 1
      · rw [if_pos hone]
        refine ⟨false, rfl, ?_⟩
        -- once one, always one
        simp only [Bool.false_eq_true, false_iff, not_exists, not_and]
        intro i _ hminus
        rw [hpow, pow_mod_one (by omega) hone] at hminus
        omega
      rw [if_neg hone]
      by_cases hdec : y * y % x.toNat = x.toNat - 1
      · rw [if_pos hdec]
        refine ⟨true, rfl, ?_⟩
        simp only [true_iff]
        exact ⟨0, Nat.succ_pos _, by rw [hpow, pow_zero, pow_one]; exact hdec⟩
      rw [if_neg hdec]
      obtain ⟨answer, hanswer, hiff⟩ := ih (y * y)
      refine ⟨answer, hanswer, hiff.trans ?_⟩
      constructor
      · rintro ⟨i, hi, h⟩
        exact ⟨i + 1, Nat.succ_lt_succ hi, by rw [hpow]; exact h⟩
      · rintro ⟨i, hi, h⟩
        rw [hpow] at h
        cases i with
        | zero =>
            rw [pow_zero, pow_one] at h
            exact absurd h hdec
        | succ i => exact ⟨i, Nat.lt_of_succ_lt_succ hi, h⟩

/-- The exponents of the test: the odd part of the predecessor, and its twos. -/
def strongExponents (x : BigUInt) : Nat × Nat :=
  ((ofNat (x.toNat - 1)).oddPart, (ofNat (x.toNat - 1)).trailingZeroBitCount)

theorem strongExponents_spec {x : BigUInt} (hx : 1 < x.toNat) :
    x.toNat - 1 = x.strongExponents.1 * 2 ^ x.strongExponents.2 ∧
      x.strongExponents.1 % 2 = 1 := by
  have h := toNat_oddPart (x := ofNat (x.toNat - 1)) (by rw [toNat_ofNat]; omega)
  rwa [toNat_ofNat] at h

/-- Only odd numbers above two have a predecessor with twos. -/
theorem two_lt_of_twos {x : BigUInt} (hx : 1 < x.toNat) (hr : 0 < x.strongExponents.2) :
    2 < x.toNat := by
  obtain ⟨heq, -⟩ := strongExponents_spec hx
  obtain ⟨r, hr'⟩ : ∃ r, x.strongExponents.2 = r + 1 := ⟨x.strongExponents.2 - 1, by omega⟩
  rw [hr', pow_succ, ← Nat.mul_assoc] at heq
  omega

/-- The test is the one of number theory, for every base above one. -/
theorem isStrongProbablePrime_spec (limit : Int) {x base : BigUInt} (hx : 0 < x.toNat)
    (hbase : 1 < base.toNat) :
    ∃ answer, x.isStrongProbablePrime limit base = some answer ∧
      (answer = true ↔
        IsStrong x.toNat base.toNat x.strongExponents.1 x.strongExponents.2) := by
  unfold isStrongProbablePrime
  have hlt : (ofWord 1).lt base = true := (one_lt_iff base).mpr hbase
  have hpos : zero.lt x = true := by
    rw [lt_iff, toNat_zero]
    exact hx
  rw [hlt, hpos, if_neg (by decide), if_neg (by decide), subtract_eq, toNat_ofWord,
    UInt64.toNat_one, weight_zero, Nat.mul_one, if_pos (Nat.succ_le_of_lt hx),
    Option.bind_eq_bind, Option.bind_some]
  have hshift : (ofNat (x.toNat - 1)).shiftedRight x.strongExponents.2 =
      ofNat x.strongExponents.1 := by
    rw [shiftedRight_eq]
    rfl
  have htwos : (ofNat (x.toNat - 1)).trailingZeroBitCount = x.strongExponents.2 := rfl
  simp only [hshift, powerModulus_eq, if_neg (Nat.ne_of_gt hx), toNat_ofNat, Option.bind_some,
    htwos, Bool.or_eq_true, eq_iff, ← toNat_inj, toNat_ofWord,
    UInt64.toNat_one]
  by_cases hfirst : base.toNat ^ x.strongExponents.1 % x.toNat = 1 ∨
      base.toNat ^ x.strongExponents.1 % x.toNat = x.toNat - 1
  · rw [if_pos hfirst]
    exact ⟨true, rfl, fun _ => isStrong_of_first hfirst, fun _ => rfl⟩
  rw [if_neg hfirst, isStrong_iff_squares hfirst]
  by_cases hr : 0 < x.strongExponents.2
  · have hx1 : 1 < x.toNat := by
      by_contra hle
      exact hfirst (Or.inr (by rw [show x.toNat = 1 by omega, Nat.mod_one]))
    rw [if_pos hr]
    exact strongRounds_spec limit (two_lt_of_twos hx1 hr) _ _
  · rw [if_neg hr]
    refine ⟨false, rfl, fun h => Bool.noConfusion h, ?_⟩
    rintro ⟨i, hi, -⟩
    omega

/-- A prime passes for every base that is no multiple of it. -/
theorem isStrongProbablePrime_of_prime (limit : Int) {x base : BigUInt} (hx : x.toNat.Prime)
    (hbase : 1 < base.toNat) (hdvd : ¬ x.toNat ∣ base.toNat) :
    x.isStrongProbablePrime limit base = some true := by
  obtain ⟨answer, hanswer, hiff⟩ := isStrongProbablePrime_spec limit hx.pos hbase
  have hstrong := isStrong_of_prime hx hdvd (strongExponents_spec hx.one_lt).1
  rw [hanswer, hiff.mpr hstrong]

/-! ## `isPrime` -/

/-- `primes`. -/
def primes : List Word := [2, 3, 5, 7, 11, 13, 17, 19, 23, 29, 31, 37, 41]

/-- `pseudoPrimes`. -/
def pseudoPrimes : List BigUInt :=
  [2047, 1373653, 25326001, 3215031751, 2152302898747, 3474749660383, 341550071728321,
    341550071728321, 3825123056546413051, 3825123056546413051, 3825123056546413051,
    318665857834031151167461, 3317044064679887385961981].map ofNat

/-- The loop over `primes` that looks for a factor. -/
def trialDivision (x : BigUInt) : List Word → Option Bool
  | [] => none
  | p :: rest =>
      if x.count = 1 ∧ x.get 0 = p then some true
      else if (x.divide p).2 = 0 then some false
      else trialDivision x rest

/-- The loop over `pseudoPrimes`, with the primes as bases. -/
def deterministicRounds (directMultiplicationLimit : Int) (x : BigUInt) :
    List (Word × BigUInt) → Option Bool
  | [] => some false
  | (p, pseudoPrime) :: rest => do
      let passed ← x.isStrongProbablePrime directMultiplicationLimit (ofWord p)
      if !passed then some false
      else if x.lt pseudoPrime then some true
      else deterministicRounds directMultiplicationLimit x rest

/-- The loop with random bases. -/
def randomRounds (directMultiplicationLimit : Int) (x : BigUInt) (tape : Nat → Word)
    (attempts : Nat) : Nat → Nat → Option Bool
  | 0, _ => some true
  | rounds + 1, position => do
      let below ← x.subtract (ofWord 2) 0
      let (random, position) ← randomIntegerBelow below tape attempts position
      let passed ← x.isStrongProbablePrime directMultiplicationLimit (random.add (ofWord 2) 0)
      if !passed then some false
      else randomRounds directMultiplicationLimit x tape attempts rounds position

/-- `isPrime(rounds:)`. -/
def isPrime (directMultiplicationLimit : Int) (x : BigUInt) (tape : Nat → Word)
    (attempts : Nat) (rounds : Int) : Option Bool :=
  if x.count ≤ 1 ∧ x.get 0 < 2 then some false
  else if x.count = 1 ∧ x.get 0 < 4 then some true
  else if x.get 0 &&& 1 = 0 then some false
  else
    match trialDivision x (primes.drop 1) with
    | some answer => some answer
    | none =>
        if x.lt (pseudoPrimes.getLastD zero) then
          deterministicRounds directMultiplicationLimit x (primes.zip pseudoPrimes)
        -- the range `0 ..< rounds` needs its bounds in order
        else if rounds < 0 then none
        else randomRounds directMultiplicationLimit x tape attempts rounds.toNat 0

/-! ## What the guards say -/

theorem toNat_get_zero_of_lt {x : BigUInt} (h : x.toNat < 2 ^ 64) :
    (x.get 0).toNat = x.toNat := by
  rw [toNat_get, weight_zero, Nat.div_one, Nat.mod_eq_of_lt h]

theorem count_le_one_iff (x : BigUInt) : x.count ≤ 1 ↔ x.toNat < 2 ^ 64 := by
  constructor
  · intro h
    have hlt := toNat_lt_weight x
    exact Nat.lt_of_lt_of_le hlt (weight_le h)
  · intro h
    have hlt : x.toNat < weight 1 := h
    exact count_le_of_lt hlt

theorem word_lt_iff (x : BigUInt) (w : Word) :
    (x.count ≤ 1 ∧ x.get 0 < w) ↔ x.toNat < w.toNat := by
  rw [count_le_one_iff, UInt64.lt_iff_toNat_lt]
  constructor
  · rintro ⟨hlt, hword⟩
    rwa [toNat_get_zero_of_lt hlt] at hword
  · intro h
    have hlt := Nat.lt_trans h w.toNat_lt
    exact ⟨hlt, by rwa [toNat_get_zero_of_lt hlt]⟩

theorem count_eq_one_iff (x : BigUInt) : x.count = 1 ↔ x.count ≤ 1 ∧ x.toNat ≠ 0 := by
  rw [ne_eq, ← count_eq_zero_iff]
  omega

theorem word_eq_iff (x : BigUInt) {p : Word} (hp : p.toNat ≠ 0) :
    (x.count = 1 ∧ x.get 0 = p) ↔ x.toNat = p.toNat := by
  rw [count_eq_one_iff, count_le_one_iff, ← UInt64.toNat_inj]
  constructor
  · rintro ⟨⟨hlt, -⟩, hword⟩
    rwa [toNat_get_zero_of_lt hlt] at hword
  · intro h
    have hlt : x.toNat < 2 ^ 64 := by
      rw [h]
      exact p.toNat_lt
    exact ⟨⟨hlt, by rw [h]; exact hp⟩, by rw [toNat_get_zero_of_lt hlt, h]⟩

/-- No answer of the trial division: neither one of the divisors nor a multiple. -/
theorem trialDivision_eq_none_iff (x : BigUInt) {divisors : List Word}
    (hpos : ∀ p ∈ divisors, p.toNat ≠ 0) :
    trialDivision x divisors = none ↔ ∀ p ∈ divisors, ¬ p.toNat ∣ x.toNat := by
  induction divisors with
  | nil => simp [trialDivision]
  | cons p rest ih =>
      have hp := hpos p List.mem_cons_self
      have ih' := ih fun q hq => hpos q (List.mem_cons_of_mem p hq)
      obtain ⟨-, hremainder⟩ := toNat_divide x (Nat.pos_of_ne_zero hp)
      have hzero : (x.divide p).2 = 0 ↔ p.toNat ∣ x.toNat := by
        rw [← UInt64.toNat_inj, hremainder, UInt64.toNat_zero, Nat.dvd_iff_mod_eq_zero]
      rw [trialDivision, List.forall_mem_cons, ← ih']
      simp only [word_eq_iff x hp, hzero]
      by_cases heq : x.toNat = p.toNat
      · rw [if_pos heq]
        simp [heq]
      · rw [if_neg heq]
        by_cases hdvd : p.toNat ∣ x.toNat
        · rw [if_pos hdvd]
          simp [hdvd]
        · rw [if_neg hdvd]
          exact ⟨fun h => ⟨hdvd, h⟩, fun h => h.2⟩

/-- What the trial division accepts is one of the divisors. -/
theorem mem_of_trialDivision {x : BigUInt} {divisors : List Word}
    (hpos : ∀ p ∈ divisors, p.toNat ≠ 0) (h : trialDivision x divisors = some true) :
    ∃ p ∈ divisors, x.toNat = p.toNat := by
  induction divisors with
  | nil => cases h
  | cons p rest ih =>
      rw [trialDivision] at h
      split at h
      · rename_i heq
        exact ⟨p, List.mem_cons_self, (word_eq_iff x (hpos p List.mem_cons_self)).mp heq⟩
      · split at h
        · cases h
        · obtain ⟨q, hq, heq⟩ := ih (fun q hq => hpos q (List.mem_cons_of_mem p hq)) h
          exact ⟨q, List.mem_cons_of_mem p hq, heq⟩

/-- What the trial division rejects has a proper divisor among them. -/
theorem dvd_of_trialDivision {x : BigUInt} {divisors : List Word}
    (hpos : ∀ p ∈ divisors, p.toNat ≠ 0) (h : trialDivision x divisors = some false) :
    ∃ p ∈ divisors, p.toNat ∣ x.toNat ∧ x.toNat ≠ p.toNat := by
  induction divisors with
  | nil => cases h
  | cons p rest ih =>
      have hp := hpos p List.mem_cons_self
      obtain ⟨-, hremainder⟩ := toNat_divide x (Nat.pos_of_ne_zero hp)
      rw [trialDivision] at h
      split at h
      · cases h
      · rename_i hne
        split at h
        · rename_i hzero
          rw [← UInt64.toNat_inj, hremainder, UInt64.toNat_zero] at hzero
          exact ⟨p, List.mem_cons_self, Nat.dvd_of_mod_eq_zero hzero,
            fun heq => hne ((word_eq_iff x hp).mpr heq)⟩
        · obtain ⟨q, hq, hdvd⟩ := ih (fun q hq => hpos q (List.mem_cons_of_mem p hq)) h
          exact ⟨q, List.mem_cons_of_mem p hq, hdvd⟩

/-! ## Primes pass -/

/-- Each of the rounds draws a number below the limit, from where the draw of the round
before has left the tape. -/
def RoundsDraw (limit : BigUInt) (tape : Nat → Word) (attempts : Nat) : Nat → Nat → Prop
  | 0, _ => True
  | rounds + 1, position =>
      ∃ k ≤ attempts, attempt limit tape position k < limit.toNat ∧
        (∀ j < k, limit.toNat ≤ attempt limit tape position j) ∧
        RoundsDraw limit tape attempts rounds (position + (k + 1) * wordsNeeded limit.bitWidth)

/-- A round with a prime draws a base and goes on. -/
theorem randomRounds_succ (limit : Int) {x : BigUInt} (hx : x.toNat.Prime) (tape : Nat → Word)
    (attempts rounds position : Nat) :
    randomRounds limit x tape attempts (rounds + 1) position =
      (randomIntegerBelow (ofNat (x.toNat - 2)) tape attempts position).bind fun answer =>
        randomRounds limit x tape attempts rounds answer.2 := by
  have htwo : (ofWord 2).toNat = 2 := by
    rw [toNat_ofWord]
    rfl
  rw [randomRounds, subtract_eq, htwo, weight_zero, Nat.mul_one, if_pos hx.two_le,
    Option.bind_eq_bind, Option.bind_some]
  cases hdraw : randomIntegerBelow (ofNat (x.toNat - 2)) tape attempts position with
  | none => rfl
  | some answer =>
      obtain ⟨random, position'⟩ := answer
      have hlt : random.toNat < (ofNat (x.toNat - 2)).toNat := randomIntegerBelow_lt hdraw
      rw [toNat_ofNat] at hlt
      have hbase : (random.add (ofWord 2) 0).toNat = random.toNat + 2 := by
        rw [add_eq, toNat_ofNat, htwo, weight_zero, Nat.mul_one]
      have hpassed : x.isStrongProbablePrime limit (random.add (ofWord 2) 0) = some true := by
        refine isStrongProbablePrime_of_prime limit hx (by omega) fun hdvd => ?_
        have hle := Nat.le_of_dvd (by omega) hdvd
        omega
      simp only [Option.bind_eq_bind, Option.bind_some, hpassed]
      rfl

/-- The rounds accept a prime exactly where all of them draw. -/
theorem randomRounds_iff_of_prime (limit : Int) {x : BigUInt} (hx : x.toNat.Prime)
    (tape : Nat → Word) (attempts rounds : Nat) :
    ∀ position, randomRounds limit x tape attempts rounds position = some true ↔
      RoundsDraw (ofNat (x.toNat - 2)) tape attempts rounds position := by
  induction rounds with
  | zero => exact fun position => ⟨fun _ => trivial, fun _ => rfl⟩
  | succ rounds ih =>
      intro position
      rw [randomRounds_succ limit hx, RoundsDraw]
      constructor
      · intro h
        rcases randomIntegerBelow_cases (ofNat (x.toNat - 2)) tape attempts position with
          ⟨k, hk, hlt, hfailed, hdraw⟩ | ⟨-, hdraw⟩
        · rw [hdraw, Option.bind_some, ih] at h
          exact ⟨k, hk, hlt, hfailed, h⟩
        · rw [hdraw, Option.bind_none] at h
          cases h
      · rintro ⟨k, hk, hlt, hfailed, h⟩
        rw [randomIntegerBelow_eq hk hlt hfailed, Option.bind_some]
        exact (ih _).mpr h

/-- Without an answer from the generator there is none from the test. -/
theorem randomRounds_ne_false (limit : Int) {x : BigUInt} (hx : x.toNat.Prime)
    (tape : Nat → Word) (attempts rounds : Nat) :
    ∀ position, randomRounds limit x tape attempts rounds position ≠ some false := by
  induction rounds with
  | zero => exact fun position h => Bool.noConfusion (Option.some.inj h)
  | succ rounds ih =>
      intro position h
      rw [randomRounds_succ limit hx] at h
      obtain ⟨answer, -, hrest⟩ := Option.bind_eq_some_iff.mp h
      exact ih answer.2 hrest

/-- The last number of the table decides. -/
theorem deterministicRounds_of_prime (limit : Int) {x : BigUInt} (hx : x.toNat.Prime)
    {table : List (Word × BigUInt)}
    (hbase : ∀ entry ∈ table, 1 < entry.1.toNat ∧ entry.1.toNat < x.toNat)
    (hlast : ∃ entry ∈ table, x.toNat < entry.2.toNat) :
    deterministicRounds limit x table = some true := by
  induction table with
  | nil =>
      obtain ⟨_, hmem, _⟩ := hlast
      cases hmem
  | cons entry rest ih =>
      obtain ⟨p, pseudoPrime⟩ := entry
      obtain ⟨hone, hlt⟩ : 1 < p.toNat ∧ p.toNat < x.toNat := hbase _ List.mem_cons_self
      have hpassed : x.isStrongProbablePrime limit (ofWord p) = some true := by
        refine isStrongProbablePrime_of_prime limit hx (by rw [toNat_ofWord]; exact hone) ?_
        intro hdvd
        rw [toNat_ofWord] at hdvd
        have hle := Nat.le_of_dvd (by omega) hdvd
        omega
      rw [deterministicRounds, hpassed, Option.bind_eq_bind, Option.bind_some, if_neg (by decide)]
      by_cases hbelow : x.lt pseudoPrime = true
      · rw [if_pos hbelow]
      · rw [if_neg hbelow]
        refine ih (fun entry h => hbase entry (List.mem_cons_of_mem _ h)) ?_
        obtain ⟨entry, hmem, hless⟩ := hlast
        rcases List.mem_cons.mp hmem with heq | hmem
        · rw [heq] at hless
          exact absurd ((lt_iff _ _).mpr hless) hbelow
        · exact ⟨entry, hmem, hless⟩

theorem prime_of_mem_primes : ∀ p ∈ primes, p.toNat.Prime := by
  simp only [primes, List.forall_mem_cons, List.not_mem_nil, false_imp_iff, implies_true,
    UInt64.reduceToNat]
  norm_num

theorem one_lt_of_mem_primes (p : Word) (hp : p ∈ primes) : 1 < p.toNat :=
  (prime_of_mem_primes p hp).one_lt

theorem primes_pos (p : Word) (hp : p ∈ primes.drop 1) : p.toNat ≠ 0 := by
  have hlt := one_lt_of_mem_primes p (List.mem_of_mem_drop hp)
  omega

theorem lt_of_mem_primes (p : Word) (hp : p ∈ primes) : p.toNat < 43 := by
  have hall : primes.all (fun p => decide (p.toNat < 43)) = true := by decide
  exact of_decide_eq_true (List.all_eq_true.mp hall p hp)

/-- The table of primes leaves none out. -/
theorem mem_primes_of_prime {n : Nat} (hn : n.Prime) (hlt : n < 43) :
    ∃ q ∈ primes, q.toNat = n := by
  revert hn
  interval_cases n <;> first
    | exact fun _ => by decide
    | exact fun h => absurd h (by norm_num)

theorem last_mem_table : (41, pseudoPrimes.getLastD zero) ∈ primes.zip pseudoPrimes := by
  simp [primes, pseudoPrimes]

theorem three_lt_iff (x : BigUInt) (hx : 2 ≤ x.toNat) :
    (x.count = 1 ∧ x.get 0 < 4) ↔ x.toNat < 4 := by
  have hcount : x.count = 1 ↔ x.count ≤ 1 := by
    rw [count_eq_one_iff]
    exact ⟨fun h => h.1, fun h => ⟨h, by omega⟩⟩
  rw [hcount]
  exact word_lt_iff x 4

theorem last_pseudoPrime_lt : 43 * 43 < (pseudoPrimes.getLastD zero).toNat := by
  simp [pseudoPrimes]

/-- Of a prime in the table only the prime itself is a multiple. -/
theorem eq_of_dvd_of_mem {n : Nat} {p : Word} (hp : p ∈ primes) (hdvd : p.toNat ∣ n)
    (hmem : ∃ q ∈ primes, n = q.toNat) : n = p.toNat := by
  obtain ⟨q, hq, rfl⟩ := hmem
  exact ((Nat.prime_dvd_prime_iff_eq (prime_of_mem_primes p hp)
    (prime_of_mem_primes q hq)).mp hdvd).symm

/-- An odd number that passes the trial division is no multiple of a prime in the table. -/
theorem not_dvd_of_trialDivision {x : BigUInt} (hodd : ¬ 2 ∣ x.toNat)
    (htrial : trialDivision x (primes.drop 1) = none) (p : Word) (hp : p ∈ primes) :
    ¬ p.toNat ∣ x.toNat := by
  rcases List.mem_cons.mp hp with rfl | hp
  · exact hodd
  · exact (trialDivision_eq_none_iff x primes_pos).mp htrial p hp

/-- The trial division knows the primes of the table and their multiples. -/
theorem isPrime_eq (limit : Int) (x : BigUInt) (tape : Nat → Word) (attempts : Nat)
    (rounds : Int) :
    x.isPrime limit tape attempts rounds =
      if ∃ p ∈ primes, x.toNat = p.toNat then some true
      else if x.toNat < 2 ∨ ∃ p ∈ primes, p.toNat ∣ x.toNat then some false
      else if x.lt (pseudoPrimes.getLastD zero) then
        deterministicRounds limit x (primes.zip pseudoPrimes)
      else if rounds < 0 then none
      else randomRounds limit x tape attempts rounds.toNat 0 := by
  unfold isPrime
  by_cases hsmall : x.toNat < 2
  · rw [if_pos ((word_lt_iff x 2).mpr hsmall), if_neg, if_pos (Or.inl hsmall)]
    intro ⟨p, hp, heq⟩
    have := one_lt_of_mem_primes p hp
    omega
  have htwo : 2 ≤ x.toNat := Nat.not_lt.mp hsmall
  rw [if_neg (fun h => hsmall ((word_lt_iff x 2).mp h))]
  by_cases hfour : x.toNat < 4
  · have hmem : ∃ p ∈ primes, x.toNat = p.toNat := by
      rcases (by omega : x.toNat = 2 ∨ x.toNat = 3) with heq | heq
      · exact ⟨2, by simp [primes], heq⟩
      · exact ⟨3, by simp [primes], heq⟩
    rw [if_pos ((three_lt_iff x htwo).mpr hfour), if_pos hmem]
  rw [if_neg (fun h => hfour ((three_lt_iff x htwo).mp h))]
  by_cases heven : x.get 0 &&& 1 = 0
  · have hdvd : (2 : Word).toNat ∣ x.toNat := Nat.dvd_of_mod_eq_zero ((even_iff x).mp heven)
    have hmem : (2 : Word) ∈ primes := by simp [primes]
    rw [if_pos heven, if_neg, if_pos (Or.inr ⟨2, hmem, hdvd⟩)]
    intro h
    have heq : x.toNat = 2 := eq_of_dvd_of_mem hmem hdvd h
    omega
  rw [if_neg heven]
  have hodd : ¬ 2 ∣ x.toNat := fun hdvd =>
    heven ((even_iff x).mpr (Nat.mod_eq_zero_of_dvd hdvd))
  cases htrial : trialDivision x (primes.drop 1) with
  | some answer =>
      cases answer with
      | true =>
          obtain ⟨p, hp, heq⟩ := mem_of_trialDivision primes_pos htrial
          have hmem : ∃ p ∈ primes, x.toNat = p.toNat := ⟨p, List.mem_of_mem_drop hp, heq⟩
          rw [if_pos hmem]
      | false =>
          obtain ⟨p, hp, hdvd, hne⟩ := dvd_of_trialDivision primes_pos htrial
          have hp' := List.mem_of_mem_drop hp
          rw [if_neg (fun h => hne (eq_of_dvd_of_mem hp' hdvd h)), if_pos (Or.inr ⟨p, hp', hdvd⟩)]
  | none =>
      have hall := not_dvd_of_trialDivision hodd htrial
      have hmem : ¬ ∃ p ∈ primes, x.toNat = p.toNat := fun ⟨p, hp, heq⟩ =>
        hall p hp (heq ▸ Nat.dvd_refl _)
      have hrest : ¬ (x.toNat < 2 ∨ ∃ p ∈ primes, p.toNat ∣ x.toNat) :=
        not_or.mpr ⟨hsmall, fun ⟨p, hp, hdvd⟩ => hall p hp hdvd⟩
      dsimp only
      rw [if_neg hmem, if_neg hrest]

/-- A prime passes the trial division and the tests of the table. -/
theorem isPrime_prime (limit : Int) {x : BigUInt} (hx : x.toNat.Prime) (tape : Nat → Word)
    (attempts : Nat) (rounds : Int) :
    x.isPrime limit tape attempts rounds =
      if x.toNat < (pseudoPrimes.getLastD zero).toNat then some true
      else if rounds < 0 then none
      else randomRounds limit x tape attempts rounds.toNat 0 := by
  rw [isPrime_eq]
  by_cases hmem : ∃ p ∈ primes, x.toNat = p.toNat
  · obtain ⟨p, hp, heq⟩ := hmem
    have hlast := Nat.lt_trans (lt_of_mem_primes p hp)
      (Nat.lt_trans (by decide) last_pseudoPrime_lt)
    rw [if_pos ⟨p, hp, heq⟩, heq, if_pos hlast]
  have hlarge : ∀ p ∈ primes, 1 < p.toNat ∧ p.toNat < x.toNat := by
    intro p hp
    refine ⟨one_lt_of_mem_primes p hp, ?_⟩
    by_contra hge
    obtain ⟨q, hq, heq⟩ := mem_primes_of_prime hx (Nat.lt_of_le_of_lt (Nat.not_lt.mp hge)
      (lt_of_mem_primes p hp))
    exact hmem ⟨q, hq, heq.symm⟩
  have hnone : ¬ (x.toNat < 2 ∨ ∃ p ∈ primes, p.toNat ∣ x.toNat) := by
    rintro (h | ⟨p, hp, hdvd⟩)
    · exact absurd hx.two_le (Nat.not_le.mpr h)
    · exact hmem ⟨p, hp, ((Nat.prime_dvd_prime_iff_eq (prime_of_mem_primes p hp) hx).mp hdvd).symm⟩
  rw [if_neg hmem, if_neg hnone]
  simp only [lt_iff]
  by_cases hbelow : x.toNat < (pseudoPrimes.getLastD zero).toNat
  · rw [if_pos hbelow, if_pos hbelow]
    exact deterministicRounds_of_prime limit hx
      (fun entry h => hlarge _ (List.of_mem_zip h).1) ⟨_, last_mem_table, hbelow⟩
  · rw [if_neg hbelow, if_neg hbelow]

/-- A prime is never rejected, whatever the generator draws.  It is accepted exactly where
it is in reach of the table, or the rounds are not negative and each of them draws. -/
theorem prime_accepted (limit : Int) {x : BigUInt} (hx : x.toNat.Prime) (tape : Nat → Word)
    (attempts : Nat) (rounds : Int) :
    x.isPrime limit tape attempts rounds ≠ some false ∧
      (x.isPrime limit tape attempts rounds = some true ↔
        x.toNat < (pseudoPrimes.getLastD zero).toNat ∨
          (0 ≤ rounds ∧ RoundsDraw (ofNat (x.toNat - 2)) tape attempts rounds.toNat 0)) := by
  rw [isPrime_prime limit hx]
  by_cases hbelow : x.toNat < (pseudoPrimes.getLastD zero).toNat
  · rw [if_pos hbelow]
    exact ⟨fun h => Bool.noConfusion (Option.some.inj h), fun _ => .inl hbelow, fun _ => rfl⟩
  rw [if_neg hbelow, or_iff_right hbelow]
  by_cases hneg : rounds < 0
  · rw [if_pos hneg]
    refine ⟨(Option.some_ne_none false).symm, fun h => ?_, fun h => ?_⟩
    · exact absurd h.symm (Option.some_ne_none true)
    · exact absurd h.1 (Int.not_le.mpr hneg)
  · rw [if_neg hneg, and_iff_right (Int.not_lt.mp hneg)]
    exact ⟨randomRounds_ne_false limit hx tape attempts rounds.toNat 0,
      randomRounds_iff_of_prime limit hx tape attempts rounds.toNat 0⟩

/-- Zeros are below every limit but zero. -/
theorem roundsDraw_zeros {limit : BigUInt} (hpos : 0 < limit.toNat) (attempts rounds : Nat) :
    ∀ position, RoundsDraw limit (fun _ => 0) attempts rounds position := by
  have hdrawn : ∀ position n, drawn (fun _ => 0) position n = 0 := by
    intro position n
    induction n with
    | zero => rfl
    | succ n ih => rw [drawn, ih, UInt64.toNat_zero, Nat.zero_mul]
  induction rounds with
  | zero => exact fun _ => trivial
  | succ rounds ih =>
      intro position
      refine ⟨0, Nat.zero_le _, ?_, fun j hj => absurd hj (Nat.not_lt_zero j), ih _⟩
      rw [attempt, hdrawn, Nat.zero_mod]
      exact hpos

theorem prime_mersenne : (2 ^ 89 - 1).Prime :=
  lucas_lehmer_sufficiency 89 (by norm_num) (by norm_num)

/-- A prime above the table, and rounds that draw the base two. -/
theorem prime_accepted_mersenne :
    (ofNat (2 ^ 89 - 1)).isPrime 1024 (fun _ => 0) 0 10 ≠ some false ∧
      (ofNat (2 ^ 89 - 1)).isPrime 1024 (fun _ => 0) 0 10 = some true := by
  have hx : (ofNat (2 ^ 89 - 1)).toNat.Prime := by
    rw [toNat_ofNat]
    exact prime_mersenne
  have haccepted := prime_accepted 1024 hx (fun _ => 0) 0 10
  refine ⟨haccepted.1, haccepted.2.mpr (.inr ⟨by decide, roundsDraw_zeros ?_ 0 _ 0⟩)⟩
  rw [toNat_ofNat, toNat_ofNat]
  decide

/-! ## Exact verdicts -/

/-- The primes that a number is tested with: up to the first pseudoprime above it. -/
def bases (n : Nat) : List (Word × BigUInt) → List Word
  | [] => []
  | (p, pseudoPrime) :: rest => if n < pseudoPrime.toNat then [p] else p :: bases n rest

/-- The strong tests accept what is strong for these bases, where there is a pseudoprime
above. -/
theorem deterministicRounds_spec (limit : Int) {x : BigUInt} (hx : 0 < x.toNat)
    {table : List (Word × BigUInt)} (hbase : ∀ entry ∈ table, 1 < entry.1.toNat)
    (hlast : ∃ entry ∈ table, x.toNat < entry.2.toNat) :
    ∃ answer, deterministicRounds limit x table = some answer ∧
      (answer = true ↔ ∀ p ∈ bases x.toNat table,
        IsStrong x.toNat p.toNat x.strongExponents.1 x.strongExponents.2) := by
  induction table with
  | nil =>
      obtain ⟨_, hmem, _⟩ := hlast
      cases hmem
  | cons entry rest ih =>
      obtain ⟨p, pseudoPrime⟩ := entry
      have hone : 1 < (ofWord p).toNat := by
        rw [toNat_ofWord]
        exact hbase _ List.mem_cons_self
      obtain ⟨passed, hpassed, hstrong⟩ := isStrongProbablePrime_spec limit hx hone
      rw [toNat_ofWord] at hstrong
      rw [deterministicRounds, hpassed, Option.bind_eq_bind, Option.bind_some, bases]
      cases passed with
      | false =>
          have hnot := (Bool.eq_false_iff.mp rfl : false ≠ true)
          refine ⟨false, by rw [if_pos (by rfl)], ⟨fun h => absurd h hnot, fun hall => ?_⟩⟩
          exact hstrong.mpr (hall p (by split <;> exact List.mem_cons_self))
      | true =>
          have hp := hstrong.mp rfl
          rw [if_neg (by decide)]
          by_cases hbelow : x.toNat < pseudoPrime.toNat
          · rw [if_pos ((lt_iff _ _).mpr hbelow), if_pos hbelow]
            refine ⟨true, rfl, fun _ q hq => ?_, fun _ => rfl⟩
            rw [List.mem_singleton.mp hq]
            exact hp
          · rw [if_neg (fun h => hbelow ((lt_iff _ _).mp h)), if_neg hbelow]
            obtain ⟨answer, hanswer, hiff⟩ := ih
              (fun entry h => hbase entry (List.mem_cons_of_mem _ h)) (by
                obtain ⟨entry, hmem, hless⟩ := hlast
                rcases List.mem_cons.mp hmem with heq | hmem
                · rw [heq] at hless
                  exact absurd hless hbelow
                · exact ⟨entry, hmem, hless⟩)
            refine ⟨answer, hanswer, ?_⟩
            rw [hiff, List.forall_mem_cons]
            exact ⟨fun h => ⟨hp, h⟩, fun h => h.2⟩

/-- What the accepted numbers below the last pseudoprime are: the primes of the table, and
what none of them divides that is strong for the bases it is tested with. -/
def Verdict (x : BigUInt) : Prop :=
  (∃ p ∈ primes, x.toNat = p.toNat) ∨
    (2 ≤ x.toNat ∧ (∀ p ∈ primes, ¬ p.toNat ∣ x.toNat) ∧
      ∀ p ∈ bases x.toNat (primes.zip pseudoPrimes),
        IsStrong x.toNat p.toNat x.strongExponents.1 x.strongExponents.2)

theorem isPrime_spec (limit : Int) {x : BigUInt}
    (hx : x.toNat < (pseudoPrimes.getLastD zero).toNat) (tape : Nat → Word)
    (attempts : Nat) (rounds : Int) :
    ∃ answer, x.isPrime limit tape attempts rounds = some answer ∧
      (answer = true ↔ Verdict x) := by
  rw [isPrime_eq, Verdict]
  by_cases hmem : ∃ p ∈ primes, x.toNat = p.toNat
  · rw [if_pos hmem]
    exact ⟨true, rfl, fun _ => .inl hmem, fun _ => rfl⟩
  rw [if_neg hmem]
  by_cases hnone : x.toNat < 2 ∨ ∃ p ∈ primes, p.toNat ∣ x.toNat
  · rw [if_pos hnone]
    refine ⟨false, rfl, fun h => Bool.noConfusion h, ?_⟩
    rintro (h | ⟨htwo, hdvd, -⟩)
    · exact absurd h hmem
    · rcases hnone with h | ⟨p, hp, h⟩
      · omega
      · exact absurd h (hdvd p hp)
  · have htwo : 2 ≤ x.toNat := Nat.not_lt.mp fun h => hnone (.inl h)
    rw [if_neg hnone, if_pos ((lt_iff _ _).mpr hx)]
    obtain ⟨answer, hanswer, hiff⟩ := deterministicRounds_spec limit (x := x) (by omega)
      (fun entry h => one_lt_of_mem_primes _ (List.of_mem_zip h).1) ⟨_, last_mem_table, hx⟩
    refine ⟨answer, hanswer, ?_⟩
    rw [hiff]
    exact ⟨fun h => .inr ⟨htwo, fun p hp hdvd => hnone (.inr ⟨p, hp, hdvd⟩), h⟩,
      fun h => (h.resolve_left hmem).2.2⟩

/-- Below the last pseudoprime the answer comes without a draw: it is the verdict, primes
are accepted, and below the square of the first prime that is not in the table nothing
else is. -/
theorem isPrime_below_table (limit : Int) {x : BigUInt}
    (hx : x.toNat < (pseudoPrimes.getLastD zero).toNat) (tape : Nat → Word)
    (attempts : Nat) (rounds : Int) :
    ∃ answer, x.isPrime limit tape attempts rounds = some answer ∧
      (answer = true ↔ Verdict x) ∧ (x.toNat.Prime → answer = true) ∧
        (x.toNat < 43 * 43 → answer = true → x.toNat.Prime) := by
  obtain ⟨answer, hanswer, hiff⟩ := isPrime_spec limit hx tape attempts rounds
  refine ⟨answer, hanswer, hiff, fun hprime => ?_, fun hsmall htrue => ?_⟩
  · have haccepted := isPrime_prime limit hprime tape attempts rounds
    rw [hanswer, if_pos hx] at haccepted
    exact Option.some.inj haccepted
  · rcases hiff.mp htrue with ⟨p, hp, heq⟩ | ⟨htwo, hdvd, -⟩
    · rw [heq]
      exact prime_of_mem_primes p hp
    · -- its least factor would be a prime below 43
      by_contra hprime
      have hfactor := Nat.minFac_prime (n := x.toNat) (by omega)
      have hsq := Nat.minFac_sq_le_self (by omega) hprime
      have hlt : x.toNat.minFac < 43 := by
        by_contra hge
        have := Nat.mul_le_mul (Nat.not_lt.mp hge) (Nat.not_lt.mp hge)
        rw [pow_two] at hsq
        omega
      obtain ⟨q, hq, heq⟩ := mem_primes_of_prime hfactor hlt
      exact absurd (Nat.minFac_dvd x.toNat) (heq ▸ hdvd q hq)

/-- The square of the first prime that is not in the table. -/
theorem isPrime_below_table_square :
    ∃ answer, (ofNat (43 * 43)).isPrime 1024 (fun _ => 0) 0 10 = some answer ∧
      (answer = true ↔ Verdict (ofNat (43 * 43))) ∧
        ((ofNat (43 * 43)).toNat.Prime → answer = true) ∧
          ((ofNat (43 * 43)).toNat < 43 * 43 → answer = true → (ofNat (43 * 43)).toNat.Prime) :=
  isPrime_below_table 1024 (by rw [toNat_ofNat]; exact last_pseudoPrime_lt) _ _ _

end BigUInt

end YieldMe

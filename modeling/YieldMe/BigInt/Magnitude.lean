/-
  BigInt/Magnitude.lean --- what the unsigned operations of the package compute.

  An unsigned big integer stands for the number whose digits in base `2 ^ 64` are
  its words.  Multiplication, addition and division by one word are exact on
  these numbers.
-/
import YieldMe.BigInt.Word

set_option autoImplicit false

namespace YieldMe

open Division Positional

namespace BigUInt

/-! ## Words and numbers -/

/-- The number a list of words stands for, the least significant word first. -/
def wordsToNat (words : List Word) : Nat := Nat.ofDigits (2 ^ 64) (words.map UInt64.toNat)

/-- The number a big integer stands for. -/
def toNat (x : BigUInt) : Nat := wordsToNat x.words

@[simp] theorem wordsToNat_nil : wordsToNat [] = 0 := rfl

theorem wordsToNat_cons (w : Word) (words : List Word) :
    wordsToNat (w :: words) = wordsToNat words * 2 ^ 64 + w.toNat := by
  rw [wordsToNat, List.map_cons, Nat.ofDigits_cons, Nat.add_comm, Nat.mul_comm]
  rfl

theorem wordsToNat_append (low high : List Word) :
    wordsToNat (low ++ high) = wordsToNat low + (2 ^ 64) ^ low.length * wordsToNat high := by
  rw [wordsToNat, List.map_append, Nat.ofDigits_append, List.length_map]
  rfl

theorem normalize_concat (words : List Word) (w : Word) :
    normalize (words ++ [w]) = if w = 0 then normalize words else words ++ [w] := by
  rw [normalize, List.rdropWhile_concat]
  by_cases hw : w = 0
  · rw [if_pos hw, if_pos (by simpa using hw)]
    rfl
  · rw [if_neg hw, if_neg (by simpa using hw)]

/-- Dropping zero words at the top leaves the number alone. -/
theorem wordsToNat_normalize (words : List Word) :
    wordsToNat (normalize words) = wordsToNat words := by
  induction words using List.reverseRecOn with
  | nil => rfl
  | append_singleton words w ih =>
      rw [normalize_concat]
      split
      · rename_i hw
        rw [ih, wordsToNat_append, hw, wordsToNat_cons]
        simp
      · rfl

@[simp] theorem toNat_ofWords (words : List Word) :
    (ofWords words).toNat = wordsToNat words :=
  wordsToNat_normalize words

@[simp] theorem toNat_zero : zero.toNat = 0 := rfl

theorem words_digit_lt (words : List Word) : ∀ d ∈ words.map UInt64.toNat, d < 2 ^ 64 := by
  intro d hd
  obtain ⟨w, -, rfl⟩ := List.mem_map.mp hd
  exact w.toNat_lt

theorem wordsToNat_lt_pow (words : List Word) : wordsToNat words < (2 ^ 64) ^ words.length := by
  have hlt := Nat.ofDigits_lt_base_pow_length (by decide) (words_digit_lt words)
  rwa [List.length_map] at hlt

theorem toNat_lt (x : BigUInt) : x.toNat < (2 ^ 64) ^ x.words.length :=
  wordsToNat_lt_pow x.words

/-- The words are the digits in base `2 ^ 64`. -/
theorem digits_toNat (x : BigUInt) : Nat.digits (2 ^ 64) x.toNat = x.words.map UInt64.toNat := by
  refine Nat.digits_ofDigits (2 ^ 64) (by decide) _ (words_digit_lt x.words) ?_
  intro hne hlast
  have hne' : x.words ≠ [] := by
    intro hnil
    simp [hnil] at hne
  rw [List.getLast_map, ← UInt64.toNat_zero, UInt64.toNat_inj] at hlast
  exact x.normalized (by rw [List.getLast?_eq_some_getLast hne', hlast])

theorem toNat_eq_zero_iff (x : BigUInt) : x.toNat = 0 ↔ x.words = [] := by
  rw [← Nat.digits_eq_nil_iff_eq_zero (b := 2 ^ 64), digits_toNat, List.map_eq_nil_iff]

theorem isZero_iff (x : BigUInt) : x.isZero = true ↔ x.toNat = 0 := by
  rw [toNat_eq_zero_iff, isZero, List.isEmpty_iff]

/-! ## Arithmetic -/

theorem wordsToNat_multiplyWords (y : Word) (words : List Word) :
    ∀ carry, wordsToNat (multiplyWords y carry words) =
      wordsToNat words * y.toNat + carry.toNat := by
  induction words with
  | nil => intro carry; simp [multiplyWords, wordsToNat_cons]
  | cons x rest ih =>
      intro carry
      have hround := Word.multiply_round x y carry
      simp only at hround
      rw [multiplyWords]
      simp only
      rw [wordsToNat_cons, ih, wordsToNat_cons]
      linarith

/-- Multiplication by one word is exact. -/
theorem toNat_multiply (x : BigUInt) (y : Word) : (x.multiply y).toNat = x.toNat * y.toNat := by
  unfold multiply
  by_cases hzero : y = 0
  · rw [if_pos hzero, hzero]
    rfl
  · rw [if_neg hzero]
    by_cases hone : y = 1
    · rw [if_pos hone, hone, UInt64.toNat_one, Nat.mul_one]
    · rw [if_neg hone, toNat_ofWords, wordsToNat_multiplyWords]
      rfl

theorem wordsToNat_addWords (words : List Word) :
    ∀ carry, wordsToNat (addWords carry words) = wordsToNat words + carry.toNat := by
  induction words with
  | nil =>
      intro carry
      unfold addWords
      split
      · rename_i hzero
        rw [hzero]
        rfl
      · simp [wordsToNat_cons]
  | cons x rest ih =>
      intro carry
      unfold addWords
      split
      · rename_i hzero
        rw [hzero]
        rfl
      · have hround := Word.add_round x carry
        simp only at hround ⊢
        rw [wordsToNat_cons, ih, wordsToNat_cons]
        linarith

/-- Addition of one word is exact. -/
theorem toNat_addWord (x : BigUInt) (word : Word) :
    (x.addWord word).toNat = x.toNat + word.toNat := by
  rw [addWord, toNat_ofWords, wordsToNat_addWords]
  rfl

theorem divideWords_spec {y : Word} (hy : 0 < y.toNat) (words : List Word) :
    wordsToNat (divideWords y words).1 = wordsToNat words / y.toNat ∧
      (divideWords y words).2.toNat = wordsToNat words % y.toNat := by
  induction words with
  | nil => simp [divideWords]
  | cons u higher ih =>
      obtain ⟨hquotient, hremainder⟩ := ih
      have hlt : (divideWords y higher).2.toNat < y.toNat := by
        rw [hremainder]
        exact Nat.mod_lt _ hy
      obtain ⟨hq, hr⟩ := Word.fastDividingFullWidth_spec u hlt
      simp only [divideWords]
      rw [wordsToNat_cons, wordsToNat_cons, append_digit_div _ _ _ hy, append_digit_mod,
        hquotient, hq, hr, hremainder]
      exact ⟨rfl, rfl⟩

/-- Division by one word is exact. -/
theorem toNat_divide (x : BigUInt) {y : Word} (hy : 0 < y.toNat) :
    (x.divide y).1.toNat = x.toNat / y.toNat ∧
      (x.divide y).2.toNat = x.toNat % y.toNat := by
  unfold divide
  by_cases hone : y = 1
  · rw [if_pos hone, hone, UInt64.toNat_one, Nat.div_one, Nat.mod_one]
    exact ⟨rfl, rfl⟩
  · rw [if_neg hone]
    obtain ⟨hquotient, hremainder⟩ := divideWords_spec hy x.words
    exact ⟨by rw [toNat_ofWords, hquotient]; rfl, hremainder⟩

end BigUInt

end YieldMe

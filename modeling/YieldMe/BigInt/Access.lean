/-
  BigInt/Access.lean --- reading and writing the words of a big integer.

  The algorithms of the package work on single words: the subscript reads zero
  above the top word, and writing there extends the number.  Every access is
  described by what it does to the number, so that an invariant of a loop over
  words is an equation between numbers.  `weight i` is the weight of the word at
  index `i`.
-/
import YieldMe.BigInt.Magnitude
import Mathlib.Data.List.GetD

set_option autoImplicit false

namespace YieldMe

namespace BigUInt

/-! ## Operations -/

/-- `count`. -/
def count (x : BigUInt) : Nat := x.words.length

/-- `subscript(_:)`, reading: zero beyond the top word. -/
def get (x : BigUInt) (index : Nat) : Word := x.words.getD index 0

/-- The words after one of them is written, with zero words in between where the
index is beyond the top word. -/
def setWords (words : List Word) (index : Nat) (word : Word) : List Word :=
  if index < words.length then words.set index word
  else words ++ List.replicate (index - words.length) 0 ++ [word]

/-- `subscript(_:)`, writing. -/
def set (x : BigUInt) (index : Nat) (word : Word) : BigUInt :=
  ofWords (setWords x.words index word)

/-- `init(_:)` of one word. -/
def ofWord (word : Word) : BigUInt := ofWords [word]

/-- `extract(_:)` of the words from one index up to another. -/
def extract (x : BigUInt) (lower upper : Nat) : BigUInt :=
  ofWords ((x.words.take upper).drop lower)

/-- `shiftRight(byWords:)`. -/
def shiftRightWords (x : BigUInt) (amount : Nat) : BigUInt := ofWords (x.words.drop amount)

/-- `shiftLeft(byWords:)`. -/
def shiftLeftWords (x : BigUInt) (amount : Nat) : BigUInt :=
  ofWords (List.replicate amount 0 ++ x.words)

/-! ## Numbers and words -/

/-- The weight of a word at an index. -/
def weight (index : Nat) : Nat := (2 ^ 64) ^ index

@[simp] theorem weight_zero : weight 0 = 1 := rfl

theorem weight_succ (index : Nat) : weight (index + 1) = 2 ^ 64 * weight index := by
  rw [weight, weight, pow_succ, Nat.mul_comm]

theorem weight_add (i j : Nat) : weight (i + j) = weight i * weight j := pow_add _ i j

theorem weight_pos (index : Nat) : 0 < weight index := Nat.pow_pos (by decide)

theorem weight_le {i j : Nat} (h : i ≤ j) : weight i ≤ weight j :=
  Nat.pow_le_pow_right (by decide) h

theorem lt_of_weight_lt {i j : Nat} (h : weight i < weight j) : i < j :=
  (Nat.pow_lt_pow_iff_right (by decide)).mp h

theorem weight_eq (index : Nat) : weight index = 2 ^ (64 * index) := by
  rw [weight, ← pow_mul]

theorem wordsToNat_lt (words : List Word) : wordsToNat words < weight words.length :=
  wordsToNat_lt_pow words

theorem toNat_lt_weight (x : BigUInt) : x.toNat < weight x.count := x.toNat_lt

/-- The top word of a number is not zero. -/
theorem weight_le_toNat {x : BigUInt} (h : 0 < x.count) : weight (x.count - 1) ≤ x.toNat := by
  have hne : Nat.digits (2 ^ 64) x.toNat ≠ [] := by
    rw [digits_toNat]
    intro hnil
    rw [List.map_eq_nil_iff] at hnil
    rw [count, hnil] at h
    cases h
  have hpos : x.toNat ≠ 0 := fun hzero => hne (Nat.digits_eq_nil_iff_eq_zero.mpr hzero)
  have hlen : (Nat.digits (2 ^ 64) x.toNat).length = x.count := by
    rw [digits_toNat, List.length_map, count]
  rw [Nat.length_digits _ _ (by decide) hpos] at hlen
  rw [← hlen, Nat.add_sub_cancel, weight]
  exact Nat.pow_log_le_self _ hpos

theorem count_eq_zero_iff (x : BigUInt) : x.count = 0 ↔ x.toNat = 0 := by
  rw [toNat_eq_zero_iff, count, List.length_eq_zero_iff]

theorem toNat_pos {x : BigUInt} (h : 0 < x.count) : 0 < x.toNat :=
  Nat.lt_of_lt_of_le (weight_pos _) (weight_le_toNat h)

/-- A number below a weight has its words below that index. -/
theorem count_le_of_lt {x : BigUInt} {index : Nat} (h : x.toNat < weight index) :
    x.count ≤ index := by
  by_contra hlt
  have hle := weight_le_toNat (show 0 < x.count by omega)
  have hmono := weight_le (show index ≤ x.count - 1 by omega)
  omega

/-- A number is its words: equal numbers have equal words. -/
theorem eq_of_toNat_eq {x y : BigUInt} (h : x.toNat = y.toNat) : x = y := by
  have hdigits := congrArg (Nat.digits (2 ^ 64)) h
  rw [digits_toNat, digits_toNat] at hdigits
  have hwords : x.words = y.words :=
    List.map_injective_iff.mpr (fun a b hab => UInt64.toNat_inj.mp hab) hdigits
  cases x
  cases y
  simpa using hwords

theorem toNat_inj {x y : BigUInt} : x.toNat = y.toNat ↔ x = y :=
  ⟨eq_of_toNat_eq, congrArg toNat⟩

/-- The big integer of a number. -/
def ofNat (n : Nat) : BigUInt := ofWords ((Nat.digits (2 ^ 64) n).map UInt64.ofNat)

@[simp] theorem toNat_ofNat (n : Nat) : (ofNat n).toNat = n := by
  have hdigits : ((Nat.digits (2 ^ 64) n).map UInt64.ofNat).map UInt64.toNat =
      Nat.digits (2 ^ 64) n := by
    rw [List.map_map]
    refine (List.map_congr_left fun d hd => ?_).trans (List.map_id _)
    have hlt := Nat.digits_lt_base (by decide) hd
    exact UInt64.toNat_ofNat_of_lt hlt
  rw [ofNat, toNat_ofWords, wordsToNat, hdigits, Nat.ofDigits_digits]

/-- A big integer is the big integer of its number. -/
theorem eq_ofNat {x : BigUInt} {n : Nat} (h : x.toNat = n) : x = ofNat n :=
  eq_of_toNat_eq (by rw [toNat_ofNat, h])

@[simp] theorem ofNat_toNat (x : BigUInt) : ofNat x.toNat = x := (eq_ofNat rfl).symm

@[simp] theorem toNat_ofWord (word : Word) : (ofWord word).toNat = word.toNat := by
  simp [ofWord, wordsToNat_cons]

/-! ## Reading -/

/-- The words of a list are the digits of its number, also above the top word. -/
theorem toNat_getD (words : List Word) :
    ∀ index, (words.getD index 0).toNat = wordsToNat words / weight index % 2 ^ 64 := by
  induction words with
  | nil =>
      intro index
      rw [List.getD_nil, wordsToNat_nil, Nat.zero_div, Nat.zero_mod, UInt64.toNat_zero]
  | cons w rest ih =>
      intro index
      have hw := w.toNat_lt
      cases index with
      | zero =>
          rw [List.getD_cons_zero, wordsToNat_cons, weight_zero, Nat.div_one]
          omega
      | succ index =>
          have hrest : (wordsToNat rest * 2 ^ 64 + w.toNat) / 2 ^ 64 = wordsToNat rest := by
            omega
          rw [List.getD_cons_succ, ih, wordsToNat_cons, weight_succ, ← Nat.div_div_eq_div_mul,
            hrest]

theorem toNat_get (x : BigUInt) (index : Nat) :
    (x.get index).toNat = x.toNat / weight index % 2 ^ 64 :=
  toNat_getD x.words index

/-- Normalizing drops words that read as zero anyway. -/
theorem get_ofWords (words : List Word) (index : Nat) :
    (ofWords words).get index = words.getD index 0 := by
  rw [← UInt64.toNat_inj, toNat_get, toNat_ofWords, toNat_getD]

theorem get_of_le {x : BigUInt} {index : Nat} (h : x.count ≤ index) : x.get index = 0 := by
  rw [get, List.getD_eq_getElem?_getD, List.getElem?_eq_none h, Option.getD_none]

/-- A number from an index on, one word down. -/
theorem div_weight_eq (n index : Nat) :
    n / weight index = n / weight (index + 1) * 2 ^ 64 + n / weight index % 2 ^ 64 := by
  rw [weight_succ, Nat.mul_comm (2 ^ 64), ← Nat.div_div_eq_div_mul]
  exact (Nat.div_add_mod' _ _).symm

/-- The number from an index on is its word there and the number above. -/
theorem div_weight (x : BigUInt) (index : Nat) :
    x.toNat / weight index =
      x.toNat / weight (index + 1) * 2 ^ 64 + (x.get index).toNat := by
  rw [toNat_get]
  exact div_weight_eq x.toNat index

/-- The top word is the number without the words below. -/
theorem toNat_get_top {x : BigUInt} (h : 0 < x.count) :
    (x.get (x.count - 1)).toNat = x.toNat / weight (x.count - 1) := by
  have hdiv := div_weight x (x.count - 1)
  rw [Nat.sub_add_cancel h, Nat.div_eq_of_lt x.toNat_lt_weight, Nat.zero_mul,
    Nat.zero_add] at hdiv
  exact hdiv.symm

theorem get_top_pos {x : BigUInt} (h : 0 < x.count) : 0 < (x.get (x.count - 1)).toNat := by
  rw [toNat_get_top h]
  exact Nat.div_pos (weight_le_toNat h) (weight_pos _)

/-- A number of one word is that word. -/
theorem toNat_get_zero {x : BigUInt} (h : x.count = 1) : (x.get 0).toNat = x.toNat := by
  have htop := toNat_get_top (show 0 < x.count by omega)
  rwa [h, Nat.sub_self, weight_zero, Nat.div_one] at htop

/-! ## Writing -/

theorem wordsToNat_replicate_zero (n : Nat) : wordsToNat (List.replicate n 0) = 0 := by
  induction n with
  | zero => rfl
  | succ n ih => rw [List.replicate_succ, wordsToNat_cons, ih]; rfl

theorem wordsToNat_set (words : List Word) (word : Word) :
    ∀ index, index < words.length →
      wordsToNat (words.set index word) + (words.getD index 0).toNat * weight index =
        wordsToNat words + word.toNat * weight index := by
  induction words with
  | nil => intro index h; cases h
  | cons w rest ih =>
      intro index h
      cases index with
      | zero =>
          rw [List.set_cons_zero, wordsToNat_cons, wordsToNat_cons, List.getD_cons_zero,
            weight_zero]
          omega
      | succ index =>
          have hrest := ih index (by simpa using h)
          rw [List.set_cons_succ, wordsToNat_cons, wordsToNat_cons, List.getD_cons_succ,
            weight_succ]
          linarith

/-- Writing a word replaces its share of the number. -/
theorem toNat_set (x : BigUInt) (index : Nat) (word : Word) :
    (x.set index word).toNat + (x.get index).toNat * weight index =
      x.toNat + word.toNat * weight index := by
  rw [set, toNat_ofWords, setWords]
  by_cases h : index < x.words.length
  · rw [if_pos h]
    exact wordsToNat_set x.words word index h
  · have hle := Nat.le_of_not_lt h
    have hweight : weight index = weight x.words.length * weight (index - x.words.length) := by
      rw [← weight_add, Nat.add_sub_of_le hle]
    rw [if_neg h, get_of_le hle, List.append_assoc, wordsToNat_append, wordsToNat_append,
      wordsToNat_replicate_zero, List.length_replicate, wordsToNat_cons, wordsToNat_nil,
      UInt64.toNat_zero, hweight]
    simp only [weight, toNat]
    ring

theorem getD_setWords (words : List Word) (index index' : Nat) (word : Word) :
    (setWords words index word).getD index' 0 =
      if index = index' then word else words.getD index' 0 := by
  rw [setWords]
  by_cases hlt : index < words.length
  · rw [if_pos hlt, List.getD_eq_getElem?_getD, List.getElem?_set]
    split
    · rw [Option.getD_some]
    · rw [List.getD_eq_getElem?_getD]
  · rw [if_neg hlt]
    have hlen : (words ++ List.replicate (index - words.length) 0).length = index := by
      rw [List.length_append, List.length_replicate]
      omega
    rcases Nat.lt_trichotomy index' index with hbelow | rfl | habove
    · rw [List.getD_append _ _ _ _ (by omega), if_neg (by omega)]
      by_cases hword : index' < words.length
      · rw [List.getD_append _ _ _ _ hword]
      · rw [List.getD_append_right _ _ _ _ (by omega), List.getD_eq_default words _ (by omega)]
        exact List.getD_replicate _ (by omega)
    · rw [List.getD_append_right _ _ _ _ (by omega), hlen, Nat.sub_self, if_pos rfl]
      rfl
    · rw [List.getD_append_right _ _ _ _ (by omega), if_neg (by omega),
        List.getD_eq_default words _ (by omega), List.getD_eq_default]
      rw [List.length_singleton]
      omega

/-- Writing changes no other word. -/
theorem get_set (x : BigUInt) (index index' : Nat) (word : Word) :
    (x.set index word).get index' = if index = index' then word else x.get index' := by
  rw [set, get_ofWords, getD_setWords, get]

theorem mod_weight_succ (n i : Nat) :
    n % weight (i + 1) = n / weight i % 2 ^ 64 * weight i + n % weight i := by
  rw [weight_succ, Nat.mul_comm (2 ^ 64), Nat.mod_mul, Nat.mul_comm, Nat.add_comm]

/-- The number below an index, one word up. -/
theorem toNat_mod_weight_succ (x : BigUInt) (i : Nat) :
    x.toNat % weight (i + 1) = (x.get i).toNat * weight i + x.toNat % weight i := by
  rw [toNat_get]
  exact mod_weight_succ x.toNat i

/-- A number after a write: the words above, the word, and the words below. -/
theorem toNat_set_eq (x : BigUInt) (index : Nat) (word : Word) :
    (x.set index word).toNat =
      x.toNat / weight (index + 1) * weight (index + 1) +
        (word.toNat * weight index + x.toNat % weight index) := by
  have hset := toNat_set x index word
  have hx := Nat.div_add_mod' x.toNat (weight (index + 1))
  rw [toNat_mod_weight_succ] at hx
  omega

/-- The word and the words below it are less than the weight above. -/
theorem word_add_lt (word : Word) {n index : Nat} (h : n < weight index) :
    word.toNat * weight index + n < weight (index + 1) := by
  have hword := Nat.mul_le_mul_right (weight index) (Nat.succ_le_of_lt word.toNat_lt)
  rw [Nat.succ_mul] at hword
  rw [weight_succ]
  omega

/-- Writing changes nothing above. -/
theorem set_div (x : BigUInt) (index : Nat) (word : Word) :
    (x.set index word).toNat / weight (index + 1) = x.toNat / weight (index + 1) := by
  have hlt := word_add_lt word (Nat.mod_lt x.toNat (weight_pos index))
  rw [toNat_set_eq, Nat.add_comm, Nat.add_mul_div_right _ _ (weight_pos _),
    Nat.div_eq_of_lt hlt, Nat.zero_add]

/-! ## Parts -/

theorem toNat_shiftRightWords (x : BigUInt) (amount : Nat) :
    (x.shiftRightWords amount).toNat = x.toNat / weight amount := by
  rw [shiftRightWords, toNat_ofWords, toNat, wordsToNat, wordsToNat, List.map_drop]
  refine (Nat.ofDigits_div_pow_eq_ofDigits_drop amount (by decide) _ ?_).symm
  intro d hd
  obtain ⟨w, -, rfl⟩ := List.mem_map.mp hd
  exact w.toNat_lt

theorem toNat_shiftLeftWords (x : BigUInt) (amount : Nat) :
    (x.shiftLeftWords amount).toNat = x.toNat * weight amount := by
  rw [shiftLeftWords, toNat_ofWords, wordsToNat_append, wordsToNat_replicate_zero,
    List.length_replicate, Nat.zero_add, Nat.mul_comm]
  rfl

theorem toNat_take (x : BigUInt) (upper : Nat) :
    wordsToNat (x.words.take upper) = x.toNat % weight upper := by
  rw [toNat, wordsToNat, wordsToNat, List.map_take]
  refine (Nat.ofDigits_mod_pow_eq_ofDigits_take upper (by decide) _ ?_).symm
  intro d hd
  obtain ⟨w, -, rfl⟩ := List.mem_map.mp hd
  exact w.toNat_lt

theorem toNat_extract (x : BigUInt) (lower upper : Nat) :
    (x.extract lower upper).toNat = x.toNat % weight upper / weight lower := by
  rw [extract, toNat_ofWords, ← toNat_take, wordsToNat, wordsToNat, List.map_drop]
  refine (Nat.ofDigits_div_pow_eq_ofDigits_drop lower (by decide) _ ?_).symm
  intro d hd
  obtain ⟨w, -, rfl⟩ := List.mem_map.mp hd
  exact w.toNat_lt

end BigUInt

end YieldMe

/-
  BigInt/WordsAndBits.lean --- two's complement words, and bitwise operations.

  A signed big integer shows itself as words of the two's complement without end, and
  is built from such words.  The bitwise operations work on as many words as the larger
  magnitude has, and put the sign back after a two's complement of the words.  That
  complement has no room for a carry: where all words are zero and the sign is minus,
  the result should be minus a power of two one word up, and it is zero.
-/
import YieldMe.Foundation.TwosComplement
import YieldMe.BigInt.Signed

set_option autoImplicit false

namespace YieldMe

open TwosComplement

namespace BigUInt

/-! ## Bits of the words -/

theorem testBit_word {w : Word} {n index t : Nat} (ht : t < 64)
    (h : w.toNat = n / weight index % 2 ^ 64) :
    w.toNat.testBit t = n.testBit (64 * index + t) := by
  rw [h, weight_eq, Nat.testBit_mod_two_pow, decide_eq_true ht, Bool.true_and,
    Nat.testBit_div_two_pow, Nat.add_comm]

/-- The bits of a number are those of its words. -/
theorem testBit_get (x : BigUInt) (index : Nat) {t : Nat} (ht : t < 64) :
    (x.get index).toNat.testBit t = x.toNat.testBit (64 * index + t) :=
  testBit_word ht (toNat_get x index)

/-- A number whose words have some bits has these bits. -/
theorem toNat_eq_of_testBit {x : BigUInt} {n : Nat}
    (h : ∀ index t, t < 64 → (x.get index).toNat.testBit t = n.testBit (64 * index + t)) :
    x.toNat = n := by
  refine Nat.eq_of_testBit_eq fun i => ?_
  have ht : i % 64 < 64 := Nat.mod_lt i (by decide)
  have hi := Nat.div_add_mod i 64
  have hbit := h (i / 64) (i % 64) ht
  rwa [testBit_get x _ ht, hi] at hbit

/-- `subscript(bitAt:)`, the getter. -/
def bitAt (x : BigUInt) (index : Nat) : Bool :=
  decide (x.get (index / 64) &&& (1 : Word) <<< UInt64.ofNat (index % 64) ≠ 0)

/-- `subscript(bitAt:)`, the setter. -/
def setBitAt (x : BigUInt) (index : Nat) (newValue : Bool) : BigUInt :=
  let i := index / 64
  let bit := (1 : Word) <<< UInt64.ofNat (index % 64)
  x.set i (if newValue then x.get i ||| bit else x.get i &&& ~~~bit)

theorem toNat_complement (w : Word) : (~~~w).toNat = 2 ^ 64 - (w.toNat + 1) := by
  have hsize : UInt64.size = 2 ^ 64 := rfl
  rw [UInt64.toNat_not, hsize, Nat.sub_sub, Nat.add_comm 1]

theorem word_ne_zero {w : Word} (h : w ≠ 0) : w.toNat ≠ 0 := fun hzero =>
  h (UInt64.toNat_inj.mp (hzero.trans UInt64.toNat_zero.symm))

/-- The bits of a word's complement. -/
theorem testBit_complement (w : Word) {t : Nat} (ht : t < 64) :
    (~~~w).toNat.testBit t = !w.toNat.testBit t := by
  rw [toNat_complement, Nat.testBit_two_pow_sub_succ w.toNat_lt, decide_eq_true ht,
    Bool.true_and]

theorem testBit_bit {j t : Nat} (hj : j < 64) (ht : t < 64) :
    ((1 : Word) <<< UInt64.ofNat j).toNat.testBit t = decide (j = t) := by
  rw [Word.toNat_shiftLeft _ hj, UInt64.toNat_one, Nat.one_mul, Nat.testBit_mod_two_pow,
    decide_eq_true ht, Bool.true_and, Nat.testBit_two_pow]

theorem bitAt_eq (x : BigUInt) (index : Nat) : x.bitAt index = x.toNat.testBit index := by
  have hj : index % 64 < 64 := Nat.mod_lt index (by decide)
  have hbit : x.toNat.testBit index = (x.get (index / 64)).toNat.testBit (index % 64) := by
    rw [testBit_get x _ hj, Nat.div_add_mod]
  rw [bitAt, hbit]
  generalize x.get (index / 64) = w
  generalize index % 64 = j at hj
  -- the mask has one bit, and so the result is zero or it
  by_cases hset : w.toNat.testBit j = true
  · rw [hset, decide_eq_true_iff]
    intro hzero
    have hand := congrArg UInt64.toNat hzero
    rw [UInt64.toNat_and, UInt64.toNat_zero] at hand
    have hone : (w.toNat &&& ((1 : Word) <<< UInt64.ofNat j).toNat).testBit j = true := by
      rw [Nat.testBit_and, hset, testBit_bit hj hj, decide_eq_true rfl, Bool.and_self]
    rw [hand, Nat.zero_testBit] at hone
    cases hone
  · rw [Bool.not_eq_true] at hset
    rw [hset, decide_eq_false_iff_not, not_not, ← UInt64.toNat_inj, UInt64.toNat_and,
      UInt64.toNat_zero]
    refine Nat.eq_of_testBit_eq fun t => ?_
    rw [Nat.testBit_and, Nat.zero_testBit]
    by_cases ht : t < 64
    · rw [testBit_bit hj ht]
      by_cases heq : j = t
      · rw [← heq, hset, Bool.false_and]
      · rw [decide_eq_false heq, Bool.and_false]
    · have hlt : w.toNat < 2 ^ t :=
        Nat.lt_of_lt_of_le w.toNat_lt (Nat.pow_le_pow_right Nat.two_pos (Nat.not_lt.mp ht))
      rw [Nat.testBit_lt_two_pow hlt, Bool.false_and]

/-- Setting a bit sets this bit and no other. -/
theorem testBit_setBitAt (x : BigUInt) (index : Nat) (newValue : Bool) (i : Nat) :
    (x.setBitAt index newValue).toNat.testBit i =
      if i = index then newValue else x.toNat.testBit i := by
  have hj : index % 64 < 64 := Nat.mod_lt index (by decide)
  have ht : i % 64 < 64 := Nat.mod_lt i (by decide)
  have hbits : ∀ y : BigUInt, y.toNat.testBit i = (y.get (i / 64)).toNat.testBit (i % 64) := by
    intro y
    rw [testBit_get y _ ht, Nat.div_add_mod]
  have hiff : i = index ↔ index / 64 = i / 64 ∧ index % 64 = i % 64 := by omega
  rw [hbits, hbits, setBitAt, get_set]
  by_cases hword : index / 64 = i / 64
  · rw [if_pos hword, ← hword]
    by_cases hbit : index % 64 = i % 64
    · rw [if_pos (hiff.mpr ⟨hword, hbit⟩), hbit]
      cases newValue with
      | true =>
          rw [if_pos rfl, UInt64.toNat_or, Nat.testBit_or, testBit_bit ht ht, decide_eq_true rfl,
            Bool.or_true]
      | false =>
          rw [if_neg Bool.false_ne_true, UInt64.toNat_and, Nat.testBit_and,
            testBit_complement _ ht, testBit_bit ht ht, decide_eq_true rfl, Bool.not_true,
            Bool.and_false]
    · rw [if_neg (fun h => hbit (hiff.mp h).2)]
      cases newValue with
      | true =>
          rw [if_pos rfl, UInt64.toNat_or, Nat.testBit_or, testBit_bit hj ht,
            decide_eq_false hbit, Bool.or_false]
      | false =>
          rw [if_neg Bool.false_ne_true, UInt64.toNat_and, Nat.testBit_and,
            testBit_complement _ ht, testBit_bit hj ht, decide_eq_false hbit, Bool.not_false,
            Bool.and_true]
  · rw [if_neg hword, if_neg (fun h => hword (hiff.mp h).1)]

/-! ## Bitwise operations on magnitudes -/

/-- The loop of `|=`, `&=` and `^=` over the words below `count`. -/
def bitwiseLoop (op : Word → Word → Word) (a b : BigUInt) (count : Nat) : BigUInt :=
  (List.range count).foldl (fun a i => a.set i (op (a.get i) (b.get i))) a

/-- `|=`. -/
def or (a b : BigUInt) : BigUInt := bitwiseLoop (· ||| ·) a b b.count

/-- `&=`. -/
def and (a b : BigUInt) : BigUInt := bitwiseLoop (· &&& ·) a b (max a.count b.count)

/-- `^=`. -/
def xor (a b : BigUInt) : BigUInt := bitwiseLoop (· ^^^ ·) a b b.count

theorem get_bitwiseLoop (op : Word → Word → Word) (a b : BigUInt) (count index : Nat) :
    (bitwiseLoop op a b count).get index =
      if index < count then op (a.get index) (b.get index) else a.get index := by
  have hrun := Loop.foldl_range_rule (n := count) (s := a)
    (f := fun x i => x.set i (op (x.get i) (b.get i)))
    (fun i x => ∀ j, x.get j = if j < i then op (a.get j) (b.get j) else a.get j)
    (fun j => by rw [if_neg (Nat.not_lt_zero j)])
    (by
      intro i x _ hx j
      rw [get_set, hx i, if_neg (Nat.lt_irrefl i), hx j]
      by_cases hij : i = j
      · rw [if_pos hij, hij, if_pos (Nat.lt_succ_self j)]
      · rw [if_neg hij]
        by_cases hlt : j < i
        · rw [if_pos hlt, if_pos (Nat.lt_succ_of_lt hlt)]
        · rw [if_neg hlt, if_neg (by omega)])
  exact hrun index

theorem toNat_or (a b : BigUInt) : (a.or b).toNat = a.toNat ||| b.toNat := by
  refine toNat_eq_of_testBit fun index t ht => ?_
  have hword : (a.or b).get index = a.get index ||| b.get index := by
    rw [or, get_bitwiseLoop]
    split
    · rfl
    · rename_i hle
      rw [get_of_le (Nat.not_lt.mp hle), UInt64.or_zero]
  rw [hword, UInt64.toNat_or, Nat.testBit_or, Nat.testBit_or, testBit_get a _ ht,
    testBit_get b _ ht]

theorem toNat_and (a b : BigUInt) : (a.and b).toNat = a.toNat &&& b.toNat := by
  refine toNat_eq_of_testBit fun index t ht => ?_
  have hword : (a.and b).get index = a.get index &&& b.get index := by
    rw [and, get_bitwiseLoop]
    split
    · rfl
    · rename_i hle
      rw [get_of_le (x := a) (by omega), UInt64.zero_and]
  rw [hword, UInt64.toNat_and, Nat.testBit_and, Nat.testBit_and, testBit_get a _ ht,
    testBit_get b _ ht]

theorem toNat_xor (a b : BigUInt) : (a.xor b).toNat = a.toNat ^^^ b.toNat := by
  refine toNat_eq_of_testBit fun index t ht => ?_
  have hword : (a.xor b).get index = a.get index ^^^ b.get index := by
    rw [xor, get_bitwiseLoop]
    split
    · rfl
    · rename_i hle
      rw [get_of_le (Nat.not_lt.mp hle), UInt64.xor_zero]
  rw [hword, UInt64.toNat_xor, Nat.testBit_xor, Nat.testBit_xor, testBit_get a _ ht,
    testBit_get b _ ht]

/-- The prefix `~`. -/
def complement (a : BigUInt) : BigUInt := ofWords (a.words.map (~~~ ·))

theorem wordsToNat_complement (words : List Word) :
    wordsToNat (words.map (~~~ ·)) + wordsToNat words + 1 = weight words.length := by
  induction words with
  | nil => rfl
  | cons w words ih =>
      have hw := w.toNat_lt
      rw [List.map_cons, wordsToNat_cons, wordsToNat_cons, List.length_cons, weight_succ, ← ih,
        toNat_complement]
      omega

/-- The complement fills the words the number has. -/
theorem toNat_complement_add (a : BigUInt) : a.complement.toNat + a.toNat + 1 = weight a.count := by
  rw [complement, toNat_ofWords]
  exact wordsToNat_complement a.words

/-- The operations on magnitudes are those on the bits of their numbers, and the
complement fills the words its operand has. -/
structure BitsExact (x y : BigUInt) : Prop where
  or : (x.or y).toNat = x.toNat ||| y.toNat
  and : (x.and y).toNat = x.toNat &&& y.toNat
  xor : (x.xor y).toNat = x.toNat ^^^ y.toNat
  complement : x.complement.toNat + x.toNat + 1 = weight x.count
  bitAt : ∀ index, x.bitAt index = x.toNat.testBit index
  setBitAt : ∀ index newValue i,
    (x.setBitAt index newValue).bitAt i = if i = index then newValue else x.bitAt i

theorem bitsExact (x y : BigUInt) : BitsExact x y where
  or := toNat_or x y
  and := toNat_and x y
  xor := toNat_xor x y
  complement := toNat_complement_add x
  bitAt := bitAt_eq x
  setBitAt := by
    intro index newValue i
    rw [bitAt_eq, bitAt_eq]
    exact testBit_setBitAt x index newValue i

/-! ## Two's complement of words -/

/-- The loop of `twosComplement()`. -/
def twosComplementFrom (increment : Bool) : List Word → List Word
  | [] => []
  | w :: words =>
      if increment then
        let (w, increment) := (~~~w).addingReportingOverflow 1
        w :: twosComplementFrom increment words
      else ~~~w :: twosComplementFrom false words

/-- `twosComplement()`. -/
def twosComplement (words : List Word) : List Word := twosComplementFrom true words

theorem twosComplementFrom_false (words : List Word) :
    twosComplementFrom false words = words.map (~~~ ·) := by
  induction words with
  | nil => rfl
  | cons w words ih => rw [twosComplementFrom, if_neg Bool.false_ne_true, ih, List.map_cons]

/-- The increment goes on over zero words. -/
theorem increment_complement (w : Word) :
    (~~~w).addingReportingOverflow 1 =
      if w = 0 then (0, true) else (UInt64.ofNat (2 ^ 64 - w.toNat), false) := by
  have hw := w.toNat_lt
  rw [Word.addingReportingOverflow, toNat_complement, UInt64.toNat_one]
  split
  · rename_i hzero
    rw [hzero, Prod.mk.injEq, decide_eq_true_iff, UInt64.toNat_zero]
    exact ⟨rfl, Nat.le_refl _⟩
  · rename_i hzero
    have hpos := word_ne_zero hzero
    rw [Prod.mk.injEq, decide_eq_false_iff_not, ← UInt64.toNat_inj, UInt64.toNat_add,
      toNat_complement, UInt64.toNat_one, UInt64.toNat_ofNat']
    exact ⟨by omega, by omega⟩

/-- The two's complement of words is that of their number. -/
theorem wordsToNat_twosComplement (words : List Word) :
    wordsToNat (twosComplement words) =
      (weight words.length - wordsToNat words) % weight words.length := by
  unfold twosComplement
  induction words with
  | nil => rfl
  | cons w words ih =>
      rw [twosComplementFrom, if_pos rfl, increment_complement]
      by_cases hzero : w = 0
      · rw [if_pos hzero]
        simp only [wordsToNat_cons, List.length_cons, weight_succ, ih, hzero, UInt64.toNat_zero,
          Nat.add_zero]
        rw [Nat.mul_comm (wordsToNat words), ← Nat.mul_sub, Nat.mul_mod_mul_left, Nat.mul_comm]
      · have hw := w.toNat_lt
        have hpos := word_ne_zero hzero
        have hsum := wordsToNat_complement words
        rw [if_neg hzero]
        simp only [twosComplementFrom_false, wordsToNat_cons, List.length_cons, weight_succ]
        rw [UInt64.toNat_ofNat', Nat.mod_eq_of_lt (by omega), Nat.mod_eq_of_lt (by omega)]
        omega

/-! ## Words of the predecessor -/

/-- The words below the first that is not zero are zero, and only those. -/
theorem weight_dvd_iff {x : BigUInt} {limit : Nat}
    (h : x.words.findIdx? (· ≠ 0) = some limit) (index : Nat) :
    weight index ∣ x.toNat ↔ index ≤ limit := by
  obtain ⟨hlt, hne, hzero⟩ := List.findIdx?_eq_some_iff_getElem.mp h
  have hmod : ∀ i ≤ limit, x.toNat % weight i = 0 := by
    intro i
    induction i with
    | zero => intro _; rw [weight_zero, Nat.mod_one]
    | succ i ih =>
        intro hi
        have hget : x.get i = 0 := by
          have hword := hzero i hi
          rw [get, List.getD_eq_getElem _ _ (Nat.lt_trans hi hlt)]
          simpa using hword
        rw [toNat_mod_weight_succ, hget, UInt64.toNat_zero, Nat.zero_mul, ih (by omega)]
  refine ⟨fun hdvd => ?_, fun hle => Nat.dvd_of_mod_eq_zero (hmod index hle)⟩
  by_contra hgt
  have hdvd' : weight (limit + 1) ∣ x.toNat := by
    have hsplit : weight index = weight (limit + 1) * weight (index - (limit + 1)) := by
      rw [← weight_add, Nat.add_sub_of_le (by omega)]
    rw [hsplit] at hdvd
    exact (Nat.dvd_mul_right _ _).trans hdvd
  have htop := toNat_mod_weight_succ x limit
  rw [Nat.mod_eq_zero_of_dvd hdvd', hmod limit (Nat.le_refl limit), Nat.add_zero] at htop
  have hget : (x.get limit).toNat = 0 :=
    (Nat.mul_eq_zero.mp htop.symm).resolve_right (Nat.ne_of_gt (weight_pos limit))
  rw [get, List.getD_eq_getElem _ _ hlt] at hget
  exact word_ne_zero (by simpa using hne) hget

/-- A word of the predecessor. -/
theorem sub_one_div {n d : Nat} (hn : n ≠ 0) :
    (n - 1) / d = if d ∣ n then n / d - 1 else n / d := by
  obtain ⟨m, rfl⟩ := Nat.exists_eq_succ_of_ne_zero hn
  rw [Nat.succ_sub_one, Nat.succ_div]
  split
  · rw [Nat.add_sub_cancel]
  · rfl

/-- The words of a magnitude less one, as the subscript computes them. -/
theorem get_sub_one {x : BigUInt} {limit : Nat}
    (h : x.words.findIdx? (· ≠ 0) = some limit) (hx : x.toNat ≠ 0) (index : Nat) :
    (if index ≤ limit then x.get index - 1 else x.get index).toNat =
      (x.toNat - 1) / weight index % 2 ^ 64 := by
  rw [sub_one_div hx]
  by_cases hle : index ≤ limit
  · have hdvd := (weight_dvd_iff h index).mpr hle
    have hpos : 0 < x.toNat / weight index :=
      Nat.div_pos (Nat.le_of_dvd (Nat.pos_of_ne_zero hx) hdvd) (weight_pos index)
    rw [if_pos hle, if_pos hdvd, UInt64.toNat_sub, toNat_get, UInt64.toNat_one]
    generalize x.toNat / weight index = q at hpos
    omega
  · rw [if_neg hle, if_neg (fun hdvd => hle ((weight_dvd_iff h index).mp hdvd)), toNat_get]

end BigUInt

open BigUInt

namespace BigInt

/-! ## The words of a signed number -/

/-- `Words`. -/
structure Words where
  value : BigInt
  decrementLimit : Nat

/-- `words`: the search for a word that is not zero stops the process for a minus sign
on zero. -/
def words (a : BigInt) : Option Words :=
  match a.sign with
  | .plus => some ⟨a, 0⟩
  | .minus => (a.magnitude.words.findIdx? (· ≠ 0)).map fun limit => ⟨a, limit⟩

namespace Words

/-- `subscript(_:)`, also above `endIndex`. -/
def get (words : Words) (index : Nat) : Word :=
  if words.value.sign = .plus then words.value.magnitude.get index
  else if index ≤ words.decrementLimit then ~~~(words.value.magnitude.get index - 1)
  else ~~~(words.value.magnitude.get index)

/-- `count`: one word more where the top bit of the magnitude is set. -/
def count (words : Words) : Nat :=
  match words.value.magnitude.words.getLast? with
  | some high =>
      if high >>> 63 ≠ 0 then words.value.magnitude.count + 1 else words.value.magnitude.count
  | none => words.value.magnitude.count

/-- The words up to `endIndex`. -/
def toList (words : Words) : List Word := (List.range words.count).map words.get

end Words

theorem words_eq_none_iff (a : BigInt) : a.words = none ↔ ¬ a.IsCanonical := by
  obtain ⟨x, s⟩ := a
  cases s with
  | plus => simp [words, IsCanonical]
  | minus =>
      simp only [words, IsCanonical, Option.map_eq_none_iff, List.findIdx?_eq_none_iff,
        true_implies, Bool.not_eq_false, isZero_iff, toNat_eq_zero_iff]
      refine ⟨fun hall => ?_, fun hnil w hw => by rw [hnil] at hw; cases hw⟩
      by_contra hne
      have hpos : 0 < BigUInt.count x := List.length_pos_iff.mpr hne
      have htop := get_top_pos hpos
      have hmem : x.get (BigUInt.count x - 1) ∈ x.words := by
        have hlt : BigUInt.count x - 1 < x.words.length := by
          rw [BigUInt.count] at hpos ⊢
          omega
        rw [BigUInt.get, List.getD_eq_getElem _ _ hlt]
        exact List.getElem_mem _
      have hzero : x.get (BigUInt.count x - 1) = 0 := by simpa using hall _ hmem
      rw [hzero, UInt64.toNat_zero] at htop
      exact Nat.lt_irrefl 0 htop

/-- The words are those of the two's complement without end. -/
theorem testBit_words {a : BigInt} {words : Words} (h : a.words = some words) (index : Nat)
    {t : Nat} (ht : t < 64) :
    (words.get index).toNat.testBit t = a.toInt.testBit (64 * index + t) := by
  obtain ⟨x, s⟩ := a
  cases s with
  | plus =>
      rw [BigInt.words, Option.some.injEq] at h
      rw [← h, Words.get, if_pos rfl, testBit_word ht (toNat_get x index)]
      rfl
  | minus =>
      rw [BigInt.words, Option.map_eq_some_iff] at h
      obtain ⟨limit, hlimit, rfl⟩ := h
      have hne : x.toNat ≠ 0 := by
        intro hzero
        rw [(toNat_eq_zero_iff x).mp hzero] at hlimit
        cases hlimit
      have hneg : toInt ⟨x, .minus⟩ = Int.negSucc (x.toNat - 1) := by
        simp only [toInt, signed, Int.negSucc_eq]
        omega
      have hget : Words.get ⟨⟨x, .minus⟩, limit⟩ index =
          ~~~(if index ≤ limit then x.get index - 1 else x.get index) := by
        unfold Words.get
        split
        · rename_i hplus
          cases hplus
        · split <;> rfl
      rw [hget, testBit_complement _ ht, testBit_word ht (get_sub_one hlimit hne index), hneg]
      rfl

/-! ## Numbers from words -/

/-- The bits of words computed one by one. -/
theorem testBit_range (f : Nat → Word) {n i : Nat} (hi : i < 64 * n) :
    (wordsToNat ((List.range n).map f)).testBit i = (f (i / 64)).toNat.testBit (i % 64) := by
  have hword : ((List.range n).map f).getD (i / 64) 0 = f (i / 64) := by
    have hlen : i / 64 < ((List.range n).map f).length := by
      rw [List.length_map, List.length_range]
      omega
    rw [List.getD_eq_getElem _ _ hlen, List.getElem_map, List.getElem_range]
  have hbit := testBit_word (Nat.mod_lt i (by decide)) (toNat_getD ((List.range n).map f) (i / 64))
  rw [Nat.div_add_mod, hword] at hbit
  exact hbit.symm

theorem wordsToNat_range_lt (f : Nat → Word) (n : Nat) :
    wordsToNat ((List.range n).map f) < 2 ^ (64 * n) := by
  have hlt := wordsToNat_lt ((List.range n).map f)
  rwa [List.length_map, List.length_range, weight_eq] at hlt

/-- As many words as one takes are the low bits of the number. -/
theorem wordsToNat_get {a : BigInt} {words : Words} (h : a.words = some words) (n : Nat) :
    wordsToNat ((List.range n).map words.get) = low (64 * n) a.toInt := by
  refine eq_low (wordsToNat_range_lt _ n) fun i hi => ?_
  rw [testBit_range _ hi, testBit_words h _ (Nat.mod_lt i (by decide)), Nat.div_add_mod]

/-- `init(words:)`. -/
def ofWords (words : List Word) : BigInt :=
  if (words.getLast?.getD 0) >>> 63 = 0 then ofSign .plus (BigUInt.ofWords words)
  else ofSign .minus (BigUInt.ofWords (twosComplement words))

/-- The top bit of the words is that of their number. -/
theorem top_bit_iff (words : List Word) :
    (words.getLast?.getD 0) >>> 63 = 0 ↔ 2 * wordsToNat words < weight words.length := by
  rcases List.eq_nil_or_concat words with rfl | ⟨lower, high, rfl⟩
  · exact ⟨fun _ => Nat.one_pos, fun _ => rfl⟩
  · have hlower := wordsToNat_lt lower
    have hhigh := high.toNat_lt
    have hshift : (high >>> 63).toNat = high.toNat / 2 ^ 63 :=
      Word.toNat_shiftRight high (by decide)
    rw [List.concat_eq_append, List.getLast?_concat, Option.getD_some, ← UInt64.toNat_inj, hshift,
      UInt64.toNat_zero, wordsToNat_append, wordsToNat_cons, wordsToNat_nil, List.length_append,
      List.length_singleton, weight_succ, Nat.zero_mul, Nat.zero_add]
    change _ ↔ 2 * (wordsToNat lower + weight lower.length * high.toNat) < _
    have hpos := weight_pos lower.length
    refine ⟨fun h => ?_, fun h => ?_⟩
    · have hle : weight lower.length * (high.toNat + 1) ≤ weight lower.length * 2 ^ 63 :=
        Nat.mul_le_mul_left _ (by omega)
      rw [Nat.mul_succ] at hle
      omega
    · have hlt : weight lower.length * high.toNat < weight lower.length * 2 ^ 63 := by omega
      have := Nat.lt_of_mul_lt_mul_left hlt
      omega

/-- The words are read as a two's complement. -/
theorem ofWords_eq (words : List Word) :
    ofWords words = ofInt (if 2 * wordsToNat words < weight words.length then
      (wordsToNat words : Int) else (wordsToNat words : Int) - weight words.length) := by
  have hlt := wordsToNat_lt words
  rw [ofWords]
  by_cases htop : 2 * wordsToNat words < weight words.length
  · rw [if_pos ((top_bit_iff words).mpr htop), if_pos htop, ofSign_eq, toNat_ofWords, signed]
  · rw [if_neg (fun h => htop ((top_bit_iff words).mp h)), if_neg htop, ofSign_eq, toNat_ofWords,
      wordsToNat_twosComplement, signed, Nat.mod_eq_of_lt (by omega)]
    congr 1
    omega

/-- A number that fits is read back from its low bits. -/
theorem signed_low {n : Nat} {z : Int} (hlow : -(weight n : Int) ≤ 2 * z)
    (hhigh : 2 * z < (weight n : Int)) :
    (if 2 * low (64 * n) z < weight n then (low (64 * n) z : Int)
      else (low (64 * n) z : Int) - weight n) = z := by
  have hfits : Fits (64 * n) z := by
    rw [Fits, ← weight_eq]
    omega
  have heq := hfits.eq
  rw [← weight_eq] at heq
  by_cases hneg : z < 0
  · rw [if_pos hneg] at heq
    rw [if_neg (by omega)]
    omega
  · rw [if_neg hneg] at heq
    rw [if_pos (by omega)]
    omega

/-- The words have room for the sign. -/
theorem two_mul_lt_weight_count {a : BigInt} {words : Words} (h : a.words = some words) :
    2 * a.magnitude.toNat < weight words.count := by
  have hvalue : words.value = a := by
    obtain ⟨x, s⟩ := a
    cases s with
    | plus =>
        rw [BigInt.words, Option.some.injEq] at h
        rw [← h]
    | minus =>
        rw [BigInt.words, Option.map_eq_some_iff] at h
        obtain ⟨limit, -, rfl⟩ := h
        rfl
  have hbound := wordsToNat_lt a.magnitude.words
  have htop := top_bit_iff a.magnitude.words
  rw [Words.count, hvalue]
  cases hlast : a.magnitude.words.getLast? with
  | none =>
      rw [hlast] at htop
      exact htop.mp rfl
  | some high =>
      rw [hlast, Option.getD_some] at htop
      change 2 * wordsToNat a.magnitude.words <
        weight (if high >>> 63 ≠ 0 then a.magnitude.words.length + 1 else a.magnitude.words.length)
      by_cases hhigh : high >>> 63 = 0
      · rw [if_neg (not_not.mpr hhigh)]
        exact htop.mp hhigh
      · rw [if_pos hhigh, weight_succ]
        omega

/-- A number is read back from its words. -/
theorem ofWords_words {a : BigInt} {words : Words} (h : a.words = some words) :
    ofWords words.toList = a := by
  have hcanonical : a.IsCanonical := by
    by_contra hnot
    rw [(words_eq_none_iff a).mpr hnot] at h
    cases h
  have hroom := two_mul_lt_weight_count h
  have habs := toInt_natAbs a
  have hvalue : wordsToNat words.toList = low (64 * words.count) a.toInt := wordsToNat_get h _
  have hlen : words.toList.length = words.count := by
    rw [Words.toList, List.length_map, List.length_range]
  rw [ofWords_eq, hvalue, hlen, signed_low (by omega) (by omega)]
  exact hcanonical.eq_ofInt.symm

/-- The words a number was built from are its words. -/
theorem get_ofWords_words (words : List Word) {view : Words}
    (h : (ofWords words).words = some view) {index : Nat} (hindex : index < words.length) :
    view.get index = words.getD index 0 := by
  have hlow : low (64 * words.length) (ofWords words).toInt = wordsToNat words := by
    have hlt := wordsToNat_lt words
    rw [ofWords_eq, toInt_ofInt, low, ← weight_eq]
    have hmod : ((wordsToNat words : Nat) : Int) % (weight words.length : Nat) = wordsToNat words :=
      Int.emod_eq_of_lt (Int.natCast_nonneg _) (by exact_mod_cast hlt)
    split
    · rw [hmod, Int.toNat_natCast]
    · rw [← Int.add_emod_right, Int.sub_add_cancel, hmod, Int.toNat_natCast]
  rw [← UInt64.toNat_inj]
  refine Nat.eq_of_testBit_eq fun t => ?_
  by_cases ht : t < 64
  · rw [testBit_words h index ht, ← testBit_low (k := 64 * words.length) (by omega), hlow,
      testBit_word ht (toNat_getD words index)]
  · have hpow : (2 : Nat) ^ 64 ≤ 2 ^ t := Nat.pow_le_pow_right Nat.two_pos (Nat.not_lt.mp ht)
    rw [Nat.testBit_lt_two_pow (Nat.lt_of_lt_of_le (UInt64.toNat_lt _) hpow),
      Nat.testBit_lt_two_pow (Nat.lt_of_lt_of_le (UInt64.toNat_lt _) hpow)]

/-- A number without a minus sign on zero is read back from its words, which are those of
its two's complement without end; and words are read back from the number they make. -/
theorem words_round_trip (a : BigInt) (words : List Word) :
    ((a.words = none ∧ ¬ a.IsCanonical) ∨
      ∃ view, a.words = some view ∧ ofWords view.toList = a ∧
        ∀ index t, t < 64 → (view.get index).toNat.testBit t = a.toInt.testBit (64 * index + t)) ∧
      ∃ view, (ofWords words).words = some view ∧
        ∀ index < words.length, view.get index = words.getD index 0 := by
  refine ⟨?_, ?_⟩
  · cases h : a.words with
    | none => exact .inl ⟨rfl, (words_eq_none_iff a).mp h⟩
    | some view =>
        exact .inr ⟨view, rfl, ofWords_words h, fun index t ht => testBit_words h index ht⟩
  · have hcanonical : (ofWords words).IsCanonical := by
      rw [ofWords_eq]
      exact isCanonical_ofInt _
    obtain ⟨view, hview⟩ := Option.ne_none_iff_exists'.mp
      (fun hnone => (words_eq_none_iff _).mp hnone hcanonical)
    exact ⟨view, hview, fun index hindex => get_ofWords_words words hview hindex⟩

/-! ## Bitwise operations on signed numbers -/

/-- The body of `&`, `|` and `^`, with the sign the result is given. -/
def bitwise (op : Word → Word → Word) (negative : Bool) (lhs rhs : BigInt) : Option BigInt :=
  lhs.words.bind fun left => rhs.words.map fun right =>
    let count := max lhs.magnitude.count rhs.magnitude.count
    let words := (List.range count).map fun i => op (left.get i) (right.get i)
    if negative then ofSign .minus (BigUInt.ofWords (twosComplement words))
    else ofSign .plus (BigUInt.ofWords words)

/-- `&`, which is also `&=`. -/
def and (lhs rhs : BigInt) : Option BigInt :=
  bitwise (· &&& ·) (decide (lhs.sign = .minus) && decide (rhs.sign = .minus)) lhs rhs

/-- `|`, which is also `|=`. -/
def or (lhs rhs : BigInt) : Option BigInt :=
  bitwise (· ||| ·) (decide (lhs.sign = .minus) || decide (rhs.sign = .minus)) lhs rhs

/-- `^`, which is also `^=`. -/
def xor (lhs rhs : BigInt) : Option BigInt :=
  bitwise (· ^^^ ·) (decide (lhs.sign = .minus) != decide (rhs.sign = .minus)) lhs rhs

/-- The prefix `~`. -/
def complement (x : BigInt) : Option BigInt :=
  match x.sign with
  | .plus => some (ofSign .minus (x.magnitude.add (.ofWord 1) 0))
  | .minus => (x.magnitude.subtract (.ofWord 1) 0).map (ofSign .plus)

/-- An integer as `count` words and a sign hold it: minus the next power is lost. -/
def held (count : Nat) (z : Int) : Int := if z = -(weight count : Int) then 0 else z

theorem sign_of_canonical {a : BigInt} (h : a.IsCanonical) :
    decide (a.sign = .minus) = decide (a.toInt < 0) := by
  obtain ⟨x, s⟩ := a
  cases s with
  | plus =>
      simp only [toInt, signed, reduceCtorEq, decide_false]
      exact (decide_eq_false (by omega)).symm
  | minus =>
      have hne : x.toNat ≠ 0 := fun hzero => by
        have := h rfl
        rw [(isZero_iff x).mpr hzero] at this
        cases this
      simp only [toInt, signed, decide_true]
      exact (decide_eq_true (by omega)).symm

/-- A number is no wider than any count of words that holds its magnitude. -/
theorem fits_toInt {a : BigInt} {n : Nat} (h : a.magnitude.count ≤ n) :
    Fits (64 * n) a.toInt ∧ -(weight n : Int) < a.toInt := by
  have habs := toInt_natAbs a
  have hlt := Nat.lt_of_lt_of_le a.magnitude.toNat_lt_weight (weight_le h)
  rw [Fits, ← weight_eq]
  omega

/-- The words of the result and its sign make the operation on integers, unless all
words are zero and the sign is minus. -/
theorem bitwise_spec {op : Word → Word → Word} {f : Bool → Bool → Bool}
    (hop : ∀ v w t, (op v w).toNat.testBit t = f (v.toNat.testBit t) (w.toNat.testBit t))
    {a b : BigInt} (ha : a.IsCanonical) (hb : b.IsCanonical) :
    bitwise op (f (decide (a.sign = .minus)) (decide (b.sign = .minus))) a b =
      some (ofInt (held (max a.magnitude.count b.magnitude.count)
        (Int.bitwise f a.toInt b.toInt))) := by
  obtain ⟨left, hleft⟩ := Option.ne_none_iff_exists'.mp
    (fun hnone => (words_eq_none_iff a).mp hnone ha)
  obtain ⟨right, hright⟩ := Option.ne_none_iff_exists'.mp
    (fun hnone => (words_eq_none_iff b).mp hnone hb)
  rw [bitwise, hleft, hright, Option.bind_some, Option.map_some, sign_of_canonical ha,
    sign_of_canonical hb]
  generalize hn : max a.magnitude.count b.magnitude.count = n
  have hlt := wordsToNat_range_lt (fun i => op (left.get i) (right.get i)) n
  have hexact := bitwise_eq f (fits_toInt (show a.magnitude.count ≤ n by omega)).1
    (fits_toInt (show b.magnitude.count ≤ n by omega)).1 hlt fun i hi => by
      rw [testBit_range _ hi, hop, ← wordsToNat_get hleft, ← wordsToNat_get hright,
        testBit_range _ hi, testBit_range _ hi]
  simp only
  rw [hexact]
  generalize hwords : (List.range n).map (fun i => op (left.get i) (right.get i)) = words at hlt ⊢
  have hlen : words.length = n := by rw [← hwords, List.length_map, List.length_range]
  rw [← weight_eq] at hlt ⊢
  have hpos := weight_pos n
  congr 1
  by_cases hsign : f (decide (a.toInt < 0)) (decide (b.toInt < 0)) = true
  · rw [if_pos hsign, if_pos hsign, ofSign_eq, toNat_ofWords, wordsToNat_twosComplement, hlen,
      signed, held]
    by_cases hzero : wordsToNat words = 0
    · rw [hzero, Nat.sub_zero, Nat.mod_self, if_pos (by omega)]
      rfl
    · rw [Nat.mod_eq_of_lt (by omega), if_neg (by omega)]
      congr 1
      omega
  · rw [if_neg hsign, if_neg hsign, ofSign_eq, toNat_ofWords, signed, held, if_neg (by omega),
      Int.sub_zero]

theorem or_eq {a b : BigInt} (ha : a.IsCanonical) (hb : b.IsCanonical) :
    a.or b = some (ofInt (Int.lor a.toInt b.toInt)) := by
  have hor : a.or b = some (ofInt (held (max a.magnitude.count b.magnitude.count)
      (Int.lor a.toInt b.toInt))) := by
    rw [← Int.bitwise_or]
    exact bitwise_spec (fun v w t => by rw [UInt64.toNat_or, Nat.testBit_or]) ha hb
  have hleft := (fits_toInt (Nat.le_max_left a.magnitude.count b.magnitude.count)).2
  have hright := (fits_toInt (Nat.le_max_right a.magnitude.count b.magnitude.count)).2
  rw [weight_eq] at hleft hright
  have hwide := neg_two_pow_lt_lor hleft hright
  rw [← weight_eq] at hwide
  rw [hor, held, if_neg (Int.ne_of_gt hwide)]

/-- The complement is the one of integers, and stops the process for a minus sign on
zero. -/
theorem complement_eq (x : BigInt) :
    x.complement = if x.sign = .minus ∧ x.magnitude.isZero = true then none
      else some (ofInt (Int.lnot x.toInt)) := by
  obtain ⟨m, s⟩ := x
  cases s with
  | plus =>
      simp only [complement, toInt]
      rw [if_neg (fun h => Sign.noConfusion h.1), ofSign_eq, BigUInt.add_eq, toNat_ofNat,
        toNat_ofWord, UInt64.toNat_one, weight_zero, Nat.mul_one]
      rfl
  | minus =>
      have hone : m.isZero = true ↔ ¬ 1 ≤ m.toNat := by
        rw [isZero_iff]
        omega
      simp only [complement, toInt]
      rw [BigUInt.subtract_eq, toNat_ofWord, UInt64.toNat_one, weight_zero]
      by_cases hle : 1 ≤ m.toNat
      · have hneg : signed .minus m.toNat = Int.negSucc (m.toNat - 1) := by
          rw [signed, Int.negSucc_eq]
          omega
        rw [if_pos (by omega), if_neg (fun h => hone.mp h.2 hle), Option.map_some, ofSign_eq,
          toNat_ofNat, hneg]
        rfl
      · have hzero := hone.mpr hle
        rw [if_neg (by omega), if_pos (And.intro trivial hzero), Option.map_none]

/-- The bitwise operations are those of integers, but for one result: minus the power of
two above all words of the operands, which `&` and `^` take for zero.  Those of
magnitudes have no exception. -/
theorem bitwise_exact {a b : BigInt} (ha : a.IsCanonical) (hb : b.IsCanonical) :
    a.and b = some (ofInt (held (max a.magnitude.count b.magnitude.count)
        (Int.land a.toInt b.toInt))) ∧
      a.xor b = some (ofInt (held (max a.magnitude.count b.magnitude.count)
        (Int.xor a.toInt b.toInt))) ∧
      a.or b = some (ofInt (Int.lor a.toInt b.toInt)) ∧
      a.complement = some (ofInt (Int.lnot a.toInt)) ∧
      BitsExact a.magnitude b.magnitude := by
  refine ⟨?_, ?_, or_eq ha hb, ?_, bitsExact _ _⟩
  · rw [← Int.bitwise_and]
    exact bitwise_spec (fun v w t => by rw [UInt64.toNat_and, Nat.testBit_and]) ha hb
  · rw [← Int.bitwise_xor]
    exact bitwise_spec (fun v w t => by rw [UInt64.toNat_xor, Nat.testBit_xor, Bool.bne_eq_xor])
      ha hb
  · rw [complement_eq, if_neg]
    intro h
    have hfalse := ha h.1
    rw [h.2] at hfalse
    cases hfalse

theorem bitwise_exact_mixed :
    (ofInt (-6)).and (ofInt 3) = some (ofInt (held (max (ofInt (-6)).magnitude.count
        (ofInt 3).magnitude.count) (Int.land (ofInt (-6)).toInt (ofInt 3).toInt))) ∧
      (ofInt (-6)).xor (ofInt 3) = some (ofInt (held (max (ofInt (-6)).magnitude.count
        (ofInt 3).magnitude.count) (Int.xor (ofInt (-6)).toInt (ofInt 3).toInt))) ∧
      (ofInt (-6)).or (ofInt 3) = some (ofInt (Int.lor (ofInt (-6)).toInt (ofInt 3).toInt)) ∧
      (ofInt (-6)).complement = some (ofInt (Int.lnot (ofInt (-6)).toInt)) ∧
      BitsExact (ofInt (-6)).magnitude (ofInt 3).magnitude :=
  bitwise_exact (isCanonical_ofInt (-6)) (isCanonical_ofInt 3)

/-- The one result that is lost. -/
example : (ofSign .minus (.ofWords [0xFFFFFFFFFFFFFFFF])).and
    (ofSign .minus (.ofWords [0xFFFFFFFFFFFFFFFE])) = some (ofSign .plus .zero) := by decide

end BigInt

end YieldMe

/-
  BigInt/Conversion.lean --- big integers from and to text.

  A text is parsed in blocks of as many digits as fit in a word, counted from its
  right end, and printed in blocks of the same width.  `Chunking` states what the
  package relies on for a radix; the two radixes of the app have it.

  Parsing a numeral and printing a number are exact at every length
  (`ofText_eq`, `text_eq`).  What else the parser accepts is decided block by
  block (`ofText_isSome_iff`), and so is the integer it takes the text for
  (`ofText_of_blocks`).
-/
import YieldMe.BigInt.Magnitude

set_option autoImplicit false

namespace YieldMe

open Positional

/-! ## Signs -/

/-- The text behind an optional leading sign. -/
def BigInt.dropSign : List Char → List Char
  | '-' :: rest => rest
  | '+' :: rest => rest
  | text => text

theorem BigInt.dropSign_eq_self {text : List Char} (hminus : ∀ rest, text = '-' :: rest → False)
    (hplus : ∀ rest, text = '+' :: rest → False) : dropSign text = text := by
  unfold dropSign
  split
  · exact (hminus _ rfl).elim
  · exact (hplus _ rfl).elim
  · rfl

/-- A numeral has no sign. -/
theorem BigInt.dropSign_of_isNumeral {radix : Nat} {text : List Char}
    (h : IsNumeral radix text) : dropSign text = text := by
  apply dropSign_eq_self
  · rintro rest rfl
    exact Word.not_isDigit_minus radix (h.2 '-' List.mem_cons_self)
  · rintro rest rfl
    exact Word.not_isDigit_plus radix (h.2 '+' List.mem_cons_self)

/-- A word text of `k` characters denotes less than `radix ^ k`. -/
theorem Word.IsWordText.value_lt {radix : Nat} {text : List Char}
    (h : Word.IsWordText radix text) (hradix : 0 < radix) :
    value radix (BigInt.dropSign text) < radix ^ text.length := by
  cases h with
  | unsigned h =>
      rw [BigInt.dropSign_of_isNumeral h]
      exact Positional.value_lt h.2
  | plus h | minus h _ =>
      exact Nat.lt_of_lt_of_le (Positional.value_lt h.2)
        (Nat.pow_le_pow_right hradix (Nat.le_succ _))

/-- A word text is read as the number behind its sign. -/
theorem Word.ofText_of_isWordText {radix : Nat} (hradix : 0 < radix) {text : List Char}
    (h : Word.IsWordText radix text) (hfits : value radix (BigInt.dropSign text) < 2 ^ 64) :
    Word.ofText radix text = some (UInt64.ofNat (value radix (BigInt.dropSign text))) := by
  cases h with
  | unsigned h =>
      rw [BigInt.dropSign_of_isNumeral h] at hfits ⊢
      exact Word.ofText_eq hradix h hfits
  | @plus digits h =>
      have hread := (Word.readNumeral_eq_some_iff hradix).mpr ⟨h, rfl, hfits⟩
      rw [Word.ofText, hread]
      rfl
  | @minus digits h hzero =>
      have hread := (Word.readNumeral_eq_some_iff hradix).mpr ⟨h, rfl, hfits⟩
      rw [Word.ofText, hread, BigInt.dropSign, hzero]
      rfl

namespace BigUInt

/-- What the package relies on for a radix: the blocks of `chars` digits are the
digits in base `radix ^ chars`, which is `power`, or `2 ^ 64` where that is zero. -/
structure Chunking (radix chars : Nat) (power : Word) : Prop where
  charsPerWord : BigUInt.charsPerWord radix = (chars, power)
  one_lt : 1 < radix
  chars_pos : 0 < chars
  pow : radix ^ chars = if power = 0 then 2 ^ 64 else power.toNat
  large : 2 ^ 32 ≤ radix ^ chars

theorem chunking_ten : Chunking 10 19 10000000000000000000 where
  charsPerWord := by decide
  one_lt := by decide
  chars_pos := by decide
  pow := by decide
  large := by decide

theorem chunking_sixteen : Chunking 16 16 0 where
  charsPerWord := by decide
  one_lt := by decide
  chars_pos := by decide
  pow := by decide
  large := by decide

section Chunked

variable {radix chars : Nat} {power : Word}

theorem Chunking.pow_le (h : Chunking radix chars power) : radix ^ chars ≤ 2 ^ 64 := by
  rw [h.pow]
  split
  · exact Nat.le_refl _
  · exact Nat.le_of_lt power.toNat_lt

theorem Chunking.power_eq (h : Chunking radix chars power) (hpower : power ≠ 0) :
    power.toNat = radix ^ chars := by
  rw [h.pow, if_neg hpower]

/-! ## Parsing -/

/-- The chunk loop parses the blocks of the text one by one. -/
theorem chunkWords_eq (radix chars : Nat) (left : List Char) :
    ∀ chunk : List Char, chunkWords radix chars left chunk chunk.length =
      (blocksFrom chars left chunk).mapM (Word.ofText radix) := by
  induction left with
  | nil =>
      intro chunk
      cases chunk with
      | nil => rfl
      | cons c rest =>
          simp only [chunkWords, blocksFrom, List.isEmpty_cons, Bool.false_eq_true, if_false,
            List.mapM_cons, List.mapM_nil]
          cases Word.ofText radix (c :: rest) <;> rfl
  | cons c left ih =>
      intro chunk
      rw [chunkWords, blocksFrom]
      split
      · rw [List.mapM_cons, ← ih []]
        cases Word.ofText radix (c :: chunk) with
        | none => rfl
        | some d => cases chunkWords radix chars left [] 0 <;> rfl
      · rw [← ih (c :: chunk), List.length_cons]

theorem mapM_eq_map {α β : Type} {f : α → Option β} {g : α → β} {items : List α}
    (h : ∀ a ∈ items, f a = some (g a)) : items.mapM f = some (items.map g) := by
  induction items with
  | nil => rfl
  | cons a rest ih =>
      rw [List.mapM_cons, h a List.mem_cons_self,
        ih fun b hb => h b (List.mem_cons_of_mem a hb)]
      rfl

theorem mapM_isSome_iff {α β : Type} {f : α → Option β} {items : List α} :
    (items.mapM f).isSome = true ↔ ∀ a ∈ items, (f a).isSome = true := by
  induction items with
  | nil => simp
  | cons a rest ih =>
      rw [List.mapM_cons, List.forall_mem_cons, ← ih]
      cases f a with
      | none => simp
      | some b => cases rest.mapM f <;> simp

/-- The number the words of a text stand for. -/
def ofChunks (power : Word) (words : List Word) : BigUInt :=
  if power = 0 then ofWords words
  else words.reverse.foldl (fun x d => (x.multiply power).addWord d) zero

theorem ofText_eq_mapM (h : Chunking radix chars power) (text : List Char) :
    ofText radix text =
      ((blocks chars text).mapM (Word.ofText radix)).map (ofChunks power) := by
  rw [ofText, h.charsPerWord]
  simp only
  rw [blocks, ← chunkWords_eq]
  rfl

theorem toNat_foldl (power : Word) (words : List Word) :
    ∀ x : BigUInt, (words.foldl (fun x d => (x.multiply power).addWord d) x).toNat =
      (words.map UInt64.toNat).foldl (fun n d => n * power.toNat + d) x.toNat := by
  induction words with
  | nil => intro x; rfl
  | cons d rest ih =>
      intro x
      rw [List.foldl_cons, ih, toNat_addWord, toNat_multiply, List.map_cons, List.foldl_cons]

theorem toNat_ofChunks (h : Chunking radix chars power) (words : List Word) :
    (ofChunks power words).toNat = Nat.ofDigits (radix ^ chars) (words.map UInt64.toNat) := by
  unfold ofChunks
  split
  · rename_i hpower
    rw [toNat_ofWords, h.pow, if_pos hpower]
    rfl
  · rename_i hpower
    rw [toNat_foldl, toNat_zero, foldl_eq_ofDigits_reverse, h.power_eq hpower,
      ← List.map_reverse, List.reverse_reverse]

/-- A text whose blocks are word texts is the number with these digits. -/
theorem ofText_of_blocks (h : Chunking radix chars power) {text : List Char}
    (hblocks : ∀ block ∈ blocks chars text, Word.IsWordText radix block) :
    ∃ x, ofText radix text = some x ∧ x.toNat = Nat.ofDigits (radix ^ chars)
      ((blocks chars text).map fun block => value radix (BigInt.dropSign block)) := by
  have hradix : 0 < radix := Nat.lt_trans Nat.zero_lt_one h.one_lt
  have hfits : ∀ block ∈ blocks chars text,
      value radix (BigInt.dropSign block) < 2 ^ 64 := by
    intro block hmem
    obtain ⟨-, hlen⟩ := length_of_mem_blocks h.chars_pos hmem
    have hlt := (hblocks block hmem).value_lt hradix
    have hpow := Nat.pow_le_pow_right hradix hlen
    have hword := h.pow_le
    omega
  have hwords : (blocks chars text).mapM (Word.ofText radix) = some ((blocks chars text).map
      fun block => UInt64.ofNat (value radix (BigInt.dropSign block))) :=
    mapM_eq_map fun block hmem =>
      Word.ofText_of_isWordText hradix (hblocks block hmem) (hfits block hmem)
  refine ⟨_, by rw [ofText_eq_mapM h, hwords, Option.map_some], ?_⟩
  rw [toNat_ofChunks h, List.map_map]
  congr 1
  apply List.map_congr_left
  intro block hmem
  rw [Function.comp_apply, UInt64.toNat_ofNat', Nat.mod_eq_of_lt (hfits block hmem)]

/-- Parsing a text of digits is exact, whatever its length. -/
theorem ofText_eq (h : Chunking radix chars power) {text : List Char}
    (hdigits : ∀ c ∈ text, IsDigit radix c) :
    ∃ x, ofText radix text = some x ∧ x.toNat = value radix text := by
  have hblock : ∀ block ∈ blocks chars text, IsNumeral radix block := fun block hmem =>
    ⟨(length_of_mem_blocks h.chars_pos hmem).1, fun c hc =>
      hdigits c (mem_of_mem_blocks hmem hc)⟩
  obtain ⟨x, hx, hnumber⟩ := ofText_of_blocks h fun block hmem => .unsigned (hblock block hmem)
  refine ⟨x, hx, ?_⟩
  rw [hnumber, value_eq_ofDigits_blocks radix chars]
  congr 1
  apply List.map_congr_left
  intro block hmem
  rw [BigInt.dropSign_of_isNumeral (hblock block hmem)]

/-- The parser accepts a text exactly when it accepts every block of it. -/
theorem ofText_isSome_iff (h : Chunking radix chars power) (text : List Char) :
    (ofText radix text).isSome = true ↔
      ∀ block ∈ blocks chars text, Word.IsWordText radix block := by
  have hradix : 0 < radix := Nat.lt_trans Nat.zero_lt_one h.one_lt
  rw [ofText_eq_mapM h, Option.isSome_map, mapM_isSome_iff]
  refine forall₂_congr fun block hmem => Word.ofText_isSome_iff hradix ?_
  obtain ⟨-, hlen⟩ := length_of_mem_blocks h.chars_pos hmem
  exact Nat.le_trans (Nat.pow_le_pow_right hradix hlen) h.pow_le

/-! ## Printing -/

/-- The division loop prints the digits of the number in base `power`. -/
theorem remainderTexts_eq (radix : Nat) {power : Word} (hpower : 1 < power.toNat)
    (fuel : Nat) :
    ∀ v : BigUInt, v.toNat < power.toNat ^ fuel →
      remainderTexts radix power fuel v =
        (Nat.digits power.toNat v.toNat).map (Nat.toDigits radix) := by
  induction fuel with
  | zero =>
      intro v hv
      have hzero : v.toNat = 0 := by simpa using hv
      rw [hzero, Nat.digits_zero]
      rfl
  | succ fuel ih =>
      intro v hv
      rw [remainderTexts]
      split
      · rename_i hzero
        rw [(isZero_iff v).mp hzero, Nat.digits_zero]
        rfl
      · rename_i hzero
        rw [isZero_iff] at hzero
        obtain ⟨hquotient, hremainder⟩ := toNat_divide v (y := power) (by omega)
        have hlt : (v.divide power).1.toNat < power.toNat ^ fuel := by
          rw [hquotient]
          apply Nat.div_lt_of_lt_mul
          rwa [pow_succ, Nat.mul_comm] at hv
        simp only
        rw [ih _ hlt, hquotient, Word.text, hremainder,
          Nat.digits_def' hpower (Nat.pos_of_ne_zero hzero), List.map_cons]

/-- The parts of a number are its digits in base `radix ^ chars`. -/
theorem parts_eq (h : Chunking radix chars power) (v : BigUInt) :
    (if power = 0 then v.words.map (Word.text radix)
      else remainderTexts radix power (2 * v.words.length + 1) v) =
        (Nat.digits (radix ^ chars) v.toNat).map (Nat.toDigits radix) := by
  split
  · rename_i hpower
    rw [h.pow, if_pos hpower, digits_toNat, List.map_map]
    rfl
  · rename_i hpower
    have heq := h.power_eq hpower
    have hlarge := h.large
    rw [← heq] at hlarge
    rw [remainderTexts_eq radix (by omega), heq]
    -- two divisions take away a word
    calc v.toNat < (2 ^ 64) ^ v.words.length := v.toNat_lt
      _ = (2 ^ 32) ^ (2 * v.words.length) := by
          rw [← pow_mul, ← pow_mul]
          congr 1
          omega
      _ ≤ power.toNat ^ (2 * v.words.length) := Nat.pow_le_pow_left hlarge _
      _ ≤ power.toNat ^ (2 * v.words.length + 1) :=
          Nat.pow_le_pow_right (by omega) (Nat.le_succ _)

/-- Printing is exact: it gives the canonical numeral. -/
theorem text_eq (h : Chunking radix chars power) (v : BigUInt) :
    v.text radix = Nat.toDigits radix v.toNat := by
  rw [text, h.charsPerWord]
  simp only
  by_cases hzero : v.isZero = true
  · rw [if_pos hzero, (isZero_iff v).mp hzero, Nat.toDigits_zero]
  · have hpos : 0 < v.toNat := Nat.pos_of_ne_zero fun hnone => hzero ((isZero_iff v).mpr hnone)
    obtain ⟨top, lower, hdigits, hprint⟩ := toDigits_eq_join h.one_lt h.chars_pos hpos
    rw [if_neg hzero, parts_eq h, ← List.map_reverse, hdigits, List.map_cons, joinParts,
      List.flatMap_map, hprint]

end Chunked

end BigUInt

/-! ## Signed big integers -/

namespace BigInt

open BigUInt

/-- The sign a text gets from its first character. -/
def leadingSign : List Char → Sign
  | '-' :: _ => .minus
  | _ => .plus

/-- The magnitude `n` behind a sign. -/
def signed (sign : Sign) (n : Nat) : Int :=
  match sign with
  | .plus => n
  | .minus => -n

/-- The integer a big integer stands for. -/
def toInt (x : BigInt) : Int := signed x.sign x.magnitude.toNat

/-- The integer the parser takes a text for: behind the leading sign, its blocks
are the digits in base `radix ^ chars`, each behind a sign of its own. -/
def numberOf (radix chars : Nat) (text : List Char) : Int :=
  signed (leadingSign text) (Nat.ofDigits (radix ^ chars)
    ((blocks chars (dropSign text)).map fun block => value radix (dropSign block)))

section Chunked

variable {radix chars : Nat} {power : Word}

/-- The magnitude and the sign of a text are parsed apart. -/
theorem ofText_eq_map (radix : Nat) (text : List Char) :
    ofText radix text =
      (BigUInt.ofText radix (dropSign text)).map fun m => ⟨m, leadingSign text⟩ := by
  unfold ofText leadingSign
  split
  · rfl
  · rfl
  · rename_i hminus hplus
    rw [dropSign_eq_self hminus hplus]
    split
    · exact (hminus _ rfl).elim
    · rfl

/-- Whether a text is accepted does not depend on its leading sign. -/
theorem ofText_isSome_eq (radix : Nat) (text : List Char) :
    (ofText radix text).isSome = (BigUInt.ofText radix (dropSign text)).isSome := by
  rw [ofText_eq_map, Option.isSome_map]

theorem ofText_isSome_iff (h : Chunking radix chars power) (text : List Char) :
    (ofText radix text).isSome = true ↔
      ∀ block ∈ blocks chars (dropSign text), Word.IsWordText radix block := by
  rw [ofText_isSome_eq, BigUInt.ofText_isSome_iff h]

/-- A text of digits gets the plus sign and the number it denotes. -/
theorem ofText_eq (h : Chunking radix chars power) {text : List Char}
    (hdigits : ∀ c ∈ text, IsDigit radix c) :
    ∃ x, ofText radix text = some ⟨x, .plus⟩ ∧ x.toNat = value radix text := by
  obtain ⟨x, hx, hvalue⟩ := BigUInt.ofText_eq h hdigits
  refine ⟨x, ?_, hvalue⟩
  unfold ofText
  split
  · exact absurd (hdigits '-' List.mem_cons_self) (Word.not_isDigit_minus radix)
  · exact absurd (hdigits '+' List.mem_cons_self) (Word.not_isDigit_plus radix)
  · rw [hx, Option.map_some]

/-- A character that is neither a digit nor a sign makes a text no number. -/
theorem ofText_eq_none (h : Chunking radix chars power) {text : List Char} {c : Char}
    (hc : c ∈ text) (hdigit : ¬ IsDigit radix c) (hplus : c ≠ '+') (hminus : c ≠ '-') :
    ofText radix text = none := by
  rw [← Option.not_isSome_iff_eq_none, ofText_isSome_iff h]
  intro hall
  have hmem : c ∈ dropSign text := by
    unfold dropSign
    split
    · exact (List.mem_cons.mp hc).resolve_left hminus
    · exact (List.mem_cons.mp hc).resolve_left hplus
    · exact hc
  obtain ⟨block, hblock, hc⟩ := exists_block_of_mem (k := chars) hmem
  cases hall block hblock with
  | unsigned hnumeral => exact hdigit (hnumeral.2 c hc)
  | plus hnumeral =>
      exact hdigit (hnumeral.2 c ((List.mem_cons.mp hc).resolve_left hplus))
  | minus hnumeral _ =>
      exact hdigit (hnumeral.2 c ((List.mem_cons.mp hc).resolve_left hminus))

/-- A number without a minus sign is printed as its magnitude. -/
theorem text_plus (h : Chunking radix chars power) (x : BigUInt) :
    (⟨x, .plus⟩ : BigInt).text radix = Nat.toDigits radix x.toNat := by
  rw [text, if_neg (by simp), BigUInt.text_eq h]

/-- A text whose blocks are word texts is parsed as the integer it is taken for. -/
theorem ofText_of_blocks (h : Chunking radix chars power) {text : List Char}
    (hblocks : ∀ block ∈ blocks chars (dropSign text), Word.IsWordText radix block) :
    ∃ x, ofText radix text = some x ∧ x.toInt = numberOf radix chars text := by
  obtain ⟨m, hm, hmagnitude⟩ := BigUInt.ofText_of_blocks h hblocks
  refine ⟨⟨m, leadingSign text⟩, by rw [ofText_eq_map, hm, Option.map_some], ?_⟩
  rw [toInt, hmagnitude, numberOf]

theorem signed_zero (sign : Sign) : signed sign 0 = 0 := by
  cases sign <;> rfl

/-- A zero magnitude has one integer, so its sign does not matter. -/
theorem toInt_ofSign (sign : Sign) (magnitude : BigUInt) :
    (ofSign sign magnitude).toInt = signed sign magnitude.toNat := by
  rw [toInt, ofSign]
  split
  · rename_i hzero
    rw [(isZero_iff magnitude).mp hzero, signed_zero, signed_zero]
  · rfl

/-- Multiplication by one word is exact. -/
theorem toInt_timesWord (a : BigInt) (y : Word) :
    (a.timesWord y).toInt = a.toInt * y.toNat := by
  have hsign : (if a.sign = .plus then Sign.plus else .minus) = a.sign := by
    cases a.sign <;> rfl
  have hproduct : (if a.magnitude.isZero then zero else a.magnitude.multiply y).toNat =
      a.magnitude.toNat * y.toNat := by
    split
    · rename_i hzero
      rw [(isZero_iff _).mp hzero, Nat.zero_mul, toNat_zero]
    · exact toNat_multiply _ y
  rw [timesWord, toInt_ofSign, hsign, hproduct, toInt]
  cases a.sign <;> simp [signed]

/-- An integer is printed as its sign and the digits of its magnitude. -/
theorem toString_signed {sign : Sign} {n : Nat} (hsign : sign = .minus → n ≠ 0) :
    toString (signed sign n) =
      String.ofList (if sign = .minus then '-' :: Nat.toDigits 10 n else Nat.toDigits 10 n) := by
  rw [Int.toString_eq_repr, Int.repr_eq_if]
  cases sign with
  | plus =>
      have hnonneg : 0 ≤ signed .plus n := Int.natCast_nonneg n
      rw [if_pos hnonneg, if_neg (by decide), Nat.repr_eq_ofList_toDigits]
      rfl
  | minus =>
      have hpos := Nat.pos_of_ne_zero (hsign rfl)
      have hneg : ¬ 0 ≤ signed .minus n := by
        rw [signed]
        omega
      have hmagnitude : (-signed .minus n).toNat = n := by
        rw [signed, Int.neg_neg, Int.toNat_natCast]
      rw [if_neg hneg, if_pos rfl, hmagnitude, Nat.repr_eq_ofList_toDigits]
      exact String.ofList_append.symm

/-- A number built by `ofSign` has no minus sign in front of zero, and is printed
as the integer it stands for. -/
theorem text_ofSign (sign : Sign) (magnitude : BigUInt) :
    String.ofList ((ofSign sign magnitude).text 10) =
      toString (ofSign sign magnitude).toInt := by
  rw [toInt, toString_signed, text, BigUInt.text_eq chunking_ten]
  intro hminus hzero
  rw [ofSign, if_pos ((isZero_iff magnitude).mpr hzero)] at hminus
  cases hminus

/-- Scaling by one word and printing are exact. -/
theorem text_timesWord (a : BigInt) (y : Word) :
    String.ofList ((a.timesWord y).text 10) = toString (a.toInt * y.toNat) := by
  rw [← toInt_timesWord]
  exact text_ofSign _ _

end Chunked

end BigInt

end YieldMe

/-
  BigInt/Radix.lean --- texts in every radix from 2 to 36, in either case.

  The package prints and parses in blocks, and takes the blocks for digits of a base:
  of the largest power of the radix in a word, or of `2 ^ 64` where the search for that
  power ends with a product of zero.  It ends so for the powers of two, and for 8 and 32
  one digit too late: their blocks are wider than a word.  In these two radixes the
  text printed for a number of several words denotes a larger one.  The parser makes
  the same mistake, so what was printed is read back in every radix.
-/
import Mathlib.Tactic.IntervalCases
import YieldMe.Foundation.Numeral
import YieldMe.BigInt.Access
import YieldMe.BigInt.Conversion

set_option autoImplicit false

namespace YieldMe

open Positional

/-- The character of a digit in either case. -/
def Word.digitChar (uppercase : Bool) (d : Nat) : Char :=
  if d < 10 then Char.ofNat (d + 48)
  else if uppercase then Char.ofNat (d + 55) else Char.ofNat (d + 87)

/-- `String.init(_:radix:uppercase:)` of a word. -/
def Word.textIn (radix : Nat) (uppercase : Bool) (x : Word) : List Char :=
  numeral (Word.digitChar uppercase) radix x.toNat

theorem Word.alphabet {radix : Nat} (h : radix ≤ 36) (uppercase : Bool) :
    Alphabet radix (digitChar uppercase) := by
  have hread : ∀ d < 36, (digitChar uppercase d).isAlphanum = true ∧
      digitValue (digitChar uppercase d) = d := by
    cases uppercase with
    | false => decide
    | true => decide
  constructor
  · intro d hd
    obtain ⟨halphanum, hvalue⟩ := hread d (by omega)
    exact ⟨halphanum, by rw [hvalue]; exact hd⟩
  · intro d hd
    exact (hread d (by omega)).2

namespace BigUInt

/-! ## Printing -/

/-- The division loop of `String.init(_:radix:uppercase:)`, the remainders
themselves. -/
def remainders (power : Word) : Nat → BigUInt → List Word
  | 0, _ => []
  | fuel + 1, rest =>
      if rest.isZero then []
      else
        let (rest', mod) := rest.divide power
        mod :: remainders power fuel rest'

/-- `String.init(_:radix:uppercase:)` of an unsigned big integer. -/
def textIn (radix : Nat) (uppercase : Bool) (v : BigUInt) : List Char :=
  let (chars, power) := charsPerWord radix
  if v.isZero then ['0']
  else
    let parts := if power = 0 then v.words else remainders power (2 * v.words.length + 1) v
    joinParts chars (parts.map (Word.textIn radix uppercase)).reverse

/-! ## The base of the blocks -/

/-- The base the package takes the blocks for digits of. -/
def blockBase (power : Word) : Nat := if power = 0 then 2 ^ 64 else power.toNat

/-- What holds of every radix: the digits of that base fit a block. -/
structure Blocking (radix chars : Nat) (power : Word) : Prop where
  charsPerWord : BigUInt.charsPerWord radix = (chars, power)
  one_lt : 1 < radix
  chars_pos : 0 < chars
  base_le : blockBase power ≤ radix ^ chars
  large : 2 ^ 32 ≤ blockBase power

theorem exists_blocking {radix : Nat} (hlow : 2 ≤ radix) (hhigh : radix ≤ 36) :
    ∃ chars power, Blocking radix chars power ∧
      (radix ^ chars = blockBase power ↔ radix ≠ 8 ∧ radix ≠ 32) ∧
      (radix ^ chars = blockBase power ∨ blockBase power = 2 ^ 64) := by
  interval_cases radix <;>
    exact ⟨_, _, ⟨rfl, by decide, by decide, by decide, by decide⟩, by decide, by decide⟩

section Blocked

variable {radix chars : Nat} {power : Word}

theorem blockBase_le (power : Word) : blockBase power ≤ 2 ^ 64 := by
  unfold blockBase
  split
  · exact Nat.le_refl _
  · exact Nat.le_of_lt power.toNat_lt

/-- The division loop finds the digits in base `power`. -/
theorem remainders_eq {power : Word} (hpower : 1 < power.toNat) (fuel : Nat) :
    ∀ v : BigUInt, v.toNat < power.toNat ^ fuel →
      (remainders power fuel v).map UInt64.toNat = Nat.digits power.toNat v.toNat := by
  induction fuel with
  | zero =>
      intro v hv
      have hzero : v.toNat = 0 := by simpa using hv
      rw [hzero, Nat.digits_zero]
      rfl
  | succ fuel ih =>
      intro v hv
      rw [remainders]
      split
      · rename_i hzero
        rw [(isZero_iff v).mp hzero, Nat.digits_zero]
        rfl
      · rename_i hzero
        rw [isZero_iff] at hzero
        obtain ⟨hquotient, hremainder⟩ := toNat_divide v (y := power) (by omega)
        have hlt : (v.divide power).1.toNat < power.toNat ^ fuel := by
          rw [hquotient]
          apply Nat.div_lt_of_lt_mul
          rwa [pow_succ, Nat.mul_comm] at hv
        simp only
        rw [List.map_cons, ih _ hlt, hquotient, hremainder,
          Nat.digits_def' hpower (Nat.pos_of_ne_zero hzero)]

/-- The parts of a number are its digits in the base of the blocks. -/
theorem parts_digits (h : Blocking radix chars power) (v : BigUInt) :
    (if power = 0 then v.words else remainders power (2 * v.words.length + 1) v).map UInt64.toNat =
      Nat.digits (blockBase power) v.toNat := by
  have hlarge := h.large
  unfold blockBase at *
  split
  · exact (digits_toNat v).symm
  · rename_i hpower
    rw [if_neg hpower] at hlarge
    refine remainders_eq (by omega) _ v ?_
    calc v.toNat < (2 ^ 64) ^ v.words.length := v.toNat_lt
      _ = (2 ^ 32) ^ (2 * v.words.length) := by
          rw [← pow_mul, ← pow_mul]
          congr 1
          omega
      _ ≤ power.toNat ^ (2 * v.words.length) := Nat.pow_le_pow_left hlarge _
      _ ≤ power.toNat ^ (2 * v.words.length + 1) :=
          Nat.pow_le_pow_right (by omega) (Nat.le_succ _)

theorem joinParts_eq (chars : Nat) (digit : Nat → Char) (radix top : Nat) (lower : List Nat) :
    joinParts chars ((top :: lower).map (numeral digit radix)) =
      join digit radix chars top lower := by
  rw [List.map_cons, joinParts, join, List.flatMap_map]
  rfl

theorem textIn_zero (radix : Nat) (uppercase : Bool) {v : BigUInt} (hv : v.toNat = 0) :
    v.textIn radix uppercase = numeral (Word.digitChar uppercase) radix 0 := by
  have hdigit : Word.digitChar uppercase 0 = '0' := by cases uppercase <;> rfl
  unfold textIn
  simp only [(isZero_iff v).mpr hv, if_true]
  rw [numeral, if_pos rfl, hdigit]

/-- A positive number is printed as its digits in the base of the blocks, joined. -/
theorem textIn_eq (h : Blocking radix chars power) (uppercase : Bool) {v : BigUInt}
    (hv : 0 < v.toNat) :
    ∃ top lower, Nat.digits (blockBase power) v.toNat = lower.reverse ++ [top] ∧
      v.textIn radix uppercase = join (Word.digitChar uppercase) radix chars top lower := by
  have hne : Nat.digits (blockBase power) v.toNat ≠ [] :=
    Nat.digits_ne_nil_iff_ne_zero.mpr (Nat.ne_of_gt hv)
  obtain ⟨top, lower, hdigits⟩ := List.exists_cons_of_ne_nil (List.reverse_ne_nil_iff.mpr hne)
  refine ⟨top, lower, ?_, ?_⟩
  · rw [← List.reverse_reverse (Nat.digits (blockBase power) v.toNat), hdigits,
      List.reverse_cons]
  · have htexts : ∀ words : List Word, words.map (Word.textIn radix uppercase) =
        (words.map UInt64.toNat).map (numeral (Word.digitChar uppercase) radix) := by
      intro words
      rw [List.map_map]
      rfl
    rw [textIn, h.charsPerWord]
    simp only
    rw [if_neg (fun hzero => Nat.ne_of_gt hv ((isZero_iff v).mp hzero)), htexts, parts_digits h,
      ← List.map_reverse, hdigits, joinParts_eq]

theorem digit_lt (h : Blocking radix chars power) {n top : Nat} {lower : List Nat}
    (hdigits : Nat.digits (blockBase power) n = lower.reverse ++ [top]) :
    top < blockBase power ∧ ∀ d ∈ lower, d < blockBase power := by
  have hone : 1 < blockBase power := Nat.lt_of_lt_of_le (by decide) h.large
  refine ⟨Nat.digits_lt_base hone (m := n) ?_, fun d hd => Nat.digits_lt_base hone (m := n) ?_⟩
  · rw [hdigits]
    exact List.mem_append_right _ (List.mem_singleton_self top)
  · rw [hdigits]
    exact List.mem_append_left _ (List.mem_reverse.mpr hd)

/-! ## Reading back -/

/-- The parser reads a text of blocks that fit a word as the digits they denote, in
the base of the blocks. -/
theorem ofText_of_words (h : Blocking radix chars power) {text : List Char}
    (hblocks : ∀ block ∈ blocks chars text,
      IsNumeral radix block ∧ value radix block < 2 ^ 64) :
    ofText radix text = some (ofNat (Nat.ofDigits (blockBase power)
      ((blocks chars text).map (value radix)))) := by
  have hradix : 0 < radix := Nat.lt_trans Nat.zero_lt_one h.one_lt
  have hwords : (blocks chars text).mapM (Word.ofText radix) =
      some ((blocks chars text).map fun block => UInt64.ofNat (value radix block)) :=
    mapM_eq_map fun block hmem =>
      Word.ofText_eq hradix (hblocks block hmem).1 (hblocks block hmem).2
  have hvalues : ((blocks chars text).map fun block => UInt64.ofNat (value radix block)).map
      UInt64.toNat = (blocks chars text).map (value radix) := by
    rw [List.map_map]
    refine List.map_congr_left fun block hmem => ?_
    rw [Function.comp_apply, UInt64.toNat_ofNat', Nat.mod_eq_of_lt (hblocks block hmem).2]
  have hnumber : ∀ words : List Word, (ofChunks power words).toNat =
      Nat.ofDigits (blockBase power) (words.map UInt64.toNat) := by
    intro words
    unfold ofChunks blockBase
    split
    · exact toNat_ofWords words
    · rw [toNat_foldl, toNat_zero, foldl_eq_ofDigits_reverse, ← List.map_reverse,
        List.reverse_reverse]
  rw [ofText, h.charsPerWord]
  simp only
  have hchunks := chunkWords_eq radix chars text.reverse []
  rw [List.length_nil, ← blocks, hwords] at hchunks
  rw [hchunks, Option.map_some]
  refine congrArg some (eq_ofNat ?_)
  rw [← hvalues]
  exact hnumber _

/-- What was printed is read back. -/
theorem ofText_textIn (h : Blocking radix chars power) (hradix : radix ≤ 36)
    (uppercase : Bool) (v : BigUInt) : ofText radix (v.textIn radix uppercase) = some v := by
  have halphabet := Word.alphabet hradix uppercase
  by_cases hv : 0 < v.toNat
  · obtain ⟨top, lower, hdigits, htext⟩ := textIn_eq h uppercase hv
    obtain ⟨htop, hlower⟩ := digit_lt h hdigits
    have hblocks := blocks_join halphabet h.one_lt h.chars_pos
      (Nat.lt_of_lt_of_le htop h.base_le)
      (fun d hd => Nat.lt_of_lt_of_le (hlower d hd) h.base_le)
    have hvalues : (blocks chars (join (Word.digitChar uppercase) radix chars top lower)).map
        (value radix) = lower.reverse ++ [top] := by
      rw [hblocks, List.map_append, List.map_map, List.map_singleton,
        value_numeral halphabet h.one_lt]
      congr 1
      refine (List.map_congr_left fun d _ => ?_).trans (List.map_id _)
      exact value_padded halphabet h.one_lt chars d
    rw [htext, ofText_of_words h, hvalues, ← hdigits, Nat.ofDigits_digits, ofNat_toNat]
    intro block hmem
    rw [hblocks] at hmem
    have hword := blockBase_le power
    rcases List.mem_append.mp hmem with hmem | hmem
    · obtain ⟨d, hd, rfl⟩ := List.mem_map.mp hmem
      refine ⟨isNumeral_padded halphabet h.one_lt chars d, ?_⟩
      rw [value_padded halphabet h.one_lt]
      exact Nat.lt_of_lt_of_le (hlower d (List.mem_reverse.mp hd)) hword
    · rw [List.mem_singleton.mp hmem]
      refine ⟨isNumeral_numeral halphabet h.one_lt top, ?_⟩
      rw [value_numeral halphabet h.one_lt]
      exact Nat.lt_of_lt_of_le htop hword
  · have hzero : v.toNat = 0 := Nat.eq_zero_of_not_pos hv
    have hblocks : blocks chars (numeral (Word.digitChar uppercase) radix 0) =
        [numeral (Word.digitChar uppercase) radix 0] :=
      blocks_short (isNumeral_numeral halphabet h.one_lt 0).1
        (length_numeral_le h.chars_pos h.one_lt
          (Nat.pow_pos (Nat.lt_trans Nat.zero_lt_one h.one_lt)))
    have hone : value radix (numeral (Word.digitChar uppercase) radix 0) = 0 :=
      value_numeral halphabet h.one_lt 0
    rw [textIn_zero radix uppercase hzero, ofText_of_words h, hblocks, List.map_singleton, hone,
      Nat.ofDigits_singleton, ← hzero, ofNat_toNat]
    intro block hmem
    rw [hblocks] at hmem
    rw [List.mem_singleton.mp hmem, hone]
    exact ⟨isNumeral_numeral halphabet h.one_lt 0, by decide⟩

/-! ## What the text denotes -/

/-- The text denotes the number whose digits in base `radix ^ chars` are the number's
digits in the base of the blocks. -/
theorem value_textIn (h : Blocking radix chars power) (hradix : radix ≤ 36)
    (uppercase : Bool) (v : BigUInt) :
    value radix (v.textIn radix uppercase) =
      Nat.ofDigits (radix ^ chars) (Nat.digits (blockBase power) v.toNat) := by
  have halphabet := Word.alphabet hradix uppercase
  by_cases hv : 0 < v.toNat
  · obtain ⟨top, lower, hdigits, htext⟩ := textIn_eq h uppercase hv
    obtain ⟨htop, hlower⟩ := digit_lt h hdigits
    rw [htext, hdigits]
    exact value_join halphabet h.one_lt h.chars_pos (Nat.lt_of_lt_of_le htop h.base_le)
      fun d hd => Nat.lt_of_lt_of_le (hlower d hd) h.base_le
  · have hzero : v.toNat = 0 := Nat.eq_zero_of_not_pos hv
    rw [textIn_zero radix uppercase hzero, value_numeral halphabet h.one_lt, hzero,
      Nat.digits_zero, Nat.ofDigits_nil]

/-- It denotes the number itself if the base is the right one, or for a number below
the base. -/
theorem value_textIn_eq_iff (h : Blocking radix chars power) (hradix : radix ≤ 36)
    (uppercase : Bool) (v : BigUInt) :
    value radix (v.textIn radix uppercase) = v.toNat ↔
      radix ^ chars = blockBase power ∨ v.toNat < blockBase power := by
  rw [value_textIn h hradix]
  have hone : 1 < blockBase power := Nat.lt_of_lt_of_le (by decide) h.large
  constructor
  · intro heq
    by_contra hnot
    rw [not_or, Nat.not_lt] at hnot
    obtain ⟨hne, hle⟩ := hnot
    have hlt : blockBase power < radix ^ chars := Nat.lt_of_le_of_ne h.base_le (Ne.symm hne)
    have hpos : 0 < v.toNat := Nat.lt_of_lt_of_le (by omega) hle
    have hless := ofDigits_lt_ofDigits hlt (d := v.toNat % blockBase power)
      (l := Nat.digits (blockBase power) (v.toNat / blockBase power))
      (by
        rw [Nat.ofDigits_digits]
        exact Nat.ne_of_gt (Nat.div_pos hle (by omega)))
    rw [← Nat.digits_def' hone hpos, Nat.ofDigits_digits, heq] at hless
    exact Nat.lt_irrefl _ hless
  · rintro (heq | hlt)
    · rw [heq, Nat.ofDigits_digits]
    · by_cases hzero : v.toNat = 0
      · rw [hzero, Nat.digits_zero, Nat.ofDigits_nil]
      · rw [Nat.digits_of_lt _ _ hzero hlt, Nat.ofDigits_singleton]

/-- The printed text is a numeral. -/
theorem isNumeral_textIn (h : Blocking radix chars power) (hradix : radix ≤ 36)
    (uppercase : Bool) (v : BigUInt) : IsNumeral radix (v.textIn radix uppercase) := by
  have halphabet := Word.alphabet hradix uppercase
  by_cases hv : 0 < v.toNat
  · obtain ⟨top, lower, -, htext⟩ := textIn_eq h uppercase hv
    obtain ⟨hne, htop⟩ := isNumeral_numeral halphabet h.one_lt top
    rw [htext, join]
    refine ⟨fun hnil => hne (List.append_eq_nil_iff.mp hnil).1, fun c hc => ?_⟩
    rcases List.mem_append.mp hc with hc | hc
    · exact htop c hc
    · obtain ⟨d, -, hc⟩ := List.mem_flatMap.mp hc
      exact (isNumeral_padded halphabet h.one_lt chars d).2 c hc
  · rw [textIn_zero radix uppercase (Nat.eq_zero_of_not_pos hv)]
    exact isNumeral_numeral halphabet h.one_lt 0

end Blocked

/-! ## Lower case up to radix 16 -/

theorem numeral_eq_toDigits {radix : Nat} (hlow : 1 < radix) (hhigh : radix ≤ 16) (n : Nat) :
    numeral (Word.digitChar false) radix n = Nat.toDigits radix n := by
  have hdigit : ∀ d < 16, Word.digitChar false d = d.digitChar := by decide
  induction n using Nat.strongRecOn with
  | ind n ih =>
      by_cases hlt : n < radix
      · rw [Nat.toDigits_of_lt_base hlt, numeral, hdigit 0 (by decide)]
        split
        · rename_i hzero
          rw [hzero]
        · rename_i hzero
          rw [Nat.digits_of_lt _ _ hzero hlt, List.reverse_singleton, List.map_singleton,
            hdigit n (by omega)]
      · have hle := Nat.le_of_not_lt hlt
        have hpos : 0 < n / radix := Nat.div_pos hle (by omega)
        have hless : n / radix < n := Nat.div_lt_self (by omega) hlow
        have hmod : n % radix < radix := Nat.mod_lt n (by omega)
        rw [Nat.toDigits_of_base_le hlow hle, ← ih _ hless, numeral, numeral,
          if_neg (by omega), if_neg (Nat.ne_of_gt hpos), Nat.digits_def' hlow (by omega),
          List.reverse_cons, List.map_append, List.map_singleton, hdigit _ (by omega)]

/-- The lower-case printer of these radixes is `text`. -/
theorem textIn_eq_text {radix : Nat} (hlow : 1 < radix) (hhigh : radix ≤ 16) (v : BigUInt) :
    v.textIn radix false = v.text radix := by
  have hword : Word.textIn radix false = Word.text radix := by
    funext w
    exact numeral_eq_toDigits hlow hhigh w.toNat
  have hremainders : ∀ (power : Word) (fuel : Nat) (v : BigUInt),
      (remainders power fuel v).map (Word.text radix) = remainderTexts radix power fuel v := by
    intro power fuel
    induction fuel with
    | zero => intro v; rfl
    | succ fuel ih =>
        intro v
        rw [remainders, remainderTexts]
        split
        · rfl
        · simp only
          rw [List.map_cons, ih]
  unfold textIn text
  simp only [hword]
  split
  · rfl
  · split
    · rfl
    · rw [hremainders]

end BigUInt

namespace BigInt

open BigUInt

/-! ## Signed numbers -/

/-- `String.init(_:radix:uppercase:)` of a signed big integer. -/
def textIn (radix : Nat) (uppercase : Bool) (value : BigInt) : List Char :=
  if value.sign = .minus then '-' :: value.magnitude.textIn radix uppercase
  else value.magnitude.textIn radix uppercase

theorem leadingSign_of_isNumeral {radix : Nat} {text : List Char} (h : IsNumeral radix text) :
    leadingSign text = .plus := by
  unfold leadingSign
  split
  · rename_i rest
    exact absurd (h.2 '-' List.mem_cons_self) (Word.not_isDigit_minus radix)
  · rfl

/-- What was printed is read back with its sign, a minus sign on zero included. -/
theorem ofText_textIn {radix chars : Nat} {power : Word} (h : Blocking radix chars power)
    (hradix : radix ≤ 36) (uppercase : Bool) (a : BigInt) :
    ofText radix (a.textIn radix uppercase) = some a := by
  obtain ⟨x, sign⟩ := a
  have hnumeral := BigUInt.isNumeral_textIn h hradix uppercase x
  have hback := BigUInt.ofText_textIn h hradix uppercase x
  unfold textIn
  cases sign with
  | minus =>
      rw [if_pos rfl, ofText, hback]
      rfl
  | plus =>
      rw [if_neg (fun hsign => nomatch hsign), ofText_eq_map, dropSign_of_isNumeral hnumeral, hback,
        leadingSign_of_isNumeral hnumeral]
      rfl

/-- Text in any radix, with letters of either case, is read back as the number it was
printed from. -/
theorem printed_is_read {radix : Nat} (hlow : 2 ≤ radix) (hhigh : radix ≤ 36)
    (uppercase : Bool) (a : BigInt) : ofText radix (a.textIn radix uppercase) = some a := by
  obtain ⟨chars, power, hblocking, -⟩ := exists_blocking hlow hhigh
  exact ofText_textIn hblocking hhigh uppercase a

theorem printed_is_read_base36 :
    ofText 36 (textIn 36 true (ofSign .minus (.ofWords [7, 1]))) =
      some (ofSign .minus (.ofWords [7, 1])) :=
  printed_is_read (by decide) (by decide) true _

/-- The text is a numeral of the radix, and it denotes the number it was printed from;
in octal and in base 32 that holds of numbers of one word only. -/
theorem printed_denotes {radix : Nat} (hlow : 2 ≤ radix) (hhigh : radix ≤ 36)
    (uppercase : Bool) (v : BigUInt) :
    IsNumeral radix (v.textIn radix uppercase) ∧
      (value radix (v.textIn radix uppercase) = v.toNat ↔
        (radix ≠ 8 ∧ radix ≠ 32) ∨ v.toNat < 2 ^ 64) := by
  obtain ⟨chars, power, hblocking, hexact, hbase⟩ := exists_blocking hlow hhigh
  refine ⟨isNumeral_textIn hblocking hhigh uppercase v, ?_⟩
  rw [value_textIn_eq_iff hblocking hhigh, hexact]
  by_cases hradix : radix ≠ 8 ∧ radix ≠ 32
  · exact ⟨fun _ => .inl hradix, fun _ => .inl hradix⟩
  · rw [hbase.resolve_left fun h => hradix (hexact.mp h)]

theorem printed_denotes_octal :
    IsNumeral 8 ((BigUInt.ofWords [7, 1]).textIn 8 false) ∧
      (value 8 ((BigUInt.ofWords [7, 1]).textIn 8 false) = (BigUInt.ofWords [7, 1]).toNat ↔
        (8 ≠ 8 ∧ 8 ≠ 32) ∨ (BigUInt.ofWords [7, 1]).toNat < 2 ^ 64) :=
  printed_denotes (by decide) (by decide) false _

end BigInt

end YieldMe

/-
  BigInt.lean --- the part of the vendored BigInt package the app calls.

  The app turns texts into numbers and numbers into texts with `BigInt`: the
  World ID fields go from hexadecimal to decimal, and the deposit amount is
  parsed, scaled and printed.  This file embeds that path: chunked parsing,
  multiplication and division by one word, and chunked printing.

  A `BigUInt` is the little-endian list of its words without leading zero words;
  the storage variants of the package (`inline`, `slice`, `array`) hold the same
  words and are told apart in BigInt/Storage only.  A text is its list of
  characters.  Swift counts extended grapheme clusters where this file counts
  scalars; the two differ only on texts with a non-ASCII scalar or a line break,
  and every such text is rejected by the word parser under either count.

  Of `BigUInt.*` this file has the product by a one-word factor only: the app
  multiplies by `BigInt(100000000000000000)` and by nothing else.  The general
  product and the rest of the package are in the modules of BigInt.
-/
import Mathlib.Algebra.Group.Nat.Defs
import Mathlib.Data.List.DropRight

set_option autoImplicit false

namespace YieldMe

/-! ## One word -/

/-- `BigUInt.Word`, the platform's `UInt`. -/
abbrev Word := UInt64

namespace Word

/-- `multipliedFullWidth(by:)`: the high and the low word of a product. -/
def multipliedFullWidth (x y : Word) : Word × Word :=
  (UInt64.ofNat (x.toNat * y.toNat / 2 ^ 64), UInt64.ofNat (x.toNat * y.toNat))

/-- `multipliedReportingOverflow(by:)`. -/
def multipliedReportingOverflow (x y : Word) : Word × Bool :=
  (x * y, decide (2 ^ 64 ≤ x.toNat * y.toNat))

/-- `addingReportingOverflow(_:)`. -/
def addingReportingOverflow (x y : Word) : Word × Bool :=
  (x + y, decide (2 ^ 64 ≤ x.toNat + y.toNat))

/-- `leadingZeroBitCount`. -/
def leadingZeroBitCount (x : Word) : Nat :=
  if x = 0 then 64 else 63 - x.toNat.log2

/-- The upper half of a word. -/
def high (x : Word) : Word := x >>> 32

/-- The lower half of a word. -/
def low (x : Word) : Word := x &&& 0xFFFFFFFF

/-- The lower half of a word, moved to the upper half. -/
def upshifted (x : Word) : Word := x <<< 32

/-- The nested function `quotient(dividing:by:)` of `fastDividingFullWidth`: the
half-word quotient of three half-words by a normalized divisor. -/
def quotient (u : Word × Word) (vn : Word) : Word :=
  let (uHigh, uLow) := u
  let (vn1, vn0) := (vn.high, vn.low)
  let (q, r) := (uHigh / vn1, uHigh % vn1)
  let p := q * vn0
  if q.high = 0 ∧ p ≤ r.upshifted + uLow then q
  else
    let r2 := r + vn1
    if r2.high ≠ 0 then q - 1
    else if (q - 1).high = 0 ∧ p - vn0 ≤ r2.upshifted + uLow then q - 1
    else q - 2

/-- The nested function `quotientAndRemainder(dividing:by:)`. -/
def quotientAndRemainder (u : Word × Word) (v : Word) : Word × Word :=
  let q := quotient u v
  (q, (u.1.upshifted + u.2) - q * v)

/-- `fastDividingFullWidth(_:)`: the quotient and the remainder of a two-word
dividend by one word, with `dividend.high < y`. -/
def fastDividingFullWidth (y : Word) (dividend : Word × Word) : Word × Word :=
  let (dividendHigh, dividendLow) := dividend
  let z := UInt64.ofNat y.leadingZeroBitCount
  let w := 64 - z
  let vn := y <<< z
  let un32 :=
    if z = 0 then dividendHigh else (dividendHigh <<< z) ||| (dividendLow >>> w)
  let un10 := dividendLow <<< z
  let (un1, un0) := (un10.high, un10.low)
  let (q1, un21) := quotientAndRemainder (un32, un1) vn
  let (q0, rn) := quotientAndRemainder (un21, un0) vn
  (q1.upshifted + q0, rn >>> z)

/-- The value of a numeral character, when it is one in this radix. -/
def numeral? (radix : Nat) (c : Char) : Option Nat :=
  let value :=
    if '0' ≤ c ∧ c ≤ '9' then some (c.toNat - '0'.toNat)
    else if 'a' ≤ c ∧ c ≤ 'z' then some (c.toNat - 'a'.toNat + 10)
    else if 'A' ≤ c ∧ c ≤ 'Z' then some (c.toNat - 'A'.toNat + 10)
    else none
  value.filter (· < radix)

/-- Numerals read from the left onto a value, as long as it fits in a word. -/
def readNumerals (radix : Nat) : Nat → List Char → Option Nat
  | value, [] => some value
  | value, c :: rest =>
      (numeral? radix c).bind fun d =>
        let value' := value * radix + d
        if value' < 2 ^ 64 then readNumerals radix value' rest else none

/-- At least one numeral. -/
def readNumeral (radix : Nat) (text : List Char) : Option Nat :=
  if text.isEmpty then none else readNumerals radix 0 text

/-- `UInt.init?(_:radix:)`: an optional sign, then at least one numeral.  A minus
sign is accepted in front of zero only. -/
def ofText (radix : Nat) : List Char → Option Word
  | '+' :: numerals => (readNumeral radix numerals).map UInt64.ofNat
  | '-' :: numerals =>
      ((readNumeral radix numerals).filter (· = 0)).map UInt64.ofNat
  | numerals => (readNumeral radix numerals).map UInt64.ofNat

/-- `String(_:radix:)` of one word. -/
def text (radix : Nat) (x : Word) : List Char := Nat.toDigits radix x.toNat

end Word

/-! ## Unsigned big integers -/

/-- An unsigned big integer: its words from the least significant one on, with
no zero word at the top. -/
structure BigUInt where
  words : List Word
  normalized : words.getLast? ≠ some 0
  deriving DecidableEq

namespace BigUInt

/-- `normalize()`: the zero words at the top are dropped. -/
def normalize (words : List Word) : List Word := words.rdropWhile (· = 0)

theorem normalize_getLast? (words : List Word) :
    (normalize words).getLast? ≠ some 0 := by
  intro h
  have hne : normalize words ≠ [] := by
    intro hnil
    simp [hnil] at h
  have hlast : (normalize words).getLast hne = 0 := by
    rw [List.getLast?_eq_some_getLast hne] at h
    exact Option.some.inj h
  have hnot := List.rdropWhile_last_not (fun w : Word => decide (w = 0)) words hne
  exact hnot (by simpa [normalize] using hlast)

/-- `init(words:)`. -/
def ofWords (words : List Word) : BigUInt := ⟨normalize words, normalize_getLast? words⟩

/-- `init()`. -/
def zero : BigUInt := ⟨[], by simp⟩

/-- `isZero`. -/
def isZero (x : BigUInt) : Bool := x.words.isEmpty

/-- The loop of `multiply(byWord:)`: the product words from here on, the carry
last. -/
def multiplyWords (y : Word) : Word → List Word → List Word
  | carry, [] => [carry]
  | carry, x :: rest =>
      let (h, l) := x.multipliedFullWidth y
      let (low, o) := l.addingReportingOverflow carry
      low :: multiplyWords y (if o then h + 1 else h) rest

/-- `multiply(byWord:)`. -/
def multiply (x : BigUInt) (y : Word) : BigUInt :=
  if y = 0 then zero
  else if y = 1 then x
  else ofWords (multiplyWords y 0 x.words)

/-- The loop of `addWord(_:)`. -/
def addWords : Word → List Word → List Word
  | carry, [] => if carry = 0 then [] else [carry]
  | carry, x :: rest =>
      if carry = 0 then x :: rest
      else
        let (d, c) := x.addingReportingOverflow carry
        d :: addWords (if c then 1 else 0) rest

/-- `addWord(_:)`. -/
def addWord (x : BigUInt) (word : Word) : BigUInt := ofWords (addWords word x.words)

/-- The loop of `divide(byWord:)`, from the top word down: the quotient words
and the remainder. -/
def divideWords (y : Word) : List Word → List Word × Word
  | [] => ([], 0)
  | u :: higher =>
      let (quotients, remainder) := divideWords y higher
      let (q, r) := y.fastDividingFullWidth (remainder, u)
      (q :: quotients, r)

/-- `divide(byWord:)`: the quotient and the remainder. -/
def divide (x : BigUInt) (y : Word) : BigUInt × Word :=
  if y = 1 then (x, 0)
  else
    let (quotients, remainder) := divideWords y x.words
    (ofWords quotients, remainder)

/-! ## Conversion from and to text -/

/-- The loop of `charsPerWord(forRadix:)`, at most `fuel` rounds. -/
def charsPerWordLoop (radix : Word) : Nat → Nat → Word → Nat × Word
  | 0, count, power => (count, power)
  | fuel + 1, count, power =>
      let (p, o) := power.multipliedReportingOverflow radix
      -- a product of zero counts, whether it is `2 ^ 64` or a multiple
      let (count', power') := if !o || p = 0 then (count + 1, p) else (count, power)
      if o then (count', power') else charsPerWordLoop radix fuel count' power'

/-- `charsPerWord(forRadix:)`.  The product at least doubles in every round, so
it overflows within 64 of them. -/
def charsPerWord (radix : Nat) : Nat × Word :=
  charsPerWordLoop (UInt64.ofNat radix) 64 0 1

/-- The chunk loop of `init?(_:radix:)` over the text read from its right end:
the words of the chunks, least significant first. -/
def chunkWords (radix chars : Nat) : List Char → List Char → Nat → Option (List Word)
  | [], chunk, _ =>
      if chunk.isEmpty then some [] else (Word.ofText radix chunk).map ([·])
  | c :: left, chunk, count =>
      if count + 1 = chars then
        (Word.ofText radix (c :: chunk)).bind fun d =>
          (chunkWords radix chars left [] 0).map (d :: ·)
      else chunkWords radix chars left (c :: chunk) (count + 1)

/-- `BigUInt.init?(_:radix:)`. -/
def ofText (radix : Nat) (text : List Char) : Option BigUInt :=
  let (chars, power) := charsPerWord radix
  (chunkWords radix chars text.reverse [] 0).map fun words =>
    if power = 0 then ofWords words
    else words.reverse.foldl (fun x d => (x.multiply power).addWord d) zero

/-- The division loop of `String.init(_:radix:uppercase:)`: the texts of the
remainders, least significant first.  Every division by the largest power of the
radix in a word takes away most of a word, so twice the number of words, and one
more, bounds the rounds. -/
def remainderTexts (radix : Nat) (power : Word) : Nat → BigUInt → List (List Char)
  | 0, _ => []
  | fuel + 1, rest =>
      if rest.isZero then []
      else
        let (rest', mod) := rest.divide power
        mod.text radix :: remainderTexts radix power fuel rest'

/-- The parts joined from the most significant one on, every part but the first
padded with zeroes to the width of a word. -/
def joinParts (chars : Nat) : List (List Char) → List Char
  | [] => []
  | first :: rest =>
      first ++ rest.flatMap fun part => List.replicate (chars - part.length) '0' ++ part

/-- `String.init(_:radix:)` of an unsigned big integer. -/
def text (radix : Nat) (v : BigUInt) : List Char :=
  let (chars, power) := charsPerWord radix
  if v.isZero then ['0']
  else
    let parts :=
      if power = 0 then v.words.map (Word.text radix)
      else remainderTexts radix power (2 * v.words.length + 1) v
    joinParts chars parts.reverse

end BigUInt

/-! ## Signed big integers -/

/-- `BigInt.Sign`. -/
inductive Sign where
  | plus
  | minus
  deriving DecidableEq, Repr

/-- A signed big integer.  The text parser can leave a minus sign on a zero
magnitude, so the pair carries no invariant. -/
structure BigInt where
  magnitude : BigUInt
  sign : Sign
  deriving DecidableEq

namespace BigInt

/-- `init(sign:magnitude:)`: a zero magnitude gets the plus sign. -/
def ofSign (sign : Sign) (magnitude : BigUInt) : BigInt :=
  ⟨magnitude, if magnitude.isZero then .plus else sign⟩

/-- `BigInt.init?(_:radix:)`. -/
def ofText (radix : Nat) : List Char → Option BigInt
  | '-' :: text => (BigUInt.ofText radix text).map fun m => ⟨m, .minus⟩
  | '+' :: text => (BigUInt.ofText radix text).map fun m => ⟨m, .plus⟩
  | text => (BigUInt.ofText radix text).map fun m => ⟨m, .plus⟩

/-- `a * BigInt(y)` for a word `y`: the one-word branch of `BigUInt.*`. -/
def timesWord (a : BigInt) (y : Word) : BigInt :=
  ofSign (if a.sign = .plus then .plus else .minus)
    (if a.magnitude.isZero then .zero else a.magnitude.multiply y)

/-- `String.init(_:radix:)` of a signed big integer. -/
def text (radix : Nat) (value : BigInt) : List Char :=
  if value.sign = .minus then '-' :: value.magnitude.text radix
  else value.magnitude.text radix

end BigInt

/-- `hexStringToDecimalString`. -/
def hexStringToDecimalString (hexString : String) : Option String :=
  let hex :=
    match hexString.toList with
    | '0' :: 'x' :: rest => rest
    | text => text
  (BigInt.ofText 16 hex).map fun bigInt => String.ofList (bigInt.text 10)

/-- The second parameter of a deposit,
`"\(BigInt(depositAmount)! * BigInt(100000000000000000))"`. -/
def depositParameter (depositAmount : String) : Option String :=
  (BigInt.ofText 10 depositAmount.toList).map fun amount =>
    String.ofList ((amount.timesWord 100000000000000000).text 10)

example : depositParameter "25" = some "2500000000000000000" := by decide

example : hexStringToDecimalString "0x123456789abcdef0123456789abcdef" =
    some "1512366075204170929049582354406559215" := by decide

end YieldMe

/-
  HexString.lean --- the World ID fields on their way into a request.

  `hexStringToDecimalString` is exact on every hexadecimal numeral.  What else it
  lets pass is decided by the blocks its text is parsed in: a sign is looked for
  at the start of the text and again at the start of every block, and a text
  without any block is zero.
-/
import YieldMe.BigInt.Conversion

set_option autoImplicit false

namespace YieldMe

open BigUInt Positional

/-- The text behind the optional `0x`. -/
def dropHexPrefix : List Char → List Char
  | '0' :: 'x' :: rest => rest
  | text => text

/-- An optional `0x` and at least one hexadecimal digit. -/
def IsHexNumeral (hexString : String) : Prop :=
  IsNumeral 16 (dropHexPrefix hexString.toList)

instance (hexString : String) : Decidable (IsHexNumeral hexString) :=
  inferInstanceAs (Decidable (IsNumeral _ _))

theorem hexStringToDecimalString_eq (hexString : String) :
    hexStringToDecimalString hexString =
      (BigInt.ofText 16 (dropHexPrefix hexString.toList)).map fun bigInt =>
        String.ofList (bigInt.text 10) :=
  rfl

/-! ## Numerals -/

theorem hexStringToDecimalString_of_dropHexPrefix {hexString : String} {text : List Char}
    (hdrop : dropHexPrefix hexString.toList = text) (htext : IsNumeral 16 text) :
    hexStringToDecimalString hexString = some (toString (value 16 text)) := by
  obtain ⟨x, hx, hvalue⟩ := BigInt.ofText_eq chunking_sixteen htext.2
  rw [hexStringToDecimalString_eq, hdrop, hx, Option.map_some, BigInt.text_plus chunking_ten,
    hvalue, Nat.toString_eq_ofList_toDigits]

/-- A numeral does not start with the prefix. -/
theorem dropHexPrefix_of_isNumeral {text : List Char} (h : IsNumeral 16 text) :
    dropHexPrefix text = text := by
  unfold dropHexPrefix
  split
  · have hx := h.2 'x' (List.mem_cons_of_mem _ List.mem_cons_self)
    exact absurd hx (by decide)
  · rfl

/-- A hexadecimal numeral, with the prefix or without it, becomes the canonical
decimal numeral of the number it denotes. -/
theorem hexStringToDecimalString_exact {h : String} (hh : IsNumeral 16 h.toList) :
    hexStringToDecimalString h = some (toString (value 16 h.toList)) ∧
      hexStringToDecimalString ("0x" ++ h) = some (toString (value 16 h.toList)) := by
  constructor
  · exact hexStringToDecimalString_of_dropHexPrefix (dropHexPrefix_of_isNumeral hh) hh
  · apply hexStringToDecimalString_of_dropHexPrefix _ hh
    rw [String.toList_append]
    rfl

theorem hexStringToDecimalString_exact_of_word_boundary :
    hexStringToDecimalString "10000000000000000" = some "18446744073709551616" ∧
      hexStringToDecimalString ("0x" ++ "10000000000000000") = some "18446744073709551616" := by
  have hvalue : toString (value 16 "10000000000000000".toList) = "18446744073709551616" := by
    decide
  have hexact := hexStringToDecimalString_exact (h := "10000000000000000") (by decide)
  rw [hvalue] at hexact
  exact hexact

/-! ## Everything else -/

/-- The function returns nil on a text that is no hexadecimal numeral. -/
def RejectsNonNumeral (hexString : String) : Prop :=
  ¬ IsHexNumeral hexString → hexStringToDecimalString hexString = none

/-- Some block of 16 characters, counted from the right end of the text behind
the prefix and one leading sign, is not what the word parser accepts: digits,
perhaps behind a plus sign, or zeros behind a minus sign. -/
def HasMalformedBlock (hexString : String) : Prop :=
  ∃ block ∈ blocks 16 (BigInt.dropSign (dropHexPrefix hexString.toList)),
    ¬ Word.IsWordText 16 block

theorem hexStringToDecimalString_eq_none_iff (hexString : String) :
    hexStringToDecimalString hexString = none ↔ HasMalformedBlock hexString := by
  rw [hexStringToDecimalString_eq, Option.map_eq_none_iff, ← Option.not_isSome_iff_eq_none,
    BigInt.ofText_isSome_iff chunking_sixteen, HasMalformedBlock]
  simp only [not_forall, exists_prop]

/-- The function rejects what is no numeral exactly when a block of it is
malformed. -/
theorem rejectsNonNumeral_iff (hexString : String) :
    RejectsNonNumeral hexString ↔ IsHexNumeral hexString ∨ HasMalformedBlock hexString := by
  rw [RejectsNonNumeral, hexStringToDecimalString_eq_none_iff]
  exact Decidable.or_iff_not_imp_left.symm

theorem not_always_rejectsNonNumeral : ¬ ∀ hexString, RejectsNonNumeral hexString := by
  intro hall
  have hnone : hexStringToDecimalString "-1" = none := hall "-1" (by decide)
  revert hnone
  decide

end YieldMe

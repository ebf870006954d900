/-
  Foundation/Numeral.lean --- printing with any digits, block by block.

  An alphabet gives every digit of a base a character.  A number is printed with its
  digits; a list of numbers is printed with every one but the first padded to a width.
  If the numbers fit the width, the blocks of the text are these numerals again, so
  the text can be read back, and it denotes the number whose digits in the base of the
  width are these numbers.  Nothing here says that a program takes them for digits of
  that base.
-/
import YieldMe.Foundation.Positional

set_option autoImplicit false

namespace Positional

/-! ## Alphabets and numerals -/

/-- The digits of a base have characters that are read as these digits. -/
structure Alphabet (base : Nat) (digit : Nat → Char) : Prop where
  isDigit : ∀ d < base, IsDigit base (digit d)
  value : ∀ d < base, digitValue (digit d) = d

/-- The numeral of a number. -/
def numeral (digit : Nat → Char) (base n : Nat) : List Char :=
  if n = 0 then [digit 0] else (Nat.digits base n).reverse.map digit

section Numerals

variable {base : Nat} {digit : Nat → Char}

theorem isNumeral_numeral (h : Alphabet base digit) (hbase : 1 < base) (n : Nat) :
    IsNumeral base (numeral digit base n) := by
  unfold numeral
  by_cases hn : n = 0
  · rw [if_pos hn]
    refine ⟨List.cons_ne_nil _ _, ?_⟩
    intro c hc
    rw [List.mem_singleton.mp hc]
    exact h.isDigit 0 (by omega)
  · rw [if_neg hn]
    refine ⟨?_, ?_⟩
    · simpa using Nat.digits_ne_nil_iff_ne_zero.mpr hn
    · intro c hc
      obtain ⟨d, hd, rfl⟩ := List.mem_map.mp hc
      exact h.isDigit d (Nat.digits_lt_base hbase (List.mem_reverse.mp hd))

/-- A text of characters of an alphabet denotes the number of their digits. -/
theorem value_map (h : Alphabet base digit) {digits : List Nat} (hlt : ∀ d ∈ digits, d < base) :
    value base (digits.map digit) = Nat.ofDigits base digits.reverse := by
  induction digits with
  | nil => rfl
  | cons d rest ih =>
      rw [List.map_cons, value_cons, h.value d (hlt d List.mem_cons_self), List.length_map,
        ih fun e he => hlt e (List.mem_cons_of_mem d he), List.reverse_cons,
        Nat.ofDigits_append, List.length_reverse, Nat.ofDigits_singleton]
      ring

theorem value_numeral (h : Alphabet base digit) (hbase : 1 < base) (n : Nat) :
    value base (numeral digit base n) = n := by
  unfold numeral
  by_cases hn : n = 0
  · rw [if_pos hn, value_cons, h.value 0 (by omega), value_nil, hn, Nat.zero_mul]
  · rw [if_neg hn, value_map h, List.reverse_reverse, Nat.ofDigits_digits]
    intro d hd
    exact Nat.digits_lt_base hbase (List.mem_reverse.mp hd)

theorem length_numeral_le {k : Nat} (hk : 0 < k) (hbase : 1 < base) {n : Nat}
    (hn : n < base ^ k) : (numeral digit base n).length ≤ k := by
  unfold numeral
  by_cases hzero : n = 0
  · rw [if_pos hzero]
    exact hk
  · rw [if_neg hzero, List.length_map, List.length_reverse]
    exact (Nat.digits_length_le_iff hbase n).mpr hn

/-! ## Padding -/

/-- The numeral of a number, padded with zeroes to a width. -/
def padded (digit : Nat → Char) (base k n : Nat) : List Char :=
  List.replicate (k - (numeral digit base n).length) '0' ++ numeral digit base n

theorem length_padded {k : Nat} (hk : 0 < k) (hbase : 1 < base) {n : Nat} (hn : n < base ^ k) :
    (padded digit base k n).length = k := by
  have hle : (numeral digit base n).length ≤ k := length_numeral_le hk hbase hn
  rw [padded, List.length_append, List.length_replicate]
  omega

theorem isDigit_zero (hbase : 1 < base) : IsDigit base '0' :=
  ⟨rfl, Nat.lt_of_le_of_lt (Nat.zero_le 0) (by omega : 0 < base)⟩

theorem isNumeral_padded (h : Alphabet base digit) (hbase : 1 < base) (k n : Nat) :
    IsNumeral base (padded digit base k n) := by
  obtain ⟨hne, hdigits⟩ := isNumeral_numeral h hbase n
  refine ⟨fun hnil => hne (List.append_eq_nil_iff.mp hnil).2, fun c hc => ?_⟩
  rcases List.mem_append.mp hc with hc | hc
  · rw [List.eq_of_mem_replicate hc]
    exact isDigit_zero hbase
  · exact hdigits c hc

/-- Padding does not change the number. -/
theorem value_padded (h : Alphabet base digit) (hbase : 1 < base) (k n : Nat) :
    value base (padded digit base k n) = n := by
  rw [padded]
  generalize k - (numeral digit base n).length = zeroes
  induction zeroes with
  | zero => exact value_numeral h hbase n
  | succ zeroes ih =>
      rw [List.replicate_succ, List.cons_append, value_cons, ih]
      have hzero : digitValue '0' = 0 := rfl
      rw [hzero, Nat.zero_mul, Nat.zero_add]

end Numerals

/-! ## Blocks of a text put together from blocks -/

theorem blocksFrom_append {α : Type} {k : Nat} (left : List α) :
    ∀ {right block : List α}, right ≠ [] → right.length + block.length = k →
      blocksFrom k (right ++ left) block = (right.reverse ++ block) :: blocksFrom k left [] := by
  intro right
  induction right with
  | nil => exact fun h => absurd rfl h
  | cons c rest ih =>
      intro block _ hlength
      rw [List.cons_append, blocksFrom]
      rw [List.length_cons] at hlength
      cases rest with
      | nil =>
          rw [if_pos (by rw [List.length_nil] at hlength; omega)]
          rfl
      | cons d rest =>
          rw [List.length_cons] at hlength
          rw [if_neg (by omega), ih (List.cons_ne_nil d rest)
            (by rw [List.length_cons, List.length_cons]; omega)]
          simp

/-- A last block of full width is a block of its own. -/
theorem blocks_append {α : Type} {k : Nat} (hk : 0 < k) (text : List α) {block : List α}
    (h : block.length = k) : blocks k (text ++ block) = block :: blocks k text := by
  have hne : block.reverse ≠ [] := by
    intro hnil
    rw [List.reverse_eq_nil_iff.mp hnil, List.length_nil] at h
    omega
  rw [blocks, List.reverse_append, blocksFrom_append text.reverse hne
    (by rw [List.length_reverse, List.length_nil, h, Nat.add_zero]), List.reverse_reverse,
    List.append_nil, blocks]

theorem blocksFrom_short {α : Type} {k : Nat} :
    ∀ {right block : List α}, right ++ block ≠ [] → right.length + block.length < k →
      blocksFrom k right block = [right.reverse ++ block] := by
  intro right
  induction right with
  | nil =>
      intro block hne _
      cases block with
      | nil => exact absurd rfl hne
      | cons c block => rfl
  | cons c rest ih =>
      intro block _ hlength
      rw [List.length_cons] at hlength
      rw [blocksFrom, if_neg (by omega), ih (by simp) (by rw [List.length_cons]; omega)]
      simp

/-- A text that fits the width is one block. -/
theorem blocks_short {α : Type} {k : Nat} {text : List α} (hne : text ≠ [])
    (h : text.length ≤ k) : blocks k text = [text] := by
  rcases Nat.lt_or_eq_of_le h with hlt | heq
  · rw [blocks, blocksFrom_short (by simpa using hne)
      (by rw [List.length_reverse, List.length_nil]; omega), List.reverse_reverse,
      List.append_nil]
  · have hk : 0 < k := by
      rw [← heq]
      exact List.length_pos_of_ne_nil hne
    have hblocks := blocks_append hk [] heq
    rwa [List.nil_append] at hblocks

/-! ## Printing block by block -/

section Join

variable {base : Nat} {digit : Nat → Char}

/-- Numbers printed one after the other, every one but the first padded. -/
def join (digit : Nat → Char) (base k : Nat) (top : Nat) (lower : List Nat) : List Char :=
  numeral digit base top ++ lower.flatMap (padded digit base k)

/-- The blocks of the text are the numerals it was put together from. -/
theorem blocks_join (h : Alphabet base digit) (hbase : 1 < base) {k : Nat} (hk : 0 < k)
    {top : Nat} (htop : top < base ^ k) {lower : List Nat} (hlower : ∀ d ∈ lower, d < base ^ k) :
    blocks k (join digit base k top lower) =
      lower.reverse.map (padded digit base k) ++ [numeral digit base top] := by
  induction lower using List.reverseRecOn with
  | nil =>
      rw [join, List.flatMap_nil, List.append_nil, blocks_short (isNumeral_numeral h hbase top).1
        (length_numeral_le hk hbase htop)]
      rfl
  | append_singleton lower d ih =>
      have hjoin : join digit base k top (lower ++ [d]) =
          join digit base k top lower ++ padded digit base k d := by
        rw [join, join, List.flatMap_append, List.flatMap_singleton, List.append_assoc]
      have hd := hlower d (List.mem_append_right _ (List.mem_singleton_self d))
      rw [hjoin, blocks_append hk _ (length_padded hk hbase hd),
        ih fun e he => hlower e (List.mem_append_left _ he), List.reverse_append,
        List.reverse_singleton, List.singleton_append, List.map_cons, List.cons_append]

/-- The text denotes the number whose digits in base `base ^ k` are the numbers
printed. -/
theorem value_join (h : Alphabet base digit) (hbase : 1 < base) {k : Nat} (hk : 0 < k)
    {top : Nat} (htop : top < base ^ k) {lower : List Nat} (hlower : ∀ d ∈ lower, d < base ^ k) :
    value base (join digit base k top lower) =
      Nat.ofDigits (base ^ k) (lower.reverse ++ [top]) := by
  rw [value_eq_ofDigits_blocks base k, blocks_join h hbase hk htop hlower, List.map_append,
    List.map_map, List.map_singleton, value_numeral h hbase]
  congr 2
  refine (List.map_congr_left fun d _ => ?_).trans (List.map_id _)
  exact value_padded h hbase k d

end Join

/-- Digits denote more in a larger base, unless there is one digit only. -/
theorem ofDigits_lt_ofDigits {b c : Nat} (hbc : b < c) {d : Nat} {l : List Nat}
    (hhigh : Nat.ofDigits b l ≠ 0) :
    Nat.ofDigits b (d :: l) < Nat.ofDigits c (d :: l) := by
  have hle : Nat.ofDigits b l ≤ Nat.ofDigits c l :=
    Nat.ofDigits_monotone l (Nat.le_of_lt hbc)
  have hlt : b * Nat.ofDigits b l < c * Nat.ofDigits b l :=
    Nat.mul_lt_mul_of_pos_right hbc (Nat.pos_of_ne_zero hhigh)
  have hmul : c * Nat.ofDigits b l ≤ c * Nat.ofDigits c l := Nat.mul_le_mul_left c hle
  rw [Nat.ofDigits_cons, Nat.ofDigits_cons]
  omega

end Positional

/-
  Foundation/Positional.lean --- positional numerals, and working on them in
  blocks.

  A numeral in base `base` is a non-empty text of digits, most significant first.
  A program that computes with machine words reads such a text in blocks of `k`
  digits, counted from its right end, and so works in base `base ^ k`; and it
  prints a number by printing its digits in base `base ^ k`, every one but the
  first padded to width `k`.  The two results here say that neither changes the
  number: `value_eq_ofDigits_blocks` for reading and `toDigits_eq_join` for
  printing.
-/
import Mathlib.Data.Nat.Digits.Lemmas

set_option autoImplicit false

namespace Positional

/-! ## Numerals -/

/-- The value of an ASCII digit: the decimal digits, then the letters of either
case. -/
def digitValue (c : Char) : Nat :=
  if c.isDigit then c.toNat - '0'.toNat
  else if c.isLower then c.toNat - 'a'.toNat + 10
  else c.toNat - 'A'.toNat + 10

/-- A digit of base `base`. -/
def IsDigit (base : Nat) (c : Char) : Prop :=
  c.isAlphanum = true ∧ digitValue c < base

instance (base : Nat) (c : Char) : Decidable (IsDigit base c) :=
  inferInstanceAs (Decidable (_ ∧ _))

/-- At least one digit, and nothing else. -/
def IsNumeral (base : Nat) (text : List Char) : Prop :=
  text ≠ [] ∧ ∀ c ∈ text, IsDigit base c

instance (base : Nat) (text : List Char) : Decidable (IsNumeral base text) :=
  @instDecidableAnd _ _ inferInstance (List.decidableBAll _ _)

/-- The number a text of digits denotes. -/
def value (base : Nat) (text : List Char) : Nat :=
  text.foldl (fun n c => n * base + digitValue c) 0

@[simp] theorem value_nil (base : Nat) : value base [] = 0 := rfl

theorem foldl_value (base : Nat) (text : List Char) :
    ∀ n, text.foldl (fun n c => n * base + digitValue c) n =
      n * base ^ text.length + value base text := by
  induction text with
  | nil => intro n; simp
  | cons c rest ih =>
      intro n
      have hvalue : value base (c :: rest) =
          digitValue c * base ^ rest.length + value base rest := by
        rw [value, List.foldl_cons, ih, Nat.zero_mul, Nat.zero_add]
      rw [List.foldl_cons, ih, hvalue, List.length_cons, pow_succ]
      ring

theorem value_cons (base : Nat) (c : Char) (text : List Char) :
    value base (c :: text) = digitValue c * base ^ text.length + value base text := by
  rw [value, List.foldl_cons, foldl_value, Nat.zero_mul, Nat.zero_add]

theorem value_append (base : Nat) (left right : List Char) :
    value base (left ++ right) =
      value base left * base ^ right.length + value base right := by
  rw [value, List.foldl_append, foldl_value]
  rfl

/-- A text of digits denotes less than the power of its length. -/
theorem value_lt {base : Nat} {text : List Char} (h : ∀ c ∈ text, IsDigit base c) :
    value base text < base ^ text.length := by
  induction text with
  | nil => simp
  | cons c rest ih =>
      have hrest := ih fun d hd => h d (List.mem_cons_of_mem c hd)
      have hdigit : digitValue c + 1 ≤ base := (h c List.mem_cons_self).2
      have hle := Nat.mul_le_mul_right (base ^ rest.length) hdigit
      rw [value_cons, List.length_cons, pow_succ, Nat.mul_comm (base ^ rest.length)]
      rw [Nat.add_mul, Nat.one_mul] at hle
      omega

/-! ## Blocks -/

section Blocks

variable {α : Type}

/-- The blocks of a text whose part to the left is read from its right end, with
`block` the block at hand. -/
def blocksFrom (k : Nat) : List α → List α → List (List α)
  | [], [] => []
  | [], block => [block]
  | c :: left, block =>
      if block.length + 1 = k then (c :: block) :: blocksFrom k left []
      else blocksFrom k left (c :: block)

/-- The blocks of `k` items of a text, counted from its right end, the rightmost
block first. -/
def blocks (k : Nat) (text : List α) : List (List α) := blocksFrom k text.reverse []

theorem flatten_blocksFrom (k : Nat) (left : List α) :
    ∀ block, (blocksFrom k left block).reverse.flatten = left.reverse ++ block := by
  induction left with
  | nil => intro block; cases block <;> simp [blocksFrom]
  | cons c left ih =>
      intro block
      rw [blocksFrom]
      split
      · rw [List.reverse_cons, List.flatten_append, ih]
        simp
      · rw [ih]
        simp

/-- The blocks make up the text. -/
theorem flatten_blocks (k : Nat) (text : List α) : (blocks k text).reverse.flatten = text := by
  rw [blocks, flatten_blocksFrom, List.reverse_reverse, List.append_nil]

theorem mem_of_mem_blocks {k : Nat} {text block : List α} (h : block ∈ blocks k text) {c : α}
    (hc : c ∈ block) : c ∈ text := by
  rw [← flatten_blocks k text]
  exact List.mem_flatten_of_mem (List.mem_reverse.mpr h) hc

theorem exists_block_of_mem {k : Nat} {text : List α} {c : α} (h : c ∈ text) :
    ∃ block ∈ blocks k text, c ∈ block := by
  rw [← flatten_blocks k text] at h
  obtain ⟨block, hblock, hc⟩ := List.mem_flatten.mp h
  exact ⟨block, List.mem_reverse.mp hblock, hc⟩

theorem length_of_mem_blocksFrom {k : Nat} {left : List α} :
    ∀ {block b : List α}, block.length < k → b ∈ blocksFrom k left block →
      b ≠ [] ∧ b.length ≤ k := by
  induction left with
  | nil =>
      intro block b hlt hb
      cases block with
      | nil => cases hb
      | cons c rest =>
          have hinj := List.mem_singleton.mp hb
          subst hinj
          exact ⟨by simp, Nat.le_of_lt hlt⟩
  | cons c left ih =>
      intro block b hlt hb
      rw [blocksFrom] at hb
      split at hb
      · rename_i hfull
        rcases List.mem_cons.mp hb with rfl | hb
        · exact ⟨by simp, by simp [hfull]⟩
        · refine ih ?_ hb
          rw [List.length_nil]
          omega
      · rename_i hfull
        refine ih ?_ hb
        rw [List.length_cons]
        omega

/-- No block is empty, and none is longer than `k`. -/
theorem length_of_mem_blocks {k : Nat} (hk : 0 < k) {text block : List α}
    (h : block ∈ blocks k text) : block ≠ [] ∧ block.length ≤ k :=
  length_of_mem_blocksFrom (by simpa using hk) h

end Blocks

theorem value_eq_ofDigits_blocksFrom (base k : Nat) (left : List Char) :
    ∀ block : List Char, value base (left.reverse ++ block) =
      Nat.ofDigits (base ^ k) ((blocksFrom k left block).map (value base)) := by
  induction left with
  | nil => intro block; cases block <;> simp [blocksFrom]
  | cons c left ih =>
      intro block
      rw [blocksFrom]
      split
      · rename_i hfull
        have hlen : (c :: block).length = k := hfull
        have hrest := ih []
        rw [List.append_nil] at hrest
        rw [List.map_cons, Nat.ofDigits_cons, ← hrest, List.reverse_cons, List.append_assoc,
          List.singleton_append, value_append, hlen]
        ring
      · rw [← ih, List.reverse_cons, List.append_assoc, List.singleton_append]

/-- Reading in blocks of `k` digits is reading in base `base ^ k`. -/
theorem value_eq_ofDigits_blocks (base k : Nat) (text : List Char) :
    value base text = Nat.ofDigits (base ^ k) ((blocks k text).map (value base)) := by
  have h := value_eq_ofDigits_blocksFrom base k text.reverse []
  rwa [List.reverse_reverse, List.append_nil] at h

/-! ## Printing -/

/-- The last `k` digits of a number. -/
def lastDigits (base : Nat) : Nat → Nat → List Char
  | 0, _ => []
  | k + 1, n => lastDigits base k (n / base) ++ [(n % base).digitChar]

theorem lastDigits_zero (base k : Nat) : lastDigits base k 0 = List.replicate k '0' := by
  induction k with
  | zero => rfl
  | succ k ih =>
      rw [lastDigits, Nat.zero_div, Nat.zero_mod, ih, List.replicate_succ']
      rfl

/-- A numeral, and the last digits after it. -/
theorem toDigits_append_lastDigits {base : Nat} (hbase : 1 < base) {high : Nat}
    (hhigh : 0 < high) (k : Nat) :
    ∀ low, low < base ^ k →
      Nat.toDigits base high ++ lastDigits base k low =
        Nat.toDigits base (high * base ^ k + low) := by
  induction k with
  | zero =>
      intro low hlow
      have hzero : low = 0 := by simpa using hlow
      subst hzero
      simp [lastDigits]
  | succ k ih =>
      intro low hlow
      have hdiv : low / base < base ^ k := by
        rw [pow_succ, Nat.mul_comm] at hlow
        exact Nat.div_lt_of_lt_mul hlow
      have hmod : low % base < base := Nat.mod_lt low (by omega)
      have hpos : 0 < high * base ^ k + low / base :=
        Nat.add_pos_left (Nat.mul_pos hhigh (Nat.pow_pos (by omega))) _
      have hnumber : base * (high * base ^ k + low / base) + low % base =
          high * base ^ (k + 1) + low := by
        have hlow' := Nat.div_add_mod low base
        rw [Nat.mul_add, pow_succ, Nat.add_assoc, hlow']
        ring
      rw [lastDigits, ← List.append_assoc, ih _ hdiv, ← Nat.toDigits_of_lt_base hmod,
        Nat.toDigits_append_toDigits hbase hpos hmod, hnumber]

/-- A number of at most `k` digits, padded to width `k`. -/
theorem lastDigits_eq_padded {base : Nat} (hbase : 1 < base) {k : Nat} (hk : 0 < k) :
    ∀ n, n < base ^ k →
      lastDigits base k n =
        List.replicate (k - (Nat.toDigits base n).length) '0' ++ Nat.toDigits base n := by
  obtain ⟨k, rfl⟩ : ∃ k', k = k' + 1 := ⟨k - 1, by omega⟩
  clear hk
  induction k with
  | zero =>
      intro n hn
      rw [Nat.toDigits_of_lt_base (by simpa using hn)]
      simp [lastDigits, Nat.mod_eq_of_lt (by simpa using hn : n < base)]
  | succ k ih =>
      intro n hn
      have hdiv : n / base < base ^ (k + 1) := by
        rw [pow_succ, Nat.mul_comm] at hn
        exact Nat.div_lt_of_lt_mul hn
      rw [lastDigits]
      by_cases hlt : n < base
      · rw [Nat.div_eq_of_lt hlt, Nat.mod_eq_of_lt hlt, lastDigits_zero,
          Nat.toDigits_of_lt_base hlt]
        simp
      · rw [ih _ hdiv, Nat.toDigits_of_base_le hbase (Nat.le_of_not_lt hlt)]
        simp

/-- Printing in base `base ^ k`: the most significant digit as it is, every other
one padded to width `k`. -/
theorem toDigits_foldl {base k : Nat} (hbase : 1 < base) (hk : 0 < k) (lower : List Nat) :
    ∀ {top : Nat}, 0 < top → (∀ d ∈ lower, d < base ^ k) →
      Nat.toDigits base (lower.foldl (fun n d => n * base ^ k + d) top) =
        Nat.toDigits base top ++ lower.flatMap fun d =>
          List.replicate (k - (Nat.toDigits base d).length) '0' ++ Nat.toDigits base d := by
  induction lower with
  | nil => intro top _ _; simp
  | cons d rest ih =>
      intro top htop hlt
      have hd := hlt d List.mem_cons_self
      have hpos : 0 < top * base ^ k + d :=
        Nat.add_pos_left (Nat.mul_pos htop (Nat.pow_pos (by omega))) _
      rw [List.foldl_cons, ih hpos fun e he => hlt e (List.mem_cons_of_mem d he),
        ← toDigits_append_lastDigits hbase htop k d hd, lastDigits_eq_padded hbase hk d hd,
        List.flatMap_cons, List.append_assoc]

theorem foldl_eq_ofDigits_reverse (b : Nat) (digits : List Nat) :
    digits.foldl (fun n d => n * b + d) 0 = Nat.ofDigits b digits.reverse := by
  rw [Nat.ofDigits_eq_foldr, List.foldr_reverse]
  congr 1
  funext n d
  rw [Nat.mul_comm]
  exact Nat.add_comm _ _

/-- A positive number, printed in base `base ^ k`. -/
theorem toDigits_eq_join {base k : Nat} (hbase : 1 < base) (hk : 0 < k) {n : Nat}
    (hn : 0 < n) :
    ∃ top lower, (Nat.digits (base ^ k) n).reverse = top :: lower ∧
      Nat.toDigits base n = Nat.toDigits base top ++ lower.flatMap fun d =>
        List.replicate (k - (Nat.toDigits base d).length) '0' ++ Nat.toDigits base d := by
  have hpow : 1 < base ^ k := Nat.one_lt_pow (by omega) hbase
  have hne : Nat.digits (base ^ k) n ≠ [] := Nat.digits_ne_nil_iff_ne_zero.mpr (by omega)
  obtain ⟨top, lower, hdigits⟩ := List.exists_cons_of_ne_nil (List.reverse_ne_nil_iff.mpr hne)
  have hdigits' : Nat.digits (base ^ k) n = lower.reverse ++ [top] := by
    rw [← List.reverse_reverse (Nat.digits (base ^ k) n), hdigits, List.reverse_cons]
  have htop : 0 < top := by
    have hlast := Nat.getLast_digit_ne_zero (base ^ k) (m := n) (by omega)
    simp only [hdigits', List.getLast_append, List.getLast_singleton] at hlast
    simpa using Nat.pos_of_ne_zero hlast
  have hlt : ∀ d ∈ lower, d < base ^ k := by
    intro d hd
    refine Nat.digits_lt_base hpow (m := n) ?_
    rw [hdigits']
    exact List.mem_append_left _ (List.mem_reverse.mpr hd)
  refine ⟨top, lower, hdigits, ?_⟩
  have hn' : n = lower.foldl (fun m d => m * base ^ k + d) top := by
    have hfold := foldl_eq_ofDigits_reverse (base ^ k) (top :: lower)
    rw [List.reverse_cons, ← hdigits', Nat.ofDigits_digits, List.foldl_cons, Nat.zero_mul,
      Nat.zero_add] at hfold
    exact hfold.symm
  rw [hn']
  exact toDigits_foldl hbase hk lower htop hlt

/-! ## Reading what was printed -/

theorem isDigit_ten {c : Char} (h : c.isDigit = true) : IsDigit 10 c := by
  have hzero : '0'.toNat = 48 := rfl
  have hnine : '9'.toNat = 57 := rfl
  have hrange := Char.isDigit_iff_toNat.mp h
  refine ⟨by simp [Char.isAlphanum, h], ?_⟩
  rw [digitValue, if_pos h]
  omega

/-- A decimal numeral denotes the number it prints. -/
theorem value_toDigits_ten (n : Nat) : value 10 (Nat.toDigits 10 n) = n := by
  have hdigits : value 10 (Nat.toDigits 10 n) =
      Nat.ofDigitChars 10 (Nat.toDigits 10 n) 0 := by
    rw [Nat.ofDigitChars_eq_foldl, value]
    apply List.foldl_ext
    intro m c hc
    rw [digitValue, if_pos (Nat.isDigit_of_mem_toDigits (by decide) (by decide) hc),
      Nat.mul_comm]
  rw [hdigits, Nat.ofDigitChars_ten_toDigits]

theorem isNumeral_toDigits_ten (n : Nat) : IsNumeral 10 (Nat.toDigits 10 n) :=
  ⟨Nat.toDigits_ne_nil, fun _ hc =>
    isDigit_ten (Nat.isDigit_of_mem_toDigits (by decide) (by decide) hc)⟩

end Positional

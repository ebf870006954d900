/-
  Foundation/BigEndian.lean --- the last digits of a number, the highest first.

  `bigEndian base k n` lists the last `k` digits of `n`, and `ofBigEndian` is the number
  of such a list.  They are inverse to each other on numbers below `base ^ k` and on
  lists of `k` digits, and the digits of a number can be listed part by part.
-/
import Mathlib.Data.Nat.Digits.Lemmas

set_option autoImplicit false

namespace BigEndian

/-- The last `k` digits of a number. -/
def bigEndian (base : Nat) : Nat → Nat → List Nat
  | 0, _ => []
  | k + 1, n => bigEndian base k (n / base) ++ [n % base]

/-- The number of a list of digits. -/
def ofBigEndian (base : Nat) (digits : List Nat) : Nat :=
  digits.foldl (fun n d => n * base + d) 0

variable {base : Nat}

theorem bigEndian_lt (hbase : 0 < base) (k : Nat) : ∀ n, ∀ d ∈ bigEndian base k n, d < base := by
  induction k with
  | zero => intro n d hd; cases hd
  | succ k ih =>
      intro n d hd
      rcases List.mem_append.mp hd with hd | hd
      · exact ih _ d hd
      · rw [List.mem_singleton.mp hd]
        exact Nat.mod_lt n hbase

theorem ofBigEndian_concat (digits : List Nat) (d : Nat) :
    ofBigEndian base (digits ++ [d]) = ofBigEndian base digits * base + d := by
  rw [ofBigEndian, List.foldl_append]
  rfl

theorem ofBigEndian_cons (d : Nat) (digits : List Nat) :
    ofBigEndian base (d :: digits) = d * base ^ digits.length + ofBigEndian base digits := by
  induction digits using List.reverseRecOn with
  | nil => simp [ofBigEndian]
  | append_singleton digits e ih =>
      rw [← List.cons_append, ofBigEndian_concat, ih, ofBigEndian_concat, List.length_append,
        List.length_singleton, pow_succ]
      ring

theorem ofBigEndian_bigEndian (k : Nat) :
    ∀ n, ofBigEndian base (bigEndian base k n) = n % base ^ k := by
  induction k with
  | zero => intro n; rw [pow_zero, Nat.mod_one]; rfl
  | succ k ih =>
      intro n
      rw [bigEndian, ofBigEndian_concat, ih, pow_succ', Nat.mod_mul, Nat.mul_comm, Nat.add_comm]

theorem ofBigEndian_lt {digits : List Nat} (h : ∀ d ∈ digits, d < base) :
    ofBigEndian base digits < base ^ digits.length := by
  induction digits using List.reverseRecOn with
  | nil => exact Nat.one_pos
  | append_singleton digits d ih =>
      have hd : d + 1 ≤ base := h d (List.mem_append_right _ (List.mem_singleton_self d))
      have hdigits := ih fun e he => h e (List.mem_append_left _ he)
      have hmul := Nat.mul_le_mul_right base hdigits
      rw [Nat.succ_mul] at hmul
      rw [ofBigEndian_concat, List.length_append, List.length_singleton, pow_succ]
      omega

theorem bigEndian_ofBigEndian {digits : List Nat} (h : ∀ d ∈ digits, d < base) :
    bigEndian base digits.length (ofBigEndian base digits) = digits := by
  induction digits using List.reverseRecOn with
  | nil => rfl
  | append_singleton digits d ih =>
      have hd : d < base := h d (List.mem_append_right _ (List.mem_singleton_self d))
      have hdigits := ih fun e he => h e (List.mem_append_left _ he)
      rw [ofBigEndian_concat, List.length_append, List.length_singleton, bigEndian,
        Nat.mul_comm, Nat.mul_add_div (by omega), Nat.div_eq_of_lt hd, Nat.add_zero, hdigits,
        Nat.mul_add_mod, Nat.mod_eq_of_lt hd]

/-- The digits from the `k`-th on, then the last `k`. -/
theorem bigEndian_add (m k : Nat) :
    ∀ n, bigEndian base (m + k) n = bigEndian base m (n / base ^ k) ++ bigEndian base k n := by
  induction k with
  | zero => intro n; rw [pow_zero, Nat.div_one, Nat.add_zero, bigEndian, List.append_nil]
  | succ k ih =>
      intro n
      rw [← Nat.add_assoc, bigEndian, ih, Nat.div_div_eq_div_mul, ← pow_succ', List.append_assoc,
        bigEndian]

/-- The last digits do not depend on what is above. -/
theorem bigEndian_mod (k : Nat) :
    ∀ n high, bigEndian base k (high * base ^ k + n) = bigEndian base k n := by
  induction k with
  | zero => intro n high; rfl
  | succ k ih =>
      intro n high
      by_cases hbase : base = 0
      · rw [hbase, pow_succ, Nat.mul_zero, Nat.mul_zero, Nat.zero_add]
      · have hdiv : (high * base ^ (k + 1) + n) / base = high * base ^ k + n / base := by
          rw [pow_succ, ← Nat.mul_assoc, Nat.add_comm, Nat.add_mul_div_right _ _ (by omega),
            Nat.add_comm]
        have hmod : (high * base ^ (k + 1) + n) % base = n % base := by
          rw [pow_succ, ← Nat.mul_assoc, Nat.add_comm, Nat.add_mul_mod_self_right]
        rw [bigEndian, hdiv, ih, hmod, bigEndian]

end BigEndian

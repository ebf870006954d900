/-
  BigInt/Shifts.lean --- shifts by bits, and the widths they are chosen by.

  A shift exists twice in the package: as a function that builds its result from
  an empty integer, and as one that works in place.  Both move a part of every
  word into the next one.  They agree, and they multiply by and divide by a power
  of two.
-/
import YieldMe.BigInt.Addition
import Mathlib.Data.Nat.Size

set_option autoImplicit false

namespace YieldMe

open Loop

namespace Word

/-! ## Moving bits from one word to the next -/

theorem toNat_shiftLeft (w : Word) {k : Nat} (hk : k < 64) :
    (w <<< UInt64.ofNat k).toNat = w.toNat * 2 ^ k % 2 ^ 64 := by
  have hk' : (UInt64.ofNat k).toNat = k := by
    rw [UInt64.toNat_ofNat']
    omega
  rw [UInt64.toNat_shiftLeft, hk', Nat.mod_eq_of_lt hk, Nat.shiftLeft_eq]

theorem toNat_shiftRight (w : Word) {k : Nat} (hk : k < 64) :
    (w >>> UInt64.ofNat k).toNat = w.toNat / 2 ^ k := by
  have hk' : (UInt64.ofNat k).toNat = k := by
    rw [UInt64.toNat_ofNat']
    omega
  rw [UInt64.toNat_shiftRight, hk', Nat.mod_eq_of_lt hk, Nat.shiftRight_eq_div_pow]

theorem toNat_pos_iff (w : Word) : 0 < w ↔ 0 < w.toNat := by
  rw [UInt64.lt_iff_toNat_lt, UInt64.toNat_zero]

/-- Shifted left, a word gives its upper bits to the next word and takes the
upper bits of the one before. -/
theorem shiftLeft_carry (w low : Word) {up : Nat} (hup : 0 < up) (hup' : up < 64)
    (hlow : low.toNat < 2 ^ up) :
    (w <<< UInt64.ofNat up ||| low).toNat + (w >>> UInt64.ofNat (64 - up)).toNat * 2 ^ 64 =
        w.toNat * 2 ^ up + low.toNat ∧
      (w >>> UInt64.ofNat (64 - up)).toNat < 2 ^ up := by
  have hw := w.toNat_lt
  have hsplit : (2 : Nat) ^ 64 = 2 ^ up * 2 ^ (64 - up) := by
    rw [← pow_add, Nat.add_sub_of_le (by omega)]
  have hmod : w.toNat * 2 ^ up % 2 ^ 64 = 2 ^ up * (w.toNat % 2 ^ (64 - up)) := by
    rw [hsplit, Nat.mul_comm w.toNat, Nat.mul_mod_mul_left]
  have hdiv := Nat.div_add_mod w.toNat (2 ^ (64 - up))
  have hleft : (w <<< UInt64.ofNat up ||| low).toNat =
      2 ^ up * (w.toNat % 2 ^ (64 - up)) + low.toNat := by
    rw [UInt64.toNat_or, toNat_shiftLeft w hup', hmod, Nat.two_pow_add_eq_or_of_lt hlow]
  rw [hleft, toNat_shiftRight w (by omega : 64 - up < 64)]
  constructor
  · calc _ = 2 ^ up * (2 ^ (64 - up) * (w.toNat / 2 ^ (64 - up)) + w.toNat % 2 ^ (64 - up)) +
          low.toNat := by rw [hsplit]; ring
      _ = _ := by rw [hdiv]; ring
  · apply Nat.div_lt_of_lt_mul
    rwa [Nat.mul_comm, ← hsplit]

/-- Shifted right, a word gives its lower bits to the next word down and takes
the lower bits of the one above. -/
theorem shiftRight_carry (w : Word) (n : Nat) {down : Nat} (hdown : 0 < down)
    (hdown' : down < 64) {high : Word} (hhigh : high.toNat = n % 2 ^ down * 2 ^ (64 - down)) :
    (n * 2 ^ 64 + w.toNat) / 2 ^ down =
        n / 2 ^ down * 2 ^ 64 + (high ||| w >>> UInt64.ofNat down).toNat ∧
      (w <<< UInt64.ofNat (64 - down)).toNat =
        (n * 2 ^ 64 + w.toNat) % 2 ^ down * 2 ^ (64 - down) := by
  have hw := w.toNat_lt
  have hsplit : (2 : Nat) ^ 64 = 2 ^ down * 2 ^ (64 - down) := by
    rw [← pow_add, Nat.add_sub_of_le (by omega)]
  have hlow : w.toNat / 2 ^ down < 2 ^ (64 - down) := by
    apply Nat.div_lt_of_lt_mul
    rwa [← hsplit]
  have hword : (high ||| w >>> UInt64.ofNat down).toNat =
      2 ^ (64 - down) * (n % 2 ^ down) + w.toNat / 2 ^ down := by
    rw [UInt64.toNat_or, toNat_shiftRight w hdown', hhigh, Nat.mul_comm (n % 2 ^ down),
      Nat.two_pow_add_eq_or_of_lt hlow]
  have hn := Nat.div_add_mod n (2 ^ down)
  have hdvd : n * 2 ^ 64 + w.toNat = w.toNat + 2 ^ down * (n * 2 ^ (64 - down)) := by
    rw [hsplit]
    ring
  constructor
  · rw [hword, hdvd, Nat.add_mul_div_left _ _ (Nat.two_pow_pos down)]
    calc _ = w.toNat / 2 ^ down +
          (2 ^ down * (n / 2 ^ down) + n % 2 ^ down) * 2 ^ (64 - down) := by rw [hn]
      _ = _ := by rw [hsplit]; ring
  · rw [hdvd, Nat.add_mul_mod_self_left, toNat_shiftLeft w (by omega : 64 - down < 64), hsplit,
      Nat.mul_mod_mul_right]

end Word

namespace BigUInt

/-! ## Widths -/

/-- `bitWidth`. -/
def bitWidth (x : BigUInt) : Nat :=
  if x.count = 0 then 0 else x.count * 64 - (x.get (x.count - 1)).leadingZeroBitCount

/-- `leadingZeroBitCount`. -/
def leadingZeroBitCount (x : BigUInt) : Nat :=
  if x.count = 0 then 0 else (x.get (x.count - 1)).leadingZeroBitCount

/-- `bitWidth` is the number of bits of the number. -/
theorem bitWidth_eq (x : BigUInt) : x.bitWidth = Nat.size x.toNat := by
  rw [bitWidth]
  by_cases hcount : x.count = 0
  · rw [if_pos hcount, (count_eq_zero_iff x).mp hcount, Nat.size_eq_zero.mpr rfl]
  · have hpos : 0 < x.count := Nat.pos_of_ne_zero hcount
    obtain ⟨hz, hlow, hhigh⟩ := Word.normalized_shift (get_top_pos hpos)
    rw [if_neg hcount]
    rw [toNat_get_top hpos] at hlow hhigh
    generalize (x.get (x.count - 1)).leadingZeroBitCount = z at *
    obtain ⟨c, hc⟩ : ∃ c, x.count = c + 1 := ⟨x.count - 1, by omega⟩
    rw [hc, Nat.add_sub_cancel] at hlow hhigh
    rw [hc]
    have hsplit : (2 : Nat) ^ 64 = 2 ^ (64 - z) * 2 ^ z := by
      rw [← pow_add, Nat.sub_add_cancel (Nat.le_of_lt hz)]
    have hsplit' : (2 : Nat) ^ 63 = 2 ^ (63 - z) * 2 ^ z := by
      rw [← pow_add, Nat.sub_add_cancel (by omega)]
    rw [hsplit] at hhigh
    rw [hsplit'] at hlow
    have hlow' := Nat.le_of_mul_le_mul_right hlow (Nat.two_pow_pos z)
    have hhigh' := Nat.lt_of_mul_lt_mul_right hhigh
    apply Nat.le_antisymm
    · have hle : 2 ^ ((c + 1) * 64 - z - 1) ≤ x.toNat := by
        rw [show (c + 1) * 64 - z - 1 = (63 - z) + 64 * c by omega, pow_add, ← weight_eq]
        exact Nat.mul_le_of_le_div _ _ _ hlow'
      have hlt := Nat.lt_size.mpr hle
      omega
    · rw [Nat.size_le, show (c + 1) * 64 - z = (64 - z) + 64 * c by omega, pow_add, ← weight_eq]
      exact (Nat.div_lt_iff_lt_mul (weight_pos c)).mp hhigh'

theorem toNat_lt_two_pow_of_bitWidth_le {x : BigUInt} {amount : Nat} (h : x.bitWidth ≤ amount) :
    x.toNat < 2 ^ amount := by
  rw [bitWidth_eq] at h
  exact Nat.size_le.mp h

/-! ## Shifts to the left -/

/-- Where a shift by bits is: the integer it writes, the bits it moves on and the
index of the next word. -/
structure ShiftLoop where
  value : BigUInt
  bits : Word
  i : Nat

/-- The body of the loop of `shiftedLeft(by:)`. -/
def shiftedLeftRound (x : BigUInt) (ext up : Nat) (s : ShiftLoop) : ShiftLoop :=
  let word := x.get s.i
  ⟨s.value.set (s.i + ext) (word <<< UInt64.ofNat up ||| s.bits),
    word >>> UInt64.ofNat (64 - up), s.i + 1⟩

/-- `shiftedLeft(by:)`. -/
def shiftedLeft (x : BigUInt) (amount : Nat) : BigUInt :=
  if amount = 0 then x
  else
    let ext := amount / 64
    let up := amount % 64
    if 0 < up then
      (whileDo (fun s => decide (s.i < x.count) || decide (0 < s.bits))
        (shiftedLeftRound x ext up) (x.count + 1) ⟨zero, 0, 0⟩).value
    else (List.range x.count).foldl (fun result i => result.set (i + ext) (x.get i)) zero

/-- The body of the loop of `shiftLeft(by:)`, which reads what it writes. -/
def shiftLeftRound (up : Nat) (s : ShiftLoop) : ShiftLoop :=
  let word := s.value.get s.i
  ⟨s.value.set s.i (word <<< UInt64.ofNat up ||| s.bits),
    word >>> UInt64.ofNat (64 - up), s.i + 1⟩

/-- `shiftLeft(by:)`. -/
def shiftLeft (x : BigUInt) (amount : Nat) : BigUInt :=
  if amount = 0 then x
  else
    let ext := amount / 64
    let up := amount % 64
    let y :=
      if 0 < up then
        (whileDo (fun s => decide (s.i < s.value.count) || decide (0 < s.bits))
          (shiftLeftRound up) (x.count + 1) ⟨x, 0, 0⟩).value
      else x
    if 0 < ext ∧ 0 < y.count then y.shiftLeftWords ext else y

/-- The words shifted so far, the bits on the way and the words to come. -/
structure ShiftedLeftInvariant (x : BigUInt) (ext up : Nat) (s : ShiftLoop) : Prop where
  total : s.value.toNat + (x.toNat / weight s.i * 2 ^ up + s.bits.toNat) * weight (s.i + ext) =
    x.toNat * 2 ^ up * weight ext
  value_lt : s.value.toNat < weight (s.i + ext)
  bits_lt : s.bits.toNat < 2 ^ up

theorem ShiftedLeftInvariant.round {x : BigUInt} {ext up : Nat} {s : ShiftLoop}
    (hup : 0 < up) (hup' : up < 64) (h : ShiftedLeftInvariant x ext up s) :
    ShiftedLeftInvariant x ext up (shiftedLeftRound x ext up s) := by
  obtain ⟨hword, hbits⟩ := Word.shiftLeft_carry (x.get s.i) s.bits hup hup' h.bits_lt
  have hset := toNat_set s.value (s.i + ext) (x.get s.i <<< UInt64.ofNat up ||| s.bits)
  have hzero : s.value.get (s.i + ext) = 0 := get_of_le (count_le_of_lt h.value_lt)
  have htotal := h.total
  have hscaled := congrArg (· * weight (s.i + ext)) hword
  refine ⟨?_, ?_, hbits⟩
  · rw [hzero, UInt64.toNat_zero, Nat.zero_mul, Nat.add_zero] at hset
    rw [div_weight x s.i] at htotal
    simp only [shiftedLeftRound, Nat.add_right_comm s.i 1 ext, weight_succ (s.i + ext)]
    linarith
  · rw [shiftedLeftRound, Nat.add_right_comm]
    exact toNat_set_lt _ (Nat.lt_of_lt_of_le h.value_lt (weight_le (Nat.le_succ _)))
      (Nat.lt_succ_self _)

/-- A power of two is one below the size of a word, and a weight. -/
theorem two_pow_eq (amount : Nat) :
    2 ^ amount = 2 ^ (amount % 64) * weight (amount / 64) := by
  rw [weight_eq, ← pow_add, Nat.mod_add_div]

/-- Bits on the way have room below the number of words reserved for a shift. -/
theorem lt_of_bits {n bits total i m : Nat} (htotal : (n + bits) * weight i ≤ total)
    (hbits : 0 < bits) (hlt : total < weight m) : i < m := by
  apply lt_of_weight_lt
  have hle := Nat.le_mul_of_pos_left (weight i) (show 0 < n + bits by omega)
  omega

/-- A shift by fewer bits than a word has stays below one more weight. -/
theorem mul_two_pow_lt {x n i up : Nat} (hx : x < weight n) (hup : up < 64) :
    x * 2 ^ up * weight i < weight (n + 1 + i) := by
  rw [weight_add, weight_succ, Nat.mul_comm (2 ^ 64)]
  refine Nat.mul_lt_mul_of_pos_right ?_ (weight_pos i)
  exact Nat.mul_lt_mul_of_lt_of_le hx
    (Nat.pow_le_pow_right (by decide) (Nat.le_of_lt hup)) (by decide)

/-- The shift to the left by bits that are no whole words. -/
theorem shiftedLeft_bits (x : BigUInt) (ext : Nat) {up : Nat} (hup : 0 < up)
    (hup' : up < 64) :
    (whileDo (fun s => decide (s.i < x.count) || decide (0 < s.bits))
      (shiftedLeftRound x ext up) (x.count + 1) ⟨zero, 0, 0⟩).value =
        ofNat (x.toNat * 2 ^ up * weight ext) := by
  have htotal : x.toNat * 2 ^ up * weight ext < weight (x.count + 1 + ext) :=
    mul_two_pow_lt x.toNat_lt_weight hup'
  obtain ⟨hend, hguard⟩ := whileDo_rule (ShiftedLeftInvariant x ext up)
    (fun s => x.count + 1 - s.i) (f := shiftedLeftRound x ext up)
    (g := fun s => decide (s.i < x.count) || decide (0 < s.bits))
    (fun s h hguard => by
      refine ⟨h.round hup hup', ?_⟩
      have hi : s.i < x.count + 1 := by
        rcases Bool.or_eq_true_iff.mp hguard with hbelow | hbits
        · have := of_decide_eq_true hbelow
          omega
        · have hbits' := (Word.toNat_pos_iff _).mp (of_decide_eq_true hbits)
          have hlt := lt_of_bits (Nat.le_trans (Nat.le_add_left _ _) (Nat.le_of_eq h.total))
            hbits' htotal
          omega
      simp only [shiftedLeftRound]
      omega)
    (x.count + 1) ⟨zero, 0, 0⟩
    ⟨by simp, by
      rw [toNat_zero]
      exact weight_pos _, Nat.two_pow_pos up⟩ (Nat.sub_le _ _)
  generalize whileDo _ (shiftedLeftRound x ext up) _ _ = s at hend hguard ⊢
  rw [Bool.or_eq_false_iff, decide_eq_false_iff_not, decide_eq_false_iff_not, Word.toNat_pos_iff,
    Nat.not_lt, Nat.not_lt, Nat.le_zero] at hguard
  have hend' := hend.total
  rw [hguard.2, Nat.div_eq_of_lt (Nat.lt_of_lt_of_le x.toNat_lt_weight (weight_le hguard.1)),
    Nat.zero_mul, Nat.zero_add, Nat.zero_mul, Nat.add_zero] at hend'
  exact eq_ofNat hend'

/-- The shift to the left by whole words, one word at a time. -/
theorem shiftedLeft_words (x : BigUInt) (ext : Nat) :
    (List.range x.count).foldl (fun result i => result.set (i + ext) (x.get i)) zero =
      ofNat (x.toNat * weight ext) := by
  have hend := foldl_range_rule
    (fun i (result : BigUInt) => result.toNat = x.toNat % weight i * weight ext)
    (n := x.count) (s := zero) (f := fun result i => result.set (i + ext) (x.get i))
    (by simp [Nat.mod_one]) (fun i result _ h => by
      have hset := toNat_set result (i + ext) (x.get i)
      have hlt : result.toNat < weight (i + ext) := by
        rw [h, weight_add]
        exact Nat.mul_lt_mul_of_pos_right (Nat.mod_lt _ (weight_pos i)) (weight_pos ext)
      rw [get_of_le (count_le_of_lt hlt), UInt64.toNat_zero, Nat.zero_mul, Nat.add_zero, h] at hset
      rw [hset, toNat_mod_weight_succ, weight_add]
      ring)
  apply eq_ofNat
  rw [hend, Nat.mod_eq_of_lt x.toNat_lt_weight]

/-- The shift to the left multiplies by a power of two. -/
theorem shiftedLeft_eq (x : BigUInt) (amount : Nat) :
    x.shiftedLeft amount = ofNat (x.toNat * 2 ^ amount) := by
  rw [shiftedLeft]
  by_cases hzero : amount = 0
  · rw [if_pos hzero, hzero, pow_zero, Nat.mul_one, ofNat_toNat]
  · rw [if_neg hzero, two_pow_eq amount, ← Nat.mul_assoc]
    by_cases hup : 0 < amount % 64
    · simp only [if_pos hup]
      exact shiftedLeft_bits x (amount / 64) hup (Nat.mod_lt _ (by decide))
    · have hup' : amount % 64 = 0 := by omega
      simp only [if_neg hup]
      rw [hup', pow_zero, Nat.mul_one]
      exact shiftedLeft_words x (amount / 64)

/-- In place: the words shifted so far, the bits on the way and the words to come,
which are still those of the operand. -/
structure ShiftLeftInvariant (x : BigUInt) (up : Nat) (s : ShiftLoop) : Prop where
  total : s.value.toNat + s.bits.toNat * weight s.i =
    x.toNat % weight s.i * 2 ^ up + x.toNat / weight s.i * weight s.i
  above : s.value.toNat / weight s.i = x.toNat / weight s.i
  bits_lt : s.bits.toNat < 2 ^ up

theorem ShiftLeftInvariant.get_eq {x : BigUInt} {up : Nat} {s : ShiftLoop}
    (h : ShiftLeftInvariant x up s) : s.value.get s.i = x.get s.i := by
  rw [← UInt64.toNat_inj, toNat_get, toNat_get, h.above]

theorem ShiftLeftInvariant.round {x : BigUInt} {up : Nat} {s : ShiftLoop}
    (hup : 0 < up) (hup' : up < 64) (h : ShiftLeftInvariant x up s) :
    ShiftLeftInvariant x up (shiftLeftRound up s) := by
  obtain ⟨hword, hbits⟩ := Word.shiftLeft_carry (s.value.get s.i) s.bits hup hup' h.bits_lt
  have hset := toNat_set s.value s.i (s.value.get s.i <<< UInt64.ofNat up ||| s.bits)
  have htotal := h.total
  have hscaled := congrArg (· * weight s.i) hword
  refine ⟨?_, ?_, hbits⟩
  · rw [div_weight x s.i] at htotal
    rw [h.get_eq] at hset hscaled
    simp only [shiftLeftRound, toNat_mod_weight_succ x s.i, h.get_eq]
    generalize x.toNat / weight (s.i + 1) = q at htotal ⊢
    rw [weight_succ]
    linarith
  · rw [shiftLeftRound, set_div, weight_succ, Nat.mul_comm, ← Nat.div_div_eq_div_mul, h.above,
      Nat.div_div_eq_div_mul]

/-- What has been shifted in part is at most what is shifted in the end. -/
theorem ShiftLeftInvariant.total_le {x : BigUInt} {up : Nat} {s : ShiftLoop}
    (h : ShiftLeftInvariant x up s) :
    s.value.toNat + s.bits.toNat * weight s.i ≤ x.toNat * 2 ^ up := by
  have hx := Nat.div_add_mod' x.toNat (weight s.i)
  have hup := Nat.le_mul_of_pos_right (x.toNat / weight s.i * weight s.i) (Nat.two_pow_pos up)
  rw [h.total]
  conv_rhs => rw [← hx]
  rw [Nat.add_mul]
  omega

theorem ShiftLeftInvariant.lt {x : BigUInt} {up : Nat} {s : ShiftLoop} (hup : up < 64)
    (h : ShiftLeftInvariant x up s)
    (hguard : (decide (s.i < s.value.count) || decide (0 < s.bits)) = true) :
    s.i < x.count + 1 := by
  have hle := h.total_le
  have htotal := mul_two_pow_lt (i := 0) x.toNat_lt_weight hup
  rw [weight_zero, Nat.mul_one, Nat.add_zero] at htotal
  rcases Bool.or_eq_true_iff.mp hguard with hbelow | hbits
  · have hcount := of_decide_eq_true hbelow
    have htop := weight_le_toNat (show 0 < s.value.count by omega)
    have hmono := weight_le (show s.i ≤ s.value.count - 1 by omega)
    exact lt_of_weight_lt (by omega)
  · have hbits' := (Word.toNat_pos_iff _).mp (of_decide_eq_true hbits)
    exact lt_of_bits (Nat.le_trans (by rw [Nat.zero_add]; omega) hle) hbits' htotal

theorem shiftLeft_bits (x : BigUInt) {up : Nat} (hup : 0 < up) (hup' : up < 64) :
    (whileDo (fun s => decide (s.i < s.value.count) || decide (0 < s.bits))
      (shiftLeftRound up) (x.count + 1) ⟨x, 0, 0⟩).value = ofNat (x.toNat * 2 ^ up) := by
  obtain ⟨hend, hguard⟩ := whileDo_rule (ShiftLeftInvariant x up)
    (fun s => x.count + 1 - s.i) (f := shiftLeftRound up)
    (g := fun s => decide (s.i < s.value.count) || decide (0 < s.bits))
    (fun s h hguard => by
      have hi := h.lt hup' hguard
      refine ⟨h.round hup hup', ?_⟩
      simp only [shiftLeftRound]
      omega)
    (x.count + 1) ⟨x, 0, 0⟩
    ⟨by simp [Nat.mod_one], rfl, Nat.two_pow_pos up⟩ (Nat.sub_le _ _)
  generalize whileDo _ (shiftLeftRound up) _ _ = s at hend hguard ⊢
  rw [Bool.or_eq_false_iff, decide_eq_false_iff_not, decide_eq_false_iff_not, Word.toNat_pos_iff,
    Nat.not_lt, Nat.not_lt, Nat.le_zero] at hguard
  have hvalue := Nat.lt_of_lt_of_le s.value.toNat_lt_weight (weight_le hguard.1)
  have habove := hend.above
  rw [Nat.div_eq_of_lt hvalue] at habove
  have hx := Nat.div_add_mod' x.toNat (weight s.i)
  rw [← habove, Nat.zero_mul, Nat.zero_add] at hx
  have hend' := hend.total
  rw [hguard.2, ← habove, hx, Nat.zero_mul, Nat.add_zero] at hend'
  exact eq_ofNat hend'

/-- The shift in place agrees with the one that builds its result. -/
theorem shiftLeft_eq (x : BigUInt) (amount : Nat) :
    x.shiftLeft amount = ofNat (x.toNat * 2 ^ amount) := by
  have hup' : amount % 64 < 64 := Nat.mod_lt _ (by decide)
  rw [shiftLeft]
  by_cases hzero : amount = 0
  · rw [if_pos hzero, hzero, pow_zero, Nat.mul_one, ofNat_toNat]
  · have hbits : (if 0 < amount % 64 then
        (whileDo (fun s => decide (s.i < s.value.count) || decide (0 < s.bits))
          (shiftLeftRound (amount % 64)) (x.count + 1) ⟨x, 0, 0⟩).value
        else x) = ofNat (x.toNat * 2 ^ (amount % 64)) := by
      split
      · rename_i hup
        exact shiftLeft_bits x hup hup'
      · rename_i hup
        rw [show amount % 64 = 0 by omega, pow_zero, Nat.mul_one, ofNat_toNat]
    rw [if_neg hzero, two_pow_eq amount, ← Nat.mul_assoc]
    simp only [hbits]
    split
    · exact eq_ofNat (by rw [toNat_shiftLeftWords, toNat_ofNat])
    · rename_i hwords
      rw [not_and_or, Nat.not_lt, Nat.not_lt, Nat.le_zero, Nat.le_zero] at hwords
      rcases hwords with hext | hcount
      · rw [hext, weight_zero, Nat.mul_one]
      · rw [count_eq_zero_iff, toNat_ofNat] at hcount
        rw [hcount, Nat.zero_mul]

/-! ## Shifts to the right -/

/-- The body of the loop of `shiftedRight(by:)`: from the top word down. -/
def shiftedRightRound (x : BigUInt) (ext down : Nat) (i : Nat) (s : BigUInt × Word) :
    BigUInt × Word :=
  let word := x.get (i + ext)
  (s.1.set i (s.2 ||| word >>> UInt64.ofNat down), word <<< UInt64.ofNat (64 - down))

/-- `shiftedRight(by:)`. -/
def shiftedRight (x : BigUInt) (amount : Nat) : BigUInt :=
  if amount = 0 then x
  else if x.bitWidth ≤ amount then zero
  else
    let ext := amount / 64
    let down := amount % 64
    if 0 < down then
      ((List.range (x.count - ext)).foldr (shiftedRightRound x ext down) (zero, 0)).1
    else (List.range (x.count - ext)).foldr (fun i result => result.set i (x.get (i + ext))) zero

/-- The body of the loop of `shiftRight(by:)`. -/
def shiftRightRound (down : Nat) (i : Nat) (s : BigUInt × Word) : BigUInt × Word :=
  let word := s.1.get i
  (s.1.set i (s.2 ||| word >>> UInt64.ofNat down), word <<< UInt64.ofNat (64 - down))

/-- `shiftRight(by:)`. -/
def shiftRight (x : BigUInt) (amount : Nat) : BigUInt :=
  if amount = 0 then x
  else if x.bitWidth ≤ amount then zero
  else
    let ext := amount / 64
    let down := amount % 64
    let y := if 0 < ext then x.shiftRightWords ext else x
    if 0 < down then ((List.range y.count).foldr (shiftRightRound down) (y, 0)).1 else y

/-- The words shifted so far and the bits on the way, for the words from `i` up. -/
def ShiftedRightInvariant (n down : Nat) (i : Nat) (s : BigUInt × Word) : Prop :=
  s.1.toNat = n / weight i / 2 ^ down * weight i ∧
    s.2.toNat = n / weight i % 2 ^ down * 2 ^ (64 - down)

theorem ShiftedRightInvariant.round {x : BigUInt} {ext down i : Nat} {s : BigUInt × Word}
    (hdown : 0 < down) (hdown' : down < 64)
    (h : ShiftedRightInvariant (x.toNat / weight ext) down (i + 1) s) :
    ShiftedRightInvariant (x.toNat / weight ext) down i (shiftedRightRound x ext down i s) := by
  obtain ⟨hvalue, hbits⟩ := h
  have hword : (x.get (i + ext)).toNat = x.toNat / weight ext / weight i % 2 ^ 64 := by
    rw [toNat_get, weight_add, Nat.mul_comm, Nat.div_div_eq_div_mul]
  have hdiv := div_weight_eq (x.toNat / weight ext) i
  rw [← hword] at hdiv
  generalize x.toNat / weight ext = n at *
  obtain ⟨hquotient, hremainder⟩ :=
    Word.shiftRight_carry (x.get (i + ext)) (n / weight (i + 1)) hdown hdown' hbits
  have hset := toNat_set s.1 i (s.2 ||| x.get (i + ext) >>> UInt64.ofNat down)
  have hzero : (s.1.get i).toNat = 0 := by
    rw [toNat_get, hvalue, weight_succ, ← Nat.mul_assoc,
      Nat.mul_div_cancel _ (weight_pos i), Nat.mul_mod_left]
  refine ⟨?_, ?_⟩
  · rw [hzero, Nat.zero_mul, Nat.add_zero, hvalue] at hset
    rw [shiftedRightRound, hset, hdiv, hquotient, weight_succ]
    ring
  · rw [shiftedRightRound, hdiv, hremainder]

theorem shiftedRight_bits (x : BigUInt) (ext : Nat) {down : Nat} (hdown : 0 < down)
    (hdown' : down < 64) :
    ((List.range (x.count - ext)).foldr (shiftedRightRound x ext down) (zero, 0)).1 =
      ofNat (x.toNat / weight ext / 2 ^ down) := by
  have htop : x.toNat / weight ext < weight (x.count - ext) := by
    rw [Nat.div_lt_iff_lt_mul (weight_pos ext), ← weight_add]
    exact Nat.lt_of_lt_of_le x.toNat_lt_weight (weight_le (by omega))
  obtain ⟨hend, -⟩ := foldr_range_rule (ShiftedRightInvariant (x.toNat / weight ext) down)
    (n := x.count - ext) (s := (zero, 0)) (f := shiftedRightRound x ext down)
    ⟨by simp [Nat.div_eq_of_lt htop], by simp [Nat.div_eq_of_lt htop]⟩
    (fun i s _ h => h.round hdown hdown')
  rw [weight_zero, Nat.div_one, Nat.mul_one] at hend
  exact eq_ofNat hend

theorem shiftedRight_words (x : BigUInt) (ext : Nat) :
    (List.range (x.count - ext)).foldr (fun i result => result.set i (x.get (i + ext))) zero =
      ofNat (x.toNat / weight ext) := by
  have htop : x.toNat / weight ext < weight (x.count - ext) := by
    rw [Nat.div_lt_iff_lt_mul (weight_pos ext), ← weight_add]
    exact Nat.lt_of_lt_of_le x.toNat_lt_weight (weight_le (by omega))
  have hend := foldr_range_rule
    (fun i (result : BigUInt) =>
      result.toNat = x.toNat / weight ext / weight i * weight i)
    (n := x.count - ext) (s := zero) (f := fun i result => result.set i (x.get (i + ext)))
    (by simp [Nat.div_eq_of_lt htop]) (fun i result _ h => by
      have hset := toNat_set result i (x.get (i + ext))
      have hzero : (result.get i).toNat = 0 := by
        rw [toNat_get, h, weight_succ, ← Nat.mul_assoc, Nat.mul_div_cancel _ (weight_pos i),
          Nat.mul_mod_left]
      have hword : (x.get (i + ext)).toNat = x.toNat / weight ext / weight i % 2 ^ 64 := by
        rw [toNat_get, weight_add, Nat.mul_comm, Nat.div_div_eq_div_mul]
      have hdiv := div_weight_eq (x.toNat / weight ext) i
      rw [← hword] at hdiv
      rw [hzero, Nat.zero_mul, Nat.add_zero, h] at hset
      rw [hset, hdiv, weight_succ]
      ring)
  rw [weight_zero, Nat.div_one, Nat.mul_one] at hend
  exact eq_ofNat hend

/-- The shift to the right divides by a power of two. -/
theorem shiftedRight_eq (x : BigUInt) (amount : Nat) :
    x.shiftedRight amount = ofNat (x.toNat / 2 ^ amount) := by
  rw [shiftedRight]
  by_cases hzero : amount = 0
  · rw [if_pos hzero, hzero, pow_zero, Nat.div_one, ofNat_toNat]
  · rw [if_neg hzero]
    by_cases hwidth : x.bitWidth ≤ amount
    · rw [if_pos hwidth, Nat.div_eq_of_lt (toNat_lt_two_pow_of_bitWidth_le hwidth)]
      exact eq_ofNat rfl
    · rw [if_neg hwidth, two_pow_eq amount, Nat.mul_comm, ← Nat.div_div_eq_div_mul]
      by_cases hdown : 0 < amount % 64
      · simp only [if_pos hdown]
        exact shiftedRight_bits x (amount / 64) hdown (Nat.mod_lt _ (by decide))
      · simp only [if_neg hdown]
        rw [show amount % 64 = 0 by omega, pow_zero, Nat.div_one]
        exact shiftedRight_words x (amount / 64)

/-- In place: the words shifted so far, over those to come. -/
def ShiftRightInvariant (n down : Nat) (i : Nat) (s : BigUInt × Word) : Prop :=
  s.1.toNat = n / weight i / 2 ^ down * weight i + n % weight i ∧
    s.2.toNat = n / weight i % 2 ^ down * 2 ^ (64 - down)

theorem ShiftRightInvariant.round {n down i : Nat} {s : BigUInt × Word}
    (hdown : 0 < down) (hdown' : down < 64) (h : ShiftRightInvariant n down (i + 1) s) :
    ShiftRightInvariant n down i (shiftRightRound down i s) := by
  obtain ⟨hvalue, hbits⟩ := h
  have hword : (s.1.get i).toNat = n / weight i % 2 ^ 64 := by
    rw [toNat_get, hvalue, mod_weight_succ]
    generalize n / weight (i + 1) / 2 ^ down = q
    have hsplit : q * weight (i + 1) + (n / weight i % 2 ^ 64 * weight i + n % weight i) =
        n % weight i + weight i * (n / weight i % 2 ^ 64 + 2 ^ 64 * q) := by
      rw [weight_succ]
      ring
    rw [hsplit, Nat.add_mul_div_left _ _ (weight_pos i),
      Nat.div_eq_of_lt (Nat.mod_lt n (weight_pos i)), Nat.zero_add, Nat.add_mul_mod_self_left,
      Nat.mod_mod]
  have hdiv := div_weight_eq n i
  rw [← hword] at hdiv
  obtain ⟨hquotient, hremainder⟩ :=
    Word.shiftRight_carry (s.1.get i) (n / weight (i + 1)) hdown hdown' hbits
  have hset := toNat_set s.1 i (s.2 ||| s.1.get i >>> UInt64.ofNat down)
  refine ⟨?_, ?_⟩
  · have hmod := mod_weight_succ n i
    rw [← hword] at hmod
    rw [hvalue, hmod] at hset
    rw [hdiv, hquotient]
    generalize n / weight (i + 1) / 2 ^ down = q at hset ⊢
    rw [weight_succ] at hset
    simp only [shiftRightRound]
    linarith
  · rw [shiftRightRound, hdiv, hremainder]

theorem shiftRight_bits (x : BigUInt) {down : Nat} (hdown : 0 < down) (hdown' : down < 64) :
    ((List.range x.count).foldr (shiftRightRound down) (x, 0)).1 =
      ofNat (x.toNat / 2 ^ down) := by
  have hlt := x.toNat_lt_weight
  obtain ⟨hend, -⟩ := foldr_range_rule (ShiftRightInvariant x.toNat down)
    (n := x.count) (s := (x, 0)) (f := shiftRightRound down)
    ⟨by simp [Nat.div_eq_of_lt hlt, Nat.mod_eq_of_lt hlt], by simp [Nat.div_eq_of_lt hlt]⟩
    (fun i s _ h => h.round hdown hdown')
  rw [weight_zero, Nat.div_one, Nat.mul_one, Nat.mod_one, Nat.add_zero] at hend
  exact eq_ofNat hend

/-- The shift in place agrees with the one that builds its result. -/
theorem shiftRight_eq (x : BigUInt) (amount : Nat) :
    x.shiftRight amount = ofNat (x.toNat / 2 ^ amount) := by
  rw [shiftRight]
  by_cases hzero : amount = 0
  · rw [if_pos hzero, hzero, pow_zero, Nat.div_one, ofNat_toNat]
  · rw [if_neg hzero]
    by_cases hwidth : x.bitWidth ≤ amount
    · rw [if_pos hwidth, Nat.div_eq_of_lt (toNat_lt_two_pow_of_bitWidth_le hwidth)]
      exact eq_ofNat rfl
    · have hwords : (if 0 < amount / 64 then x.shiftRightWords (amount / 64) else x) =
          ofNat (x.toNat / weight (amount / 64)) := by
        split
        · exact eq_ofNat (toNat_shiftRightWords x _)
        · rename_i hext
          rw [show amount / 64 = 0 by omega, weight_zero, Nat.div_one, ofNat_toNat]
      rw [if_neg hwidth, two_pow_eq amount, Nat.mul_comm, ← Nat.div_div_eq_div_mul]
      simp only [hwords]
      by_cases hdown : 0 < amount % 64
      · rw [if_pos hdown, shiftRight_bits _ hdown (Nat.mod_lt _ (by decide)), toNat_ofNat]
      · rw [if_neg hdown, show amount % 64 = 0 by omega, pow_zero, Nat.div_one]

end BigUInt

end YieldMe

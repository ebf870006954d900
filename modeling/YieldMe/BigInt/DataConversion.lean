/-
  BigInt/DataConversion.lean --- big integers as bytes, and as coded containers.

  Bytes are in network order: the number's digits in base 256, none of them a leading
  zero, behind a sign byte if the integer has a sign.  Reading takes any bytes.  A
  coded container holds a sign and the words, the highest first; the decoder checks the
  sign's text and the types, and normalizes the rest.
-/
import YieldMe.Foundation.BigEndian
import YieldMe.BigInt.Signed

set_option autoImplicit false

namespace YieldMe

open BigEndian

namespace BigUInt

/-! ## Writing bytes -/

/-- The inner loop of `serialize()`: the bytes of one word, until the first byte of
the data is written. -/
def serializeWord : Nat → Word → List UInt8 → Nat → List UInt8 × Nat
  | 0, _, data, i => (data, i)
  | rounds + 1, word, data, i =>
      let data := data.set i (word &&& 0xFF).toUInt8
      if i = 0 then (data, i) else serializeWord rounds (word >>> 8) data (i - 1)

/-- `serialize()`. -/
def serialize (x : BigUInt) : List UInt8 :=
  let byteCount := (x.bitWidth + 7) / 8
  if byteCount = 0 then []
  else
    (x.words.foldl (fun s word => serializeWord 8 word s.1 s.2)
      (List.replicate byteCount 0, byteCount - 1)).1

/-- The bytes of a number. -/
def bytes (k n : Nat) : List UInt8 := (bigEndian 256 k n).map UInt8.ofNat

theorem bytes_succ (k n : Nat) : bytes (k + 1) n = bytes k (n / 256) ++ [UInt8.ofNat n] := by
  have hlast : UInt8.ofNat (n % 256) = UInt8.ofNat n := by
    rw [← UInt8.toNat_inj, UInt8.toNat_ofNat', UInt8.toNat_ofNat']
    omega
  rw [bytes, bigEndian, List.map_append, List.map_singleton, hlast, bytes]

/-- The data while the bytes from `i` down are to be written. -/
def pending (i : Nat) (written : List UInt8) : List UInt8 := List.replicate (i + 1) 0 ++ written

theorem pending_set (i : Nat) (written : List UInt8) (b : UInt8) :
    (pending i written).set i b = List.replicate i 0 ++ b :: written := by
  rw [pending, List.replicate_succ', List.append_assoc, List.singleton_append,
    List.set_append_right _ _ (Nat.le_of_eq List.length_replicate), List.length_replicate,
    Nat.sub_self, List.set_cons_zero]

theorem toNat_shiftRight_eight (word : Word) : (word >>> 8).toNat = word.toNat / 256 :=
  Word.toNat_shiftRight word (show 8 < 64 by decide)

theorem low_byte (word : Word) : (word &&& 0xFF).toUInt8 = UInt8.ofNat word.toNat := by
  rw [← UInt8.toNat_inj, UInt64.toNat_toUInt8, UInt64.toNat_and, UInt8.toNat_ofNat']
  have hmask : word.toNat &&& (255 : UInt64).toNat = word.toNat % 2 ^ 8 :=
    Nat.and_two_pow_sub_one_eq_mod word.toNat 8
  rw [hmask, Nat.mod_mod]

/-- The inner loop writes bytes as long as there is room. -/
theorem serializeWord_eq (rounds : Nat) :
    ∀ (word : Word) (i : Nat) (written : List UInt8),
      serializeWord rounds word (pending i written) i =
        if rounds ≤ i then (pending (i - rounds) (bytes rounds word.toNat ++ written), i - rounds)
        else (bytes (i + 1) word.toNat ++ written, 0) := by
  induction rounds with
  | zero =>
      intro word i written
      rw [if_pos (Nat.zero_le i)]
      rfl
  | succ rounds ih =>
      intro word i written
      rw [serializeWord]
      simp only [pending_set, low_byte]
      by_cases hi : i = 0
      · rw [if_pos hi, hi, if_neg (by omega), bytes_succ]
        rfl
      · obtain ⟨j, rfl⟩ : ∃ j, i = j + 1 := ⟨i - 1, by omega⟩
        have hnext := ih (word >>> 8) j (UInt8.ofNat word.toNat :: written)
        rw [pending, toNat_shiftRight_eight] at hnext
        rw [if_neg hi, Nat.add_sub_cancel, hnext]
        by_cases hle : rounds ≤ j
        · rw [if_pos hle, if_pos (by omega), bytes_succ, List.append_assoc, List.singleton_append,
            Nat.add_sub_add_right]
        · rw [if_neg hle, if_neg (by omega), bytes_succ (j + 1), List.append_assoc,
            List.singleton_append]

/-- The outer loop writes the bytes of all words. -/
theorem serialize_words (words : List Word) :
    ∀ (i : Nat) (written : List UInt8), 8 * (words.length - 1) ≤ i → i < 8 * words.length →
      (words.foldl (fun s word => serializeWord 8 word s.1 s.2) (pending i written, i)).1 =
        bytes (i + 1) (wordsToNat words) ++ written := by
  induction words with
  | nil => intro i written _ hlt; exact absurd hlt (Nat.not_lt_zero i)
  | cons word rest ih =>
      intro i written hlow hhigh
      have hword : ∀ k, k ≤ 8 →
          bytes k (wordsToNat rest * 2 ^ 64 + word.toNat) = bytes k word.toNat := by
        intro k hk
        have hpow : (2 : Nat) ^ 64 = 256 ^ (8 - k) * 256 ^ k := by
          rw [← pow_add, Nat.sub_add_cancel hk]
          rfl
        rw [bytes, hpow, ← Nat.mul_assoc, bigEndian_mod, bytes]
      rw [List.foldl_cons, serializeWord_eq, wordsToNat_cons]
      rw [List.length_cons] at hlow hhigh
      by_cases hlast : 8 ≤ i
      · rw [if_pos hlast]
        have hhighPart : (wordsToNat rest * 2 ^ 64 + word.toNat) / 256 ^ 8 = wordsToNat rest := by
          have hw := word.toNat_lt
          omega
        have hparts : bytes (i - 8 + 1 + 8) (wordsToNat rest * 2 ^ 64 + word.toNat) =
            bytes (i - 8 + 1) (wordsToNat rest) ++ bytes 8 word.toNat := by
          rw [← hword 8 (Nat.le_refl 8), bytes, bigEndian_add, List.map_append, hhighPart]
          rfl
        rw [ih (i - 8) _ (by omega) (by omega), ← List.append_assoc, ← hparts,
          show i - 8 + 1 + 8 = i + 1 by omega]
      · have hnil : rest = [] := by
          rw [← List.length_eq_zero_iff]
          omega
        rw [if_neg hlast, hnil, List.foldl_nil]
        rw [← hnil, hword (i + 1) (by omega)]

/-- How many bytes a number takes. -/
def byteCount (x : BigUInt) : Nat := (x.bitWidth + 7) / 8

/-- The bytes written are the number's digits in base 256. -/
theorem serialize_eq (x : BigUInt) : x.serialize = bytes x.byteCount x.toNat := by
  unfold serialize
  simp only
  rw [← byteCount]
  by_cases hzero : x.byteCount = 0
  · rw [if_pos hzero, hzero]
    rfl
  · obtain ⟨i, hi⟩ : ∃ i, x.byteCount = i + 1 := ⟨x.byteCount - 1, by omega⟩
    have hcount : x.count ≠ 0 := by
      intro hnone
      rw [byteCount, bitWidth, if_pos hnone] at hzero
      exact hzero rfl
    have hpos : 0 < x.count := Nat.pos_of_ne_zero hcount
    obtain ⟨hz, -, -⟩ := Word.normalized_shift (get_top_pos hpos)
    have hwidth : x.byteCount =
        (x.count * 64 - (x.get (x.count - 1)).leadingZeroBitCount + 7) / 8 := by
      rw [byteCount, bitWidth, if_neg hcount]
    rw [if_neg hzero, hi, Nat.add_sub_cancel]
    have hwords := serialize_words x.words i []
      (by
        change 8 * (x.count - 1) ≤ i
        omega)
      (by
        change i < 8 * x.count
        omega)
    rw [pending, List.append_nil, List.append_nil] at hwords
    exact hwords

/-! ## Reading bytes -/

/-- The variables of the loop of `init(_: Data)`. -/
structure ReadLoop where
  result : BigUInt
  index : Int
  c : Nat
  word : Word

/-- The body of the loop of `init(_: Data)`. -/
def readByte (s : ReadLoop) (byte : UInt8) : ReadLoop :=
  let word := (s.word <<< 8) + byte.toUInt64
  let c := s.c + 1
  if c = 8 then
    { result := s.result.set s.index.toNat word, index := s.index - 1, c := 0, word := 0 }
  else { s with c, word }

/-- `init(_: Data)`. -/
def ofData (data : List UInt8) : BigUInt :=
  let length := data.length
  if length = 0 then zero
  else
    let c := 8 - length % 8
    let start : ReadLoop :=
      if c = 8 then { result := zero, index := (length / 8 : Nat) - 1, c := 0, word := 0 }
      else { result := zero, index := (length / 8 : Nat), c, word := 0 }
    (data.foldl readByte start).result

/-- `init(_: UnsafeRawBufferPointer)`: the same loop over the bytes of a buffer. -/
def ofBuffer (buffer : List UInt8) : BigUInt := ofData buffer

/-- The number of the bytes read is the number above the word at hand, and this
word. -/
structure ReadInvariant (bytes : List UInt8) (left : Nat) (s : ReadLoop) : Prop where
  left_eq : (left : Int) = 8 * (s.index + 1) - s.c
  c_lt : s.c < 8
  index_ge : -1 ≤ s.index
  word_lt : s.word.toNat < 256 ^ s.c
  number : ∃ high, s.result.toNat = high * weight (s.index + 1).toNat ∧
    ofBigEndian 256 (bytes.map UInt8.toNat) = high * 256 ^ s.c + s.word.toNat

theorem readWord_toNat {word : Word} {c : Nat} (hc : c < 8) (hword : word.toNat < 256 ^ c)
    (byte : UInt8) :
    ((word <<< 8) + byte.toUInt64).toNat = word.toNat * 256 + byte.toNat ∧
      word.toNat * 256 + byte.toNat < 256 ^ (c + 1) := by
  have hbyte := byte.toNat_lt
  have hpow : (256 : Nat) ^ (c + 1) ≤ 256 ^ 8 := Nat.pow_le_pow_right (by decide) hc
  have hless : word.toNat * 256 + byte.toNat < 256 ^ (c + 1) := by
    rw [pow_succ]
    omega
  have hshift : (word <<< 8).toNat = word.toNat * 256 % 2 ^ 64 :=
    Word.toNat_shiftLeft word (show 8 < 64 by decide)
  refine ⟨?_, hless⟩
  rw [UInt64.toNat_add, hshift, UInt8.toNat_toUInt64]
  omega

theorem ReadInvariant.round {bytes : List UInt8} {left : Nat} {s : ReadLoop}
    (h : ReadInvariant bytes (left + 1) s) (byte : UInt8) :
    ReadInvariant (bytes ++ [byte]) left (readByte s byte) := by
  obtain ⟨high, hresult, hnumber⟩ := h.number
  obtain ⟨hword, hless⟩ := readWord_toNat h.c_lt h.word_lt byte
  have hleft := h.left_eq
  have hc := h.c_lt
  have hnumber' : ofBigEndian 256 ((bytes ++ [byte]).map UInt8.toNat) =
      high * 256 ^ (s.c + 1) + ((s.word <<< 8) + byte.toUInt64).toNat := by
    rw [List.map_append, List.map_singleton, ofBigEndian_concat, hnumber, hword, pow_succ]
    ring
  unfold readByte
  by_cases hfull : s.c + 1 = 8
  · simp only [if_pos hfull]
    have hindex : (s.index + 1).toNat = s.index.toNat + 1 := by omega
    refine ⟨?_, (by decide : 0 < 8), ?_, (by decide : (0 : Word).toNat < 256 ^ 0), ?_⟩
    · simp only
      omega
    · simp only
      omega
    · rw [hfull] at hnumber'
      refine ⟨high * 2 ^ 64 + ((s.word <<< 8) + byte.toUInt64).toNat, ?_, ?_⟩
      · have hset := toNat_set s.result s.index.toNat ((s.word <<< 8) + byte.toUInt64)
        have hclear : (s.result.get s.index.toNat).toNat = 0 := by
          rw [toNat_get, hresult, hindex, weight_succ, ← Nat.mul_assoc,
            Nat.mul_div_cancel _ (weight_pos _), Nat.mul_mod_left]
        rw [hclear, Nat.zero_mul, Nat.add_zero, hresult, hindex, weight_succ] at hset
        simp only
        rw [hset, show (s.index - 1 + 1).toNat = s.index.toNat by omega]
        ring
      · rw [hnumber']
        simp
  · simp only [if_neg hfull]
    refine ⟨?_, (by omega : s.c + 1 < 8), h.index_ge, ?_, ⟨high, hresult, hnumber'⟩⟩
    · simp only
      push_cast at hleft ⊢
      omega
    · simp only
      rw [hword]
      exact hless

/-- The whole loop. -/
theorem ReadInvariant.run (data : List UInt8) :
    ∀ {bytes : List UInt8} {s : ReadLoop}, ReadInvariant bytes data.length s →
      ReadInvariant (bytes ++ data) 0 (data.foldl readByte s) := by
  induction data with
  | nil =>
      intro bytes s h
      rw [List.append_nil]
      exact h
  | cons byte data ih =>
      intro bytes s h
      have hnext := ih (h.round byte)
      rwa [List.append_assoc, List.singleton_append] at hnext

/-- Bytes are read as the number they are the digits of. -/
theorem ofData_eq (data : List UInt8) :
    ofData data = ofNat (ofBigEndian 256 (data.map UInt8.toNat)) := by
  unfold ofData
  simp only
  by_cases hlength : data.length = 0
  · rw [if_pos hlength, List.length_eq_zero_iff.mp hlength]
    exact eq_ofNat rfl
  rw [if_neg hlength]
  have hdiv := Nat.div_add_mod data.length 8
  generalize hstart : (if 8 - data.length % 8 = 8 then
      ({ result := zero, index := ((data.length / 8 : Nat) : Int) - 1, c := 0,
         word := 0 } : ReadLoop)
    else { result := zero, index := ((data.length / 8 : Nat) : Int), c := 8 - data.length % 8,
           word := 0 }) = start
  have hinv : ReadInvariant [] data.length start := by
    rw [← hstart]
    split
    · rename_i hfull
      exact ⟨by simp only; omega, (by decide : 0 < 8), by simp only; omega,
        (by decide : (0 : Word).toNat < 256 ^ 0), ⟨0, by rw [toNat_zero, Nat.zero_mul], rfl⟩⟩
    · rename_i hpart
      exact ⟨by simp only; omega, by simp only; omega, by simp only; omega,
        Nat.pow_pos (by decide), ⟨0, by rw [toNat_zero, Nat.zero_mul], by simp [ofBigEndian]⟩⟩
  have hend := hinv.run data
  rw [List.nil_append] at hend
  generalize data.foldl readByte start = s at hend ⊢
  obtain ⟨high, hresult, hnumber⟩ := hend.number
  have hleft := hend.left_eq
  have hc := hend.c_lt
  have hindex := hend.index_ge
  have hword := hend.word_lt
  have hzero : s.c = 0 := by omega
  rw [hzero, pow_zero] at hword hnumber
  rw [show (s.index + 1).toNat = 0 by omega, weight_zero, Nat.mul_one] at hresult
  refine eq_ofNat ?_
  rw [hresult, hnumber, Nat.lt_one_iff.mp hword, Nat.add_zero, Nat.mul_one]

/-! ## Round trips -/

theorem bytes_toNat (k n : Nat) : (bytes k n).map UInt8.toNat = bigEndian 256 k n := by
  rw [bytes, List.map_map]
  refine (List.map_congr_left fun d hd => ?_).trans (List.map_id _)
  have hlt := bigEndian_lt (by decide) k n d hd
  rw [Function.comp_apply, UInt8.toNat_ofNat', id_eq]
  omega

theorem map_toNat_lt (data : List UInt8) : ∀ d ∈ data.map UInt8.toNat, d < 256 := by
  intro d hd
  obtain ⟨b, -, rfl⟩ := List.mem_map.mp hd
  exact b.toNat_lt

theorem bytes_ofBigEndian (data : List UInt8) :
    bytes data.length (ofBigEndian 256 (data.map UInt8.toNat)) = data := by
  have hdigits := bigEndian_ofBigEndian (map_toNat_lt data)
  rw [List.length_map] at hdigits
  rw [bytes, hdigits, List.map_map]
  refine (List.map_congr_left fun b _ => ?_).trans (List.map_id _)
  rw [Function.comp_apply, UInt8.ofNat_toNat, id_eq]

theorem toNat_lt_byteCount (x : BigUInt) : x.toNat < 256 ^ x.byteCount := by
  refine Nat.lt_of_lt_of_le (toNat_lt_two_pow_of_bitWidth_le (Nat.le_refl _)) ?_
  rw [show (256 : Nat) = 2 ^ 8 by decide, ← pow_mul]
  refine Nat.pow_le_pow_right Nat.two_pos ?_
  rw [byteCount]
  omega

/-- What was written is read back. -/
theorem ofData_serialize (x : BigUInt) : ofData x.serialize = x := by
  rw [ofData_eq, serialize_eq, bytes_toNat, ofBigEndian_bigEndian,
    Nat.mod_eq_of_lt (toNat_lt_byteCount x), ofNat_toNat]

/-- Numbers take as many bytes as their size says. -/
theorem byteCount_ofNat {n k : Nat} (hlow : 256 ^ k ≤ n) (hhigh : n < 256 ^ (k + 1)) :
    (ofNat n).byteCount = k + 1 := by
  have hlow' : 8 * k < Nat.size n := by
    rw [Nat.lt_size, pow_mul]
    exact hlow
  have hhigh' : Nat.size n ≤ 8 * (k + 1) := by
    rw [Nat.size_le, pow_mul]
    exact hhigh
  rw [byteCount, bitWidth_eq, toNat_ofNat]
  omega

/-- Bytes without a leading zero are written again. -/
theorem serialize_ofData {first : UInt8} (hfirst : first ≠ 0) (rest : List UInt8) :
    (ofData (first :: rest)).serialize = first :: rest := by
  have hhigh := ofBigEndian_lt (map_toNat_lt (first :: rest))
  have hlow : 256 ^ rest.length ≤ ofBigEndian 256 ((first :: rest).map UInt8.toNat) := by
    have hpos : 1 ≤ first.toNat := Nat.one_le_iff_ne_zero.mpr fun hzero =>
      hfirst (UInt8.toNat_inj.mp (hzero.trans UInt8.toNat_zero.symm))
    rw [List.map_cons, ofBigEndian_cons, List.length_map]
    exact Nat.le_trans (Nat.le_mul_of_pos_left _ hpos) (Nat.le_add_right _ _)
  rw [List.length_map, List.length_cons] at hhigh
  rw [serialize_eq, ofData_eq, byteCount_ofNat hlow hhigh, toNat_ofNat]
  exact bytes_ofBigEndian (first :: rest)

theorem ofData_zero_cons (rest : List UInt8) : ofData (0 :: rest) = ofData rest := by
  rw [ofData_eq, ofData_eq, List.map_cons, ofBigEndian_cons, UInt8.toNat_zero, Nat.zero_mul,
    Nat.zero_add]

/-- Reading and writing again drops the leading zeros and nothing else. -/
theorem serialize_ofData_eq (data : List UInt8) :
    (ofData data).serialize = data.dropWhile (· = 0) := by
  induction data with
  | nil => rfl
  | cons first rest ih =>
      by_cases hfirst : first = 0
      · rw [hfirst, ofData_zero_cons, ih,
          List.dropWhile_cons_of_pos (p := fun b : UInt8 => decide (b = 0)) (decide_eq_true rfl)]
      · rw [serialize_ofData hfirst, List.dropWhile_cons_of_neg (by simpa using hfirst)]

end BigUInt

namespace BigInt

open BigUInt

/-! ## Signed bytes -/

/-- `serialize()`. -/
def serialize (a : BigInt) : List UInt8 :=
  let magnitudeData := a.magnitude.serialize
  if magnitudeData.length = 0 then magnitudeData
  else (if a.sign = .plus then 0 else 1) :: magnitudeData

/-- `init(_: Data)`. -/
def ofData : List UInt8 → BigInt
  -- the sign is taken as it stands, also for a magnitude of zero
  | firstByte :: second :: rest =>
      ⟨BigUInt.ofData (second :: rest), if firstByte &&& 1 = 0 then .plus else .minus⟩
  | _ => ofSign .plus zero

/-- `init(_: UnsafeRawBufferPointer)`. -/
def ofBuffer : List UInt8 → BigInt
  | firstByte :: second :: rest =>
      ⟨BigUInt.ofBuffer (second :: rest), if firstByte &&& 1 = 0 then .plus else .minus⟩
  | _ => ofSign .plus zero

theorem ofBuffer_eq (buffer : List UInt8) : ofBuffer buffer = ofData buffer := by
  cases buffer with
  | nil => rfl
  | cons first rest =>
      cases rest with
      | nil => rfl
      | cons second rest => rfl

/-- What was written is read back, but for a minus sign on zero. -/
theorem ofData_serialize (a : BigInt) : ofData a.serialize = ofInt a.toInt := by
  obtain ⟨x, sign⟩ := a
  have hback := BigUInt.ofData_serialize x
  rw [toInt, ← ofSign_eq]
  unfold serialize ofData
  cases hdata : x.serialize with
  | nil =>
      have hzero : x = zero := by
        rw [hdata] at hback
        rw [← hback]
        rfl
      rw [hzero]
      cases sign <;> rfl
  | cons second rest =>
      have hpos : x.isZero = false := by
        rw [← Bool.not_eq_true]
        intro hzero
        rw [serialize_eq, byteCount, bitWidth_eq, (isZero_iff x).mp hzero] at hdata
        cases hdata
      rw [hdata] at hback
      have hbyte : (if (if sign = Sign.plus then (0 : UInt8) else 1) &&& 1 = 0 then Sign.plus
          else Sign.minus) = sign := by
        cases sign with
        | plus => decide
        | minus => decide
      simp only [List.length_cons, Nat.add_one_ne_zero, if_false, hback, ofSign, hpos,
        Bool.false_eq_true, hbyte]

/-! ## Coded containers -/

/-- An element of an unkeyed container. -/
inductive Coded where
  | text (value : String)
  | word (value : Word)
  deriving DecidableEq

/-- The word of an element, if it is one. -/
def Coded.word? : Coded → Option Word
  | .text _ => none
  | .word value => some value

/-- `encode(to:)`. -/
def encode (a : BigInt) : List Coded :=
  .text (if a.sign = .plus then "+" else "-") ::
    if a.magnitude.words.isEmpty then [.word 0] else a.magnitude.words.reverse.map .word

/-- `init(from:)`. -/
def decode : List Coded → Option BigInt
  | .text "+" :: items =>
      (items.mapM Coded.word?).map fun words => ofSign .plus (ofWords words.reverse)
  | .text "-" :: items =>
      (items.mapM Coded.word?).map fun words => ofSign .minus (ofWords words.reverse)
  | _ => none

theorem mapM_word_iff {items : List Coded} {words : List Word} :
    items.mapM Coded.word? = some words ↔ items = words.map .word := by
  induction items generalizing words with
  | nil =>
      rw [List.mapM_nil]
      constructor
      · intro h
        rw [← Option.some.inj h]
        rfl
      · intro h
        rw [List.map_eq_nil_iff.mp h.symm]
        rfl
  | cons item rest ih =>
      rw [List.mapM_cons]
      cases item with
      | text value =>
          constructor
          · intro h
            cases h
          · intro h
            cases words with
            | nil => cases h
            | cons word words => cases h
      | word value =>
          constructor
          · intro h
            obtain ⟨_, hvalue, h⟩ := Option.bind_eq_some_iff.mp h
            obtain ⟨words', hwords, h⟩ := Option.bind_eq_some_iff.mp h
            rw [← Option.some.inj h, ← Option.some.inj hvalue, List.map_cons, ← ih.mp hwords]
          · intro h
            cases words with
            | nil => cases h
            | cons word words =>
                rw [List.map_cons, List.cons.injEq, Coded.word.injEq] at h
                rw [ih.mpr h.2, h.1]
                rfl

/-- What was encoded is decoded, but for a minus sign on zero. -/
theorem decode_encode (a : BigInt) : decode a.encode = some (ofInt a.toInt) := by
  obtain ⟨x, sign⟩ := a
  have hwords : ∀ sign, ((if x.words.isEmpty then [Coded.word 0]
      else x.words.reverse.map Coded.word).mapM Coded.word?).map
        (fun words => ofSign sign (ofWords words.reverse)) = some (ofSign sign x) := by
    intro sign
    by_cases hempty : x.words.isEmpty = true
    · have hzero : x = ofWords [(0 : Word)].reverse := by
        refine eq_of_toNat_eq ?_
        rw [toNat_ofWords, (isZero_iff x).mp hempty]
        rfl
      rw [if_pos hempty, mapM_word_iff.mpr (List.map_singleton ..).symm, Option.map_some, ← hzero]
    · rw [if_neg hempty, mapM_word_iff.mpr rfl, Option.map_some, List.reverse_reverse]
      exact congrArg some (congrArg (ofSign sign) (eq_of_toNat_eq (toNat_ofWords x.words)))
  rw [toInt, ← ofSign_eq]
  cases sign with
  | plus => exact hwords .plus
  | minus => exact hwords .minus

/-- Which containers are decoded: a sign, and nothing but words behind it. -/
theorem decode_eq_some_iff (items : List Coded) (a : BigInt) :
    decode items = some a ↔
      ∃ (sign : Sign) (words : List Word),
        items = .text (if sign = .plus then "+" else "-") :: words.map .word ∧
          a = ofSign sign (ofWords words.reverse) := by
  constructor
  · intro h
    unfold decode at h
    split at h
    · obtain ⟨words, hwords, rfl⟩ := Option.map_eq_some_iff.mp h
      exact ⟨.plus, words, by rw [mapM_word_iff.mp hwords]; rfl, rfl⟩
    · obtain ⟨words, hwords, rfl⟩ := Option.map_eq_some_iff.mp h
      exact ⟨.minus, words, by rw [mapM_word_iff.mp hwords]; rfl, rfl⟩
    · cases h
  · rintro ⟨sign, words, rfl, rfl⟩
    cases sign with
    | plus =>
        change ((words.map Coded.word).mapM Coded.word?).map _ = _
        rw [mapM_word_iff.mpr rfl, Option.map_some]
    | minus =>
        change ((words.map Coded.word).mapM Coded.word?).map _ = _
        rw [mapM_word_iff.mpr rfl, Option.map_some]

end BigInt

namespace BigUInt

/-- `encode(to:)`. -/
def encode (x : BigUInt) : List BigInt.Coded := (BigInt.ofSign .plus x).encode

/-- `init(from:)`. -/
def decode (items : List BigInt.Coded) : Option BigUInt :=
  (BigInt.decode items).bind fun value =>
    if value.sign = .plus then some value.magnitude else none

/-- What was encoded is decoded. -/
theorem decode_encode (x : BigUInt) : decode x.encode = some x := by
  rw [decode, encode, BigInt.decode_encode, Option.bind_some, BigInt.toInt_ofSign,
    BigInt.signed, ← BigInt.plus_ofNat, if_pos rfl, ofNat_toNat]

theorem decode_eq_some (items : List BigInt.Coded) (x : BigUInt) :
    decode items = some x ↔
      ∃ (sign : Sign) (words : List Word),
        items = .text (if sign = .plus then "+" else "-") :: words.map .word ∧
          x = ofWords words.reverse ∧ (sign = .plus ∨ x.isZero = true) := by
  rw [decode, Option.bind_eq_some_iff]
  constructor
  · rintro ⟨a, ha, hx⟩
    obtain ⟨sign, words, hitems, rfl⟩ := (BigInt.decode_eq_some_iff items a).mp ha
    split at hx
    · rename_i hplus
      obtain rfl := Option.some.inj hx
      refine ⟨sign, words, hitems, rfl, ?_⟩
      unfold BigInt.ofSign at hplus
      split at hplus
      · rename_i hzero
        exact .inr hzero
      · exact .inl hplus
    · cases hx
  · rintro ⟨sign, words, hitems, rfl, hsign⟩
    refine ⟨_, (BigInt.decode_eq_some_iff items _).mpr ⟨sign, words, hitems, rfl⟩, ?_⟩
    have hplus : (BigInt.ofSign sign (ofWords words.reverse)).sign = .plus := by
      unfold BigInt.ofSign
      rcases hsign with rfl | hzero
      · exact ite_self _
      · exact if_pos hzero
    rw [if_pos hplus]
    rfl

end BigUInt

/-! ## Round trips -/

/-- Bytes are read back as the number they were written from, and written again without
their leading zeros; of a signed number only a minus sign on zero is lost.  It is the same
for the bytes of a buffer. -/
theorem bytes_round_trip (x : BigUInt) (data : List UInt8) (a : BigInt) :
    BigUInt.ofData x.serialize = x ∧
      (BigUInt.ofData data).serialize = data.dropWhile (· = 0) ∧
      BigInt.ofData a.serialize = BigInt.ofInt a.toInt ∧
      BigUInt.ofBuffer x.serialize = x ∧
      (BigUInt.ofBuffer data).serialize = data.dropWhile (· = 0) ∧
      BigInt.ofBuffer a.serialize = BigInt.ofInt a.toInt := by
  rw [BigInt.ofBuffer_eq]
  exact ⟨BigUInt.ofData_serialize x, BigUInt.serialize_ofData_eq data, BigInt.ofData_serialize a,
    BigUInt.ofData_serialize x, BigUInt.serialize_ofData_eq data, BigInt.ofData_serialize a⟩

/-- A container is decoded as the number it was encoded from.  It is decoded at all where
it is a sign and words; a magnitude asks for a plus sign, unless it is zero. -/
theorem container_round_trip (x : BigUInt) (a : BigInt) (items : List BigInt.Coded) :
    BigUInt.decode x.encode = some x ∧ BigInt.decode a.encode = some (BigInt.ofInt a.toInt) ∧
      (∀ b, BigInt.decode items = some b ↔
        ∃ (sign : Sign) (words : List Word),
          items = .text (if sign = .plus then "+" else "-") :: words.map .word ∧
            b = BigInt.ofSign sign (BigUInt.ofWords words.reverse)) ∧
      ∀ y, BigUInt.decode items = some y ↔
        ∃ (sign : Sign) (words : List Word),
          items = .text (if sign = .plus then "+" else "-") :: words.map .word ∧
            y = BigUInt.ofWords words.reverse ∧ (sign = .plus ∨ y.isZero = true) :=
  ⟨BigUInt.decode_encode x, BigInt.decode_encode a, BigInt.decode_eq_some_iff items,
    BigUInt.decode_eq_some items⟩

end YieldMe

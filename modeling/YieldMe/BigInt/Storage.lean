/-
  BigInt/Storage.lean --- how a magnitude keeps its words.

  The model of a magnitude is its list of words.  The code keeps up to two words
  inline, and the others in an array or in a slice of one that is shared with other
  numbers.  A number in place changes from one of these to another, and it has to
  empty the array when it goes inline.  `Represents` says that the words kept are those
  of the list and that nothing else is left; every operation on the words keeps it,
  but a shift of a slice past its end, which the shift by bits never asks for.
-/
import YieldMe.Foundation.Clients
import YieldMe.BigInt.Shifts

set_option autoImplicit false

namespace YieldMe

open Clients

/-- `Kind`. -/
inductive Kind where
  | inline (low high : Word)
  | slice (start stop : Nat)
  | array

/-- The stored properties of `BigUInt`. -/
structure Storage where
  kind : Kind
  storage : List Word

namespace Storage

/-! ## Operations -/

/-- `init(word:)`. -/
def ofWord (word : Word) : Storage := ⟨.inline word 0, []⟩

/-- `init(low:high:)`. -/
def ofPair (low high : Word) : Storage := ⟨.inline low high, []⟩

/-- `init()`. -/
def zero : Storage := ⟨.inline 0 0, []⟩

/-- The words an inline value shows. -/
def inlineWords (low high : Word) : List Word :=
  if high ≠ 0 then [low, high] else if low ≠ 0 then [low] else []

/-- `isZero`. -/
def isZero (s : Storage) : Bool :=
  match s.kind with
  | .inline low high => decide (low = 0 ∧ high = 0)
  | .array => s.storage.isEmpty
  | .slice _ _ => false

/-- `count`. -/
def count (s : Storage) : Nat :=
  match s.kind with
  | .inline low high => if high ≠ 0 then 2 else if low ≠ 0 then 1 else 0
  | .slice start stop => stop - start
  | .array => s.storage.length

/-- `subscript(_:)`, reading. -/
def get (s : Storage) (index : Nat) : Word :=
  match s.kind with
  | .inline low high => if index = 0 then low else if index = 1 then high else 0
  | .slice start stop => if index < stop - start then s.storage.getD (start + index) 0 else 0
  | .array => if index < s.storage.length then s.storage.getD index 0 else 0

/-- `ensureArray()`. -/
def ensureArray (s : Storage) : Storage :=
  match s.kind with
  | .inline low high => ⟨.array, inlineWords low high⟩
  | .slice start stop => ⟨.array, (s.storage.take stop).drop start⟩
  | .array => s

/-- `reserveCapacity(_:)`: the words of an inline value go after what is stored. -/
def reserveCapacity (s : Storage) : Storage :=
  match s.kind with
  | .inline low high => ⟨.array, s.storage ++ inlineWords low high⟩
  | .slice start stop => ⟨.array, (s.storage.take stop).drop start⟩
  | .array => s

/-- The loop of `normalize()` over the end of a slice. -/
def trimmed (storage : List Word) (start : Nat) : Nat → Nat
  | 0 => 0
  | stop + 1 =>
      if start < stop + 1 ∧ storage.getD stop 0 = 0 then trimmed storage start stop else stop + 1

/-- `normalize()`. -/
def normalize (s : Storage) : Storage :=
  match s.kind with
  | .slice start stop =>
      let stop := trimmed s.storage start stop
      if stop - start = 0 then zero
      else if stop - start = 1 then ofWord (s.storage.getD start 0)
      else if stop - start = 2 then
        ofPair (s.storage.getD start 0) (s.storage.getD (start + 1) 0)
      else if stop - start = s.storage.length then ⟨.array, s.storage⟩
      else ⟨.slice start stop, s.storage⟩
  | .array => ⟨.array, BigUInt.normalize s.storage⟩
  | .inline _ _ => s

/-- `init(words:)`. -/
def ofWords (words : List Word) : Storage := normalize ⟨.array, words⟩

/-- `init(words:from:to:)`. -/
def ofSlice (words : List Word) (start stop : Nat) : Storage := normalize ⟨.slice start stop, words⟩

/-- `replace(at:with:)`. -/
def replace (s : Storage) (index : Nat) (word : Word) : Option Storage :=
  let s := s.ensureArray
  if index < s.storage.length then
    let s := { s with storage := s.storage.set index word }
    if word = 0 ∧ index = s.storage.length - 1 then some s.normalize else some s
  else none

/-- `extend(at:with:)`. -/
def extend (s : Storage) (index : Nat) (word : Word) : Option Storage :=
  if word = 0 then some s
  else
    let s := s.reserveCapacity
    if s.storage.length ≤ index then
      some { s with storage :=
        s.storage ++ List.replicate (index - s.storage.length) 0 ++ [word] }
    else none

/-- `subscript(_:)`, writing. -/
def set (s : Storage) (index : Nat) (word : Word) : Option Storage :=
  match s.kind with
  | .inline low high =>
      if index = 0 then some { s with kind := .inline word high }
      else if index = 1 then some { s with kind := .inline low word }
      else s.extend index word
  | .slice start stop => if index < stop - start then s.replace index word else s.extend index word
  | .array => if index < s.storage.length then s.replace index word else s.extend index word

/-- The words a value shows. -/
def words (s : Storage) : List Word :=
  match s.kind with
  | .inline low high => inlineWords low high
  | .slice start stop => (s.storage.take stop).drop start
  | .array => s.storage

/-- `load(_:)`. -/
def load (s value : Storage) : Storage :=
  match s.kind with
  | .array => ⟨.array, value.words⟩
  | _ => value

/-- `clear()`. -/
def clear (s : Storage) : Storage := s.load zero

/-- `extract(_:)` of the words from one index up to another. -/
def extract (s : Storage) (lower upper : Nat) : Storage :=
  match s.kind with
  | .inline low high =>
      let (lower, upper) := (min lower 2, min upper 2)
      if lower = 0 ∧ upper = 2 then ofPair low high
      else if lower = 0 ∧ upper = 1 then ofWord low
      else if lower = 1 ∧ upper = 2 then ofWord high
      else zero
  | .slice start stop =>
      let lower' := min stop (start + lower)
      let upper' := max lower' (if stop - start < upper then stop else start + upper)
      ofSlice s.storage lower' upper'
  | .array => ofSlice s.storage (min lower s.storage.length) (min upper s.storage.length)

/-- `shiftRight(byWords:)`. -/
def shiftRightWords (s : Storage) (amount : Nat) : Storage :=
  if amount = 0 then s
  else
    match s.kind with
    | .inline _ high =>
        if amount = 1 then { s with kind := .inline high 0 } else { s with kind := .inline 0 0 }
    | .slice start stop =>
        if stop ≤ start + amount then { s with kind := .inline 0 0 }
        else normalize { s with kind := .slice (start + amount) stop }
    | .array => ⟨.array, s.storage.drop amount⟩

/-- `shiftLeft(byWords:)`. -/
def shiftLeftWords (s : Storage) (amount : Nat) : Storage :=
  if amount = 0 then s
  else if s.isZero then s
  else
    match s.kind with
    | .inline low high =>
        if high = 0 ∧ amount = 1 then { s with kind := .inline 0 low }
        else
          ⟨.array, s.storage ++ List.replicate amount 0 ++
            if high ≠ 0 then [low, high] else [low]⟩
    | .slice start stop =>
        ⟨.array, List.replicate amount 0 ++ (s.storage.take stop).drop start⟩
    | .array => ⟨.array, List.replicate amount 0 ++ s.storage⟩

/-! ## Representation -/

/-- The words kept are those of the number, and an inline value keeps no others. -/
structure Represents (s : Storage) (x : BigUInt) : Prop where
  words : s.words = x.words
  inline : ∀ low high, s.kind = .inline low high → s.storage = []
  slice : ∀ start stop, s.kind = .slice start stop → start < stop ∧ stop ≤ s.storage.length

variable {s : Storage} {x : BigUInt}

/-- Words without a zero at the top are kept as they are. -/
theorem normalize_eq_self {words : List Word} (h : words.getLast? ≠ some 0) :
    BigUInt.normalize words = words := by
  rcases List.eq_nil_or_concat words with rfl | ⟨lower, high, rfl⟩
  · rfl
  · rw [List.concat_eq_append, List.getLast?_concat] at h
    rw [List.concat_eq_append, BigUInt.normalize_concat, if_neg (fun hzero => h (by rw [hzero]))]

theorem words_ofWords (words : List Word) :
    (BigUInt.ofWords words).words = BigUInt.normalize words := rfl

theorem inlineWords_eq (low high : Word) :
    inlineWords low high = BigUInt.normalize [low, high] := by
  have hpair := BigUInt.normalize_concat [low] high
  have hone := BigUInt.normalize_concat [] low
  rw [List.nil_append] at hone
  rw [List.singleton_append] at hpair
  rw [hpair, hone, inlineWords]
  by_cases hhigh : high = 0
  · rw [if_neg (not_not.mpr hhigh), if_pos hhigh]
    by_cases hlow : low = 0
    · rw [if_neg (not_not.mpr hlow), if_pos hlow]
      rfl
    · rw [if_pos hlow, if_neg hlow]
  · rw [if_pos hhigh, if_neg hhigh]

/-- The number kept by a value. -/
theorem Represents.eq_ofWords (h : s.Represents x) : x = BigUInt.ofWords s.words := by
  refine BigUInt.eq_of_toNat_eq ?_
  rw [BigUInt.toNat_ofWords, h.words]
  rfl

/-- What a value is that keeps a number. -/
theorem Represents.cases (h : s.Represents x) :
    (∃ low high, s = ofPair low high ∧ x = BigUInt.ofWords [low, high]) ∨
      (∃ storage start stop, s = ⟨.slice start stop, storage⟩ ∧ start < stop ∧
        stop ≤ storage.length ∧ x.words = (storage.take stop).drop start) ∨
      s = ⟨.array, x.words⟩ := by
  obtain ⟨kind, storage⟩ := s
  cases kind with
  | inline low high =>
      obtain rfl : storage = [] := h.inline low high rfl
      refine .inl ⟨low, high, rfl, h.eq_ofWords.trans (BigUInt.eq_of_toNat_eq ?_)⟩
      rw [BigUInt.toNat_ofWords, BigUInt.toNat_ofWords, ← BigUInt.wordsToNat_normalize [low, high],
        ← inlineWords_eq]
      rfl
  | slice start stop =>
      obtain ⟨hlt, hle⟩ := h.slice start stop rfl
      exact .inr (.inl ⟨storage, start, stop, rfl, hlt, hle, h.words.symm⟩)
  | array =>
      refine .inr (.inr ?_)
      rw [← h.words]
      rfl

theorem represents_array (x : BigUInt) : Represents ⟨.array, x.words⟩ x :=
  ⟨rfl, (fun _ _ hkind => nomatch hkind), fun _ _ hkind => nomatch hkind⟩

theorem represents_slice {storage : List Word} {start stop : Nat} (hlt : start < stop)
    (hle : stop ≤ storage.length) (hwords : x.words = (storage.take stop).drop start) :
    Represents ⟨.slice start stop, storage⟩ x := by
  refine ⟨hwords.symm, (fun _ _ hkind => nomatch hkind), fun start' stop' hkind => ?_⟩
  obtain ⟨rfl, rfl⟩ := Kind.slice.inj hkind
  exact ⟨hlt, hle⟩

theorem represents_ofPair (low high : Word) :
    (ofPair low high).Represents (BigUInt.ofWords [low, high]) :=
  ⟨inlineWords_eq low high, fun _ _ _ => rfl, fun _ _ hkind => nomatch hkind⟩

theorem represents_zero : zero.Represents BigUInt.zero :=
  ⟨rfl, fun _ _ _ => rfl, fun _ _ hkind => nomatch hkind⟩

/-- Every number is kept by some value. -/
theorem represents_ofWords (words : List Word) :
    (ofWords words).Represents (BigUInt.ofWords words) :=
  represents_array (BigUInt.ofWords words)

/-! ## Reading -/

theorem length_slice (storage : List Word) (start : Nat) {stop : Nat} (h : stop ≤ storage.length) :
    ((storage.take stop).drop start).length = stop - start := by
  rw [List.length_drop, List.length_take, Nat.min_eq_left h]

theorem getD_slice (storage : List Word) (start stop index : Nat) :
    ((storage.take stop).drop start).getD index 0 =
      if index < stop - start then storage.getD (start + index) 0 else 0 := by
  rw [List.getD_eq_getElem?_getD, List.getElem?_drop, List.getElem?_take,
    List.getD_eq_getElem?_getD]
  by_cases hlt : index < stop - start
  · rw [if_pos hlt, if_pos (by omega)]
  · rw [if_neg hlt, if_neg (by omega), Option.getD_none]

theorem Represents.count (h : s.Represents x) : s.count = x.count := by
  rw [BigUInt.count, ← h.words]
  obtain ⟨low, high, rfl, -⟩ | ⟨storage, start, stop, rfl, -, hle, -⟩ | rfl := h.cases
  · simp only [Storage.count, Storage.words, ofPair, inlineWords]
    split
    · rfl
    · split <;> rfl
  · exact (length_slice _ _ hle).symm
  · rfl

theorem Represents.get (h : s.Represents x) (index : Nat) : s.get index = x.get index := by
  obtain ⟨low, high, rfl, rfl⟩ | ⟨storage, start, stop, rfl, -, -, hwords⟩ | rfl := h.cases
  · rw [BigUInt.get_ofWords]
    match index with
    | 0 => rfl
    | 1 => rfl
    | index + 2 => rfl
  · rw [BigUInt.get, hwords]
    exact (getD_slice _ _ _ _).symm
  · simp only [Storage.get]
    split
    · rfl
    · rename_i hge
      exact (List.getD_eq_default _ _ (Nat.not_lt.mp hge)).symm

theorem Represents.isZero (h : s.Represents x) : s.isZero = x.isZero := by
  obtain ⟨low, high, rfl, rfl⟩ | ⟨storage, start, stop, rfl, hlt, hle, hwords⟩ | rfl := h.cases
  · rw [BigUInt.isZero, words_ofWords, ← inlineWords_eq]
    simp only [Storage.isZero, ofPair, inlineWords]
    by_cases hhigh : high = 0
    · by_cases hlow : low = 0
      · simp [hhigh, hlow]
      · simp [hhigh, hlow]
    · simp [hhigh]
  · have hlen := length_slice storage start hle
    rw [BigUInt.isZero, hwords]
    cases hslice : (storage.take stop).drop start with
    | nil =>
        rw [hslice, List.length_nil] at hlen
        omega
    | cons w rest => rfl
  · rfl

/-! ## Going to an array -/

theorem ensureArray_eq (s : Storage) : s.ensureArray = ⟨.array, s.words⟩ := by
  obtain ⟨kind, storage⟩ := s
  cases kind with
  | inline low high => rfl
  | slice start stop => rfl
  | array => rfl

/-- Nothing else is left, and so an inline value has room to append. -/
theorem Represents.reserveCapacity (h : s.Represents x) :
    s.reserveCapacity = ⟨.array, x.words⟩ := by
  rw [← h.words]
  obtain ⟨low, high, rfl, -⟩ | ⟨storage, start, stop, rfl, -, -, -⟩ | rfl := h.cases
  · rfl
  · rfl
  · rfl

/-! ## Normalizing -/

theorem trimmed_le (storage : List Word) (start : Nat) :
    ∀ stop, trimmed storage start stop ≤ stop := by
  intro stop
  induction stop with
  | zero => exact Nat.le_refl 0
  | succ stop ih =>
      rw [trimmed]
      split
      · exact Nat.le_succ_of_le ih
      · exact Nat.le_refl _

/-- The words up to one index more. -/
theorem slice_succ (storage : List Word) {start stop : Nat} (hstart : start ≤ stop)
    (hstop : stop < storage.length) :
    (storage.take (stop + 1)).drop start =
      (storage.take stop).drop start ++ [storage.getD stop 0] := by
  rw [List.take_add_one, List.getElem?_eq_getElem hstop, List.getD_eq_getElem _ _ hstop,
    Option.toList_some, List.drop_append_of_le_length]
  rw [List.length_take]
  omega

theorem slice_trimmed (storage : List Word) (start : Nat) :
    ∀ stop, stop ≤ storage.length →
      (storage.take (trimmed storage start stop)).drop start =
        BigUInt.normalize ((storage.take stop).drop start) := by
  intro stop
  induction stop with
  | zero =>
      intro _
      rw [trimmed, List.take_zero, List.drop_nil]
      rfl
  | succ stop ih =>
      intro hstop
      rw [trimmed]
      by_cases hstart : start < stop + 1
      · rw [slice_succ storage (Nat.le_of_lt_succ hstart) hstop, BigUInt.normalize_concat]
        by_cases hzero : storage.getD stop 0 = 0
        · rw [if_pos ⟨hstart, hzero⟩, if_pos hzero]
          exact ih (Nat.le_of_succ_le hstop)
        · rw [if_neg (fun h => hzero h.2), if_neg hzero,
            slice_succ storage (Nat.le_of_lt_succ hstart) hstop]
      · have hnil : (storage.take (stop + 1)).drop start = [] := by
          rw [List.drop_eq_nil_iff, List.length_take]
          omega
        rw [if_neg (fun h => hstart h.1), hnil]
        rfl

/-- Up to two words of a slice go inline. -/
theorem slice_two {storage : List Word} (start : Nat) {stop : Nat} (hle : stop ≤ storage.length) :
    (stop - start = 0 → (storage.take stop).drop start = []) ∧
      (stop - start = 1 → (storage.take stop).drop start = [storage.getD start 0]) ∧
      (stop - start = 2 → (storage.take stop).drop start =
        [storage.getD start 0, storage.getD (start + 1) 0]) := by
  have hone : ∀ i < storage.length, (storage.take (i + 1)).drop i = [storage.getD i 0] := by
    intro i hi
    have hnil : (storage.take i).drop i = [] := by
      rw [List.drop_eq_nil_iff, List.length_take]
      omega
    rw [slice_succ storage (Nat.le_refl i) hi, hnil, List.nil_append]
  refine ⟨fun h => ?_, fun h => ?_, fun h => ?_⟩
  · rw [List.drop_eq_nil_iff, List.length_take]
    omega
  · obtain rfl : stop = start + 1 := by omega
    exact hone start hle
  · obtain rfl : stop = start + 1 + 1 := by omega
    rw [slice_succ storage (Nat.le_succ start) hle, hone start (by omega)]
    rfl

/-- A slice keeps the words that are left of it. -/
theorem represents_ofSlice (storage : List Word) {start stop : Nat} (h : stop ≤ storage.length) :
    (ofSlice storage start stop).Represents
      (BigUInt.ofWords ((storage.take stop).drop start)) := by
  have hle := Nat.le_trans (trimmed_le storage start stop) h
  have hwords := slice_trimmed storage start stop h
  obtain ⟨hzero, hone, htwo⟩ := slice_two start hle
  have hlen := length_slice storage start hle
  unfold ofSlice normalize
  simp only
  rw [← words_ofWords] at hwords
  generalize trimmed storage start stop = stop' at *
  generalize BigUInt.ofWords ((storage.take stop).drop start) = x at *
  have hx : x = BigUInt.ofWords ((storage.take stop').drop start) := by
    refine BigUInt.eq_of_toNat_eq ?_
    rw [BigUInt.toNat_ofWords, hwords]
    rfl
  by_cases h0 : stop' - start = 0
  · rw [if_pos h0, hx, hzero h0]
    exact represents_zero
  rw [if_neg h0]
  by_cases h1 : stop' - start = 1
  · have hpair := represents_ofPair (storage.getD start 0) 0
    have heq : BigUInt.ofWords [storage.getD start 0, 0] = x := by
      refine BigUInt.eq_of_toNat_eq ?_
      rw [hx, hone h1]
      simp [BigUInt.wordsToNat_cons]
    rw [if_pos h1, ← heq]
    exact hpair
  rw [if_neg h1]
  by_cases h2 : stop' - start = 2
  · rw [if_pos h2, hx, htwo h2]
    exact represents_ofPair _ _
  rw [if_neg h2]
  by_cases hall : stop' - start = storage.length
  · have hstorage : storage = x.words := by
      rw [← hwords, show stop' = storage.length by omega, show start = 0 by omega,
        List.take_length, List.drop_zero]
    rw [if_pos hall, hstorage]
    exact represents_array x
  · rw [if_neg hall]
    exact represents_slice (by omega) hle hwords.symm

/-! ## Writing -/

theorem represents_of_words {words : List Word} (h : words = x.words) :
    Represents ⟨.array, words⟩ x := h ▸ represents_array x

/-- A word below the count is replaced in an array. -/
theorem Represents.replace (h : s.Represents x) {index : Nat} (hindex : index < x.count)
    (word : Word) : ∃ s', s.replace index word = some s' ∧ s'.Represents (x.set index word) := by
  have hset : x.set index word = BigUInt.ofWords (x.words.set index word) := by
    rw [BigUInt.set, BigUInt.setWords, if_pos (show index < x.words.length from hindex)]
  rw [Storage.replace, ensureArray_eq, h.words, hset]
  simp only
  rw [if_pos (show index < x.words.length from hindex)]
  by_cases htop : word = 0 ∧ index = (x.words.set index word).length - 1
  · rw [if_pos htop]
    exact ⟨_, rfl, represents_ofWords _⟩
  · rw [if_neg htop]
    refine ⟨_, rfl, represents_of_words ?_⟩
    -- the word at the top is not zero
    have hlast : (x.words.set index word).getLast? ≠ some 0 := by
      rw [List.getLast?_eq_getElem?, List.length_set, List.getElem?_set]
      rw [List.length_set] at htop
      by_cases heq : index = x.words.length - 1
      · rw [if_pos heq, if_pos (show index < x.words.length from hindex)]
        intro hzero
        exact htop ⟨Option.some.inj hzero, heq⟩
      · rw [if_neg heq, ← List.getLast?_eq_getElem?]
        exact x.normalized
    rw [words_ofWords, normalize_eq_self hlast]

/-- A word above the count is appended to an array. -/
theorem Represents.extend (h : s.Represents x) {index : Nat} (hindex : x.count ≤ index)
    (word : Word) : ∃ s', s.extend index word = some s' ∧ s'.Represents (x.set index word) := by
  rw [Storage.extend]
  by_cases hzero : word = 0
  · have hsame : x.set index word = x := by
      refine BigUInt.eq_of_toNat_eq ?_
      have hset := BigUInt.toNat_set x index word
      rw [BigUInt.get_of_le hindex, hzero] at hset
      rw [hzero]
      exact Nat.add_right_cancel hset
    rw [if_pos hzero, hsame]
    exact ⟨s, rfl, h⟩
  · rw [if_neg hzero, h.reserveCapacity]
    simp only
    rw [if_pos (show x.words.length ≤ index from hindex)]
    refine ⟨_, rfl, represents_of_words ?_⟩
    rw [BigUInt.set, BigUInt.setWords,
      if_neg (show ¬ index < x.words.length from Nat.not_lt.mpr hindex), words_ofWords,
      BigUInt.normalize_concat, if_neg hzero]

theorem represents_inline {low high : Word} (h : x.toNat = low.toNat + 2 ^ 64 * high.toNat) :
    (ofPair low high).Represents x := by
  have heq : x = BigUInt.ofWords [low, high] := by
    refine BigUInt.eq_of_toNat_eq ?_
    rw [h, BigUInt.toNat_ofWords, BigUInt.wordsToNat_cons, BigUInt.wordsToNat_cons,
      BigUInt.wordsToNat_nil]
    omega
  rw [heq]
  exact represents_ofPair low high

/-- A pair of words is its number. -/
theorem toNat_pair (low high : Word) :
    (BigUInt.ofWords [low, high]).toNat = low.toNat + 2 ^ 64 * high.toNat := by
  rw [BigUInt.toNat_ofWords, BigUInt.wordsToNat_cons, BigUInt.wordsToNat_cons,
    BigUInt.wordsToNat_nil]
  omega

theorem Represents.set (h : s.Represents x) (index : Nat) (word : Word) :
    ∃ s', s.set index word = some s' ∧ s'.Represents (x.set index word) := by
  have hcount := h.count
  obtain ⟨low, high, rfl, rfl⟩ | ⟨storage, start, stop, rfl, -, -, -⟩ | rfl := h.cases
  · have hset := BigUInt.toNat_set (BigUInt.ofWords [low, high]) index word
    rw [toNat_pair, BigUInt.get_ofWords] at hset
    match index with
    | 0 =>
        refine ⟨ofPair word high, rfl, represents_inline ?_⟩
        rw [List.getD_cons_zero, BigUInt.weight_zero] at hset
        omega
    | 1 =>
        refine ⟨ofPair low word, rfl, represents_inline ?_⟩
        rw [List.getD_cons_succ, List.getD_cons_zero, BigUInt.weight_succ,
          BigUInt.weight_zero] at hset
        omega
    | index + 2 =>
        refine h.extend ?_ word
        rw [← hcount]
        simp only [Storage.count, ofPair]
        split
        · omega
        · split <;> omega
  · by_cases hlt : index < stop - start
    · simp only [Storage.set]
      rw [if_pos hlt]
      exact h.replace (by rw [← hcount]; exact hlt) word
    · simp only [Storage.set]
      rw [if_neg hlt]
      exact h.extend (by rw [← hcount]; exact Nat.not_lt.mp hlt) word
  · by_cases hlt : index < x.words.length
    · simp only [Storage.set]
      rw [if_pos hlt]
      exact h.replace hlt word
    · simp only [Storage.set]
      rw [if_neg hlt]
      exact h.extend (Nat.not_lt.mp hlt) word

theorem Represents.load {value : Storage} {y : BigUInt} (h : s.Represents x)
    (hvalue : value.Represents y) : (s.load value).Represents y := by
  obtain ⟨low, high, rfl, -⟩ | ⟨storage, start, stop, rfl, -, -, -⟩ | rfl := h.cases
  · exact hvalue
  · exact hvalue
  · exact represents_of_words hvalue.words

theorem Represents.clear (h : s.Represents x) : s.clear.Represents BigUInt.zero :=
  h.load represents_zero

/-! ## Parts and shifts by words -/

/-- A part of a slice is a slice of the same array. -/
theorem slice_slice (storage : List Word) {start stop lower upper : Nat} (hlt : start < stop)
    (hle : lower ≤ upper) :
    (storage.take (max (min stop (start + lower))
        (if stop - start < upper then stop else start + upper))).drop (min stop (start + lower)) =
      (((storage.take stop).drop start).take upper).drop lower := by
  refine List.ext_getElem? fun i => ?_
  rw [List.getElem?_drop, List.getElem?_take, List.getElem?_drop, List.getElem?_take,
    List.getElem?_drop, List.getElem?_take]
  by_cases hupper : lower + i < upper
  · rw [if_pos hupper]
    by_cases hstop : start + (lower + i) < stop
    · have hsplit : min stop (start + lower) + i = start + (lower + i) := by omega
      rw [if_pos hstop, hsplit, if_pos (by split <;> omega)]
    · rw [if_neg hstop, if_neg (by split <;> omega)]
  · rw [if_neg hupper, if_neg (by split <;> omega)]

/-- A part of an inline value is one of its words, both or none. -/
theorem represents_extract_pair (low high : Word) {lower upper : Nat} (hle : lower ≤ upper) :
    (Storage.extract (ofPair low high) lower upper).Represents
      ((BigUInt.ofWords [low, high]).extract lower upper) := by
  have hextract := BigUInt.toNat_extract (BigUInt.ofWords [low, high]) lower upper
  have hlow := low.toNat_lt
  have hhigh := high.toNat_lt
  have htwo : BigUInt.weight 2 = 2 ^ 64 * 2 ^ 64 := rfl
  have hone : BigUInt.weight 1 = 2 ^ 64 := rfl
  have hbound : low.toNat + 2 ^ 64 * high.toNat < BigUInt.weight 2 := by
    rw [htwo]
    omega
  have hdiv : (low.toNat + 2 ^ 64 * high.toNat) / 2 ^ 64 = high.toNat := by omega
  have hmod : (low.toNat + 2 ^ 64 * high.toNat) % 2 ^ 64 = low.toNat := by omega
  have hall : 2 ≤ upper → (low.toNat + 2 ^ 64 * high.toNat) % BigUInt.weight upper =
      low.toNat + 2 ^ 64 * high.toNat := fun h2 =>
    Nat.mod_eq_of_lt (Nat.lt_of_lt_of_le hbound (BigUInt.weight_le h2))
  rw [toNat_pair] at hextract
  generalize (BigUInt.ofWords [low, high]).extract lower upper = y at hextract
  simp only [Storage.extract, ofPair]
  by_cases hfull : min lower 2 = 0 ∧ min upper 2 = 2
  · rw [if_pos hfull]
    refine represents_inline ?_
    rw [hextract, hall (by omega), show lower = 0 by omega, BigUInt.weight_zero, Nat.div_one]
  rw [if_neg hfull]
  by_cases hfirst : min lower 2 = 0 ∧ min upper 2 = 1
  · rw [if_pos hfirst]
    refine represents_inline ?_
    rw [hextract, show lower = 0 by omega, show upper = 1 by omega, hone, hmod,
      BigUInt.weight_zero, Nat.div_one, UInt64.toNat_zero, Nat.mul_zero, Nat.add_zero]
  rw [if_neg hfirst]
  by_cases hsecond : min lower 2 = 1 ∧ min upper 2 = 2
  · rw [if_pos hsecond]
    refine represents_inline ?_
    rw [hextract, hall (by omega), show lower = 1 by omega, hone, hdiv, UInt64.toNat_zero,
      Nat.mul_zero, Nat.add_zero]
  rw [if_neg hsecond]
  have hnone : y = BigUInt.zero := by
    refine BigUInt.eq_of_toNat_eq ?_
    rw [hextract, BigUInt.toNat_zero]
    refine Nat.div_eq_of_lt ?_
    by_cases h2 : 2 ≤ lower
    · rw [hall (Nat.le_trans h2 hle)]
      exact Nat.lt_of_lt_of_le hbound (BigUInt.weight_le h2)
    · rw [show upper = lower by omega]
      exact Nat.mod_lt _ (BigUInt.weight_pos lower)
  rw [hnone]
  exact represents_zero

/-- Bounds beyond the end of a list of words make no difference. -/
theorem slice_min (words : List Word) (lower upper : Nat) :
    (words.take (min upper words.length)).drop (min lower words.length) =
      (words.take upper).drop lower := by
  refine List.ext_getElem? fun i => ?_
  rw [List.getElem?_drop, List.getElem?_take, List.getElem?_drop, List.getElem?_take]
  by_cases hupper : lower + i < upper
  · by_cases hlen : lower + i < words.length
    · rw [if_pos hupper, show min lower words.length = lower by omega, if_pos (by omega)]
    · rw [if_pos hupper, List.getElem?_eq_none (Nat.not_lt.mp hlen), if_neg (by omega)]
  · rw [if_neg hupper, if_neg (by omega)]

theorem Represents.extract (h : s.Represents x) {lower upper : Nat} (hle : lower ≤ upper) :
    (s.extract lower upper).Represents (x.extract lower upper) := by
  obtain ⟨low, high, rfl, rfl⟩ | ⟨storage, start, stop, rfl, hlt, hstop, hwords⟩ | rfl := h.cases
  · exact represents_extract_pair low high hle
  · rw [BigUInt.extract, hwords, ← slice_slice storage hlt hle]
    refine represents_ofSlice storage ?_
    split <;> omega
  · rw [BigUInt.extract, ← slice_min]
    exact represents_ofSlice x.words (Nat.min_le_right _ _)

/-- A shift to the right, not past the end. -/
theorem Represents.shiftRightWords (h : s.Represents x) {amount : Nat}
    (hamount : amount < x.count) :
    (s.shiftRightWords amount).Represents (x.shiftRightWords amount) := by
  have hshift := BigUInt.toNat_shiftRightWords x amount
  have hcount := h.count
  rw [Storage.shiftRightWords]
  by_cases hzero : amount = 0
  · have hsame : x.shiftRightWords amount = x :=
      BigUInt.eq_of_toNat_eq (by rw [hshift, hzero, BigUInt.weight_zero, Nat.div_one])
    rw [if_pos hzero, hsame]
    exact h
  rw [if_neg hzero]
  obtain ⟨low, high, rfl, rfl⟩ | ⟨storage, start, stop, rfl, hlt, hstop, hwords⟩ | rfl := h.cases
  · have hone : amount = 1 := by
      rw [← hcount] at hamount
      simp only [Storage.count, ofPair] at hamount
      split at hamount
      · omega
      · split at hamount <;> omega
    have hlow := low.toNat_lt
    simp only [ofPair]
    rw [if_pos hone]
    refine represents_inline ?_
    rw [hshift, hone, toNat_pair, BigUInt.weight_succ, BigUInt.weight_zero, UInt64.toNat_zero]
    omega
  · have hlen : start + amount < stop := by
      rw [← hcount] at hamount
      simp only [Storage.count] at hamount
      omega
    have hdrop : x.shiftRightWords amount =
        BigUInt.ofWords ((storage.take stop).drop (start + amount)) := by
      rw [BigUInt.shiftRightWords, hwords, List.drop_drop]
    simp only
    rw [if_neg (Nat.not_le.mpr hlen), hdrop]
    exact represents_ofSlice storage hstop
  · refine represents_of_words ?_
    have hlast : (x.words.drop amount).getLast? ≠ some 0 := by
      rw [List.getLast?_drop, if_neg (show ¬ x.words.length ≤ amount from Nat.not_le.mpr hamount)]
      exact x.normalized
    rw [BigUInt.shiftRightWords, words_ofWords, normalize_eq_self hlast]

/-- Zero words below a number that is not zero are words of the number. -/
theorem words_shiftLeftWords {x : BigUInt} (h : x.isZero = false) (amount : Nat) :
    (x.shiftLeftWords amount).words = List.replicate amount 0 ++ x.words := by
  have hne : x.words ≠ [] := by
    intro hnil
    rw [BigUInt.isZero, hnil] at h
    cases h
  have hlast : (List.replicate amount 0 ++ x.words).getLast? ≠ some 0 := by
    rw [List.getLast?_append_of_ne_nil _ hne]
    exact x.normalized
  rw [BigUInt.shiftLeftWords, words_ofWords, normalize_eq_self hlast]

theorem Represents.shiftLeftWords (h : s.Represents x) (amount : Nat) :
    (s.shiftLeftWords amount).Represents (x.shiftLeftWords amount) := by
  have hshift := BigUInt.toNat_shiftLeftWords x amount
  rw [Storage.shiftLeftWords, h.isZero]
  by_cases hamount : amount = 0
  · have hsame : x.shiftLeftWords amount = x :=
      BigUInt.eq_of_toNat_eq (by rw [hshift, hamount, BigUInt.weight_zero, Nat.mul_one])
    rw [if_pos hamount, hsame]
    exact h
  rw [if_neg hamount]
  by_cases hzero : x.isZero = true
  · have hsame : x.shiftLeftWords amount = x :=
      BigUInt.eq_of_toNat_eq (by rw [hshift, (BigUInt.isZero_iff x).mp hzero, Nat.zero_mul])
    rw [if_pos hzero, hsame]
    exact h
  rw [if_neg hzero]
  have hwords := words_shiftLeftWords (Bool.not_eq_true _ ▸ hzero) amount
  obtain ⟨low, high, rfl, hx⟩ | ⟨storage, start, stop, rfl, -, -, hslice⟩ | rfl := h.cases
  · simp only [ofPair]
    by_cases hone : high = 0 ∧ amount = 1
    · rw [if_pos hone]
      refine represents_inline ?_
      rw [hshift, hx, toNat_pair, hone.1, hone.2, BigUInt.weight_succ, BigUInt.weight_zero,
        UInt64.toNat_zero]
      omega
    · rw [if_neg hone]
      refine represents_of_words ?_
      rw [hwords, ← h.words, List.nil_append]
      simp only [Storage.words, ofPair, inlineWords]
      by_cases hhigh : high = 0
      · have hlow : low ≠ 0 := by
          intro hlow
          refine hzero ((BigUInt.isZero_iff x).mpr ?_)
          rw [hx, toNat_pair, hlow, hhigh]
          rfl
        rw [if_neg (not_not.mpr hhigh), if_neg (not_not.mpr hhigh), if_pos hlow]
      · rw [if_pos hhigh, if_pos hhigh]
  · refine represents_of_words ?_
    rw [hwords, hslice]
  · exact represents_of_words hwords.symm

/-! ## A shift of a slice past its end -/

/-- The words of the array come back with the next word written above them. -/
theorem Represents.set_past_end {storage : List Word} {start stop : Nat}
    (h : Represents ⟨.slice start stop, storage⟩ x) {amount : Nat} (hamount : x.count ≤ amount)
    {index : Nat} {word : Word} (hindex : 2 ≤ index) (hword : word ≠ 0) :
    ((Storage.shiftRightWords ⟨.slice start stop, storage⟩ amount).set index word).map
        (fun s => BigUInt.wordsToNat s.words) =
      (if storage.length ≤ index then
        some (BigUInt.wordsToNat storage + word.toNat * BigUInt.weight index) else none) ∧
      0 < BigUInt.wordsToNat storage := by
  obtain ⟨hlt, hstop⟩ := h.slice start stop rfl
  have hcount : stop - start = x.count := h.count
  refine ⟨?_, ?_⟩
  · have hstale : Storage.shiftRightWords ⟨.slice start stop, storage⟩ amount =
        ⟨.inline 0 0, storage⟩ := by
      rw [Storage.shiftRightWords, if_neg (by omega)]
      simp only
      rw [if_pos (by omega)]
    have hextend : Storage.set ⟨.inline 0 0, storage⟩ index word =
        Storage.extend ⟨.inline 0 0, storage⟩ index word := by
      match index with
      | index + 2 => rfl
    have hreserve : Storage.reserveCapacity ⟨.inline 0 0, storage⟩ = ⟨.array, storage⟩ :=
      congrArg (Storage.mk .array) (List.append_nil storage)
    rw [hstale, hextend, Storage.extend, if_neg hword, hreserve]
    simp only
    split
    · rename_i hle
      rw [Option.map_some]
      simp only [Storage.words]
      have hweight : BigUInt.weight index =
          (2 ^ 64) ^ storage.length * BigUInt.weight (index - storage.length) := by
        rw [← BigUInt.weight, ← BigUInt.weight_add, Nat.add_sub_of_le hle]
      rw [List.append_assoc, BigUInt.wordsToNat_append, BigUInt.wordsToNat_append,
        BigUInt.wordsToNat_replicate_zero, List.length_replicate, BigUInt.wordsToNat_cons,
        BigUInt.wordsToNat_nil, hweight, Nat.zero_mul, Nat.zero_add, Nat.zero_add]
      change _ = some (_ + word.toNat * (_ * (2 ^ 64) ^ _))
      congr 2
      ring
    · rfl
  · refine Nat.pos_of_ne_zero fun hzero => ?_
    have hpos : 0 < x.count := by omega
    have htop := BigUInt.get_top_pos hpos
    rw [← h.get] at htop
    simp only [Storage.get] at htop
    rw [if_pos (by omega), BigUInt.toNat_getD, hzero, Nat.zero_div, Nat.zero_mod] at htop
    exact Nat.lt_irrefl 0 htop

/-! ## Clients of the words -/

/-- A value and the number it keeps. -/
structure Kept where
  value : Storage
  number : BigUInt
  represents : value.Represents number

/-- What an algorithm calls on a number in place.  After `extract` it goes on with the
part. -/
inductive Op where
  | isZero
  | count
  | get (index : Nat)
  | set (index : Nat) (word : Word)
  | ensureArray
  | reserveCapacity
  | load (value : Kept)
  | clear
  | extract (lower upper : Nat)
  | shiftRight (amount : Nat)
  | shiftLeft (amount : Nat)

/-- The answers to the calls. -/
@[reducible] def Answer : Op → Type
  | .isZero => Bool
  | .count => Nat
  | .get _ => Word
  | _ => Unit

/-- The calls on what is stored. -/
def call : Implementation Storage Answer
  | s, .isZero => some (s, s.isZero)
  | s, .count => some (s, s.count)
  | s, .get index => some (s, s.get index)
  | s, .set index word => (s.set index word).map fun s => (s, ())
  | s, .ensureArray => some (s.ensureArray, ())
  | s, .reserveCapacity => some (s.reserveCapacity, ())
  | s, .load value => some (s.load value.value, ())
  | s, .clear => some (s.clear, ())
  | s, .extract lower upper => some (s.extract lower upper, ())
  | s, .shiftRight amount => some (s.shiftRightWords amount, ())
  | s, .shiftLeft amount => some (s.shiftLeftWords amount, ())

/-- The calls on the list of words. -/
def specified : Specification BigUInt Answer
  | x, .isZero => (x, x.isZero)
  | x, .count => (x, x.count)
  | x, .get index => (x, x.get index)
  | x, .set index word => (x.set index word, ())
  | x, .ensureArray => (x, ())
  | x, .reserveCapacity => (x, ())
  | _, .load value => (value.number, ())
  | _, .clear => (.zero, ())
  | x, .extract lower upper => (x.extract lower upper, ())
  | x, .shiftRight amount => (x.shiftRightWords amount, ())
  | x, .shiftLeft amount => (x.shiftLeftWords amount, ())

/-- The bounds of a part are a range, and a shift to the right leaves a word. -/
def Allowed (x : BigUInt) : Op → Prop
  | .extract lower upper => lower ≤ upper
  | .shiftRight amount => amount < x.count
  | _ => True

/-- What is stored does what the list of words does. -/
theorem implements : Implements call specified Allowed Represents := by
  intro s x op h hallowed
  cases op with
  | isZero => exact ⟨s, by rw [call, h.isZero, specified], h⟩
  | count => exact ⟨s, by rw [call, h.count, specified], h⟩
  | get index => exact ⟨s, by rw [call, h.get, specified], h⟩
  | set index word =>
      obtain ⟨s', hset, hs'⟩ := h.set index word
      exact ⟨s', by rw [call, hset, Option.map_some, specified], hs'⟩
  | ensureArray => exact ⟨_, rfl, by rw [ensureArray_eq]; exact represents_of_words h.words⟩
  | reserveCapacity => exact ⟨_, rfl, by rw [h.reserveCapacity]; exact represents_array x⟩
  | load value => exact ⟨_, rfl, h.load value.represents⟩
  | clear => exact ⟨_, rfl, h.clear⟩
  | extract lower upper => exact ⟨_, rfl, h.extract hallowed⟩
  | shiftRight amount => exact ⟨_, rfl, h.shiftRightWords hallowed⟩
  | shiftLeft amount => exact ⟨_, rfl, h.shiftLeftWords amount⟩

/-! ## A shift to the right in place -/

/-- `bitWidth`, and what follows it. -/
def bitWidth {Result : Type} (next : Nat → Client Answer Result) : Client Answer Result :=
  .call .count fun count =>
    if count = 0 then next 0
    else .call (.get (count - 1)) fun top => next (count * 64 - top.leadingZeroBitCount)

/-- The loop of `shiftRight(by:)` over the words below an index. -/
def shiftRightLoop (down : Nat) : Nat → Word → Client Answer Unit
  | 0, _ => .done ()
  | i + 1, highbits =>
      .call (.get i) fun word =>
        .call (.set i (highbits ||| word >>> UInt64.ofNat down)) fun _ =>
          shiftRightLoop down i (word <<< UInt64.ofNat (64 - down))

/-- `shiftRight(by:)` after the shift by words. -/
def shiftRightBits (down : Nat) : Client Answer Unit :=
  if 0 < down then .call .count fun count => shiftRightLoop down count 0 else .done ()

/-- `shiftRight(by:)`. -/
def shiftRight (amount : Nat) : Client Answer Unit :=
  if amount = 0 then .done ()
  else
    bitWidth fun width =>
      if width ≤ amount then .call .clear fun _ => .done ()
      else if 0 < amount / 64 then
        .call (.shiftRight (amount / 64)) fun _ => shiftRightBits (amount % 64)
      else shiftRightBits (amount % 64)

theorem bitWidth_spec {Result : Type} (x : BigUInt) (next : Nat → Client Answer Result) :
    (bitWidth next).meaning specified x = (next x.bitWidth).meaning specified x ∧
      ((bitWidth next).Careful specified Allowed x ↔
        (next x.bitWidth).Careful specified Allowed x) := by
  let after : Client Answer Result :=
    if x.count = 0 then next 0
    else .call (.get (x.count - 1)) fun top => next (x.count * 64 - top.leadingZeroBitCount)
  have hmeaning : (bitWidth next).meaning specified x = after.meaning specified x := rfl
  have hcareful : (bitWidth next).Careful specified Allowed x ↔
      after.Careful specified Allowed x := Iff.of_eq (true_and _)
  rw [hmeaning, hcareful, BigUInt.bitWidth]
  by_cases hzero : x.count = 0
  · simp only [after, if_pos hzero]
    exact ⟨trivial, trivial⟩
  · simp only [after, if_neg hzero]
    exact ⟨rfl, Iff.of_eq (true_and _)⟩

theorem shiftRightLoop_spec (down : Nat) :
    ∀ n x highbits,
      (shiftRightLoop down n highbits).meaning specified x =
        (((List.range n).foldr (BigUInt.shiftRightRound down) (x, highbits)).1, ()) ∧
      (shiftRightLoop down n highbits).Careful specified Allowed x := by
  intro n
  induction n with
  | zero => exact fun x highbits => ⟨rfl, trivial⟩
  | succ n ih =>
      intro x highbits
      obtain ⟨hmeaning, hcareful⟩ := ih
        (x.set n (highbits ||| x.get n >>> UInt64.ofNat down))
        (x.get n <<< UInt64.ofNat (64 - down))
      rw [List.range_succ, List.foldr_append]
      exact ⟨hmeaning, trivial, trivial, hcareful⟩

theorem shiftRightBits_spec (down : Nat) (x : BigUInt) :
    (shiftRightBits down).meaning specified x =
      (if 0 < down then
        ((List.range x.count).foldr (BigUInt.shiftRightRound down) (x, 0)).1 else x, ()) ∧
      (shiftRightBits down).Careful specified Allowed x := by
  rw [shiftRightBits]
  by_cases hdown : 0 < down
  · obtain ⟨hmeaning, hcareful⟩ := shiftRightLoop_spec down x.count x 0
    rw [if_pos hdown, if_pos hdown]
    exact ⟨hmeaning, trivial, hcareful⟩
  · rw [if_neg hdown, if_neg hdown]
    exact ⟨rfl, trivial⟩

/-- The guard on the width keeps the shift by words from the end. -/
theorem shiftRight_spec (x : BigUInt) (amount : Nat) :
    (shiftRight amount).meaning specified x = (x.shiftRight amount, ()) ∧
      (shiftRight amount).Careful specified Allowed x := by
  rw [shiftRight, BigUInt.shiftRight]
  by_cases hzero : amount = 0
  · rw [if_pos hzero, if_pos hzero]
    exact ⟨rfl, trivial⟩
  rw [if_neg hzero, if_neg hzero, (bitWidth_spec x _).1, (bitWidth_spec x _).2]
  by_cases hwidth : x.bitWidth ≤ amount
  · rw [if_pos hwidth, if_pos hwidth]
    exact ⟨rfl, trivial, trivial⟩
  rw [if_neg hwidth, if_neg hwidth]
  by_cases hext : 0 < amount / 64
  · have hwords : amount / 64 < x.count := by
      rw [BigUInt.bitWidth] at hwidth
      split at hwidth
      · omega
      · omega
    obtain ⟨hmeaning, hcareful⟩ :=
      shiftRightBits_spec (amount % 64) (x.shiftRightWords (amount / 64))
    simp only [if_pos hext]
    exact ⟨hmeaning, hwords, hcareful⟩
  · obtain ⟨hmeaning, hcareful⟩ := shiftRightBits_spec (amount % 64) x
    simp only [if_neg hext]
    exact ⟨hmeaning, hcareful⟩

/-- Every algorithm on the words, whatever it calls and however it goes on with the answers,
gets from the stored words the result that the list of words gives, and leaves the stored
words in step, as long as it never shifts past the end.  The shift to the right in place
is one of them. -/
theorem clients_represent {Result : Type} {s : Storage} {x : BigUInt} (h : s.Represents x) :
    (∀ client : Client Answer Result, client.Careful specified Allowed x →
      ∃ s', client.run call s = some (s', (client.meaning specified x).2) ∧
        s'.Represents (client.meaning specified x).1) ∧
    ∀ amount, ∃ s', (shiftRight amount).run call s = some (s', ()) ∧
      s'.Represents (x.shiftRight amount) := by
  refine ⟨fun client hcareful => implements.run client s x h hcareful, fun amount => ?_⟩
  obtain ⟨hmeaning, hcareful⟩ := shiftRight_spec x amount
  have hrun := implements.run (shiftRight amount) s x h hcareful
  rwa [hmeaning] at hrun

theorem clients_represent_slice :
    (∀ client : Client Answer Nat,
      client.Careful specified Allowed (BigUInt.ofWords [1, 2, 3]) →
        ∃ s', client.run call (ofSlice [9, 1, 2, 3] 1 4) =
            some (s', (client.meaning specified (BigUInt.ofWords [1, 2, 3])).2) ∧
          s'.Represents (client.meaning specified (BigUInt.ofWords [1, 2, 3])).1) ∧
      ∀ amount, ∃ s', (shiftRight amount).run call (ofSlice [9, 1, 2, 3] 1 4) = some (s', ()) ∧
        s'.Represents ((BigUInt.ofWords [1, 2, 3]).shiftRight amount) :=
  clients_represent (represents_ofSlice [9, 1, 2, 3] (by decide))

end Storage

end YieldMe

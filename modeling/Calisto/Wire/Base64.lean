import Calisto.Wire.Text
import Calisto.Lib.Base64

/-!
# Fields in base64

`b64_encode` and `b64_decode`, which every request passes through.  An index out of range panics, here `none`.
-/

namespace Calisto

/-- The alphabet. -/
def B64 : Bytes := utf8 "ABCDEFGHIJKLMNOPQRSTUVWXYZabcdefghijklmnopqrstuvwxyz0123456789+/".toList

/-- `=`. -/
def pad : UInt8 := 61

/-! ### Encoding -/

/-- `B64[i] as char`. -/
def b64Char (i : UInt32) : Option Char := (B64[i.toNat]?).map fun b => Char.ofNat b.toNat

/-- The number that three bytes make. -/
def joined (b0 b1 b2 : UInt8) : UInt32 := (b0.toUInt32 <<< 16) ||| (b1.toUInt32 <<< 8) ||| b2.toUInt32

/-- The four characters of a chunk. -/
def encodeChunk (chunk : Bytes) : Option Str := do
  let n := joined (← chunk[0]?) (chunk[1]?.getD 0) (chunk[2]?.getD 0)
  let d0 ← b64Char ((n >>> 18) &&& 63)
  let d1 ← b64Char ((n >>> 12) &&& 63)
  let d2 ← if chunk.length > 1 then b64Char ((n >>> 6) &&& 63) else some '='
  let d3 ← if chunk.length > 2 then b64Char (n &&& 63) else some '='
  return [d0, d1, d2, d3]

/-- `data.chunks(3)`. -/
def chunks3 : Bytes → List Bytes
  | a :: b :: c :: rest => [a, b, c] :: chunks3 rest
  | [] => []
  | last => [last]

/-- `b64_encode`. -/
def b64Encode (data : Bytes) : Option Str := ((chunks3 data).mapM encodeChunk).map List.flatten

/-! ### Decoding -/

/-- `table[b]`. -/
def table (b : UInt8) : Int16 :=
  match B64.idxOf? b with
  | some i => Int16.ofNat i
  | none => -1

/-- `x as u8`. -/
def asU8 (x : Int16) : UInt8 := x.toUInt16.toUInt8

def firstByte (c0 c1 : Int16) : Int16 := (c0 <<< 2) ||| (c1 >>> 4)

def secondByte (c1 c2 : Int16) : Int16 := ((c1 &&& 0x0f) <<< 4) ||| (c2 >>> 2)

def thirdByte (c2 c3 : Int16) : Int16 := ((c2 &&& 0x03) <<< 6) ||| c3

/-- The third or fourth digit of a group. -/
def digit (b : UInt8) : Int16 := if b = pad then -1 else table b

/-- The body of the loop at `i`: `none` when it panics, `some none` when it breaks, else the bytes that it pushes. -/
def decodeGroup (bytes : Bytes) (i : Nat) : Option (Option Bytes) := do
  let c0 := table (← bytes[i]?)
  let c1 := table (← bytes[i + 1]?)
  if c0 < 0 ∨ c1 < 0 then return none
  let b0 := asU8 (firstByte c0 c1)
  let c2 := digit (← bytes[i + 2]?)
  if c2 < 0 then return some [b0]
  let b1 := asU8 (secondByte c1 c2)
  let c3 := digit (← bytes[i + 3]?)
  if c3 < 0 then return some [b0, b1]
  return some [b0, b1, asU8 (thirdByte c2 c3)]

/-- The loop from `i` on. -/
def decodeLoop (bytes : Bytes) (i : Nat) (out : Bytes) : Option Bytes :=
  if i + 1 < bytes.length then
    match decodeGroup bytes i with
    | none => none
    | some none => some out
    | some (some more) => decodeLoop bytes (i + 4) (out ++ more)
  else some out
termination_by bytes.length - i

/-- `out` at the end of `b64_decode`. -/
def decodedBytes (bytes : Bytes) : Option Bytes := decodeLoop (utf8 (fromUtf8Lossy bytes)) 0 []

/-- `b64_decode`. -/
def b64Decode (bytes : Bytes) : Option Str := (decodedBytes bytes).map fromUtf8Lossy

/-! ### Digits -/

/-- The bytes of the literal. -/
theorem B64_eq : B64 =
    [65, 66, 67, 68, 69, 70, 71, 72, 73, 74, 75, 76, 77, 78, 79, 80, 81, 82, 83, 84, 85, 86, 87, 88, 89, 90, 97, 98,
      99, 100, 101, 102, 103, 104, 105, 106, 107, 108, 109, 110, 111, 112, 113, 114, 115, 116, 117, 118, 119, 120, 121,
      122, 48, 49, 50, 51, 52, 53, 54, 55, 56, 57, 43, 47] := by
  decide +kernel

theorem length_B64 : B64.length = 64 := by
  rw [B64_eq]
  rfl

theorem pad_not_mem : pad ∉ B64 := by
  rw [B64_eq]
  decide

private theorem toInt_digit {d : Nat} (hd : d < 64) : (Int16.ofNat d).toInt = (d : Int) :=
  Int16.toInt_ofNat_of_lt (by omega)

private theorem digit_not_neg {d : Nat} (hd : d < 64) : ¬Int16.ofNat d < 0 := by
  rw [Int16.lt_iff_toInt_lt, toInt_digit hd, Int16.toInt_zero]
  omega

theorem table_neg_iff (b : UInt8) : table b < 0 ↔ b ∉ B64 := by
  have hlen := length_B64
  unfold table
  split
  · rename_i i hi
    obtain ⟨hlt, hget, -⟩ := List.idxOf?_eq_some_iff.1 hi
    have hmem : b ∈ B64 := by
      rw [← hget]
      exact List.getElem_mem hlt
    exact iff_of_false (digit_not_neg (by omega)) (not_not_intro hmem)
  · rename_i hnone
    exact iff_of_true (by decide) (by simpa using hnone)

/-- The padding has no entry in the table, so that the test for it changes nothing. -/
theorem digit_eq (b : UInt8) : digit b = table b := by
  unfold digit
  split
  · rename_i h
    subst h
    rw [table, List.idxOf?_eq_none_iff.2 pad_not_mem]
  · rfl

theorem firstByte_ofNat : ∀ x < 64, ∀ y < 64,
    (firstByte (.ofNat x) (.ofNat y)).toInt = ((x * 4 + y / 16 : Nat) : Int) := by decide +kernel

theorem secondByte_ofNat : ∀ x < 64, ∀ y < 64,
    (secondByte (.ofNat x) (.ofNat y)).toInt = ((x % 16 * 16 + y / 4 : Nat) : Int) := by decide +kernel

theorem thirdByte_ofNat : ∀ x < 64, ∀ y < 64,
    (thirdByte (.ofNat x) (.ofNat y)).toInt = ((x % 4 * 64 + y : Nat) : Int) := by decide +kernel

/-- The cast keeps what fits in a byte. -/
theorem toNat_asU8 {x : Int16} {n : Nat} (h : x.toInt = (n : Int)) (hn : n < 256) : (asU8 x).toNat = n := by
  have hbits : (x.toBitVec.toNat : Int) = n := by
    have hint : x.toBitVec.toInt = (n : Int) := h
    rw [BitVec.toInt_eq_toNat_cond] at hint
    have := x.toBitVec.isLt
    split at hint <;> omega
  have hu : x.toUInt16.toNat = x.toBitVec.toNat := rfl
  rw [asU8, UInt16.toNat_toUInt8, hu]
  omega

/-! ### Reading past the end -/

/-- Is there a character of the alphabet at `i`? -/
def letterAt (bytes : Bytes) (i : Nat) : Bool := (bytes[i]?).any (· ∈ B64)

/-- The bytes end within a group, after two characters of the alphabet, or after three of them, and nothing before
stops the loop: each group begins with two characters of the alphabet. -/
def Ragged (bytes : Bytes) : Prop :=
  (bytes.length % 4 = 2 ∨ bytes.length % 4 = 3 ∧ letterAt bytes (bytes.length - 1)) ∧
    ∀ j < bytes.length / 4 + 1, letterAt bytes (4 * j) ∧ letterAt bytes (4 * j + 1)

instance (bytes : Bytes) : Decidable (Ragged bytes) := inferInstanceAs (Decidable (_ ∧ _))

theorem letterAt_eq {bytes : Bytes} {i : Nat} (h : i < bytes.length) : letterAt bytes i = ¬table bytes[i] < 0 := by
  unfold letterAt
  simp [h, table_neg_iff]

/-- What a round of the loop comes to: it panics, breaks or goes on. -/
theorem decodeGroup_cases {bytes : Bytes} {i : Nat} (h : i + 1 < bytes.length) :
    (letterAt bytes i ∧ letterAt bytes (i + 1)) ∧
        (bytes.length = i + 2 ∨ bytes.length = i + 3 ∧ letterAt bytes (i + 2)) ∧ decodeGroup bytes i = none ∨
      ¬(letterAt bytes i ∧ letterAt bytes (i + 1)) ∧ decodeGroup bytes i = some none ∨
      (letterAt bytes i ∧ letterAt bytes (i + 1)) ∧
        ¬(bytes.length = i + 2 ∨ bytes.length = i + 3 ∧ letterAt bytes (i + 2)) ∧
        ∃ more, decodeGroup bytes i = some (some more) := by
  have h0 : bytes[i]? = some bytes[i] := List.getElem?_eq_getElem (by omega)
  have h1 : bytes[i + 1]? = some bytes[i + 1] := List.getElem?_eq_getElem h
  have hlt : i < bytes.length := by omega
  have hl0 := letterAt_eq hlt
  have hl1 := letterAt_eq h
  by_cases hstop : table bytes[i] < 0 ∨ table bytes[i + 1] < 0
  · have hnot : ¬(letterAt bytes i ∧ letterAt bytes (i + 1)) := by
      rw [hl0, hl1, ← not_or]
      exact not_not_intro hstop
    refine .inr (.inl ⟨hnot, ?_⟩)
    simp [decodeGroup, h0, h1, hstop]
  have hletters : letterAt bytes i ∧ letterAt bytes (i + 1) := by
    rw [hl0, hl1, ← not_or]
    exact hstop
  by_cases h2 : i + 2 < bytes.length
  · have hb2 : bytes[i + 2]? = some bytes[i + 2] := List.getElem?_eq_getElem h2
    have hl2 := letterAt_eq h2
    by_cases hneg : table bytes[i + 2] < 0
    · refine .inr (.inr ⟨hletters, ?_, ?_⟩)
      · rw [hl2]
        rintro (hlen | ⟨-, hn⟩)
        · omega
        · exact hn hneg
      · simp [decodeGroup, h0, h1, hb2, hstop, digit_eq, hneg]
    by_cases h3 : i + 3 < bytes.length
    · have hb3 : bytes[i + 3]? = some bytes[i + 3] := List.getElem?_eq_getElem h3
      refine .inr (.inr ⟨hletters, by omega, ?_⟩)
      by_cases hneg3 : table bytes[i + 3] < 0
      · simp [decodeGroup, h0, h1, hb2, hb3, hstop, digit_eq, hneg, hneg3]
      · simp [decodeGroup, h0, h1, hb2, hb3, hstop, digit_eq, hneg, hneg3]
    · have hb3 : bytes[i + 3]? = none := List.getElem?_eq_none (by omega)
      refine .inl ⟨hletters, .inr ⟨by omega, by rwa [hl2]⟩, ?_⟩
      simp [decodeGroup, h0, h1, hb2, hb3, hstop, digit_eq, hneg]
  · have hb2 : bytes[i + 2]? = none := List.getElem?_eq_none (by omega)
    refine .inl ⟨hletters, .inl (by omega), ?_⟩
    simp [decodeGroup, h0, h1, hb2, hstop]

/-- The loop from `i` on panics when `k` groups later the bytes end within a group. -/
theorem decodeLoop_eq_none_iff (bytes : Bytes) (i : Nat) (out : Bytes) :
    decodeLoop bytes i out = none ↔ ∃ k,
      (bytes.length = i + 4 * k + 2 ∨ bytes.length = i + 4 * k + 3 ∧ letterAt bytes (i + 4 * k + 2)) ∧
        ∀ j < k + 1, letterAt bytes (i + 4 * j) ∧ letterAt bytes (i + 4 * j + 1) := by
  induction i, out using decodeLoop.induct bytes with
  | case1 i out h hpanic =>
    rw [decodeLoop, if_pos h, hpanic]
    rcases decodeGroup_cases h with ⟨hl, hend, -⟩ | ⟨-, hbreak⟩ | ⟨-, -, more, hmore⟩
    · refine iff_of_true rfl ⟨0, hend, fun j hj => ?_⟩
      obtain rfl : j = 0 := by omega
      exact hl
    · simp [hpanic] at hbreak
    · simp [hpanic] at hmore
  | case2 i out h hbreak =>
    rw [decodeLoop, if_pos h, hbreak]
    rcases decodeGroup_cases h with ⟨-, -, hpanic⟩ | ⟨hl, -⟩ | ⟨-, -, more, hmore⟩
    · simp [hbreak] at hpanic
    · refine iff_of_false (by simp) ?_
      rintro ⟨k, -, hall⟩
      exact hl (hall 0 (by omega))
    · simp [hbreak] at hmore
  | case3 i out h more hmore ih =>
    rw [decodeLoop, if_pos h, hmore]
    rcases decodeGroup_cases h with ⟨-, -, hpanic⟩ | ⟨-, hbreak⟩ | ⟨hl, hend, -⟩
    · simp [hmore] at hpanic
    · simp [hmore] at hbreak
    simp only [ih]
    constructor
    · rintro ⟨k, hlen, hall⟩
      refine ⟨k + 1, ?_, fun j hj => ?_⟩
      · rw [show i + 4 * (k + 1) = i + 4 + 4 * k by omega]
        exact hlen
      · cases j with
        | zero => exact hl
        | succ j =>
          rw [show i + 4 * (j + 1) = i + 4 + 4 * j by omega]
          exact hall j (by omega)
    · rintro ⟨k, hlen, hall⟩
      cases k with
      | zero => exact absurd hlen hend
      | succ k =>
        rw [show i + 4 * (k + 1) = i + 4 + 4 * k by omega] at hlen
        refine ⟨k, hlen, fun j hj => ?_⟩
        rw [show i + 4 + 4 * j = i + 4 * (j + 1) by omega]
        exact hall (j + 1) (by omega)
  | case4 i out h =>
    rw [decodeLoop, if_neg h]
    refine iff_of_false (by simp) ?_
    rintro ⟨k, hlen, -⟩
    omega

/-- Decoding panics exactly on bytes that are ragged after the conversion to a string. -/
theorem b64Decode_eq_none_iff (bytes : Bytes) : b64Decode bytes = none ↔ Ragged (utf8 (fromUtf8Lossy bytes)) := by
  unfold b64Decode decodedBytes Ragged
  rw [Option.map_eq_none_iff, decodeLoop_eq_none_iff]
  generalize utf8 (fromUtf8Lossy bytes) = bs
  simp only [Nat.zero_add]
  constructor
  · rintro ⟨k, hlen, hall⟩
    have hk : bs.length / 4 = k := by omega
    refine ⟨?_, by rwa [hk]⟩
    rcases hlen with hlen | ⟨hlen, hletter⟩
    · exact .inl (by omega)
    · rw [show bs.length - 1 = 4 * k + 2 by omega]
      exact .inr ⟨by omega, hletter⟩
  · rintro ⟨hlen, hall⟩
    refine ⟨bs.length / 4, ?_, hall⟩
    rcases hlen with hlen | ⟨hlen, hletter⟩
    · exact .inl (by omega)
    · rw [show bs.length - 1 = 4 * (bs.length / 4) + 2 by omega] at hletter
      exact .inr ⟨by omega, hletter⟩

/-! ### Round trip -/

theorem toNat_joined (a b c : UInt8) : (joined a b c).toNat = a.toNat * 65536 + b.toNat * 256 + c.toNat := by
  have ha := a.toNat_lt
  have hb := b.toNat_lt
  have hc := c.toNat_lt
  have hab : (a.toNat * 65536) ||| (b.toNat * 256) = (a.toNat * 256 + b.toNat) * 256 := by
    have h := Nat.shiftLeft_add_eq_or_of_lt (i := 16) (b := b.toNat * 256) (by omega) a.toNat
    simp only [Nat.shiftLeft_eq, Nat.reducePow] at h
    omega
  have habc : ((a.toNat * 256 + b.toNat) * 256) ||| c.toNat = (a.toNat * 256 + b.toNat) * 256 + c.toNat := by
    have h := Nat.shiftLeft_add_eq_or_of_lt (i := 8) hc (a.toNat * 256 + b.toNat)
    rw [Nat.shiftLeft_eq] at h
    exact h.symm
  have ha' : a.toUInt32.toNat <<< 16 % 2 ^ 32 = a.toNat * 65536 := by
    rw [UInt8.toNat_toUInt32, Nat.shiftLeft_eq]
    omega
  have hb' : b.toUInt32.toNat <<< 8 % 2 ^ 32 = b.toNat * 256 := by
    rw [UInt8.toNat_toUInt32, Nat.shiftLeft_eq]
    omega
  calc (joined a b c).toNat
      = a.toUInt32.toNat <<< 16 % 2 ^ 32 ||| b.toUInt32.toNat <<< 8 % 2 ^ 32 ||| c.toNat := rfl
    _ = a.toNat * 65536 + b.toNat * 256 + c.toNat := by
      rw [ha', hb', hab, habc]
      omega

theorem toNat_sextet (n : UInt32) {k : UInt32} (hk : k.toNat < 32) :
    ((n >>> k) &&& 63).toNat = n.toNat / 2 ^ k.toNat % 64 := by
  have hmask : (63 : UInt32).toNat = 2 ^ 6 - 1 := rfl
  rw [UInt32.toNat_and, UInt32.toNat_shiftRight, Nat.mod_eq_of_lt hk, Nat.shiftRight_eq_div_pow, hmask,
    Nat.and_two_pow_sub_one_eq_mod]

theorem b64Char_eq {i : UInt32} {d : Nat} (h : i.toNat = d) (hd : d < 64) : b64Char i = some (Base64.char d) := by
  have hall : ∀ d < 64, ((B64[d]?).map fun b => Char.ofNat b.toNat) = some (Base64.char d) := by
    rw [B64_eq]
    decide +kernel
  rw [b64Char, h]
  exact hall d hd

/-- The digits of the number that three bytes make. -/
theorem encodeChunk_digits (a b c : UInt8) :
    b64Char ((joined a b c >>> 18) &&& 63) = some (Base64.char (a.toNat / 4)) ∧
    b64Char ((joined a b c >>> 12) &&& 63) = some (Base64.char (a.toNat % 4 * 16 + b.toNat / 16)) ∧
    b64Char ((joined a b c >>> 6) &&& 63) = some (Base64.char (b.toNat % 16 * 4 + c.toNat / 64)) ∧
    b64Char (joined a b c &&& 63) = some (Base64.char (c.toNat % 64)) := by
  have ha := a.toNat_lt
  have hb := b.toNat_lt
  have hc := c.toNat_lt
  have h0 := toNat_sextet (joined a b c) (k := 18) (by decide)
  have h1 := toNat_sextet (joined a b c) (k := 12) (by decide)
  have h2 := toNat_sextet (joined a b c) (k := 6) (by decide)
  have h3 := toNat_sextet (joined a b c) (k := 0) (by decide)
  rw [UInt32.shiftRight_zero] at h3
  simp only [UInt32.reduceToNat, Nat.reducePow, toNat_joined] at h0 h1 h2 h3
  refine ⟨b64Char_eq ?_ ?_, b64Char_eq ?_ ?_, b64Char_eq ?_ ?_, b64Char_eq ?_ ?_⟩ <;> omega

/-- The encoding is the one of the library, and no index of it is out of range. -/
theorem b64Encode_eq (data : Bytes) : b64Encode data = some (Base64.encode data) := by
  unfold b64Encode
  induction data using Base64.encode.induct with
  | case1 => simp [chunks3, Base64.encode]
  | case2 a =>
    obtain ⟨h0, h1, -, -⟩ := encodeChunk_digits a 0 0
    simp [chunks3, encodeChunk, h0, h1, Base64.encode, Base64.digits]
  | case3 a b =>
    obtain ⟨h0, h1, h2, -⟩ := encodeChunk_digits a b 0
    simp [chunks3, encodeChunk, h0, h1, h2, Base64.encode, Base64.digits]
  | case4 a b c rest ih =>
    obtain ⟨h0, h1, h2, h3⟩ := encodeChunk_digits a b c
    obtain ⟨groups, hgroups, hflat⟩ := Option.map_eq_some_iff.1 ih
    simp [chunks3, encodeChunk, h0, h1, h2, h3, hgroups, hflat, Base64.encode, Base64.digits]

/-- What the bytes of a group give, the digits of the last ones missing. -/
theorem decodeGroup_of_drop {bytes rest : Bytes} {i : Nat} {x0 x1 x2 x3 : UInt8}
    (h : bytes.drop i = x0 :: x1 :: x2 :: x3 :: rest) (h0 : x0 ∈ B64) (h1 : x1 ∈ B64) :
    decodeGroup bytes i = some (some (asU8 (firstByte (table x0) (table x1)) ::
      if x2 ∈ B64 then asU8 (secondByte (table x1) (table x2)) ::
        if x3 ∈ B64 then [asU8 (thirdByte (table x2) (table x3))] else []
      else [])) := by
  have hget : ∀ k, bytes[i + k]? = (x0 :: x1 :: x2 :: x3 :: rest)[k]? := fun k => by rw [← h, List.getElem?_drop]
  have hb0 : bytes[i]? = some x0 := hget 0
  have hb1 : bytes[i + 1]? = some x1 := hget 1
  have hb2 : bytes[i + 2]? = some x2 := hget 2
  have hb3 : bytes[i + 3]? = some x3 := hget 3
  unfold decodeGroup
  by_cases h2 : x2 ∈ B64
  · by_cases h3 : x3 ∈ B64
    · simp [hb0, hb1, hb2, hb3, digit_eq, table_neg_iff, h0, h1, h2, h3]
    · simp [hb0, hb1, hb2, hb3, digit_eq, table_neg_iff, h0, h1, h2, h3]
  · simp [hb0, hb1, hb2, digit_eq, table_neg_iff, h0, h1, h2]

/-- The bytes come back from the digits, whatever the digits that were cut off. -/
theorem asU8_digits (a b c : UInt8) :
    asU8 (firstByte (.ofNat (a.toNat / 4)) (.ofNat (a.toNat % 4 * 16 + b.toNat / 16))) = a ∧
    asU8 (secondByte (.ofNat (a.toNat % 4 * 16 + b.toNat / 16)) (.ofNat (b.toNat % 16 * 4 + c.toNat / 64))) = b ∧
    asU8 (thirdByte (.ofNat (b.toNat % 16 * 4 + c.toNat / 64)) (.ofNat (c.toNat % 64))) = c := by
  have ha := a.toNat_lt
  have hb := b.toNat_lt
  have hc := c.toNat_lt
  refine ⟨UInt8.toNat_inj.1 ?_, UInt8.toNat_inj.1 ?_, UInt8.toNat_inj.1 ?_⟩
  · rw [toNat_asU8 (firstByte_ofNat _ (by omega) _ (by omega)) (by omega)]
    omega
  · rw [toNat_asU8 (secondByte_ofNat _ (by omega) _ (by omega)) (by omega)]
    omega
  · rw [toNat_asU8 (thirdByte_ofNat _ (by omega) _ (by omega)) (by omega)]
    omega

/-- The byte of a digit is in the alphabet, and the table has the digit for it. -/
theorem utf8_char_mem {d : Nat} (hd : d < 64) :
    ∃ b ∈ B64, String.utf8EncodeChar (Base64.char d) = [b] ∧ table b = Int16.ofNat d := by
  have hall : ∀ d < 64, (String.utf8EncodeChar (Base64.char d)).map table = [Int16.ofNat d] := by
    unfold table
    rw [B64_eq]
    decide +kernel
  obtain ⟨b, hb, htable⟩ : ∃ b, String.utf8EncodeChar (Base64.char d) = [b] ∧ table b = Int16.ofNat d := by
    simpa using hall d hd
  have hmem : b ∈ B64 := by
    by_contra hn
    rw [← table_neg_iff, htable] at hn
    exact digit_not_neg hd hn
  exact ⟨b, hmem, hb, htable⟩

theorem decodeLoop_group {bytes rest more : Bytes} {i : Nat} {x0 x1 x2 x3 : UInt8}
    (h : bytes.drop i = x0 :: x1 :: x2 :: x3 :: rest) (hg : decodeGroup bytes i = some (some more)) (out : Bytes) :
    decodeLoop bytes i out = decodeLoop bytes (i + 4) (out ++ more) ∧ bytes.drop (i + 4) = rest := by
  have hlen : bytes.length - i = rest.length + 4 := by
    rw [← List.length_drop, h]
    rfl
  constructor
  · rw [decodeLoop, if_pos (by omega), hg]
  · rw [← List.drop_drop, h]
    rfl

/-- The loop gives back what was encoded from `i` on. -/
theorem decodeLoop_encode (data bytes : Bytes) (i : Nat) (out : Bytes)
    (h : bytes.drop i = utf8 (Base64.encode data)) : decodeLoop bytes i out = some (out ++ data) := by
  have hpad : String.utf8EncodeChar '=' = [pad] := by decide
  induction data using Base64.encode.induct generalizing i out with
  | case1 =>
    have hlen : bytes.length ≤ i := List.drop_eq_nil_iff.1 h
    rw [decodeLoop, if_neg (by omega), List.append_nil]
  | case2 a =>
    have ha := a.toNat_lt
    obtain ⟨b0, hb0, he0, ht0⟩ := utf8_char_mem (d := a.toNat / 4) (by omega)
    obtain ⟨b1, hb1, he1, ht1⟩ := utf8_char_mem (d := a.toNat % 4 * 16) (by omega)
    obtain ⟨hfirst, -⟩ := asU8_digits a 0 0
    simp only [UInt8.toNat_zero, Nat.zero_div, Nat.add_zero] at hfirst
    have hdrop : bytes.drop i = b0 :: b1 :: pad :: pad :: [] := by
      rw [h]
      simp [Base64.encode, Base64.digits, he0, he1, hpad, utf8]
    have hg := decodeGroup_of_drop hdrop hb0 hb1
    rw [if_neg pad_not_mem, ht0, ht1, hfirst] at hg
    obtain ⟨hloop, hend⟩ := decodeLoop_group hdrop hg out
    have hlen : bytes.length ≤ i + 4 := List.drop_eq_nil_iff.1 hend
    rw [hloop, decodeLoop, if_neg (by omega)]
  | case3 a b =>
    have ha := a.toNat_lt
    have hb := b.toNat_lt
    obtain ⟨b0, hb0, he0, ht0⟩ := utf8_char_mem (d := a.toNat / 4) (by omega)
    obtain ⟨b1, hb1, he1, ht1⟩ := utf8_char_mem (d := a.toNat % 4 * 16 + b.toNat / 16) (by omega)
    obtain ⟨b2, hb2, he2, ht2⟩ := utf8_char_mem (d := b.toNat % 16 * 4) (by omega)
    obtain ⟨hfirst, hsecond, -⟩ := asU8_digits a b 0
    simp only [UInt8.toNat_zero, Nat.zero_div, Nat.add_zero] at hsecond
    have hdrop : bytes.drop i = b0 :: b1 :: b2 :: pad :: [] := by
      rw [h]
      simp [Base64.encode, Base64.digits, he0, he1, he2, hpad, utf8]
    have hg := decodeGroup_of_drop hdrop hb0 hb1
    rw [if_pos hb2, if_neg pad_not_mem, ht0, ht1, ht2, hfirst, hsecond] at hg
    obtain ⟨hloop, hend⟩ := decodeLoop_group hdrop hg out
    have hlen : bytes.length ≤ i + 4 := List.drop_eq_nil_iff.1 hend
    rw [hloop, decodeLoop, if_neg (by omega)]
  | case4 a b c rest ih =>
    have ha := a.toNat_lt
    have hb := b.toNat_lt
    have hc := c.toNat_lt
    obtain ⟨b0, hb0, he0, ht0⟩ := utf8_char_mem (d := a.toNat / 4) (by omega)
    obtain ⟨b1, hb1, he1, ht1⟩ := utf8_char_mem (d := a.toNat % 4 * 16 + b.toNat / 16) (by omega)
    obtain ⟨b2, hb2, he2, ht2⟩ := utf8_char_mem (d := b.toNat % 16 * 4 + c.toNat / 64) (by omega)
    obtain ⟨b3, hb3, he3, ht3⟩ := utf8_char_mem (d := c.toNat % 64) (by omega)
    obtain ⟨hfirst, hsecond, hthird⟩ := asU8_digits a b c
    have hdrop : bytes.drop i = b0 :: b1 :: b2 :: b3 :: utf8 (Base64.encode rest) := by
      rw [h]
      simp [Base64.encode, Base64.digits, he0, he1, he2, he3, utf8]
    have hg := decodeGroup_of_drop hdrop hb0 hb1
    rw [if_pos hb2, if_pos hb3, ht0, ht1, ht2, ht3, hfirst, hsecond, hthird] at hg
    obtain ⟨hloop, hrest⟩ := decodeLoop_group hdrop hg out
    rw [hloop, ih _ _ hrest, List.append_assoc]
    rfl

/-- The bits of four digits are those of the three numbers made of them, and the casts to `u8` keep them. -/
structure Exact (c0 c1 c2 c3 : Int16) : Prop where
  bits : (firstByte c0 c1).toInt * 65536 + (secondByte c1 c2).toInt * 256 + (thirdByte c2 c3).toInt =
    c0.toInt * 262144 + c1.toInt * 4096 + c2.toInt * 64 + c3.toInt
  first : ((asU8 (firstByte c0 c1)).toNat : Int) = (firstByte c0 c1).toInt
  second : ((asU8 (secondByte c1 c2)).toNat : Int) = (secondByte c1 c2).toInt
  third : ((asU8 (thirdByte c2 c3)).toNat : Int) = (thirdByte c2 c3).toInt

/-- The table has a number below 64 for each byte of the alphabet. -/
theorem table_of_mem {b : UInt8} (h : b ∈ B64) : ∃ d < 64, table b = Int16.ofNat d := by
  have hlen := length_B64
  have hneg := (table_neg_iff b).not.2 (not_not_intro h)
  unfold table at *
  split
  · rename_i i hi
    obtain ⟨hlt, -⟩ := List.idxOf?_eq_some_iff.1 hi
    exact ⟨i, by omega, rfl⟩
  · rename_i hnone
    rw [hnone] at hneg
    exact absurd (by decide) hneg

private theorem exact_of_mem {x0 x1 x2 x3 : UInt8} (h0 : x0 ∈ B64) (h1 : x1 ∈ B64) (h2 : x2 ∈ B64) (h3 : x3 ∈ B64) :
    Exact (table x0) (table x1) (table x2) (table x3) := by
  obtain ⟨d0, hd0, ht0⟩ := table_of_mem h0
  obtain ⟨d1, hd1, ht1⟩ := table_of_mem h1
  obtain ⟨d2, hd2, ht2⟩ := table_of_mem h2
  obtain ⟨d3, hd3, ht3⟩ := table_of_mem h3
  have hfirst := firstByte_ofNat d0 hd0 d1 hd1
  have hsecond := secondByte_ofNat d1 hd1 d2 hd2
  have hthird := thirdByte_ofNat d2 hd2 d3 hd3
  rw [ht0, ht1, ht2, ht3]
  refine ⟨?_, ?_, ?_, ?_⟩
  · rw [hfirst, hsecond, hthird, toInt_digit hd0, toInt_digit hd1, toInt_digit hd2, toInt_digit hd3]
    omega
  · rw [toNat_asU8 hfirst (by omega), hfirst]
  · rw [toNat_asU8 hsecond (by omega), hsecond]
  · rw [toNat_asU8 hthird (by omega), hthird]

/-- A string that is encoded and decoded comes back without a panic, and no digit loses a bit on the way. -/
theorem base64_round_trip (s : Str) :
    (∃ e, b64Encode (utf8 s) = some e ∧ decodedBytes (utf8 e) = some (utf8 s) ∧ b64Decode (utf8 e) = some s) ∧
    ∀ x0 ∈ B64, ∀ x1 ∈ B64, ∀ x2 ∈ B64, ∀ x3 ∈ B64, Exact (table x0) (table x1) (table x2) (table x3) := by
  have hbytes : decodedBytes (utf8 (Base64.encode (utf8 s))) = some (utf8 s) := by
    rw [decodedBytes, fromUtf8Lossy_utf8]
    exact decodeLoop_encode (utf8 s) _ 0 [] rfl
  refine ⟨⟨Base64.encode (utf8 s), b64Encode_eq (utf8 s), hbytes, ?_⟩,
    fun x0 h0 x1 h1 x2 h2 x3 h3 => exact_of_mem h0 h1 h2 h3⟩
  rw [b64Decode, hbytes, Option.map_some, fromUtf8Lossy_utf8]

end Calisto

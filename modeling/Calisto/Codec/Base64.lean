import Calisto.Wire.Base64
import Calisto.Lib.Sextets
import Mathlib.Data.List.DropRight

/-!
# `Calisto::Base64`

The encoders and decoders that `calisto-native` gives to Ruby programs.  The alphabet, the table and the number of a
chunk are those of the wire (`B64`, `table`, `joined`).
-/

namespace Calisto

namespace Codec

def B64URL : Bytes := utf8 "ABCDEFGHIJKLMNOPQRSTUVWXYZabcdefghijklmnopqrstuvwxyz0123456789-_".toList

/-- `\n`. -/
def newline : UInt8 := 10

/-! ### Encoding -/

/-- What `encode_raw` pushes for a chunk; the mask keeps the indices below 64. -/
def rawChunk (table chunk : Bytes) : Bytes :=
  let n := joined (chunk.getD 0 0) (chunk.getD 1 0) (chunk.getD 2 0)
  [table.getD ((n >>> 18) &&& 63).toNat 0, table.getD ((n >>> 12) &&& 63).toNat 0,
    if chunk.length > 1 then table.getD ((n >>> 6) &&& 63).toNat 0 else pad,
    if chunk.length > 2 then table.getD (n &&& 63).toNat 0 else pad]

def encodeRaw (data table : Bytes) : Bytes := (chunks3 data).flatMap (rawChunk table)

def strictEncode64 (data : Bytes) : Bytes := encodeRaw data B64

/-- The body of the loop of `encode64`. -/
def wrapByte (x : UInt8 × Nat) : Bytes := if x.2 > 0 ∧ x.2 % 60 = 0 then [newline, x.1] else [x.1]

def encode64 (data : Bytes) : Bytes :=
  let raw := encodeRaw data B64
  if raw = [] then raw else raw.zipIdx.flatMap wrapByte ++ [newline]

def urlsafeEncode64 (data : Bytes) (padding : Bool) : Bytes :=
  let out := encodeRaw data B64URL
  if padding then out else out.rdropWhile (· = pad)

/-! ### Lenient decoding -/

/-- The three bytes of a group; places that are not filled are zero. -/
def byte1 (quad : Bytes) : UInt8 := (quad.getD 0 0 <<< 2) ||| (quad.getD 1 0 >>> 4)

def byte2 (quad : Bytes) : UInt8 := ((quad.getD 1 0 &&& 0x0f) <<< 4) ||| (quad.getD 2 0 >>> 2)

def byte3 (quad : Bytes) : UInt8 := ((quad.getD 2 0 &&& 0x03) <<< 6) ||| quad.getD 3 0

/-- The loop of `decode64`: `out` and the first `qn` places of `quad` where it ends. -/
def decodeScan (out quad : Bytes) : Bytes → Bytes × Bytes
  | [] => (out, quad)
  | b :: s =>
    if b = pad then (out, quad)
    else
      let v := table b
      if v < 0 then decodeScan out quad s
      else
        let quad := quad ++ [asU8 v]
        if quad.length = 4 then decodeScan (out ++ [byte1 quad, byte2 quad, byte3 quad]) [] s
        else decodeScan out quad s

/-- What follows the loop. -/
def decodeEnd (out quad : Bytes) : Bytes :=
  if quad.length = 3 then out ++ [byte1 quad, byte2 quad]
  else if quad.length = 2 then out ++ [byte1 quad]
  else out

def decode64 (s : Bytes) : Bytes :=
  let (out, quad) := decodeScan [] [] s
  decodeEnd out quad

/-! ### Strict decoding -/

/-- `s.chunks(4)`. -/
def chunks4 : Bytes → List Bytes
  | a :: b :: c :: d :: rest => [a, b, c, d] :: chunks4 rest
  | [] => []
  | last => [last]

/-- The loop over a chunk: the first `ndata` places of `data`, `none` for `Err(())`. -/
def strictScan (isLast : Bool) (data : Bytes) (seenPad : Bool) : Bytes → Option Bytes
  | [] => some data
  | b :: chunk =>
    if b = pad then
      if !isLast then none else strictScan isLast data true chunk
    else if seenPad then none
    else
      let v := table b
      if v < 0 then none else strictScan isLast (data ++ [asU8 v]) seenPad chunk

/-- What a chunk pushes. -/
def strictChunk (isLast : Bool) (chunk : Bytes) : Option Bytes := do
  let data ← strictScan isLast [] false chunk
  let ndata := data.length
  if isLast then
    if ndata = 0 ∨ ndata = 1 then none
  else if ndata ≠ 4 then none
  return byte1 data :: (if ndata > 2 then [byte2 data] else []) ++ (if ndata > 3 then [byte3 data] else [])

/-- The loop over the chunks from `gi` on. -/
def strictChunks (len gi : Nat) (out : Bytes) : List Bytes → Option Bytes
  | [] => some out
  | chunk :: chunks => do
    let more ← strictChunk ((gi + 1) * 4 == len) chunk
    strictChunks len (gi + 1) (out ++ more) chunks

def strictDecode64 (s : Bytes) : Option Bytes :=
  if s.length % 4 ≠ 0 then none else strictChunks s.length 0 [] (chunks4 s)

/-- The `match` on a byte of `urlsafe_decode64`: `-` and `_` become `+` and `/`. -/
def fromUrl (b : UInt8) : UInt8 := if b = 45 then 43 else if b = 95 then 47 else b

def urlsafeDecode64 (s : Bytes) : Option Bytes :=
  let t := s.map fromUrl
  let t := if t.getLast? ≠ some pad ∧ t.length % 4 ≠ 0 then t ++ List.replicate (4 - t.length % 4) pad else t
  strictDecode64 t

/-! ### Digits -/

/-- The number of a byte in the alphabet. -/
def value (b : UInt8) : Option Nat := B64.idxOf? b

/-- The byte of a digit. -/
def letter (v : Nat) : UInt8 := B64.getD v 0

/-- The places of `quad` and `data` that hold digits. -/
def places (vs : List Nat) : Bytes := vs.map UInt8.ofNat

theorem value_letter : ∀ v < 64, value (letter v) = some v := by
  unfold value letter
  rw [B64_eq]
  decide +kernel

theorem letter_mem {v : Nat} (hv : v < 64) : letter v ∈ B64 := by
  have hlt : v < B64.length := by rwa [length_B64]
  rw [letter, List.getD_eq_getElem?_getD, List.getElem?_eq_getElem hlt]
  exact List.getElem_mem hlt

theorem letter_ne_pad (v : Nat) (hv : v < 64) : letter v ≠ pad := fun h => pad_not_mem (h ▸ letter_mem hv)

theorem value_pad : value pad = none := List.idxOf?_eq_none_iff.2 pad_not_mem

theorem value_newline : value newline = none := by
  unfold value
  rw [B64_eq]
  rfl

theorem value_lt {b : UInt8} {v : Nat} (h : value b = some v) : v < 64 := by
  have hlen := length_B64
  obtain ⟨hlt, -⟩ := List.idxOf?_eq_some_iff.1 h
  omega

theorem letter_of_value {b : UInt8} {v : Nat} (h : value b = some v) : letter v = b := by
  obtain ⟨hlt, hget, -⟩ := List.idxOf?_eq_some_iff.1 h
  rw [letter, List.getD_eq_getElem?_getD, List.getElem?_eq_getElem hlt, hget, Option.getD_some]

theorem mem_B64_iff {b : UInt8} : b ∈ B64 ↔ ∃ v, value b = some v := by
  unfold value
  rw [← Option.isSome_iff_exists, List.isSome_idxOf?]

/-- What the decoders find in the table for a byte outside of the alphabet. -/
theorem table_of_none {b : UInt8} (h : value b = none) : table b < 0 :=
  (table_neg_iff b).2 (by simpa [value] using h)

/-- What they find for a byte of the alphabet, and what the cast makes of it. -/
theorem table_of_some {b : UInt8} {v : Nat} (h : value b = some v) :
    ¬table b < 0 ∧ asU8 (table b) = UInt8.ofNat v := by
  have hall : ∀ v < 64, asU8 (Int16.ofNat v) = UInt8.ofNat v := by decide +kernel
  obtain ⟨hlt, hget, -⟩ := List.idxOf?_eq_some_iff.1 h
  have hmem : b ∈ B64 := by
    rw [← hget]
    exact List.getElem_mem hlt
  have htable : table b = Int16.ofNat v := by
    unfold table
    rw [show B64.idxOf? b = some v from h]
  refine ⟨(table_neg_iff b).not.2 (not_not_intro hmem), ?_⟩
  rw [htable, hall v (value_lt h)]

/-- What is shifted in from the right does not meet what is there. -/
theorem toNat_shiftLeft_or {a b k : UInt8} (hk : k.toNat < 8) (ha : a.toNat * 2 ^ k.toNat < 256)
    (hb : b.toNat < 2 ^ k.toNat) : (a <<< k ||| b).toNat = a.toNat * 2 ^ k.toNat + b.toNat := by
  rw [UInt8.toNat_or, UInt8.toNat_shiftLeft, Nat.mod_eq_of_lt hk, Nat.shiftLeft_eq, Nat.mod_eq_of_lt ha,
    ← Nat.shiftLeft_eq, Nat.shiftLeft_add_eq_or_of_lt hb]

private theorem toNat_place {x : Nat} (hx : x < 64) : (UInt8.ofNat x).toNat = x :=
  UInt8.toNat_ofNat_of_lt' (by rw [UInt8.size]; omega)

section Places

variable {x y z w : Nat}

private theorem byte1_places (hx : x < 64) (hy : y < 64) :
    UInt8.ofNat x <<< 2 ||| UInt8.ofNat y >>> 4 = UInt8.ofNat (x * 4 + y / 16) := by
  have hlow : (UInt8.ofNat y >>> 4).toNat = y / 16 := by
    rw [UInt8.toNat_shiftRight, toNat_place hy]
    exact Nat.shiftRight_eq_div_pow y 4
  have hor : (UInt8.ofNat x <<< 2 ||| UInt8.ofNat y >>> 4).toNat = x * 4 + y / 16 := by
    rw [toNat_shiftLeft_or (by decide) (by rw [toNat_place hx]; simp; omega) (by rw [hlow]; simp; omega), hlow,
      toNat_place hx]
    rfl
  rw [← hor, UInt8.ofNat_toNat]

private theorem byte2_places (hy : y < 64) (hz : z < 64) :
    (UInt8.ofNat y &&& 0x0f) <<< 4 ||| UInt8.ofNat z >>> 2 = UInt8.ofNat (y % 16 * 16 + z / 4) := by
  have hhigh : (UInt8.ofNat y &&& 0x0f).toNat = y % 16 := by
    rw [UInt8.toNat_and, toNat_place hy]
    exact Nat.and_two_pow_sub_one_eq_mod y 4
  have hlow : (UInt8.ofNat z >>> 2).toNat = z / 4 := by
    rw [UInt8.toNat_shiftRight, toNat_place hz]
    exact Nat.shiftRight_eq_div_pow z 2
  have hor : ((UInt8.ofNat y &&& 0x0f) <<< 4 ||| UInt8.ofNat z >>> 2).toNat = y % 16 * 16 + z / 4 := by
    rw [toNat_shiftLeft_or (by decide) (by rw [hhigh]; simp; omega) (by rw [hlow]; simp; omega), hlow, hhigh]
    rfl
  rw [← hor, UInt8.ofNat_toNat]

private theorem byte3_places (hz : z < 64) (hw : w < 64) :
    (UInt8.ofNat z &&& 0x03) <<< 6 ||| UInt8.ofNat w = UInt8.ofNat (z % 4 * 64 + w) := by
  have hhigh : (UInt8.ofNat z &&& 0x03).toNat = z % 4 := by
    rw [UInt8.toNat_and, toNat_place hz]
    exact Nat.and_two_pow_sub_one_eq_mod z 2
  have hor : ((UInt8.ofNat z &&& 0x03) <<< 6 ||| UInt8.ofNat w).toNat = z % 4 * 64 + w := by
    rw [toNat_shiftLeft_or (by decide) (by rw [hhigh]; simp; omega) (by rw [toNat_place hw]; simp; omega),
      toNat_place hw, hhigh]
    rfl
  rw [← hor, UInt8.ofNat_toNat]

/-- The bytes of a group that is full, and of one that is not. -/
theorem bytes_places (hx : x < 64) (hy : y < 64) (hz : z < 64) (hw : w < 64) :
    [byte1 (places [x, y, z, w]), byte2 (places [x, y, z, w]), byte3 (places [x, y, z, w])] =
      Base64.triple x y z w := by
  have h1 := byte1_places hx hy
  have h2 := byte2_places hy hz
  have h3 := byte3_places hz hw
  simp only [byte1, byte2, byte3, places, Base64.triple, List.map_cons, List.map_nil, List.getD_cons_zero,
    List.getD_cons_succ, h1, h2, h3]

theorem bytes_places_three (hx : x < 64) (hy : y < 64) (hz : z < 64) :
    [byte1 (places [x, y, z]), byte2 (places [x, y, z])] = Base64.bytes [x, y, z] := by
  have h1 := byte1_places hx hy
  have h2 := byte2_places hy hz
  simp only [byte1, byte2, places, Base64.bytes, Base64.triple, List.map_cons, List.map_nil, List.getD_cons_zero,
    List.getD_cons_succ, h1, h2, List.take_succ_cons, List.take_zero]

theorem bytes_places_two (hx : x < 64) (hy : y < 64) : [byte1 (places [x, y])] = Base64.bytes [x, y] := by
  have h1 := byte1_places hx hy
  simp only [byte1, places, Base64.bytes, Base64.triple, List.map_cons, List.map_nil, List.getD_cons_zero,
    List.getD_cons_succ, h1, List.take_succ_cons, List.take_zero]

end Places

/-! ### The encoders -/

/-- The indices of a chunk are its digits. -/
theorem sextets_joined (a b c : UInt8) :
    [((joined a b c >>> 18) &&& 63).toNat, ((joined a b c >>> 12) &&& 63).toNat, ((joined a b c >>> 6) &&& 63).toNat,
      (joined a b c &&& 63).toNat] = Base64.digits a b c := by
  have ha := a.toNat_lt
  have hb := b.toNat_lt
  have hc := c.toNat_lt
  have h0 := toNat_sextet (joined a b c) (k := 18) (by decide)
  have h1 := toNat_sextet (joined a b c) (k := 12) (by decide)
  have h2 := toNat_sextet (joined a b c) (k := 6) (by decide)
  have h3 := toNat_sextet (joined a b c) (k := 0) (by decide)
  rw [UInt32.shiftRight_zero] at h3
  simp only [UInt32.reduceToNat, Nat.reducePow, toNat_joined] at h0 h1 h2 h3
  simp only [Base64.digits, h0, h1, h2, h3, List.cons.injEq, and_true]
  omega

private theorem rawChunk_one (table : Bytes) (a : UInt8) :
    rawChunk table [a] = ((Base64.digits a 0 0).take 2).map (table.getD · 0) ++ [pad, pad] := by
  rw [← sextets_joined]
  rfl

private theorem rawChunk_two (table : Bytes) (a b : UInt8) :
    rawChunk table [a, b] = ((Base64.digits a b 0).take 3).map (table.getD · 0) ++ [pad] := by
  rw [← sextets_joined]
  rfl

private theorem rawChunk_three (table : Bytes) (a b c : UInt8) :
    rawChunk table [a, b, c] = (Base64.digits a b c).map (table.getD · 0) := by
  rw [← sextets_joined]
  rfl

/-- How many characters of padding there are. -/
def padLen (n : Nat) : Nat := (3 - n % 3) % 3

theorem encodeRaw_eq (data table : Bytes) :
    encodeRaw data table =
      (Base64.sextets data).map (table.getD · 0) ++ List.replicate (padLen data.length) pad := by
  unfold encodeRaw
  induction data using Base64.sextets.induct with
  | case1 => rfl
  | case2 a =>
    have hchunks : chunks3 [a] = [[a]] := rfl
    rw [hchunks, List.flatMap_singleton, rawChunk_one]
    rfl
  | case3 a b =>
    have hchunks : chunks3 [a, b] = [[a, b]] := rfl
    rw [hchunks, List.flatMap_singleton, rawChunk_two]
    rfl
  | case4 a b c rest ih =>
    have hpad : padLen (a :: b :: c :: rest).length = padLen rest.length := by
      simp only [padLen, List.length_cons]
      omega
    rw [chunks3, List.flatMap_cons, rawChunk_three, ih, hpad, Base64.sextets, List.map_append, List.append_assoc]

theorem strictEncode64_eq (data : Bytes) :
    strictEncode64 data = (Base64.sextets data).map letter ++ List.replicate (padLen data.length) pad :=
  encodeRaw_eq data B64

end Codec

end Calisto

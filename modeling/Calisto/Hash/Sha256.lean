import Calisto.Lib.Sse
import Calisto.Wire.Text

/-!
# SHA-256

`sha256.rs`, the rounds on words, and `sha256_ni.rs`, four rounds at a time in 128-bit registers; the padding is the
same text in both files.
-/

namespace Calisto

namespace Sha256

open Words

abbrev State := Vector UInt32 8

def k : Vector UInt32 64 :=
  #v[
    0x428a2f98, 0x71374491, 0xb5c0fbcf, 0xe9b5dba5, 0x3956c25b, 0x59f111f1, 0x923f82a4, 0xab1c5ed5,
    0xd807aa98, 0x12835b01, 0x243185be, 0x550c7dc3, 0x72be5d74, 0x80deb1fe, 0x9bdc06a7, 0xc19bf174,
    0xe49b69c1, 0xefbe4786, 0x0fc19dc6, 0x240ca1cc, 0x2de92c6f, 0x4a7484aa, 0x5cb0a9dc, 0x76f988da,
    0x983e5152, 0xa831c66d, 0xb00327c8, 0xbf597fc7, 0xc6e00bf3, 0xd5a79147, 0x06ca6351, 0x14292967,
    0x27b70a85, 0x2e1b2138, 0x4d2c6dfc, 0x53380d13, 0x650a7354, 0x766a0abb, 0x81c2c92e, 0x92722c85,
    0xa2bfe8a1, 0xa81a664b, 0xc24b8b70, 0xc76c51a3, 0xd192e819, 0xd6990624, 0xf40e3585, 0x106aa070,
    0x19a4c116, 0x1e376c08, 0x2748774c, 0x34b0bcb5, 0x391c0cb3, 0x4ed8aa4a, 0x5b9cca4f, 0x682e6ff3,
    0x748f82ee, 0x78a5636f, 0x84c87814, 0x8cc70208, 0x90befffa, 0xa4506ceb, 0xbef9a3f7, 0xc67178f2]

/-! ### The rounds on words -/

/-- `for i in 0..16`: the words of the block. -/
def loadWord (block : Bytes) (w : Vector UInt32 64) (i : Nat) : Vector UInt32 64 :=
  w.setIfInBounds i (fromBeBytes (slice block (i * 4) (i * 4 + 4)))

/-- `for i in 16..64`: a word from four of the words before it. -/
def expandWord (w : Vector UInt32 64) (i : Nat) : Vector UInt32 64 :=
  let s0 := rotateRight (w.getD (i - 15) 0) 7 ^^^ rotateRight (w.getD (i - 15) 0) 18 ^^^ (w.getD (i - 15) 0 >>> 3)
  let s1 := rotateRight (w.getD (i - 2) 0) 17 ^^^ rotateRight (w.getD (i - 2) 0) 19 ^^^ (w.getD (i - 2) 0 >>> 10)
  w.setIfInBounds i (w.getD (i - 16) 0 + s0 + w.getD (i - 7) 0 + s1)

def schedule (block : Bytes) : Vector UInt32 64 :=
  let w := (List.range' 0 16).foldl (loadWord block) (Vector.replicate 64 0)
  (List.range' 16 48).foldl expandWord w

/-- The variables of the rounds. -/
structure Working where
  a : UInt32
  b : UInt32
  c : UInt32
  d : UInt32
  e : UInt32
  f : UInt32
  g : UInt32
  hh : UInt32

def round (v : Working) (k w : UInt32) : Working :=
  let s1 := rotateRight v.e 6 ^^^ rotateRight v.e 11 ^^^ rotateRight v.e 25
  let ch := (v.e &&& v.f) ^^^ (~~~v.e &&& v.g)
  let t1 := v.hh + s1 + ch + k + w
  let s0 := rotateRight v.a 2 ^^^ rotateRight v.a 13 ^^^ rotateRight v.a 22
  let maj := (v.a &&& v.b) ^^^ (v.a &&& v.c) ^^^ (v.b &&& v.c)
  let t2 := s0 + maj
  ⟨t1 + t2, v.a, v.b, v.c, v.d + t1, v.e, v.f, v.g⟩

/-- The variables at the start of the rounds. -/
def working (h : State) : Working :=
  ⟨h.get 0, h.get 1, h.get 2, h.get 3, h.get 4, h.get 5, h.get 6, h.get 7⟩

/-- The state after the rounds: what the variables have come to is added to it. -/
def feedForward (v : Working) (h : State) : State :=
  #v[h.get 0 + v.a, h.get 1 + v.b, h.get 2 + v.c, h.get 3 + v.d, h.get 4 + v.e, h.get 5 + v.f, h.get 6 + v.g,
    h.get 7 + v.hh]

def compress (h : State) (block : Bytes) : State :=
  let w := schedule block
  let v := working h
  let v := (List.range 4).foldl (fun v group =>
    let base := group * 16
    (List.range 16).foldl (fun v i => round v (k.getD (base + i) 0) (w.getD (base + i) 0)) v) v
  feedForward v h

/-! ### The rounds in registers -/

namespace Ni

open Sse

def k : Vector (UInt64 × UInt64) 16 :=
  #v[
    (0xE9B5DBA5B5C0FBCF, 0x71374491428A2F98), (0xAB1C5ED5923F82A4, 0x59F111F13956C25B),
    (0x550C7DC3243185BE, 0x12835B01D807AA98), (0xC19BF1749BDC06A7, 0x80DEB1FE72BE5D74),
    (0x240CA1CC0FC19DC6, 0xEFBE4786E49B69C1), (0x76F988DA5CB0A9DC, 0x4A7484AA2DE92C6F),
    (0xBF597FC7B00327C8, 0xA831C66D983E5152), (0x1429296706CA6351, 0xD5A79147C6E00BF3),
    (0x53380D134D2C6DFC, 0x2E1B213827B70A85), (0x92722C8581C2C92E, 0x766A0ABB650A7354),
    (0xC76C51A3C24B8B70, 0xA81A664BA2BFE8A1), (0x106AA070F40E3585, 0xD6990624D192E819),
    (0x34B0BCB52748774C, 0x1E376C0819A4C116), (0x682E6FF35B9CCA4F, 0x4ED8AA4A391C0CB3),
    (0x8CC7020884C87814, 0x78A5636F748F82EE), (0xC67178F2BEF9A3F7, 0xA4506CEB90BEFFFA)]

/-- The function `k`: the constants of the group `i`. -/
def kGroup (i : Nat) : M128 := setEpi64x (k.getD i (0, 0)).1 (k.getD i (0, 0)).2

def mask : M128 := setEpi64x 0x0c0d0e0f08090a0b 0x0405060700010203

def loadWords (block : Bytes) (off : Nat) : M128 := shuffleEpi8 (loaduSi128 (block.drop off)) mask

/-- The lines that each group has: four rounds on `state0` and `state1`.  The lines for the schedule that stand between
them in the source use neither. -/
def rounds4 (i : Nat) (m : M128) (s : M128 × M128) : M128 × M128 :=
  let (state0, state1) := s
  let msg := addEpi32 m (kGroup i)
  let state1 := sha256rnds2Epu32 state1 state0 msg
  let msg := shuffleEpi32 msg 0x0E
  let state0 := sha256rnds2Epu32 state0 state1 msg
  (state0, state1)

/-- The state in the layout of the instructions. -/
def pack (h : State) : M128 × M128 :=
  let tmp : M128 := ⟨h.get 0, h.get 1, h.get 2, h.get 3⟩
  let state1 : M128 := ⟨h.get 4, h.get 5, h.get 6, h.get 7⟩
  let tmp := shuffleEpi32 tmp 0xB1
  let state1 := shuffleEpi32 state1 0x1B
  let state0 := alignrEpi8 tmp state1 8
  let state1 := blendEpi16 state1 tmp 0xF0
  (state0, state1)

/-- The layout undone. -/
def unpack (s : M128 × M128) : State :=
  let (state0, state1) := s
  let tmp := shuffleEpi32 state0 0x1B
  let state1b := shuffleEpi32 state1 0xB1
  let out0 := blendEpi16 tmp state1b 0xF0
  let out1 := alignrEpi8 state1b tmp 8
  #v[out0.x0, out0.x1, out0.x2, out0.x3, out1.x0, out1.x1, out1.x2, out1.x3]

def compressNi (h : State) (block : Bytes) : State :=
  let s := pack h
  let abefSave := s.1
  let cdghSave := s.2
  -- rounds 0 to 3
  let msg0 := loadWords block 0
  let s := rounds4 0 msg0 s
  -- rounds 4 to 7
  let msg1 := loadWords block 16
  let s := rounds4 1 msg1 s
  let msg0 := sha256msg1Epu32 msg0 msg1
  -- rounds 8 to 11
  let msg2 := loadWords block 32
  let s := rounds4 2 msg2 s
  let msg1 := sha256msg1Epu32 msg1 msg2
  -- rounds 12 to 15
  let msg3 := loadWords block 48
  let s := rounds4 3 msg3 s
  let msg0 := sha256msg2Epu32 (addEpi32 msg0 (alignrEpi8 msg3 msg2 4)) msg3
  let msg2 := sha256msg1Epu32 msg2 msg3
  -- rounds 16 to 19
  let s := rounds4 4 msg0 s
  let msg1 := sha256msg2Epu32 (addEpi32 msg1 (alignrEpi8 msg0 msg3 4)) msg0
  let msg3 := sha256msg1Epu32 msg3 msg0
  -- rounds 20 to 23
  let s := rounds4 5 msg1 s
  let msg2 := sha256msg2Epu32 (addEpi32 msg2 (alignrEpi8 msg1 msg0 4)) msg1
  let msg0 := sha256msg1Epu32 msg0 msg1
  -- rounds 24 to 27
  let s := rounds4 6 msg2 s
  let msg3 := sha256msg2Epu32 (addEpi32 msg3 (alignrEpi8 msg2 msg1 4)) msg2
  let msg1 := sha256msg1Epu32 msg1 msg2
  -- rounds 28 to 31
  let s := rounds4 7 msg3 s
  let msg0 := sha256msg2Epu32 (addEpi32 msg0 (alignrEpi8 msg3 msg2 4)) msg3
  let msg2 := sha256msg1Epu32 msg2 msg3
  -- rounds 32 to 35
  let s := rounds4 8 msg0 s
  let msg1 := sha256msg2Epu32 (addEpi32 msg1 (alignrEpi8 msg0 msg3 4)) msg0
  let msg3 := sha256msg1Epu32 msg3 msg0
  -- rounds 36 to 39
  let s := rounds4 9 msg1 s
  let msg2 := sha256msg2Epu32 (addEpi32 msg2 (alignrEpi8 msg1 msg0 4)) msg1
  let msg0 := sha256msg1Epu32 msg0 msg1
  -- rounds 40 to 43
  let s := rounds4 10 msg2 s
  let msg3 := sha256msg2Epu32 (addEpi32 msg3 (alignrEpi8 msg2 msg1 4)) msg2
  let msg1 := sha256msg1Epu32 msg1 msg2
  -- rounds 44 to 47
  let s := rounds4 11 msg3 s
  let msg0 := sha256msg2Epu32 (addEpi32 msg0 (alignrEpi8 msg3 msg2 4)) msg3
  let msg2 := sha256msg1Epu32 msg2 msg3
  -- rounds 48 to 51
  let s := rounds4 12 msg0 s
  let msg1 := sha256msg2Epu32 (addEpi32 msg1 (alignrEpi8 msg0 msg3 4)) msg0
  let msg3 := sha256msg1Epu32 msg3 msg0
  -- rounds 52 to 55
  let s := rounds4 13 msg1 s
  let msg2 := sha256msg2Epu32 (addEpi32 msg2 (alignrEpi8 msg1 msg0 4)) msg1
  -- rounds 56 to 59
  let s := rounds4 14 msg2 s
  let msg3 := sha256msg2Epu32 (addEpi32 msg3 (alignrEpi8 msg2 msg1 4)) msg2
  -- rounds 60 to 63
  let s := rounds4 15 msg3 s
  unpack (addEpi32 s.1 abefSave, addEpi32 s.2 cdghSave)

end Ni

/-! ### Messages -/

def iv : State :=
  #[0x6a09e667, 0xbb67ae85, 0x3c6ef372, 0xa54ff53a, 0x510e527f, 0x9b05688c, 0x1f83d9ab, 0x5be0cd19].toVector

/-- `copy_from_slice` into the part of a buffer from `i` on. -/
def copyAt (buf : Bytes) (i : Nat) (bytes : Bytes) : Bytes := buf.take i ++ bytes ++ buf.drop (i + bytes.length)

/-- The body of `hash_scalar` and of the `hash` of `sha256_ni.rs`, whose only difference is the compression. -/
def hashWith (compress : State → Bytes → State) (input : Bytes) : Bytes :=
  let h := (chunksExact 64 input).foldl compress iv
  let rem := input.drop (input.length / 64 * 64)
  let bitLen := UInt64.ofNat input.length <<< 3
  let tail := copyAt (List.replicate 128 0) 0 rem
  let tail := copyAt tail rem.length [0x80]
  let twoBlocks := rem.length ≥ 56
  let padEnd := if twoBlocks then 120 else 56
  let tail := copyAt tail padEnd (toBeBytes64 bitLen)
  let h := compress h (slice tail 0 64)
  let h := if twoBlocks then compress h (slice tail 64 128) else h
  h.toList.flatMap toBeBytes

def hashScalar (input : Bytes) : Bytes := hashWith compress input

def Ni.hash (input : Bytes) : Bytes := hashWith Ni.compressNi input

/-- The dispatch on an x86-64 machine: `sha` is what `is_x86_feature_detected!("sha")` says. -/
def hash (sha : Bool) (input : Bytes) : Bytes := if sha then Ni.hash input else hashScalar input

end Sha256

end Calisto

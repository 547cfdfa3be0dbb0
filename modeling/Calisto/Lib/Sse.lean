import Calisto.Lib.Words

/-!
# 128-bit registers

The x86 instructions on 128-bit registers that hash functions use, from their documented behaviour: integer SSE and
the SHA extensions.  A register is four words, the lowest first; the instructions on bytes are given on the sixteen
bytes, the lowest first.
-/

namespace Sse

open Words

structure M128 where
  x0 : UInt32
  x1 : UInt32
  x2 : UInt32
  x3 : UInt32
  deriving DecidableEq, Repr

def M128.bytes (m : M128) : List UInt8 := toLeBytes m.x0 ++ (toLeBytes m.x1 ++ (toLeBytes m.x2 ++ toLeBytes m.x3))

/-- The register of the first sixteen bytes. -/
def M128.ofBytes (b : List UInt8) : M128 :=
  ⟨fromLeBytes b, fromLeBytes (b.drop 4), fromLeBytes (b.drop 8), fromLeBytes (b.drop 12)⟩

/-- The word `i` modulo 4. -/
def M128.lane (m : M128) (i : Nat) : UInt32 :=
  match i % 4 with
  | 0 => m.x0
  | 1 => m.x1
  | 2 => m.x2
  | _ => m.x3

/-! ### Integers -/

/-- `_mm_set_epi64x`: two 64-bit integers, the high one first. -/
def setEpi64x (e1 e0 : UInt64) : M128 :=
  ⟨e0.toUInt32, (e0 >>> 32).toUInt32, e1.toUInt32, (e1 >>> 32).toUInt32⟩

/-- `_mm_loadu_si128` of bytes. -/
def loaduSi128 (mem : List UInt8) : M128 := M128.ofBytes mem

/-- `_mm_add_epi32`. -/
def addEpi32 (a b : M128) : M128 := ⟨a.x0 + b.x0, a.x1 + b.x1, a.x2 + b.x2, a.x3 + b.x3⟩

/-- `_mm_shuffle_epi32`: two bits of `imm` choose each word. -/
def shuffleEpi32 (a : M128) (imm : Nat) : M128 :=
  ⟨a.lane imm, a.lane (imm >>> 2), a.lane (imm >>> 4), a.lane (imm >>> 6)⟩

/-- `_mm_alignr_epi8`: the low half of `a` above `b`, shifted right by `n` bytes. -/
def alignrEpi8 (a b : M128) (n : Nat) : M128 := M128.ofBytes ((b.bytes ++ a.bytes).drop n)

/-- `_mm_blend_epi16`: each pair of bytes is from `b` where its bit of `imm` is set. -/
def blendEpi16 (a b : M128) (imm : Nat) : M128 :=
  M128.ofBytes ((List.range 16).map fun i => if imm.testBit (i / 2) then b.bytes.getD i 0 else a.bytes.getD i 0)

/-- `_mm_shuffle_epi8`: each byte of `b` is the place of a byte in `a`, or zero for a byte from 128 on. -/
def shuffleEpi8 (a b : M128) : M128 :=
  M128.ofBytes (b.bytes.map fun i => if i &&& 0x80 = 0 then a.bytes.getD (i &&& 0x0F).toNat 0 else 0)

/-! ### SHA-256 -/

def ch (e f g : UInt32) : UInt32 := (e &&& f) ^^^ (~~~e &&& g)

def maj (a b c : UInt32) : UInt32 := (a &&& b) ^^^ (a &&& c) ^^^ (b &&& c)

def sum0 (a : UInt32) : UInt32 := rotateRight a 2 ^^^ rotateRight a 13 ^^^ rotateRight a 22

def sum1 (e : UInt32) : UInt32 := rotateRight e 6 ^^^ rotateRight e 11 ^^^ rotateRight e 25

def sigma0 (w : UInt32) : UInt32 := rotateRight w 7 ^^^ rotateRight w 18 ^^^ (w >>> 3)

def sigma1 (w : UInt32) : UInt32 := rotateRight w 17 ^^^ rotateRight w 19 ^^^ (w >>> 10)

/-- `_mm_sha256rnds2_epu32`: two rounds from C, D, G, H in `a`, A, B, E, F in `b` and the two low words of `k`. -/
def sha256rnds2Epu32 (a b k : M128) : M128 :=
  let a0 := b.x3
  let b0 := b.x2
  let c0 := a.x3
  let d0 := a.x2
  let e0 := b.x1
  let f0 := b.x0
  let g0 := a.x1
  let h0 := a.x0
  let a1 := ch e0 f0 g0 + sum1 e0 + k.x0 + h0 + maj a0 b0 c0 + sum0 a0
  let e1 := ch e0 f0 g0 + sum1 e0 + k.x0 + h0 + d0
  let a2 := ch e1 e0 f0 + sum1 e1 + k.x1 + g0 + maj a1 a0 b0 + sum0 a1
  let e2 := ch e1 e0 f0 + sum1 e1 + k.x1 + g0 + c0
  ⟨e1, e2, a1, a2⟩

/-- `_mm_sha256msg1_epu32`. -/
def sha256msg1Epu32 (a b : M128) : M128 :=
  ⟨a.x0 + sigma0 a.x1, a.x1 + sigma0 a.x2, a.x2 + sigma0 a.x3, a.x3 + sigma0 b.x0⟩

/-- `_mm_sha256msg2_epu32`. -/
def sha256msg2Epu32 (a b : M128) : M128 :=
  let w16 := a.x0 + sigma1 b.x2
  let w17 := a.x1 + sigma1 b.x3
  let w18 := a.x2 + sigma1 w16
  let w19 := a.x3 + sigma1 w17
  ⟨w16, w17, w18, w19⟩

/-! ### Lanes -/

@[simp] theorem ofBytes_bytes (m : M128) (rest : List UInt8) : M128.ofBytes (m.bytes ++ rest) = m := by
  obtain ⟨x0, x1, x2, x3⟩ := m
  show M128.mk (fromLeBytes (toLeBytes x0 ++ _)) (fromLeBytes (toLeBytes x1 ++ _)) (fromLeBytes (toLeBytes x2 ++ _))
    (fromLeBytes (toLeBytes x3 ++ rest)) = _
  simp only [fromLeBytes_toLeBytes_append]

/-- Shifting by a word moves the low word of `a` in at the top. -/
theorem alignrEpi8_four (a b : M128) : alignrEpi8 a b 4 = ⟨b.x1, b.x2, b.x3, a.x0⟩ := by
  have h := ofBytes_bytes ⟨b.x1, b.x2, b.x3, a.x0⟩ (toLeBytes a.x1 ++ (toLeBytes a.x2 ++ toLeBytes a.x3))
  exact h

theorem alignrEpi8_eight (a b : M128) : alignrEpi8 a b 8 = ⟨b.x2, b.x3, a.x0, a.x1⟩ := by
  have h := ofBytes_bytes ⟨b.x2, b.x3, a.x0, a.x1⟩ (toLeBytes a.x2 ++ toLeBytes a.x3)
  exact h

/-- The upper half is from `b`. -/
theorem blendEpi16_upper (a b : M128) : blendEpi16 a b 0xF0 = ⟨a.x0, a.x1, b.x2, b.x3⟩ := by
  have h := ofBytes_bytes ⟨a.x0, a.x1, b.x2, b.x3⟩ []
  exact h

end Sse

import Calisto.Lib.Words

/-!
# xxHash

The 64-bit hash on byte strings by their parts: stripes of 32 bytes for the four lanes, and behind the last of them
words of eight bytes, at most one of four, and single bytes.
-/

namespace Xxh

open Words

def prime1 : UInt64 := 0x9E3779B185EBCA87

def prime2 : UInt64 := 0xC2B2AE3D27D4EB4F

def prime3 : UInt64 := 0x165667B19E3779F9

def prime4 : UInt64 := 0x85EBCA77C2B2AE63

def prime5 : UInt64 := 0x27D4EB2F165667C5

/-- An accumulator after a word. -/
def accumulate (acc word : UInt64) : UInt64 := rotateLeft64 (acc + word * prime2) 31 * prime1

/-! ### Stripes -/

structure Lanes where
  one : UInt64
  two : UInt64
  three : UInt64
  four : UInt64

def Lanes.start (seed : UInt64) : Lanes := ⟨seed + prime1 + prime2, seed + prime2, seed, seed - prime1⟩

/-- The lanes after a stripe: each takes one of its words. -/
def Lanes.stripe (v : Lanes) (bytes : List UInt8) : Lanes :=
  ⟨accumulate v.one (fromLeBytes64 bytes), accumulate v.two (fromLeBytes64 (bytes.drop 8)),
    accumulate v.three (fromLeBytes64 (bytes.drop 16)), accumulate v.four (fromLeBytes64 (bytes.drop 24))⟩

def mergeLane (h lane : UInt64) : UInt64 := (h ^^^ accumulate 0 lane) * prime1 + prime4

def Lanes.merge (v : Lanes) : UInt64 :=
  let h := rotateLeft64 v.one 1 + rotateLeft64 v.two 7 + rotateLeft64 v.three 12 + rotateLeft64 v.four 18
  mergeLane (mergeLane (mergeLane (mergeLane h v.one) v.two) v.three) v.four

/-! ### The rest -/

def mixWord (h : UInt64) (bytes : List UInt8) : UInt64 :=
  rotateLeft64 (h ^^^ accumulate 0 (fromLeBytes64 bytes)) 27 * prime1 + prime4

def mixHalf (h : UInt64) (bytes : List UInt8) : UInt64 :=
  rotateLeft64 (h ^^^ (fromLeBytes bytes).toUInt64 * prime1) 23 * prime2 + prime3

def mixByte (h : UInt64) (b : UInt8) : UInt64 := rotateLeft64 (h ^^^ b.toUInt64 * prime5) 11 * prime1

/-- What is left of a string behind its parts of the length `n`. -/
def behind (n : Nat) (bytes : List UInt8) : List UInt8 := bytes.drop (bytes.length / n * n)

def mixRest (h : UInt64) (rest : List UInt8) : UInt64 :=
  let h := (chunksExact 8 rest).foldl mixWord h
  let rest := behind 8 rest
  if 4 ≤ rest.length then (rest.drop 4).foldl mixByte (mixHalf h rest) else rest.foldl mixByte h

def avalanche (h : UInt64) : UInt64 :=
  let h := (h ^^^ (h >>> 33)) * prime2
  let h := (h ^^^ (h >>> 29)) * prime3
  h ^^^ (h >>> 32)

def hash (bytes : List UInt8) (seed : UInt64) : UInt64 :=
  let h := if 32 ≤ bytes.length then ((chunksExact 32 bytes).foldl Lanes.stripe (.start seed)).merge else seed + prime5
  avalanche (mixRest (h + UInt64.ofNat bytes.length) (behind 32 bytes))

end Xxh

import Calisto.Lib.Xxh
import Calisto.Wire.Text

/-!
# `xxh64`

`xxh64.rs`: three loops and a branch that share the index `p`.  A read outside of the data panics, here `none`; there
is none, and the hash is the one of the library.
-/

namespace Calisto

namespace Xxh64

open Words

def P1 : UInt64 := 0x9E3779B185EBCA87

def P2 : UInt64 := 0xC2B2AE3D27D4EB4F

def P3 : UInt64 := 0x165667B19E3779F9

def P4 : UInt64 := 0x85EBCA77C2B2AE63

def P5 : UInt64 := 0x27D4EB2F165667C5

def rotl (x r : UInt64) : UInt64 := rotateLeft64 x r

/-- `b[p..p + n]`. -/
def bytesAt (n : Nat) (b : Bytes) (p : Nat) : Option Bytes :=
  if p + n ≤ b.length then some (slice b p (p + n)) else none

def read64 (b : Bytes) (p : Nat) : Option UInt64 := (bytesAt 8 b p).map fromLeBytes64

def round (acc input : UInt64) : UInt64 :=
  let acc := acc + input * P2
  rotl acc 31 * P1

def mergeRound (acc val : UInt64) : UInt64 :=
  let v := round 0 val
  let acc := acc ^^^ v
  acc * P1 + P4

/-- `while p <= limit`, with `v1` to `v4`. -/
def stripeLoop (data : Bytes) (limit p : Nat) (v1 v2 v3 v4 : UInt64) :
    Option (Nat × UInt64 × UInt64 × UInt64 × UInt64) :=
  if p ≤ limit then do
    let v1 := round v1 (← read64 data p)
    let v2 := round v2 (← read64 data (p + 8))
    let v3 := round v3 (← read64 data (p + 16))
    let v4 := round v4 (← read64 data (p + 24))
    stripeLoop data limit (p + 32) v1 v2 v3 v4
  else some (p, v1, v2, v3, v4)
termination_by limit + 1 - p

/-- `while p + 8 <= len`. -/
def wordLoop (data : Bytes) (p : Nat) (h : UInt64) : Option (Nat × UInt64) :=
  if p + 8 ≤ data.length then do
    let h := h ^^^ round 0 (← read64 data p)
    wordLoop data (p + 8) (rotl h 27 * P1 + P4)
  else some (p, h)
termination_by data.length - p

/-- `if p + 4 <= len`. -/
def halfStep (data : Bytes) (p : Nat) (h : UInt64) : Option (Nat × UInt64) :=
  if p + 4 ≤ data.length then do
    let h := h ^^^ (fromLeBytes (← bytesAt 4 data p)).toUInt64 * P1
    return (p + 4, rotl h 23 * P2 + P3)
  else some (p, h)

/-- `while p < len`. -/
def byteLoop (data : Bytes) (p : Nat) (h : UInt64) : Option UInt64 :=
  if p < data.length then do
    let h := h ^^^ (← data[p]?).toUInt64 * P5
    byteLoop data (p + 1) (rotl h 11 * P1)
  else some h
termination_by data.length - p

def xxh64 (data : Bytes) (seed : UInt64) : Option UInt64 := do
  let len := data.length
  let (p, h) ← if len ≥ 32 then do
      let (p, v1, v2, v3, v4) ← stripeLoop data (len - 32) 0 (seed + P1 + P2) (seed + P2) seed (seed - P1)
      let h := rotl v1 1 + rotl v2 7 + rotl v3 12 + rotl v4 18
      pure (p, mergeRound (mergeRound (mergeRound (mergeRound h v1) v2) v3) v4)
    else pure (0, seed + P5)
  let h := h + UInt64.ofNat len
  let (p, h) ← wordLoop data p h
  let (p, h) ← halfStep data p h
  let h ← byteLoop data p h
  let h := h ^^^ (h >>> 33)
  let h := h * P2
  let h := h ^^^ (h >>> 29)
  let h := h * P3
  return h ^^^ (h >>> 32)

/-! ### Reads -/

variable {data : Bytes} {p : Nat}

private theorem read64_eq (h : p + 8 ≤ data.length) : read64 data p = some (fromLeBytes64 (data.drop p)) := by
  have htake := fromLeBytes64_drop_take (a := 0) (n := 8) (by decide) (data.drop p)
  rw [List.drop_zero, List.drop_zero] at htake
  rw [read64, bytesAt, if_pos h, Option.map_some, slice, Nat.add_sub_cancel_left, htake]

private theorem bytesAt_four (h : p + 4 ≤ data.length) :
    (bytesAt 4 data p).map fromLeBytes = some (fromLeBytes (data.drop p)) := by
  rw [bytesAt, if_pos h, Option.map_some, fromLeBytes_slice _ (by omega)]

/-! ### Loops -/

/-- Where a loop that takes `n` bytes at a time ends. -/
def stop (n : Nat) (data : Bytes) (p : Nat) : Nat := p + (data.length - p) / n * n

theorem drop_stop (n : Nat) (data : Bytes) (p : Nat) : data.drop (stop n data p) = Xxh.behind n (data.drop p) := by
  rw [stop, Xxh.behind, List.length_drop, List.drop_drop]

private theorem stop_add {n : Nat} (hn : 0 < n) (h : p + n ≤ data.length) : stop n data (p + n) = stop n data p := by
  have hsub : data.length - p = (data.length - (p + n)) + n := by omega
  rw [stop, stop, hsub, Nat.add_div_right _ hn, Nat.succ_mul]
  omega

private theorem stop_of_lt {n : Nat} (h : data.length < p + n) (hp : p ≤ data.length) : stop n data p = p := by
  rw [stop, Nat.div_eq_of_lt (by omega), Nat.zero_mul, Nat.add_zero]

/-- The four lanes of the loop. -/
def lanes (v : Xxh.Lanes) : UInt64 × UInt64 × UInt64 × UInt64 := (v.one, v.two, v.three, v.four)

/-- What a loop that takes `n` bytes at a time still has before it. -/
theorem chunksExact_drop {n : Nat} (hn : 0 < n) (h : p + n ≤ data.length) :
    chunksExact n (data.drop p) = (data.drop p).take n :: chunksExact n (data.drop (p + n)) := by
  rw [chunksExact_cons hn (by rw [List.length_drop]; omega), List.drop_drop]

/-- Each round of the stripe loop reads one stripe. -/
theorem stripeLoop_eq (hlen : 32 ≤ data.length) (hp : p ≤ data.length) (v1 v2 v3 v4 : UInt64) :
    stripeLoop data (data.length - 32) p v1 v2 v3 v4 =
      some (stop 32 data p, lanes ((chunksExact 32 (data.drop p)).foldl Xxh.Lanes.stripe ⟨v1, v2, v3, v4⟩)) := by
  induction p, v1, v2, v3, v4 using stripeLoop.induct (data.length - 32) with
  | case1 p v1 v2 v3 v4 hround ih =>
    have hstripe : Xxh.Lanes.stripe ⟨v1, v2, v3, v4⟩ ((data.drop p).take 32) =
        ⟨round v1 (fromLeBytes64 (data.drop p)), round v2 (fromLeBytes64 (data.drop (p + 8))),
          round v3 (fromLeBytes64 (data.drop (p + 16))), round v4 (fromLeBytes64 (data.drop (p + 24)))⟩ := by
      have h0 := fromLeBytes64_drop_take (a := 0) (n := 32) (by decide) (data.drop p)
      rw [List.drop_zero, List.drop_zero] at h0
      rw [Xxh.Lanes.stripe, h0, fromLeBytes64_drop_take (by decide), fromLeBytes64_drop_take (by decide),
        fromLeBytes64_drop_take (by decide), List.drop_drop, List.drop_drop, List.drop_drop]
      rfl
    have hrest := ih (fromLeBytes64 (data.drop p)) (fromLeBytes64 (data.drop (p + 8)))
      (fromLeBytes64 (data.drop (p + 16))) (fromLeBytes64 (data.drop (p + 24))) (by omega)
    rw [stripeLoop, if_pos hround, read64_eq (by omega), read64_eq (by omega), read64_eq (by omega),
      read64_eq (by omega), chunksExact_drop (by decide) (by omega), List.foldl_cons, hstripe,
      ← stop_add (by decide) (by omega)]
    exact hrest
  | case2 p v1 v2 v3 v4 hround =>
    have hnone : chunksExact 32 (data.drop p) = [] := chunksExact_of_lt (by rw [List.length_drop]; omega)
    rw [stripeLoop, if_neg hround, hnone, stop_of_lt (by omega) hp]
    rfl

private theorem wordLoop_eq (hp : p ≤ data.length) (h : UInt64) :
    wordLoop data p h = some (stop 8 data p, (chunksExact 8 (data.drop p)).foldl Xxh.mixWord h) := by
  induction p, h using wordLoop.induct data with
  | case1 p h hround ih =>
    have hword : Xxh.mixWord h ((data.drop p).take 8) =
        rotl (h ^^^ round 0 (fromLeBytes64 (data.drop p))) 27 * P1 + P4 := by
      have h0 := fromLeBytes64_drop_take (a := 0) (n := 8) (by decide) (data.drop p)
      rw [List.drop_zero, List.drop_zero] at h0
      rw [Xxh.mixWord, h0]
      rfl
    rw [wordLoop, if_pos hround, read64_eq hround, chunksExact_drop (by decide) hround, List.foldl_cons, hword,
      ← stop_add (by decide) hround]
    exact ih _ hround
  | case2 p h hround =>
    have hnone : chunksExact 8 (data.drop p) = [] := chunksExact_of_lt (by rw [List.length_drop]; omega)
    rw [wordLoop, if_neg hround, hnone, stop_of_lt (by omega) hp]
    rfl

private theorem halfStep_eq (h : UInt64) : halfStep data p h =
    some (if p + 4 ≤ data.length then (p + 4, Xxh.mixHalf h (data.drop p)) else (p, h)) := by
  unfold halfStep
  split
  · rename_i hread
    obtain ⟨bytes, hbytes, hword⟩ := Option.map_eq_some_iff.1 (bytesAt_four hread)
    rw [hbytes, Option.bind_eq_bind, Option.bind_some, hword]
    rfl
  · rfl

private theorem byteLoop_eq (h : UInt64) : byteLoop data p h = some ((data.drop p).foldl Xxh.mixByte h) := by
  induction p, h using byteLoop.induct data with
  | case1 p h hround ih =>
    rw [byteLoop, if_pos hround, List.getElem?_eq_getElem hround, List.drop_eq_getElem_cons hround, List.foldl_cons]
    exact ih data[p]
  | case2 p h hround =>
    rw [byteLoop, if_neg hround, List.drop_of_length_le (by omega)]
    rfl

/-! ### The hash -/

/-- What follows the stripes, from `p` on. -/
theorem rest_eq (hp : p ≤ data.length) (h : UInt64) :
    ((wordLoop data p h).bind fun x => (halfStep data x.1 x.2).bind fun x => (byteLoop data x.1 x.2).bind fun h =>
      some (Xxh.avalanche h)) = some (Xxh.avalanche (Xxh.mixRest h (data.drop p))) := by
  have hcond : 4 ≤ (Xxh.behind 8 (data.drop p)).length ↔ stop 8 data p + 4 ≤ data.length := by
    rw [← drop_stop, List.length_drop]
    omega
  rw [wordLoop_eq hp, Option.bind_some, halfStep_eq, Option.bind_some, byteLoop_eq, Option.bind_some, Xxh.mixRest]
  dsimp only
  by_cases hhalf : stop 8 data p + 4 ≤ data.length
  · rw [if_pos hhalf, if_pos (hcond.2 hhalf), ← drop_stop, List.drop_drop]
  · rw [if_neg hhalf, if_neg (mt hcond.1 hhalf), ← drop_stop]

/-- No read is outside of the data, and the hash is the one of the parts. -/
theorem xxh64_eq_hash (data : Bytes) (seed : UInt64) : xxh64 data seed = some (Xxh.hash data seed) := by
  unfold xxh64 Xxh.hash
  dsimp only
  by_cases hlen : data.length ≥ 32
  · have hstop : stop 32 data 0 ≤ data.length := by
      rw [stop]
      omega
    rw [if_pos hlen, if_pos hlen, stripeLoop_eq hlen (Nat.zero_le _), List.drop_zero]
    refine (rest_eq hstop _).trans ?_
    rw [drop_stop, List.drop_zero]
    rfl
  · have hall : Xxh.behind 32 data = data.drop 0 := by
      rw [Xxh.behind, Nat.div_eq_of_lt (by omega), Nat.zero_mul]
    rw [if_neg hlen, if_neg hlen, hall]
    exact rest_eq (Nat.zero_le _) _

end Xxh64

end Calisto

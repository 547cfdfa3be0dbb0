import Calisto.Lib.Words
import Calisto.Wire.Text

/-!
# BLAKE3

`blake3.rs`: chunks of 1024 bytes compressed block by block, and the incremental stack of chaining values.
-/

namespace Calisto

namespace Blake3

open Words

def chunkLen : Nat := 1024

def blockLen : Nat := 64

def chunkStart : UInt32 := 1

def chunkEnd : UInt32 := 2

def parent : UInt32 := 4

def root : UInt32 := 8

abbrev Cv := Vector UInt32 8

abbrev Block := Vector UInt32 16

def iv : Cv :=
  #v[0x6A09E667, 0xBB67AE85, 0x3C6EF372, 0xA54FF53A, 0x510E527F, 0x9B05688C, 0x1F83D9AB, 0x5BE0CD19]

def msgPermutation : Vector (Fin 16) 16 := #v[2, 6, 3, 10, 7, 0, 4, 13, 1, 11, 12, 5, 9, 14, 15, 8]

/-! ### The compression function -/

def g (state : Block) (a b c d : Fin 16) (mx my : UInt32) : Block :=
  let state := state.set a (state[a] + state[b] + mx)
  let state := state.set d (rotateRight (state[d] ^^^ state[a]) 16)
  let state := state.set c (state[c] + state[d])
  let state := state.set b (rotateRight (state[b] ^^^ state[c]) 12)
  let state := state.set a (state[a] + state[b] + my)
  let state := state.set d (rotateRight (state[d] ^^^ state[a]) 8)
  let state := state.set c (state[c] + state[d])
  state.set b (rotateRight (state[b] ^^^ state[c]) 7)

def round (state m : Block) : Block :=
  -- columns
  let state := g state 0 4 8 12 m[0] m[1]
  let state := g state 1 5 9 13 m[2] m[3]
  let state := g state 2 6 10 14 m[4] m[5]
  let state := g state 3 7 11 15 m[6] m[7]
  -- diagonals
  let state := g state 0 5 10 15 m[8] m[9]
  let state := g state 1 6 11 12 m[10] m[11]
  let state := g state 2 7 8 13 m[12] m[13]
  g state 3 4 9 14 m[14] m[15]

/-- The seven rounds, the block permuted after each. -/
def rounds : Nat → Block → Block → Block
  | 0, state, _ => state
  | n + 1, state, block => rounds n (round state block) (Vector.ofFn fun i : Fin 16 => block[msgPermutation[i]])

def compress (cv : Cv) (blockWords : Block) (counter : UInt64) (len flags : UInt32) : Block :=
  let state : Block := #v[cv[0], cv[1], cv[2], cv[3], cv[4], cv[5], cv[6], cv[7], iv[0], iv[1], iv[2], iv[3],
    counter.toUInt32, (counter >>> 32).toUInt32, len, flags]
  let state := rounds 7 state blockWords
  (List.finRange 8).foldl (fun (state : Block) (i : Fin 8) =>
    let state := state.set i.val (state[i.val] ^^^ state[i.val + 8])
    state.set (i.val + 8) (state[i.val + 8] ^^^ cv[i])) state

def first8Words (out : Block) : Cv := Vector.ofFn fun i : Fin 8 => out[i.val]

/-! ### Chunks -/

/-- `ChunkOutput`: what the compression of a last block, or of a parent, is made from. -/
structure ChunkOutput where
  inputCv : Cv := Vector.replicate 8 0
  blockWords : Block := Vector.replicate 16 0
  counter : UInt64 := 0
  blockLen : UInt32 := 0
  flags : UInt32 := 0

def ChunkOutput.chainingValue (out : ChunkOutput) : Cv :=
  first8Words (compress out.inputCv out.blockWords out.counter out.blockLen out.flags)

/-- `for (i, four) in fours.enumerate() { w[i] = u32::from_le_bytes(four) }`, from `i` on. -/
def setWords : Nat → List Bytes → Block → Block
  | _, [], w => w
  | i, four :: fours, w => setWords (i + 1) fours (w.setIfInBounds i (fromLeBytes four))

def words (block : Bytes) : Block := setWords 0 (chunksExact 4 block) (Vector.replicate 16 0)

/-- How many blocks of a chunk `process_chunk` compresses before the last one. -/
def nUpdate (chunk : Bytes) : Nat :=
  let fullBlocks := chunk.length / blockLen
  let lastIsFull := fullBlocks > 0 && chunk.length % blockLen == 0
  if lastIsFull then fullBlocks - 1 else fullBlocks

/-- The round `i` of the loop over these blocks. -/
def updateBlock (chunk : Bytes) (chunkCounter : UInt64) (cv : Cv) (i : Nat) : Cv :=
  let blockWords := words (slice chunk (i * blockLen) ((i + 1) * blockLen))
  let flags := if i = 0 then chunkStart else 0
  first8Words (compress cv blockWords chunkCounter (UInt32.ofNat blockLen) flags)

def processChunk (chunk : Bytes) (chunkCounter : UInt64) : Cv × ChunkOutput :=
  let nUpdate := nUpdate chunk
  let cv := (List.range nUpdate).foldl (updateBlock chunk chunkCounter) iv
  let rem := chunk.drop (nUpdate * blockLen)
  let blockWords := words rem
  let blockWords :=
    if rem.length % 4 ≠ 0 then
      let tail := rem.drop (rem.length - rem.length % 4)
      blockWords.setIfInBounds (rem.length / 4) (fromLeBytes (zeroPad 4 tail))
    else blockWords
  let flags := chunkEnd ||| if nUpdate = 0 then chunkStart else 0
  let out : ChunkOutput :=
    { inputCv := cv, blockWords := blockWords, counter := chunkCounter, blockLen := UInt32.ofNat rem.length,
      flags := flags }
  (out.chainingValue, out)

/-! ### The tree -/

def parentOutput (leftCv rightCv : Cv) : ChunkOutput where
  inputCv := iv
  blockWords := leftCv ++ rightCv
  counter := 0
  blockLen := UInt32.ofNat blockLen
  flags := parent

def parentCv (leftCv rightCv : Cv) : Cv := (parentOutput leftCv rightCv).chainingValue

def rootOutputBytes (out : ChunkOutput) : Bytes :=
  let words := compress out.inputCv out.blockWords 0 out.blockLen (out.flags ||| root)
  (first8Words words).toList.flatMap toLeBytes

/-- The loop `while total & 1 == 0`; the top of `cv_stack` is the head of the list, and `none` is its `expect` on an
empty stack. -/
def mergeLoop : List Cv → Nat → Cv → Option (List Cv)
  | cvStack, total, newCv =>
    if total % 2 = 0 then
      match cvStack with
      | [] => none
      | left :: cvStack => mergeLoop cvStack (total / 2) (parentCv left newCv)
    else some (newCv :: cvStack)
termination_by structural cvStack => cvStack

/-- The loop `for idx in 0..n_chunks`, with `todo` rounds to go. -/
def chunkLoop (input : Bytes) (nChunks : Nat) : Nat → Nat → List Cv → ChunkOutput → Option (List Cv × ChunkOutput)
  | 0, _, cvStack, lastOutput => some (cvStack, lastOutput)
  | todo + 1, idx, cvStack, lastOutput =>
    let chunk := slice input (idx * chunkLen) (min ((idx + 1) * chunkLen) input.length)
    let (cv, out) := processChunk chunk (UInt64.ofNat idx)
    if idx + 1 = nChunks then some (cvStack, out)
    else
      match mergeLoop cvStack (idx + 1) cv with
      | none => none
      | some cvStack => chunkLoop input nChunks todo (idx + 1) cvStack lastOutput

/-- `input.len().div_ceil(CHUNK_LEN).max(1)`. -/
def nChunks (input : Bytes) : Nat := max ((input.length + chunkLen - 1) / chunkLen) 1

def hash (input : Bytes) : Option Bytes :=
  match chunkLoop input (nChunks input) (nChunks input) 0 [] {} with
  | none => none
  | some (cvStack, lastOutput) =>
    let out := cvStack.foldl (fun out left => parentOutput left out.chainingValue) lastOutput
    some (rootOutputBytes out)

end Blake3

end Calisto

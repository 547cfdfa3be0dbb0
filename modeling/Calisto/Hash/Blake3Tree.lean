import Calisto.Hash.Blake3
import Calisto.Lib.TreeStack

/-!
# BLAKE3 is its tree

The recursive definition of BLAKE3: a chunk is folded over its blocks of 64 bytes, and a longer message is a parent
node over the largest power of two of chunks smaller than the total and the rest.  `hash`, which builds the tree with
a stack, computes it for every message, and never pops an empty stack.
-/

namespace Calisto

namespace Blake3

open TreeStack Words

/-! ### The recursive definition -/

/-- A block, padded with zeros, as sixteen words. -/
def blockWords (block : Bytes) : Block :=
  Vector.ofFn fun i : Fin 16 => fromLeBytes (slice (zeroPad 64 block) (4 * i) (4 * i + 4))

/-- A chunk from a block on: `cv` is the chaining value so far, and `start` the flag of the first block. -/
def chunkSpec (counter : UInt64) (start : UInt32) (cv : Cv) (chunk : Bytes) : ChunkOutput :=
  if chunk.length ≤ 64 then
    { inputCv := cv, blockWords := blockWords chunk, counter := counter, blockLen := UInt32.ofNat chunk.length,
      flags := chunkEnd ||| start }
  else
    chunkSpec counter 0 (first8Words (compress cv (blockWords (chunk.take 64)) counter 64 start)) (chunk.drop 64)
termination_by chunk.length
decreasing_by simp only [List.length_drop]; omega

/-- The length of the left subtree. -/
def leftLen (input : Bytes) : Nat := leftCount (nChunks input) * 1024

theorem nChunks_eq {input : Bytes} (h : 1024 < input.length) : nChunks input = (input.length - 1) / 1024 + 1 := by
  unfold nChunks chunkLen
  omega

private theorem leftLen_lt {input : Bytes} (h : 1024 < input.length) : leftLen input < input.length := by
  have hlt : leftCount (nChunks input) < nChunks input := leftCount_lt (by rw [nChunks_eq h]; omega)
  rw [nChunks_eq h] at hlt
  unfold leftLen
  rw [nChunks_eq h]
  omega

private theorem leftLen_pos (input : Bytes) : 0 < leftLen input := by
  have := leftCount_pos (nChunks input)
  unfold leftLen
  omega

/-- The tree over a message whose first chunk has the number `counter`. -/
def treeSpec (counter : Nat) (input : Bytes) : ChunkOutput :=
  if input.length ≤ 1024 then chunkSpec (UInt64.ofNat counter) chunkStart iv input
  else
    parentOutput (treeSpec counter (input.take (leftLen input))).chainingValue
      (treeSpec (counter + leftLen input / 1024) (input.drop (leftLen input))).chainingValue
termination_by input.length
decreasing_by
  · have hlong : 1024 < input.length := by omega
    have := leftLen_lt hlong
    simp only [List.length_take]
    omega
  · have := leftLen_pos input
    simp only [List.length_drop]
    omega

/-- The root is the last node, compressed with the flag `ROOT`. -/
def hashSpec (input : Bytes) : Bytes := rootOutputBytes (treeSpec 0 input)

/-! ### Words -/

private theorem getElem_blockWords (block : Bytes) {i : Nat} (hi : i < 16) :
    (blockWords block)[i] = fromLeBytes (block.drop (4 * i)) := by
  simp only [blockWords, Vector.getElem_ofFn]
  rw [fromLeBytes_slice _ (Nat.le_refl _)]
  refine fromLeBytes_congr fun k _ => ?_
  rw [getD_drop, getD_zeroPad, getD_drop]

private theorem getElem_setWords (i : Nat) (fours : List Bytes) (w : Block) {j : Nat} (hj : j < 16) :
    (setWords i fours w)[j] = if i ≤ j ∧ j < i + fours.length then fromLeBytes (fours.getD (j - i) []) else w[j] := by
  induction fours generalizing i w with
  | nil =>
    rw [if_neg (by simp)]
    rfl
  | cons four fours ih =>
    rw [setWords, ih]
    simp only [List.length_cons]
    by_cases h1 : i + 1 ≤ j ∧ j < i + 1 + fours.length
    · rw [if_pos h1, if_pos (by omega), show j - i = j - (i + 1) + 1 by omega, List.getD_cons_succ]
    · rw [if_neg h1, Vector.getElem_setIfInBounds]
      by_cases h2 : i = j
      · subst h2
        rw [if_pos rfl, if_pos (by omega), Nat.sub_self, List.getD_cons_zero]
      · rw [if_neg h2, if_neg (by omega)]

private theorem getElem_words (block : Bytes) {j : Nat} (hj : j < 16) :
    (words block)[j] = if j < block.length / 4 then fromLeBytes (block.drop (4 * j)) else 0 := by
  unfold words
  rw [getElem_setWords]
  simp only [Nat.zero_le, true_and, Nat.zero_add, Nat.sub_zero, chunksExact, List.length_map, List.length_range,
    Vector.getElem_replicate]
  by_cases h : j < block.length / 4
  · rw [if_pos h, if_pos h, List.getD_eq_getElem?_getD, List.getElem?_map, List.getElem?_range h, Option.map_some,
      Option.getD_some, fromLeBytes_slice _ (by omega), Nat.mul_comm]
  · rw [if_neg h, if_neg h]

/-- A whole block. -/
theorem words_eq {block : Bytes} (h : block.length = 64) : words block = blockWords block := by
  apply Vector.ext
  intro j hj
  rw [getElem_words _ hj, getElem_blockWords _ hj, if_pos (by omega)]

/-- The last block, with its last one to three bytes. -/
theorem lastWords_eq (rem : Bytes) :
    (if rem.length % 4 ≠ 0 then
      (words rem).setIfInBounds (rem.length / 4) (fromLeBytes (zeroPad 4 (rem.drop (rem.length - rem.length % 4))))
    else words rem) = blockWords rem := by
  have hzero : ∀ j, rem.length ≤ 4 * j → fromLeBytes (rem.drop (4 * j)) = 0 := by
    intro j hj
    rw [List.drop_eq_nil_of_le hj]
    rfl
  apply Vector.ext
  intro j hj
  rw [getElem_blockWords _ hj]
  by_cases hmod : rem.length % 4 = 0
  · simp only [hmod, ne_eq, not_true_eq_false, ↓reduceIte]
    rw [getElem_words _ hj]
    by_cases hlt : j < rem.length / 4
    · rw [if_pos hlt]
    · rw [if_neg hlt, hzero j (by omega)]
  · simp only [hmod, ne_eq, not_false_eq_true, ↓reduceIte]
    rw [Vector.getElem_setIfInBounds, getElem_words _ hj]
    by_cases heq : rem.length / 4 = j
    · rw [if_pos heq, show rem.length - rem.length % 4 = 4 * j by omega]
      exact fromLeBytes_congr fun k _ => getD_zeroPad _ _ _
    · rw [if_neg heq]
      by_cases hlt : j < rem.length / 4
      · rw [if_pos hlt]
      · rw [if_neg hlt, hzero j (by omega)]

/-! ### Chunks -/

private theorem nUpdate_eq (chunk : Bytes) : nUpdate chunk = (chunk.length - 1) / 64 := by
  unfold nUpdate blockLen
  by_cases h : 0 < chunk.length / 64 ∧ chunk.length % 64 = 0
  · simp only [h.1, h.2, decide_true, beq_self_eq_true, Bool.and_self, ↓reduceIte]
    omega
  · have : (decide (chunk.length / 64 > 0) && chunk.length % 64 == 0) = false := by
      simpa [Nat.pos_iff_ne_zero] using h
    simp only [this, Bool.false_eq_true, ↓reduceIte]
    omega

/-- The fold over the blocks, from the block `i` on with the chaining value that the loop has there. -/
theorem chunkSpec_drop (chunk : Bytes) (counter : UInt64) {i : Nat} (h : i ≤ nUpdate chunk) :
    chunkSpec counter (if i = 0 then chunkStart else 0) ((List.range i).foldl (updateBlock chunk counter) iv)
        (chunk.drop (i * blockLen)) = chunkSpec counter chunkStart iv chunk := by
  have hblock : blockLen = 64 := rfl
  induction i with
  | zero => simp
  | succ i ih =>
    rw [nUpdate_eq] at h
    have hlen : 64 < (chunk.drop (i * blockLen)).length := by
      rw [List.length_drop, hblock]
      omega
    have htake : (chunk.drop (i * blockLen)).take 64 = slice chunk (i * blockLen) ((i + 1) * blockLen) := by
      unfold slice
      rw [Nat.succ_mul, Nat.add_sub_cancel_left, hblock]
    have hwords : words (slice chunk (i * blockLen) ((i + 1) * blockLen)) =
        blockWords (slice chunk (i * blockLen) ((i + 1) * blockLen)) := by
      apply words_eq
      rw [← htake, List.length_take]
      omega
    have hlen64 : UInt32.ofNat blockLen = 64 := rfl
    rw [← ih (by rw [nUpdate_eq]; omega), chunkSpec.eq_def counter (if i = 0 then chunkStart else 0),
      if_neg (by omega), List.range_succ, List.foldl_append, List.foldl_cons, List.foldl_nil, List.drop_drop, htake,
      if_neg (by omega), ← hblock, updateBlock, hwords, hlen64, Nat.succ_mul]

/-- `process_chunk` is the fold over the blocks. -/
theorem processChunk_eq (chunk : Bytes) (counter : UInt64) :
    processChunk chunk counter =
      ((chunkSpec counter chunkStart iv chunk).chainingValue, chunkSpec counter chunkStart iv chunk) := by
  have hout : (processChunk chunk counter).2 = chunkSpec counter chunkStart iv chunk := by
    have hlen : (chunk.drop (nUpdate chunk * blockLen)).length ≤ 64 := by
      have hblock : blockLen = 64 := rfl
      rw [nUpdate_eq, List.length_drop, hblock]
      omega
    rw [← chunkSpec_drop chunk counter (Nat.le_refl _), chunkSpec, if_pos hlen, ← lastWords_eq]
    rfl
  rw [← hout]
  rfl

/-! ### The stack -/

private theorem mergeLoop_eq (cvStack : List Cv) (total : Nat) (newCv : Cv) :
    mergeLoop cvStack total newCv = merge ChunkOutput.chainingValue parentOutput cvStack total newCv := by
  induction cvStack generalizing total newCv with
  | nil =>
    rw [mergeLoop, merge]
  | cons left cvStack ih =>
    rw [mergeLoop, merge]
    simp only [ih]
    rfl

/-- The chunk `i` of a message. -/
def chunkAt (input : Bytes) (i : Nat) : Bytes :=
  slice input (i * chunkLen) (min ((i + 1) * chunkLen) input.length)

/-- The leaf of a message's chunk `i`, when the message starts with the chunk `counter`. -/
def leafAt (counter : Nat) (input : Bytes) (i : Nat) : ChunkOutput :=
  chunkSpec (UInt64.ofNat i) chunkStart iv (chunkAt input (i - counter))

/-- The stack before the chunk `idx` holds the complete subtrees of the chunks before it. -/
theorem chunkLoop_eq (input : Bytes) {todo idx : Nat} (h : idx + (todo + 1) = nChunks input) (last : ChunkOutput) :
    chunkLoop input (nChunks input) (todo + 1) idx
        (peaks ChunkOutput.chainingValue parentOutput (leafAt 0 input) 0 idx) last =
      some (peaks ChunkOutput.chainingValue parentOutput (leafAt 0 input) 0 (nChunks input - 1),
        leafAt 0 input (nChunks input - 1)) := by
  induction todo generalizing idx with
  | zero =>
    have hlast : idx + 1 = nChunks input := h
    have hpred : nChunks input - 1 = idx := by omega
    rw [chunkLoop]
    simp only [processChunk_eq, if_pos hlast, hpred]
    rfl
  | succ todo ih =>
    have hmerge := merge_peaks ChunkOutput.chainingValue parentOutput (leafAt 0 input) 0 idx
    rw [Nat.pow_zero, Nat.mul_one, tree_one] at hmerge
    have hleaf : chunkSpec (UInt64.ofNat idx) chunkStart iv
        (slice input (idx * chunkLen) (min ((idx + 1) * chunkLen) input.length)) = leafAt 0 input idx := rfl
    rw [chunkLoop]
    simp only [processChunk_eq, hleaf, mergeLoop_eq, hmerge]
    rw [if_neg (by omega), ih (by omega)]

/-! ### The tree -/

private theorem nChunks_pos (input : Bytes) : 0 < nChunks input := by
  unfold nChunks
  omega

private theorem length_take_leftLen {input : Bytes} (h : 1024 < input.length) :
    (input.take (leftLen input)).length = leftLen input := by
  have := leftLen_lt h
  rw [List.length_take]
  omega

/-- The chunks of the left part are the first chunks. -/
theorem chunkAt_take {input : Bytes} (h : 1024 < input.length) {i : Nat} (hi : i < leftCount (nChunks input)) :
    chunkAt (input.take (leftLen input)) i = chunkAt input i := by
  have hlt := leftLen_lt h
  unfold chunkAt
  rw [length_take_leftLen h]
  unfold slice leftLen chunkLen at *
  rw [List.drop_take, List.take_take]
  congr 1
  omega

/-- Those of the right part are the others. -/
theorem chunkAt_drop {input : Bytes} (i : Nat) :
    chunkAt (input.drop (leftLen input)) i = chunkAt input (leftCount (nChunks input) + i) := by
  unfold chunkAt slice leftLen chunkLen
  generalize leftCount (nChunks input) = l
  have hcount : min ((i + 1) * 1024) (input.length - l * 1024) - i * 1024 =
      min ((l + i + 1) * 1024) input.length - (l + i) * 1024 := by
    omega
  rw [List.drop_drop, List.length_drop, hcount, ← Nat.add_mul]

private theorem nChunks_take {input : Bytes} (h : 1024 < input.length) :
    nChunks (input.take (leftLen input)) = leftCount (nChunks input) := by
  have hpos := leftCount_pos (nChunks input)
  rw [nChunks, length_take_leftLen h]
  unfold leftLen chunkLen
  omega

private theorem nChunks_drop {input : Bytes} (h : 1024 < input.length) :
    nChunks (input.drop (leftLen input)) = nChunks input - leftCount (nChunks input) := by
  have hlt := leftLen_lt h
  rw [nChunks, List.length_drop, nChunks_eq h]
  rw [leftLen, nChunks_eq h] at hlt ⊢
  unfold chunkLen
  omega

private theorem treeSpec_eq (counter : Nat) (input : Bytes) :
    treeSpec counter input =
      tree ChunkOutput.chainingValue parentOutput (leafAt counter input) counter (nChunks input) := by
  induction counter, input using treeSpec.induct with
  | case1 counter input hle =>
    have hone : nChunks input = 1 := by
      unfold nChunks chunkLen
      omega
    have hchunk : chunkAt input 0 = input := by
      unfold chunkAt slice chunkLen
      rw [Nat.zero_mul, List.drop_zero]
      exact List.take_of_length_le (by omega)
    rw [treeSpec, if_pos hle, hone, tree_one, leafAt, Nat.sub_self, hchunk]
  | case2 counter input hlt ihl ihr =>
    have hlong : 1024 < input.length := by omega
    have hmany : 1 < nChunks input := by rw [nChunks_eq hlong]; omega
    have hpos := leftCount_pos (nChunks input)
    have hlast := leftCount_lt hmany
    have hleft : tree ChunkOutput.chainingValue parentOutput (leafAt counter (input.take (leftLen input))) counter
        (leftCount (nChunks input)) =
          tree ChunkOutput.chainingValue parentOutput (leafAt counter input) counter (leftCount (nChunks input)) :=
      tree_congr _ _ hpos fun i h1 h2 => by rw [leafAt, leafAt, chunkAt_take hlong (by omega)]
    have hright : tree ChunkOutput.chainingValue parentOutput
        (leafAt (counter + leftCount (nChunks input)) (input.drop (leftLen input)))
          (counter + leftCount (nChunks input)) (nChunks input - leftCount (nChunks input)) =
        tree ChunkOutput.chainingValue parentOutput (leafAt counter input) (counter + leftCount (nChunks input))
          (nChunks input - leftCount (nChunks input)) :=
      tree_congr _ _ (by omega) fun i h1 h2 => by
        rw [leafAt, leafAt, chunkAt_drop, show leftCount (nChunks input) + (i - (counter + leftCount (nChunks input))) =
          i - counter by omega]
    have hcount : leftLen input / 1024 = leftCount (nChunks input) := by
      unfold leftLen
      omega
    rw [hcount] at ihr
    rw [treeSpec, if_neg hlt, ihl, hcount, ihr, nChunks_take hlong, nChunks_drop hlong, hleft, hright,
      tree.eq_def _ _ _ _ (nChunks input), if_pos hmany]

/-- `hash` computes the tree, and never fails. -/
theorem hash_eq_tree (input : Bytes) : hash input = some (hashSpec input) := by
  have hpos := nChunks_pos input
  obtain ⟨n, hn⟩ : ∃ n, nChunks input = n + 1 := ⟨nChunks input - 1, by omega⟩
  have hloop := chunkLoop_eq input (show 0 + (n + 1) = nChunks input by omega) {}
  have hfold := fold_peaks ChunkOutput.chainingValue parentOutput (leafAt 0 input) 0 n Nat.one_pos (by simp)
  rw [peaks.eq_def _ _ _ 0 0, if_pos rfl, ← hn] at hloop
  rw [Nat.pow_zero, Nat.mul_one, tree_one] at hfold
  unfold hash
  rw [hloop]
  simp only [hn, Nat.add_sub_cancel]
  rw [show List.foldl _ _ _ = _ from hfold, ← hn, hashSpec, treeSpec_eq]

example : (Blake3.hash []).map (List.take 4) = some [0xaf, 0x13, 0x49, 0xb9] := by decide +kernel

end Blake3

end Calisto

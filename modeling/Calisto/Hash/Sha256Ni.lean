import Calisto.Hash.Sha256

/-!
# SHA-256 in registers

The registers of `compress_ni` hold, group by group, the variables of the rounds on words in the order A, B, E, F and
C, D, G, H, and the four words of the schedule that the group uses; so both compressions give the same state.
-/

namespace Calisto

namespace Sha256

open Words Sse

/-! ### The schedule -/

section Fold

variable {step : Vector UInt32 64 → Nat → Vector UInt32 64}
  (hstep : ∀ w i j, j ≠ i → (step w i).getD j 0 = w.getD j 0)

include hstep

/-- A pass that writes one place at a time leaves the places outside of it. -/
theorem getD_foldl_of_notMem (is : List Nat) (w : Vector UInt32 64) {j : Nat} (h : j ∉ is) :
    (is.foldl step w).getD j 0 = w.getD j 0 := by
  induction is generalizing w with
  | nil => rfl
  | cons i is ih =>
    have hj : j ≠ i := fun e => h (e ▸ List.mem_cons_self)
    have his : j ∉ is := fun hm => h (List.mem_cons_of_mem _ hm)
    rw [List.foldl_cons, ih _ his, hstep w i j hj]

/-- What it writes at `j` is made from the pass up to `j`. -/
theorem getD_foldl (a n : Nat) (w : Vector UInt32 64) {j : Nat} (ha : a ≤ j) (hj : j < a + n) :
    ((List.range' a n).foldl step w).getD j 0 = (step ((List.range' a (j - a)).foldl step w) j).getD j 0 := by
  have hsplit : List.range' a n = List.range' a (j - a) ++ j :: List.range' (j + 1) (a + n - (j + 1)) := by
    rw [← List.range'_succ]
    have h := @List.range'_append_1 a (j - a) (a + n - (j + 1) + 1)
    rw [show a + (j - a) = j by omega, show j - a + (a + n - (j + 1) + 1) = n by omega] at h
    exact h.symm
  rw [hsplit, List.foldl_append, List.foldl_cons]
  apply getD_foldl_of_notMem hstep
  simp only [List.mem_range'_1]
  omega

/-- Later writes leave what is before `j`. -/
theorem getD_foldl_prefix (a n m : Nat) (w : Vector UInt32 64) {j : Nat} (hmn : m ≤ n) (hj : j < a + m) :
    ((List.range' a m).foldl step w).getD j 0 = ((List.range' a n).foldl step w).getD j 0 := by
  have h := @List.range'_append_1 a m (n - m)
  rw [show m + (n - m) = n by omega] at h
  rw [← h, List.foldl_append]
  symm
  apply getD_foldl_of_notMem hstep
  simp only [List.mem_range'_1]
  omega

end Fold

private theorem getD_setIfInBounds_ne (w : Vector UInt32 64) (x : UInt32) {i j : Nat} (h : j ≠ i) :
    (w.setIfInBounds i x).getD j 0 = w.getD j 0 := by
  simp only [Vector.getD, Array.getD_eq_getD_getElem?, Vector.toArray_setIfInBounds]
  rw [Array.getElem?_setIfInBounds_ne (Ne.symm h)]

private theorem getD_setIfInBounds_self (w : Vector UInt32 64) (x : UInt32) {i : Nat} (h : i < 64) :
    (w.setIfInBounds i x).getD i 0 = x := by
  simp [Vector.getD, Array.getD_eq_getD_getElem?, h]

private theorem loadWord_ne (block : Bytes) (w : Vector UInt32 64) (i j : Nat) (h : j ≠ i) :
    (loadWord block w i).getD j 0 = w.getD j 0 := getD_setIfInBounds_ne _ _ h

private theorem expandWord_ne (w : Vector UInt32 64) (i j : Nat) (h : j ≠ i) :
    (expandWord w i).getD j 0 = w.getD j 0 := getD_setIfInBounds_ne _ _ h

private theorem expandWord_self (w : Vector UInt32 64) {i : Nat} (h : i < 64) :
    (expandWord w i).getD i 0 =
      w.getD (i - 16) 0 + sigma0 (w.getD (i - 15) 0) + w.getD (i - 7) 0 + sigma1 (w.getD (i - 2) 0) := by
  unfold expandWord
  rw [getD_setIfInBounds_self _ _ h]
  rfl

/-- The word `i` of the finished schedule. -/
def word (block : Bytes) (i : Nat) : UInt32 := (schedule block).getD i 0

theorem word_load (block : Bytes) {i : Nat} (h : i < 16) : word block i = fromBeBytes (block.drop (4 * i)) := by
  unfold word schedule
  have hout : i ∉ List.range' 16 48 := by
    simp only [List.mem_range'_1]
    omega
  rw [getD_foldl_of_notMem expandWord_ne _ _ hout, getD_foldl (loadWord_ne block) 0 16 _ (Nat.zero_le i) (by omega)]
  unfold loadWord
  rw [getD_setIfInBounds_self _ _ (by omega), fromBeBytes_slice _ (Nat.le_refl _), Nat.mul_comm]

theorem word_expand (block : Bytes) {a b c d i : Nat} (ha : a + 16 = i) (hb : b + 15 = i) (hc : c + 7 = i)
    (hd : d + 2 = i) (h64 : i < 64) :
    word block i = word block a + sigma0 (word block b) + word block c + sigma1 (word block d) := by
  -- the words that the step reads are there when the pass reaches it
  have hread : ∀ w : Vector UInt32 64, ∀ j < i, ((List.range' 16 (i - 16)).foldl expandWord w).getD j 0 =
      ((List.range' 16 48).foldl expandWord w).getD j 0 := fun w j hj =>
    getD_foldl_prefix expandWord_ne 16 48 (i - 16) w (by omega) (by omega)
  unfold word schedule
  rw [getD_foldl expandWord_ne 16 48 _ (by omega) (by omega), expandWord_self _ h64, show i - 16 = a by omega,
    show i - 15 = b by omega, show i - 7 = c by omega, show i - 2 = d by omega, ← hread _ a (by omega),
    ← hread _ b (by omega), ← hread _ c (by omega), ← hread _ d (by omega), show i - 16 = a by omega]

/-- The words of the group `j` in a register. -/
def quad (block : Bytes) (j : Nat) : M128 :=
  ⟨word block (4 * j), word block (4 * j + 1), word block (4 * j + 2), word block (4 * j + 3)⟩

/-- The next group of words, from the four groups before it. -/
theorem quad_expand (block : Bytes) {j : Nat} (h : j + 4 < 16) :
    sha256msg2Epu32
      (addEpi32 (sha256msg1Epu32 (quad block j) (quad block (j + 1)))
        (alignrEpi8 (quad block (j + 3)) (quad block (j + 2)) 4))
      (quad block (j + 3)) = quad block (j + 4) := by
  have h0 : word block (4 * (j + 4)) = word block (4 * j) + sigma0 (word block (4 * j + 1)) +
      word block (4 * (j + 2) + 1) + sigma1 (word block (4 * (j + 3) + 2)) :=
    word_expand block (by omega) (by omega) (by omega) (by omega) (by omega)
  have h1 : word block (4 * (j + 4) + 1) = word block (4 * j + 1) + sigma0 (word block (4 * j + 2)) +
      word block (4 * (j + 2) + 2) + sigma1 (word block (4 * (j + 3) + 3)) :=
    word_expand block (by omega) (by omega) (by omega) (by omega) (by omega)
  have h2 : word block (4 * (j + 4) + 2) = word block (4 * j + 2) + sigma0 (word block (4 * j + 3)) +
      word block (4 * (j + 2) + 3) + sigma1 (word block (4 * (j + 4))) :=
    word_expand block (by omega) (by omega) (by omega) (by omega) (by omega)
  have h3 : word block (4 * (j + 4) + 3) = word block (4 * j + 3) + sigma0 (word block (4 * (j + 1))) +
      word block (4 * (j + 3)) + sigma1 (word block (4 * (j + 4) + 1)) :=
    word_expand block (by omega) (by omega) (by omega) (by omega) (by omega)
  rw [alignrEpi8_four]
  simp only [quad, sha256msg1Epu32, sha256msg2Epu32, addEpi32, h3, h2, h1, h0]

/-- The mask turns the bytes of each word around. -/
theorem loadWords_lanes (block : Bytes) (off : Nat) : Ni.loadWords block off =
    ⟨fromBeBytes (block.drop off), fromBeBytes (block.drop (off + 4)), fromBeBytes (block.drop (off + 8)),
      fromBeBytes (block.drop (off + 12))⟩ := by
  have hmask : Ni.mask.bytes = [3, 2, 1, 0, 7, 6, 5, 4, 11, 10, 9, 8, 15, 14, 13, 12] := by decide
  unfold Ni.loadWords shuffleEpi8
  rw [hmask]
  simp only [loaduSi128, M128.bytes, M128.ofBytes, toLeBytes_fromLeBytes, List.drop_drop]
  rfl

private theorem loadWords_eq (block : Bytes) {j : Nat} (h : j < 4) : Ni.loadWords block (16 * j) = quad block j := by
  rw [loadWords_lanes]
  unfold quad
  rw [word_load block (by omega), word_load block (by omega), word_load block (by omega), word_load block (by omega),
    show 4 * (4 * j) = 16 * j by omega, show 4 * (4 * j + 1) = 16 * j + 4 by omega,
    show 4 * (4 * j + 2) = 16 * j + 8 by omega, show 4 * (4 * j + 3) = 16 * j + 12 by omega]

/-! ### The rounds -/

private theorem kGroup_eq : ∀ i < 16, Ni.kGroup i =
    ⟨k.getD (4 * i) 0, k.getD (4 * i + 1) 0, k.getD (4 * i + 2) 0, k.getD (4 * i + 3) 0⟩ := by decide

/-- The variables after `n` rounds. -/
def run (block : Bytes) (v : Working) : Nat → Working
  | 0 => v
  | n + 1 => round (run block v n) (k.getD n 0) (word block n)

def Working.abef (v : Working) : M128 := ⟨v.f, v.e, v.b, v.a⟩

def Working.cdgh (v : Working) : M128 := ⟨v.hh, v.g, v.d, v.c⟩

/-- The variables as `state0` and `state1`. -/
def Working.layout (v : Working) : M128 × M128 := (v.abef, v.cdgh)

/-- After two rounds C, D, G, H are what A, B, E, F were. -/
theorem cdgh_round_round (v : Working) (k0 w0 k1 w1 : UInt32) :
    (round (round v k0 w0) k1 w1).cdgh = v.abef := rfl

/-- One instruction is two rounds. -/
theorem sha256rnds2_eq (v : Working) {kw : M128} {k0 w0 k1 w1 : UInt32} (h0 : kw.x0 = w0 + k0) (h1 : kw.x1 = w1 + k1) :
    sha256rnds2Epu32 v.cdgh v.abef kw = (round (round v k0 w0) k1 w1).abef := by
  have he : ∀ v : Working, ∀ k w : UInt32,
      ch v.e v.f v.g + sum1 v.e + (w + k) + v.hh + v.d = (round v k w).e := by
    intro v k w
    show _ = v.d + (v.hh + sum1 v.e + ch v.e v.f v.g + k + w)
    ac_rfl
  have ha : ∀ v : Working, ∀ k w : UInt32,
      ch v.e v.f v.g + sum1 v.e + (w + k) + v.hh + maj v.a v.b v.c + sum0 v.a = (round v k w).a := by
    intro v k w
    show _ = v.hh + sum1 v.e + ch v.e v.f v.g + k + w + (sum0 v.a + maj v.a v.b v.c)
    ac_rfl
  have he1 := he v k0 w0
  have ha1 := ha v k0 w0
  have he2 := he (round v k0 w0) k1 w1
  have ha2 := ha (round v k0 w0) k1 w1
  simp only [sha256rnds2Epu32, Working.cdgh, Working.abef, h0, h1]
  rw [he1, ha1]
  show M128.mk _ _ _ _ = M128.mk (round v k0 w0).e (round (round v k0 w0) k1 w1).e (round v k0 w0).a
    (round (round v k0 w0) k1 w1).a
  rw [← he2, ← ha2]
  rfl

/-- A group of instructions is four rounds. -/
theorem rounds4_eq (block : Bytes) (v : Working) {i : Nat} (h : i < 16) :
    Ni.rounds4 i (quad block i) (run block v (4 * i)).layout = (run block v (4 * (i + 1))).layout := by
  let u := run block v (4 * i)
  let u2 := round (round u (k.getD (4 * i) 0) (word block (4 * i))) (k.getD (4 * i + 1) 0) (word block (4 * i + 1))
  let u4 :=
    round (round u2 (k.getD (4 * i + 2) 0) (word block (4 * i + 2))) (k.getD (4 * i + 3) 0) (word block (4 * i + 3))
  let msg := addEpi32 (quad block i) (Ni.kGroup i)
  have hmsg : msg = ⟨word block (4 * i) + k.getD (4 * i) 0, word block (4 * i + 1) + k.getD (4 * i + 1) 0,
      word block (4 * i + 2) + k.getD (4 * i + 2) 0, word block (4 * i + 3) + k.getD (4 * i + 3) 0⟩ := by
    simp only [msg, addEpi32, quad, kGroup_eq i h]
  have h01 : sha256rnds2Epu32 u.cdgh u.abef msg = u2.abef := sha256rnds2_eq u (by rw [hmsg]) (by rw [hmsg])
  have h23 : sha256rnds2Epu32 u2.cdgh u2.abef (shuffleEpi32 msg 0x0E) = u4.abef :=
    sha256rnds2_eq u2 (by rw [hmsg]; rfl) (by rw [hmsg]; rfl)
  show (sha256rnds2Epu32 u.abef (sha256rnds2Epu32 u.cdgh u.abef msg) (shuffleEpi32 msg 0x0E),
    sha256rnds2Epu32 u.cdgh u.abef msg) = (u4.abef, u4.cdgh)
  rw [h01, cdgh_round_round, ← h23, cdgh_round_round]

/-! ### A block -/

private theorem pack_eq (h : State) : Ni.pack h = (working h).layout := by
  unfold Ni.pack
  simp only [alignrEpi8_eight, blendEpi16_upper]
  rfl

private theorem unpack_eq (v : Working) : Ni.unpack v.layout = #v[v.a, v.b, v.c, v.d, v.e, v.f, v.g, v.hh] := by
  show Ni.unpack (v.abef, v.cdgh) = _
  unfold Ni.unpack
  simp only [alignrEpi8_eight, blendEpi16_upper]
  rfl

/-- `state0` and `state1` after `i` groups. -/
def states (h : State) (block : Bytes) (i : Nat) : M128 × M128 := (run block (working h) (4 * i)).layout

private theorem pack_states (h : State) (block : Bytes) : Ni.pack h = states h block 0 := pack_eq h

private theorem rounds4_states (h : State) (block : Bytes) {i : Nat} (hi : i < 16) :
    Ni.rounds4 i (quad block i) (states h block i) = states h block (i + 1) := rounds4_eq block (working h) hi

/-- The registers go through the groups of words, and the state through the rounds. -/
theorem compressNi_states (h : State) (block : Bytes) : Ni.compressNi h block =
    Ni.unpack (addEpi32 (states h block 16).1 (states h block 0).1,
      addEpi32 (states h block 16).2 (states h block 0).2) := by
  have l0 : Ni.loadWords block 0 = quad block 0 := loadWords_eq block (j := 0) (by decide)
  have l1 : Ni.loadWords block 16 = quad block 1 := loadWords_eq block (j := 1) (by decide)
  have l2 : Ni.loadWords block 32 = quad block 2 := loadWords_eq block (j := 2) (by decide)
  have l3 : Ni.loadWords block 48 = quad block 3 := loadWords_eq block (j := 3) (by decide)
  unfold Ni.compressNi
  simp (disch := decide) only [pack_states h block, l0, l1, l2, l3, rounds4_states, quad_expand, Nat.reduceAdd]

/-- The loop of four times sixteen rounds is one run. -/
theorem rounds_run (block : Bytes) (v : Working) (n : Nat) :
    (List.range n).foldl (fun v i => round v (k.getD i 0) (word block i)) v = run block v n := by
  induction n with
  | zero => rfl
  | succ n ih => rw [List.range_succ, List.foldl_append, ih]; rfl

private theorem groups_run (block : Bytes) (v : Working) (n : Nat) :
    (List.range n).foldl (fun v group =>
      (List.range 16).foldl (fun v i => round v (k.getD (group * 16 + i) 0) (word block (group * 16 + i))) v) v =
      run block v (n * 16) := by
  induction n with
  | zero => exact (congrArg (run block v) (Nat.zero_mul 16)).symm
  | succ n ih =>
    have hadd : (n + 1) * 16 = n * 16 + 16 := by omega
    rw [@List.range_succ n, List.foldl_append, ih, List.foldl_cons, List.foldl_nil, hadd, ← rounds_run, ← rounds_run,
      List.range_add, List.foldl_append, List.foldl_map]

theorem compress_run (h : State) (block : Bytes) :
    compress h block = feedForward (run block (working h) 64) h := by
  have hrun := groups_run block (working h) 4
  rw [show 4 * 16 = 64 by decide] at hrun
  rw [← hrun]
  rfl

private theorem unpack_feedForward (v : Working) (h : State) :
    Ni.unpack (addEpi32 v.abef (working h).abef, addEpi32 v.cdgh (working h).cdgh) = feedForward v h := by
  have hsum : (addEpi32 v.abef (working h).abef, addEpi32 v.cdgh (working h).cdgh) =
      Working.layout ⟨v.a + h.get 0, v.b + h.get 1, v.c + h.get 2, v.d + h.get 3, v.e + h.get 4, v.f + h.get 5,
        v.g + h.get 6, v.hh + h.get 7⟩ := rfl
  rw [hsum, unpack_eq]
  simp only [feedForward, UInt32.add_comm]

private theorem compressNi_eq_compress (h : State) (block : Bytes) : Ni.compressNi h block = compress h block := by
  rw [compressNi_states, compress_run, ← unpack_feedForward]
  rfl

/-- The accelerated hash is the hash on words: block by block, and so for every message. -/
theorem ni_eq_scalar : (∀ (h : State) (block : Bytes), Ni.compressNi h block = compress h block) ∧
    ∀ input : Bytes, Ni.hash input = hashScalar input := by
  constructor
  · exact compressNi_eq_compress
  · intro input
    have hfun : Ni.compressNi = compress := by
      funext h block
      exact compressNi_eq_compress h block
    show hashWith Ni.compressNi input = hashWith compress input
    rw [hfun]

/-- The digest of `abc`. -/
example : Ni.hash [0x61, 0x62, 0x63] =
    [0xba, 0x78, 0x16, 0xbf, 0x8f, 0x1, 0xcf, 0xea, 0x41, 0x41, 0x40, 0xde, 0x5d, 0xae, 0x22, 0x23,
      0xb0, 0x3, 0x61, 0xa3, 0x96, 0x17, 0x7a, 0x9c, 0xb4, 0x10, 0xff, 0x61, 0xf2, 0x0, 0x15, 0xad] := by decide +kernel

end Sha256

end Calisto

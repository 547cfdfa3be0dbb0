import Calisto.Hash.Sha256Ni
import Calisto.Lib.Fips180

/-!
# SHA-256 and the standard

`hash_scalar` gives the bits that FIPS 180-4 asks for: its rounds are those of the standard, and its tail of one or two
blocks is the end of the padded message.
-/

namespace Calisto

namespace Sha256

open Words Fips180

variable {block input : Bytes}

/-! ### Words -/

/-- The variables of the rounds as words of the standard. -/
def Working.vars (v : Working) : Vars :=
  ⟨v.a.toBitVec, v.b.toBitVec, v.c.toBitVec, v.d.toBitVec, v.e.toBitVec, v.f.toBitVec, v.g.toBitVec, v.hh.toBitVec⟩

/-- The state as a hash value of the standard. -/
def vars (h : State) : Vars := (working h).vars

private theorem toBitVec_rotateRight (x : UInt32) {n : UInt32} (hpos : 0 < n.toNat) (hlt : n.toNat < 32) :
    (rotateRight x n).toBitVec = x.toBitVec.rotateRight n.toNat := by
  have hleft : (32 - n).toNat = 32 - n.toNat := by
    rw [UInt32.toNat_sub_of_le _ _ (by rw [UInt32.le_iff_toNat_le]; exact hlt.le)]
    rfl
  have hmod : ∀ m : UInt32, (m.toBitVec % 32).toNat = m.toNat % 32 := fun m => rfl
  unfold rotateRight
  rw [BitVec.rotateRight_def, Nat.mod_eq_of_lt hlt, UInt32.toBitVec_or, UInt32.toBitVec_shiftRight,
    UInt32.toBitVec_shiftLeft, BitVec.ushiftRight_eq', BitVec.shiftLeft_eq', hmod, hmod, hleft, Nat.mod_eq_of_lt hlt,
    Nat.mod_eq_of_lt (show 32 - n.toNat < 32 by omega)]

private theorem toBitVec_fromBeBytes {bytes : Bytes} (h : 4 ≤ bytes.length) :
    (fromBeBytes bytes).toBitVec = BitVec.ofNat 32 (numOf (ofBytes (bytes.take 4))) := by
  match bytes, h with
  | b0 :: b1 :: b2 :: b3 :: rest, _ =>
    have hnum : numOf (ofBytes [b0, b1, b2, b3]) =
        b3.toNat + 256 * (b2.toNat + 256 * (b1.toNat + 256 * b0.toNat)) := by
      have hnil : numOf (ofBytes []) = 0 := rfl
      simp only [numOf_ofBytes_cons, List.length_cons, List.length_nil, hnil]
      omega
    rw [List.take_succ_cons, List.take_succ_cons, List.take_succ_cons, List.take_succ_cons, List.take_zero, hnum]
    rfl

/-- The word `t` of a block of bytes. -/
theorem wordOf_ofBytes (block : Bytes) {t : Nat} (h : 4 * t + 4 ≤ block.length) :
    wordOf (ofBytes block) t = (fromBeBytes (block.drop (4 * t))).toBitVec := by
  have hbits : 32 * t = 8 * (4 * t) := by omega
  rw [toBitVec_fromBeBytes (by rw [List.length_drop]; omega), wordOf, hbits, drop_ofBytes]
  exact congrArg (fun bits => BitVec.ofNat 32 (numOf bits)) (take_ofBytes 4 _)

/-! ### The compression -/

private theorem toBitVec_sigma0 (x : UInt32) : (Sse.sigma0 x).toBitVec = smallSigma0 x.toBitVec := by
  simp (disch := decide) only [Sse.sigma0, smallSigma0, UInt32.toBitVec_xor, toBitVec_rotateRight]
  rfl

private theorem toBitVec_sigma1 (x : UInt32) : (Sse.sigma1 x).toBitVec = smallSigma1 x.toBitVec := by
  simp (disch := decide) only [Sse.sigma1, smallSigma1, UInt32.toBitVec_xor, toBitVec_rotateRight]
  rfl

/-- The schedule is the one of the standard. -/
theorem toBitVec_word (hlen : block.length = 64) (t : Nat) (ht : t < 64) :
    (word block t).toBitVec = W (wordOf (ofBytes block)) t := by
  induction t using Nat.strongRecOn with
  | ind t ih =>
    rw [W]
    by_cases hfirst : t < 16
    · rw [if_pos hfirst, word_load block hfirst, wordOf_ofBytes block (by omega)]
    · rw [if_neg hfirst, ← ih (t - 2) (by omega) (by omega), ← ih (t - 7) (by omega) (by omega),
        ← ih (t - 15) (by omega) (by omega), ← ih (t - 16) (by omega) (by omega),
        word_expand block (a := t - 16) (b := t - 15) (c := t - 7) (d := t - 2) (by omega) (by omega) (by omega)
          (by omega) ht]
      have hsum : ∀ a b c d : Word, a + b + c + d = d + c + b + a := by
        intro a b c d
        ac_rfl
      rw [UInt32.toBitVec_add, UInt32.toBitVec_add, UInt32.toBitVec_add, toBitVec_sigma0, toBitVec_sigma1, hsum]

/-- No prime below 18 but `n` itself divides `n`. -/
def trial (n : Nat) : Bool := 2 ≤ n && [2, 3, 5, 7, 11, 13, 17].all fun q => n % q ≠ 0 || q = n

private theorem prime_iff_trial {n : Nat} (hn : n < 324) : n.Prime ↔ trial n = true := by
  simp only [trial, Bool.and_eq_true, List.all_eq_true, Bool.or_eq_true, decide_eq_true_eq]
  constructor
  · intro h
    refine ⟨h.two_le, fun q hq => ?_⟩
    have hone : q ≠ 1 := by
      rintro rfl
      simp at hq
    by_cases hmod : n % q = 0
    · exact .inr (((Nat.dvd_prime h).1 (Nat.dvd_of_mod_eq_zero hmod)).resolve_left hone)
    · exact .inl hmod
  · rintro ⟨htwo, hdvd⟩
    by_contra hnot
    have hprime : n.minFac.Prime := Nat.minFac_prime (by omega)
    have hsq : n.minFac ^ 2 ≤ n := Nat.minFac_sq_le_self (by omega) hnot
    have hlt : n.minFac < 18 := by
      by_contra hge
      have := Nat.pow_le_pow_left (Nat.le_of_not_lt hge) 2
      omega
    have hmem : ∀ q < 18, q.Prime → q ∈ [2, 3, 5, 7, 11, 13, 17] := by decide
    have hmod : n % n.minFac = 0 := Nat.mod_eq_zero_of_dvd n.minFac_dvd
    have heq := (hdvd n.minFac (hmem n.minFac hlt hprime)).resolve_left (not_not_intro hmod)
    rw [heq] at hprime
    exact hnot hprime

private theorem primes_eq : primes = (List.range 312).filter trial := by
  refine List.filter_congr fun n hn => ?_
  have hlt : n < 312 := List.mem_range.1 hn
  rw [Bool.eq_iff_iff, decide_eq_true_eq, prime_iff_trial (by omega)]

private theorem k_eq_primes : k.toList.map UInt32.toBitVec = primes.map (rootFraction 3) := by
  -- the test of Mathlib for primes is slow to evaluate
  rw [primes_eq]
  decide +kernel

private theorem getD_toList {n : Nat} (v : Vector UInt32 n) (i : Nat) : v.toList.getD i 0 = v.getD i 0 := by
  rw [Vector.getD, Array.getD_eq_getD_getElem?, List.getD_eq_getElem?_getD, Vector.getElem?_toArray,
    Vector.getElem?_toList]

private theorem toBitVec_k (t : Nat) : (k.getD t 0).toBitVec = K t := by
  have hzero : rootFraction 3 0 = UInt32.toBitVec 0 := by decide +kernel
  calc (k.getD t 0).toBitVec
      = (k.toList.map UInt32.toBitVec).getD t (UInt32.toBitVec 0) := by rw [List.getD_map, getD_toList]
    _ = (primes.map (rootFraction 3)).getD t (rootFraction 3 0) := by rw [k_eq_primes, hzero]
    _ = K t := List.getD_map ..

private theorem vars_iv : vars iv = H0 := by decide +kernel

private theorem vars_round (v : Working) (k w : UInt32) : (round v k w).vars = step k.toBitVec w.toBitVec v.vars := by
  simp (disch := decide) only [round, step, Working.vars, bigSigma0, bigSigma1, Ch, Maj, UInt32.toBitVec_add,
    UInt32.toBitVec_xor, UInt32.toBitVec_and, UInt32.toBitVec_not, toBitVec_rotateRight]
  rfl

private theorem vars_run (hlen : block.length = 64) (v : Working) {n : Nat} (hn : n ≤ 64) :
    (run block v n).vars = rounds (wordOf (ofBytes block)) v.vars n := by
  induction n with
  | zero => rfl
  | succ n ih => rw [run, vars_round, ih (by omega), rounds, toBitVec_k, toBitVec_word hlen n hn]

private theorem vars_compress (hlen : block.length = 64) (h : State) :
    vars (compress h block) = Fips180.compress (vars h) (ofBytes block) := by
  have hsum : ∀ v : Working, vars (feedForward v h) = ⟨v.vars.a + (vars h).a, v.vars.b + (vars h).b,
      v.vars.c + (vars h).c, v.vars.d + (vars h).d, v.vars.e + (vars h).e, v.vars.f + (vars h).f,
      v.vars.g + (vars h).g, v.vars.h + (vars h).h⟩ := by
    intro v
    have hcomm : ∀ x y : UInt32, (x + y).toBitVec = y.toBitVec + x.toBitVec := fun x y => BitVec.add_comm ..
    show Vars.mk (h.get 0 + v.a).toBitVec (h.get 1 + v.b).toBitVec (h.get 2 + v.c).toBitVec (h.get 3 + v.d).toBitVec
      (h.get 4 + v.e).toBitVec (h.get 5 + v.f).toBitVec (h.get 6 + v.g).toBitVec (h.get 7 + v.hh).toBitVec = _
    simp only [hcomm]
    rfl
  have hrun := vars_run hlen (working h) (Nat.le_refl 64)
  rw [compress_run, hsum, hrun]
  rfl

/-! ### The message -/

/-- How many zero bytes stand between `0x80` and the length. -/
def zeroBytes (n : Nat) : Nat := (119 - n % 64) % 64

/-- What follows the message. -/
def ending (input : Bytes) : Bytes :=
  (0x80 : UInt8) :: List.replicate (zeroBytes input.length) 0 ++ toBeBytes64 (UInt64.ofNat input.length <<< 3)

private theorem ofBytes_toBeBytes (x : UInt32) : ofBytes (toBeBytes x) = bitsOf 32 x.toNat := by
  have h24 := bitsOf_add 8 24 x.toNat
  have h16 := bitsOf_add 8 16 x.toNat
  have h8 := bitsOf_add 8 8 x.toNat
  have hnil : ofBytes [] = [] := rfl
  simp only [Nat.reduceAdd, Nat.reducePow] at h24 h16 h8
  rw [h24, h16, h8]
  show ofBytes [UInt8.ofNat (x.toNat / 16777216), UInt8.ofNat (x.toNat / 65536), UInt8.ofNat (x.toNat / 256),
    UInt8.ofNat x.toNat] = _
  simp only [ofBytes_cons, bitsOf_ofNat, hnil, List.append_nil]

private theorem ofBytes_toBeBytes64 (x : UInt64) : ofBytes (toBeBytes64 x) = bitsOf 64 x.toNat := by
  have hhigh : (x >>> 32).toUInt32.toNat = x.toNat / 2 ^ 32 % 2 ^ 32 := by
    rw [UInt64.toNat_toUInt32, UInt64.toNat_shiftRight, Nat.shiftRight_eq_div_pow]
    rfl
  have hlow : x.toUInt32.toNat = x.toNat % 2 ^ 32 := UInt64.toNat_toUInt32 x
  rw [toBeBytes64, ofBytes_append, ofBytes_toBeBytes, ofBytes_toBeBytes, hhigh, hlow, bitsOf_mod (Nat.le_refl 32),
    bitsOf_mod (Nat.le_refl 32)]
  exact (bitsOf_add 32 32 x.toNat).symm

private theorem ofBytes_padded (input : Bytes) : ofBytes (input ++ ending input) = pad (ofBytes input) := by
  have hbits : (UInt64.ofNat input.length <<< 3).toNat = 8 * input.length % 2 ^ 64 := by
    rw [UInt64.toNat_shiftLeft, UInt64.toNat_ofNat', Nat.shiftLeft_eq]
    show input.length % 2 ^ 64 * 2 ^ 3 % 2 ^ 64 = _
    omega
  have hfills : Fills (8 * input.length) (7 + 8 * zeroBytes input.length) := by
    unfold Fills zeroBytes
    omega
  have hfind := find_fills hfills (by unfold zeroBytes; omega)
  have hone : ofBytes [0x80] = true :: List.replicate 7 false := by decide
  have hlength : bitsOf 64 (8 * input.length % 2 ^ 64) = bitsOf 64 (8 * input.length) := bitsOf_mod (Nat.le_refl 64) _
  rw [pad]
  simp only [length_ofBytes, hfind]
  rw [ending, List.cons_append, ofBytes_append, ← List.singleton_append, ofBytes_append, ofBytes_append, hone,
    ofBytes_zeros, ofBytes_toBeBytes64, hbits, hlength, ← List.replicate_append_replicate]
  simp

/-- The blocks of the standard are those of the bytes. -/
theorem blocks_ofBytes (bytes : Bytes) : blocks (ofBytes bytes) = (chunksExact 64 bytes).map ofBytes := by
  have hcount : 8 * bytes.length / 512 = bytes.length / 64 := by omega
  rw [blocks, chunksExact, List.map_map, length_ofBytes, hcount]
  refine List.map_congr_left fun i _ => ?_
  have hbits : 512 * i = 8 * (i * 64) := by omega
  have hwidth : (i + 1) * 64 - i * 64 = 64 := by omega
  rw [hbits, drop_ofBytes]
  exact (take_ofBytes 64 _).trans (by rw [Function.comp_apply, slice, hwidth])

theorem length_of_mem_chunksExact {bytes chunk : Bytes} (h : chunk ∈ chunksExact 64 bytes) : chunk.length = 64 := by
  obtain ⟨i, hi, rfl⟩ := List.mem_map.1 h
  rw [List.mem_range] at hi
  rw [length_slice]
  omega

private theorem vars_foldl (chunks : List Bytes) (hlen : ∀ chunk ∈ chunks, chunk.length = 64) (h : State) :
    vars (chunks.foldl compress h) = (chunks.map ofBytes).foldl Fips180.compress (vars h) := by
  induction chunks generalizing h with
  | nil => rfl
  | cons chunk chunks ih =>
    rw [List.foldl_cons, ih fun c hc => hlen c (List.mem_cons_of_mem chunk hc),
      vars_compress (hlen chunk (List.mem_cons_self ..)), List.map_cons, List.foldl_cons]

/-- The buffer with a part at the front that is filled. -/
theorem copyAt_zeros (done more : Bytes) (n : Nat) :
    copyAt (done ++ List.replicate n 0) done.length more = done ++ more ++ List.replicate (n - more.length) 0 := by
  rw [copyAt, List.take_left' rfl, ← List.drop_drop, List.drop_left' rfl, List.drop_replicate]

private theorem copyAt_skip (done more : Bytes) {n p : Nat} (hp : done.length ≤ p) (h : p - done.length ≤ n) :
    copyAt (done ++ List.replicate n 0) p more =
      done ++ List.replicate (p - done.length) 0 ++ more ++ List.replicate (n - (p - done.length) - more.length) 0 := by
  have hn : n = (p - done.length) + (n - (p - done.length)) := by omega
  have hlen : (done ++ List.replicate (p - done.length) (0 : UInt8)).length = p := by
    rw [List.length_append, List.length_replicate]
    omega
  have hsplit : done ++ List.replicate n (0 : UInt8) =
      (done ++ List.replicate (p - done.length) 0) ++ List.replicate (n - (p - done.length)) 0 := by
    rw [List.append_assoc, List.replicate_append_replicate, ← hn]
  have hcopy := copyAt_zeros (done ++ List.replicate (p - done.length) 0) more (n - (p - done.length))
  rwa [hlen, ← hsplit] at hcopy

private theorem length_toBeBytes64 (x : UInt64) : (toBeBytes64 x).length = 8 := rfl

/-- The tail of one or two blocks is what is left of the message and its ending. -/
theorem tail_eq (input : Bytes) {rem : Bytes} (hrem : rem.length = input.length % 64) {padEnd : Nat}
    (hpad : padEnd = if rem.length ≥ 56 then 120 else 56) :
    copyAt (copyAt (copyAt (List.replicate 128 0) 0 rem) rem.length [0x80]) padEnd
        (toBeBytes64 (UInt64.ofNat input.length <<< 3)) =
      rem ++ ending input ++ List.replicate (120 - padEnd) 0 := by
  have hlt : rem.length < 64 := by omega
  have hfirst : copyAt (List.replicate 128 0) 0 rem = rem ++ List.replicate (128 - rem.length) 0 :=
    copyAt_zeros [] rem 128
  have hzeros : padEnd - (rem.length + 1) = zeroBytes input.length := by
    unfold zeroBytes
    split at hpad <;> omega
  have hle : rem.length + 1 ≤ padEnd ∧ padEnd ≤ 120 := by
    split at hpad <;> omega
  have hmark : (rem ++ [(0x80 : UInt8)]).length = rem.length + 1 := by simp
  rw [hfirst, copyAt_zeros rem [0x80], copyAt_skip _ _ (by omega) (by rw [hmark, List.length_singleton]; omega), hmark,
    hzeros, length_toBeBytes64, List.length_singleton, ending]
  have hrest : 128 - rem.length - 1 - zeroBytes input.length - 8 = 120 - padEnd := by omega
  rw [hrest]
  simp

theorem chunksExact_one {bytes : Bytes} (h : bytes.length = 64) : chunksExact 64 bytes = [slice bytes 0 64] := by
  rw [chunksExact, h]
  rfl

private theorem chunksExact_two {bytes : Bytes} (h : bytes.length = 128) :
    chunksExact 64 bytes = [slice bytes 0 64, slice bytes 64 128] := by
  rw [chunksExact, h]
  rfl

/-- The blocks and the tail are the blocks of the padded message. -/
theorem hashScalar_foldl (input : Bytes) :
    hashScalar input = ((chunksExact 64 (input ++ ending input)).foldl compress iv).toList.flatMap toBeBytes := by
  have hrem : (input.drop (input.length / 64 * 64)).length = input.length % 64 := by
    rw [List.length_drop]
    omega
  have htail := tail_eq input hrem rfl
  rw [chunksExact_append (by decide), List.foldl_append]
  unfold hashScalar hashWith
  dsimp only
  rw [htail]
  generalize input.drop (input.length / 64 * 64) = rem at *
  have hlen : (rem ++ ending input).length = rem.length + 9 + zeroBytes input.length := by
    rw [ending, List.length_append, List.length_append, List.length_cons, List.length_replicate, length_toBeBytes64]
    omega
  unfold zeroBytes at hlen
  by_cases htwo : rem.length ≥ 56
  · have hboth : (rem ++ ending input).length = 128 := by omega
    rw [chunksExact_two hboth]
    simp only [htwo, if_true, Nat.sub_self, List.replicate_zero, List.append_nil]
    rfl
  · have hone : (rem ++ ending input).length = 64 := by omega
    have hslice : slice (rem ++ ending input ++ List.replicate 64 0) 0 64 = slice (rem ++ ending input) 0 64 :=
      List.take_append_of_le_length hone.ge
    rw [chunksExact_one hone]
    simp only [htwo, if_false, Nat.reduceSub, hslice]
    rfl

private theorem toList_eq (h : State) :
    h.toList = [h.get 0, h.get 1, h.get 2, h.get 3, h.get 4, h.get 5, h.get 6, h.get 7] := by
  match h with
  | ⟨⟨[_, _, _, _, _, _, _, _]⟩, _⟩ => rfl

private theorem ofBytes_state (h : State) : ofBytes (h.toList.flatMap toBeBytes) = (vars h).bits := by
  rw [toList_eq]
  simp only [List.flatMap_cons, List.flatMap_nil, ofBytes_append, ofBytes_toBeBytes]
  rfl

/-- The digest is the one of the standard. -/
theorem hashScalar_eq_sha256 (input : Bytes) : ofBytes (hashScalar input) = sha256 (ofBytes input) := by
  have hlen : ∀ chunk ∈ chunksExact 64 (input ++ ending input), chunk.length = 64 :=
    fun _ h => length_of_mem_chunksExact h
  rw [hashScalar_foldl, ofBytes_state, vars_foldl _ hlen, vars_iv, ← blocks_ofBytes, ofBytes_padded]
  rfl

end Sha256

end Calisto

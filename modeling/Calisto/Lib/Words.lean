import Mathlib.Data.List.Range

/-!
# Words and blocks of bytes

32-bit words and their bytes, and slices of byte strings, as hash functions use them.
-/

namespace Words

/-- Rotation by less than 32. -/
def rotateRight (x n : UInt32) : UInt32 := (x >>> n) ||| (x <<< (32 - n))

/-- Rotation by less than 64. -/
def rotateLeft64 (x n : UInt64) : UInt64 := (x <<< n) ||| (x >>> (64 - n))

/-- The first four bytes as a word, the lowest first; bytes that are missing are zero. -/
def fromLeBytes (b : List UInt8) : UInt32 :=
  UInt32.ofNat ((b.getD 0 0).toNat + 256 * ((b.getD 1 0).toNat + 256 * ((b.getD 2 0).toNat + 256 * (b.getD 3 0).toNat)))

/-- The first eight bytes as a 64-bit word, the lowest first. -/
def fromLeBytes64 (b : List UInt8) : UInt64 :=
  UInt64.ofNat ((fromLeBytes b).toNat + 4294967296 * (fromLeBytes (b.drop 4)).toNat)

/-- The bytes of a word, the lowest first. -/
def toLeBytes (x : UInt32) : List UInt8 :=
  [UInt8.ofNat x.toNat, UInt8.ofNat (x.toNat / 256), UInt8.ofNat (x.toNat / 65536), UInt8.ofNat (x.toNat / 16777216)]

/-- The first four bytes as a word, the highest first. -/
def fromBeBytes (b : List UInt8) : UInt32 := fromLeBytes [b.getD 3 0, b.getD 2 0, b.getD 1 0, b.getD 0 0]

/-- The bytes of a word, the highest first. -/
def toBeBytes (x : UInt32) : List UInt8 := (toLeBytes x).reverse

/-- The bytes of a 64-bit word, the highest first. -/
def toBeBytes64 (x : UInt64) : List UInt8 := toBeBytes (x >>> 32).toUInt32 ++ toBeBytes x.toUInt32

/-- The part of a string from `a` to `b`. -/
def slice (xs : List UInt8) (a b : Nat) : List UInt8 := (xs.drop a).take (b - a)

/-- The parts of the length `n`, what is shorter at the end left out. -/
def chunksExact (n : Nat) (xs : List UInt8) : List (List UInt8) :=
  (List.range (xs.length / n)).map fun i => slice xs (i * n) ((i + 1) * n)

/-- Zeros up to the length `n`. -/
def zeroPad (n : Nat) (xs : List UInt8) : List UInt8 := xs ++ List.replicate (n - xs.length) 0

/-- A word is made of the first four bytes. -/
theorem fromLeBytes_congr {b b' : List UInt8} (h : ∀ k < 4, b.getD k 0 = b'.getD k 0) :
    fromLeBytes b = fromLeBytes b' := by
  unfold fromLeBytes
  rw [h 0 (by decide), h 1 (by decide), h 2 (by decide), h 3 (by decide)]

theorem fromLeBytes_toLeBytes_append (x : UInt32) (rest : List UInt8) : fromLeBytes (toLeBytes x ++ rest) = x := by
  apply UInt32.toNat_inj.1
  have hlt := x.toNat_lt
  simp only [fromLeBytes, toLeBytes, List.cons_append, List.getD_cons_zero, List.getD_cons_succ, UInt8.toNat_ofNat',
    UInt32.toNat_ofNat']
  omega

/-- The bytes of the word that four bytes make. -/
theorem toLeBytes_fromLeBytes (b : List UInt8) :
    toLeBytes (fromLeBytes b) = [b.getD 0 0, b.getD 1 0, b.getD 2 0, b.getD 3 0] := by
  have h0 := (b.getD 0 0).toNat_lt
  have h1 := (b.getD 1 0).toNat_lt
  have h2 := (b.getD 2 0).toNat_lt
  have h3 := (b.getD 3 0).toNat_lt
  unfold toLeBytes fromLeBytes
  simp only [UInt32.toNat_ofNat', List.cons.injEq, ← UInt8.toNat_inj, UInt8.toNat_ofNat', and_true]
  omega

theorem getD_zeroPad (n : Nat) (xs : List UInt8) (k : Nat) : (zeroPad n xs).getD k 0 = xs.getD k 0 := by
  unfold zeroPad
  simp only [List.getD_eq_getElem?_getD]
  by_cases h : k < xs.length
  · rw [List.getElem?_append_left h]
  · have hnone : xs[k]? = none := List.getElem?_eq_none (by omega)
    rw [List.getElem?_append_right (by omega), hnone, List.getElem?_replicate]
    split <;> rfl

theorem getD_drop (xs : List UInt8) (a k : Nat) : (xs.drop a).getD k 0 = xs.getD (a + k) 0 := by
  simp [List.getD_eq_getElem?_getD]

theorem getD_slice {xs : List UInt8} {a b k : Nat} (h : k < b - a) : (slice xs a b).getD k 0 = xs.getD (a + k) 0 := by
  unfold slice
  simp [List.getD_eq_getElem?_getD, h]

/-- A word of a slice is made of the bytes from its place on. -/
theorem fromLeBytes_slice (xs : List UInt8) {a b : Nat} (h : a + 4 ≤ b) :
    fromLeBytes (slice xs a b) = fromLeBytes (xs.drop a) :=
  fromLeBytes_congr fun k hk => by rw [getD_slice (by omega), getD_drop]

theorem fromBeBytes_slice (xs : List UInt8) {a b : Nat} (h : a + 4 ≤ b) :
    fromBeBytes (slice xs a b) = fromBeBytes (xs.drop a) := by
  unfold fromBeBytes
  rw [getD_slice (by omega), getD_slice (by omega), getD_slice (by omega), getD_slice (by omega)]
  simp only [getD_drop]

theorem length_slice (xs : List UInt8) (a b : Nat) : (slice xs a b).length = min (b - a) (xs.length - a) := by
  rw [slice, List.length_take, List.length_drop]

/-- The whole parts of a string stand before those of what is left of it and what follows. -/
theorem chunksExact_append {n : Nat} (hn : 0 < n) (xs ys : List UInt8) :
    chunksExact n (xs ++ ys) = chunksExact n xs ++ chunksExact n (xs.drop (xs.length / n * n) ++ ys) := by
  have hdiv := Nat.div_add_mod' xs.length n
  have hlen : (xs ++ ys).length = (xs.drop (xs.length / n * n) ++ ys).length + xs.length / n * n := by
    rw [List.length_append, List.length_append, List.length_drop]
    omega
  have hcount : (xs ++ ys).length / n = xs.length / n + (xs.drop (xs.length / n * n) ++ ys).length / n := by
    rw [hlen, Nat.add_mul_div_right _ _ hn, Nat.add_comm]
  unfold chunksExact
  rw [hcount, List.range_add, List.map_append, List.map_map]
  congr 1
  · refine List.map_congr_left fun i hi => ?_
    have hend : (i + 1) * n ≤ xs.length := by
      have hmul : (i + 1) * n ≤ xs.length / n * n := Nat.mul_le_mul_right n (List.mem_range.1 hi)
      omega
    rw [Nat.add_mul, Nat.one_mul] at hend
    unfold slice
    rw [Nat.add_mul, Nat.one_mul, Nat.add_sub_cancel_left, List.drop_append_of_le_length (by omega),
      List.take_append_of_le_length (by rw [List.length_drop]; omega)]
  · refine List.map_congr_left fun i _ => ?_
    have hle : xs.length / n * n ≤ xs.length := by omega
    show slice (xs ++ ys) ((xs.length / n + i) * n) ((xs.length / n + i + 1) * n) = _
    unfold slice
    rw [← List.drop_append_of_le_length hle, List.drop_drop, ← Nat.add_mul, Nat.add_assoc, Nat.add_mul _ (i + 1),
      Nat.add_mul _ i, Nat.add_sub_add_left]

theorem chunksExact_of_lt {n : Nat} {xs : List UInt8} (h : xs.length < n) : chunksExact n xs = [] := by
  rw [chunksExact, Nat.div_eq_of_lt h]
  rfl

theorem chunksExact_cons {n : Nat} (hn : 0 < n) {xs : List UInt8} (h : n ≤ xs.length) :
    chunksExact n xs = xs.take n :: chunksExact n (xs.drop n) := by
  have hlen : (xs.take n).length = n := by
    rw [List.length_take]
    omega
  have hsplit := chunksExact_append hn (xs.take n) (xs.drop n)
  have hone : chunksExact n (xs.take n) = [xs.take n] := by
    rw [chunksExact, hlen, Nat.div_self hn]
    show [slice (xs.take n) (0 * n) ((0 + 1) * n)] = _
    rw [Nat.zero_mul, Nat.zero_add, Nat.one_mul, slice, List.drop_zero, Nat.sub_zero, List.take_take, Nat.min_self]
  rw [List.take_append_drop, hone, hlen, Nat.div_self hn, Nat.one_mul, List.drop_of_length_le hlen.le,
    List.nil_append] at hsplit
  exact hsplit

/-- The first eight bytes make a word, whatever is cut off behind them. -/
theorem fromLeBytes64_drop_take {n a : Nat} (h : a + 8 ≤ n) (xs : List UInt8) :
    fromLeBytes64 ((xs.take n).drop a) = fromLeBytes64 (xs.drop a) := by
  have hget : ∀ k < n, (xs.take n).getD k 0 = xs.getD k 0 := fun k hk => by
    simp [List.getD_eq_getElem?_getD, List.getElem?_take_of_lt hk]
  have hlow : fromLeBytes ((xs.take n).drop a) = fromLeBytes (xs.drop a) :=
    fromLeBytes_congr fun k hk => by rw [getD_drop, getD_drop, hget _ (by omega)]
  have hhigh : fromLeBytes (((xs.take n).drop a).drop 4) = fromLeBytes ((xs.drop a).drop 4) :=
    fromLeBytes_congr fun k hk => by rw [getD_drop, getD_drop, getD_drop, getD_drop, hget _ (by omega)]
  rw [fromLeBytes64, fromLeBytes64, hlow, hhigh]

end Words

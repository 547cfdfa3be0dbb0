import Mathlib.Data.Nat.Bitwise
import Mathlib.Data.Nat.Find
import Mathlib.Data.Nat.NthRoot.Defs
import Mathlib.Data.Nat.Prime.Basic

/-!
# SHA-256 in FIPS 180-4

The hash as the standard has it, on strings of bits: constants from the roots of primes (4.2.2, 5.3.3), padding
(5.1.1), parsing (5.2.1) and the computation of the hash (6.2).
-/

namespace Fips180

/-! ### Strings of bits -/

/-- A number in `n` bits, the highest first. -/
def bitsOf : Nat → Nat → List Bool
  | 0, _ => []
  | n + 1, v => v.testBit n :: bitsOf n v

/-- The number that bits make, the highest first. -/
def numOf : List Bool → Nat
  | [] => 0
  | b :: bits => b.toNat * 2 ^ bits.length + numOf bits

/-- Bytes as bits. -/
def ofBytes (bytes : List UInt8) : List Bool := bytes.flatMap fun b => bitsOf 8 b.toNat

theorem length_bitsOf (n v : Nat) : (bitsOf n v).length = n := by
  induction n with
  | zero => rfl
  | succ n ih => rw [bitsOf, List.length_cons, ih]

theorem bitsOf_add (m n v : Nat) : bitsOf (m + n) v = bitsOf m (v / 2 ^ n) ++ bitsOf n v := by
  induction m with
  | zero => rw [Nat.zero_add, bitsOf, List.nil_append]
  | succ m ih => rw [Nat.add_right_comm, bitsOf, ih, bitsOf, List.cons_append, Nat.testBit_div_two_pow]

theorem bitsOf_zero (n : Nat) : bitsOf n 0 = List.replicate n false := by
  induction n with
  | zero => rfl
  | succ n ih => rw [bitsOf, ih, Nat.zero_testBit, List.replicate_succ]

/-- Only the lower `m` bits count, for `n` bits with `n ≤ m`. -/
theorem bitsOf_mod {m n : Nat} (h : n ≤ m) (v : Nat) : bitsOf n (v % 2 ^ m) = bitsOf n v := by
  induction n with
  | zero => rfl
  | succ n ih =>
    rw [bitsOf, bitsOf, ih (by omega), Nat.testBit_mod_two_pow, decide_eq_true (show n < m by omega), Bool.true_and]

theorem numOf_append (as bs : List Bool) : numOf (as ++ bs) = numOf as * 2 ^ bs.length + numOf bs := by
  induction as with
  | nil => rw [List.nil_append, numOf, Nat.zero_mul, Nat.zero_add]
  | cons a as ih =>
    rw [List.cons_append, numOf, numOf, ih, List.length_append, Nat.pow_add, Nat.add_mul, Nat.mul_assoc, Nat.add_assoc]

theorem numOf_bitsOf (n v : Nat) : numOf (bitsOf n v) = v % 2 ^ n := by
  induction n with
  | zero => rw [bitsOf, numOf, Nat.pow_zero, Nat.mod_one]
  | succ n ih => rw [bitsOf, numOf, ih, length_bitsOf, Nat.toNat_testBit, Nat.mod_pow_succ, Nat.mul_comm, Nat.add_comm]

theorem ofBytes_append (as bs : List UInt8) : ofBytes (as ++ bs) = ofBytes as ++ ofBytes bs := List.flatMap_append

theorem length_ofBytes (bytes : List UInt8) : (ofBytes bytes).length = 8 * bytes.length := by
  induction bytes with
  | nil => rfl
  | cons b bytes ih =>
    rw [ofBytes, List.flatMap_cons, List.length_append, length_bitsOf, List.length_cons]
    rw [ofBytes] at ih
    omega

theorem ofBytes_cons (b : UInt8) (bytes : List UInt8) : ofBytes (b :: bytes) = bitsOf 8 b.toNat ++ ofBytes bytes := rfl

theorem drop_ofBytes (n : Nat) (bytes : List UInt8) : (ofBytes bytes).drop (8 * n) = ofBytes (bytes.drop n) := by
  induction n generalizing bytes with
  | zero => rfl
  | succ n ih =>
    cases bytes with
    | nil => exact List.drop_nil
    | cons b bytes =>
      rw [ofBytes_cons, Nat.mul_succ, Nat.add_comm, ← List.drop_drop, List.drop_left' (length_bitsOf 8 _), ih]
      rfl

theorem take_ofBytes (n : Nat) (bytes : List UInt8) : (ofBytes bytes).take (8 * n) = ofBytes (bytes.take n) := by
  induction n generalizing bytes with
  | zero => rfl
  | succ n ih =>
    cases bytes with
    | nil => exact List.take_nil
    | cons b bytes =>
      have hlen := length_bitsOf 8 b.toNat
      have hmul : 8 * (n + 1) = (bitsOf 8 b.toNat).length + 8 * n := by omega
      rw [ofBytes_cons, hmul, List.take_length_add_append, ih]
      rfl

theorem ofBytes_zeros (n : Nat) : ofBytes (List.replicate n 0) = List.replicate (8 * n) false := by
  induction n with
  | zero => rfl
  | succ n ih =>
    have hmul : 8 * (n + 1) = 8 + 8 * n := by omega
    rw [List.replicate_succ, ofBytes_cons, ih, UInt8.toNat_zero, bitsOf_zero, hmul, List.replicate_append_replicate]

theorem bitsOf_ofNat (v : Nat) : bitsOf 8 (UInt8.ofNat v).toNat = bitsOf 8 v := by
  rw [UInt8.toNat_ofNat', bitsOf_mod (Nat.le_refl 8)]

theorem numOf_ofBytes_cons (b : UInt8) (bytes : List UInt8) :
    numOf (ofBytes (b :: bytes)) = b.toNat * 256 ^ bytes.length + numOf (ofBytes bytes) := by
  have hpow : 2 ^ (8 * bytes.length) = 256 ^ bytes.length := Nat.pow_mul 2 8 bytes.length
  rw [ofBytes_cons, numOf_append, numOf_bitsOf, Nat.mod_eq_of_lt b.toNat_lt, length_ofBytes, hpow]

/-! ### Constants and functions -/

abbrev Word := BitVec 32

/-- The first 64 primes. -/
def primes : List Nat := (List.range 312).filter Nat.Prime

/-- The first 32 bits of the fractional part of the `k`-th root of `p`. -/
def rootFraction (k p : Nat) : Word := BitVec.ofNat 32 (Nat.nthRoot k (p * 2 ^ (32 * k)))

def K (t : Nat) : Word := rootFraction 3 (primes.getD t 0)

def Ch (x y z : Word) : Word := (x &&& y) ^^^ (~~~x &&& z)

def Maj (x y z : Word) : Word := (x &&& y) ^^^ (x &&& z) ^^^ (y &&& z)

def bigSigma0 (x : Word) : Word := x.rotateRight 2 ^^^ x.rotateRight 13 ^^^ x.rotateRight 22

def bigSigma1 (x : Word) : Word := x.rotateRight 6 ^^^ x.rotateRight 11 ^^^ x.rotateRight 25

def smallSigma0 (x : Word) : Word := x.rotateRight 7 ^^^ x.rotateRight 18 ^^^ (x >>> 3)

def smallSigma1 (x : Word) : Word := x.rotateRight 17 ^^^ x.rotateRight 19 ^^^ (x >>> 10)

/-! ### Padding and parsing -/

/-- How many zeros there may be between the bit 1 and the length, for `l` bits of message. -/
def Fills (l k : Nat) : Prop := (l + 1 + k) % 512 = 448

instance (l : Nat) : DecidablePred (Fills l) := fun _ => inferInstanceAs (Decidable (_ = _))

theorem exists_fills (l : Nat) : ∃ k, Fills l k := by
  refine ⟨(960 - (l + 1) % 512) % 512, ?_⟩
  unfold Fills
  omega

/-- The message, the bit 1, as few zeros as possible and the length in 64 bits. -/
def pad (m : List Bool) : List Bool :=
  m ++ true :: List.replicate (Nat.find (exists_fills m.length)) false ++ bitsOf 64 m.length

/-- The number of zeros is the first that does. -/
theorem find_fills {l k : Nat} (h : Fills l k) (hk : k < 512) : Nat.find (exists_fills l) = k := by
  refine (Nat.find_eq_iff _).2 ⟨h, fun n hn hfills => ?_⟩
  unfold Fills at h hfills
  omega

/-- The blocks of 512 bits. -/
def blocks (m : List Bool) : List (List Bool) :=
  (List.range (m.length / 512)).map fun i => (m.drop (512 * i)).take 512

/-- The word `t` of a block. -/
def wordOf (block : List Bool) (t : Nat) : Word := BitVec.ofNat 32 (numOf ((block.drop (32 * t)).take 32))

/-! ### The hash -/

/-- The eight words of a hash value, and the working variables. -/
structure Vars where
  a : Word
  b : Word
  c : Word
  d : Word
  e : Word
  f : Word
  g : Word
  h : Word
  deriving DecidableEq

/-- The initial hash value. -/
def H0 : Vars :=
  ⟨rootFraction 2 2, rootFraction 2 3, rootFraction 2 5, rootFraction 2 7, rootFraction 2 11, rootFraction 2 13,
    rootFraction 2 17, rootFraction 2 19⟩

/-- The message schedule of the block `M`. -/
def W (M : Nat → Word) (t : Nat) : Word :=
  if t < 16 then M t
  else smallSigma1 (W M (t - 2)) + W M (t - 7) + smallSigma0 (W M (t - 15)) + W M (t - 16)
termination_by t

def step (k w : Word) (v : Vars) : Vars :=
  let T1 := v.h + bigSigma1 v.e + Ch v.e v.f v.g + k + w
  let T2 := bigSigma0 v.a + Maj v.a v.b v.c
  ⟨T1 + T2, v.a, v.b, v.c, v.d + T1, v.e, v.f, v.g⟩

/-- The working variables after `t` rounds. -/
def rounds (M : Nat → Word) (v : Vars) : Nat → Vars
  | 0 => v
  | t + 1 => step (K t) (W M t) (rounds M v t)

/-- The hash value after a block. -/
def compress (H : Vars) (block : List Bool) : Vars :=
  let v := rounds (wordOf block) H 64
  ⟨v.a + H.a, v.b + H.b, v.c + H.c, v.d + H.d, v.e + H.e, v.f + H.f, v.g + H.g, v.h + H.h⟩

/-- The bits of a hash value. -/
def Vars.bits (H : Vars) : List Bool :=
  [H.a, H.b, H.c, H.d, H.e, H.f, H.g, H.h].flatMap fun x => bitsOf 32 x.toNat

def sha256 (m : List Bool) : List Bool := ((blocks (pad m)).foldl compress H0).bits

end Fips180

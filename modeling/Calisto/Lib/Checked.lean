import Calisto.Lib.Words
import Mathlib.Algebra.Group.Nat.Defs

/-!
# Checked runs

Code that reads byte strings and calculates with 64-bit numbers: it ends with a value, gives up, or panics, where a
number overflows or an index is out of range.
-/

namespace Checked

open Words

inductive Stop
  /-- The code gives up. -/
  | giveUp
  | panic
  deriving DecidableEq

abbrev Run (α : Type) := Except Stop α

variable {α β : Type} {s : List UInt8} {a b : Nat}

/-- `a + b`. -/
def add (a b : Nat) : Run Nat := if a + b < 18446744073709551616 then .ok (a + b) else .error .panic

/-- `a * b`. -/
def mul (a b : Nat) : Run Nat := if a * b < 18446744073709551616 then .ok (a * b) else .error .panic

/-- `s[a..b]`. -/
def index (s : List UInt8) (a b : Nat) : Run (List UInt8) :=
  if a ≤ b ∧ b ≤ s.length then .ok (slice s a b) else .error .panic

/-- `s.get(a..b)?`. -/
def get (s : List UInt8) (a b : Nat) : Run (List UInt8) :=
  if a ≤ b ∧ b ≤ s.length then .ok (slice s a b) else .error .giveUp

/-- `x?`. -/
def ofOption : Option α → Run α
  | some x => .ok x
  | none => .error .giveUp

/-- The number that bytes make, the lowest first. -/
def number : List UInt8 → Nat
  | [] => 0
  | b :: bytes => b.toNat + 256 * number bytes

theorem number_lt (bytes : List UInt8) : number bytes < 256 ^ bytes.length := by
  induction bytes with
  | nil => exact Nat.one_pos
  | cons b bytes ih =>
    have hb := b.toNat_lt
    rw [number, List.length_cons, Nat.pow_succ]
    omega

/-- The number at a place of fixed width. -/
theorem number_slice_lt (s : List UInt8) (a b : Nat) : number (slice s a b) < 256 ^ (b - a) := by
  have hlen : (slice s a b).length ≤ b - a := by
    rw [length_slice]
    exact Nat.min_le_left ..
  exact Nat.lt_of_lt_of_le (number_lt _) (Nat.pow_le_pow_right (by decide) hlen)

/-- The lowest `w` bytes of a number, the lowest first. -/
def digits : Nat → Nat → List UInt8
  | 0, _ => []
  | w + 1, n => UInt8.ofNat n :: digits w (n / 256)

@[simp] theorem length_digits (w n : Nat) : (digits w n).length = w := by
  induction w generalizing n with
  | zero => rfl
  | succ w ih => rw [digits, List.length_cons, ih]

/-- A number is read back from enough of its bytes. -/
theorem number_digits {w n : Nat} (h : n < 256 ^ w) : number (digits w n) = n := by
  induction w generalizing n with
  | zero => rw [digits, number, Nat.lt_one_iff.1 h]
  | succ w ih =>
    have hdiv : n / 256 < 256 ^ w := Nat.div_lt_of_lt_mul (by rwa [Nat.pow_succ, Nat.mul_comm] at h)
    rw [digits, number, ih hdiv, UInt8.toNat_ofNat']
    omega

/-! ### Stores -/

/-- The string with `bytes` written at `a`. -/
def store (s : List UInt8) (a : Nat) (bytes : List UInt8) : Run (List UInt8) :=
  if a + bytes.length ≤ s.length then .ok (s.take a ++ bytes ++ s.drop (a + bytes.length)) else .error .panic

/-- What stands between two parts of a string is read by its place. -/
theorem index_append (pre mid post : List UInt8) {a b : Nat} (ha : a = pre.length) (hb : b = a + mid.length) :
    index (pre ++ mid ++ post) a b = .ok mid := by
  subst ha hb
  have hle : pre.length ≤ pre.length + mid.length ∧ pre.length + mid.length ≤ (pre ++ mid ++ post).length := by
    simp only [List.length_append]
    omega
  rw [index, if_pos hle, slice, Nat.add_sub_cancel_left, List.append_assoc, List.drop_left, List.take_left]

/-- What is written between two parts of a string takes the place of as many bytes. -/
theorem store_append (pre old post new : List UInt8) (hlen : new.length = old.length) :
    store (pre ++ old ++ post) pre.length new = .ok (pre ++ new ++ post) := by
  have hle : pre.length + new.length ≤ (pre ++ old ++ post).length := by
    simp only [List.length_append]
    omega
  rw [store, if_pos hle, hlen, List.append_assoc pre old post, List.take_left, ← List.drop_drop, List.drop_left,
    List.drop_left]

/-! ### Safe runs -/

/-- There is no panic. -/
def Safe (r : Run α) : Prop := r ≠ .error .panic

@[simp] theorem safe_pure (x : α) : Safe (pure x) := nofun

@[simp] theorem safe_throw : Safe (throw .giveUp : Run α) := nofun

@[simp] theorem safe_add_bind (f : Nat → Run β) :
    Safe (add a b >>= f) ↔ a + b < 18446744073709551616 ∧ Safe (f (a + b)) := by
  unfold add
  split
  · rename_i h
    exact (and_iff_right h).symm
  · rename_i h
    exact iff_of_false (fun hs => hs rfl) fun hs => h hs.1

@[simp] theorem safe_mul_bind (f : Nat → Run β) :
    Safe (mul a b >>= f) ↔ a * b < 18446744073709551616 ∧ Safe (f (a * b)) := by
  unfold mul
  split
  · rename_i h
    exact (and_iff_right h).symm
  · rename_i h
    exact iff_of_false (fun hs => hs rfl) fun hs => h hs.1

@[simp] theorem safe_index_bind (f : List UInt8 → Run β) :
    Safe (index s a b >>= f) ↔ (a ≤ b ∧ b ≤ s.length) ∧ Safe (f (slice s a b)) := by
  unfold index
  split
  · rename_i h
    exact (and_iff_right h).symm
  · rename_i h
    exact iff_of_false (fun hs => hs rfl) fun hs => h hs.1

@[simp] theorem safe_get_bind (f : List UInt8 → Run β) :
    Safe (get s a b >>= f) ↔ (a ≤ b ∧ b ≤ s.length → Safe (f (slice s a b))) := by
  unfold get
  split
  · rename_i h
    exact ⟨fun hs _ => hs, fun hs => hs h⟩
  · rename_i h
    exact iff_of_true nofun fun hs => absurd hs h

@[simp] theorem safe_ofOption_bind (o : Option α) (f : α → Run β) :
    Safe (ofOption o >>= f) ↔ ∀ x, o = some x → Safe (f x) := by
  cases o with
  | none => exact iff_of_true nofun nofun
  | some x => exact ⟨fun hs y hy => Option.some.inj hy ▸ hs, fun hs => hs x rfl⟩

end Checked

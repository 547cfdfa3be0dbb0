import Calisto.Lib.Base64
import Mathlib.Data.List.Induction

/-!
# Digits without padding

The digits of bytes and the bytes of digits, the last group being as short as it is.  Two or three digits at the end
have bits that go to no byte; bytes never leave any there (`sextets_bytes_iff`).
-/

namespace Base64

/-- The digits of bytes: two for a last byte, three for two of them. -/
def sextets : List UInt8 → List Nat
  | [] => []
  | [a] => (digits a 0 0).take 2
  | [a, b] => (digits a b 0).take 3
  | a :: b :: c :: rest => digits a b c ++ sextets rest

/-- The bytes of four digits. -/
def triple (x y z w : Nat) : List UInt8 :=
  [UInt8.ofNat (x * 4 + y / 16), UInt8.ofNat (y % 16 * 16 + z / 4), UInt8.ofNat (z % 4 * 64 + w)]

/-- The bytes that digits are enough for. -/
def bytes : List Nat → List UInt8
  | [] => []
  | [_] => []
  | [x, y] => (triple x y 0 0).take 1
  | [x, y, z] => (triple x y z 0).take 2
  | x :: y :: z :: w :: rest => triple x y z w ++ bytes rest

/-- The last group is short and has a bit that goes to no byte. -/
def Spare : List Nat → Prop
  | [] => False
  | [_] => False
  | [_, y] => y % 16 ≠ 0
  | [_, _, z] => z % 4 ≠ 0
  | _ :: _ :: _ :: _ :: rest => Spare rest

theorem sextet_lt {bs : List UInt8} {v : Nat} (h : v ∈ sextets bs) : v < 64 := by
  induction bs using sextets.induct with
  | case1 => cases h
  | case2 a =>
    have ha := a.toNat_lt
    simp only [sextets, digits, List.take_succ_cons, List.take_zero, List.mem_cons, List.not_mem_nil, or_false] at h
    rcases h with rfl | rfl <;> simp <;> omega
  | case3 a b =>
    have ha := a.toNat_lt
    have hb := b.toNat_lt
    simp only [sextets, digits, List.take_succ_cons, List.take_zero, List.mem_cons, List.not_mem_nil, or_false] at h
    rcases h with rfl | rfl | rfl <;> simp <;> omega
  | case4 a b c rest ih =>
    have ha := a.toNat_lt
    have hb := b.toNat_lt
    have hc := c.toNat_lt
    rcases List.mem_append.1 h with h | h
    · simp only [digits, List.mem_cons, List.not_mem_nil, or_false] at h
      rcases h with rfl | rfl | rfl | rfl <;> omega
    · exact ih h

theorem length_sextets (bs : List UInt8) : (sextets bs).length = (4 * bs.length + 2) / 3 := by
  induction bs using sextets.induct with
  | case1 => rfl
  | case2 a => simp [sextets, digits]
  | case3 a b => simp [sextets, digits]
  | case4 a b c rest ih =>
    simp only [sextets, digits, List.length_append, List.length_cons, List.length_nil, ih]
    omega

theorem length_bytes (vs : List Nat) : (bytes vs).length = vs.length * 3 / 4 := by
  induction vs using bytes.induct with
  | case1 => rfl
  | case2 x => simp [bytes]
  | case3 x y => simp [bytes, triple]
  | case4 x y z => simp [bytes, triple]
  | case5 x y z w rest ih =>
    simp only [bytes, triple, List.length_append, List.length_cons, List.length_nil, ih]
    omega

/-- Nothing of the bytes is lost. -/
theorem bytes_sextets (bs : List UInt8) : bytes (sextets bs) = bs := by
  induction bs using sextets.induct with
  | case1 => rfl
  | case2 a =>
    have ha := a.toNat_lt
    simp only [sextets, digits, bytes, triple, List.take_succ_cons, List.take_zero, List.cons.injEq, and_true,
      ← UInt8.toNat_inj, UInt8.toNat_ofNat']
    simp
    omega
  | case3 a b =>
    have ha := a.toNat_lt
    have hb := b.toNat_lt
    simp only [sextets, digits, bytes, triple, List.take_succ_cons, List.take_zero, List.cons.injEq, and_true,
      ← UInt8.toNat_inj, UInt8.toNat_ofNat']
    simp
    omega
  | case4 a b c rest ih =>
    have ha := a.toNat_lt
    have hb := b.toNat_lt
    have hc := c.toNat_lt
    simp only [sextets, digits, List.cons_append, List.nil_append, bytes, triple, ih, List.cons.injEq, and_true,
      ← UInt8.toNat_inj, UInt8.toNat_ofNat']
    omega

/-- Digits come back from their bytes exactly when they have no bit to spare. -/
theorem sextets_bytes_iff {vs : List Nat} (hlt : ∀ v ∈ vs, v < 64) (hlen : vs.length % 4 ≠ 1) :
    sextets (bytes vs) = vs ↔ ¬Spare vs := by
  induction vs using bytes.induct with
  | case1 => simp [bytes, sextets, Spare]
  | case2 x => exact absurd rfl hlen
  | case3 x y =>
    have hx := hlt x (by simp)
    have hy := hlt y (by simp)
    have hbyte : (UInt8.ofNat (x * 4 + y / 16)).toNat = x * 4 + y / 16 := by
      rw [UInt8.toNat_ofNat']
      omega
    simp only [bytes, triple, sextets, digits, List.take_succ_cons, List.take_zero, hbyte, Spare, List.cons.injEq,
      and_true]
    simp
    omega
  | case4 x y z =>
    have hx := hlt x (by simp)
    have hy := hlt y (by simp)
    have hz := hlt z (by simp)
    have hfirst : (UInt8.ofNat (x * 4 + y / 16)).toNat = x * 4 + y / 16 := by
      rw [UInt8.toNat_ofNat']
      omega
    have hsecond : (UInt8.ofNat (y % 16 * 16 + z / 4)).toNat = y % 16 * 16 + z / 4 := by
      rw [UInt8.toNat_ofNat']
      omega
    simp only [bytes, triple, sextets, digits, List.take_succ_cons, List.take_zero, hfirst, hsecond, Spare,
      List.cons.injEq, and_true]
    simp
    omega
  | case5 x y z w rest ih =>
    have hx := hlt x (by simp)
    have hy := hlt y (by simp)
    have hz := hlt z (by simp)
    have hw := hlt w (by simp)
    have hrest := ih (fun v hv => hlt v (by simp [hv])) (by simp only [List.length_cons] at hlen; omega)
    have hfirst : (UInt8.ofNat (x * 4 + y / 16)).toNat = x * 4 + y / 16 := by
      rw [UInt8.toNat_ofNat']
      omega
    have hsecond : (UInt8.ofNat (y % 16 * 16 + z / 4)).toNat = y % 16 * 16 + z / 4 := by
      rw [UInt8.toNat_ofNat']
      omega
    have hthird : (UInt8.ofNat (z % 4 * 64 + w)).toNat = z % 4 * 64 + w := by
      rw [UInt8.toNat_ofNat']
      omega
    have hdigits : digits (UInt8.ofNat (x * 4 + y / 16)) (UInt8.ofNat (y % 16 * 16 + z / 4))
        (UInt8.ofNat (z % 4 * 64 + w)) = [x, y, z, w] := by
      simp only [digits, hfirst, hsecond, hthird, List.cons.injEq, and_true]
      omega
    rw [Spare, ← hrest]
    simp only [bytes, triple, List.cons_append, List.nil_append, sextets, hdigits, List.cons.injEq, true_and]

/-- The bits to spare are those of the last digit. -/
theorem spare_append_iff (vs : List Nat) (v : Nat) :
    Spare (vs ++ [v]) ↔ vs.length % 4 = 1 ∧ v % 16 ≠ 0 ∨ vs.length % 4 = 2 ∧ v % 4 ≠ 0 := by
  induction vs using bytes.induct with
  | case1 => simp [Spare]
  | case2 x => simp [Spare]
  | case3 x y => simp [Spare]
  | case4 x y z => simp [Spare]
  | case5 x y z w rest ih =>
    simp only [List.cons_append, Spare, ih, List.length_cons]
    omega

/-- More digits give the same bytes as long as they are enough for no further one. -/
theorem bytes_append_eq_iff (vs ws : List Nat) :
    bytes (vs ++ ws) = bytes vs ↔ (vs ++ ws).length * 3 / 4 = vs.length * 3 / 4 := by
  constructor
  · intro h
    have hlen := congrArg List.length h
    rwa [length_bytes, length_bytes] at hlen
  · intro h
    induction vs using bytes.induct with
    | case1 =>
      match ws, h with
      | [], _ => rfl
      | [w], _ => rfl
      | _ :: _ :: ws, h => simp at h; omega
    | case2 x =>
      match ws, h with
      | [], _ => rfl
      | _ :: ws, h => simp at h; omega
    | case3 x y =>
      match ws, h with
      | [], _ => rfl
      | _ :: ws, h => simp at h; omega
    | case4 x y z =>
      match ws, h with
      | [], _ => rfl
      | _ :: ws, h => simp at h; omega
    | case5 x y z w rest ih =>
      have hgroup : ∀ n : Nat, (n + 1 + 1 + 1 + 1) * 3 / 4 = n * 3 / 4 + 3 := by omega
      simp only [List.cons_append, List.length_cons, hgroup, Nat.add_right_cancel_iff] at h
      rw [List.cons_append, List.cons_append, List.cons_append, List.cons_append, bytes, bytes, ih h]

end Base64

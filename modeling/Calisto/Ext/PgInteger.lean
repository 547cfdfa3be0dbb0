import Calisto.Wire.Framing

/-!
# Integer columns

`parse_i64_raw` on the text of a column.  The loop makes the magnitude before it knows the sign, so that the least
number of 64 bits passes through one that does not fit.
-/

namespace Calisto

namespace Pg

variable {fit : Int → Option Int}

/-! ### The loop -/

/-- The result of an operation on `i64` where overflow panics, as it does in a debug build: `none`. -/
def checked (x : Int) : Option Int :=
  if -9223372036854775808 ≤ x ∧ x ≤ 9223372036854775807 then some x else none

/-- The result where overflow wraps, as it does in a release build. -/
def wrapping (x : Int) : Option Int := some (x.bmod 18446744073709551616)

/-- The loop over the digits: `none` when an operation panics, `some none` for another byte. -/
def digitLoop (fit : Int → Option Int) (i : Int) : Bytes → Option (Option Int)
  | [] => some (some i)
  | b :: bytes =>
    if 48 ≤ b ∧ b ≤ 57 then do
      let i ← fit (i * 10)
      let i ← fit (i + (b - 48).toNat)
      digitLoop fit i bytes
    else some none

/-- The sign and where the digits start. -/
def signOf (b : UInt8) : Option (Bool × Nat) :=
  if b = 45 then some (true, 1)
  else if b = 43 then some (false, 1)
  else if 48 ≤ b ∧ b ≤ 57 then some (false, 0)
  else none

def parseI64Raw (fit : Int → Option Int) (bytes : Bytes) : Option (Option Int) :=
  match bytes with
  | [] => some none
  | b :: _ => match signOf b with
    | none => some none
    | some (neg, start) =>
      if start ≥ bytes.length then some none
      else do
        match ← digitLoop fit 0 (bytes.drop start) with
        | none => return none
        | some i => if neg then (fit (-i)).map some else return some i

/-! ### Digits -/

/-- The byte of a digit. -/
theorem utf8_digit {c : Char} (h : c.isDigit) :
    ∃ b, String.utf8EncodeChar c = [b] ∧ (48 ≤ b ∧ b ≤ 57) ∧ (b - 48).toNat = c.toNat - 48 := by
  have hall : ∀ n < 58, 48 ≤ n → (48 ≤ UInt8.ofNat n ∧ UInt8.ofNat n ≤ 57) ∧ (UInt8.ofNat n - 48).toNat = n - 48 := by
    decide +kernel
  simp only [Char.isDigit, Bool.and_eq_true, decide_eq_true_eq] at h
  have h1 : 48 ≤ c.toNat := h.1
  have h2 : c.toNat ≤ 57 := h.2
  exact ⟨UInt8.ofNat c.toNat, utf8EncodeChar_ascii (by omega), hall c.toNat (by omega) h1⟩

/-- A round of the loop. -/
theorem digitLoop_cons {c : Char} (h : c.isDigit) (ds : Str) (i : Int) :
    digitLoop fit i (utf8 (c :: ds)) = (fit (i * 10)).bind fun i =>
      (fit (i + ((c.toNat - 48 : Nat) : Int))).bind fun i => digitLoop fit i (utf8 ds) := by
  obtain ⟨b, hbytes, hdigit, hval⟩ := utf8_digit h
  rw [utf8_cons, hbytes, List.singleton_append, digitLoop, if_pos hdigit, hval]
  rfl

private theorem le_ofDigitChars (ds : Str) (n : Nat) : n ≤ Nat.ofDigitChars 10 ds n := by
  induction ds generalizing n with
  | nil => exact Nat.le_of_eq Nat.ofDigitChars_nil.symm
  | cons c ds ih =>
    have hnext := ih (10 * n + (c.toNat - '0'.toNat))
    rw [Nat.ofDigitChars_cons]
    omega

/-- Where overflow panics, the loop ends when the number fits. -/
theorem digitLoop_checked {ds : Str} (hds : ∀ c ∈ ds, c.isDigit) {n : Nat} (hn : n ≤ 9223372036854775807) :
    digitLoop checked n (utf8 ds) =
      if Nat.ofDigitChars 10 ds n ≤ 9223372036854775807 then some (some (Nat.ofDigitChars 10 ds n : Int))
      else none := by
  induction ds generalizing n with
  | nil =>
    rw [Nat.ofDigitChars_nil, if_pos hn]
    rfl
  | cons c ds ih =>
    have hle := le_ofDigitChars ds (10 * n + (c.toNat - 48))
    have hcons : Nat.ofDigitChars 10 (c :: ds) n = Nat.ofDigitChars 10 ds (10 * n + (c.toNat - 48)) :=
      Nat.ofDigitChars_cons
    rw [digitLoop_cons (hds c (List.mem_cons_self ..)), hcons]
    by_cases hfit : 10 * n + (c.toNat - 48) ≤ 9223372036854775807
    · have hmul : checked ((n : Int) * 10) = some ((n : Int) * 10) := if_pos (by omega)
      have hadd : checked ((n : Int) * 10 + ((c.toNat - 48 : Nat) : Int)) =
          some ((10 * n + (c.toNat - 48) : Nat) : Int) := by
        rw [checked, if_pos (by omega)]
        congr 1
        omega
      rw [hmul, Option.bind_some, hadd, Option.bind_some, ih (fun d hd => hds d (List.mem_cons_of_mem c hd)) hfit]
    · rw [if_neg (by omega)]
      by_cases hmul : n * 10 ≤ 9223372036854775807
      · have hfirst : checked ((n : Int) * 10) = some ((n : Int) * 10) := if_pos (by omega)
        have hadd : checked ((n : Int) * 10 + ((c.toNat - 48 : Nat) : Int)) = none := if_neg (by omega)
        rw [hfirst, Option.bind_some, hadd, Option.bind_none]
      · have hfirst : checked ((n : Int) * 10) = none := if_neg (by omega)
        rw [hfirst, Option.bind_none]

/-- Where it wraps, the loop makes the number modulo 2^64. -/
theorem digitLoop_wrapping {ds : Str} (hds : ∀ c ∈ ds, c.isDigit) (n : Nat) :
    digitLoop wrapping ((n : Int).bmod 18446744073709551616) (utf8 ds) =
      some (some ((Nat.ofDigitChars 10 ds n : Int).bmod 18446744073709551616)) := by
  induction ds generalizing n with
  | nil =>
    rw [Nat.ofDigitChars_nil]
    rfl
  | cons c ds ih =>
    have hcons : Nat.ofDigitChars 10 (c :: ds) n = Nat.ofDigitChars 10 ds (10 * n + (c.toNat - 48)) :=
      Nat.ofDigitChars_cons
    have hval : (n : Int) * 10 + ((c.toNat - 48 : Nat) : Int) = ((10 * n + (c.toNat - 48) : Nat) : Int) := by omega
    rw [digitLoop_cons (hds c (List.mem_cons_self ..)), hcons, wrapping, Option.bind_some, Int.bmod_mul_bmod, wrapping,
      Option.bind_some, Int.bmod_add_bmod, hval, ih fun d hd => hds d (List.mem_cons_of_mem c hd)]

/-! ### Numbers -/

/-- The text that PostgreSQL prints for a number of the type `int8`. -/
def int8out (v : Int64) : Str := if v.toInt < 0 then '-' :: decimal v.toInt.natAbs else decimal v.toInt.natAbs

/-- The magnitude is read first, and the sign put before it. -/
theorem parseI64Raw_int8out (v : Int64) :
    parseI64Raw fit (utf8 (int8out v)) = (digitLoop fit 0 (utf8 (decimal v.toInt.natAbs))).bind fun
      | none => some none
      | some i => if v.toInt < 0 then (fit (-i)).map some else some (some i) := by
  have hne : decimal v.toInt.natAbs ≠ [] := Nat.toDigits_ne_nil
  obtain ⟨c, ds, hds⟩ := List.exists_cons_of_ne_nil hne
  have hc : c.isDigit := isDigit_of_mem_decimal (n := v.toInt.natAbs) (by rw [hds]; exact List.mem_cons_self ..)
  obtain ⟨b, hbyte, hdigit, -⟩ := utf8_digit hc
  have htext : utf8 (decimal v.toInt.natAbs) = b :: utf8 ds := by rw [hds, utf8_cons, hbyte, List.singleton_append]
  by_cases hneg : v.toInt < 0
  · have hminus : String.utf8EncodeChar '-' = [45] := by decide
    rw [int8out, if_pos hneg, utf8_cons, hminus, List.singleton_append, htext]
    simp only [hneg, if_true]
    rfl
  · have hminus : b ≠ 45 := by
      rintro rfl
      exact absurd hdigit.1 (by decide)
    have hplus : b ≠ 43 := by
      rintro rfl
      exact absurd hdigit.1 (by decide)
    have hsign : signOf b = some (false, 0) := by rw [signOf, if_neg hminus, if_neg hplus, if_pos hdigit]
    rw [int8out, if_neg hneg, htext, parseI64Raw, hsign]
    simp only [hneg, if_false]
    rfl

private theorem isDigit_decimal (n : Nat) : ∀ c ∈ decimal n, c.isDigit := fun _ hc => isDigit_of_mem_decimal hc

/-- A release build reads every number. -/
theorem parse_i64_wrapping (v : Int64) : parseI64Raw wrapping (utf8 (int8out v)) = some (some v.toInt) := by
  have hloop := digitLoop_wrapping (isDigit_decimal v.toInt.natAbs) 0
  rw [decimal, Nat.ofDigitChars_ten_toDigits, ← decimal] at hloop
  have hzero : ((0 : Nat) : Int).bmod 18446744073709551616 = 0 := rfl
  rw [hzero] at hloop
  rw [parseI64Raw_int8out, hloop, Option.bind_some]
  dsimp only
  split
  · rename_i hneg
    have hminus : -((v.toInt.natAbs : Int).bmod 18446744073709551616) =
        (v.toInt.natAbs : Int).bmod 18446744073709551616 * -1 := by omega
    have hval : (v.toInt.natAbs : Int) * -1 = v.toInt := by omega
    rw [wrapping, hminus, Int.bmod_mul_bmod, hval, Int64.toInt_bmod]
    rfl
  · rename_i hneg
    have hval : (v.toInt.natAbs : Int) = v.toInt := by omega
    rw [hval, Int64.toInt_bmod]

/-- The number is read, and no operation overflows, exactly when it is not the least one. -/
theorem parse_i64_checked_iff (v : Int64) :
    parseI64Raw checked (utf8 (int8out v)) = some (some v.toInt) ↔ v ≠ Int64.minValue := by
  have hmin : v = Int64.minValue ↔ v.toInt = -9223372036854775808 := Int64.toInt_inj.symm
  have hlow : -9223372036854775808 ≤ v.toInt := v.minValue_le_toInt
  have hhigh : v.toInt ≤ 9223372036854775807 := v.toInt_le
  have hloop := digitLoop_checked (isDigit_decimal v.toInt.natAbs) (Nat.zero_le _)
  rw [decimal, Nat.ofDigitChars_ten_toDigits, ← decimal] at hloop
  have hzero : ((0 : Nat) : Int) = 0 := rfl
  rw [hzero] at hloop
  rw [Ne, hmin, parseI64Raw_int8out, hloop]
  by_cases hleast : v.toInt = -9223372036854775808
  · rw [if_neg (by omega)]
    exact iff_of_false nofun (not_not_intro hleast)
  · rw [if_pos (by omega), Option.bind_some]
    refine iff_of_true ?_ hleast
    dsimp only
    split
    · rename_i hneg
      have hval : -(v.toInt.natAbs : Int) = v.toInt := by omega
      rw [hval, checked, if_pos ⟨hlow, hhigh⟩]
      rfl
    · rename_i hneg
      have hval : (v.toInt.natAbs : Int) = v.toInt := by omega
      rw [hval]

/-- The last digit of the least number overflows. -/
theorem parse_i64_overflow : ¬∀ v : Int64, parseI64Raw checked (utf8 (int8out v)) = some (some v.toInt) := by
  intro h
  have hnone : parseI64Raw checked (utf8 (int8out Int64.minValue)) = none := by decide +kernel
  have hsome := h Int64.minValue
  rw [hnone] at hsome
  cases hsome

end Pg

end Calisto

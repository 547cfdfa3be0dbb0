import Mathlib.Data.List.Basic

/-!
# Base64

The encoding of bytes by four characters for each three of them, with padding and without line breaks, and its
digits.
-/

namespace Base64

def alphabet : List Char := "ABCDEFGHIJKLMNOPQRSTUVWXYZabcdefghijklmnopqrstuvwxyz0123456789+/".toList

/-- The character of a digit. -/
def char (v : Nat) : Char := alphabet.getD v 'A'

/-- The value of a character. -/
def value (c : Char) : Option Nat := alphabet.idxOf? c

/-- Three bytes as four digits. -/
def digits (a b c : UInt8) : List Nat :=
  [a.toNat / 4, a.toNat % 4 * 16 + b.toNat / 16, b.toNat % 16 * 4 + c.toNat / 64, c.toNat % 64]

def encode : List UInt8 → List Char
  | [] => []
  | [a] => (digits a 0 0).take 2 |>.map char |>.append ['=', '=']
  | [a, b] => (digits a b 0).take 3 |>.map char |>.append ['=']
  | a :: b :: c :: rest => (digits a b c).map char ++ encode rest

theorem value_char : ∀ v < 64, value (char v) = some v := by decide +kernel

/-- The characters of the digits are not those of the padding or of a line end. -/
theorem char_ne : ∀ v < 64, char v ≠ '=' ∧ char v ≠ '\n' := by decide +kernel

end Base64

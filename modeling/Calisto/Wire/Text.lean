import Mathlib.Algebra.Group.Nat.Defs
import Mathlib.Data.List.Basic

/-!
# Bytes, strings and numbers

The pieces of the Rust standard library that the wire code rests on.  A Rust `String` is a list of Unicode scalar
values (`Str`), a `Vec<u8>` a list of bytes.  `utf8` is `str::as_bytes`, `fromUtf8Lossy` is
`String::from_utf8_lossy` (each maximal invalid piece becomes one U+FFFD), `parseUsize` is `str::parse::<usize>` on
a 64-bit target (an optional `+`, decimal digits, no overflow) and `decimal` is the `{}` of a number.
-/

namespace Calisto

abbrev Bytes := List UInt8

abbrev Str := List Char

/-- `str::as_bytes`. -/
def utf8 (s : Str) : Bytes := s.flatMap String.utf8EncodeChar

@[simp] theorem utf8_cons (c : Char) (s : Str) : utf8 (c :: s) = String.utf8EncodeChar c ++ utf8 s := rfl

@[simp] theorem utf8_append (s t : Str) : utf8 (s ++ t) = utf8 s ++ utf8 t := List.flatMap_append

/-! ### `String::from_utf8_lossy` -/

/-- May `c` follow the first byte `b` of a three or four byte sequence? -/
def secondByteOk (b c : UInt8) : Bool :=
  if b = 0xE0 then 0xA0 ≤ c && c ≤ 0xBF
  else if b = 0xED then 0x80 ≤ c && c ≤ 0x9F
  else if b = 0xF0 then 0x90 ≤ c && c ≤ 0xBF
  else if b = 0xF4 then 0x80 ≤ c && c ≤ 0x8F
  else 0x80 ≤ c && c ≤ 0xBF

/-- How many bytes the invalid piece starting with `b` has. -/
def invalidLen (b : UInt8) (rest : Bytes) : Nat :=
  if 0xE0 ≤ b && b ≤ 0xF4 then
    match rest with
    | c :: d :: _ =>
      if secondByteOk b c then
        if 0xF0 ≤ b && 0x80 ≤ d && d ≤ 0xBF then 3 else 2
      else 1
    | [c] => if secondByteOk b c then 2 else 1
    | [] => 1
  else 1

/-- The first character of `b :: rest` and the number of bytes it takes. -/
def lossyChar (b : UInt8) (rest : Bytes) : Char × Nat :=
  match (b :: rest).toByteArray.utf8DecodeChar? 0 with
  | some c => (c, c.utf8Size)
  | none => ('\uFFFD', invalidLen b rest)

def lossyChars : Nat → Bytes → Str
  | 0, _ => []
  | _, [] => []
  | n + 1, b :: rest => (lossyChar b rest).1 :: lossyChars n ((b :: rest).drop (lossyChar b rest).2)

/-- `String::from_utf8_lossy`. -/
def fromUtf8Lossy (bs : Bytes) : Str := lossyChars bs.length bs

/-- Bytes that begin with a character. -/
theorem eq_append_of_utf8DecodeChar? {bs : Bytes} {c : Char} (h : bs.toByteArray.utf8DecodeChar? 0 = some c) :
    ∃ rest, bs = String.utf8EncodeChar c ++ rest := by
  obtain ⟨l, hl⟩ := ByteArray.exists_of_utf8DecodeChar?_eq_some h
  exact ⟨l.data.toList, by simpa [List.toList_data_toByteArray] using congrArg (fun x => x.data.toList) hl⟩

private theorem lossyChar_utf8 (c : Char) (rest : Bytes) {b : UInt8} {bs : Bytes}
    (h : b :: bs = String.utf8EncodeChar c ++ rest) : lossyChar b bs = (c, c.utf8Size) := by
  unfold lossyChar
  rw [h, List.toByteArray_append, ByteArray.utf8DecodeChar?_utf8EncodeChar_append]

private theorem lossyChars_utf8 (s : Str) (n : Nat) (h : (utf8 s).length ≤ n) : lossyChars n (utf8 s) = s := by
  induction s generalizing n with
  | nil => cases n <;> rfl
  | cons c s ih =>
    have hlen : (String.utf8EncodeChar c).length = c.utf8Size := String.length_utf8EncodeChar c
    have hpos : 0 < c.utf8Size := c.utf8Size_pos
    obtain ⟨b, bs, hb⟩ : ∃ b bs, utf8 (c :: s) = b :: bs := by
      refine List.exists_cons_of_length_pos ?_
      rw [utf8_cons, List.length_append]
      omega
    rw [utf8_cons, List.length_append] at h
    cases n with
    | zero => omega
    | succ n =>
      rw [hb, lossyChars, lossyChar_utf8 c (utf8 s) (by rw [← hb, utf8_cons]), ← hb, utf8_cons, ← hlen,
        List.drop_left, ih n (by omega)]

/-- Decoding what a string encodes to gives the string back. -/
theorem fromUtf8Lossy_utf8 (s : Str) : fromUtf8Lossy (utf8 s) = s := lossyChars_utf8 s _ (Nat.le_refl _)

theorem utf8_inj {s t : Str} (h : utf8 s = utf8 t) : s = t := by
  rw [← fromUtf8Lossy_utf8 s, h, fromUtf8Lossy_utf8]

theorem utf8_eq_nil_iff (s : Str) : utf8 s = [] ↔ s = [] := by
  constructor
  · intro h
    exact utf8_inj h
  · rintro rfl
    rfl

/-- A NUL in the text comes from a NUL byte. -/
theorem zero_mem_of_nul_mem {bs : Bytes} (h : Char.ofNat 0 ∈ fromUtf8Lossy bs) : 0 ∈ bs := by
  have hchars : ∀ n (bs : Bytes), Char.ofNat 0 ∈ lossyChars n bs → 0 ∈ bs := by
    intro n
    induction n with
    | zero =>
      intro bs h
      cases h
    | succ n ih =>
      intro bs h
      cases bs with
      | nil => cases h
      | cons b rest =>
        rcases List.mem_cons.1 h with h | h
        · unfold lossyChar at h
          split at h
          · rename_i c hc
            obtain ⟨l, hlist⟩ := eq_append_of_utf8DecodeChar? hc
            have hzero : String.utf8EncodeChar (Char.ofNat 0) = [0] := by decide
            have hc0 : c = Char.ofNat 0 := h.symm
            rw [hlist, hc0, hzero]
            exact List.mem_append_left _ List.mem_cons_self
          · have hne : Char.ofNat 0 ≠ '\uFFFD' := by decide
            exact absurd h hne
        · exact List.mem_of_mem_drop (ih _ h)
  exact hchars _ bs h

/-! ### Numbers -/

/-- `usize::MAX + 1` on a 64-bit target. -/
def usizeSize : Nat := 2 ^ 64

/-- The `{}` of an unsigned number. -/
def decimal (n : Nat) : Str := Nat.toDigits 10 n

/-- `str::parse::<usize>`, `none` for every error. -/
def parseUsize (s : Str) : Option Nat :=
  let digits := match s with
    | '+' :: c :: cs => c :: cs
    | _ => s
  if digits ≠ [] ∧ digits.all Char.isDigit then
    let n := Nat.ofDigitChars 10 digits 0
    if n < usizeSize then some n else none
  else none

theorem isDigit_of_mem_decimal {n : Nat} {c : Char} (h : c ∈ decimal n) : c.isDigit :=
  Nat.isDigit_of_mem_toDigits (by omega) (by omega) h

/-- A number that fits is read back from its decimal text. -/
theorem parseUsize_decimal {n : Nat} (h : n < usizeSize) : parseUsize (decimal n) = some n := by
  have hne : decimal n ≠ [] := Nat.toDigits_ne_nil
  have hall : (decimal n).all Char.isDigit := List.all_eq_true.2 fun _ => isDigit_of_mem_decimal
  have hplus : (match decimal n with
      | '+' :: c :: cs => c :: cs
      | _ => decimal n) = decimal n := by
    split
    · rename_i c cs heq
      have : ('+' : Char).isDigit := isDigit_of_mem_decimal (n := n) (by rw [heq]; simp)
      simp at this
    · rfl
  unfold parseUsize
  rw [hplus]
  have hval : Nat.ofDigitChars 10 (decimal n) 0 = n := Nat.ofDigitChars_ten_toDigits
  simp [hne, hall, hval, h]

/-! ### Splitting -/

/-- `str::split_once` at a character. -/
def splitOnce (sep : Char) : Str → Option (Str × Str)
  | [] => none
  | c :: cs => if c = sep then some ([], cs) else (splitOnce sep cs).map fun p => (c :: p.1, p.2)

/-- `str::strip_prefix`. -/
def stripPrefix : Str → Str → Option Str
  | [], s => some s
  | _ :: _, [] => none
  | p :: ps, c :: cs => if p = c then stripPrefix ps cs else none

theorem splitOnce_append {sep : Char} {s : Str} (h : sep ∉ s) (t : Str) :
    splitOnce sep (s ++ sep :: t) = some (s, t) := by
  induction s with
  | nil => simp [splitOnce]
  | cons c s ih =>
    simp only [List.mem_cons, not_or] at h
    simp [splitOnce, Ne.symm h.1, ih h.2]

theorem splitOnce_eq_some {sep : Char} {s k v : Str} (h : splitOnce sep s = some (k, v)) :
    s = k ++ sep :: v ∧ sep ∉ k := by
  induction s generalizing k with
  | nil => cases h
  | cons c s ih =>
    unfold splitOnce at h
    split at h
    · rename_i hc
      cases h
      exact ⟨by rw [hc]; rfl, List.not_mem_nil⟩
    · rename_i hc
      obtain ⟨⟨k', v'⟩, hkv, heq⟩ := Option.map_eq_some_iff.1 h
      cases heq
      obtain ⟨hs, hk⟩ := ih hkv
      refine ⟨by rw [hs]; rfl, ?_⟩
      intro hmem
      rcases List.mem_cons.1 hmem with rfl | hmem
      · exact hc rfl
      · exact hk hmem

theorem stripPrefix_append (p s : Str) : stripPrefix p (p ++ s) = some s := by
  induction p with
  | nil => rfl
  | cons c p ih => simp [stripPrefix, ih]

theorem stripPrefix_eq_some {p s v : Str} (h : stripPrefix p s = some v) : s = p ++ v := by
  induction p generalizing s with
  | nil => cases h; rfl
  | cons c p ih =>
    cases s with
    | nil => cases h
    | cons d s =>
      unfold stripPrefix at h
      split at h
      · rename_i hcd
        rw [hcd, ih h]
        rfl
      · simp at h

end Calisto

import Calisto.Lib.LineBreaks
import Calisto.Wire.Framing

/-!
# The end marker

`split_end_marker` of `build.rb`, which cuts the text of a file in characters, and the `DATA` of `child_main`, which
looks for its offset in bytes.  Both take the line of the marker from the lexer.
-/

namespace Calisto

namespace EndMarker

open LineBreaks

/-- The newline. -/
def newline : UInt8 := 10

/-- `__END__`. -/
def marker : Bytes := utf8 "__END__".toList

/-! ### Characters -/

/-- How Ruby cuts the bytes of a string into characters: nothing is lost and a newline is a character of its own. -/
structure Encoding where
  chars : Bytes → List Bytes
  flatten_chars : ∀ src, (chars src).flatten = src
  words_chars : ∀ src, Words newline (chars src)

private theorem singleton_word (b : UInt8) : [b] = [newline] ∨ [b] ≠ [] ∧ newline ∉ [b] := by
  by_cases hb : b = newline
  · exact .inl (hb ▸ rfl)
  · exact .inr ⟨List.cons_ne_nil _ _, by simpa using Ne.symm hb⟩

/-- Each byte is a character: US-ASCII and the encodings of one byte. -/
def Encoding.bytes : Encoding where
  chars src := src.map fun b => [b]
  flatten_chars src := by
    induction src with
    | nil => rfl
    | cons b src ih => simpa using ih
  words_chars src := by
    intro c hc
    obtain ⟨b, -, rfl⟩ := List.mem_map.1 hc
    exact singleton_word b

/-- How many bytes the first character of `b :: rest` has; a byte that starts none is one of its own. -/
def charLen (b : UInt8) (rest : Bytes) : Nat :=
  match (b :: rest).toByteArray.utf8DecodeChar? 0 with
  | some c => c.utf8Size
  | none => 1

def utf8Chars : Nat → Bytes → List Bytes
  | 0, _ => []
  | _, [] => []
  | n + 1, b :: rest => (b :: rest).take (charLen b rest) :: utf8Chars n ((b :: rest).drop (charLen b rest))

/-- The first character is a single byte or the encoding of a character. -/
theorem take_charLen (b : UInt8) (rest : Bytes) :
    (b :: rest).take (charLen b rest) = [b] ∨ ∃ c, (b :: rest).take (charLen b rest) = String.utf8EncodeChar c := by
  unfold charLen
  split
  · rename_i c hc
    obtain ⟨l, hlist⟩ := eq_append_of_utf8DecodeChar? hc
    refine .inr ⟨c, ?_⟩
    rw [hlist, ← String.length_utf8EncodeChar c, List.take_left]
  · exact .inl rfl

private theorem charLen_pos (b : UInt8) (rest : Bytes) : 0 < charLen b rest := by
  unfold charLen
  split
  · exact Char.utf8Size_pos _
  · exact Nat.one_pos

private theorem flatten_utf8Chars (n : Nat) (src : Bytes) (h : src.length ≤ n) : (utf8Chars n src).flatten = src := by
  induction n generalizing src with
  | zero =>
    rw [Nat.le_zero, List.length_eq_zero_iff] at h
    rw [h]
    rfl
  | succ n ih =>
    cases src with
    | nil => rfl
    | cons b rest =>
      have hpos := charLen_pos b rest
      rw [utf8Chars, List.flatten_cons, ih, List.take_append_drop]
      rw [List.length_drop, List.length_cons]
      rw [List.length_cons] at h
      omega

/-- A newline is not part of another character. -/
theorem utf8EncodeChar_word (c : Char) :
    String.utf8EncodeChar c = [newline] ∨ String.utf8EncodeChar c ≠ [] ∧ newline ∉ String.utf8EncodeChar c := by
  by_cases hascii : c.toNat ≤ 127
  · rw [utf8EncodeChar_ascii hascii]
    exact singleton_word _
  · refine .inr ⟨String.utf8EncodeChar_ne_nil, fun hmem => ?_⟩
    have := utf8EncodeChar_high (by omega) newline hmem
    simp [newline] at this

private theorem words_utf8Chars (n : Nat) (src : Bytes) : Words newline (utf8Chars n src) := by
  induction n generalizing src with
  | zero => exact fun c hc => absurd hc List.not_mem_nil
  | succ n ih =>
    cases src with
    | nil => exact fun c hc => absurd hc List.not_mem_nil
    | cons b rest =>
      intro c hc
      rcases List.mem_cons.1 hc with rfl | hc
      · rcases take_charLen b rest with h | ⟨c, h⟩
        · rw [h]
          exact singleton_word b
        · rw [h]
          exact utf8EncodeChar_word c
      · exact ih _ c hc

/-- UTF-8, where a byte that belongs to no character is one of its own. -/
def Encoding.utf8 : Encoding where
  chars src := utf8Chars src.length src
  flatten_chars src := flatten_utf8Chars _ src (Nat.le_refl _)
  words_chars src := words_utf8Chars _ src

/-! ### The two loops -/

section Loops

variable {α : Type} [DecidableEq α]

/-- `n.times do nl = src.index("\n", pos); break unless nl; pos = nl + 1 end` -/
def skipLines (nl : α) (src : List α) : Nat → Nat → Nat
  | 0, pos => pos
  | n + 1, pos => match index nl src pos with
    | some i => skipLines nl src n (i + 1)
    | none => pos

/-- `n.times do nl = src.index("\n", pos); pos = nl ? nl + 1 : src.bytesize end` -/
def seekLines (nl : α) (src : List α) : Nat → Nat → Nat
  | 0, pos => pos
  | n + 1, pos => seekLines nl src n (match index nl src pos with
    | some i => i + 1
    | none => src.length)

end Loops

/-- A token of `Ripper.lex`: its line and whether its event is `on___end__`. -/
structure Token where
  line : Nat
  isEnd : Bool

/-- The line of the last `on___end__`. -/
def endLine (tokens : List Token) : Option Nat :=
  tokens.foldl (fun line token => if token.isEnd then some token.line else line) none

/-- `split_end_marker`: the code and the data. -/
def splitEndMarker (enc : Encoding) (lex : Bytes → List Token) (src : Bytes) : Bytes × Option Bytes :=
  match endLine (lex src) with
  | none => (src, none)
  | some line =>
    let chars := enc.chars src
    let pos := skipLines [newline] chars (line - 1) 0
    let data := match index [newline] chars pos with
      | some markerEnd => chars.drop (markerEnd + 1)
      | none => []
    ((chars.take pos).flatten, some data.flatten)

/-- `src.include?(part)` -/
def includes (part : Bytes) : Bytes → Bool
  | [] => part.isEmpty
  | b :: src => part.isPrefixOf (b :: src) || includes part src

private theorem includes_iff {part src : Bytes} : includes part src = true ↔ part <:+: src := by
  induction src with
  | nil => rw [includes, List.isEmpty_iff, List.infix_nil]
  | cons b src ih => rw [includes, Bool.or_eq_true, List.isPrefixOf_iff_prefix, ih, List.infix_cons_iff]

/-- The snippet of `child_main`: the offset from which `DATA` reads the script. -/
def dataOffset (lex : Bytes → List Token) (src : Bytes) : Option Nat :=
  if includes marker src then (endLine (lex src)).map fun line => seekLines newline src line 0 else none

section Positions

variable {α : Type} [DecidableEq α] {nl : α}

/-- `line.times` ends where the first lines end, however many they are. -/
theorem seekLines_append (nl : α) (n : Nat) (p s : List α) :
    seekLines nl (p ++ s) n p.length = (p ++ ((linesOf nl s).take n).flatten).length := by
  induction n generalizing p s with
  | zero => simp [seekLines]
  | succ n ih =>
    by_cases h : nl ∈ s
    · obtain ⟨w, rest, rfl, hw⟩ := List.eq_append_cons_of_mem h
      have hnext := ih (p ++ (w ++ [nl])) rest
      have hsrc : p ++ (w ++ [nl]) ++ rest = p ++ (w ++ nl :: rest) := by simp
      rw [hsrc] at hnext
      rw [seekLines, index_append_cons p hw, linesOf_append_cons hw]
      simpa [Nat.add_assoc] using hnext
    · have hend := ih (p ++ s) []
      rw [List.append_nil] at hend
      rw [seekLines, index_of_not_mem p h]
      by_cases hs : s = []
      · simpa [hs] using hend
      · simpa [linesOf_of_not_mem h hs] using hend

/-- `(line - 1).times` ends where the first lines end, when there is one more. -/
theorem skipLines_append {n : Nat} {p s : List α} (h : n < (linesOf nl s).length) :
    skipLines nl (p ++ s) n p.length = (p ++ ((linesOf nl s).take n).flatten).length := by
  induction n generalizing p s with
  | zero => simp [skipLines]
  | succ n ih =>
    by_cases hmem : nl ∈ s
    · obtain ⟨w, rest, rfl, hw⟩ := List.eq_append_cons_of_mem hmem
      rw [linesOf_append_cons hw, List.length_cons, Nat.add_lt_add_iff_right] at h
      have hnext := ih (p := p ++ (w ++ [nl])) h
      have hsrc : p ++ (w ++ [nl]) ++ rest = p ++ (w ++ nl :: rest) := by simp
      rw [hsrc] at hnext
      rw [skipLines, index_append_cons p hw, linesOf_append_cons hw]
      simpa [Nat.add_assoc] using hnext
    · by_cases hs : s = []
      · simp [hs] at h
      · simp [linesOf_of_not_mem hmem hs] at h

/-- What follows the line of a position. -/
theorem drop_index (nl : α) (p s : List α) :
    (match index nl (p ++ s) p.length with
      | some markerEnd => (p ++ s).drop (markerEnd + 1)
      | none => []) = (linesOf nl s).tail.flatten := by
  by_cases h : nl ∈ s
  · obtain ⟨w, rest, rfl, hw⟩ := List.eq_append_cons_of_mem h
    have hsrc : p ++ (w ++ nl :: rest) = (p ++ (w ++ [nl])) ++ rest := by simp
    have hlen : p.length + w.length + 1 = (p ++ (w ++ [nl])).length := by simp [Nat.add_assoc]
    rw [index_append_cons p hw, linesOf_append_cons hw]
    simp only [hlen, hsrc, List.drop_left, List.tail_cons, flatten_linesOf]
  · rw [index_of_not_mem p h]
    by_cases hs : s = []
    · simp [hs]
    · simp [linesOf_of_not_mem h hs]

end Positions

/-- What `split_end_marker` returns, in lines of bytes. -/
theorem splitEndMarker_eq (enc : Encoding) {lex : Bytes → List Token} {src : Bytes} {line : Nat}
    (hline : endLine (lex src) = some line) (hlt : line - 1 < (linesOf newline src).length) :
    splitEndMarker enc lex src = (((linesOf newline src).take (line - 1)).flatten,
      some ((linesOf newline src).drop (line - 1)).tail.flatten) := by
  have hlines := map_flatten_linesOf (enc.words_chars src)
  rw [enc.flatten_chars] at hlines
  have hflat : ∀ ls : List (List Bytes), ls.flatten.flatten = (ls.map List.flatten).flatten :=
    fun ls => List.flatten_flatten
  have hlt' : line - 1 < (linesOf [newline] (enc.chars src)).length := by
    rw [← hlines, List.length_map] at hlt
    exact hlt
  have hpos := skipLines_append (p := []) hlt'
  rw [List.nil_append, List.nil_append, List.length_nil] at hpos
  have hsplit := take_append_drop_linesOf [newline] (enc.chars src) (line - 1)
  have hcode : (enc.chars src).take (skipLines [newline] (enc.chars src) (line - 1) 0) =
      ((linesOf [newline] (enc.chars src)).take (line - 1)).flatten := by
    rw [hpos]
    nth_rewrite 2 [← hsplit]
    exact List.take_left
  have hdata := drop_index [newline] ((linesOf [newline] (enc.chars src)).take (line - 1)).flatten
    ((linesOf [newline] (enc.chars src)).drop (line - 1)).flatten
  rw [hsplit, ← hpos, linesOf_drop] at hdata
  rw [splitEndMarker, hline]
  simp only [hcode, hdata, hflat, ← hlines, List.map_take, List.map_drop, List.map_tail]

/-- Where `DATA` begins. -/
theorem drop_dataOffset {lex : Bytes → List Token} {src : Bytes} {line : Nat}
    (hline : endLine (lex src) = some line) (hmarker : marker <:+: src) :
    ∃ offset, dataOffset lex src = some offset ∧ src.drop offset = ((linesOf newline src).drop line).flatten := by
  have hseek := seekLines_append newline line [] src
  rw [List.nil_append, List.nil_append, List.length_nil] at hseek
  have hsplit := take_append_drop_linesOf newline src line
  refine ⟨seekLines newline src line 0, by rw [dataOffset, if_pos (includes_iff.2 hmarker), hline]; rfl, ?_⟩
  rw [hseek]
  nth_rewrite 2 [← hsplit]
  exact List.drop_left

/-- A line of a text is part of it. -/
theorem infix_of_line {nl : UInt8} {src l : Bytes} (h : l ∈ linesOf nl src) : l <:+: src := by
  obtain ⟨ls, ls', hls⟩ := List.append_of_mem h
  rw [← flatten_linesOf nl src, hls]
  exact ⟨ls.flatten, ls'.flatten, by simp⟩

/-- The script that is run and the bundle have the same `DATA`, and the bundle's code is what stands before the line of
the marker. -/
theorem data_same (enc : Encoding) (lex lex' : Bytes → List Token) (src : Bytes) (line : Nat) (l : Bytes)
    (hline : endLine (lex src) = some line) (hline' : endLine (lex' src) = some line) (hpos : 1 ≤ line)
    (hl : (linesOf newline src)[line - 1]? = some l) (hmarker : marker <:+: l) :
    ∃ offset, dataOffset lex' src = some offset ∧
      splitEndMarker enc lex src = (((linesOf newline src).take (line - 1)).flatten, some (src.drop offset)) := by
  have hinfix := hmarker.trans (infix_of_line (List.mem_of_getElem? hl))
  obtain ⟨offset, hoffset, hdrop⟩ := drop_dataOffset hline' hinfix
  have hlt := (List.getElem?_eq_some_iff.1 hl).1
  refine ⟨offset, hoffset, ?_⟩
  rw [splitEndMarker_eq enc hline hlt, hdrop, List.tail_drop, Nat.sub_add_cancel hpos]

/-- A script of a multibyte character, a line that ends with a carriage return and a marker without a newline. -/
def script : Bytes := [195, 169, 13, 10, 95, 95, 69, 78, 68, 95, 95]

theorem data_same_script : ∃ offset, dataOffset (fun _ => [⟨2, true⟩]) script = some offset ∧
    splitEndMarker .utf8 (fun _ => [⟨2, true⟩]) script =
      (((linesOf newline script).take 1).flatten, some (script.drop offset)) := by
  have hmarker : marker <+: [95, 95, 69, 78, 68, 95, 95] := by decide +kernel
  exact data_same .utf8 _ _ script 2 [95, 95, 69, 78, 68, 95, 95] rfl rfl (by decide) (by decide) hmarker.isInfix

example : splitEndMarker .utf8 (fun _ => [⟨2, true⟩]) script = ([195, 169, 13, 10], some []) := by decide +kernel

end EndMarker

end Calisto

import Calisto.Wire.Text
import Mathlib.Data.List.Infix

/-!
# The encoding flag in the child

`apply_run_encoding` builds a piece of Ruby from the value of `-E` and evaluates it in the child, the value quoted by
`ruby_str_literal`.  Of Ruby, what is needed is how a double-quoted string is read: escapes with a backslash, and
`#{`, `#$` and `#@`, which begin an interpolation.
-/

namespace Calisto.Run

/-! ### The code -/

/-- An arm of the `match` of `ruby_str_literal`. -/
def quoteChar (c : Char) : Str :=
  if c = '"' then ['\\', '"']
  else if c = '\\' then ['\\', '\\']
  else if c = '\n' then ['\\', 'n']
  else if c = '\r' then ['\\', 'r']
  else if c = '\t' then ['\\', 't']
  else [c]

/-- `ruby_str_literal`. -/
def rubyStrLiteral (s : Str) : Str := '"' :: s.flatMap quoteChar ++ ['"']

/-- The two encodings of the flag. -/
def splitEncoding (enc : Str) : Str × Option Str :=
  match splitOnce ':' enc with
  | some (e, i) => (e, some i)
  | none => (enc, none)

def setExternal : Str := "Encoding.default_external = Encoding.find(".toList

def setInternal : Str := "\nEncoding.default_internal = Encoding.find(".toList

/-- The text that `apply_run_encoding` evaluates. -/
def encodingSnippet (enc : Str) : Str :=
  let snippet := setExternal ++ rubyStrLiteral (splitEncoding enc).1 ++ [')']
  match (splitEncoding enc).2 with
  | some i => snippet ++ (setInternal ++ rubyStrLiteral i ++ [')'])
  | none => snippet

/-! ### Ruby's reading -/

/-- What a double-quoted string is read as: a value and the text after it, code to run, or no string. -/
inductive Lexed
  | plain (value rest : Str)
  | interpolation
  | broken
  deriving DecidableEq

/-- One more character in front of the value. -/
def Lexed.push (c : Char) : Lexed → Lexed
  | .plain value rest => .plain (c :: value) rest
  | x => x

/-- The escapes of one character; those with digits, controls and line breaks are left out. -/
def unescape (c : Char) : Option Char :=
  if c = 'n' then some '\n'
  else if c = 'r' then some '\r'
  else if c = 't' then some '\t'
  else if c = 's' then some ' '
  else if c = 'a' then some (Char.ofNat 7)
  else if c = 'b' then some (Char.ofNat 8)
  else if c = 'v' then some (Char.ofNat 11)
  else if c = 'f' then some (Char.ofNat 12)
  else if c = 'e' then some (Char.ofNat 27)
  else if c ∈ ['u', 'x', 'c', 'C', 'M', '\n', '\r'] ∨ c.isDigit then none
  else some c

/-- Does a `#` before the text begin an interpolation? -/
def opensCode (rest : Str) : Bool := rest.head?.any (· ∈ ['{', '$', '@'])

/-- The text after an opening quote. -/
def lexBody : Str → Lexed
  | [] => .broken
  | c :: rest =>
    if c = '"' then .plain [] rest
    else if c = '\\' then
      match rest with
      | [] => .broken
      | e :: rest => match unescape e with
        | some x => (lexBody rest).push x
        | none => .broken
    else if c = '#' ∧ opensCode rest then .interpolation
    else (lexBody rest).push c

/-- A double-quoted string at the head of the text. -/
def lexLiteral : Str → Lexed
  | [] => .broken
  | c :: rest => if c = '"' then lexBody rest else .broken

/-- `lhs(literal)` at the head of the text, the literal's value and the rest. -/
def readAssign (lhs text : Str) : Option (Str × Str) :=
  match (stripPrefix lhs text).map lexLiteral with
  | some (.plain value (')' :: rest)) => some (value, rest)
  | _ => none

/-- The two assignments that a snippet is meant to be, and nothing else. -/
def readSnippet (text : Str) : Option (Str × Option Str) :=
  match readAssign setExternal text with
  | none => none
  | some (ext, rest) =>
    if rest = [] then some (ext, none)
    else match readAssign setInternal rest with
      | some (int, []) => some (ext, some int)
      | _ => none

/-! ### Reading a quoted string -/

/-- `#{`, `#$` or `#@` in the string. -/
def Interpolates (s : Str) : Prop := ∃ c ∈ ['{', '$', '@'], ['#', c] <:+: s

theorem interpolates_cons (c : Char) (s : Str) : Interpolates (c :: s) ↔ c = '#' ∧ opensCode s ∨ Interpolates s := by
  unfold Interpolates opensCode
  constructor
  · rintro ⟨d, hd, h⟩
    rcases List.infix_cons_iff.1 h with h | h
    · obtain ⟨rfl, hs⟩ := List.cons_prefix_cons.1 h
      obtain ⟨t, rfl⟩ := hs
      exact .inl ⟨rfl, by simpa using hd⟩
    · exact .inr ⟨d, hd, h⟩
  · rintro (⟨rfl, h⟩ | ⟨d, hd, h⟩)
    · obtain ⟨d, hhead, hd⟩ := (Option.any_eq_true _ _).1 h
      obtain ⟨t, rfl⟩ := List.head?_eq_some_iff.1 hhead
      exact ⟨d, by simpa using hd, [], t, rfl⟩
    · exact ⟨d, hd, List.infix_cons h⟩

/-- Of a character that is not quoted by a backslash, the quoted text is the character. -/
theorem quoteChar_cases (c : Char) :
    (∃ e, quoteChar c = ['\\', e] ∧ unescape e = some c ∧ c ∉ ['#', '{', '$', '@']) ∨
      quoteChar c = [c] ∧ c ≠ '"' ∧ c ≠ '\\' := by
  unfold quoteChar
  by_cases hquote : c = '"'
  · subst hquote
    exact .inl ⟨'"', by decide, by decide, by decide⟩
  by_cases hback : c = '\\'
  · subst hback
    exact .inl ⟨'\\', by decide, by decide, by decide⟩
  by_cases hn : c = '\n'
  · subst hn
    exact .inl ⟨'n', by decide, by decide, by decide⟩
  by_cases hr : c = '\r'
  · subst hr
    exact .inl ⟨'r', by decide, by decide, by decide⟩
  by_cases ht : c = '\t'
  · subst ht
    exact .inl ⟨'t', by decide, by decide, by decide⟩
  · exact .inr ⟨by simp [hquote, hback, hn, hr, ht], hquote, hback⟩

/-- Quoting keeps what follows a `#`. -/
theorem opensCode_quoted (s t : Str) : opensCode (s.flatMap quoteChar ++ '"' :: t) = opensCode s := by
  unfold opensCode
  cases s with
  | nil => simp
  | cons c s =>
    rcases quoteChar_cases c with ⟨e, hq, -, hc⟩ | ⟨hq, -⟩
    · rw [List.flatMap_cons, hq]
      simp only [List.mem_cons, not_or] at hc
      simp [hc]
    · rw [List.flatMap_cons, hq]
      simp

private theorem lexBody_quoteChar (c : Char) (rest : Str) :
    lexBody (quoteChar c ++ rest) = if c = '#' ∧ opensCode rest then .interpolation else (lexBody rest).push c := by
  rcases quoteChar_cases c with ⟨e, hq, he, hc⟩ | ⟨hq, hquote, hback⟩
  · have hne : c ≠ '#' := by
      rintro rfl
      exact hc List.mem_cons_self
    rw [hq]
    simp [lexBody, he, hne]
  · rw [hq, List.singleton_append, lexBody.eq_def]
    simp [hquote, hback]

/-- A quoted string is read back whole, unless an interpolation in it is come upon. -/
theorem lexBody_quoted (s t : Str) :
    Interpolates s ∧ lexBody (s.flatMap quoteChar ++ '"' :: t) = .interpolation ∨
      ¬Interpolates s ∧ lexBody (s.flatMap quoteChar ++ '"' :: t) = .plain s t := by
  induction s with
  | nil =>
    refine .inr ⟨?_, by simp [lexBody.eq_def]⟩
    rintro ⟨c, -, h⟩
    simp at h
  | cons c s ih =>
    rw [List.flatMap_cons, List.append_assoc, lexBody_quoteChar, opensCode_quoted, interpolates_cons]
    by_cases hc : c = '#' ∧ opensCode s
    · exact .inl ⟨.inl hc, if_pos hc⟩
    · rw [if_neg hc]
      rcases ih with ⟨hs, hlex⟩ | ⟨hs, hlex⟩
      · exact .inl ⟨.inr hs, by rw [hlex]; rfl⟩
      · refine .inr ⟨?_, by rw [hlex, Lexed.push]⟩
        rintro (h | h)
        · exact hc h
        · exact hs h

private theorem lexLiteral_quoted (s t : Str) :
    lexLiteral (rubyStrLiteral s ++ t) = lexBody (s.flatMap quoteChar ++ '"' :: t) := by
  simp [rubyStrLiteral, lexLiteral]

/-- A literal is read back with its value exactly when no interpolation is in it. -/
theorem ruby_str_literal_faithful (s : Str) : lexLiteral (rubyStrLiteral s) = .plain s [] ↔ ¬Interpolates s := by
  rw [← List.append_nil (rubyStrLiteral s), lexLiteral_quoted]
  rcases lexBody_quoted s [] with ⟨hs, hlex⟩ | ⟨hs, hlex⟩
  · rw [hlex]
    exact iff_of_false (by simp) (not_not_intro hs)
  · exact iff_of_true hlex hs

/-! ### The snippet -/

private theorem readAssign_literal (lhs s t : Str) :
    readAssign lhs (lhs ++ rubyStrLiteral s ++ ')' :: t) = some (s, t) ∧ ¬Interpolates s ∨
      readAssign lhs (lhs ++ rubyStrLiteral s ++ ')' :: t) = none ∧ Interpolates s := by
  unfold readAssign
  rw [List.append_assoc, stripPrefix_append, Option.map_some, lexLiteral_quoted]
  rcases lexBody_quoted s (')' :: t) with ⟨hs, hlex⟩ | ⟨hs, hlex⟩
  · rw [hlex]
    exact .inr ⟨rfl, hs⟩
  · rw [hlex]
    exact .inl ⟨rfl, hs⟩

/-- A colon belongs to no interpolation. -/
theorem interpolates_colon (s t : Str) : Interpolates (s ++ ':' :: t) ↔ Interpolates s ∨ Interpolates t := by
  have hnil : ¬Interpolates [] := by
    rintro ⟨c, -, h⟩
    simp at h
  induction s with
  | nil => simp [interpolates_cons, hnil]
  | cons c s ih =>
    have hopens : opensCode (s ++ ':' :: t) = opensCode s := by
      unfold opensCode
      cases s <;> simp
    rw [List.cons_append, interpolates_cons, interpolates_cons, hopens, or_assoc]
    exact or_congr_right ih

private theorem interpolates_splitEncoding (enc : Str) :
    Interpolates enc ↔ Interpolates (splitEncoding enc).1 ∨ ∃ i ∈ (splitEncoding enc).2, Interpolates i := by
  unfold splitEncoding
  cases hsplit : splitOnce ':' enc with
  | none => simp
  | some p =>
    obtain ⟨e, i⟩ := p
    obtain ⟨rfl, -⟩ := splitOnce_eq_some hsplit
    rw [interpolates_colon]
    simp

/-- The literal of a string is read as one literal of that value, and the snippet of an encoding as its assignments,
exactly when the string has no interpolation. -/
theorem ruby_str_literal_faithful_iff (s enc : Str) :
    (lexLiteral (rubyStrLiteral s) = .plain s [] ↔ ¬Interpolates s) ∧
      (readSnippet (encodingSnippet enc) = some (splitEncoding enc) ↔ ¬Interpolates enc) := by
  refine ⟨ruby_str_literal_faithful s, ?_⟩
  rw [interpolates_splitEncoding]
  unfold encodingSnippet readSnippet
  generalize splitEncoding enc = p
  obtain ⟨ext, int⟩ := p
  cases int with
  | none =>
    dsimp only
    rcases readAssign_literal setExternal ext [] with ⟨hread, hs⟩ | ⟨hread, hs⟩
    · rw [hread]
      simp [hs]
    · rw [hread]
      simp [hs]
  | some i =>
    have happ : setExternal ++ rubyStrLiteral ext ++ [')'] ++ (setInternal ++ rubyStrLiteral i ++ [')']) =
        setExternal ++ rubyStrLiteral ext ++ ')' :: (setInternal ++ rubyStrLiteral i ++ [')']) := by
      simp
    have hne : setInternal ++ rubyStrLiteral i ++ [')'] ≠ [] := by simp
    dsimp only
    rw [happ]
    rcases readAssign_literal setExternal ext (setInternal ++ rubyStrLiteral i ++ [')']) with ⟨hread, hs⟩ | ⟨hread, hs⟩
    · rw [hread]
      dsimp only
      rw [if_neg hne]
      rcases readAssign_literal setInternal i [] with ⟨hread', hs'⟩ | ⟨hread', hs'⟩
      · rw [hread']
        simp [hs, hs']
      · rw [hread']
        simp [hs']
    · rw [hread]
      simp [hs]

/-- `-E '#{exit}'` runs code in the child. -/
theorem ruby_str_literal_interpolates : ¬∀ s : Str, lexLiteral (rubyStrLiteral s) = .plain s [] := by
  intro h
  have hplain : ¬Interpolates "#\x7bexit\x7d".toList := (ruby_str_literal_faithful "#\x7bexit\x7d".toList).1 (h _)
  exact hplain ⟨'{', by simp, [], "exit\x7d".toList, rfl⟩

end Calisto.Run

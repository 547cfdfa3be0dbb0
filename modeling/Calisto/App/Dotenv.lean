import Calisto.App.Lines

/-!
# `.env`

`load_dotenv` reads the first `.env` from the working directory upwards into the environment, without touching what is
set.  The environment maps names to values, both bytes.
-/

namespace Calisto.App

open Function
open Calisto.Runtime (Path findInParentsFrom trim isWhitespace)

/-! ### The code -/

abbrev Env := Bytes → Option Bytes

/-- What `load_dotenv` sees of the file system; `readToString` fails on what is not UTF-8, too. -/
structure Files where
  currentDir : Option Path
  isFile : Path → Bool
  readToString : Path → Option Str

/-- `env::var_os`. -/
def varOs (env : Env) (k : Str) : Option Bytes := if nul ∈ k then none else env (utf8 k)

/-- `env::set_var`, which panics on names and values that the environment cannot have. -/
def setVar (env : Env) (k v : Str) : Option Env :=
  if k = [] ∨ '=' ∈ k ∨ nul ∈ k ∨ nul ∈ v then none else some (update env (utf8 k) (some (utf8 v)))

/-- A value without the quotes around it; the first byte is looked at as a character. -/
def unquote (v : Str) : Str :=
  match utf8 v with
  | b :: _ :: _ =>
    let q := Char.ofNat b.toNat
    if (q = '"' ∨ q = '\'') ∧ v.getLast? = some q then v.tail.dropLast else v
  | _ => v

/-- The body of the loop of `load_dotenv`. -/
def loadLine (env : Env) (raw : Str) : Option Env :=
  let line := trim raw
  if line = [] ∨ line.head? = some '#' then some env
  else
    let line := trim ((stripPrefix "export ".toList line).getD line)
    match splitOnce '=' line with
    | none => some env
    | some (k, v) =>
      let k := trim k
      if k = [] ∨ (varOs env k).isSome then some env
      else setVar env k (unquote (trim v))

/-- `find_in_parents`. -/
def Files.findInParents (fs : Files) (name : Str) : Option Path :=
  fs.currentDir.bind (findInParentsFrom fs.isFile name)

/-- `load_dotenv`, `none` when it panics. -/
def loadDotenv (fs : Files) (env : Env) : Option Env :=
  match (fs.findInParents ".env".toList).bind fs.readToString with
  | none => some env
  | some content => (lines content).foldlM loadLine env

/-! ### Files of quoted values -/

/-- Letters, digits and underscores. -/
def IsIdentifier (k : Str) : Prop := k ≠ [] ∧ ∀ c ∈ k, c.isAlphanum ∨ c = '_'

/-- A line of such a file: a comment or a blank line, or a variable. -/
inductive EnvLine
  | other (text : Str)
  | var (exported : Bool) (k v : Str)

def EnvLine.Valid : EnvLine → Prop
  | .other text => '\n' ∉ text ∧ (trim text = [] ∨ (trim text).head? = some '#')
  | .var _ k v => IsIdentifier k ∧ '\n' ∉ v ∧ nul ∉ v

def EnvLine.text : EnvLine → Str
  | .other text => text
  | .var exported k v => (if exported then "export ".toList else []) ++ k ++ ['=', '"'] ++ v ++ ['"']

/-- The text of the file, the last line with a newline or without. -/
def dotenvText (newline : Bool) (ls : List EnvLine) : Str := unlines newline (ls.map EnvLine.text)

/-- The value of the name's first line. -/
def firstValue (ls : List EnvLine) (k : Str) : Option Str :=
  ls.findSome? fun
    | .other _ => none
    | .var _ name v => if name = k then some v else none

/-! ### One line -/

/-- What a character of an identifier is not. -/
theorem IsIdentifier.ne {k : Str} (h : IsIdentifier k) {c : Char} (hc : c ∈ k) :
    ¬isWhitespace c ∧ c ≠ '=' ∧ c ≠ '#' ∧ c ≠ nul ∧ c ≠ '\n' := by
  have hascii : ∀ n < 128, (Char.ofNat n).isAlphanum ∨ Char.ofNat n = '_' → ¬isWhitespace (Char.ofNat n) ∧
      Char.ofNat n ≠ '=' ∧ Char.ofNat n ≠ '#' ∧ Char.ofNat n ≠ nul ∧ Char.ofNat n ≠ '\n' := by
    decide +kernel
  have hlt : c.toNat < 128 := by
    rcases h.2 c hc with halnum | rfl
    · delta Char.isAlphanum Char.isAlpha Char.isUpper Char.isLower Char.isDigit at halnum
      simp only [Bool.or_eq_true, Bool.and_eq_true, decide_eq_true_eq, ge_iff_le, UInt32.le_iff_toNat_le] at halnum
      have h90 : ('Z' : Char).val.toNat = 90 := rfl
      have h122 : ('z' : Char).val.toNat = 122 := rfl
      have h57 : ('9' : Char).val.toNat = 57 := rfl
      rw [h90, h122, h57] at halnum
      show c.val.toNat < 128
      omega
    · decide
  have hc' := h.2 c hc
  rw [← Char.ofNat_toNat c] at hc' ⊢
  exact hascii _ hlt hc'

private theorem IsIdentifier.not_mem_nul {k : Str} (h : IsIdentifier k) : nul ∉ k := fun hc => (h.ne hc).2.2.2.1 rfl

private theorem IsIdentifier.not_mem_eq {k : Str} (h : IsIdentifier k) : '=' ∉ k := fun hc => (h.ne hc).2.1 rfl

theorem IsIdentifier.trimmed {k : Str} (h : IsIdentifier k) : Trimmed k :=
  ⟨fun _ hc => (h.ne (List.mem_of_head? hc)).1, fun _ hc => (h.ne (List.mem_of_getLast? hc)).1⟩

/-- A quote on each side is taken away, whatever stands between them. -/
theorem unquote_quoted (v : Str) : unquote ('"' :: v ++ ['"']) = v := by
  have hquote : String.utf8EncodeChar '"' = [34] := by decide
  have hbytes : ∃ b bs, utf8 ('"' :: v ++ ['"']) = 34 :: b :: bs := by
    obtain ⟨b, bs, hb⟩ : ∃ b bs, utf8 (v ++ ['"']) = b :: bs := by
      refine List.exists_cons_of_ne_nil ?_
      rw [utf8_append, utf8_cons, hquote]
      simp
    exact ⟨b, bs, by rw [List.cons_append, utf8_cons, hquote, hb]; rfl⟩
  obtain ⟨b, bs, hbytes⟩ := hbytes
  have hchar : Char.ofNat (34 : UInt8).toNat = '"' := by decide
  unfold unquote
  rw [hbytes]
  dsimp only
  rw [hchar, if_pos ⟨.inl rfl, List.getLast?_concat⟩]
  simp

private theorem trimmed_assignment {k : Str} (h : IsIdentifier k) (v : Str) :
    Trimmed (k ++ '=' :: ('"' :: v ++ ['"'])) := by
  obtain ⟨c, k, rfl⟩ := List.exists_cons_of_ne_nil h.1
  have hform : c :: k ++ '=' :: ('"' :: v ++ ['"']) = c :: (k ++ '=' :: '"' :: v) ++ ['"'] := by simp
  rw [hform]
  exact .of_ends (h.ne List.mem_cons_self).1 (by decide) _

/-- An assignment is not taken for one after `export `. -/
theorem stripPrefix_export_assignment {k : Str} (h : IsIdentifier k) (t : Str) :
    stripPrefix "export ".toList (k ++ '=' :: t) = none := by
  have hspace : ' ' ∉ k := fun hmem => (h.ne hmem).1 (by decide)
  by_contra hne
  obtain ⟨rest, hrest⟩ := Option.ne_none_iff_exists'.1 hne
  have heq := stripPrefix_eq_some hrest
  rcases List.append_eq_append_iff.1 heq with ⟨x, hx, hy⟩ | ⟨x, hx, -⟩
  · cases x with
    | nil =>
      rw [List.append_nil] at hx
      exact hspace (by rw [← hx]; decide)
    | cons d x =>
      have hd : d = '=' := (List.cons.inj hy).1.symm
      have hmem : '=' ∈ "export ".toList := by
        rw [hx, hd]
        exact List.mem_append_right _ List.mem_cons_self
      exact absurd hmem (by decide)
  · exact hspace (by rw [hx]; exact List.mem_append_left _ (by decide))

/-- What an assignment does, with nothing or `export ` before it. -/
theorem loadLine_assignment (env : Env) {k v before : Str} (h : IsIdentifier k) (hv : nul ∉ v)
    (hbefore : before = [] ∨ before = "export ".toList) :
    loadLine env (before ++ (k ++ '=' :: ('"' :: v ++ ['"']))) =
      some (if (env (utf8 k)).isSome then env else update env (utf8 k) (some (utf8 v))) := by
  have hassign := trimmed_assignment h v
  have hline : Trimmed (before ++ (k ++ '=' :: ('"' :: v ++ ['"']))) ∧
      (before ++ (k ++ '=' :: ('"' :: v ++ ['"']))).head? ≠ some '#' := by
    obtain ⟨c, k', rfl⟩ := List.exists_cons_of_ne_nil h.1
    have hc := h.ne (c := c) List.mem_cons_self
    rcases hbefore with rfl | rfl
    · exact ⟨hassign, by simpa using hc.2.2.1⟩
    · have hform : "export ".toList ++ (c :: k' ++ '=' :: ('"' :: v ++ ['"'])) =
          'e' :: ("xport ".toList ++ (c :: k' ++ '=' :: '"' :: v)) ++ ['"'] := by
        simp
      rw [hform]
      exact ⟨.of_ends (by decide) (by decide) _, by simp⟩
  have hne : before ++ (k ++ '=' :: ('"' :: v ++ ['"'])) ≠ [] := by simp
  have hstrip : (stripPrefix "export ".toList (before ++ (k ++ '=' :: ('"' :: v ++ ['"'])))).getD
      (before ++ (k ++ '=' :: ('"' :: v ++ ['"']))) = k ++ '=' :: ('"' :: v ++ ['"']) := by
    rcases hbefore with rfl | rfl
    · rw [List.nil_append, stripPrefix_export_assignment h]
      rfl
    · rw [stripPrefix_append]
      rfl
  unfold loadLine
  simp only [trim_of_trimmed hline.1, hne, hline.2, or_self, ↓reduceIte, hstrip, trim_of_trimmed hassign,
    splitOnce_append h.not_mem_eq, trim_of_trimmed h.trimmed,
    trim_of_trimmed (.of_ends (by decide) (by decide) v : Trimmed ('"' :: v ++ ['"'])), unquote_quoted]
  unfold varOs setVar
  simp only [h.not_mem_nul, h.1, h.not_mem_eq, hv, ↓reduceIte, false_or, or_self]
  split <;> rfl

/-! ### The whole file -/

/-- The environment after a line. -/
def EnvLine.apply (env : Env) : EnvLine → Env
  | .other _ => env
  | .var _ k v => if (env (utf8 k)).isSome then env else update env (utf8 k) (some (utf8 v))

private theorem newline_not_mem_text {l : EnvLine} (h : l.Valid) : '\n' ∉ l.text := by
  cases l with
  | other text => exact h.1
  | var exported k v =>
    obtain ⟨hk, hv, -⟩ := h
    have hname : '\n' ∉ k := fun hc => (hk.ne hc).2.2.2.2 rfl
    cases exported <;> simp [EnvLine.text, hname, hv]

private theorem loadLine_valid (env : Env) {l : EnvLine} (h : l.Valid) :
    loadLine env l.text = some (l.apply env) ∧ loadLine env (chopCr l.text) = some (l.apply env) := by
  cases l with
  | other text =>
    have hskip : ∀ raw, trim raw = trim text → loadLine env raw = some env := by
      intro raw hraw
      unfold loadLine
      rw [hraw, if_pos h.2]
    exact ⟨hskip text rfl, hskip _ (trim_chopCr text)⟩
  | var exported k v =>
    obtain ⟨hk, -, hv⟩ := h
    have htext : ∃ before, (before = [] ∨ before = "export ".toList) ∧
        (EnvLine.var exported k v).text = before ++ (k ++ '=' :: ('"' :: v ++ ['"'])) := by
      cases exported
      · exact ⟨[], .inl rfl, by simp [EnvLine.text]⟩
      · exact ⟨"export ".toList, .inr rfl, by simp [EnvLine.text]⟩
    obtain ⟨before, hbefore, htext⟩ := htext
    have hchop : chopCr (EnvLine.var exported k v).text = (EnvLine.var exported k v).text := by
      refine chopCr_of_ne ?_
      rw [EnvLine.text, List.getLast?_concat]
      simp
    rw [hchop, htext]
    exact ⟨loadLine_assignment env hk hv hbefore, loadLine_assignment env hk hv hbefore⟩

/-- The loop runs over the lines that the file is made of. -/
theorem foldlM_dotenvText (newline : Bool) {ls : List EnvLine} (h : ∀ l ∈ ls, l.Valid) (env : Env) :
    (lines (dotenvText newline ls)).foldlM loadLine env = some (ls.foldl EnvLine.apply env) := by
  unfold dotenvText
  induction ls generalizing env with
  | nil =>
    rw [List.map_nil, unlines, lines_nil]
    rfl
  | cons l ls ih =>
    have hl := h l List.mem_cons_self
    obtain ⟨hload, hchop⟩ := loadLine_valid env hl
    rw [List.map_cons, unlines]
    split
    · rename_i hlast
      obtain rfl := List.map_eq_nil_iff.1 hlast.1
      by_cases hempty : l.text = []
      · have hsame : l.apply env = env := by
          cases l with
          | other => rfl
          | var exported k v => exact absurd hempty (List.append_ne_nil_of_right_ne_nil _ (List.cons_ne_nil _ _))
        rw [hempty, lines_nil, List.foldl_cons, hsame]
        rfl
      · rw [lines_of_not_mem (newline_not_mem_text hl) hempty]
        rw [List.foldlM_cons, hload]
        rfl
    · rw [lines_append (newline_not_mem_text hl), List.foldlM_cons, hchop]
      exact ih (fun l hm => h l (List.mem_cons_of_mem _ hm)) _

/-- The value that a line gives to a name, in bytes. -/
def EnvLine.entry (x : Bytes) : EnvLine → Option Bytes
  | .other _ => none
  | .var _ k v => if utf8 k = x then some (utf8 v) else none

private theorem apply_eq (env : Env) (l : EnvLine) (x : Bytes) : l.apply env x = (env x).or (l.entry x) := by
  cases l with
  | other => simp [EnvLine.apply, EnvLine.entry]
  | var exported k v =>
    simp only [EnvLine.apply, EnvLine.entry]
    by_cases hset : (env (utf8 k)).isSome
    · rw [if_pos hset]
      split
      · rename_i hx
        obtain ⟨y, hy⟩ := Option.isSome_iff_exists.1 (hx ▸ hset)
        rw [hy]
        rfl
      · rw [Option.or_none]
    · rw [if_neg hset]
      split
      · rename_i hx
        subst hx
        rw [update_self, Option.not_isSome_iff_eq_none.1 hset]
        rfl
      · rename_i hx
        rw [update_of_ne (Ne.symm hx), Option.or_none]

/-- After the lines, a name has the value that it had, or else that of its first line. -/
theorem foldl_apply (ls : List EnvLine) (env : Env) (x : Bytes) :
    ls.foldl EnvLine.apply env x = (env x).or (ls.findSome? (EnvLine.entry x)) := by
  induction ls generalizing env with
  | nil => simp
  | cons l ls ih =>
    rw [List.foldl_cons, ih, apply_eq, Option.or_assoc, List.findSome?_cons]
    cases l.entry x <;> rfl

private theorem findSome_entry (ls : List EnvLine) (k : Str) :
    ls.findSome? (EnvLine.entry (utf8 k)) = (firstValue ls k).map utf8 := by
  induction ls with
  | nil => rfl
  | cons l ls ih =>
    unfold firstValue at *
    rw [List.findSome?_cons, List.findSome?_cons, ih]
    cases l with
    | other => rfl
    | var exported name v =>
      by_cases hname : name = k
      · subst hname
        simp [EnvLine.entry]
      · have hne : utf8 name ≠ utf8 k := fun h => hname (utf8_inj h)
        simp [EnvLine.entry, hname, hne]

/-- A name whose bytes are no name of the file has no line. -/
theorem findSome_entry_eq_none {ls : List EnvLine} {x : Bytes} (h : ∀ k, utf8 k = x → firstValue ls k = none) :
    ls.findSome? (EnvLine.entry x) = none := by
  by_cases hx : ∃ k, utf8 k = x
  · obtain ⟨k, rfl⟩ := hx
    rw [findSome_entry, h k rfl]
    rfl
  · refine List.findSome?_eq_none_iff.2 fun l _ => ?_
    cases l with
    | other => rfl
    | var exported k v => exact if_neg fun hk => hx ⟨k, hk⟩

/-- A file of comments, blank lines and quoted values sets what is not set to the value of its first line, changes
nothing else, and a second time changes nothing. -/
theorem load_dotenv_exact (fs : Files) (env : Env) (newline : Bool) (ls : List EnvLine) (hvalid : ∀ l ∈ ls, l.Valid)
    (hfile : (fs.findInParents ".env".toList).bind fs.readToString = some (dotenvText newline ls)) :
    ∃ env', loadDotenv fs env = some env' ∧
      (∀ x, (env x).isSome → env' x = env x) ∧
      (∀ k v, firstValue ls k = some v → env (utf8 k) = none → env' (utf8 k) = some (utf8 v)) ∧
      (∀ x, (∀ k, utf8 k = x → firstValue ls k = none) → env' x = env x) ∧
      loadDotenv fs env' = some env' := by
  have hload : ∀ env, loadDotenv fs env = some (ls.foldl EnvLine.apply env) := by
    intro env
    unfold loadDotenv
    rw [hfile]
    exact foldlM_dotenvText newline hvalid env
  refine ⟨ls.foldl EnvLine.apply env, hload env, ?_, ?_, ?_, ?_⟩
  · intro x hx
    obtain ⟨y, hy⟩ := Option.isSome_iff_exists.1 hx
    rw [foldl_apply, hy]
    rfl
  · intro k v hv henv
    rw [foldl_apply, henv, findSome_entry, hv]
    rfl
  · intro x hx
    rw [foldl_apply, findSome_entry_eq_none hx, Option.or_none]
  · rw [hload]
    congr 1
    funext x
    rw [foldl_apply, foldl_apply, Option.or_assoc, Option.or_self]

/-- A comment and `export A="x=#"` in a `.env` of the working directory. -/
def sampleEnv : List EnvLine := [.other ['#'], .var true ['A'] "x=#".toList]

def sampleFiles : Files where
  currentDir := some []
  isFile p := p = [".env".toList]
  readToString _ := some (dotenvText true sampleEnv)

theorem load_dotenv_exact_sample :
    ∃ env', loadDotenv sampleFiles (fun _ => none) = some env' ∧ env' (utf8 ['A']) = some (utf8 "x=#".toList) := by
  have hother : EnvLine.Valid (.other ['#']) := by
    constructor
    · decide
    · decide
  have hvar : EnvLine.Valid (.var true ['A'] "x=#".toList) := by
    refine ⟨⟨by decide, ?_⟩, by decide, by decide⟩
    intro c hc
    rw [List.mem_singleton.1 hc]
    decide
  have hvalid : ∀ l ∈ sampleEnv, l.Valid := by
    intro l hl
    rcases List.mem_cons.1 hl with rfl | hl
    · exact hother
    · rw [List.mem_singleton.1 hl]
      exact hvar
  obtain ⟨env', hload, -, hset, -⟩ := load_dotenv_exact sampleFiles (fun _ => none) true sampleEnv hvalid rfl
  exact ⟨env', hload, hset ['A'] _ rfl rfl⟩

end Calisto.App

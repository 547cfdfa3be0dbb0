import Calisto.Lib.Split
import Calisto.Wire.Text

/-!
# The ruby flags of a run

`RunFlags`, their text form (`blob`, the segments joined by U+001F) and its parser.  The parser gives the flags back
exactly when no value contains the separator (`parse_blob_iff`), for the flags that `cmd_run` can build.
-/

namespace Calisto.Run

/-- U+001F, between the segments of a flag blob. -/
def unitSep : Char := Char.ofNat 0x1f

structure RunFlags where
  loadPaths : List Str
  requires : List Str
  /-- `-1` for `-w`, `0`, `1` and `2` for `-W0`, `-W1` and `-W2` -/
  verbose : Option Int
  syntaxCheck : Bool
  encoding : Option Str
  deriving DecidableEq

/-- `RunFlags::default()`. -/
def RunFlags.default : RunFlags :=
  { loadPaths := [], requires := [], verbose := none, syntaxCheck := false, encoding := none }

def RunFlags.any (f : RunFlags) : Bool :=
  f.loadPaths ≠ [] || f.requires ≠ [] || f.verbose.isSome || f.syntaxCheck || f.encoding.isSome

/-- The `{}` of an `i8`. -/
def displayI8 (n : Int) : Str := if n < 0 then '-' :: decimal n.natAbs else decimal n.natAbs

/-- `str::parse::<i8>`, `none` for every error. -/
def parseI8 (s : Str) : Option Int :=
  let (neg, digits) := match s with
    | '-' :: c :: cs => (true, c :: cs)
    | '+' :: c :: cs => (false, c :: cs)
    | _ => (false, s)
  if digits ≠ [] ∧ digits.all Char.isDigit then
    let n : Int := Nat.ofDigitChars 10 digits 0
    let n := if neg then -n else n
    if -128 ≤ n ∧ n ≤ 127 then some n else none
  else none

def verbosePart : Option Int → List Str
  | some n => if n = -1 then ["w".toList] else ["W:".toList ++ displayI8 n]
  | none => []

def encodingPart : Option Str → List Str
  | some e => ["E:".toList ++ e]
  | none => []

/-- The segments of `blob`. -/
def RunFlags.parts (f : RunFlags) : List Str :=
  f.loadPaths.map ("I:".toList ++ ·) ++ f.requires.map ("r:".toList ++ ·) ++ verbosePart f.verbose ++
    (if f.syntaxCheck then ["c".toList] else []) ++ encodingPart f.encoding

def RunFlags.blob (f : RunFlags) : Str := [unitSep].intercalate f.parts

/-- One turn of the loop of `RunFlags::parse`. -/
def RunFlags.parseSeg (f : RunFlags) (seg : Str) : RunFlags :=
  match stripPrefix "I:".toList seg with
  | some v => { f with loadPaths := f.loadPaths ++ [v] }
  | none => match stripPrefix "r:".toList seg with
    | some v => { f with requires := f.requires ++ [v] }
    | none =>
      if seg = "w".toList then { f with verbose := some (-1) }
      else match stripPrefix "W:".toList seg with
        | some v => match parseI8 v with
          | some n => if 0 ≤ n ∧ n ≤ 2 then { f with verbose := some n } else f
          | none => f
        | none =>
          if seg = "c".toList then { f with syntaxCheck := true }
          else match stripPrefix "E:".toList seg with
            | some v => { f with encoding := some v }
            | none => f

def RunFlags.parse (blob : Str) : RunFlags := (blob.splitOn unitSep).foldl RunFlags.parseSeg .default

/-! ### The strings in the flags -/

/-- The strings that a value of the flags holds. -/
def RunFlags.values (f : RunFlags) : List Str := f.loadPaths ++ f.requires ++ f.encoding.toList

/-- `verbose` is one of the values that a flag of `cmd_run` sets. -/
def RunFlags.Built (f : RunFlags) : Prop := ∀ n ∈ f.verbose, -1 ≤ n ∧ n ≤ 2

theorem eq_default_of_not_any {f : RunFlags} (h : f.any = false) : f = .default := by
  obtain ⟨loadPaths, requires, verbose, syntaxCheck, encoding⟩ := f
  simpa [RunFlags.any, RunFlags.default, and_assoc] using h

/-- A segment adds no string but a part of itself. -/
theorem mem_values_parseSeg {f : RunFlags} {seg v : Str} (h : v ∈ (f.parseSeg seg).values) :
    v ∈ f.values ∨ ∃ p, seg = p ++ v := by
  unfold RunFlags.parseSeg at h
  split at h
  · rename_i w hw
    have : v ∈ f.values ∨ v = w := by
      simp only [RunFlags.values, List.mem_append, List.mem_singleton] at h ⊢
      tauto
    exact this.imp_right fun hv => ⟨_, by rw [hv]; exact stripPrefix_eq_some hw⟩
  · split at h
    · rename_i w hw
      have : v ∈ f.values ∨ v = w := by
        simp only [RunFlags.values, List.mem_append, List.mem_singleton] at h ⊢
        tauto
      exact this.imp_right fun hv => ⟨_, by rw [hv]; exact stripPrefix_eq_some hw⟩
    · split at h
      · exact .inl h
      · split at h
        · split at h
          · split at h <;> exact .inl h
          · exact .inl h
        · split at h
          · exact .inl h
          · split at h
            · rename_i w hw
              have : v ∈ f.values ∨ v = w := by
                simp only [RunFlags.values, List.mem_append, Option.mem_toList,
                  Option.some.injEq] at h ⊢
                tauto
              exact this.imp_right fun hv => ⟨_, by rw [hv]; exact stripPrefix_eq_some hw⟩
            · exact .inl h

theorem mem_values_foldl {segs : List Str} {f : RunFlags} {v : Str} (h : v ∈ (segs.foldl RunFlags.parseSeg f).values) :
    v ∈ f.values ∨ ∃ seg ∈ segs, ∃ p, seg = p ++ v := by
  induction segs generalizing f with
  | nil => exact .inl h
  | cons seg segs ih =>
    rcases ih h with hv | ⟨seg', hseg, hp⟩
    · exact (mem_values_parseSeg hv).imp_right fun hp => ⟨seg, List.mem_cons_self, hp⟩
    · exact .inr ⟨seg', List.mem_cons_of_mem seg hseg, hp⟩

/-- The parsed strings are pieces of the blob without the separator. -/
theorem mem_values_parse {blob v : Str} (h : v ∈ (RunFlags.parse blob).values) :
    unitSep ∉ v ∧ ∀ c ∈ v, c ∈ blob := by
  rcases mem_values_foldl h with h | ⟨seg, hseg, p, rfl⟩
  · cases h
  · constructor
    · intro hmem
      exact not_mem_of_mem_splitOn hseg (List.mem_append_right p hmem)
    · intro c hc
      exact mem_of_mem_splitOn hseg (List.mem_append_right p hc)

/-! ### The round trip -/

private theorem foldl_loadPaths (ls : List Str) (f : RunFlags) :
    (ls.map ("I:".toList ++ ·)).foldl RunFlags.parseSeg f = { f with loadPaths := f.loadPaths ++ ls } := by
  induction ls generalizing f with
  | nil => simp
  | cons l ls ih =>
    have hl : f.parseSeg ("I:".toList ++ l) = { f with loadPaths := f.loadPaths ++ [l] } := by
      simp [RunFlags.parseSeg, stripPrefix]
    rw [List.map_cons, List.foldl_cons, hl, ih]
    simp

private theorem foldl_requires (ls : List Str) (f : RunFlags) :
    (ls.map ("r:".toList ++ ·)).foldl RunFlags.parseSeg f = { f with requires := f.requires ++ ls } := by
  induction ls generalizing f with
  | nil => simp
  | cons l ls ih =>
    have hl : f.parseSeg ("r:".toList ++ l) = { f with requires := f.requires ++ [l] } := by
      simp [RunFlags.parseSeg, stripPrefix]
    rw [List.map_cons, List.foldl_cons, hl, ih]
    simp

private theorem foldl_verbosePart {verbose : Option Int} (h : ∀ n ∈ verbose, -1 ≤ n ∧ n ≤ 2) {f : RunFlags}
    (hf : f.verbose = none) : (verbosePart verbose).foldl RunFlags.parseSeg f = { f with verbose := verbose } := by
  cases verbose with
  | none => simp [verbosePart, ← hf]
  | some n =>
    have hn := h n rfl
    obtain rfl | rfl | rfl | rfl : n = -1 ∨ n = 0 ∨ n = 1 ∨ n = 2 := by omega
    all_goals rfl

private theorem foldl_encodingPart {encoding : Option Str} {f : RunFlags} (hf : f.encoding = none) :
    (encodingPart encoding).foldl RunFlags.parseSeg f = { f with encoding := encoding } := by
  cases encoding with
  | none => simp [encodingPart, ← hf]
  | some e => simp [encodingPart, RunFlags.parseSeg, stripPrefix]

private theorem foldl_parts {f : RunFlags} (hf : f.Built) : f.parts.foldl RunFlags.parseSeg .default = f := by
  unfold RunFlags.parts
  rw [List.foldl_append, List.foldl_append, List.foldl_append, List.foldl_append, foldl_loadPaths, foldl_requires,
    foldl_verbosePart hf rfl]
  cases hs : f.syntaxCheck with
  | false =>
    simp only [Bool.false_eq_true, ↓reduceIte, List.foldl_nil]
    rw [foldl_encodingPart rfl]
    simp [RunFlags.default, ← hs]
  | true =>
    simp only [↓reduceIte, List.foldl_cons, List.foldl_nil]
    rw [foldl_encodingPart (by rfl)]
    simp [RunFlags.default, RunFlags.parseSeg, stripPrefix, ← hs]

/-- The characters of the segments outside of the values. -/
def tagChars : List Char := "I:rwW012cE".toList

/-- A segment is a tag and a value. -/
theorem mem_parts {f : RunFlags} (hf : f.Built) {part : Str} (h : part ∈ f.parts) :
    ∃ p v, part = p ++ v ∧ p.all (fun c => c ∈ tagChars) ∧ (v = [] ∨ v ∈ f.values) := by
  simp only [RunFlags.parts, List.mem_append, List.mem_map] at h
  rcases h with (((⟨v, hv, rfl⟩ | ⟨v, hv, rfl⟩) | hverb) | hcheck) | henc
  · exact ⟨_, v, rfl, by decide, .inr (by simp [RunFlags.values, hv])⟩
  · exact ⟨_, v, rfl, by decide, .inr (by simp [RunFlags.values, hv])⟩
  · refine ⟨part, [], by simp, ?_, .inl rfl⟩
    cases hn : f.verbose with
    | none => simp [hn, verbosePart] at hverb
    | some n =>
      rw [hn] at hverb
      have hrange := hf n hn
      obtain rfl | rfl | rfl | rfl : n = -1 ∨ n = 0 ∨ n = 1 ∨ n = 2 := by omega
      all_goals
        rw [List.mem_singleton.1 hverb]
        decide
  · refine ⟨part, [], by simp, ?_, .inl rfl⟩
    cases hs : f.syntaxCheck with
    | false => simp [hs] at hcheck
    | true =>
      rw [hs] at hcheck
      rw [List.mem_singleton.1 hcheck]
      decide
  · cases he : f.encoding with
    | none => simp [he, encodingPart] at henc
    | some e =>
      rw [he] at henc
      exact ⟨_, e, List.mem_singleton.1 henc, by decide, .inr (by simp [RunFlags.values, he])⟩

/-- Any other character in a segment is in a value of the flags. -/
theorem not_mem_parts {f : RunFlags} (hf : f.Built) {c : Char} (hc : c ∉ tagChars) (h : ∀ v ∈ f.values, c ∉ v) :
    ∀ part ∈ f.parts, c ∉ part := by
  intro part hpart hmem
  obtain ⟨p, v, rfl, hp, hv⟩ := mem_parts hf hpart
  rcases List.mem_append.1 hmem with hmem | hmem
  · exact hc (by simpa using List.all_eq_true.1 hp c hmem)
  · rcases hv with rfl | hv
    · simp at hmem
    · exact h v hv hmem

/-- The blob is read back as the flags that it was made of, unless a value contains U+001F. -/
theorem parse_blob_iff {f : RunFlags} (hf : f.Built) : RunFlags.parse f.blob = f ↔ ∀ v ∈ f.values, unitSep ∉ v := by
  constructor
  · intro h v hv
    rw [← h] at hv
    exact (mem_values_parse hv).1
  · intro h
    have hparts : ∀ part ∈ f.parts, unitSep ∉ part := not_mem_parts hf (by decide) h
    have hfold := foldl_parts hf
    unfold RunFlags.parse RunFlags.blob
    by_cases hnil : f.parts = []
    · rw [hnil] at hfold
      rw [hnil]
      exact hfold
    · rw [List.splitOn_intercalate unitSep hparts hnil, hfold]

theorem mem_intercalate {c sep : Char} {l : List Str} (h : c ∈ [sep].intercalate l) : c = sep ∨ ∃ w ∈ l, c ∈ w := by
  induction l with
  | nil => cases h
  | cons w l ih =>
    cases l with
    | nil => exact .inr ⟨w, List.mem_cons_self, by simpa using h⟩
    | cons u l =>
      rw [List.intercalate_cons_cons, List.append_assoc, List.mem_append, List.mem_append, List.mem_singleton] at h
      rcases h with h | h | h
      · exact .inr ⟨w, List.mem_cons_self, h⟩
      · exact .inl h
      · exact (ih h).imp_right fun ⟨w', hw', hc⟩ => ⟨w', List.mem_cons_of_mem w hw', hc⟩

/-- Any other character in the blob is the separator or in a value. -/
theorem not_mem_blob {f : RunFlags} (hf : f.Built) {c : Char} (hc : c ∉ unitSep :: tagChars)
    (h : ∀ v ∈ f.values, c ∉ v) : c ∉ f.blob := by
  intro hmem
  rcases mem_intercalate hmem with rfl | ⟨part, hpart, hmem⟩
  · exact hc List.mem_cons_self
  · exact not_mem_parts hf (fun htag => hc (List.mem_cons_of_mem unitSep htag)) h part hpart hmem

end Calisto.Run

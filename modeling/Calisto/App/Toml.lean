import Calisto.App.Lines
import Calisto.Lib.UnixPath

/-!
# `calisto.toml`

`parse_calisto_toml` goes over the lines with the values so far and the section it is in.  A comment begins at any
`#`, also within quotes, so that a script with a `#` in its command is cut there (`parse_scripts_iff`).
-/

namespace Calisto.App

open UnixPath (PathBuf)
open Calisto.Runtime (trim isWhitespace)

/-! ### The code -/

structure AppConfig where
  root : PathBuf
  preload : Option PathBuf
  compact : Option Bool
  yjit : Option Bool
  warmup : Option PathBuf
  scripts : List (Str × Str)
  deriving DecidableEq

inductive Section
  | run
  | scripts
  deriving DecidableEq

/-- The locals of `parse_calisto_toml`; a key before any section belongs to `[run]`. -/
structure Toml where
  preload : Option PathBuf := none
  compact : Option Bool := none
  yjit : Option Bool := none
  warmup : Option PathBuf := none
  scripts : List (Str × Str) := []
  sec : Section := .run
  deriving DecidableEq

/-- `calisto.toml:{i + 1}: ` and the message. -/
def tomlErr (i : Nat) (msg : Str) : Str := "calisto.toml:".toList ++ decimal (i + 1) ++ ": ".toList ++ msg

/-- `true` or `false` for the key. -/
def tomlBool (i : Nat) (k value : Str) : Except Str Bool :=
  if value = "true".toList then .ok true
  else if value = "false".toList then .ok false
  else .error (tomlErr i (k ++ " precisa ser true/false (achei '".toList ++ value ++ "')".toList))

/-- The `match section`. -/
def Toml.assign (base : PathBuf) (i : Nat) (st : Toml) (k value : Str) : Except Str Toml :=
  match st.sec with
  | .run =>
    if k = "preload".toList then
      if value = [] then .error (tomlErr i "preload vazio".toList)
      else .ok { st with preload := some (UnixPath.join base (utf8 value)) }
    else if k = "compact".toList then (tomlBool i k value).map fun b => { st with compact := some b }
    else if k = "yjit".toList then (tomlBool i k value).map fun b => { st with yjit := some b }
    else if k = "warmup".toList then
      if value = [] then .error (tomlErr i "warmup vazio".toList)
      else .ok { st with warmup := some (UnixPath.join base (utf8 value)) }
    else .error (tomlErr i ("chave desconhecida '".toList ++ k ++ "' (scripts vao na secao [scripts])".toList))
  | .scripts => .ok { st with scripts := st.scripts ++ [(k, value)] }

/-- `strip_prefix('"')` and `strip_suffix('"')`. -/
def stripQuotes (v : Str) : Option Str :=
  match v with
  | '"' :: s => if s.getLast? = some '"' then some s.dropLast else none
  | _ => none

/-- The body of the loop of `parse_calisto_toml`. -/
def Toml.line (base : PathBuf) (st : Toml) (x : Str × Nat) : Except Str Toml :=
  let (raw, i) := x
  let line := trim (raw.takeWhile (· ≠ '#'))
  if line = [] then .ok st
  else if line.head? = some '[' then
    let sec := trim ((line.dropWhile (· = '[')).reverse.dropWhile (· = ']')).reverse
    if sec = "run".toList then .ok { st with sec := .run }
    else if sec = "scripts".toList then .ok { st with sec := .scripts }
    else .error (tomlErr i ("secao desconhecida '".toList ++ sec ++ ['\'']))
  else match splitOnce '=' line with
    | none => .error (tomlErr i ("linha invalida: ".toList ++ raw))
    | some (k, v) =>
      let k := trim k
      match stripQuotes (trim v) with
      | some value => st.assign base i k value
      | none =>
        if k = "compact".toList ∨ k = "yjit".toList then st.assign base i k (trim v)
        else .error (tomlErr i (k ++ " precisa ser \"valor\"".toList))

/-- A file that a key names has to exist. -/
def requireFile (isFile : PathBuf → Bool) (key : Str) : Option PathBuf → Except Str Unit
  | none => .ok ()
  | some p =>
    if isFile p then .ok ()
    else .error ("calisto.toml: ".toList ++ key ++ " '".toList ++ fromUtf8Lossy p ++ "' nao existe".toList)

/-- `parse_calisto_toml`. -/
def parseCalistoToml (isFile : PathBuf → Bool) (content : Str) (base : PathBuf) : Except Str AppConfig := do
  let st ← (lines content).zipIdx.foldlM (Toml.line base) {}
  requireFile isFile "preload".toList st.preload
  requireFile isFile "warmup".toList st.warmup
  return { root := base, preload := st.preload, compact := st.compact, yjit := st.yjit, warmup := st.warmup,
           scripts := st.scripts }

/-! ### Files of scripts -/

/-- A name that is written as it is, and a command on one line. -/
structure ScriptLine (p : Str × Str) : Prop where
  trimmed : Trimmed p.1
  ne_nil : p.1 ≠ []
  no_eq : '=' ∉ p.1
  no_hash : '#' ∉ p.1
  no_newline : '\n' ∉ p.1
  no_bracket : p.1.head? ≠ some '['
  command : '\n' ∉ p.2

/-- `name = "command"`. -/
def scriptText (p : Str × Str) : Str := p.1 ++ " = \"".toList ++ p.2 ++ ['"']

def scriptsToml (newline : Bool) (ps : List (Str × Str)) : Str :=
  unlines newline ("[scripts]".toList :: ps.map scriptText)

/-! ### One line -/

private theorem stripQuotes_quoted (s : Str) : stripQuotes ('"' :: s ++ ['"']) = some s := by
  have hlast : (s ++ ['"']).getLast? = some '"' := List.getLast?_concat
  rw [List.cons_append, stripQuotes, if_pos hlast, List.dropLast_concat]

/-- The text between the quotes is part of the value. -/
theorem mem_of_stripQuotes {v s : Str} (h : stripQuotes v = some s) {c : Char} (hc : c ∈ s) : c ∈ v := by
  unfold stripQuotes at h
  split at h
  · split at h
    · cases h
      exact List.mem_cons_of_mem _ (List.dropLast_subset _ hc)
    · simp at h
  · simp at h

private theorem takeWhile_hash {s : Str} (h : '#' ∉ s) : s.takeWhile (· ≠ '#') = s := by
  refine List.takeWhile_eq_self_iff.2 fun c hc => ?_
  rw [decide_eq_true_eq]
  rintro rfl
  exact h hc

/-- A line of a script, in its section. -/
theorem line_script (base : PathBuf) (st : Toml) (hsec : st.sec = .scripts) {p : Str × Str} (h : ScriptLine p)
    (hhash : '#' ∉ p.2) (i : Nat) :
    st.line base (scriptText p, i) = .ok { st with scripts := st.scripts ++ [p] } := by
  obtain ⟨name, cmd⟩ := p
  have htext : scriptText (name, cmd) = name ++ ' ' :: '=' :: ' ' :: ('"' :: cmd ++ ['"']) := by simp [scriptText]
  have hnone : '#' ∉ scriptText (name, cmd) := by
    rw [htext]
    simp [h.no_hash, hhash]
  have htrim : Trimmed (scriptText (name, cmd)) := by
    obtain ⟨c, name', rfl⟩ := List.exists_cons_of_ne_nil h.ne_nil
    exact .of_ends (h.trimmed.head c rfl) (by decide) _
  have hhead : (scriptText (name, cmd)).head? ≠ some '[' := by
    obtain ⟨c, name', rfl⟩ := List.exists_cons_of_ne_nil h.ne_nil
    exact h.no_bracket
  have hne : scriptText (name, cmd) ≠ [] := by simp [scriptText]
  have hsplit : splitOnce '=' (scriptText (name, cmd)) = some (name ++ [' '], ' ' :: ('"' :: cmd ++ ['"'])) := by
    have hform : scriptText (name, cmd) = (name ++ [' ']) ++ '=' :: ' ' :: ('"' :: cmd ++ ['"']) := by simp [htext]
    rw [hform]
    exact splitOnce_append (by simp [h.no_eq]) _
  have hname : trim (name ++ [' ']) = name := by
    rw [trim_append name (by simp [isWhitespace]), trim_of_trimmed h.trimmed]
  have hvalue : trim (' ' :: ('"' :: cmd ++ ['"'])) = '"' :: cmd ++ ['"'] := by
    have hpad := trim_padded (l := [' ']) (r := []) (.of_ends (a := '"') (b := '"') (by decide) (by decide) cmd)
      (by simp [isWhitespace]) (by simp)
    simpa using hpad
  unfold Toml.line
  simp only [takeWhile_hash hnone, trim_of_trimmed htrim, hne, hhead, ↓reduceIte, hsplit, hname, hvalue,
    stripQuotes_quoted]
  unfold Toml.assign
  rw [hsec]

/-- The header of the section. -/
theorem line_header (base : PathBuf) (st : Toml) (i : Nat) :
    st.line base ("[scripts]".toList, i) = .ok { st with sec := .scripts } := by
  have hline : trim ("[scripts]".toList.takeWhile (· ≠ '#')) = "[scripts]".toList := by decide
  have hsec : trim (("[scripts]".toList.dropWhile (· = '[')).reverse.dropWhile (· = ']')).reverse =
      "scripts".toList := by
    decide
  have hne : "[scripts]".toList ≠ [] := by decide
  have hhead : "[scripts]".toList.head? = some '[' := by decide
  have hrun : "scripts".toList ≠ "run".toList := by decide
  unfold Toml.line
  simp only [hline, hne, hhead, hsec, hrun, ↓reduceIte]

/-! ### No value has a `#` -/

/-- An assignment adds at most the pair of its key and its value to the scripts. -/
theorem assign_scripts {base : PathBuf} {i : Nat} {st st' : Toml} {k value : Str}
    (h : st.assign base i k value = .ok st') : st'.scripts = st.scripts ∨ st'.scripts = st.scripts ++ [(k, value)] := by
  have hbool : ∀ f : Bool → Toml, (∀ b, (f b).scripts = st.scripts) → (tomlBool i k value).map f = .ok st' →
      st'.scripts = st.scripts := by
    intro f hf hmap
    cases hb : tomlBool i k value with
    | error e =>
      rw [hb] at hmap
      cases hmap
    | ok b =>
      rw [hb] at hmap
      cases hmap
      exact hf b
  unfold Toml.assign at h
  split at h
  · left
    split at h
    · split at h <;> cases h
      rfl
    · split at h
      · exact hbool (fun b => { st with compact := some b }) (fun _ => rfl) h
      · split at h
        · exact hbool (fun b => { st with yjit := some b }) (fun _ => rfl) h
        · split at h
          · split at h <;> cases h
            rfl
          · cases h
  · cases h
    exact .inr rfl

/-- What a comment cuts off is in no value. -/
theorem line_no_hash {base : PathBuf} {st st' : Toml} {x : Str × Nat} (h : st.line base x = .ok st')
    (hst : ∀ p ∈ st.scripts, '#' ∉ p.2) : ∀ p ∈ st'.scripts, '#' ∉ p.2 := by
  obtain ⟨raw, i⟩ := x
  have hline : '#' ∉ trim (raw.takeWhile (· ≠ '#')) := by
    intro hmem
    simpa using List.mem_takeWhile_imp (mem_of_mem_trim hmem)
  have hassign : ∀ k value, '#' ∉ value → st.assign base i k value = .ok st' → ∀ p ∈ st'.scripts, '#' ∉ p.2 := by
    intro k value hvalue hok p hp
    rcases assign_scripts hok with heq | heq
    · exact hst p (by rwa [heq] at hp)
    · rw [heq, List.mem_append, List.mem_singleton] at hp
      rcases hp with hp | rfl
      · exact hst p hp
      · exact hvalue
  unfold Toml.line at h
  dsimp only at h
  generalize trim (raw.takeWhile (· ≠ '#')) = line at h hline
  split at h
  · cases h
    exact hst
  · split at h
    · split at h
      · cases h
        exact hst
      · split at h
        · cases h
          exact hst
        · cases h
    · split at h
      · cases h
      · rename_i k v hsplit
        obtain ⟨rfl, -⟩ := splitOnce_eq_some hsplit
        have hv : '#' ∉ trim v := fun hmem =>
          hline (List.mem_append_right _ (List.mem_cons_of_mem _ (mem_of_mem_trim hmem)))
        split at h
        · rename_i value hquotes
          exact hassign _ value (fun hmem => hv (mem_of_stripQuotes hquotes hmem)) h
        · split at h
          · exact hassign _ _ hv h
          · cases h

/-! ### The whole file -/

private theorem lines_no_hash {base : PathBuf} {xs : List (Str × Nat)} {st st' : Toml}
    (h : xs.foldlM (Toml.line base) st = .ok st') (hst : ∀ p ∈ st.scripts, '#' ∉ p.2) :
    ∀ p ∈ st'.scripts, '#' ∉ p.2 := by
  induction xs generalizing st with
  | nil =>
    cases h
    exact hst
  | cons x xs ih =>
    rw [List.foldlM_cons] at h
    cases hx : st.line base x with
    | error e =>
      rw [hx] at h
      cases h
    | ok st₁ =>
      rw [hx] at h
      exact ih h (line_no_hash hx hst)

/-- The lines of the scripts add the scripts. -/
theorem lines_scripts (base : PathBuf) {ps : List (Str × Str)} (h : ∀ p ∈ ps, ScriptLine p)
    (hhash : ∀ p ∈ ps, '#' ∉ p.2) (st : Toml) (hsec : st.sec = .scripts) (i : Nat) :
    ((ps.map scriptText).zipIdx i).foldlM (Toml.line base) st = .ok { st with scripts := st.scripts ++ ps } := by
  induction ps generalizing st i with
  | nil =>
    rw [List.append_nil]
    rfl
  | cons p ps ih =>
    have hp := line_script base st hsec (h p List.mem_cons_self) (hhash p List.mem_cons_self) i
    rw [List.map_cons, List.zipIdx_cons, List.foldlM_cons, hp]
    have hrest := ih (fun q hq => h q (List.mem_cons_of_mem _ hq)) (fun q hq => hhash q (List.mem_cons_of_mem _ hq))
      { st with scripts := st.scripts ++ [p] } hsec (i + 1)
    rw [List.append_assoc] at hrest
    exact hrest

private theorem lines_scriptsToml (newline : Bool) {ps : List (Str × Str)} (h : ∀ p ∈ ps, ScriptLine p) :
    lines (scriptsToml newline ps) = "[scripts]".toList :: ps.map scriptText := by
  refine lines_unlines newline fun l hl => ?_
  rcases List.mem_cons.1 hl with rfl | hl
  · decide
  · obtain ⟨p, hp, rfl⟩ := List.mem_map.1 hl
    have hline := h p hp
    refine ⟨?_, by simp [scriptText], ?_⟩
    · simp [scriptText, hline.no_newline, hline.command]
    · rw [scriptText, List.getLast?_concat]
      simp

/-- What a parsed config is made of. -/
theorem parse_ok {isFile : PathBuf → Bool} {content : Str} {base : PathBuf} {app : AppConfig}
    (h : parseCalistoToml isFile content base = .ok app) :
    ∃ st, (lines content).zipIdx.foldlM (Toml.line base) {} = .ok st ∧ app.scripts = st.scripts ∧ app.root = base ∧
      ∀ p ∈ app.preload, isFile p := by
  unfold parseCalistoToml at h
  cases hfold : (lines content).zipIdx.foldlM (Toml.line base) {} with
  | error e =>
    rw [hfold] at h
    cases h
  | ok st =>
    rw [hfold] at h
    cases hpre : requireFile isFile "preload".toList st.preload with
    | error e =>
      simp only [bind, Except.bind, hpre] at h
      cases h
    | ok =>
      cases hwarm : requireFile isFile "warmup".toList st.warmup with
      | error e =>
        simp only [bind, Except.bind, hpre, hwarm] at h
        cases h
      | ok =>
        simp only [bind, Except.bind, hpre, hwarm] at h
        cases h
        refine ⟨st, rfl, rfl, rfl, fun p hp => ?_⟩
        have hsome : st.preload = some p := hp
        rw [hsome, requireFile] at hpre
        split at hpre
        · assumption
        · cases hpre

/-- The scripts come back from the file exactly when no command has a `#`. -/
theorem parse_scripts_iff (isFile : PathBuf → Bool) (base : PathBuf) (newline : Bool) {ps : List (Str × Str)}
    (h : ∀ p ∈ ps, ScriptLine p) :
    (∃ app, parseCalistoToml isFile (scriptsToml newline ps) base = .ok app ∧ app.scripts = ps) ↔
      ∀ p ∈ ps, '#' ∉ p.2 := by
  constructor
  · rintro ⟨app, happ, rfl⟩
    obtain ⟨st, hfold, hscripts, -⟩ := parse_ok happ
    rw [hscripts]
    exact lines_no_hash hfold (by simp)
  · intro hhash
    have hfold : (lines (scriptsToml newline ps)).zipIdx.foldlM (Toml.line base) {} =
        .ok { sec := .scripts, scripts := ps } := by
      rw [lines_scriptsToml newline h, List.zipIdx_cons, List.foldlM_cons, line_header]
      exact lines_scripts base h hhash _ rfl 1
    unfold parseCalistoToml
    rw [hfold]
    exact ⟨_, rfl, rfl⟩

theorem parse_scripts_one :
    ∃ app, parseCalistoToml (fun _ => false) (scriptsToml true [("dev".toList, "rails s".toList)]) [] = .ok app ∧
      app.scripts = [("dev".toList, "rails s".toList)] := by
  have htrimmed : Trimmed "dev".toList := .of_ends (by decide) (by decide) ['e']
  have hline : ScriptLine ("dev".toList, "rails s".toList) :=
    ⟨htrimmed, by decide, by decide, by decide, by decide, by decide, by decide⟩
  have hall : ∀ p ∈ [(("dev".toList : Str), "rails s".toList)], ScriptLine p := by
    intro p hp
    rw [List.mem_singleton.1 hp]
    exact hline
  refine (parse_scripts_iff (fun _ => false) [] true hall).2 fun p hp => ?_
  rw [List.mem_singleton.1 hp]
  decide

/-- A command with a `#` in it does not come back. -/
theorem parse_scripts_cuts_hash :
    ¬∀ ps : List (Str × Str), (∀ p ∈ ps, ScriptLine p) →
      ∃ app, parseCalistoToml (fun _ => false) (scriptsToml true ps) [] = .ok app ∧ app.scripts = ps := by
  intro h
  have htrimmed : Trimmed "up".toList := .of_ends (by decide) (by decide) []
  have hline : ScriptLine ("up".toList, "curl x/#top".toList) :=
    ⟨htrimmed, by decide, by decide, by decide, by decide, by decide, by decide⟩
  have hall : ∀ p ∈ [(("up".toList : Str), "curl x/#top".toList)], ScriptLine p := by
    intro p hp
    rw [List.mem_singleton.1 hp]
    exact hline
  have hnone := (parse_scripts_iff (fun _ => false) [] true hall).1 (h _ hall) _ (List.mem_singleton_self _)
  exact absurd hnone (by decide)

end Calisto.App

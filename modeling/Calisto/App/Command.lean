import Calisto.Runtime.Preload

/-!
# The command of a script

`split_command` walks over the command with the words so far, the word at hand and the open quote.  A word is kept when
it is not empty, so that a quoted empty word is lost (`split_command_inverts_iff`).
-/

namespace Calisto.App

open Calisto.Runtime (isWhitespace)

/-! ### The code -/

/-- The locals of `split_command`. -/
structure Split where
  out : List Str := []
  cur : Str := []
  quote : Option Char := none
  deriving DecidableEq

/-- `out`, with the word at hand unless it is empty. -/
def Split.flush (st : Split) : List Str := if st.cur ≠ [] then st.out ++ [st.cur] else st.out

/-- The body of the loop of `split_command`. -/
def Split.step (st : Split) (c : Char) : Split :=
  match st.quote with
  | some q => if c = q then { st with quote := none } else { st with cur := st.cur ++ [c] }
  | none =>
    if c = '\'' ∨ c = '"' then { st with quote := some c }
    else if isWhitespace c then { st with out := st.flush, cur := [] }
    else { st with cur := st.cur ++ [c] }

/-- `split_command`. -/
def splitCommand (s : Str) : Except Str (List Str) :=
  let st := s.foldl Split.step {}
  match st.quote with
  | some q => .error ("calisto.toml: aspas '".toList ++ [q] ++ "' nao fechadas em \"".toList ++ s ++ ['"'])
  | none => .ok st.flush

/-! ### Quoting -/

/-- A word between quotes that it does not contain. -/
inductive Quoted : Str → Str → Prop
  | single {w : Str} (h : '\'' ∉ w) : Quoted w ('\'' :: w ++ ['\''])
  | double {w : Str} (h : '"' ∉ w) : Quoted w ('"' :: w ++ ['"'])

/-- Not empty and nothing but whitespace. -/
def Blank (s : Str) : Prop := s ≠ [] ∧ ∀ c ∈ s, isWhitespace c

/-- The text that the quoted words make with whitespace between them. -/
inductive Joined : List Str → Str → Prop
  | nil : Joined [] []
  | one {w t : Str} (h : Quoted w t) : Joined [w] t
  | cons {w t sep : Str} {ws : List Str} {s : Str} (h : Quoted w t) (hsep : Blank sep) (hne : ws ≠ [])
      (hs : Joined ws s) : Joined (w :: ws) (t ++ sep ++ s)

/-! ### Splitting quoted words -/

/-- Between quotes everything goes to the word at hand. -/
theorem foldl_inside (out : List Str) (cur : Str) {q : Char} {w : Str} (h : q ∉ w) :
    w.foldl Split.step ⟨out, cur, some q⟩ = ⟨out, cur ++ w, some q⟩ := by
  induction w generalizing cur with
  | nil => simp
  | cons c w ih =>
    rw [List.mem_cons, not_or] at h
    have hstep : Split.step ⟨out, cur, some q⟩ c = ⟨out, cur ++ [c], some q⟩ := by
      simp [Split.step, Ne.symm h.1]
    rw [List.foldl_cons, hstep, ih (cur ++ [c]) h.2, List.append_assoc]
    rfl

private theorem foldl_quoted (out : List Str) (cur : Str) {w t : Str} (h : Quoted w t) :
    t.foldl Split.step ⟨out, cur, none⟩ = ⟨out, cur ++ w, none⟩ := by
  cases h with
  | single h =>
    rw [List.cons_append, List.foldl_cons, List.foldl_append]
    have hopen : Split.step ⟨out, cur, none⟩ '\'' = ⟨out, cur, some '\''⟩ := by simp [Split.step]
    rw [hopen, foldl_inside out cur h]
    simp [Split.step]
  | double h =>
    rw [List.cons_append, List.foldl_cons, List.foldl_append]
    have hopen : Split.step ⟨out, cur, none⟩ '"' = ⟨out, cur, some '"'⟩ := by simp [Split.step]
    rw [hopen, foldl_inside out cur h]
    simp [Split.step]

/-- Whitespace ends the word at hand. -/
theorem foldl_blank (st : Split) (hq : st.quote = none) {sep : Str} (h : Blank sep) :
    sep.foldl Split.step st = ⟨st.flush, [], none⟩ := by
  obtain ⟨hne, hall⟩ := h
  have hstep : ∀ st : Split, st.quote = none → ∀ c, isWhitespace c → Split.step st c = ⟨st.flush, [], none⟩ := by
    intro st hq c hc
    have hquote : ¬(c = '\'' ∨ c = '"') := by
      rintro (rfl | rfl)
      · simp [isWhitespace] at hc
      · simp [isWhitespace] at hc
    simp [Split.step, hq, hquote, hc]
  obtain ⟨c, sep, rfl⟩ := List.exists_cons_of_ne_nil hne
  rw [List.foldl_cons, hstep st hq c (hall c List.mem_cons_self)]
  have hrest : ∀ c ∈ sep, isWhitespace c := fun c hc => hall c (List.mem_cons_of_mem _ hc)
  clear hne hall
  induction sep with
  | nil => rfl
  | cons d sep ih =>
    rw [List.foldl_cons, hstep _ rfl d (hrest d List.mem_cons_self)]
    exact ih fun c hc => hrest c (List.mem_cons_of_mem _ hc)

/-- The words that are not empty, after the ones there were. -/
theorem foldl_joined {ws : List Str} {s : Str} (h : Joined ws s) (out : List Str) :
    (s.foldl Split.step ⟨out, [], none⟩).quote = none ∧
      (s.foldl Split.step ⟨out, [], none⟩).flush = out ++ ws.filter (· ≠ []) := by
  induction h generalizing out with
  | nil => simp [Split.flush]
  | @one w t h =>
    rw [foldl_quoted out [] h, List.nil_append]
    refine ⟨rfl, ?_⟩
    by_cases hw : w = []
    · simp [Split.flush, hw]
    · simp [Split.flush, hw]
  | @cons w t sep ws s h hsep hne hs ih =>
    rw [List.foldl_append, List.foldl_append, foldl_quoted out [] h, List.nil_append, foldl_blank _ rfl hsep]
    obtain ⟨hquote, hflush⟩ := ih (Split.flush ⟨out, w, none⟩)
    refine ⟨hquote, ?_⟩
    rw [hflush]
    by_cases hw : w = []
    · simp [Split.flush, hw]
    · simp [Split.flush, hw]

/-- What comes of quoted words: those that are not empty. -/
theorem splitCommand_joined {ws : List Str} {s : Str} (h : Joined ws s) :
    splitCommand s = .ok (ws.filter (· ≠ [])) := by
  obtain ⟨hquote, hflush⟩ := foldl_joined h []
  unfold splitCommand
  dsimp only
  rw [hquote, hflush, List.nil_append]

/-- Quoted words come back exactly when none of them is empty. -/
theorem split_command_inverts_iff {ws : List Str} {s : Str} (h : Joined ws s) :
    splitCommand s = .ok ws ↔ [] ∉ ws := by
  rw [splitCommand_joined h, Except.ok.injEq, List.filter_eq_self]
  constructor
  · intro hall hmem
    simpa using hall [] hmem
  · intro hnone w hw
    rw [decide_eq_true_eq]
    rintro rfl
    exact hnone hw

/-- `"a b" 'c'` is read as two words. -/
theorem split_command_inverts_two :
    splitCommand "\"a b\" 'c'".toList = .ok ["a b".toList, ['c']] := by
  have hfirst : Quoted "a b".toList "\"a b\"".toList := .double (by simp)
  have hblank : Blank [' '] := ⟨by simp, by simp [isWhitespace]⟩
  have hlast : Quoted ['c'] "'c'".toList := .single (by simp)
  have hjoined : Joined ["a b".toList, ['c']] "\"a b\" 'c'".toList := .cons hfirst hblank (by simp) (.one hlast)
  exact (split_command_inverts_iff hjoined).2 (by simp)

/-- `a ""` loses its second word. -/
theorem split_command_drops_empty : ¬∀ ws s, Joined ws s → splitCommand s = .ok ws := by
  intro h
  have hfirst : Quoted ['a'] "'a'".toList := .single (by simp)
  have hblank : Blank [' '] := ⟨by simp, by simp [isWhitespace]⟩
  have hlast : Quoted [] "''".toList := .single (by simp)
  have hjoined : Joined [['a'], []] "'a' ''".toList := .cons hfirst hblank (by simp) (.one hlast)
  exact (split_command_inverts_iff hjoined).1 (h _ _ hjoined) (by simp)

end Calisto.App

import Calisto.Runtime.Preload
import Mathlib.Data.List.TakeWhile

/-!
# Files read by lines

`str::lines` and what `trim` leaves of a text that begins and ends with something else than whitespace.
-/

namespace Calisto.App

open Calisto.Runtime (isWhitespace trim)

def nul : Char := Char.ofNat 0

/-- A line that was ended by a newline, without a carriage return before it. -/
def chopCr (line : Str) : Str := if line.getLast? = some '\r' then line.dropLast else line

/-- `str::lines`: the part after the last newline is a line if it is not empty. -/
def lines (s : Str) : List Str :=
  (s.splitOn '\n').dropLast.map chopCr ++ ((s.splitOn '\n').getLast?.filter (· ≠ [])).toList

@[simp] theorem lines_nil : lines [] = [] := by simp [lines]

/-- The line up to the first newline. -/
theorem lines_append {line : Str} (h : '\n' ∉ line) (rest : Str) :
    lines (line ++ '\n' :: rest) = chopCr line :: lines rest := by
  unfold lines
  rw [List.splitOn_append_cons_self_of_not_mem h]
  obtain ⟨w, ws, hw⟩ := List.exists_cons_of_ne_nil (List.splitOn_ne_nil '\n' rest)
  simp [hw]

/-- A last line without its newline. -/
theorem lines_of_not_mem {line : Str} (h : '\n' ∉ line) (hne : line ≠ []) : lines line = [line] := by
  simp [lines, List.splitOn_eq_singleton h, hne]

/-- The text of the lines, the last one with a newline or without. -/
def unlines (newline : Bool) : List Str → Str
  | [] => []
  | l :: ls => if ls = [] ∧ !newline then l else l ++ '\n' :: unlines newline ls

theorem chopCr_of_ne {line : Str} (h : line.getLast? ≠ some '\r') : chopCr line = line := if_neg h

/-- Lines with something in them, and not a carriage return at their end, are read back. -/
theorem lines_unlines (newline : Bool) {ls : List Str}
    (h : ∀ l ∈ ls, '\n' ∉ l ∧ l ≠ [] ∧ l.getLast? ≠ some '\r') : lines (unlines newline ls) = ls := by
  induction ls with
  | nil => exact lines_nil
  | cons l ls ih =>
    obtain ⟨hnl, hne, hcr⟩ := h l List.mem_cons_self
    unfold unlines
    split
    · rename_i hlast
      obtain ⟨rfl, -⟩ := hlast
      exact lines_of_not_mem hnl hne
    · rw [lines_append hnl, chopCr_of_ne hcr, ih fun l hl => h l (List.mem_cons_of_mem _ hl)]

/-! ### Trimming -/

theorem mem_of_mem_trim {s : Str} {c : Char} (h : c ∈ trim s) : c ∈ s := by
  have h' : c ∈ ((s.dropWhile isWhitespace).reverse.dropWhile isWhitespace).reverse := h
  have hsub := (List.dropWhile_suffix isWhitespace).subset (List.mem_reverse.1 h')
  exact (List.dropWhile_suffix isWhitespace).subset (List.mem_reverse.1 hsub)

/-- Neither begins nor ends with whitespace. -/
structure Trimmed (s : Str) : Prop where
  head : ∀ c ∈ s.head?, ¬isWhitespace c
  last : ∀ c ∈ s.getLast?, ¬isWhitespace c

theorem Trimmed.of_ends {a b : Char} (ha : ¬isWhitespace a) (hb : ¬isWhitespace b) (s : Str) :
    Trimmed (a :: s ++ [b]) := by
  refine ⟨?_, ?_⟩
  · intro c hc
    cases hc
    exact ha
  · intro c hc
    rw [List.getLast?_concat] at hc
    cases hc
    exact hb

private theorem dropWhile_of_head {p : Char → Bool} {s : Str} (h : ∀ c ∈ s.head?, ¬p c) : s.dropWhile p = s := by
  cases s with
  | nil => rfl
  | cons c s => exact List.dropWhile_cons_of_neg (h c rfl)

private theorem reverse_dropWhile_append (t : Str) {r : Str} (hr : ∀ c ∈ r, isWhitespace c) :
    (t ++ r).reverse.dropWhile isWhitespace = t.reverse.dropWhile isWhitespace := by
  rw [List.reverse_append, List.dropWhile_append_of_pos fun c hc => hr c (List.mem_reverse.1 hc)]

/-- Whitespace at the end makes no difference to `trim`. -/
theorem trim_append (s : Str) {r : Str} (hr : ∀ c ∈ r, isWhitespace c) : trim (s ++ r) = trim s := by
  unfold trim
  by_cases hs : ∀ c ∈ s, isWhitespace c
  · have hall : ∀ t : Str, (∀ c ∈ t, isWhitespace c) → t.dropWhile isWhitespace = [] := by
      intro t ht
      rw [← List.append_nil t, List.dropWhile_append_of_pos ht]
      rfl
    rw [hall s hs, List.dropWhile_append_of_pos hs, hall r hr]
  · have hne : s.dropWhile isWhitespace ≠ [] := fun h => hs (List.dropWhile_eq_nil_iff.1 h)
    have hkeep : (s ++ r).dropWhile isWhitespace = s.dropWhile isWhitespace ++ r := by
      rw [List.dropWhile_append, if_neg (by simpa using hne)]
    rw [hkeep, reverse_dropWhile_append _ hr]

theorem trim_chopCr (s : Str) : trim (chopCr s) = trim s := by
  unfold chopCr
  split
  · rename_i h
    obtain ⟨t, rfl⟩ := List.getLast?_eq_some_iff.1 h
    rw [List.dropLast_concat, trim_append t (by simp [isWhitespace])]
  · rfl

/-- `trim` takes away the whitespace around a trimmed text. -/
theorem trim_padded {s l r : Str} (h : Trimmed s) (hl : ∀ c ∈ l, isWhitespace c) (hr : ∀ c ∈ r, isWhitespace c) :
    trim (l ++ (s ++ r)) = s := by
  have hleft : ((s ++ r).dropWhile isWhitespace).reverse.dropWhile isWhitespace = s.reverse := by
    by_cases hs : s = []
    · subst hs
      rw [List.nil_append, ← List.append_nil r, List.dropWhile_append_of_pos hr]
      rfl
    · obtain ⟨c, s', rfl⟩ := List.exists_cons_of_ne_nil hs
      rw [dropWhile_of_head (s := c :: s' ++ r) (by simpa using h.head), reverse_dropWhile_append _ hr]
      exact dropWhile_of_head (by rw [List.head?_reverse]; exact h.last)
  unfold trim
  rw [List.dropWhile_append_of_pos hl, hleft, List.reverse_reverse]

theorem trim_of_trimmed {s : Str} (h : Trimmed s) : trim s = s := by
  simpa using trim_padded h (l := []) (r := []) (by simp) (by simp)

end Calisto.App

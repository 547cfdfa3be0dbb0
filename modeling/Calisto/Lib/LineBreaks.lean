import Mathlib.Data.List.Basic

/-!
# Lines with their ends

A list cut after every occurrence of a separator, the search for the separator from a position on, and what the two
have to do with each other: the position after the `n`-th separator is where the first `n` lines end.  A list of
words, each of them the separator alone or without it, has the lines of its concatenation (`map_flatten_linesOf`).
-/

namespace LineBreaks

variable {α : Type*} [DecidableEq α] {nl : α} {s w : List α}

/-- The lines of a list, each with the separator that ends it. -/
def linesOf (nl : α) : List α → List (List α)
  | [] => []
  | a :: s =>
    if a = nl then [a] :: linesOf nl s
    else match linesOf nl s with
      | [] => [[a]]
      | l :: ls => (a :: l) :: ls

/-- The first occurrence of the separator from a position on. -/
def index (nl : α) (s : List α) (pos : Nat) : Option Nat :=
  if nl ∈ s.drop pos then some (pos + (s.drop pos).idxOf nl) else none

@[simp] theorem linesOf_nil : linesOf nl [] = [] := rfl

@[simp] theorem linesOf_cons_self : linesOf nl (nl :: s) = [nl] :: linesOf nl s := by
  rw [linesOf, if_pos rfl]

/-- What stands before a separator belongs to the line of the separator. -/
theorem linesOf_append_cons (h : nl ∉ w) : linesOf nl (w ++ nl :: s) = (w ++ [nl]) :: linesOf nl s := by
  induction w with
  | nil => simp
  | cons a w ih =>
    rw [List.mem_cons, not_or] at h
    rw [List.cons_append, linesOf, if_neg (Ne.symm h.1), ih h.2]
    rfl

theorem linesOf_of_not_mem (h : nl ∉ w) (hne : w ≠ []) : linesOf nl w = [w] := by
  induction w with
  | nil => exact absurd rfl hne
  | cons a w ih =>
    rw [List.mem_cons, not_or] at h
    rw [linesOf, if_neg (Ne.symm h.1)]
    by_cases hw : w = []
    · simp [hw]
    · rw [ih h.2 hw]

/-- Induction on the lines: the last one may lack its separator. -/
theorem lines_induction (nl : α) {P : List α → Prop} (nil : P []) (last : ∀ w, nl ∉ w → w ≠ [] → P w)
    (line : ∀ w s, nl ∉ w → P s → P (w ++ nl :: s)) (s : List α) : P s := by
  induction hn : s.length using Nat.strongRecOn generalizing s with
  | ind n ih =>
    subst hn
    by_cases h : nl ∈ s
    · obtain ⟨w, rest, rfl, hw⟩ := List.eq_append_cons_of_mem h
      apply line w rest hw
      apply ih rest.length _ rest rfl
      simp
      omega
    · by_cases hs : s = []
      · exact hs ▸ nil
      · exact last s h hs

/-- The lines are the whole list. -/
theorem flatten_linesOf (nl : α) (s : List α) : (linesOf nl s).flatten = s := by
  induction s using lines_induction nl with
  | nil => rfl
  | last w hw hne => simp [linesOf_of_not_mem hw hne]
  | line w s hw ih => simp [linesOf_append_cons hw, ih]

theorem take_append_drop_linesOf (nl : α) (s : List α) (n : Nat) :
    ((linesOf nl s).take n).flatten ++ ((linesOf nl s).drop n).flatten = s := by
  rw [← List.flatten_append, List.take_append_drop, flatten_linesOf]

/-- What follows the first lines has the other lines. -/
theorem linesOf_drop (nl : α) (s : List α) (n : Nat) :
    linesOf nl ((linesOf nl s).drop n).flatten = (linesOf nl s).drop n := by
  induction s using lines_induction nl generalizing n with
  | nil => simp
  | last w hw hne =>
    rw [linesOf_of_not_mem hw hne]
    cases n with
    | zero => simp [linesOf_of_not_mem hw hne]
    | succ n => simp
  | line w s hw ih =>
    rw [linesOf_append_cons hw]
    cases n with
    | zero => simp [flatten_linesOf, linesOf_append_cons hw]
    | succ n => exact ih n

/-! ### The search -/

theorem index_append_cons (p : List α) (hw : nl ∉ w) (s : List α) :
    index nl (p ++ (w ++ nl :: s)) p.length = some (p.length + w.length) := by
  rw [index, List.drop_left, if_pos (by simp), List.idxOf_append_of_notMem hw, List.idxOf_cons_self, Nat.add_zero]

theorem index_of_not_mem (p : List α) (hw : nl ∉ w) : index nl (p ++ w) p.length = none := by
  rw [index, List.drop_left, if_neg hw]

/-! ### Words -/

/-- Words that are the separator alone or do not contain it. -/
def Words (nl : α) (cs : List (List α)) : Prop := ∀ c ∈ cs, c = [nl] ∨ c ≠ [] ∧ nl ∉ c

/-- A word without the separator lengthens the first line. -/
theorem linesOf_append (hw : nl ∉ w) (hne : w ≠ []) (s : List α) :
    linesOf nl (w ++ s) = match linesOf nl s with
      | [] => [w]
      | l :: ls => (w ++ l) :: ls := by
  induction w with
  | nil => exact absurd rfl hne
  | cons a w ih =>
    rw [List.mem_cons, not_or] at hw
    rw [List.cons_append, linesOf, if_neg (Ne.symm hw.1)]
    by_cases hnil : w = []
    · subst hnil
      rw [List.nil_append]
      rfl
    · rw [ih hw.2 hnil]
      cases linesOf nl s <;> rfl

/-- Words have the lines of their concatenation. -/
theorem map_flatten_linesOf {cs : List (List α)} (h : Words nl cs) :
    (linesOf [nl] cs).map List.flatten = linesOf nl cs.flatten := by
  induction cs with
  | nil => rfl
  | cons c cs ih =>
    have ih := ih fun c hc => h c (List.mem_cons_of_mem _ hc)
    rcases h c List.mem_cons_self with rfl | ⟨hne, hnl⟩
    · simp [ih]
    · have hc : c ≠ [nl] := by
        rintro rfl
        exact hnl List.mem_cons_self
      rw [List.flatten_cons, linesOf_append hnl hne, ← ih, linesOf, if_neg hc]
      cases linesOf [nl] cs with
      | nil => simp
      | cons l ls => simp

end LineBreaks

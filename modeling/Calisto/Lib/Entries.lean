import Mathlib.Data.List.Basic

/-!
# Lists as tables of processes

A process is known by its place in the list: `xs.set i x` is a step of process `i`, `xs ++ [x]` the start of a new
one.  The lemmas read an entry after such a step back to the entries before it.
-/

variable {α : Type*} {xs : List α} {i j : Nat} {x y : α}

theorem getElem?_set_of_get (h : xs[i]? = some x) (y : α) : (xs.set i y)[i]? = some y := by
  simp [(List.getElem?_eq_some_iff.1 h).1]

theorem getElem?_set_eq_some (h : (xs.set i x)[j]? = some y) : j = i ∧ y = x ∨ j ≠ i ∧ xs[j]? = some y := by
  rw [List.getElem?_set] at h
  split at h
  · split at h
    · exact .inl ⟨by omega, by cases h; rfl⟩
    · simp at h
  · exact .inr ⟨by omega, h⟩

theorem getElem?_push_of_get (h : xs[i]? = some x) (y : α) : (xs ++ [y])[i]? = some x := by
  rw [List.getElem?_append_left (List.getElem?_eq_some_iff.1 h).1, h]

theorem getElem?_push_eq_some (h : (xs ++ [x])[j]? = some y) : xs[j]? = some y ∨ j = xs.length ∧ y = x := by
  rw [List.getElem?_append] at h
  split at h
  · exact .inl h
  · refine .inr ?_
    rw [List.getElem?_singleton] at h
    split at h
    · exact ⟨by omega, by cases h; rfl⟩
    · simp at h

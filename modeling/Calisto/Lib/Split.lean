import Mathlib.Data.List.Basic

/-!
# The pieces of a split

Together with `List.splitOn_intercalate` and `List.intercalate_splitOn`: no piece contains the separator, and the
pieces contain nothing else than the list that is split.
-/

variable {α : Type*} [DecidableEq α] {sep c : α} {xs w : List α}

theorem mem_splitOn_cons {a : α} (h : w ∈ (a :: xs).splitOn sep) :
    w ∈ xs.splitOn sep ∨ w = [] ∨ a ≠ sep ∧ ∃ u ∈ xs.splitOn sep, w = a :: u := by
  rw [List.splitOn_cons_eq_if_modifyHead] at h
  split at h
  · rcases List.mem_cons.1 h with rfl | h
    · exact .inr (.inl rfl)
    · exact .inl h
  · rename_i hne
    obtain ⟨u, us, hu⟩ := List.exists_cons_of_ne_nil (List.splitOn_ne_nil sep xs)
    rw [hu, List.modifyHead_cons] at h
    rcases List.mem_cons.1 h with rfl | h
    · exact .inr (.inr ⟨by simpa using hne, u, by simp [hu], rfl⟩)
    · exact .inl (by rw [hu]; exact List.mem_cons_of_mem u h)

theorem not_mem_of_mem_splitOn (h : w ∈ xs.splitOn sep) : sep ∉ w := by
  induction xs generalizing w with
  | nil =>
    rw [List.splitOn_nil, List.mem_singleton] at h
    subst h
    exact List.not_mem_nil
  | cons a xs ih =>
    rcases mem_splitOn_cons h with h | rfl | ⟨hne, u, hu, rfl⟩
    · exact ih h
    · exact List.not_mem_nil
    · intro hmem
      rcases List.mem_cons.1 hmem with rfl | hmem
      · exact hne rfl
      · exact ih hu hmem

theorem mem_of_mem_splitOn (h : w ∈ xs.splitOn sep) (hc : c ∈ w) : c ∈ xs := by
  induction xs generalizing w with
  | nil =>
    rw [List.splitOn_nil, List.mem_singleton] at h
    subst h
    cases hc
  | cons a xs ih =>
    rcases mem_splitOn_cons h with h | rfl | ⟨-, u, hu, rfl⟩
    · exact List.mem_cons_of_mem a (ih h hc)
    · simp at hc
    · rcases List.mem_cons.1 hc with rfl | hc
      · exact List.mem_cons_self
      · exact List.mem_cons_of_mem a (ih hu hc)

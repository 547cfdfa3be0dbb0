import Mathlib.Data.List.Destutter
import Mathlib.Order.Lattice

/-!
# Sorting by a key

A stable sort of a list by a key of its elements, and the removal of neighbours with the same key.  One after the other
they leave each key of the list once, in order.
-/

namespace SortBy

variable {α κ : Type*} [LinearOrder κ] (key : α → κ)

/-- A stable sort by the key. -/
def sort (xs : List α) : List α := xs.mergeSort fun a b => decide (key a ≤ key b)

/-- Of neighbours with the same key, the first. -/
def dedup (xs : List α) : List α := xs.destutter fun a b => key a ≠ key b

theorem sort_perm (xs : List α) : (sort key xs).Perm xs := List.mergeSort_perm _ _

theorem pairwise_sort (xs : List α) : (sort key xs).Pairwise fun a b => key a ≤ key b := by
  have htrans : ∀ a b c : α, decide (key a ≤ key b) → decide (key b ≤ key c) → decide (key a ≤ key c) := by
    intro a b c hab hbc
    simp only [decide_eq_true_eq] at *
    exact le_trans hab hbc
  have htotal : ∀ a b : α, decide (key a ≤ key b) || decide (key b ≤ key a) := by
    intro a b
    simpa using le_total (key a) (key b)
  have h := List.pairwise_mergeSort htrans htotal xs
  simpa [sort] using h

/-- What is in order stays as it is. -/
theorem sort_of_pairwise {xs : List α} (h : xs.Pairwise fun a b => key a ≤ key b) : sort key xs = xs := by
  refine List.mergeSort_of_pairwise ?_
  simpa using h

/-- Two ways to put the same elements in order agree if those with one key are equal. -/
theorem eq_of_perm {xs ys : List α} (hperm : xs.Perm ys) (hxs : xs.Pairwise fun a b => key a ≤ key b)
    (hys : ys.Pairwise fun a b => key a ≤ key b) (hkey : ∀ a ∈ xs, ∀ b ∈ xs, key a = key b → a = b) : xs = ys := by
  refine hperm.eq_of_pairwise (fun a b ha hb hab hba => ?_) hxs hys
  exact hkey a ha b (hperm.mem_iff.2 hb) (le_antisymm hab hba)

/-- Removing neighbours keeps the keys. -/
theorem mem_map_dedup {c : κ} (xs : List α) : c ∈ (dedup key xs).map key ↔ c ∈ xs.map key := by
  constructor
  · intro h
    exact ((List.destutter_sublist _ xs).map key).subset h
  · cases xs with
    | nil => exact id
    | cons a xs =>
      unfold dedup
      rw [List.destutter_cons']
      induction xs generalizing a with
      | nil => exact id
      | cons b xs ih =>
        intro h
        rw [List.destutter'_cons]
        split
        · rw [List.map_cons, List.mem_cons] at h
          rw [List.map_cons, List.mem_cons]
          exact h.imp id (ih b)
        · rename_i heq
          refine ih a ?_
          simp only [ne_eq, not_not] at heq
          simpa [heq] using h

theorem isChain_lt {xs : List α} (hle : xs.Pairwise fun a b => key a ≤ key b)
    (hne : xs.IsChain fun a b => key a ≠ key b) : (xs.map key).IsChain (· < ·) := by
  rw [List.isChain_map]
  induction xs with
  | nil => exact .nil
  | cons a xs ih =>
    rw [List.pairwise_cons] at hle
    cases xs with
    | nil => exact .singleton a
    | cons b xs =>
      rw [List.isChain_cons_cons] at hne ⊢
      exact ⟨lt_of_le_of_ne (hle.1 b List.mem_cons_self) hne.1, ih hle.2 hne.2⟩

/-- Each key is there once, in order. -/
theorem pairwise_dedup_sort (xs : List α) : ((dedup key (sort key xs)).map key).Pairwise (· < ·) := by
  have hle : (dedup key (sort key xs)).Pairwise fun a b => key a ≤ key b :=
    (pairwise_sort key xs).sublist (List.destutter_sublist _ _)
  have hne : (dedup key (sort key xs)).IsChain fun a b => key a ≠ key b := List.isChain_destutter _ _
  exact List.isChain_iff_pairwise.1 (isChain_lt key hle hne)

end SortBy

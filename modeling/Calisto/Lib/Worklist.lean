import Mathlib.Algebra.BigOperators.Group.Finset.Basic
import Mathlib.Algebra.Order.BigOperators.Group.Finset
import Mathlib.Data.Finset.SDiff
import Mathlib.Logic.Relation
import Mathlib.Order.Bounds.Basic

/-!
# Worklists

A search with a queue: the first element is skipped if it has been seen, and otherwise its successors join the queue,
except those that have been seen already.  The queue may hold an element many times, and the relation may have cycles.
A search in a finite set ends (`Step.rank_lt`), and what it has seen then is the least set that contains the element it
began with and the successors of its elements (`Inv.isLeast`), each of them seen once.
-/

namespace Worklist

variable {α : Type*}

structure Search (α : Type*) where
  queue : List α
  seen : List α

/-- A turn of the search along `E`, where an element adds at most `w` of its successors to the queue. -/
inductive Step (E : α → α → Prop) (w : α → ℕ) : Search α → Search α → Prop
  | skip (x : α) (queue seen : List α) (hx : x ∈ seen) : Step E w ⟨x :: queue, seen⟩ ⟨queue, seen⟩
  | visit (x : α) (queue seen added : List α) (hx : x ∉ seen) (hadded : ∀ y ∈ added, E x y)
    (hall : ∀ y, E x y → y ∈ added ∨ y ∈ seen ++ [x]) (hw : added.length ≤ w x) :
    Step E w ⟨x :: queue, seen⟩ ⟨queue ++ added, seen ++ [x]⟩

/-- The sets that contain an element and the successors of their elements. -/
def Closed (E : α → α → Prop) (x₀ : α) (S : Set α) : Prop := x₀ ∈ S ∧ ∀ x ∈ S, ∀ y, E x y → y ∈ S

variable {E : α → α → Prop} {w : α → ℕ} {x₀ x y : α} {s t : Search α}

theorem Closed.of_reached {S : Set α} (h : Closed E x₀ S) (hy : Relation.ReflTransGen E x₀ y) : y ∈ S := by
  induction hy with
  | refl => exact h.1
  | tail _ hE ih => exact h.2 _ ih _ hE

/-- The least of these sets is what is reached from the element. -/
theorem isLeast_reached (E : α → α → Prop) (x₀ : α) :
    IsLeast {S | Closed E x₀ S} {y | Relation.ReflTransGen E x₀ y} :=
  ⟨⟨.refl, fun _ hx _ hE => .tail hx hE⟩, fun _ hS _ hy => hS.of_reached hy⟩

/-! ### Every turn -/

/-- What holds between the turns. -/
structure Inv (E : α → α → Prop) (x₀ : α) (s : Search α) : Prop where
  nodup : s.seen.Nodup
  reached : ∀ y, y ∈ s.queue ∨ y ∈ s.seen → Relation.ReflTransGen E x₀ y
  start : x₀ ∈ s.queue ∨ x₀ ∈ s.seen
  closed : ∀ x ∈ s.seen, ∀ y, E x y → y ∈ s.queue ∨ y ∈ s.seen

theorem Inv.init (E : α → α → Prop) (x₀ : α) : Inv E x₀ ⟨[x₀], []⟩ where
  nodup := List.nodup_nil
  reached y hy := by
    rw [List.mem_singleton, List.mem_nil_iff, or_false] at hy
    rw [hy]
  start := .inl List.mem_cons_self
  closed x hx := absurd hx List.not_mem_nil

theorem Step.inv (hstep : Step E w s t) (h : Inv E x₀ s) : Inv E x₀ t := by
  cases hstep with
  | skip x queue seen hx =>
    have hleave : ∀ y, y ∈ x :: queue ∨ y ∈ seen → y ∈ queue ∨ y ∈ seen := by
      rintro y (hy | hy)
      · rcases List.mem_cons.1 hy with rfl | hy
        · exact .inr hx
        · exact .inl hy
      · exact .inr hy
    exact ⟨h.nodup, fun y hy => h.reached y (hy.imp_left (List.mem_cons_of_mem x)), hleave x₀ h.start,
      fun a ha b hE => hleave b (h.closed a ha b hE)⟩
  | visit x queue seen added hx hadded hall hw =>
    have hleave : ∀ y, y ∈ x :: queue ∨ y ∈ seen → y ∈ queue ++ added ∨ y ∈ seen ++ [x] := by
      rintro y (hy | hy)
      · rcases List.mem_cons.1 hy with rfl | hy
        · exact .inr (by simp)
        · exact .inl (List.mem_append_left _ hy)
      · exact .inr (List.mem_append_left _ hy)
    have hreach : Relation.ReflTransGen E x₀ x := h.reached x (.inl List.mem_cons_self)
    refine ⟨?_, fun y hy => ?_, hleave x₀ h.start, fun a ha b hE => ?_⟩
    · exact List.nodup_append.2 ⟨h.nodup, List.nodup_singleton x, by
        rintro a ha b hb rfl
        exact hx (List.mem_singleton.1 hb ▸ ha)⟩
    · rcases hy with hy | hy
      · rcases List.mem_append.1 hy with hy | hy
        · exact h.reached y (.inl (List.mem_cons_of_mem x hy))
        · exact hreach.tail (hadded y hy)
      · rcases List.mem_append.1 hy with hy | hy
        · exact h.reached y (.inr hy)
        · rwa [List.mem_singleton.1 hy]
    · rcases List.mem_append.1 ha with ha | ha
      · exact hleave b (h.closed a ha b hE)
      · rw [List.mem_singleton.1 ha] at hE
        exact (hall b hE).imp_left (List.mem_append_right _)

/-! ### The end -/

/-- What has been seen when nothing is left in the queue is what is reached. -/
theorem Inv.mem_seen_iff (h : Inv E x₀ s) (hq : s.queue = []) : y ∈ s.seen ↔ Relation.ReflTransGen E x₀ y := by
  have hclosed : Closed E x₀ {x | x ∈ s.seen} := by
    refine ⟨h.start.resolve_left (by simp [hq]), fun a ha b hE => ?_⟩
    exact (h.closed a ha b hE).resolve_left (by simp [hq])
  exact ⟨fun hy => h.reached y (.inr hy), fun hy => hclosed.of_reached hy⟩

theorem Inv.isLeast (h : Inv E x₀ s) (hq : s.queue = []) : IsLeast {S | Closed E x₀ S} {x | x ∈ s.seen} := by
  have heq : {x | x ∈ s.seen} = {y | Relation.ReflTransGen E x₀ y} := Set.ext fun y => h.mem_seen_iff hq
  rw [heq]
  exact isLeast_reached E x₀

/-- How many turns are left at most: one for each element of the queue, and for each one that has not been seen one for
each successor that it may add. -/
def rank [DecidableEq α] (U : Finset α) (w : α → ℕ) (s : Search α) : ℕ :=
  s.queue.length + ∑ u ∈ U \ s.seen.toFinset, (w u + 1)

/-- A search in a finite set comes to its end. -/
theorem Step.rank_lt [DecidableEq α] (hstep : Step E w s t) {U : Finset α} (hU : ∀ x ∈ s.queue, x ∈ U) :
    rank U w t < rank U w s := by
  cases hstep with
  | skip x queue seen hx => simp [rank]
  | visit x queue seen added hx hadded hall hw =>
    have hmem : x ∈ U \ seen.toFinset := by
      rw [Finset.mem_sdiff, List.mem_toFinset]
      exact ⟨hU x List.mem_cons_self, hx⟩
    have herase : U \ (seen ++ [x]).toFinset = (U \ seen.toFinset).erase x := by
      ext u
      simp only [Finset.mem_sdiff, Finset.mem_erase, List.mem_toFinset, List.mem_append, List.mem_singleton, not_or]
      exact ⟨fun h => ⟨h.2.2, h.1, h.2.1⟩, fun h => ⟨h.2.1, h.2.2, h.1⟩⟩
    have hsum := Finset.add_sum_erase (U \ seen.toFinset) (fun u => w u + 1) hmem
    rw [rank, rank, herase, ← hsum, List.length_append, List.length_cons]
    omega

end Worklist

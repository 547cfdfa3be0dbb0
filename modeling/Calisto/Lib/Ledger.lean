import Mathlib.Logic.Function.Basic
import Mathlib.Data.List.Count

/-!
# Handles that are destroyed once

A ledger of the calls that receive a handle, some of which destroy it.  It is sound if every call received a handle
that was still there; then no handle is destroyed twice.
-/

/-- A call that received a handle, and whether the handle was still there. -/
structure Ledger.Entry (K : Type*) where
  handle : K
  destroys : Bool
  intact : Bool
  deriving DecidableEq

structure Ledger (K : Type*) where
  gone : K → Bool := fun _ => false
  entries : List (Ledger.Entry K) := []

namespace Ledger

variable {K : Type*} {L : Ledger K} {k k' : K}

/-- A call that leaves the handle as it is. -/
def use (L : Ledger K) (k : K) : Ledger K := { L with entries := ⟨k, false, !L.gone k⟩ :: L.entries }

/-- Every call received a handle that was there. -/
def Sound (L : Ledger K) : Prop := ∀ e ∈ L.entries, e.intact = true

/-- A ledger evaluated to calls one of which received a handle that was gone. -/
theorem not_sound_of_any (h : (L.entries.any fun e => !e.intact) = true) : ¬L.Sound := by
  intro hs
  obtain ⟨e, he, hi⟩ := List.any_eq_true.1 h
  rw [hs e he] at hi
  simp at hi

@[simp] theorem use_gone : (L.use k).gone = L.gone := rfl

theorem not_sound_use_gone (hk : L.gone k = true) : ¬(L.use k).Sound := fun h => by
  have := h _ List.mem_cons_self
  simp [hk] at this

theorem not_sound_use (h : ¬L.Sound) : ¬(L.use k).Sound := fun hs => h fun e he => hs e (List.mem_cons_of_mem _ he)

variable [DecidableEq K]

/-- The handle is gone from now on. -/
def free (L : Ledger K) (k : K) : Ledger K := { L with gone := Function.update L.gone k true }

/-- A call that destroys the handle. -/
def destroy (L : Ledger K) (k : K) : Ledger K :=
  { L.free k with entries := ⟨k, true, !L.gone k⟩ :: L.entries }

/-- The calls that destroyed the handle. -/
def destructions (L : Ledger K) (k : K) : Nat := L.entries.countP fun e => e.handle = k ∧ e.destroys

@[simp] theorem free_gone_self : (L.free k).gone k = true := Function.update_self ..

theorem free_gone_ne (h : k' ≠ k) : (L.free k).gone k' = L.gone k' := Function.update_of_ne h ..

@[simp] theorem destroy_gone : (L.destroy k).gone = (L.free k).gone := rfl

theorem not_sound_destroy (h : ¬L.Sound) : ¬(L.destroy k).Sound := fun hs => h fun e he =>
  hs e (List.mem_cons_of_mem _ he)

theorem not_sound_destroy_gone (hk : L.gone k = true) : ¬(L.destroy k).Sound := fun h => by
  have := h _ List.mem_cons_self
  simp [hk] at this

/-- Sound so far, with a destruction for no handle that is there, and for each other at most one. -/
structure Ok (L : Ledger K) : Prop where
  sound : L.Sound
  once : ∀ k, L.destructions k ≤ 1
  none : ∀ k, L.gone k = false → L.destructions k = 0

theorem ok_empty : Ok ({} : Ledger K) := ⟨by simp [Sound], by simp [destructions], by simp [destructions]⟩

theorem Ok.use (h : L.Ok) (hk : L.gone k = false) : (L.use k).Ok := by
  have hd : ∀ k', (L.use k).destructions k' = L.destructions k' := by
    intro k'
    simp [destructions, Ledger.use]
  refine ⟨fun e he => ?_, fun k' => ?_, fun k' hk' => ?_⟩
  · rcases List.mem_cons.1 he with rfl | he
    · simp [hk]
    · exact h.sound e he
  · rw [hd]
    exact h.once k'
  · rw [hd]
    exact h.none k' hk'

theorem Ok.free (h : L.Ok) : (L.free k).Ok := by
  refine ⟨h.sound, h.once, fun k' hk' => ?_⟩
  by_cases hkk : k' = k
  · simp [hkk] at hk'
  · exact h.none k' ((free_gone_ne hkk).symm.trans hk')

theorem destructions_destroy_self : (L.destroy k).destructions k = L.destructions k + 1 := by
  simp [destructions, destroy]

theorem destructions_destroy_ne (h : k' ≠ k) : (L.destroy k).destructions k' = L.destructions k' := by
  simp [destructions, destroy, Ne.symm h]

theorem Ok.destroy (h : L.Ok) (hk : L.gone k = false) : (L.destroy k).Ok := by
  refine ⟨fun e he => ?_, fun k' => ?_, fun k' hk' => ?_⟩
  · rcases List.mem_cons.1 he with rfl | he
    · simp [hk]
    · exact h.sound e he
  · by_cases hkk : k' = k
    · subst hkk
      exact Nat.le_of_eq (by rw [destructions_destroy_self, h.none k' hk])
    · rw [destructions_destroy_ne hkk]
      exact h.once k'
  · by_cases hkk : k' = k
    · simp [hkk] at hk'
    · rw [destructions_destroy_ne hkk]
      exact h.none k' ((free_gone_ne hkk).symm.trans hk')

end Ledger

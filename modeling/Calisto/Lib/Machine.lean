import Mathlib.Tactic.Basic
import Mathlib.Tactic.Choose

/-!
# Machines, runs and invariants

A machine is a partial step function `step : σ → α → Option σ`: the action `a` is enabled in `s` when `step s a`
is not `none`.  `exec` runs a list of actions.  `Reach step G s₀ s` says that some run leads from `s₀` to `s` and
that every action of it satisfies the guard `G` in the state in which it is taken; with the guard `Free` these are
all the runs.  An invariant is proved once for all runs by `Reach.invariant`, and a concrete run is turned into
`Reach` by evaluation (`Reach.of_exec`, `Reach.of_exec_guarded`).  `recorded step obs` keeps a
record of the run beside the state.  `Endless step s₀ s a` is a run that never ends; a run that leads back to where it
began can be made one (`exists_cycle`, `Endless.after`).
-/

namespace Machine

variable {σ α : Type*}

/-- The state after the actions, if each of them is enabled. -/
def exec (step : σ → α → Option σ) : σ → List α → Option σ
  | s, [] => some s
  | s, a :: as => match step s a with
    | none => none
    | some t => exec step t as

/-- The states reached by runs each of whose actions meets the guard `G` where it is taken. -/
inductive Reach (step : σ → α → Option σ) (G : σ → α → Prop) (s₀ : σ) : σ → Prop
  | refl : Reach step G s₀ s₀
  | tail {s t : σ} {a : α} : Reach step G s₀ s → G s a → step s a = some t → Reach step G s₀ t

/-- The guard of the runs without restriction. -/
def Free (_ : σ) (_ : α) : Prop := True

variable {step : σ → α → Option σ} {G G' : σ → α → Prop} {s₀ s t : σ}

/-- What holds at the start and is kept by every step of a guarded run holds in every state reached. -/
theorem Reach.invariant {I : σ → Prop} (h : Reach step G s₀ s) (init : I s₀)
    (next : ∀ s a t, Reach step G s₀ s → I s → G s a → step s a = some t → I t) : I s := by
  induction h with
  | refl => exact init
  | tail hr hg hs ih => exact next _ _ _ hr ih hg hs

theorem Reach.mono (h : Reach step G s₀ s) (hG : ∀ s a, G s a → G' s a) : Reach step G' s₀ s := by
  induction h with
  | refl => exact .refl
  | tail _ hg hs ih => exact .tail ih (hG _ _ hg) hs

/-- A guarded run is a run. -/
theorem Reach.free (h : Reach step G s₀ s) : Reach step Free s₀ s := h.mono fun _ _ _ => trivial

theorem Reach.trans (h : Reach step G s₀ s) (h' : Reach step G s t) : Reach step G s₀ t := by
  induction h' with
  | refl => exact h
  | tail _ hg hs ih => exact .tail ih hg hs

/-! ### Records -/

/-- The machine with a record of what its actions do. -/
def recorded {β : Type*} (step : σ → α → Option σ) (obs : σ → α → List β) (x : σ × List β) (a : α) :
    Option (σ × List β) :=
  (step x.1 a).map fun t => (t, x.2 ++ obs x.1 a)

theorem recorded_eq_some {β : Type*} {obs : σ → α → List β} {x y : σ × List β} {a : α}
    (h : recorded step obs x a = some y) : step x.1 a = some y.1 ∧ y.2 = x.2 ++ obs x.1 a := by
  obtain ⟨t, hstep, rfl⟩ := Option.map_eq_some_iff.1 h
  exact ⟨hstep, rfl⟩

/-! ### Concrete runs -/

/-- The machine with the actions that miss the guard disabled. -/
def guarded (step : σ → α → Option σ) (G : σ → α → Prop) [∀ s a, Decidable (G s a)] (s : σ) (a : α) : Option σ :=
  if G s a then step s a else none

theorem Reach.of_exec_guarded [∀ s a, Decidable (G s a)] {as : List α} (h : exec (guarded step G) s as = some t) :
    Reach step G s t := by
  induction as generalizing s with
  | nil => cases h; exact .refl
  | cons a as ih =>
    unfold exec at h
    split at h
    · simp at h
    · rename_i u hu
      unfold guarded at hu
      split at hu
      · rename_i hg
        exact (Reach.tail .refl hg hu).trans (ih h)
      · simp at hu

/-- A run is guarded if its actions meet the guard wherever they are taken. -/
theorem Reach.of_exec_forall {as : List α} (h : exec step s as = some t) (hG : ∀ a ∈ as, ∀ s, G s a) :
    Reach step G s t := by
  induction as generalizing s with
  | nil => cases h; exact .refl
  | cons a as ih =>
    unfold exec at h
    split at h
    · simp at h
    · rename_i u hu
      have hrest : Reach step G u t := ih h fun b hb => hG b (List.mem_cons_of_mem a hb)
      exact (Reach.tail .refl (hG a List.mem_cons_self s) hu).trans hrest

theorem Reach.of_exec {as : List α} (h : exec step s as = some t) : Reach step Free s t :=
  .of_exec_forall h fun _ _ _ => trivial

/-- A run evaluated to a state with a decidable property. -/
theorem Reach.of_any {l : List α} {p : σ → Bool} (h : (exec step s l).any p) : ∃ t, Reach step Free s t ∧ p t := by
  obtain ⟨t, ht, hp⟩ := (Option.any_eq_true _ _).1 h
  exact ⟨t, .of_exec ht, hp⟩

theorem Reach.of_any_guarded [∀ s a, Decidable (G s a)] {l : List α} {p : σ → Bool}
    (h : (exec (guarded step G) s l).any p) : ∃ t, Reach step G s t ∧ p t := by
  obtain ⟨t, ht, hp⟩ := (Option.any_eq_true _ _).1 h
  exact ⟨t, .of_exec_guarded ht, hp⟩

/-! ### Runs without an end -/

/-- The run from `s₀` through the states `s` with the actions `a` never ends. -/
structure Endless (step : σ → α → Option σ) (s₀ : σ) (s : Nat → σ) (a : Nat → α) : Prop where
  start : s 0 = s₀
  next : ∀ n, step (s n) (a n) = some (s (n + 1))

theorem Endless.reach_guarded {s : Nat → σ} {a : Nat → α} (h : Endless step s₀ s a) (hG : ∀ n, G (s n) (a n))
    (n : Nat) : Reach step G s₀ (s n) := by
  induction n with
  | zero =>
    rw [h.start]
    exact .refl
  | succ n ih => exact ih.tail (hG n) (h.next n)

theorem Endless.reach {s : Nat → σ} {a : Nat → α} (h : Endless step s₀ s a) (n : Nat) : Reach step Free s₀ (s n) :=
  h.reach_guarded (fun _ => trivial) n

/-- A run to a state in which an action changes nothing goes on without an end. -/
theorem exists_endless {as : List α} {idle : α} (h : exec step s₀ as = some t) (hidle : step t idle = some t) :
    ∃ s a, Endless step s₀ s a ∧ (∀ n ≤ as.length, exec step s₀ (as.take n) = some (s n)) ∧
      ∀ n ≥ as.length, s n = t := by
  induction as generalizing s₀ with
  | nil =>
    cases h
    exact ⟨fun _ => t, fun _ => idle, ⟨rfl, fun _ => hidle⟩, fun n _ => by rw [List.take_nil]; rfl, fun _ _ => rfl⟩
  | cons a as ih =>
    unfold exec at h
    split at h
    · simp at h
    · rename_i u hu
      obtain ⟨s, b, hrun, hfirst, hlast⟩ := ih h
      refine ⟨fun n => n.casesOn s₀ s, fun n => n.casesOn a b, ⟨rfl, fun n => ?_⟩, fun n hn => ?_, fun n hn => ?_⟩
      · cases n with
        | zero => exact hu.trans (congrArg some hrun.start.symm)
        | succ n => exact hrun.next n
      · cases n with
        | zero => rfl
        | succ n =>
          rw [List.take_succ_cons, exec, hu]
          exact hfirst n (Nat.le_of_succ_le_succ hn)
      · cases n with
        | zero => simp at hn
        | succ n => exact hlast n (Nat.le_of_succ_le_succ hn)

theorem exec_append {as bs : List α} : exec step s (as ++ bs) = (exec step s as).bind fun t => exec step t bs := by
  induction as generalizing s with
  | nil => rfl
  | cons a as ih =>
    rw [List.cons_append, exec, exec]
    cases step s a with
    | none => rfl
    | some u => exact ih

/-- A run to a state from which a run without an end begins. -/
theorem Endless.after {as : List α} {s' : Nat → σ} {a' : Nat → α} (h : exec step s₀ as = some t)
    (hrun : Endless step t s' a') :
    ∃ s a, Endless step s₀ s a ∧ (∀ n < as.length, as[n]? = some (a n)) ∧
      ∀ n, s (as.length + n) = s' n ∧ a (as.length + n) = a' n := by
  induction as generalizing s₀ with
  | nil =>
    cases h
    refine ⟨s', a', hrun, fun n hn => absurd hn (Nat.not_lt_zero n), fun n => ?_⟩
    rw [List.length_nil, Nat.zero_add]
    exact ⟨rfl, rfl⟩
  | cons b as ih =>
    rw [exec] at h
    split at h
    · cases h
    · rename_i u hu
      obtain ⟨s, a, hend, hfirst, hlater⟩ := ih h
      refine ⟨fun n => n.casesOn s₀ s, fun n => n.casesOn b a, ⟨rfl, fun n => ?_⟩, fun n hn => ?_, fun n => ?_⟩
      · cases n with
        | zero => exact hu.trans (congrArg some hend.start.symm)
        | succ n => exact hend.next n
      · cases n with
        | zero => rfl
        | succ n =>
          rw [List.getElem?_cons_succ]
          exact hfirst n (Nat.lt_of_succ_lt_succ hn)
      · rw [List.length_cons, Nat.add_right_comm]
        exact hlater n

/-- What leads back to where it began can go on without an end. -/
theorem exists_cycle {as : List α} (h : exec step t as = some t) (hne : as ≠ []) :
    ∃ s a, Endless step t s a ∧ ∀ n, a n ∈ as := by
  have hpos : 0 < as.length := List.length_pos_iff.2 hne
  have hlt : ∀ n, n % as.length < as.length := fun n => Nat.mod_lt n hpos
  have hsome : ∀ m, ∃ u, exec step t (as.take m) = some u := by
    intro m
    cases hu : exec step t (as.take m) with
    | none =>
      rw [← List.take_append_drop m as, exec_append, hu] at h
      cases h
    | some u => exact ⟨u, rfl⟩
  choose u hu using hsome
  refine ⟨fun n => u (n % as.length), fun n => as.get ⟨n % as.length, hlt n⟩, ⟨?_, fun n => ?_⟩,
    fun n => List.get_mem ..⟩
  · have hzero := hu 0
    cases hzero
    simp
  · have hnext := hu (n % as.length + 1)
    rw [List.take_succ_eq_append_getElem (hlt n), exec_append, hu] at hnext
    have hone : step (u (n % as.length)) (as.get ⟨n % as.length, hlt n⟩) = some (u (n % as.length + 1)) := by
      simp only [Option.bind_some, exec] at hnext
      split at hnext
      · cases hnext
      · rename_i v hv
        exact hv.trans hnext
    refine hone.trans (congrArg some ?_)
    rcases Nat.lt_or_eq_of_le (hlt n) with hin | hend
    · have hmod : (n + 1) % as.length = n % as.length + 1 := by
        rw [← Nat.mod_add_mod, Nat.mod_eq_of_lt hin]
      rw [hmod]
    · have hmod : (n + 1) % as.length = 0 := by
        rw [← Nat.mod_add_mod, show n % as.length + 1 = as.length from hend, Nat.mod_self]
      have hlast := hu (n % as.length + 1)
      rw [show n % as.length + 1 = as.length from hend, List.take_length, h] at hlast
      have hfirst := hu 0
      cases hfirst
      rw [hmod, show n % as.length + 1 = as.length from hend]
      exact (Option.some.inj hlast).symm

end Machine

import Mathlib.Logic.Function.Basic
import Mathlib.Data.List.Nodup

/-!
# Tables of handles and the records that own them

A table `t : K → Option V` says which handles are open and what they stand for.  `Covers t l` says that the
owners, taken together, list every open handle exactly once; it is kept by opening, closing and moving handles.
The owners are the entries of a list, each with its own handles `f x`, so the last lemmas describe how
`xs.flatMap f` changes when an entry is replaced (`List.set`) or removed (`List.eraseIdx`).
-/

namespace Handles

variable {K V : Type*}

/-- The handles open in `t` are exactly those of `l`, each listed once. -/
structure Covers (t : K → Option V) (l : List K) : Prop where
  nodup : l.Nodup
  mem_iff : ∀ k, k ∈ l ↔ (t k).isSome

variable {t : K → Option V} {l l' : List K} {k : K}

theorem covers_nil : Covers (fun _ => none : K → Option V) [] :=
  ⟨List.nodup_nil, by simp⟩

theorem Covers.perm (h : Covers t l) (p : l.Perm l') : Covers t l' :=
  ⟨p.nodup_iff.1 h.nodup, fun k => p.mem_iff.symm.trans (h.mem_iff k)⟩

theorem Covers.not_mem (h : Covers t l) (hk : t k = none) : k ∉ l := by
  intro hm
  have := (h.mem_iff k).1 hm
  simp [hk] at this

theorem Covers.isSome (h : Covers t l) (hk : k ∈ l) : (t k).isSome := (h.mem_iff k).1 hk

section Update

variable [DecidableEq K]

/-- Opening a handle that was closed. -/
theorem Covers.insert (h : Covers t l) (hk : t k = none) (v : V) :
    Covers (Function.update t k (some v)) (k :: l) := by
  refine ⟨List.nodup_cons.2 ⟨h.not_mem hk, h.nodup⟩, fun x => ?_⟩
  by_cases hx : x = k
  · subst hx; simp
  · simp [hx, h.mem_iff]

/-- Closing a handle that some owner lists. -/
theorem Covers.erase (h : Covers t (k :: l)) : Covers (Function.update t k none) l := by
  obtain ⟨hk, hl⟩ := List.nodup_cons.1 h.nodup
  refine ⟨hl, fun x => ?_⟩
  by_cases hx : x = k
  · subst hx; simp [hk]
  · have := h.mem_iff x
    simpa [hx] using this

/-- Replacing what an open handle stands for. -/
theorem Covers.replace (h : Covers t l) (hk : k ∈ l) (v : V) : Covers (Function.update t k (some v)) l := by
  refine ⟨h.nodup, fun x => ?_⟩
  by_cases hx : x = k
  · subst hx; simp [hk]
  · simp [hx, h.mem_iff]

/-- Open the handles of a list, one after the other. -/
def openAll (t : K → Option V) (kvs : List (K × V)) : K → Option V :=
  kvs.foldl (fun t kv => Function.update t kv.1 (some kv.2)) t

/-- Close the handles of a list, one after the other. -/
def closeAll (t : K → Option V) (ks : List K) : K → Option V :=
  ks.foldl (fun t k => Function.update t k none) t

theorem openAll_of_not_mem {kvs : List (K × V)} (h : k ∉ kvs.map Prod.fst) : openAll t kvs k = t k := by
  induction kvs generalizing t with
  | nil => rfl
  | cons kv kvs ih =>
    simp only [List.map_cons, List.mem_cons, not_or] at h
    show openAll (Function.update t kv.1 (some kv.2)) kvs k = t k
    rw [ih h.2, Function.update_of_ne h.1]

/-- Each of the handles opened stands for what it was opened with. -/
theorem openAll_map {kvs : List (K × V)} (hnd : (kvs.map Prod.fst).Nodup) :
    (kvs.map Prod.fst).map (openAll t kvs) = kvs.map fun kv => some kv.2 := by
  induction kvs generalizing t with
  | nil => rfl
  | cons kv kvs ih =>
    simp only [List.map_cons, List.nodup_cons] at hnd
    have hhead : openAll (Function.update t kv.1 (some kv.2)) kvs kv.1 = some kv.2 := by
      rw [openAll_of_not_mem hnd.1, Function.update_self]
    simp only [List.map_cons]
    congr 1
    exact ih hnd.2

theorem openAll_eq_some {kvs : List (K × V)} {v : V} (h : openAll t kvs k = some v) :
    t k = some v ∨ (k, v) ∈ kvs := by
  induction kvs generalizing t with
  | nil => exact Or.inl h
  | cons kv kvs ih =>
    have hcons : openAll (Function.update t kv.1 (some kv.2)) kvs k = some v := h
    rcases ih hcons with hk | hk
    · by_cases hkey : k = kv.1
      · subst hkey
        rw [Function.update_self] at hk
        cases hk
        exact Or.inr (List.mem_cons_self ..)
      · rw [Function.update_of_ne hkey] at hk
        exact Or.inl hk
    · exact Or.inr (List.mem_cons_of_mem _ hk)

theorem update_none_eq_some {x : K} {v : V} (h : Function.update t x none k = some v) : t k = some v := by
  by_cases hk : k = x
  · subst hk; simp at h
  · rwa [Function.update_of_ne hk] at h

theorem closeAll_of_not_mem {ks : List K} (h : k ∉ ks) : closeAll t ks k = t k := by
  induction ks generalizing t with
  | nil => rfl
  | cons x ks ih =>
    simp only [List.mem_cons, not_or] at h
    show closeAll (Function.update t x none) ks k = t k
    rw [ih h.2, Function.update_of_ne h.1]

theorem closeAll_eq_some {ks : List K} {v : V} (h : closeAll t ks k = some v) : t k = some v := by
  induction ks generalizing t with
  | nil => exact h
  | cons x ks ih => exact update_none_eq_some (ih h)

theorem Covers.openAll {kvs : List (K × V)} (h : Covers t l) (hnd : (kvs.map Prod.fst).Nodup)
    (hfree : ∀ k ∈ kvs.map Prod.fst, t k = none) :
    Covers (openAll t kvs) (kvs.map Prod.fst ++ l) := by
  induction kvs generalizing t l with
  | nil => exact h
  | cons kv kvs ih =>
    simp only [List.map_cons, List.nodup_cons] at hnd
    have hk : t kv.1 = none := hfree kv.1 (by simp)
    have hfree' : ∀ x ∈ kvs.map Prod.fst, Function.update t kv.1 (some kv.2) x = none := by
      intro x hx
      have hne : x ≠ kv.1 := by rintro rfl; exact hnd.1 hx
      rw [Function.update_of_ne hne]
      exact hfree x (List.mem_cons_of_mem _ hx)
    have hstep := ih (h.insert hk kv.2) hnd.2 hfree'
    exact hstep.perm List.perm_middle

theorem Covers.closeAll {ks : List K} (h : Covers t (ks ++ l)) : Covers (closeAll t ks) l := by
  induction ks generalizing t with
  | nil => exact h
  | cons k ks ih => exact ih h.erase

end Update

/-! ### Owners in a list -/

variable {α β : Type*} {xs : List α} {i : Nat} {x : α}

/-- The handles of all owners are those of the `i`-th and those of the others. -/
theorem flatMap_perm_of_getElem? (h : xs[i]? = some x) (f : α → List β) :
    (xs.flatMap f).Perm (f x ++ (xs.eraseIdx i).flatMap f) := by
  induction xs generalizing i with
  | nil => cases h
  | cons y xs ih =>
    cases i with
    | zero => cases h; exact .refl _
    | succ i =>
      have hp := ih (i := i) h
      show (f y ++ xs.flatMap f).Perm (f x ++ (f y ++ (xs.eraseIdx i).flatMap f))
      exact (hp.append_left _).trans (List.perm_append_comm_assoc _ _ _)

/-- Replacing an owner replaces its handles. -/
theorem flatMap_set_perm (h : xs[i]? = some x) (y : α) (f : α → List β) :
    ((xs.set i y).flatMap f).Perm (f y ++ (xs.eraseIdx i).flatMap f) := by
  have hi : i < xs.length := (List.getElem?_eq_some_iff.1 h).1
  have hy : (xs.set i y)[i]? = some y := by simp [hi]
  simpa [List.eraseIdx_set_eq] using flatMap_perm_of_getElem? hy f

/-- The members of a list with one entry replaced. -/
theorem mem_set_or_mem_eraseIdx (h : xs[i]? = some x) {y z : α} (hz : z ∈ xs.set i y) :
    z = y ∨ z ∈ xs.eraseIdx i := by
  have hp := flatMap_set_perm h y fun z => [z]
  simp only [List.flatMap_singleton'] at hp
  exact List.mem_cons.1 (hp.mem_iff.1 hz)

/-- An owner replaced by one with the same handles. -/
theorem flatMap_set_eq (h : xs[i]? = some x) {y : α} {f : α → List β} (hf : f y = f x) :
    ((xs.set i y).flatMap f).Perm (xs.flatMap f) := by
  have h1 := flatMap_set_perm h y f
  rw [hf] at h1
  exact h1.trans (flatMap_perm_of_getElem? h f).symm

end Handles

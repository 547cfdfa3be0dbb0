import Mathlib.Data.List.Nodup
import Mathlib.Logic.Relation

/-!
# Sweeps

A loop goes over a list by index, removes some of the entries that it visits, and reads from another list, by the same
index, which entries to visit.  The flags were made for the list before the loop: behind a removal an entry is treated
under the flag of one before it (`rounds_flag`).  So the entries visited are flagged, and the flagged ones that stay are
visited, as far as each entry that the loop comes to has the flag that stands at its place (`flagged_of_visited_iff`,
`visited_of_flagged_iff`); none is visited twice (`nodup_visited`).
-/

namespace Sweep

variable {α : Type*}

/-- The entries that the loop has kept, the one that it visits, the ones that it has not come to, and the ones that it
has come to with the flags that it read for them. -/
structure State (α : Type*) where
  kept : List α := []
  now : Option α := none
  todo : List α
  rounds : List (α × Bool) := []

variable {flags : List Bool} {σ τ : State α} {all : List α}

/-- The list as it is. -/
def State.present (σ : State α) : List α := σ.kept ++ (σ.now.toList ++ σ.todo)

/-- The entries that have been visited. -/
def State.visited (σ : State α) : List α := (σ.rounds.filter (·.2)).map Prod.fst

/-- The index of the loop is the number of the entries that it has kept. -/
inductive Step (flags : List Bool) : State α → State α → Prop
  | skip {kept x todo rounds} (h : flags[kept.length]? = some false) :
    Step flags ⟨kept, none, x :: todo, rounds⟩ ⟨kept ++ [x], none, todo, rounds ++ [(x, false)]⟩
  | visit {kept x todo rounds} (h : flags[kept.length]? = some true) :
    Step flags ⟨kept, none, x :: todo, rounds⟩ ⟨kept, some x, todo, rounds ++ [(x, true)]⟩
  | keep {kept x todo rounds} : Step flags ⟨kept, some x, todo, rounds⟩ ⟨kept ++ [x], none, todo, rounds⟩
  | remove {kept x todo rounds} : Step flags ⟨kept, some x, todo, rounds⟩ ⟨kept, none, todo, rounds⟩

/-- The states of a sweep over the list. -/
def Run (flags : List Bool) (all : List α) (σ : State α) : Prop :=
  Relation.ReflTransGen (Step flags) { todo := all } σ

theorem Run.step (h : Run flags all σ) (hstep : Step flags σ τ) : Run flags all τ := Relation.ReflTransGen.tail h hstep

/-! ### Where the entries are -/

/-- The entries in their order: the ones that the loop has come to, and the rest. -/
theorem Run.entries (h : Run flags all σ) : σ.rounds.map Prod.fst ++ σ.todo = all := by
  induction h with
  | refl => rfl
  | tail _ hstep ih =>
    rw [← ih]
    cases hstep with
    | skip | visit => simp
    | keep | remove => rfl

/-- The entry that is visited is the one that the loop has come to last. -/
theorem Run.now_last (h : Run flags all σ) {x : α} (hx : σ.now = some x) :
    ∃ before, σ.rounds = before ++ [(x, true)] := by
  induction h with
  | refl => cases hx
  | tail _ hstep _ =>
    cases hstep with
    | visit =>
      cases hx
      exact ⟨_, rfl⟩
    | skip | keep | remove => cases hx

/-- What is left of the entries that the loop has come to is in their order. -/
theorem Run.sublist (h : Run flags all σ) : (σ.kept ++ σ.now.toList).Sublist (σ.rounds.map Prod.fst) := by
  induction h with
  | refl => exact .slnil
  | tail _ hstep ih =>
    cases hstep with
    | @skip kept x | @visit kept x =>
      rw [List.map_append]
      simpa using ih.append (List.Sublist.refl [x])
    | keep => simpa using ih
    | remove =>
      refine List.Sublist.trans ?_ ih
      simp

/-- An entry without a flag is kept. -/
theorem Run.kept_of_unflagged (h : Run flags all σ) {x : α} (hx : (x, false) ∈ σ.rounds) : x ∈ σ.kept := by
  induction h with
  | refl => cases hx
  | tail _ hstep ih =>
    cases hstep with
    | skip =>
      rcases List.mem_append.1 hx with hx | hx
      · exact List.mem_append_left _ (ih hx)
      · cases List.mem_singleton.1 hx
        exact List.mem_append_right _ (List.mem_singleton_self _)
    | visit =>
      rcases List.mem_append.1 hx with hx | hx
      · exact ih hx
      · cases List.mem_singleton.1 hx
    | keep => exact List.mem_append_left _ (ih hx)
    | remove => exact ih hx

theorem Run.length_kept_le (h : Run flags all σ) : σ.kept.length ≤ σ.rounds.length := by
  have hle := h.sublist.length_le
  simp only [List.length_append, List.length_map] at hle
  omega

theorem Run.getElem?_rounds (h : Run flags all σ) {j : Nat} {r : α × Bool} (hr : σ.rounds[j]? = some r) :
    all[j]? = some r.1 := by
  have hlt : j < (σ.rounds.map Prod.fst).length := by
    rw [List.length_map]
    exact (List.getElem?_eq_some_iff.1 hr).1
  rw [← h.entries, List.getElem?_append_left hlt, List.getElem?_map, hr]
  rfl

theorem Run.take_all (h : Run flags all σ) {j : Nat} (hj : j ≤ σ.rounds.length) :
    all.take j = (σ.rounds.map Prod.fst).take j := by
  rw [← h.entries, List.take_append_of_le_length (by rwa [List.length_map])]

/-- The loop comes to an entry only once. -/
theorem Run.nodup_rounds (h : Run flags all σ) (hnodup : all.Nodup) : (σ.rounds.map Prod.fst).Nodup := by
  rw [← h.entries] at hnodup
  exact (List.nodup_append.1 hnodup).1

theorem Run.nodup_visited (h : Run flags all σ) (hnodup : all.Nodup) : σ.visited.Nodup :=
  (h.nodup_rounds hnodup).sublist (List.filter_sublist.map Prod.fst)

theorem mem_visited_iff {x : α} : x ∈ σ.visited ↔ (x, true) ∈ σ.rounds := by
  unfold State.visited
  constructor
  · intro h
    obtain ⟨⟨y, b⟩, hr, rfl⟩ := List.mem_map.1 h
    obtain ⟨hr, rfl⟩ := List.mem_filter.1 hr
    exact hr
  · intro h
    exact List.mem_map.2 ⟨(x, true), List.mem_filter.2 ⟨h, rfl⟩, rfl⟩

/-! ### Under which flag an entry is treated -/

variable [DecidableEq α]

/-- The place of the entry with the index `j`: as many are before it as are still there. -/
def place (all : List α) (σ : State α) (j : Nat) : Nat := (all.take j).countP (· ∈ σ.present)

theorem countP_mem_of_sublist {xs ys : List α} (h : xs.Sublist ys) (hnodup : ys.Nodup) :
    ys.countP (· ∈ xs) = xs.length := by
  induction h with
  | slnil => rfl
  | cons y h ih =>
    rename_i xs ys
    rw [List.nodup_cons] at hnodup
    have hy : y ∉ xs := fun hmem => hnodup.1 (h.subset hmem)
    rw [List.countP_cons_of_neg (by simpa using hy), ih hnodup.2]
  | cons_cons y h ih =>
    rename_i xs ys
    rw [List.nodup_cons] at hnodup
    have hcongr : ys.countP (· ∈ y :: xs) = ys.countP (· ∈ xs) := by
      refine List.countP_congr fun z hz => ?_
      have hne : z ≠ y := fun heq => hnodup.1 (heq ▸ hz)
      simp [hne]
    rw [List.countP_cons_of_pos (by simp), hcongr, ih hnodup.2, List.length_cons]

/-- The index of the loop is the place of the next entry. -/
theorem Run.place_eq (h : Run flags all σ) (hnodup : all.Nodup) (hnow : σ.now = none) :
    place all σ σ.rounds.length = σ.kept.length := by
  have hentries := h.entries
  have hsub := h.sublist
  rw [hnow, Option.toList_none, List.append_nil] at hsub
  have hfst := h.nodup_rounds hnodup
  rw [place, h.take_all (Nat.le_refl _), List.take_of_length_le (Nat.le_of_eq (List.length_map _)),
    ← countP_mem_of_sublist hsub hfst]
  refine List.countP_congr fun x hx => ?_
  have hx' : x ∉ σ.todo := by
    rw [← hentries, List.nodup_append] at hnodup
    exact fun hmem => hnodup.2.2 x hx x hmem rfl
  simp [State.present, hnow, hx']

theorem place_congr (h : τ.present = σ.present) (j : Nat) : place all τ j = place all σ j := by
  rw [place, h, place]

/-- The places of the entries that the loop has come to do not change any more. -/
theorem Run.place_step (h : Run flags all σ) (hnodup : all.Nodup) (hstep : Step flags σ τ) {j : Nat}
    (hj : j < σ.rounds.length) : place all τ j = place all σ j := by
  cases hstep with
  | skip | visit | keep => exact place_congr (by simp [State.present]) j
  | @remove kept x todo rounds =>
    obtain ⟨before, hrounds⟩ := h.now_last rfl
    -- the entry that is removed is not before any of the others that the loop has come to
    have hentries := h.entries
    have htake := h.take_all (Nat.le_of_lt hj)
    dsimp only at hrounds hentries htake hj
    refine List.countP_congr fun y hy => ?_
    have hy' : y ∈ before.map Prod.fst := by
      rw [hrounds, List.length_append, List.length_singleton] at hj
      rw [htake, hrounds, List.map_append, List.take_append_of_le_length (by rw [List.length_map]; omega)] at hy
      exact List.mem_of_mem_take hy
    have hne : y ≠ x := by
      rw [← hentries, hrounds, List.map_append, List.append_assoc, List.nodup_append] at hnodup
      exact hnodup.2.2 y hy' x List.mem_cons_self
    simp [State.present, hne]

/-- An entry is treated under the flag at its place. -/
theorem Run.rounds_flag (h : Run flags all σ) (hnodup : all.Nodup) {j : Nat} {r : α × Bool}
    (hr : σ.rounds[j]? = some r) : flags[place all σ j]? = some r.2 := by
  induction h with
  | refl => cases hr
  | @tail σ τ hrun hstep ih =>
    have hrun : Run flags all σ := hrun
    by_cases hj : j < σ.rounds.length
    · have hr' : σ.rounds[j]? = some r := by
        cases hstep with
        | skip | visit => rwa [List.getElem?_append_left hj] at hr
        | keep | remove => exact hr
      rw [hrun.place_step hnodup hstep hj]
      exact ih hr'
    · -- the entry that the loop has just come to
      have hlt := (List.getElem?_eq_some_iff.1 hr).1
      cases hstep with
      | @skip kept x todo rounds hflag | @visit kept x todo rounds hflag =>
        have hlen : j = rounds.length := by
          simp only [List.length_append, List.length_singleton] at hlt hj
          omega
        subst hlen
        rw [List.getElem?_concat_length, Option.some.injEq] at hr
        rw [place_congr (σ := ⟨kept, none, x :: todo, rounds⟩) (by simp [State.present]),
          hrun.place_eq hnodup rfl, ← hr]
        exact hflag
      | keep | remove => exact absurd hlt hj

/-! ### Which entries are visited -/

/-- Only flagged entries are visited if and only if no other one has come under a flag. -/
theorem Run.flagged_of_visited_iff (h : Run flags all σ) (hnodup : all.Nodup) :
    (∀ x ∈ σ.visited, ∃ j : Nat, all[j]? = some x ∧ flags[j]? = some true) ↔
      ∀ j < σ.rounds.length, flags[place all σ j]? = some true → flags[j]? = some true := by
  constructor
  · intro hvisited j hj hflag
    have hr : σ.rounds[j]? = some σ.rounds[j] := List.getElem?_eq_getElem hj
    have htrue : σ.rounds[j].2 = true := by
      have heq := (h.rounds_flag hnodup hr).symm.trans hflag
      exact Option.some.inj heq
    have hmem : σ.rounds[j].1 ∈ σ.visited := by
      rw [mem_visited_iff, ← htrue]
      exact List.getElem_mem hj
    obtain ⟨k, hk, hkflag⟩ := hvisited _ hmem
    have hkj : k = j := by
      have hlt : k < all.length := (List.getElem?_eq_some_iff.1 hk).1
      exact (List.getElem?_inj hlt hnodup).1 (hk.trans (h.getElem?_rounds hr).symm)
    rw [← hkj]
    exact hkflag
  · intro hcond x hx
    obtain ⟨j, hr⟩ := List.mem_iff_getElem?.1 (mem_visited_iff.1 hx)
    have hflag := h.rounds_flag hnodup hr
    exact ⟨j, h.getElem?_rounds hr, hcond j (List.getElem?_eq_some_iff.1 hr).1 hflag⟩

/-- When the loop has ended, all flagged entries that are still there have been visited if and only if none of them has
lost its flag. -/
theorem Run.visited_of_flagged_iff (h : Run flags all σ) (hnodup : all.Nodup)
    (hend : flags.length ≤ σ.kept.length ∨ σ.todo = []) :
    (∀ (j : Nat) x, all[j]? = some x → flags[j]? = some true → x ∈ σ.present → x ∈ σ.visited) ↔
      ∀ j < σ.rounds.length, flags[j]? = some true → flags[place all σ j]? = some true := by
  constructor
  · intro hall j hj hflag
    have hr : σ.rounds[j]? = some σ.rounds[j] := List.getElem?_eq_getElem hj
    rw [h.rounds_flag hnodup hr]
    by_contra hne
    have hfalse : σ.rounds[j].2 = false := by simpa using hne
    have hround : (σ.rounds[j].1, false) ∈ σ.rounds := by
      rw [← hfalse]
      exact List.getElem_mem hj
    have hpresent : σ.rounds[j].1 ∈ σ.present := List.mem_append_left _ (h.kept_of_unflagged hround)
    have hvisited := hall j _ (h.getElem?_rounds hr) hflag hpresent
    have heq := List.inj_on_of_nodup_map (h.nodup_rounds hnodup) hround (mem_visited_iff.1 hvisited) rfl
    cases heq
  · intro hcond j x hx hflag hpresent
    have hj : j < σ.rounds.length := by
      rcases hend with hend | hend
      · have hlt := (List.getElem?_eq_some_iff.1 hflag).1
        have hle := h.length_kept_le
        omega
      · have hlt := (List.getElem?_eq_some_iff.1 hx).1
        rw [← h.entries, hend, List.append_nil, List.length_map] at hlt
        exact hlt
    have hr : σ.rounds[j]? = some σ.rounds[j] := List.getElem?_eq_getElem hj
    have htrue : σ.rounds[j].2 = true := Option.some.inj ((h.rounds_flag hnodup hr).symm.trans (hcond j hj hflag))
    have hfst : σ.rounds[j].1 = x := Option.some.inj ((h.getElem?_rounds hr).symm.trans hx)
    rw [mem_visited_iff, ← htrue, ← hfst]
    exact List.getElem_mem hj

end Sweep

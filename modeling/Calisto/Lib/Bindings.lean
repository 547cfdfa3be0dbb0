import Mathlib.Logic.Function.Basic

/-!
# Lists of bindings

A list of pairs, read from left to right, gives a partial map in which the last pair for a key wins.  `bindAll` adds
such a list to a map.  What it does is settled key by key: the list decides where it mentions the key
(`bindAll_eq_or`), and selecting keys commutes with binding (`bindAll_filter`).
-/

variable {K V : Type*} [DecidableEq K] {m : K → Option V} {l : List (K × V)} {k : K} {v : V}

open Function

/-- `m` with the bindings of the list, the last one for a key winning. -/
def bindAll (m : K → Option V) (l : List (K × V)) : K → Option V :=
  l.foldl (fun m p => update m p.1 (some p.2)) m

@[simp] theorem bindAll_nil : bindAll m [] = m := rfl

@[simp] theorem bindAll_cons (p : K × V) : bindAll m (p :: l) = bindAll (update m p.1 (some p.2)) l := rfl

theorem bindAll_append (l' : List (K × V)) : bindAll m (l ++ l') = bindAll (bindAll m l) l' :=
  List.foldl_append

/-- Where the list does not mention the key, the map stays. -/
theorem bindAll_eq_or : bindAll m l k = (bindAll (fun _ => none) l k).or (m k) := by
  induction l generalizing m with
  | nil => rfl
  | cons p l ih =>
    rw [bindAll_cons, bindAll_cons, ih, ih (m := update (fun _ => none) p.1 (some p.2))]
    by_cases hk : k = p.1
    · subst hk
      simp
    · simp [update_of_ne hk]

theorem bindAll_eq_none : bindAll (fun _ => none) l k = none ↔ ∀ p ∈ l, p.1 ≠ k := by
  induction l with
  | nil => simp
  | cons p l ih =>
    rw [bindAll_cons, bindAll_eq_or, Option.or_eq_none_iff, ih]
    by_cases hk : k = p.1
    · subst hk
      simp
    · simp [update_of_ne hk, Ne.symm hk]

/-- The bindings for the keys that satisfy `p`. -/
theorem bindAll_filter (p : K → Bool) :
    bindAll (fun _ => none) (l.filter fun b => p b.1) k = if p k then bindAll (fun _ => none) l k else none := by
  induction l with
  | nil => simp
  | cons b l ih =>
    rw [List.filter_cons]
    by_cases hb : p b.1
    · rw [if_pos hb, bindAll_cons, bindAll_eq_or, ih, bindAll_cons,
        bindAll_eq_or (m := update (fun _ => none) b.1 (some b.2))]
      by_cases hk : k = b.1
      · subst hk
        simp [hb]
      · by_cases hp : p k <;> simp [hp, update_of_ne hk]
    · rw [if_neg hb, ih, bindAll_cons, bindAll_eq_or (m := update (fun _ => none) b.1 (some b.2))]
      by_cases hk : k = b.1
      · subst hk
        simp [hb]
      · simp [update_of_ne hk]

import Mathlib.Data.Nat.Find
import Mathlib.Order.WellFounded

/-!
# Call stacks that run on and on

A sequence of stacks, the top first, each made from the one before it by a call, by a return, or by a turn of what is
on top, which goes down in a well-founded order.  Where the depth is bounded and the stack is never empty again, one
activation stays for ever, comes to the top again and again, and does not change any more (`exists_staying`): whoever
shows that no activation can do that has shown that every call returns.
-/

namespace CallStack

variable {F : Type*} {r : F → F → Prop} {stk : ℕ → List F}

/-- What one step does to a stack. -/
inductive Move (r : F → F → Prop) : List F → List F → Prop
  | same (s : List F) : Move r s s
  | turn {f g : F} (h : r g f) (rest : List F) : Move r (f :: rest) (g :: rest)
  | push (f : F) (s : List F) : Move r s (f :: s)
  | pop (f : F) (s : List F) : Move r (f :: s) s

theorem Move.length_le {s t : List F} (h : Move r s t) : s.length ≤ t.length + 1 := by
  cases h <;> simp
  omega

/-- A step that does not leave a level keeps what lies below it, and the activation at the level stays as it is unless
it is on top and takes a turn. -/
theorem Move.level {above rest t : List F} {f : F} (h : Move r (above ++ f :: rest) t)
    (hlength : rest.length < t.length) :
    ∃ above' g, t = above' ++ g :: rest ∧ (g = f ∨ above = [] ∧ above' = [] ∧ r g f) := by
  cases above with
  | nil =>
    cases h with
    | same => exact ⟨[], f, rfl, .inl rfl⟩
    | turn hr => exact ⟨[], _, rfl, .inr ⟨rfl, rfl, hr⟩⟩
    | push e => exact ⟨[e], f, rfl, .inl rfl⟩
    | pop => exact absurd hlength (Nat.lt_irrefl _)
  | cons e above =>
    cases h with
    | same => exact ⟨e :: above, f, rfl, .inl rfl⟩
    | turn _ => exact ⟨_ :: above, f, rfl, .inl rfl⟩
    | push d => exact ⟨d :: e :: above, f, rfl, .inl rfl⟩
    | pop => exact ⟨above, f, rfl, .inl rfl⟩

/-! ### Sequences -/

/-- A sequence that does not go up in a well-founded order comes to rest. -/
theorem exists_rest {α : Type*} {r : α → α → Prop} (hr : WellFounded r) {f : ℕ → α} {m : ℕ}
    (h : ∀ n ≥ m, f (n + 1) = f n ∨ r (f (n + 1)) (f n)) : ∃ N ≥ m, ∀ n ≥ N, f n = f N := by
  obtain ⟨_, ⟨N, hN, rfl⟩, hmin⟩ := hr.has_min {x | ∃ n ≥ m, f n = x} ⟨f m, m, le_rfl, rfl⟩
  refine ⟨N, hN, fun n hn => ?_⟩
  induction n, hn using Nat.le_induction with
  | base => rfl
  | succ n hn ih =>
    have hstep := h n (hN.trans hn)
    rw [ih] at hstep
    exact hstep.resolve_right (hmin _ ⟨n + 1, by omega, rfl⟩)

/-- A bounded sequence has a lowest value that it takes again and again. -/
theorem exists_level {depth : ℕ → ℕ} {b : ℕ} (hb : ∀ n, depth n ≤ b) :
    ∃ d M, (∀ n ≥ M, d ≤ depth n) ∧ ∀ n, ∃ k ≥ n, depth k = d := by
  by_contra hnone
  -- otherwise the sequence leaves every level for a higher one
  have hup : ∀ d, ∃ M, ∀ n ≥ M, d ≤ depth n := by
    intro d
    induction d with
    | zero => exact ⟨0, fun n _ => Nat.zero_le _⟩
    | succ d ih =>
      obtain ⟨M, hM⟩ := ih
      have hleft : ∃ N, ∀ k ≥ N, depth k ≠ d := by
        by_contra hall
        push Not at hall
        exact hnone ⟨d, M, hM, hall⟩
      obtain ⟨N, hN⟩ := hleft
      refine ⟨max M N, fun n hn => ?_⟩
      have hge := hM n (le_trans (le_max_left M N) hn)
      have hne := hN n (le_trans (le_max_right M N) hn)
      omega
  obtain ⟨M, hM⟩ := hup (b + 1)
  have := hM M le_rfl
  have := hb M
  omega

/-! ### Calls and returns -/

section Activation

variable {m : ℕ} {f : F} {rest : List F} {Q : F → Prop}

/-- As long as the stack does not come down to a level, what lies below it stays, and the activation at it keeps what
each of its turns keeps. -/
theorem exists_above (hmove : ∀ n, Move r (stk n) (stk (n + 1))) (hm : stk m = f :: rest) (hf : Q f)
    (hQ : ∀ k ≥ m, ∀ f g, stk k = f :: rest → stk (k + 1) = g :: rest → r g f → Q f → Q g) {n : ℕ} (hmn : m ≤ n)
    (hdepth : ∀ k, m ≤ k → k ≤ n → rest.length < (stk k).length) :
    ∃ above g, stk n = above ++ g :: rest ∧ Q g := by
  induction n, hmn using Nat.le_induction with
  | base => exact ⟨[], f, hm, hf⟩
  | succ n hmn ih =>
    obtain ⟨above, g, hn, hg⟩ := ih fun k hk hkn => hdepth k hk (by omega)
    have hstep := hmove n
    rw [hn] at hstep
    obtain ⟨above', g', hnext, rfl | ⟨rfl, rfl, hr⟩⟩ := hstep.level (hdepth (n + 1) (by omega) le_rfl)
    · exact ⟨above', g', hnext, hg⟩
    · exact ⟨[], g', hnext, hQ n hmn g g' hn hnext hr hg⟩

/-- An activation that does not stay for ever returns to what lies below it. -/
theorem exists_return (hmove : ∀ n, Move r (stk n) (stk (n + 1))) (hm : stk m = f :: rest) (hf : Q f)
    (hQ : ∀ k ≥ m, ∀ f g, stk k = f :: rest → stk (k + 1) = g :: rest → r g f → Q f → Q g) {n : ℕ} (hmn : m ≤ n)
    (hlow : (stk n).length ≤ rest.length) :
    ∃ k ≥ m, ∃ g, stk k = g :: rest ∧ Q g ∧ stk (k + 1) = rest ∧
      ∀ j, m ≤ j → j ≤ k → rest.length < (stk j).length := by
  classical
  have hex : ∃ n, m ≤ n ∧ (stk n).length ≤ rest.length := ⟨n, hmn, hlow⟩
  obtain ⟨hmk, hk⟩ := Nat.find_spec hex
  have hbefore : ∀ j, m ≤ j → j < Nat.find hex → rest.length < (stk j).length := by
    intro j hmj hj
    by_contra hle
    exact Nat.find_min hex hj ⟨hmj, Nat.le_of_not_lt hle⟩
  generalize Nat.find hex = k at *
  -- the call itself is above the level, so the first time below it comes after a step
  have hne : k ≠ m := by
    rintro rfl
    rw [hm, List.length_cons] at hk
    omega
  obtain ⟨k, rfl⟩ : ∃ j, k = j + 1 := ⟨k - 1, by omega⟩
  have hmk' : m ≤ k := by omega
  obtain ⟨above, g, hstk, hg⟩ := exists_above hmove hm hf hQ hmk' fun j hj hjk => hbefore j hj (by omega)
  have hstep := hmove k
  rw [hstk] at hstep
  have hlen := hstep.length_le
  simp only [List.length_append, List.length_cons] at hlen
  have habove : above = [] := List.eq_nil_of_length_eq_zero (by omega)
  subst habove
  refine ⟨k, hmk', g, hstk, hg, ?_, fun j hj hjk => hbefore j hj (by omega)⟩
  rw [List.nil_append] at hstep
  generalize stk (k + 1) = t at *
  -- only a return makes the stack lower
  cases hstep with
  | pop => rfl
  | _ =>
    simp only [List.length_cons] at hk
    omega

theorem exists_pop (hmove : ∀ n, Move r (stk n) (stk (n + 1))) (hm : stk m = f :: rest) {n : ℕ} (hmn : m ≤ n)
    (hlow : (stk n).length ≤ rest.length) : ∃ k ≥ m, ∃ g, stk k = g :: rest ∧ stk (k + 1) = rest := by
  obtain ⟨k, hk, g, hg, -, hret, -⟩ :=
    exists_return (Q := fun _ => True) hmove hm trivial (fun _ _ _ _ _ _ _ _ => trivial) hmn hlow
  exact ⟨k, hk, g, hg, hret⟩

end Activation

/-- A stack of bounded depth that never comes down to the depth `L` again has an activation above it that stays, comes
to the top again and again, and does not change any more. -/
theorem exists_staying (hr : WellFounded r) (hmove : ∀ n, Move r (stk n) (stk (n + 1))) {b m L : ℕ}
    (hb : ∀ n, (stk n).length ≤ b) (hm : ∀ n ≥ m, L < (stk n).length) :
    ∃ f rest, L ≤ rest.length ∧ ∃ N ≥ m, (∀ n ≥ N, f :: rest <:+ stk n) ∧ ∀ n, ∃ k ≥ n, stk k = f :: rest := by
  obtain ⟨d, M, hM, hoften⟩ := exists_level hb
  obtain ⟨k₀, hk₀, hd⟩ := hoften (max M m)
  have hMk : M ≤ k₀ := le_trans (le_max_left M m) hk₀
  have hmk : m ≤ k₀ := le_trans (le_max_right M m) hk₀
  have hhigh := hm k₀ hmk
  obtain ⟨f₀, rest, hstk⟩ := List.exists_cons_of_length_pos (Nat.zero_lt_of_lt hhigh)
  have hlevel : rest.length + 1 = d := by
    rw [hstk] at hd
    exact hd
  have hdepth : ∀ n ≥ k₀, rest.length < (stk n).length := by
    intro n hn
    have := hM n (hMk.trans hn)
    omega
  -- the activation at the level, from then on
  have hex : ∀ n, ∃ above f, n ≥ k₀ → stk n = above ++ f :: rest := by
    intro n
    by_cases hn : n ≥ k₀
    · obtain ⟨above, f, h, -⟩ := exists_above (Q := fun _ => True) hmove hstk trivial (fun _ _ _ _ _ _ _ _ => trivial)
        hn fun k hk _ => hdepth k hk
      exact ⟨above, f, fun _ => h⟩
    · exact ⟨[], f₀, fun h => absurd h hn⟩
  choose above act hact using hex
  have hdown : ∀ n ≥ k₀, act (n + 1) = act n ∨ r (act (n + 1)) (act n) := by
    intro n hn
    have hstep := hmove n
    rw [hact n hn] at hstep
    obtain ⟨above', g, hnext, hg⟩ := hstep.level (hdepth (n + 1) (by omega))
    rw [hact (n + 1) (by omega)] at hnext
    have := (List.append_inj' hnext rfl).2
    rw [(List.cons.inj this).1]
    exact hg.imp_right fun h => h.2.2
  obtain ⟨N, hN, hrest⟩ := exists_rest hr hdown
  have hL : L ≤ rest.length := by
    rw [hstk, List.length_cons] at hhigh
    exact Nat.le_of_lt_succ hhigh
  refine ⟨act N, rest, hL, N, hmk.trans hN, fun n hn => ?_, fun n => ?_⟩
  · rw [hact n (hN.trans hn), hrest n hn]
    exact List.suffix_append _ _
  · obtain ⟨k, hk, hkd⟩ := hoften (max n N)
    have hNk : N ≤ k := le_trans (le_max_right n N) hk
    refine ⟨k, le_trans (le_max_left n N) hk, ?_⟩
    have hk' := hact k (hN.trans hNk)
    have hnil : above k = [] := by
      rw [hk'] at hkd
      simp only [List.length_append, List.length_cons] at hkd
      exact List.eq_nil_of_length_eq_zero (by omega)
    rw [hk', hnil, List.nil_append, hrest k hNk]

end CallStack

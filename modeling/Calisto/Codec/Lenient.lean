import Calisto.Codec.Base64

/-!
# Lenient decoding

`decode64` is to be the `unpack("m")` of Ruby, which `--cold` runs.  That one reads group by group: `=` ends it only
where the third or the fourth letter of a group is awaited, and is skipped like any other byte before.  `decode64`
ends at the first `=`.
-/

namespace Calisto

namespace Codec

open Base64 (bytes)

variable {s u v : Bytes} {b : UInt8} {vs : List Nat}

/-! ### Ruby -/

/-- The next letter of a group and what is behind it; `none` at the end, and at `=` where it ends the decoding. -/
def nextLetter (padEnds : Bool) : Bytes → Option (Nat × Bytes)
  | [] => none
  | b :: s => match value b with
    | some v => some (v, s)
    | none => if b = pad ∧ padEnds then none else nextLetter padEnds s

theorem length_of_nextLetter {padEnds : Bool} {n : Nat} {rest : Bytes} (h : nextLetter padEnds s = some (n, rest)) :
    rest.length < s.length := by
  induction s with
  | nil => cases h
  | cons b s ih =>
    unfold nextLetter at h
    split at h
    · cases h
      exact Nat.lt_succ_self _
    · obtain ⟨-, h⟩ := Option.ite_none_left_eq_some.1 h
      exact Nat.lt_succ_of_lt (ih h)

/-- `unpack("m")`: the letters of a group one after the other, and its bytes. -/
def unpackM (s : Bytes) : Bytes :=
  match _h1 : nextLetter false s with
  | none => []
  | some (a, s1) => match _h2 : nextLetter false s1 with
    | none => []
    | some (b, s2) => match _h3 : nextLetter true s2 with
      | none => (Base64.triple a b 0 0).take 1
      | some (c, s3) => match _h4 : nextLetter true s3 with
        | none => (Base64.triple a b c 0).take 2
        | some (d, s4) => Base64.triple a b c d ++ unpackM s4
termination_by s.length
decreasing_by
  have h1 := length_of_nextLetter _h1
  have h2 := length_of_nextLetter _h2
  have h3 := length_of_nextLetter _h3
  have h4 := length_of_nextLetter _h4
  omega

/-! ### The digits that are read -/

/-- The digits before the first `=`, which `decode64` reads. -/
def kept (s : Bytes) : List Nat := (s.takeWhile (· ≠ pad)).filterMap value

/-- The digits that Ruby reads, `q` letters of the group being there. -/
def seen (q : Nat) : Bytes → List Nat
  | [] => []
  | b :: s => match value b with
    | some v => v :: seen ((q + 1) % 4) s
    | none => if b = pad ∧ 2 ≤ q then [] else seen q s

private theorem kept_nil : kept [] = [] := rfl

theorem kept_pad (s : Bytes) : kept (pad :: s) = [] := by simp [kept]

theorem kept_letter {v : Nat} (h : value b = some v) (s : Bytes) : kept (b :: s) = v :: kept s := by
  have hb : b ≠ pad := by
    rintro rfl
    rw [value_pad] at h
    cases h
  simp [kept, hb, h]

theorem kept_junk (h : value b = none) (hb : b ≠ pad) (s : Bytes) : kept (b :: s) = kept s := by simp [kept, hb, h]

private theorem places_append (vs : List Nat) (v : Nat) : places vs ++ [UInt8.ofNat v] = places (vs ++ [v]) := by
  rw [places, places, List.map_append, List.map_singleton]

/-- The end of the loop, with fewer than four digits in the group. -/
theorem decodeEnd_places (hlt : ∀ v ∈ vs, v < 64) (hlen : vs.length < 4) (out : Bytes) :
    decodeEnd out (places vs) = out ++ bytes vs := by
  match vs, hlt, hlen with
  | [], _, _ => simp [decodeEnd, places, bytes]
  | [x], _, _ => simp [decodeEnd, places, bytes]
  | [x, y], hlt, _ =>
    have hgroup := bytes_places_two (hlt x (by simp)) (hlt y (by simp))
    exact congrArg (out ++ ·) hgroup
  | [x, y, z], hlt, _ =>
    have hgroup := bytes_places_three (hlt x (by simp)) (hlt y (by simp)) (hlt z (by simp))
    exact congrArg (out ++ ·) hgroup
  | _ :: _ :: _ :: _ :: _, _, hlen =>
    simp only [List.length_cons] at hlen
    omega

/-- The loop reads the digits before the first `=`, those of the group at hand being `vs`. -/
theorem decodeScan_eq (s : Bytes) (hlt : ∀ v ∈ vs, v < 64) (hlen : vs.length < 4) (out : Bytes) :
    decodeEnd (decodeScan out (places vs) s).1 (decodeScan out (places vs) s).2 = out ++ bytes (vs ++ kept s) := by
  induction s generalizing vs out with
  | nil =>
    rw [decodeScan, kept_nil, List.append_nil]
    exact decodeEnd_places hlt hlen out
  | cons b s ih =>
    rw [decodeScan]
    by_cases hb : b = pad
    · subst hb
      rw [if_pos rfl, kept_pad, List.append_nil]
      exact decodeEnd_places hlt hlen out
    · rw [if_neg hb]
      cases hv : value b with
      | none =>
        dsimp only
        rw [if_pos (table_of_none hv), kept_junk hv hb]
        exact ih hlt hlen out
      | some v =>
        obtain ⟨hneg, hcast⟩ := table_of_some hv
        have hv64 : v < 64 := value_lt hv
        have hlt' : ∀ w ∈ vs ++ [v], w < 64 := by
          intro w hw
          rcases List.mem_append.1 hw with hw | hw
          · exact hlt w hw
          · rwa [List.mem_singleton.1 hw]
        dsimp only
        rw [if_neg hneg, hcast, places_append, kept_letter hv]
        by_cases hfull : vs.length = 3
        · match vs, hfull, hlt with
          | [x, y, z], _, hlt =>
            have hgroup := bytes_places (hlt x (by simp)) (hlt y (by simp)) (hlt z (by simp)) hv64
            have hrest := @ih [] (by simp) (by simp) (out ++ Base64.triple x y z v)
            have hfour : (places ([x, y, z] ++ [v])).length = 4 := rfl
            rw [if_pos hfour, List.cons_append, List.cons_append, List.cons_append, List.nil_append, hgroup]
            exact hrest.trans (List.append_assoc ..)
        · have hnext : (vs ++ [v]).length < 4 := by
            rw [List.length_append, List.length_singleton]
            omega
          have hsmall : ¬(places (vs ++ [v])).length = 4 := by
            rw [places, List.length_map]
            omega
          rw [if_neg hsmall, ih hlt' hnext out, List.append_assoc, List.singleton_append]

theorem decode64_eq (s : Bytes) : decode64 s = bytes (kept s) := by
  have h := @decodeScan_eq [] s (by simp) (by simp) []
  exact h

/-! ### Where the two part -/

private theorem seen_eq (q : Nat) (s : Bytes) : seen q s = match nextLetter (2 ≤ q) s with
    | none => []
    | some (v, rest) => v :: seen ((q + 1) % 4) rest := by
  induction s with
  | nil => rfl
  | cons b s ih =>
    rw [seen, nextLetter]
    cases value b with
    | some v => rfl
    | none =>
      by_cases h : b = pad ∧ 2 ≤ q
      · simp [h]
      · rw [ih]
        simp [h]

/-- The groups are made of the digits that are read. -/
theorem unpackM_eq (s : Bytes) : unpackM s = bytes (seen 0 s) := by
  fun_induction unpackM s with
  | case1 s h1 =>
    rw [seen_eq]
    simp [h1, bytes]
  | case2 s a s1 h1 h2 =>
    rw [seen_eq 0]
    simp [h1, h2, seen_eq 1, bytes]
  | case3 s a s1 h1 b s2 h2 h3 =>
    rw [seen_eq 0]
    simp [h1, h2, h3, seen_eq 1, seen_eq 2, bytes]
  | case4 s a s1 h1 b s2 h2 c s3 h3 h4 =>
    rw [seen_eq 0]
    simp [h1, h2, h3, h4, seen_eq 1, seen_eq 2, seen_eq 3, bytes]
  | case5 s a s1 h1 b s2 h2 c s3 h3 d s4 h4 ih =>
    rw [seen_eq 0]
    simp [h1, h2, h3, h4, seen_eq 1, seen_eq 2, seen_eq 3, bytes, ih]

/-- Without `=`, each letter is read. -/
theorem seen_append (h : pad ∉ u) {q : Nat} (hq : q < 4) (s : Bytes) :
    seen q (u ++ s) = u.filterMap value ++ seen ((q + (u.filterMap value).length) % 4) s := by
  induction u generalizing q with
  | nil =>
    rw [List.nil_append, List.filterMap_nil, List.nil_append, List.length_nil, Nat.add_zero, Nat.mod_eq_of_lt hq]
  | cons b u ih =>
    obtain ⟨hb, hu⟩ := not_or.1 (mt List.mem_cons.2 h)
    rw [List.cons_append, seen]
    cases hv : value b with
    | some v =>
      have hnext : (q + ((u.filterMap value).length + 1)) % 4 = ((q + 1) % 4 + (u.filterMap value).length) % 4 := by
        omega
      dsimp only
      rw [List.filterMap_cons_some hv, List.cons_append, List.length_cons, hnext, ih hu (Nat.mod_lt _ (by decide))]
    | none =>
      dsimp only
      rw [if_neg fun hpad => hb hpad.1.symm, ih hu hq, List.filterMap_cons_none hv]

private theorem seen_sublist (q : Nat) (s : Bytes) : (seen q s).Sublist (s.filterMap value) := by
  induction s generalizing q with
  | nil => exact List.Sublist.refl _
  | cons b s ih =>
    rw [seen]
    cases hv : value b with
    | some v =>
      rw [List.filterMap_cons_some hv]
      exact (ih _).cons_cons v
    | none =>
      rw [List.filterMap_cons_none hv]
      dsimp only
      split
      · exact List.nil_sublist _
      · exact ih q

/-- A second letter of the group is read if there is one. -/
theorem seen_second {q : Nat} (hq : q < 2) (h : 2 ≤ q + (s.filterMap value).length) : 2 ≤ q + (seen q s).length := by
  induction s generalizing q with
  | nil =>
    rw [List.filterMap_nil, List.length_nil] at h
    omega
  | cons b s ih =>
    rw [seen]
    cases hv : value b with
    | some v =>
      rw [List.filterMap_cons_some hv, List.length_cons] at h
      dsimp only
      rw [List.length_cons]
      by_cases hzero : q = 0
      · subst hzero
        have hnext := ih (q := 1) (by decide) (by omega)
        show 2 ≤ 0 + ((seen 1 s).length + 1)
        omega
      · omega
    | none =>
      rw [List.filterMap_cons_none hv] at h
      dsimp only
      rw [if_neg fun hpad => by omega]
      exact ih hq h

/-- How many letters there are. -/
def letters (s : Bytes) : Nat := s.countP (· ∈ B64)

private theorem length_filterMap_value (s : Bytes) : (s.filterMap value).length = letters s := by
  rw [List.length_filterMap_eq_countP, letters]
  refine List.countP_congr fun b _ => ?_
  rw [decide_eq_true_iff, mem_B64_iff, Option.isSome_iff_exists]

/-- The first `=` stands where it ends the decoding, or no second letter of the group is to come. -/
def PadEnds (s : Bytes) : Prop :=
  let n := letters (s.takeWhile (· ≠ pad))
  2 ≤ n % 4 ∨ n % 4 + letters (s.dropWhile (· ≠ pad)) ≤ 1

instance (s : Bytes) : Decidable (PadEnds s) := inferInstanceAs (Decidable (_ ∨ _))

/-- Past the second letter of a group, nothing is read from the first `=` on. -/
theorem seen_dropWhile {q : Nat} (hq : 2 ≤ q) (s : Bytes) : seen q (s.dropWhile (· ≠ pad)) = [] := by
  induction s with
  | nil => rfl
  | cons b s ih =>
    rw [List.dropWhile_cons]
    split
    · exact ih
    · rename_i hb
      have hpad : b = pad := by simpa using hb
      subst hpad
      rw [seen, value_pad]
      exact if_pos ⟨rfl, hq⟩

/-- `decode64` gives what Ruby gives exactly when the first `=` may be the end. -/
theorem decode64_eq_unpackM_iff (s : Bytes) : decode64 s = unpackM s ↔ PadEnds s := by
  have hsplit : s.takeWhile (· ≠ pad) ++ s.dropWhile (· ≠ pad) = s := List.takeWhile_append_dropWhile
  have hu : pad ∉ s.takeWhile (· ≠ pad) := fun h => by simpa using List.mem_takeWhile_imp h
  have hkept : (kept s).length = letters (s.takeWhile (· ≠ pad)) := length_filterMap_value _
  have hseen : seen 0 s = kept s ++ seen ((kept s).length % 4) (s.dropWhile (· ≠ pad)) := by
    conv_lhs => rw [← hsplit, seen_append hu (by decide), Nat.zero_add]
    rfl
  have hmore := (seen_sublist ((kept s).length % 4) (s.dropWhile (· ≠ pad))).length_le
  rw [length_filterMap_value] at hmore
  have hlast : (kept s).length % 4 < 4 := Nat.mod_lt _ (by decide)
  have hquot := Nat.div_add_mod (kept s).length 4
  rw [decode64_eq, unpackM_eq, eq_comm, hseen, Base64.bytes_append_eq_iff, List.length_append, PadEnds, ← hkept]
  generalize (kept s).length % 4 = q at *
  constructor
  · intro h
    by_contra hnot
    obtain ⟨hq, hrest⟩ := not_or.1 hnot
    have htwo : 2 ≤ q + (seen q (s.dropWhile (· ≠ pad))).length :=
      seen_second (by omega) (by rw [length_filterMap_value]; omega)
    omega
  · rintro (hq | hq)
    · rw [seen_dropWhile hq, List.length_nil, Nat.add_zero]
    · omega

/-- The byte of `=YQ==` is lost. -/
theorem decode64_ne_unpackM : ¬∀ s, decode64 s = unpackM s := by
  intro h
  have heq := h [61, 89, 81, 61, 61]
  rw [unpackM_eq] at heq
  exact absurd heq (by decide +kernel)

end Codec

end Calisto

import Calisto.Wire.Text

/-!
# `Calisto::URL`

`escape` and `unescape`, which are to be those of `CGI`.  `unescape` looks two bytes ahead of a `%`; what `escape`
gives is never completed by what follows it.
-/

namespace Calisto

namespace Codec

variable {s t : Bytes}

def HEX : Bytes := utf8 "0123456789ABCDEF".toList

/-- The bytes that stand for themselves: letters, digits and `.`, `_`, `-` and `~`. -/
def keeps (b : UInt8) : Bool :=
  65 ≤ b && b ≤ 90 || 97 ≤ b && b ≤ 122 || 48 ≤ b && b ≤ 57 || b == 46 || b == 95 || b == 45 || b == 126

/-- The body of the loop of `escape`; the halves of a byte are indices of `HEX`. -/
def escapeByte (b : UInt8) : Bytes :=
  if keeps b then [b]
  else if b = 32 then [43]
  else [37, HEX.getD (b >>> 4).toNat 0, HEX.getD (b &&& 0xf).toNat 0]

def escape (s : Bytes) : Bytes := s.flatMap escapeByte

def hexval (b : UInt8) : Option UInt8 :=
  if 48 ≤ b ∧ b ≤ 57 then some (b - 48)
  else if 97 ≤ b ∧ b ≤ 102 then some (b - 97 + 10)
  else if 65 ≤ b ∧ b ≤ 70 then some (b - 65 + 10)
  else none

/-- The loop of `unescape` from `i` on. -/
def unescapeFrom (s : Bytes) (i : Nat) (out : Bytes) : Bytes :=
  if hi : i < s.length then
    let b := s[i]
    if b = 43 then unescapeFrom s (i + 1) (out ++ [32])
    else if hahead : b = 37 ∧ i + 2 < s.length then
      match hexval s[i + 1], hexval s[i + 2] with
      | some h, some l => unescapeFrom s (i + 3) (out ++ [(h <<< 4) ||| l])
      | _, _ => unescapeFrom s (i + 1) (out ++ [b])
    else unescapeFrom s (i + 1) (out ++ [b])
  else out
termination_by s.length - i

def unescape (s : Bytes) : Bytes := unescapeFrom s 0 []

/-! ### The loop by what is left -/

/-- What `unescape` makes of a text. -/
def unescaped : Bytes → Bytes
  | [] => []
  | b :: h :: l :: s =>
    if b = 43 then 32 :: unescaped (h :: l :: s)
    else if b = 37 then
      match hexval h, hexval l with
      | some h, some l => ((h <<< 4) ||| l) :: unescaped s
      | _, _ => b :: unescaped (h :: l :: s)
    else b :: unescaped (h :: l :: s)
  | b :: s => (if b = 43 then 32 else b) :: unescaped s

private theorem unescaped_plus (s : Bytes) : unescaped (43 :: s) = 32 :: unescaped s := by
  match s with
  | [] | [_] | _ :: _ :: _ => rfl

private theorem unescaped_keep {b : UInt8} (hplus : b ≠ 43) (hpercent : b ≠ 37) (s : Bytes) :
    unescaped (b :: s) = b :: unescaped s := by
  match s with
  | [] | [_] => simp [unescaped, hplus]
  | _ :: _ :: _ => rw [unescaped, if_neg hplus, if_neg hpercent]

theorem unescaped_short {b : UInt8} (hplus : b ≠ 43) (h : s.length < 2) : unescaped (b :: s) = b :: unescaped s := by
  match s, h with
  | [], _ | [_], _ => simp [unescaped, hplus]

theorem unescapeFrom_eq (s : Bytes) (i : Nat) (out : Bytes) : unescapeFrom s i out = out ++ unescaped (s.drop i) := by
  have hdrop : ∀ j (h : j < s.length), s.drop j = s[j] :: s.drop (j + 1) := fun j h => List.drop_eq_getElem_cons h
  induction i, out using unescapeFrom.induct s with
  | case1 i out hi b hb ih =>
    have hget : s[i] = 43 := hb
    rw [unescapeFrom, dif_pos hi]
    dsimp only
    rw [if_pos hget, ih, hdrop i hi, hget, unescaped_plus, List.append_assoc, List.singleton_append]
  | case2 i out hi b hb hahead h l hh hl ih =>
    have hplus : s[i] ≠ 43 := hb
    have hpercent : s[i] = 37 := hahead.1
    rw [unescapeFrom, dif_pos hi]
    dsimp only
    rw [if_neg hplus, dif_pos hahead, hh, hl, hdrop i hi, hdrop (i + 1) (by omega), hdrop (i + 2) hahead.2, unescaped,
      if_neg hplus, if_pos hpercent, hh, hl]
    dsimp only
    rw [ih, List.append_assoc, List.singleton_append]
  | case3 i out hi b hb hahead hnot ih =>
    have hplus : s[i] ≠ 43 := hb
    have hpercent : s[i] = 37 := hahead.1
    have hnext : s.drop (i + 1) = s[i + 1] :: s[i + 2] :: s.drop (i + 3) := by
      rw [hdrop (i + 1) (by omega), hdrop (i + 2) hahead.2]
    have hloop : unescapeFrom s i out = unescapeFrom s (i + 1) (out ++ [s[i]]) := by
      rw [unescapeFrom, dif_pos hi]
      dsimp only
      rw [if_neg hplus, dif_pos hahead]
      split
      · exact absurd ‹hexval s[i + 2] = _› (hnot _ _ ‹_›)
      · rfl
    rw [hloop, ih, hdrop i hi, hnext, unescaped, if_neg hplus, if_pos hpercent]
    split
    · exact absurd ‹hexval s[i + 2] = _› (hnot _ _ ‹_›)
    · rw [List.append_assoc, List.singleton_append]
  | case4 i out hi b hb hahead ih =>
    have hplus : s[i] ≠ 43 := hb
    rw [unescapeFrom, dif_pos hi]
    dsimp only
    rw [if_neg hplus, dif_neg hahead, ih, hdrop i hi, List.append_assoc, List.singleton_append]
    by_cases hpercent : s[i] = 37
    · have hshort : (s.drop (i + 1)).length < 2 := by
        rw [List.length_drop]
        have := not_and.1 hahead hpercent
        omega
      rw [unescaped_short hplus hshort]
    · rw [unescaped_keep hplus hpercent]
  | case5 i out hi => rw [unescapeFrom, dif_neg hi, List.drop_eq_nil_of_le (by omega), unescaped, List.append_nil]

/-! ### Escaped bytes -/

private theorem keeps_ne {b : UInt8} (h : keeps b) : b ≠ 43 ∧ b ≠ 37 := by
  constructor
  · rintro rfl
    exact absurd h (by decide)
  · rintro rfl
    exact absurd h (by decide)

/-- The two digits of a byte are read back. -/
theorem hexval_HEX (b : UInt8) :
    hexval (HEX.getD (b >>> 4).toNat 0) = some (b >>> 4) ∧ hexval (HEX.getD (b &&& 0xf).toNat 0) = some (b &&& 0xf) ∧
      (b >>> 4) <<< 4 ||| b &&& 0xf = b := by
  have hall : ∀ n < 256, hexval (HEX.getD (UInt8.ofNat n >>> 4).toNat 0) = some (UInt8.ofNat n >>> 4) ∧
      hexval (HEX.getD (UInt8.ofNat n &&& 0xf).toNat 0) = some (UInt8.ofNat n &&& 0xf) ∧
      (UInt8.ofNat n >>> 4) <<< 4 ||| UInt8.ofNat n &&& 0xf = UInt8.ofNat n := by decide +kernel
  have h := hall b.toNat b.toNat_lt
  rwa [UInt8.ofNat_toNat] at h

/-- A byte that was escaped is read back, whatever follows. -/
theorem unescaped_escapeByte (b : UInt8) (t : Bytes) : unescaped (escapeByte b ++ t) = b :: unescaped t := by
  unfold escapeByte
  split
  · rename_i hkeep
    obtain ⟨hplus, hpercent⟩ := keeps_ne hkeep
    exact unescaped_keep hplus hpercent t
  · split
    · rename_i hspace
      rw [hspace]
      exact unescaped_plus t
    · obtain ⟨hhigh, hlow, hbyte⟩ := hexval_HEX b
      rw [List.cons_append, List.cons_append, List.cons_append, List.nil_append, unescaped, if_neg (by decide),
        if_pos rfl, hhigh, hlow]
      dsimp only
      rw [hbyte]

/-- What was escaped is read back, and what follows it is read as if it stood alone. -/
theorem unescape_escape (s : Bytes) :
    (∀ t, unescape (escape s ++ t) = s ++ unescape t) ∧ unescape (escape s) = s := by
  have hrun : ∀ s, unescape s = unescaped s := fun s => unescapeFrom_eq s 0 []
  have happend : ∀ t, unescaped (escape s ++ t) = s ++ unescaped t := by
    intro t
    unfold escape
    induction s with
    | nil => rfl
    | cons b s ih => rw [List.flatMap_cons, List.append_assoc, unescaped_escapeByte, ih, List.cons_append]
  constructor
  · intro t
    rw [hrun, hrun, happend]
  · have h := happend []
    rwa [List.append_nil, unescaped, List.append_nil, ← hrun] at h

end Codec

end Calisto

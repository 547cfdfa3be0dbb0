import Mathlib.Data.List.TakeWhile

/-!
# Connection strings of libpq

The grammar of `keyword = value` strings as libpq reads them: an unquoted value ends at a blank, single quotes group, a
backslash takes the byte behind it as it is.  Whether a keyword is known is not looked at.
-/

namespace Conninfo

abbrev Bytes := List UInt8

variable {name s v rest : Bytes} {ends : UInt8 → Bool}

/-! ### The grammar -/

/-- `isspace`. -/
def isSpace (b : UInt8) : Bool := b == 32 || 9 ≤ b && b ≤ 13

def nameByte (b : UInt8) : Bool := b != 61 && !isSpace b

/-- A value up to a byte that ends it, and what is left from that byte on. -/
def scan (ends : UInt8 → Bool) : Bytes → Bytes × Bytes
  | [] => ([], [])
  | [b] => if ends b then ([], [b]) else if b = 92 then ([], []) else ([b], [])
  | b :: c :: s =>
    if ends b then ([], b :: c :: s)
    else if b = 92 then (c :: (scan ends s).1, (scan ends s).2)
    else (b :: (scan ends (c :: s)).1, (scan ends (c :: s)).2)

/-- A value and what is behind the blank or the quote that ends it. -/
def value (s : Bytes) : Option (Bytes × Bytes) :=
  if s.head? = some 39 then
    let (v, rest) := scan (· == 39) s.tail
    if rest = [] then none else some (v, rest.tail)
  else
    let (v, rest) := scan isSpace s
    some (v, rest.tail)

theorem length_scan (ends : UInt8 → Bool) (s : Bytes) : (scan ends s).2.length ≤ s.length := by
  fun_induction scan ends s with
  | case1 => exact Nat.le_refl 0
  | case2 | case3 | case4 | case5 => simp
  | case6 c s h ih =>
    simp only [List.length_cons]
    omega
  | case7 b c s h hb ih =>
    simp only [List.length_cons] at ih ⊢
    omega

theorem length_value (h : value s = some (v, rest)) : rest.length ≤ s.length := by
  unfold value at h
  dsimp only at h
  split at h
  · obtain ⟨-, h⟩ := Option.ite_none_left_eq_some.1 h
    have hscan := length_scan (· == 39) s.tail
    have hrest : (scan (· == 39) s.tail).2.tail = rest := congrArg Prod.snd (Option.some.inj h)
    rw [List.length_tail] at hscan
    rw [← hrest, List.length_tail]
    omega
  · have hscan := length_scan isSpace s
    have hrest : (scan isSpace s).2.tail = rest := congrArg Prod.snd (Option.some.inj h)
    rw [← hrest, List.length_tail]
    omega

theorem length_dropWhile (p : UInt8 → Bool) (s : Bytes) : (s.dropWhile p).length ≤ s.length :=
  (List.dropWhile_sublist p).length_le

/-- The pairs of keyword and value. -/
def parse (s : Bytes) : Option (List (Bytes × Bytes)) :=
  match _hs : s.dropWhile isSpace with
  | [] => some []
  | b :: t => match _ht : ((b :: t).dropWhile nameByte).dropWhile isSpace with
    | [] => none
    | eq :: u =>
      if eq = 61 then
        match _hu : value (u.dropWhile isSpace) with
        | none => none
        | some (v, rest) => (parse rest).map (((b :: t).takeWhile nameByte, v) :: ·)
      else none
termination_by s.length
decreasing_by
  have hs := length_dropWhile isSpace s
  have hname := length_dropWhile nameByte (b :: t)
  have ht := length_dropWhile isSpace ((b :: t).dropWhile nameByte)
  have hu := length_dropWhile isSpace u
  have hv := length_value _hu
  rw [_hs] at hs
  rw [_ht, List.length_cons] at ht
  omega

/-! ### Reading -/

theorem parse_nil : parse [] = some [] := by
  rw [parse]
  rfl

theorem parse_blank (s : Bytes) : parse (32 :: s) = parse s := by
  rw [parse.eq_def (32 :: s), parse.eq_def s]
  rfl

/-- A keyword, `=` and a value. -/
theorem parse_pair (hne : name ≠ []) (hname : ∀ b ∈ name, nameByte b) (hs : s.dropWhile isSpace = s)
    (hv : value s = some (v, rest)) : parse (name ++ 61 :: s) = (parse rest).map ((name, v) :: ·) := by
  obtain ⟨b, t, rfl⟩ := List.exists_cons_of_ne_nil hne
  have hb : isSpace b = false := by
    have hbyte := hname b (List.mem_cons_self ..)
    simp only [nameByte, Bool.and_eq_true, Bool.not_eq_true'] at hbyte
    exact hbyte.2
  have hfirst : (b :: t ++ 61 :: s).dropWhile isSpace = b :: (t ++ 61 :: s) :=
    List.dropWhile_cons_of_neg (by simp [hb])
  have htake : (b :: (t ++ 61 :: s)).takeWhile nameByte = b :: t := by
    have h : (b :: t ++ 61 :: s).takeWhile nameByte = b :: t ++ (61 :: s).takeWhile nameByte :=
      List.takeWhile_append_of_pos hname
    rw [List.takeWhile_cons_of_neg (by decide), List.append_nil] at h
    exact h
  have hdrop : ((b :: (t ++ 61 :: s)).dropWhile nameByte).dropWhile isSpace = 61 :: s := by
    have h : (b :: t ++ 61 :: s).dropWhile nameByte = (61 :: s).dropWhile nameByte :=
      List.dropWhile_append_of_pos hname
    rw [List.dropWhile_cons_of_neg (by decide)] at h
    rw [← List.cons_append, h]
    exact List.dropWhile_cons_of_neg (by decide)
  rw [parse]
  split
  · rename_i h
    rw [hfirst] at h
    cases h
  · rename_i b' t' h
    rw [hfirst] at h
    obtain ⟨rfl, rfl⟩ := List.cons.inj h
    split
    · rename_i h
      rw [hdrop] at h
      cases h
    · rename_i eq u h
      rw [hdrop] at h
      obtain ⟨rfl, rfl⟩ := List.cons.inj h
      rw [if_pos rfl]
      split
      · rename_i h
        rw [hs, hv] at h
        cases h
      · rename_i v' rest' h
        rw [hs, hv] at h
        cases h
        rw [htake]

/-! ### Values -/

/-- `q` stands for the value `v` at the end of the string and before a blank. -/
def Denotes (q v : Bytes) : Prop :=
  ∀ r : Bytes, r.head?.all (· = 32) → (q ++ r).dropWhile isSpace = q ++ r ∧
    ∃ rest, value (q ++ r) = some (v, rest) ∧ parse rest = parse r

/-- What a blank or the end leaves behind a value. -/
theorem parse_tail {r : Bytes} (h : r.head?.all (· = 32)) : parse r.tail = parse r := by
  match r, h with
  | [], _ => rfl
  | b :: t, h =>
    have hb : b = 32 := by simpa using h
    rw [hb, List.tail_cons, parse_blank]

theorem scan_end {b : UInt8} (h : ends b) (s : Bytes) : scan ends (b :: s) = ([], b :: s) := by
  match s with
  | [] => exact if_pos h
  | _ :: _ => exact if_pos h

theorem scan_keep {b : UInt8} (h : ends b = false) (hb : b ≠ 92) (s : Bytes) :
    scan ends (b :: s) = (b :: (scan ends s).1, (scan ends s).2) := by
  match s with
  | [] => simp [scan, h, hb]
  | _ :: _ => simp [scan, h, hb]

theorem scan_backslash (h : ends 92 = false) (c : UInt8) (s : Bytes) :
    scan ends (92 :: c :: s) = (c :: (scan ends s).1, (scan ends s).2) := by
  simp [scan, h]

theorem scan_plain (hv : ∀ b ∈ v, ends b = false ∧ b ≠ 92) {r : Bytes} (hr : r.head?.all ends) :
    scan ends (v ++ r) = (v, r) := by
  induction v with
  | nil =>
    match r, hr with
    | [], _ => rfl
    | b :: t, hr => exact scan_end (by simpa using hr) t
  | cons b v ih =>
    obtain ⟨hb, hslash⟩ := hv b (List.mem_cons_self ..)
    rw [List.cons_append, scan_keep hb hslash, ih fun c hc => hv c (List.mem_cons_of_mem b hc)]

/-- A backslash before quotes and backslashes. -/
def escapeByte (b : UInt8) : Bytes := if b = 39 ∨ b = 92 then [92, b] else [b]

/-- The escaped value is read up to the quote. -/
theorem scan_escaped (v r : Bytes) : scan (· == 39) (v.flatMap escapeByte ++ 39 :: r) = (v, 39 :: r) := by
  induction v with
  | nil => exact scan_end rfl r
  | cons b v ih =>
    rw [List.flatMap_cons, List.append_assoc, escapeByte]
    by_cases hb : b = 39 ∨ b = 92
    · rw [if_pos hb, List.cons_append, List.cons_append, List.nil_append, scan_backslash rfl, ih]
    · obtain ⟨hquote, hslash⟩ := not_or.1 hb
      rw [if_neg hb, List.singleton_append, scan_keep (by simpa using hquote) hslash, ih]

/-- Bytes that are neither blanks nor backslashes, not beginning with a quote, stand for themselves. -/
theorem denotes_plain (hne : v ≠ []) (hv : ∀ b ∈ v, isSpace b = false ∧ b ≠ 92) (hquote : v.head? ≠ some 39) :
    Denotes v v := by
  intro r hr
  obtain ⟨b, t, rfl⟩ := List.exists_cons_of_ne_nil hne
  obtain ⟨hb, -⟩ := hv b (List.mem_cons_self ..)
  have hends : r.head?.all isSpace := by
    match r, hr with
    | [], _ => rfl
    | c :: _, hr =>
      have hc : c = 32 := by simpa using hr
      rw [hc]
      rfl
  refine ⟨List.dropWhile_cons_of_neg (by simp [hb]), r.tail, ?_, parse_tail hr⟩
  rw [value, if_neg (by simpa using hquote), scan_plain hv hends]

/-- What is escaped in quotes stands for any value. -/
theorem denotes_quoted (v : Bytes) : Denotes (39 :: v.flatMap escapeByte ++ [39]) v := by
  intro r _
  have hall : 39 :: v.flatMap escapeByte ++ [39] ++ r = 39 :: (v.flatMap escapeByte ++ 39 :: r) := by simp
  rw [hall]
  refine ⟨List.dropWhile_cons_of_neg (by decide), r, ?_, rfl⟩
  have hquote : (39 :: (v.flatMap escapeByte ++ 39 :: r)).head? = some 39 := rfl
  rw [value, if_pos hquote, List.tail_cons, scan_escaped]
  rfl

/-! ### Whole strings -/

/-- Pairs with a blank before each but the first. -/
def join : List (Bytes × Bytes) → Bytes
  | [] => []
  | [p] => p.1 ++ 61 :: p.2
  | p :: ps => p.1 ++ 61 :: p.2 ++ 32 :: join ps

theorem join_cons (p : Bytes × Bytes) (ps : List (Bytes × Bytes)) :
    join (p :: ps) = p.1 ++ 61 :: p.2 ++ ps.flatMap fun q => 32 :: q.1 ++ 61 :: q.2 := by
  induction ps generalizing p with
  | nil => rw [join, List.flatMap_nil, List.append_nil]
  | cons q ps ih => simp [join, ih]

/-- The bytes of a string are those of its parts, and separators. -/
theorem mem_join {b : UInt8} (hblank : b ≠ 32) (heq : b ≠ 61) (ps : List (Bytes × Bytes)) :
    b ∈ join ps ↔ ∃ p ∈ ps, b ∈ p.1 ∨ b ∈ p.2 := by
  cases ps with
  | nil => simp [join]
  | cons p ps => simp [join_cons, hblank, heq, or_assoc]

theorem parse_join {α : Type} (ps : List α) (key text val : α → Bytes) (hne : ∀ p ∈ ps, key p ≠ [])
    (hkey : ∀ p ∈ ps, ∀ b ∈ key p, nameByte b) (hval : ∀ p ∈ ps, Denotes (text p) (val p)) :
    parse (join (ps.map fun p => (key p, text p))) = some (ps.map fun p => (key p, val p)) := by
  induction ps with
  | nil => exact parse_nil
  | cons p ps ih =>
    have hrest := ih (fun q hq => hne q (List.mem_cons_of_mem p hq)) (fun q hq => hkey q (List.mem_cons_of_mem p hq))
      fun q hq => hval q (List.mem_cons_of_mem p hq)
    have hname := hne p (List.mem_cons_self ..)
    have hbytes := hkey p (List.mem_cons_self ..)
    have htext := hval p (List.mem_cons_self ..)
    match ps with
    | [] =>
      obtain ⟨hspace, rest, hv, hparse⟩ := htext [] rfl
      rw [List.append_nil] at hspace hv
      rw [List.map_singleton, join, parse_pair hname hbytes hspace hv, hparse, parse_nil]
      rfl
    | q :: qs =>
      obtain ⟨hspace, rest, hv, hparse⟩ := htext (32 :: join ((q :: qs).map fun p => (key p, text p))) rfl
      have hjoin : join ((p :: q :: qs).map fun p => (key p, text p)) =
          key p ++ 61 :: (text p ++ 32 :: join ((q :: qs).map fun p => (key p, text p))) := by
        simp [join]
      rw [hjoin, parse_pair hname hbytes hspace hv, hparse, parse_blank, hrest]
      rfl

end Conninfo

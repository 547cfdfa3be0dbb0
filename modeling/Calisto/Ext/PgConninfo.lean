import Calisto.Lib.Conninfo
import Calisto.Wire.Framing

/-!
# Connection parameters

`conninfo_from_value`, which makes a connection string of what `PG.connect` is given.  A Ruby exception is `.error`, a
C string the bytes before its NUL.
-/

namespace Calisto

namespace Pg

variable {v : Str} {pairs : List (Bytes × Bytes)}

inductive Raised
  | argError (msg : Str)
  | typeError (msg : Str)
  deriving DecidableEq

/-- The argument: of a hash, what `to_s` gives for its keys and values; of another object, the name of its class. -/
inductive ConninfoArg
  | string (bytes : Bytes)
  | hash (pairs : List (Bytes × Bytes))
  | other (classname : Str)

def cstrArg (v : Bytes) (what : Str) : Except Raised Bytes :=
  if 0 ∈ v then .error (.argError (what ++ " nao pode conter NUL".toList)) else .ok v

/-- `char::is_control`. -/
def isControl (c : Char) : Bool := c.toNat < 32 || 127 ≤ c.toNat && c.toNat < 160

def needsQuotes (v : Str) : Bool :=
  v.isEmpty || v.any fun c => c == ' ' || c == '\'' || c == '"' || c == '\\' || isControl c

/-- The body of the loop of `conninfo_quote`. -/
def escapeChar (c : Char) : Str := if c = '\'' ∨ c = '\\' then ['\\', c] else [c]

def conninfoQuote (v : Str) : Str := if !needsQuotes v then v else '\'' :: v.flatMap escapeChar ++ ['\'']

/-- The loop over the pairs. -/
def conninfoLoop (out : Str) : List (Bytes × Bytes) → Str
  | [] => out
  | (k, v) :: pairs =>
    let out := if out ≠ [] then out ++ [' '] else out
    conninfoLoop (out ++ fromUtf8Lossy k ++ '=' :: conninfoQuote (fromUtf8Lossy v)) pairs

/-- `CString::new`. -/
def cstringNew (bytes : Bytes) : Option Bytes := if 0 ∈ bytes then none else some bytes

def conninfoFromValue : ConninfoArg → Except Raised Bytes
  | .string v => cstrArg v "conninfo".toList
  | .hash pairs => .ok ((cstringNew (utf8 (conninfoLoop [] pairs))).getD [])
  | .other classname =>
    .error (.typeError ("expected String or Hash of connection params, got ".toList ++ classname))

/-! ### Quoting -/

theorem flatMap_escapeByte {bs : Bytes} (h : ∀ b ∈ bs, b ≠ 39 ∧ b ≠ 92) : bs.flatMap Conninfo.escapeByte = bs := by
  induction bs with
  | nil => rfl
  | cons b bs ih =>
    have hb : ¬(b = 39 ∨ b = 92) := not_or.2 (h b (List.mem_cons_self ..))
    rw [List.flatMap_cons, Conninfo.escapeByte, if_neg hb, ih fun c hc => h c (List.mem_cons_of_mem b hc),
      List.singleton_append]

theorem utf8_escapeChar (c : Char) : utf8 (escapeChar c) = (String.utf8EncodeChar c).flatMap Conninfo.escapeByte := by
  by_cases hc : c = '\'' ∨ c = '\\'
  · rcases hc with rfl | rfl <;> decide
  · rw [escapeChar, if_neg hc, utf8, List.flatMap_singleton]
    refine (flatMap_escapeByte fun b hb => ?_).symm
    have hbyte : ∀ d : Char, d.toNat ≤ 127 → b = UInt8.ofNat d.toNat → c = d := by
      rintro d hd rfl
      have hmem : UInt8.ofNat d.toNat ∈ utf8 [c] := by rwa [utf8, List.flatMap_singleton]
      have hnat : (UInt8.ofNat d.toNat).toNat = d.toNat := by
        rw [UInt8.toNat_ofNat']
        omega
      have hchar := mem_of_mem_utf8 hmem (by omega)
      rw [hnat, Char.ofNat_toNat] at hchar
      exact (List.mem_singleton.1 hchar).symm
    exact ⟨fun h => hc (.inl (hbyte '\'' (by decide) h)), fun h => hc (.inr (hbyte '\\' (by decide) h))⟩

private theorem utf8_escape (v : Str) : utf8 (v.flatMap escapeChar) = (utf8 v).flatMap Conninfo.escapeByte := by
  induction v with
  | nil => rfl
  | cons c v ih => rw [List.flatMap_cons, utf8_append, utf8_escapeChar, ih, utf8_cons, List.flatMap_append]

/-- The characters of a value that is not quoted. -/
theorem ne_of_not_needsQuotes (h : needsQuotes v = false) :
    v ≠ [] ∧ ∀ c ∈ v, c ≠ ' ' ∧ c ≠ '\'' ∧ c ≠ '\\' ∧ 32 ≤ c.toNat := by
  obtain ⟨hne, hall⟩ := Bool.or_eq_false_iff.1 h
  refine ⟨by simpa using hne, fun c hc => ?_⟩
  have hchar := List.any_eq_false.1 hall c hc
  simp only [isControl, Bool.or_eq_true, beq_iff_eq, decide_eq_true_eq, not_or] at hchar
  exact ⟨hchar.1.1.1.1, hchar.1.1.1.2, hchar.1.2, by omega⟩

private theorem toNat_ofNat_ascii : ∀ n < 128, (Char.ofNat n).toNat = n := by decide +kernel

/-- What is quoted stands for the value. -/
theorem denotes_conninfoQuote (v : Str) : Conninfo.Denotes (utf8 (conninfoQuote v)) (utf8 v) := by
  unfold conninfoQuote
  split
  · rename_i hplain
    obtain ⟨hne, hchars⟩ := ne_of_not_needsQuotes (v := v) (by simpa using hplain)
    have hbytes : ∀ b ∈ utf8 v, b.toNat ≤ 127 → 32 < b.toNat ∧ b.toNat ≠ 39 ∧ b.toNat ≠ 92 := by
      intro b hb hascii
      obtain ⟨hspace, hquote, hslash, hlow⟩ := hchars _ (mem_of_mem_utf8 hb hascii)
      rw [toNat_ofNat_ascii _ (by omega)] at hlow
      refine ⟨?_, fun h => hquote (by rw [h]), fun h => hslash (by rw [h])⟩
      by_contra hle
      exact hspace (by rw [show b.toNat = 32 by omega])
    refine Conninfo.denotes_plain (mt (utf8_eq_nil_iff v).1 hne) (fun b hb => ⟨?_, ?_⟩) fun hhead => ?_
    · have hspace : ∀ n < 256, Conninfo.isSpace (UInt8.ofNat n) → n ≤ 32 := by decide +kernel
      refine Bool.eq_false_iff.2 fun h => ?_
      rw [← UInt8.ofNat_toNat (x := b)] at h
      have hle := hspace b.toNat b.toNat_lt h
      have hlt := (hbytes b hb (by omega)).1
      omega
    · rintro rfl
      exact (hbytes 92 hb (by decide)).2.2 rfl
    · exact (hbytes 39 (List.mem_of_head? hhead) (by decide)).2.1 rfl
  · have hquote : String.utf8EncodeChar '\'' = [39] := by decide
    rw [List.cons_append, utf8_cons, utf8_append, utf8_cons, hquote, utf8_escape]
    exact Conninfo.denotes_quoted (utf8 v)

/-! ### Whole strings -/

/-- What libpq's keywords are made of: lower case letters, digits and `_`. -/
def IsKeyword (k : Bytes) : Prop := k ≠ [] ∧ ∀ b ∈ k, 97 ≤ b ∧ b ≤ 122 ∨ 48 ≤ b ∧ b ≤ 57 ∨ b = 95

theorem IsKeyword.byte {k : Bytes} (h : IsKeyword k) : ∀ b ∈ k, 32 < b.toNat ∧ b.toNat ≤ 127 ∧ Conninfo.nameByte b := by
  have hall : ∀ n < 256, (97 ≤ UInt8.ofNat n ∧ UInt8.ofNat n ≤ 122 ∨ 48 ≤ UInt8.ofNat n ∧ UInt8.ofNat n ≤ 57 ∨
      UInt8.ofNat n = 95) → 32 < n ∧ n ≤ 127 ∧ Conninfo.nameByte (UInt8.ofNat n) := by decide +kernel
  intro b hb
  have hbyte := hall b.toNat b.toNat_lt
  rw [UInt8.ofNat_toNat] at hbyte
  exact hbyte (h.2 b hb)

/-- ASCII bytes are a text. -/
theorem utf8_fromUtf8Lossy_ascii {bs : Bytes} (h : ∀ b ∈ bs, b.toNat ≤ 127) : utf8 (fromUtf8Lossy bs) = bs := by
  have htext : utf8 (bs.map fun b => Char.ofNat b.toNat) = bs := by
    induction bs with
    | nil => rfl
    | cons b bs ih =>
      have hb := h b (List.mem_cons_self ..)
      have hnat := toNat_ofNat_ascii b.toNat (by omega)
      rw [List.map_cons, utf8_cons, utf8EncodeChar_ascii (by rw [hnat]; exact hb), hnat, UInt8.ofNat_toNat,
        ih fun c hc => h c (List.mem_cons_of_mem b hc), List.singleton_append]
  rw [← htext, fromUtf8Lossy_utf8]

/-- The text of a pair. -/
def entry (p : Bytes × Bytes) : Bytes × Bytes := (utf8 (fromUtf8Lossy p.1), utf8 (conninfoQuote (fromUtf8Lossy p.2)))

private theorem utf8_conninfoLoop (pairs : List (Bytes × Bytes)) :
    utf8 (conninfoLoop [] pairs) = Conninfo.join (pairs.map entry) := by
  have hblank : String.utf8EncodeChar ' ' = [32] := by decide
  have heq : String.utf8EncodeChar '=' = [61] := by decide
  have hmore : ∀ (pairs : List (Bytes × Bytes)) (out : Str), out ≠ [] → utf8 (conninfoLoop out pairs) =
      utf8 out ++ (pairs.map entry).flatMap fun q => 32 :: q.1 ++ 61 :: q.2 := by
    intro pairs
    induction pairs with
    | nil =>
      intro out _
      exact (List.append_nil _).symm
    | cons p pairs ih =>
      intro out hne
      rw [conninfoLoop, if_pos hne, ih _ (by simp)]
      simp [entry, hblank, heq]
  cases pairs with
  | nil => rfl
  | cons p pairs =>
    rw [conninfoLoop, if_neg (not_not_intro rfl), hmore _ _ (by simp), List.map_cons, Conninfo.join_cons]
    simp [entry, heq]

/-- libpq reads the pairs, the values as far as they are texts. -/
theorem parse_conninfoLoop (hkeys : ∀ p ∈ pairs, IsKeyword p.1) :
    Conninfo.parse (utf8 (conninfoLoop [] pairs)) = some (pairs.map fun p => (p.1, utf8 (fromUtf8Lossy p.2))) := by
  have hkey : ∀ p ∈ pairs, utf8 (fromUtf8Lossy p.1) = p.1 := fun p hp =>
    utf8_fromUtf8Lossy_ascii fun b hb => ((hkeys p hp).byte b hb).2.1
  have hentries : pairs.map entry = pairs.map fun p => (p.1, utf8 (conninfoQuote (fromUtf8Lossy p.2))) :=
    List.map_congr_left fun p hp => by rw [entry, hkey p hp]
  rw [utf8_conninfoLoop, hentries]
  exact Conninfo.parse_join pairs Prod.fst _ _ (fun p hp => (hkeys p hp).1)
    (fun p hp b hb => ((hkeys p hp).byte b hb).2.2) fun p _ => denotes_conninfoQuote _

private theorem zero_mem_conninfoQuote (v : Str) : 0 ∈ utf8 (conninfoQuote v) ↔ 0 ∈ utf8 v := by
  have hescape : ∀ b, 0 ∈ Conninfo.escapeByte b ↔ b = 0 := by
    intro b
    unfold Conninfo.escapeByte
    split
    · rename_i hb
      rcases hb with rfl | rfl <;> decide
    · simp [eq_comm]
  have hquote : String.utf8EncodeChar '\'' = [39] := by decide
  unfold conninfoQuote
  split
  · rfl
  · rw [List.cons_append, utf8_cons, utf8_append, utf8_cons, hquote, utf8_escape]
    simp [utf8, hescape]

private theorem zero_mem_conninfoLoop (hkeys : ∀ p ∈ pairs, IsKeyword p.1) :
    0 ∈ utf8 (conninfoLoop [] pairs) ↔ ∃ p ∈ pairs, 0 ∈ utf8 (fromUtf8Lossy p.2) := by
  have hkey : ∀ p ∈ pairs, 0 ∉ utf8 (fromUtf8Lossy p.1) := by
    intro p hp hzero
    rw [utf8_fromUtf8Lossy_ascii fun b hb => ((hkeys p hp).byte b hb).2.1] at hzero
    exact absurd ((hkeys p hp).byte 0 hzero).1 (by decide)
  rw [utf8_conninfoLoop, Conninfo.mem_join (by decide) (by decide)]
  constructor
  · rintro ⟨q, hq, hzero⟩
    obtain ⟨p, hp, rfl⟩ := List.mem_map.1 hq
    refine ⟨p, hp, ?_⟩
    rcases hzero with hzero | hzero
    · exact absurd hzero (hkey p hp)
    · exact (zero_mem_conninfoQuote _).1 hzero
  · rintro ⟨p, hp, hzero⟩
    exact ⟨entry p, List.mem_map_of_mem hp, .inr ((zero_mem_conninfoQuote _).2 hzero)⟩

/-- The parameters reach libpq unchanged exactly when each value is a text without NUL. -/
theorem conninfo_unchanged_iff (hkeys : ∀ p ∈ pairs, IsKeyword p.1) :
    ((∃ e, conninfoFromValue (.hash pairs) = .error e) ∨
      ∃ s, conninfoFromValue (.hash pairs) = .ok s ∧ Conninfo.parse s = some pairs) ↔
    ∀ p ∈ pairs, 0 ∉ p.2 ∧ ∃ t : Str, utf8 t = p.2 := by
  have hok : conninfoFromValue (.hash pairs) = .ok ((cstringNew (utf8 (conninfoLoop [] pairs))).getD []) := rfl
  have hparse := parse_conninfoLoop hkeys
  have hzero := zero_mem_conninfoLoop hkeys
  rw [hok]
  constructor
  · rintro (⟨e, he⟩ | ⟨s, hs, hpairs⟩)
    · cases he
    · cases hs
      unfold cstringNew at hpairs
      split at hpairs
      · rename_i hnul
        rw [Option.getD_none, Conninfo.parse_nil] at hpairs
        obtain rfl : [] = pairs := Option.some.inj hpairs
        simp
      · rename_i hnul
        rw [Option.getD_some, hparse, Option.some.injEq] at hpairs
        intro p hp
        have hval : utf8 (fromUtf8Lossy p.2) = p.2 := by
          have hsame : pairs.map (fun p => (p.1, utf8 (fromUtf8Lossy p.2))) = pairs.map id := by
            rw [hpairs, List.map_id]
          exact congrArg Prod.snd (List.map_inj_left.1 hsame p hp)
        refine ⟨fun h => hnul (hzero.2 ⟨p, hp, by rwa [hval]⟩), _, hval⟩
  · intro h
    have hval : ∀ p ∈ pairs, utf8 (fromUtf8Lossy p.2) = p.2 := by
      intro p hp
      obtain ⟨t, ht⟩ := (h p hp).2
      rw [← ht, fromUtf8Lossy_utf8]
    have hnul : 0 ∉ utf8 (conninfoLoop [] pairs) := by
      intro hmem
      obtain ⟨p, hp, hz⟩ := hzero.1 hmem
      rw [hval p hp] at hz
      exact (h p hp).1 hz
    refine .inr ⟨_, rfl, ?_⟩
    rw [cstringNew, if_neg hnul, Option.getD_some, hparse]
    have hsame : pairs.map (fun p => (p.1, utf8 (fromUtf8Lossy p.2))) = pairs.map id :=
      List.map_congr_left fun p hp => by rw [hval p hp, id]
    rw [hsame, List.map_id]

/-- A user with a blank in the name reaches libpq. -/
theorem conninfo_unchanged_user :
    (∃ e, conninfoFromValue (.hash [(utf8 "user".toList, utf8 "ana maria".toList)]) = .error e) ∨
      ∃ s, conninfoFromValue (.hash [(utf8 "user".toList, utf8 "ana maria".toList)]) = .ok s ∧
        Conninfo.parse s = some [(utf8 "user".toList, utf8 "ana maria".toList)] :=
  (@conninfo_unchanged_iff [(utf8 "user".toList, utf8 "ana maria".toList)] (by
    intro p hp
    rw [List.mem_singleton.1 hp]
    exact ⟨by decide, by decide +kernel⟩)).2 (by
    intro p hp
    rw [List.mem_singleton.1 hp]
    exact ⟨by decide, _, rfl⟩)

/-- A NUL in one value leaves nothing of the parameters. -/
theorem conninfo_not_unchanged : ¬∀ pairs : List (Bytes × Bytes), (∀ p ∈ pairs, IsKeyword p.1) →
    (∃ e, conninfoFromValue (.hash pairs) = .error e) ∨
      ∃ s, conninfoFromValue (.hash pairs) = .ok s ∧ Conninfo.parse s = some pairs := by
  intro h
  have hkeys : ∀ p ∈ [(utf8 "dbname".toList, ([97, 0] : Bytes))], IsKeyword p.1 := by
    intro p hp
    rw [List.mem_singleton.1 hp]
    exact ⟨by decide, by decide +kernel⟩
  have hempty : conninfoFromValue (.hash [(utf8 "dbname".toList, [97, 0])]) = .ok [] := by decide +kernel
  rcases h _ hkeys with ⟨e, he⟩ | ⟨s, hs, hparse⟩
  · rw [hempty] at he
    cases he
  · rw [hempty] at hs
    cases hs
    rw [Conninfo.parse_nil] at hparse
    cases hparse

end Pg

end Calisto

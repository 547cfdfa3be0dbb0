import Calisto.Ruby.Symtab

/-!
# What the lookup of local symbols asks of the file

`symtab_lookup` panics on some library files.  Which ones is said by `Fits`, section by section: the width of a section
header, and the sums that overflow.
-/

namespace Calisto

namespace Symtab

open Words Checked

variable {data name strtab shstr hdr : Bytes} {offset size entsize off shoff shentsize : Nat}

/-! ### Symbols -/

/-- The number in a part of a header. -/
def field (s : Bytes) (a b : Nat) : Nat := number (slice s a b)

/-- What is asked of the symbols: the first one that is read, and the step to the second one, do not overflow. -/
def SymbolsFit (data name strtab : Bytes) (offset size entsize : Nat) : Prop :=
  24 ≤ size → offset + 24 < 18446744073709551616 ∧
    (offset + 24 ≤ data.length → ∀ found, cstrAt strtab (field (slice data offset (offset + 24)) 0 4) = some found →
      found ≠ name → max entsize 24 + 24 < 18446744073709551616 ∧
        (max entsize 24 + 24 ≤ size → offset + max entsize 24 + 24 < 18446744073709551616))

/-- A round of the loop. -/
theorem safe_symbolLoop_step : Safe (symbolLoop data name strtab offset size entsize off) ↔
    off + 24 < 18446744073709551616 ∧ (off + 24 ≤ size → offset + off + 24 < 18446744073709551616 ∧
      (offset + off + 24 ≤ data.length →
        ∀ found, cstrAt strtab (field (slice data (offset + off) (offset + off + 24)) 0 4) = some found → found ≠ name →
          off + max entsize 24 < 18446744073709551616 ∧
            Safe (symbolLoop data name strtab offset size entsize (off + max entsize 24)))) := by
  have hlen : offset + off + 24 ≤ data.length → (slice data (offset + off) (offset + off + 24)).length = 24 := by
    intro h
    rw [length_slice]
    omega
  rw [symbolLoop, safe_add_bind]
  refine and_congr_right fun hoff => ?_
  by_cases hsize : off + 24 ≤ size
  · rw [if_pos hsize, safe_add_bind, safe_add_bind, safe_get_bind, safe_index_bind, safe_index_bind, safe_ofOption_bind]
    constructor
    · rintro ⟨-, hend, hget⟩ -
      refine ⟨hend, fun hin found hfound hne => ?_⟩
      have hnext := (hget ⟨by omega, hin⟩).2.2 found hfound
      rwa [if_neg hne, safe_add_bind] at hnext
    · intro h
      obtain ⟨hend, hget⟩ := h hsize
      refine ⟨by omega, hend, fun hin => ⟨⟨by omega, ?_⟩, ⟨by omega, ?_⟩, fun found hfound => ?_⟩⟩
      · rw [hlen hin.2]
        omega
      · rw [hlen hin.2]
        omega
      · split
        · exact safe_pure _
        · rename_i hne
          exact (safe_add_bind _).2 (hget hin.2 found hfound hne)
  · rw [if_neg hsize]
    exact iff_of_true safe_throw fun h => absurd h hsize

/-- From the third symbol on nothing overflows: the step is no longer than the part that was read. -/
theorem safe_symbolLoop (hdata : data.length < 9223372036854775808) {p : Nat} (hp : max entsize 24 ≤ p)
    (hin : offset + p + 24 ≤ data.length) :
    Safe (symbolLoop data name strtab offset size entsize (p + max entsize 24)) := by
  induction hn : size - p using Nat.strongRecOn generalizing p with
  | ind n ih =>
    have hstep : 24 ≤ max entsize 24 := Nat.le_max_right ..
    rw [safe_symbolLoop_step]
    refine ⟨by omega, fun hsize => ⟨by omega, fun hin' found _ _ => ⟨by omega, ?_⟩⟩⟩
    exact ih (size - (p + max entsize 24)) (by omega) (by omega) hin' rfl

private theorem safe_symbolLoop_iff (hdata : data.length < 9223372036854775808) (hoff : offset < 18446744073709551616)
    (hent : entsize < 18446744073709551616) :
    Safe (symbolLoop data name strtab offset size entsize 0) ↔ SymbolsFit data name strtab offset size entsize := by
  have hstep : max entsize 24 < 18446744073709551616 := by omega
  -- the second symbol
  have hsecond : offset + 24 ≤ data.length →
      (Safe (symbolLoop data name strtab offset size entsize (max entsize 24)) ↔
        max entsize 24 + 24 < 18446744073709551616 ∧
          (max entsize 24 + 24 ≤ size → offset + max entsize 24 + 24 < 18446744073709551616)) := by
    intro hin
    rw [safe_symbolLoop_step]
    refine and_congr_right fun _ => forall_congr' fun hsize => and_iff_left ?_
    intro hin' found _ _
    exact ⟨by omega, safe_symbolLoop hdata (Nat.le_refl _) hin'⟩
  rw [safe_symbolLoop_step, SymbolsFit, Nat.zero_add, Nat.zero_add, Nat.add_zero, and_iff_right (by omega)]
  refine forall_congr' fun _ => and_congr_right fun _ => forall_congr' fun hin => forall_congr' fun found =>
    forall_congr' fun _ => forall_congr' fun _ => ?_
  rw [hsecond hin, and_iff_right hstep]

/-! ### Sections -/

/-- Where the header of the section `i` ends. -/
def headerEnd (shoff shentsize i : Nat) : Nat := shoff + (i + 1) * shentsize

def header (data : Bytes) (shoff shentsize i : Nat) : Bytes :=
  slice data (shoff + i * shentsize) (headerEnd shoff shentsize i)

private theorem length_header {i : Nat} (h : headerEnd shoff shentsize i ≤ data.length) :
    (header data shoff shentsize i).length = shentsize := by
  unfold headerEnd at h
  rw [header, length_slice, headerEnd, Nat.add_mul, Nat.one_mul]
  rw [Nat.add_mul, Nat.one_mul] at h
  omega

private theorem mul_header_le {i : Nat} (hi : i < 4294967296) (hent : shentsize < 65536) :
    i * shentsize + shentsize ≤ 281474976710656 := by
  have h := Nat.mul_le_mul (Nat.succ_le_of_lt hi) hent.le
  rw [Nat.succ_mul] at h
  exact h

theorem safe_headerAt_bind {i : Nat} (hi : i < 4294967296) (hent : shentsize < 65536) {β : Type} (f : Bytes → Run β) :
    Safe (headerAt data shoff shentsize i >>= f) ↔ headerEnd shoff shentsize i < 18446744073709551616 ∧
      (headerEnd shoff shentsize i ≤ data.length → Safe (f (header data shoff shentsize i))) := by
  have hmul := mul_header_le hi hent
  unfold headerAt header headerEnd
  simp only [bind_assoc, safe_mul_bind, safe_add_bind, safe_get_bind, Nat.add_mul, Nat.one_mul]
  constructor
  · rintro ⟨-, -, -, -, hend, hget⟩
    exact ⟨hend, fun hin => hget ⟨by omega, hin⟩⟩
  · rintro ⟨hend, hget⟩
    exact ⟨by omega, by omega, by omega, by omega, hend, fun hin => hget hin.2⟩

/-- What is asked of the section `.symtab`: the width of its header, and that its strings and symbols fit. -/
def SymtabFits (data name : Bytes) (shoff shentsize : Nat) (hdr : Bytes) : Prop :=
  64 ≤ shentsize ∧
    let link := field hdr 40 44
    let strtab := header data shoff shentsize link
    headerEnd shoff shentsize link ≤ data.length →
      field strtab 24 32 + field strtab 32 40 < 18446744073709551616 ∧
        (field strtab 24 32 + field strtab 32 40 ≤ data.length →
          SymbolsFit data name (slice data (field strtab 24 32) (field strtab 24 32 + field strtab 32 40))
            (field hdr 24 32) (field hdr 32 40) (field hdr 56 64))

theorem field_lt (s : Bytes) {a b n : Nat} (h : 256 ^ (b - a) = n) : field s a b < n := h ▸ number_slice_lt s a b

private theorem safe_symtabSection_iff (hdata : data.length < 9223372036854775808) (hshoff : shoff ≤ data.length)
    (hent : shentsize < 65536) (hlen : hdr.length = shentsize) :
    Safe (symtabSection data name shoff shentsize hdr) ↔ SymtabFits data name shoff shentsize hdr := by
  have hlink := field_lt hdr (a := 40) (b := 44) (n := 4294967296) rfl
  have hoff := field_lt hdr (a := 24) (b := 32) (n := 18446744073709551616) rfl
  have hsym := field_lt hdr (a := 56) (b := 64) (n := 18446744073709551616) rfl
  have hmul := mul_header_le hlink hent
  -- the strings of the symbols: their header does not overflow
  have hnext : 64 ≤ shentsize → (Safe (headerAt data shoff shentsize (field hdr 40 44) >>= fun strtabHdr => do
      let strtabOff := number (← index strtabHdr 24 32)
      let strtabSize := number (← index strtabHdr 32 40)
      let strtab ← get data strtabOff (← add strtabOff strtabSize)
      symbolLoop data name strtab (field hdr 24 32) (field hdr 32 40) (field hdr 56 64) 0) ↔
      (SymtabFits data name shoff shentsize hdr)) := by
    intro hwide
    have hend : headerEnd shoff shentsize (field hdr 40 44) < 18446744073709551616 := by
      rw [headerEnd, Nat.add_mul, Nat.one_mul]
      omega
    rw [safe_headerAt_bind hlink hent, SymtabFits, and_iff_right hwide, and_iff_right hend]
    refine forall_congr' fun hin => ?_
    rw [safe_index_bind, safe_index_bind, safe_add_bind, safe_get_bind, length_header hin,
      and_iff_right (by omega), and_iff_right (by omega)]
    refine and_congr_right fun _ => ?_
    rw [safe_symbolLoop_iff hdata hoff hsym]
    exact ⟨fun h hin => h ⟨by omega, hin⟩, fun h hin => h hin.2⟩
  unfold symtabSection
  rw [safe_index_bind, safe_index_bind, safe_index_bind, safe_index_bind, hlen]
  constructor
  · rintro ⟨-, ⟨-, hwide⟩, -, -, hrest⟩
    exact (hnext hwide).1 hrest
  · intro h
    have hwide := h.1
    exact ⟨⟨by omega, by omega⟩, ⟨by omega, hwide⟩, ⟨by omega, by omega⟩, ⟨by omega, by omega⟩, (hnext hwide).2 h⟩

def IsSymtab (data shstr : Bytes) (shoff shentsize i : Nat) : Prop :=
  field (header data shoff shentsize i) 4 8 = 2 ∧
    cstrAt shstr (field (header data shoff shentsize i) 0 4) = some (utf8 ".symtab".toList)

instance (data shstr : Bytes) (shoff shentsize i : Nat) : Decidable (IsSymtab data shstr shoff shentsize i) :=
  inferInstanceAs (Decidable (_ ∧ _))

/-- What the loop does with a section. -/
theorem safe_section_iff {i : Nat} (is : List Nat) (hent : shentsize < 65536) (h8 : 8 ≤ shentsize) (hi : i < 4294967296)
    (hfits : headerEnd shoff shentsize i ≤ data.length) (hend : headerEnd shoff shentsize i < 18446744073709551616) :
    Safe (sectionLoop data name shstr shoff shentsize (i :: is)) ↔
      if IsSymtab data shstr shoff shentsize i then
        Safe (symtabSection data name shoff shentsize (header data shoff shentsize i))
      else Safe (sectionLoop data name shstr shoff shentsize is) := by
  have hlen := length_header hfits
  rw [sectionLoop, safe_headerAt_bind hi hent, and_iff_right hend, forall_prop_of_true hfits, safe_index_bind, hlen,
    and_iff_right (by omega)]
  dsimp only
  by_cases htype : number (slice (header data shoff shentsize i) 4 8) = 2
  · rw [if_neg (not_not_intro htype), safe_index_bind, hlen, and_iff_right (by omega)]
    by_cases hname : cstrAt shstr (number (slice (header data shoff shentsize i) 0 4)) = some (utf8 ".symtab".toList)
    · have hsym : IsSymtab data shstr shoff shentsize i := ⟨htype, hname⟩
      rw [if_neg (not_not_intro hname), if_pos hsym]
    · have hsym : ¬IsSymtab data shstr shoff shentsize i := fun h => hname h.2
      rw [if_pos hname, if_neg hsym]
  · have hsym : ¬IsSymtab data shstr shoff shentsize i := fun h => htype h.1
    rw [if_pos htype, if_neg hsym]

/-- The loop from the section `i` on stops at the first section `.symtab`. -/
theorem safe_sectionLoop_iff (hdata : data.length < 9223372036854775808) (hent : shentsize < 65536) (h8 : 8 ≤ shentsize)
    (n : Nat) {i : Nat} (hin : i + n ≤ 65536) (hstart : shoff + i * shentsize ≤ data.length) :
    Safe (sectionLoop data name shstr shoff shentsize (List.range' i n)) ↔
      ∀ k, i ≤ k → k < i + n → headerEnd shoff shentsize k ≤ data.length → IsSymtab data shstr shoff shentsize k →
        (∀ j, i ≤ j → j < k → ¬IsSymtab data shstr shoff shentsize j) →
        SymtabFits data name shoff shentsize (header data shoff shentsize k) := by
  induction n generalizing i with
  | zero => exact iff_of_true safe_throw fun k hik hk => by omega
  | succ n ih =>
    have hmul := mul_header_le (i := i) (by omega) hent
    have hend : headerEnd shoff shentsize i < 18446744073709551616 := by
      rw [headerEnd, Nat.add_mul, Nat.one_mul]
      omega
    rw [List.range'_succ]
    by_cases hfits : headerEnd shoff shentsize i ≤ data.length
    · rw [safe_section_iff _ hent h8 (by omega) hfits hend]
      split
      · rename_i hsym
        rw [safe_symtabSection_iff hdata (by omega) hent (length_header hfits)]
        constructor
        · intro h k hik _ _ _ hfirst
          rcases Nat.eq_or_lt_of_le hik with rfl | hlt
          · exact h
          · exact absurd hsym (hfirst i (Nat.le_refl i) hlt)
        · intro h
          exact h i (Nat.le_refl i) (by omega) hfits hsym fun j hij hji => by omega
      · rename_i hsym
        rw [ih (by omega) (by unfold headerEnd at hfits; exact hfits)]
        constructor
        · intro h k hik hk hkfits hksym hfirst
          rcases Nat.eq_or_lt_of_le hik with rfl | hlt
          · exact absurd hksym hsym
          · exact h k hlt (by omega) hkfits hksym fun j hij hjk => hfirst j (by omega) hjk
        · intro h k hik hk hkfits hksym hfirst
          refine h k (by omega) (by omega) hkfits hksym fun j hij hjk => ?_
          rcases Nat.eq_or_lt_of_le hij with rfl | hlt
          · exact hsym
          · exact hfirst j hlt hjk
    · -- the header is not in the file, and so none of a later section
      rw [sectionLoop, safe_headerAt_bind (by omega) hent, and_iff_right hend]
      refine iff_of_true (fun h => absurd h hfits) fun k hik _ hk => ?_
      have hmono : (i + 1) * shentsize ≤ (k + 1) * shentsize := Nat.mul_le_mul_right shentsize (by omega)
      unfold headerEnd at hfits hk
      omega

/-! ### The file -/

/-- What is asked of the file: the header of the section names is wide enough, and the first section `.symtab` fits. -/
def Fits (data name : Bytes) : Prop :=
  let shoff := field data 40 48
  let shentsize := field data 58 60
  let names := header data shoff shentsize (field data 62 64)
  64 ≤ data.length → slice data 4 5 = [2] →
    headerEnd shoff shentsize (field data 62 64) < 18446744073709551616 ∧
      (headerEnd shoff shentsize (field data 62 64) ≤ data.length → 40 ≤ shentsize ∧
        field names 24 32 + field names 32 40 < 18446744073709551616 ∧
          (field names 24 32 + field names 32 40 ≤ data.length →
            ∀ i < field data 60 62, headerEnd shoff shentsize i ≤ data.length →
              let shstr := slice data (field names 24 32) (field names 24 32 + field names 32 40)
              IsSymtab data shstr shoff shentsize i → (∀ j < i, ¬IsSymtab data shstr shoff shentsize j) →
                SymtabFits data name shoff shentsize (header data shoff shentsize i)))

/-- The lookup does not panic exactly on the files that fit. -/
theorem symtab_lookup_safe_iff (file : Option File) (name : Bytes) :
    Safe (symtabLookup file name) ↔ ∀ f, file = some f → Fits f.bytes name := by
  unfold symtabLookup
  rw [safe_ofOption_bind]
  refine forall_congr' fun f => forall_congr' fun _ => ?_
  have hdata := f.fits
  generalize f.bytes = data at hdata ⊢
  have hent := field_lt data (a := 58) (b := 60) (n := 65536) rfl
  have hcount := field_lt data (a := 60) (b := 62) (n := 65536) rfl
  have hnames := field_lt data (a := 62) (b := 64) (n := 65536) rfl
  unfold Fits
  dsimp only
  by_cases hshort : data.length < 64
  · rw [if_pos hshort]
    exact iff_of_true safe_throw fun h => by omega
  rw [if_neg hshort, forall_prop_of_true (by omega), safe_index_bind, and_iff_right (by omega)]
  by_cases hclass : slice data 4 5 = [2]
  · rw [if_neg (not_not_intro hclass), forall_prop_of_true hclass, safe_index_bind, and_iff_right (by omega),
      safe_index_bind, and_iff_right (by omega), safe_index_bind, and_iff_right (by omega), safe_index_bind,
      and_iff_right (by omega)]
    refine (safe_headerAt_bind (Nat.lt_trans hnames (by decide)) hent _).trans ?_
    refine and_congr_right fun _ => forall_congr' fun hin => ?_
    have hstart : field data 40 48 + 0 * field data 58 60 ≤ data.length := by
      have hle : headerEnd (field data 40 48) (field data 58 60) (field data 62 64) ≤ data.length := hin
      unfold headerEnd at hle
      omega
    have hloop := fun (shstr : Bytes) (hwide : 40 ≤ field data 58 60) =>
      @safe_sectionLoop_iff data name shstr _ _ hdata hent (by omega) (field data 60 62) 0 (by omega) hstart
    simp only [Nat.zero_add, Nat.zero_le, true_implies] at hloop
    rw [safe_index_bind, safe_index_bind, safe_add_bind, safe_get_bind, length_header hin, List.range_eq_range']
    constructor
    · rintro ⟨-, ⟨-, hwide⟩, hsum, hrest⟩
      exact ⟨hwide, hsum, fun hle => (hloop _ hwide).1 (hrest ⟨Nat.le_add_right .., hle⟩)⟩
    · rintro ⟨hwide, hsum, hrest⟩
      exact ⟨⟨by decide, by omega⟩, ⟨by decide, hwide⟩, hsum, fun hle => (hloop _ hwide).2 (hrest hle.2)⟩
  · rw [if_pos hclass]
    exact iff_of_true safe_throw fun h => absurd h hclass

/-- The header of an ELF file, and nothing of sections in it. -/
def stripped : File := ⟨[0x7f, 0x45, 0x4c, 0x46, 2] ++ List.replicate 59 0, by decide⟩

/-- A file without section headers makes the lookup panic. -/
theorem symtab_lookup_panics : ¬∀ (file : Option File) (name : Bytes), Safe (symtabLookup file name) := by
  intro h
  have hpanic : symtabLookup (some stripped) (utf8 "ruby_options".toList) = .error .panic := by decide +kernel
  exact h _ _ hpanic

end Symtab

end Calisto

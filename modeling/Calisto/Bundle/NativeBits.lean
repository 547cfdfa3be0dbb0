import Calisto.Bundle.NativeCache
import Calisto.Lib.Sextets

/-!
# The bits of an embedded extension

The decoder of `load_native`, one character at a time.  What it has read is always what it has emitted followed by the
bits it still holds, which are never more than six: the cut of the accumulator to thirty bits reaches none of them.
-/

namespace Calisto

namespace Native

/-- The number with these digits in the base `b`. -/
def number (b : Nat) (vs : List Nat) : Nat := vs.foldl (fun n v => n * b + v) 0

@[simp] theorem number_nil (b : Nat) : number b [] = 0 := rfl

@[simp] theorem number_append_singleton (b : Nat) (vs : List Nat) (v : Nat) :
    number b (vs ++ [v]) = number b vs * b + v := by
  simp [number]

/-- The variables of `b64decode`. -/
structure Decoder where
  out : Bytes := []
  buf : Nat := 0
  bits : Nat := 0

/-- The body of `s.each_char`. -/
def Decoder.read (d : Decoder) (c : Char) : Option Decoder :=
  if c = '=' ∨ c = '\n' then some d
  else (Base64.value c).map fun v =>
    let buf := ((d.buf <<< 6) ||| v) &&& 0x3fffffff
    let bits := d.bits + 6
    if bits ≥ 8 then ⟨d.out ++ [UInt8.ofNat ((buf >>> (bits - 8)) &&& 0xff)], buf, bits - 8⟩ else ⟨d.out, buf, bits⟩

/-- The variables after a text. -/
def Decoder.run (d : Decoder) : Str → Option Decoder
  | [] => some d
  | c :: s => match d.read c with
    | none => none
    | some d => d.run s

private theorem Decoder.run_append (d : Decoder) (s s' : Str) : d.run (s ++ s') = (d.run s).bind fun e => e.run s' := by
  induction s generalizing d with
  | nil => rfl
  | cons c s ih =>
    simp only [List.cons_append, Decoder.run]
    cases d.read c with
    | none => rfl
    | some e => exact ih e

/-- `b64decode` is the loop over its characters. -/
theorem b64decodeFrom_eq_run (s : Str) (d : Decoder) : b64decodeFrom s d.out d.buf d.bits = (d.run s).map (·.out) := by
  induction s generalizing d with
  | nil => rfl
  | cons c s ih =>
    rw [b64decodeFrom, Decoder.run, Decoder.read]
    by_cases hpad : c = '=' ∨ c = '\n'
    · rw [if_pos hpad, if_pos hpad]
      exact ih d
    rw [if_neg hpad, if_neg hpad]
    cases Base64.value c with
    | none => rfl
    | some v =>
      by_cases hbits : d.bits + 6 ≥ 8
      · simp only [Option.map_some, if_pos hbits]
        rw [← ih]
      · simp only [Option.map_some, if_neg hbits]
        rw [← ih]

private theorem b64decode_eq_run (s : Str) : b64decode s = (Decoder.run {} s).map (·.out) := b64decodeFrom_eq_run s {}

/-- The digits in a text. -/
def digitsOf (s : Str) : List Nat := s.filterMap Base64.value

theorem value_lt {c : Char} {v : Nat} (h : Base64.value c = some v) : v < 64 := by
  have hlen : Base64.alphabet.length = 64 := by decide +kernel
  rw [Base64.value, List.idxOf?, List.findIdx?_eq_some_iff_getElem] at h
  obtain ⟨hlt, -⟩ := h
  rwa [hlen] at hlt

theorem value_pad : Base64.value '=' = none ∧ Base64.value '\n' = none := by decide +kernel

/-- The digits read are the bytes emitted and the bits that the accumulator still holds. -/
structure Decoder.Holds (d : Decoder) (vs : List Nat) : Prop where
  bits_le : d.bits ≤ 6
  buf_lt : d.buf < 2 ^ 30
  length : 8 * d.out.length + d.bits = 6 * vs.length
  intact : number 256 (d.out.map UInt8.toNat) * 2 ^ d.bits + d.buf % 2 ^ d.bits = number 64 vs

private theorem Decoder.holds_nil : ({} : Decoder).Holds [] := by
  constructor <;> simp

private theorem Decoder.Holds.bits_eq {d : Decoder} {vs : List Nat} (h : d.Holds vs) :
    d.bits = 0 ∨ d.bits = 2 ∨ d.bits = 4 ∨ d.bits = 6 := by
  have := h.bits_le
  have := h.length
  omega

/-- A digit that completes no byte. -/
theorem Decoder.Holds.first {d : Decoder} {vs : List Nat} {v : Nat} (h : d.Holds vs) (hv : v < 64)
    (hbits : d.bits = 0) : Decoder.Holds ⟨d.out, shiftIn d.buf v, 6⟩ (vs ++ [v]) := by
  have hlen := h.length
  have hnum := h.intact
  simp only [hbits, pow_zero] at hlen hnum
  constructor
  · exact Nat.le_refl 6
  · exact Nat.mod_lt _ (by decide)
  · simp only [List.length_append, List.length_singleton]
    omega
  · rw [number_append_singleton, ← hnum]
    simp only [shiftIn]
    omega

/-- A digit that completes a byte. -/
theorem Decoder.Holds.next {d : Decoder} {vs : List Nat} {v : Nat} (h : d.Holds vs) (hv : v < 64) (hbits : d.bits ≠ 0) :
    Decoder.Holds ⟨d.out ++ [UInt8.ofNat (shiftIn d.buf v / 2 ^ (d.bits - 2))], shiftIn d.buf v, d.bits - 2⟩
      (vs ++ [v]) := by
  have hlen := h.length
  have hnum := h.intact
  have hle := h.bits_le
  constructor
  · exact (Nat.sub_le _ _).trans hle
  · exact Nat.mod_lt _ (by decide)
  · have := h.bits_eq
    simp only [List.length_append, List.length_singleton]
    omega
  · rw [number_append_singleton, ← hnum, List.map_append, List.map_singleton, number_append_singleton,
      UInt8.toNat_ofNat']
    generalize number 256 (d.out.map UInt8.toNat) = n
    rcases h.bits_eq with hb | hb | hb | hb
    · exact absurd hb hbits
    all_goals
      simp only [hb, shiftIn]
      omega

theorem Decoder.Holds.read {d : Decoder} {vs : List Nat} {c : Char} {v : Nat} (h : d.Holds vs)
    (hc : Base64.value c = some v) : ∃ e, d.read c = some e ∧ e.Holds (vs ++ [v]) ∧ d.out <+: e.out := by
  have hv := value_lt hc
  have hpad : ¬(c = '=' ∨ c = '\n') := by
    rintro (rfl | rfl)
    · simp [value_pad.1] at hc
    · simp [value_pad.2] at hc
  rw [Decoder.read, if_neg hpad, hc]
  simp only [Option.map_some, shiftIn_eq hv, Option.some.injEq, exists_eq_left']
  by_cases hbits : d.bits = 0
  · rw [hbits, if_neg (by decide)]
    exact ⟨h.first hv hbits, List.prefix_rfl⟩
  · have hge : d.bits + 6 ≥ 8 := by
      have := h.bits_eq
      omega
    have hsub : d.bits + 6 - 8 = d.bits - 2 := by omega
    rw [if_pos hge, hsub, byte_of_bits]
    exact ⟨h.next hv hbits, List.prefix_append _ _⟩

/-- A character that is no digit is skipped or raises. -/
theorem Decoder.read_of_none {c : Char} (hc : Base64.value c = none) (d : Decoder) :
    d.read c = none ∨ d.read c = some d := by
  rw [Decoder.read, hc]
  split
  · exact .inr rfl
  · exact .inl rfl

/-- What is held after a text, whatever was held before it. -/
theorem Decoder.Holds.run {d e : Decoder} {vs : List Nat} {s : Str} (h : d.Holds vs) (hs : d.run s = some e) :
    e.Holds (vs ++ digitsOf s) ∧ d.out <+: e.out := by
  induction s generalizing d vs with
  | nil =>
    rw [Decoder.run, Option.some.injEq] at hs
    subst hs
    simpa [digitsOf] using h
  | cons c s ih =>
    rw [Decoder.run] at hs
    cases hc : Base64.value c with
    | none =>
      rcases d.read_of_none hc with hread | hread
      · simp [hread] at hs
      · rw [hread] at hs
        simpa [digitsOf, hc] using ih h hs
    | some v =>
      obtain ⟨d', hread, hholds, hpre⟩ := h.read hc
      rw [hread] at hs
      obtain ⟨hend, hpre'⟩ := ih hholds hs
      refine ⟨?_, hpre.trans hpre'⟩
      simpa [digitsOf, hc] using hend

/-- The extension comes back from its text, and after each part of the text the decoder has emitted the first bytes of
the extension and holds the rest of the bits that it has read, at most six. -/
theorem native_decoded (data : Bytes) :
    b64decode (Base64.encode data) = some data ∧
    ∀ s, s <+: Base64.encode data → ∃ d : Decoder, Decoder.run {} s = some d ∧ d.out <+: data ∧ d.bits ≤ 6 ∧
      8 * d.out.length + d.bits = 6 * (digitsOf s).length ∧
      number 256 (d.out.map UInt8.toNat) * 2 ^ d.bits + d.buf % 2 ^ d.bits = number 64 (digitsOf s) := by
  refine ⟨b64decode_encode data, ?_⟩
  rintro s ⟨s', hs⟩
  have hdata := b64decode_encode data
  rw [b64decode_eq_run, ← hs, Decoder.run_append] at hdata
  obtain ⟨e, hrun, rfl⟩ := Option.map_eq_some_iff.1 hdata
  obtain ⟨d, hd, he⟩ := Option.bind_eq_some_iff.1 hrun
  obtain ⟨hholds, -⟩ := Decoder.holds_nil.run hd
  obtain ⟨-, hpre⟩ := hholds.run he
  exact ⟨d, hd, hpre, hholds.bits_le, hholds.length, hholds.intact⟩

/-- The first three characters of two bytes. -/
theorem native_decoded_prefix :
    ∃ d : Decoder, Decoder.run {} "AQI".toList = some d ∧ d.out <+: [1, 2] ∧ d.bits ≤ 6 := by
  obtain ⟨d, hd, hout, hbits, -⟩ := (native_decoded [1, 2]).2 "AQI".toList ⟨['='], by decide +kernel⟩
  exact ⟨d, hd, hout, hbits⟩

end Native

end Calisto

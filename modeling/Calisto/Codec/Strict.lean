import Calisto.Codec.Base64

/-!
# Strict decoding

`strict_decode64` accepts letters with the padding that their number asks for, and does not look at the bits of the
last letter that go to no byte: two texts may stand for the same bytes.
-/

namespace Calisto

namespace Codec

open Base64 (sextets bytes Spare)

variable {s d data data' : Bytes} {b : UInt8} {v : Nat} {vs : List Nat}

/-! ### One chunk -/

/-- A chunk is read to its end when it is letters with padding behind them, which only the last one may have. -/
theorem strictScan_eq_some (isLast : Bool) (chunk : Bytes) {seenPad : Bool}
    (h : strictScan isLast data seenPad chunk = some data') :
    ∃ vs n, chunk = vs.map letter ++ List.replicate n pad ∧ (∀ v ∈ vs, v < 64) ∧ (isLast = false → n = 0) ∧
      (seenPad = true → vs = []) ∧ data' = data ++ places vs := by
  induction chunk generalizing data seenPad with
  | nil =>
    cases h
    exact ⟨[], 0, rfl, by simp, fun _ => rfl, fun _ => rfl, (List.append_nil _).symm⟩
  | cons b chunk ih =>
    unfold strictScan at h
    split at h
    · rename_i hb
      split at h
      · cases h
      · rename_i hlast
        obtain ⟨vs, n, hchunk, hlt, -, hnil, hdata⟩ := ih h
        rw [hnil rfl] at hchunk hdata
        refine ⟨[], n + 1, ?_, by simp, fun hf => ?_, fun _ => rfl, hdata⟩
        · rw [hchunk, hb]
          rfl
        · simp [hf] at hlast
    · split at h
      · cases h
      · rename_i hseen
        dsimp only at h
        split at h
        · cases h
        · rename_i hneg
          cases hv : value b with
          | none => exact absurd (table_of_none hv) hneg
          | some v =>
            obtain ⟨vs, n, hchunk, hlt, hn, hnil, hdata⟩ := ih h
            refine ⟨v :: vs, n, ?_, ?_, hn, fun hs => absurd hs hseen, ?_⟩
            · rw [hchunk, List.map_cons, letter_of_value hv]
              rfl
            · intro w hw
              rcases List.mem_cons.1 hw with rfl | hw
              · exact value_lt hv
              · exact hlt w hw
            · rw [hdata, (table_of_some hv).2, List.append_assoc]
              rfl

private theorem strictScan_pads (n : Nat) (data : Bytes) (seenPad : Bool) :
    strictScan true data seenPad (List.replicate n pad) = some data := by
  induction n generalizing seenPad with
  | zero => rfl
  | succ n ih =>
    rw [List.replicate_succ, strictScan, if_pos rfl]
    exact ih true

private theorem strictScan_letters (isLast : Bool) (rest : Bytes) (hlt : ∀ v ∈ vs, v < 64) (data : Bytes) :
    strictScan isLast data false (vs.map letter ++ rest) = strictScan isLast (data ++ places vs) false rest := by
  induction vs generalizing data with
  | nil => rw [places, List.map_nil, List.map_nil, List.append_nil, List.nil_append]
  | cons v vs ih =>
    have hv : v < 64 := hlt v (List.mem_cons_self ..)
    obtain ⟨hneg, hcast⟩ := table_of_some (value_letter v hv)
    rw [List.map_cons, List.cons_append, strictScan, if_neg (letter_ne_pad v hv), if_neg (by decide)]
    dsimp only
    rw [if_neg hneg, hcast, ih fun w hw => hlt w (List.mem_cons_of_mem v hw), List.append_assoc]
    rfl

/-- The texts that are read: letters and the padding that completes the last group. -/
structure Shape (s : Bytes) (vs : List Nat) (n : Nat) : Prop where
  text : s = vs.map letter ++ List.replicate n pad
  lt : ∀ v ∈ vs, v < 64
  padding : n ≤ 2
  groups : (vs.length + n) % 4 = 0

private theorem strictChunk_of_shape (isLast : Bool) {vs : List Nat} {n : Nat} (hlt : ∀ v ∈ vs, v < 64)
    (hlen : vs.length + n = 4) (hn : n ≤ 2) (hlast : isLast = false → n = 0) :
    strictChunk isLast (vs.map letter ++ List.replicate n pad) = some (bytes vs) := by
  have hscan : strictScan isLast [] false (vs.map letter ++ List.replicate n pad) = some (places vs) := by
    rw [strictScan_letters isLast _ hlt, List.nil_append]
    cases isLast with
    | true => exact strictScan_pads n _ _
    | false =>
      rw [hlast rfl]
      rfl
  -- only the last chunk has padding
  have hl : 0 < n → isLast = true := by
    intro hpos
    by_contra hf
    have := hlast (by simpa using hf)
    omega
  unfold strictChunk
  rw [hscan]
  match vs, hlt, hlen with
  | [x, y, z, w], hlt, _ =>
    have h := bytes_places (hlt x (by simp)) (hlt y (by simp)) (hlt z (by simp)) (hlt w (by simp))
    cases isLast <;> exact congrArg some h
  | [x, y, z], hlt, hlen =>
    have h := bytes_places_three (hlt x (by simp)) (hlt y (by simp)) (hlt z (by simp))
    simp only [List.length_cons, List.length_nil] at hlen
    rw [hl (by omega)]
    exact congrArg some h
  | [x, y], hlt, hlen =>
    have h := bytes_places_two (hlt x (by simp)) (hlt y (by simp))
    simp only [List.length_cons, List.length_nil] at hlen
    rw [hl (by omega)]
    exact congrArg some h
  | [x], _, hlen => simp at hlen; omega
  | [], _, hlen => simp at hlen; omega
  | _ :: _ :: _ :: _ :: _ :: _, _, hlen => simp at hlen; omega

private theorem shape_of_strictChunk {isLast : Bool} {chunk more : Bytes} (h : strictChunk isLast chunk = some more)
    (hchunk : chunk.length = 4) :
    ∃ vs n, Shape chunk vs n ∧ (isLast = false → n = 0) ∧ vs.length + n = 4 ∧ more = bytes vs := by
  have hall := h
  unfold strictChunk at h
  obtain ⟨data, hscan, h⟩ := Option.bind_eq_some_iff.1 h
  obtain ⟨vs, n, htext, hlt, hn, -, hdata⟩ := strictScan_eq_some isLast chunk hscan
  have hlen : vs.length + n = 4 := by
    rw [htext] at hchunk
    simpa using hchunk
  have hcount : data.length = vs.length := by simp [hdata, places]
  have hpad : n ≤ 2 := by
    cases isLast with
    | false =>
      rw [hn rfl]
      decide
    | true =>
      by_contra hbig
      have hshort : data.length = 0 ∨ data.length = 1 := by omega
      dsimp only at h
      rw [if_pos rfl, if_pos hshort] at h
      cases h
  refine ⟨vs, n, ⟨htext, hlt, hpad, by omega⟩, hn, hlen, ?_⟩
  rw [htext, strictChunk_of_shape isLast hlt hlen hpad hn] at hall
  exact (Option.some.inj hall).symm

/-! ### Whole texts -/

/-- A last chunk that is short makes the length no multiple of four. -/
theorem length_last {last : Bytes} (hfour : ∀ a b c d rest, last = a :: b :: c :: d :: rest → False)
    (hnil : last ≠ []) : last.length % 4 ≠ 0 := by
  match last, hfour, hnil with
  | [], _, hnil => exact absurd rfl hnil
  | [_], _, _ | [_, _], _, _ | [_, _, _], _, _ => simp
  | a :: b :: c :: d :: rest, hfour, _ => exact absurd rfl (hfour a b c d rest)

theorem bytes_append_group {vs ws : List Nat} (h : vs.length = 4) : bytes (vs ++ ws) = bytes vs ++ bytes ws := by
  match vs, h with
  | [x, y, z, w], _ => simp [bytes]

private theorem shape_of_strictChunks (s : Bytes) {gi : Nat} {out : Bytes} (hlen : s.length % 4 = 0)
    (h : strictChunks (gi * 4 + s.length) gi out (chunks4 s) = some d) :
    ∃ vs n, Shape s vs n ∧ d = out ++ bytes vs := by
  induction s using chunks4.induct generalizing gi out with
  | case1 a b c d rest ih =>
    rw [chunks4, strictChunks] at h
    obtain ⟨more, hchunk, h⟩ := Option.bind_eq_some_iff.1 h
    obtain ⟨vs, n, hshape, hlast, hgroup, hmore⟩ := shape_of_strictChunk hchunk rfl
    simp only [List.length_cons] at hlen h hlast
    have hrest : gi * 4 + (rest.length + 1 + 1 + 1 + 1) = (gi + 1) * 4 + rest.length := by omega
    rw [hrest] at h
    obtain ⟨ws, m, hws, hd⟩ := ih (by omega) h
    by_cases hr : rest = []
    · subst hr
      refine ⟨vs, n, hshape, ?_⟩
      rw [chunks4, strictChunks] at h
      rw [← Option.some.inj h, hmore]
    · have hpos : 0 < rest.length := List.length_pos_of_ne_nil hr
      have hn : n = 0 := hlast (by simp; omega)
      subst hn
      have hfour : vs.length = 4 := hgroup
      refine ⟨vs ++ ws, m, ⟨?_, ?_, hws.padding, ?_⟩, ?_⟩
      · have htext := hshape.text
        rw [List.replicate_zero, List.append_nil] at htext
        rw [List.map_append, ← htext, List.append_assoc, ← hws.text]
        rfl
      · intro v hv
        rcases List.mem_append.1 hv with hv | hv
        · exact hshape.lt v hv
        · exact hws.lt v hv
      · have := hws.groups
        rw [List.length_append]
        omega
      · rw [hd, hmore, bytes_append_group hfour, List.append_assoc]
  | case2 =>
    cases h
    exact ⟨[], 0, ⟨rfl, by simp, by decide, rfl⟩, by simp [bytes]⟩
  | case3 last hfour hnil => exact absurd hlen (length_last hfour hnil)

private theorem strictChunks_of_shape (s : Bytes) {vs : List Nat} {n gi : Nat} (h : Shape s vs n) (out : Bytes) :
    strictChunks (gi * 4 + s.length) gi out (chunks4 s) = some (out ++ bytes vs) := by
  induction s using chunks4.induct generalizing vs gi out with
  | case1 a b c d rest ih =>
    have hlen := congrArg List.length h.text
    have hgroups := h.groups
    have hpadding := h.padding
    simp only [List.length_cons, List.length_append, List.length_map, List.length_replicate] at hlen
    rw [chunks4, strictChunks]
    by_cases hr : rest = []
    · subst hr
      have hlast : ((gi + 1) * 4 == gi * 4 + [a, b, c, d].length) = true := by simp; omega
      rw [hlast, h.text, strictChunk_of_shape true h.lt (by simpa using hlen.symm) hpadding nofun]
      rfl
    · -- a chunk before the last one has no padding
      have hpos : 0 < rest.length := List.length_pos_of_ne_nil hr
      match vs, h, hlen, hgroups with
      | x :: y :: z :: w :: ws, h, hlen, hgroups =>
        have hlast : ((gi + 1) * 4 == gi * 4 + (a :: b :: c :: d :: rest).length) = false := by simp; omega
        have htext := h.text
        simp only [List.map_cons, List.cons_append, List.cons.injEq] at htext
        obtain ⟨ha, hb, hc, hd, htext⟩ := htext
        have hchunk : strictChunk false [a, b, c, d] = some (bytes [x, y, z, w]) := by
          have hlt : ∀ v ∈ [x, y, z, w], v < 64 := fun v hv => h.lt v (by simp at hv ⊢; tauto)
          have := strictChunk_of_shape false hlt rfl (Nat.zero_le 2) fun _ => rfl
          rw [ha, hb, hc, hd]
          exact this
        have hws : Shape rest ws n :=
          ⟨htext, fun v hv => h.lt v (by simp [hv]), hpadding, by simp only [List.length_cons] at hgroups; omega⟩
        have hrest : gi * 4 + (a :: b :: c :: d :: rest).length = (gi + 1) * 4 + rest.length := by
          simp only [List.length_cons]
          omega
        rw [hlast, hchunk, Option.bind_eq_bind, Option.bind_some, hrest, ih hws]
        rw [List.append_assoc]
        rfl
      | [], _, hlen, _ | [_], _, hlen, _ | [_, _], _, hlen, _ | [_, _, _], _, hlen, _ =>
        simp only [List.length_cons, List.length_nil] at hlen
        omega
  | case2 =>
    have hvs : vs = [] := by simpa using (List.append_eq_nil_iff.1 h.text.symm).1
    rw [hvs, bytes, List.append_nil]
    rfl
  | case3 last hfour hnil =>
    have hlast := length_last hfour hnil
    have hlen := congrArg List.length h.text
    have hgroups := h.groups
    simp only [List.length_append, List.length_map, List.length_replicate] at hlen
    omega

/-- What is read, and what is made of it. -/
theorem strictDecode64_eq_some_iff : strictDecode64 s = some d ↔ ∃ vs n, Shape s vs n ∧ d = bytes vs := by
  have hzero : s.length = 0 * 4 + s.length := by omega
  constructor
  · intro h
    unfold strictDecode64 at h
    obtain ⟨hlen, h⟩ := Option.ite_none_left_eq_some.1 h
    rw [hzero] at h
    exact shape_of_strictChunks s (not_not.1 hlen) h
  · rintro ⟨vs, n, hshape, rfl⟩
    have hlen : s.length % 4 = 0 := by
      have := hshape.groups
      rw [hshape.text]
      simpa using this
    unfold strictDecode64
    rw [if_neg (not_not_intro hlen), hzero]
    exact strictChunks_of_shape s hshape []

/-! ### Canonical texts -/

/-- The letter before the padding has a bit that goes to no byte: one of the last two before one character of padding,
one of the last four before two. -/
def Leftover (s : Bytes) : Prop :=
  s.length % 4 = 0 ∧ ∃ body x v n, s = body ++ x :: List.replicate n pad ∧ (n = 1 ∨ n = 2) ∧ (∀ b ∈ body, b ∈ B64) ∧
    value x = some v ∧ v % 4 ^ n ≠ 0

/-- The digits are those of the letters. -/
theorem Shape.filterMap_value {n : Nat} (h : Shape s vs n) : s.filterMap value = vs := by
  have hpads : (List.replicate n pad).filterMap value = [] := by
    rw [List.filterMap_eq_nil_iff]
    intro b hb
    rw [List.eq_of_mem_replicate hb, value_pad]
  have hletters : ∀ vs : List Nat, (∀ v ∈ vs, v < 64) → (vs.map letter).filterMap value = vs := by
    intro vs hlt
    induction vs with
    | nil => rfl
    | cons v vs ih =>
      rw [List.map_cons, List.filterMap_cons_some (value_letter v (hlt v (by simp))),
        ih fun w hw => hlt w (by simp [hw])]
  rw [h.text, List.filterMap_append, hpads, hletters vs h.lt, List.append_nil]

/-- Letters are the letters of digits. -/
theorem letters_of_mem {body : Bytes} (h : ∀ b ∈ body, b ∈ B64) :
    ∃ vs : List Nat, body = vs.map letter ∧ ∀ v ∈ vs, v < 64 := by
  induction body with
  | nil => exact ⟨[], rfl, by simp⟩
  | cons b body ih =>
    obtain ⟨v, hv⟩ := mem_B64_iff.1 (h b (by simp))
    obtain ⟨vs, rfl, hlt⟩ := ih fun b hb => h b (by simp [hb])
    refine ⟨v :: vs, by rw [List.map_cons, letter_of_value hv], fun w hw => ?_⟩
    rcases List.mem_cons.1 hw with rfl | hw
    · exact value_lt hv
    · exact hlt w hw

/-- Bits are left over where the last group has some to spare. -/
theorem leftover_iff : Leftover s ↔ ∃ vs n, Shape s vs n ∧ Spare vs := by
  constructor
  · rintro ⟨hlen, body, x, v, n, rfl, hn, hbody, hx, hv⟩
    obtain ⟨vs, rfl, hlt⟩ := letters_of_mem hbody
    have hgroups : (vs.length + 1 + n) % 4 = 0 := by
      simp only [List.length_append, List.length_map, List.length_cons, List.length_replicate] at hlen
      omega
    refine ⟨vs ++ [v], n, ⟨?_, ?_, by omega, by simpa using hgroups⟩, (Base64.spare_append_iff vs v).2 ?_⟩
    · rw [List.map_append, List.map_singleton, letter_of_value hx, List.append_assoc]
      rfl
    · intro w hw
      rcases List.mem_append.1 hw with hw | hw
      · exact hlt w hw
      · rw [List.mem_singleton.1 hw]
        exact value_lt hx
    · rcases hn with rfl | rfl
      · exact .inr ⟨by omega, hv⟩
      · exact .inl ⟨by omega, hv⟩
  · rintro ⟨vs, n, hshape, hspare⟩
    have hgroups := hshape.groups
    have hpadding := hshape.padding
    rcases List.eq_nil_or_concat vs with rfl | ⟨init, v, rfl⟩
    · exact absurd hspare id
    · rw [List.concat_eq_append] at *
      have hv : v < 64 := hshape.lt v (by simp)
      rw [Base64.spare_append_iff] at hspare
      simp only [List.length_append, List.length_singleton] at hgroups
      refine ⟨?_, init.map letter, letter v, v, n, ?_, by omega, ?_, value_letter v hv, ?_⟩
      · have hlen := congrArg List.length hshape.text
        simp only [List.length_append, List.length_map, List.length_singleton, List.length_replicate] at hlen
        rw [hlen, hgroups]
      · rw [hshape.text, List.map_append, List.append_assoc]
        rfl
      · intro b hb
        obtain ⟨w, hw, rfl⟩ := List.mem_map.1 hb
        exact mem_B64_iff.2 ⟨w, value_letter w (hshape.lt w (by simp [hw]))⟩
      · rcases hspare with ⟨hlen, hspare⟩ | ⟨hlen, hspare⟩
        · have hn : n = 2 := by omega
          subst hn
          exact hspare
        · have hn : n = 1 := by omega
          subst hn
          exact hspare

/-- The padding completes the digits of `n` bytes. -/
theorem digits_add_padLen (n : Nat) : ((4 * n + 2) / 3 + padLen n) % 4 = 0 := by
  unfold padLen
  have hmod : n % 3 = 0 ∨ n % 3 = 1 ∨ n % 3 = 2 := by omega
  rcases hmod with h | h | h <;> rw [h] <;> omega

/-- Only the padding of the bytes completes the digits. -/
theorem padLen_of_groups {k n : Nat} (h : (k + n) % 4 = 0) (hn : n ≤ 2) : padLen (k * 3 / 4) = n := by
  unfold padLen
  have hmod : n = 0 ∧ k * 3 / 4 % 3 = 0 ∨ n = 1 ∧ k * 3 / 4 % 3 = 2 ∨ n = 2 ∧ k * 3 / 4 % 3 = 1 := by omega
  rcases hmod with ⟨rfl, hk⟩ | ⟨rfl, hk⟩ | ⟨rfl, hk⟩ <;> rw [hk]

theorem shape_encode (d : Bytes) : Shape (strictEncode64 d) (sextets d) (padLen d.length) := by
  refine ⟨strictEncode64_eq d, fun v hv => Base64.sextet_lt hv, ?_, ?_⟩
  · unfold padLen
    omega
  · rw [Base64.length_sextets, digits_add_padLen]

/-- What is decoded is what is encoded, and nothing else is, exactly when no bit is left over. -/
theorem strict_decode_canonical_iff (s : Bytes) :
    (∀ d, strictDecode64 s = some d ↔ s = strictEncode64 d) ↔ ¬Leftover s := by
  rw [leftover_iff]
  constructor
  · rintro h ⟨vs, n, hshape, hspare⟩
    have hs := (h (bytes vs)).1 (strictDecode64_eq_some_iff.2 ⟨vs, n, hshape, rfl⟩)
    have hdigits : sextets (bytes vs) = vs := by
      have hencode := shape_encode (bytes vs)
      rw [← hs] at hencode
      rw [← hencode.filterMap_value, hshape.filterMap_value]
    have hlen : vs.length % 4 ≠ 1 := by
      have := hshape.groups
      have := hshape.padding
      omega
    exact (Base64.sextets_bytes_iff hshape.lt hlen).1 hdigits hspare
  · intro h d
    constructor
    · intro hd
      obtain ⟨vs, n, hshape, rfl⟩ := strictDecode64_eq_some_iff.1 hd
      have hgroups := hshape.groups
      have hpadding := hshape.padding
      have hdigits : sextets (bytes vs) = vs :=
        (Base64.sextets_bytes_iff hshape.lt (by omega)).2 fun hspare => h ⟨vs, n, hshape, hspare⟩
      have hn : padLen (bytes vs).length = n := by
        rw [Base64.length_bytes]
        exact padLen_of_groups hgroups hpadding
      rw [strictEncode64_eq, hdigits, hn]
      exact hshape.text
    · rintro rfl
      exact strictDecode64_eq_some_iff.2 ⟨sextets d, _, shape_encode d, (Base64.bytes_sextets d).symm⟩

/-- `YR==` is read like `YQ==`. -/
theorem strict_decode_not_canonical : ¬∀ s d, strictDecode64 s = some d ↔ s = strictEncode64 d := by
  intro h
  have heq := (h [89, 82, 61, 61] [97]).1 (by decide +kernel)
  exact absurd heq (by decide +kernel)

end Codec

end Calisto

import Calisto.Codec.Lenient
import Calisto.Codec.Strict

/-!
# Round trips of the codecs

What `encode64` and `urlsafe_encode64` give is read back by their decoders.
-/

namespace Calisto

namespace Codec

open Base64 (sextets bytes)

variable {s d raw : Bytes} {vs : List Nat}

/-! ### Lines -/

/-- Lines of 60 characters, each with a newline behind it. -/
def wrapped (raw : Bytes) : Bytes :=
  if raw = [] then [] else raw.take 60 ++ newline :: wrapped (raw.drop 60)
termination_by raw.length
decreasing_by
  have hpos := List.length_pos_of_ne_nil ‹¬raw = []›
  rw [List.length_drop]
  omega

/-- Between two multiples of 60 no newline is pushed. -/
theorem flatMap_wrapByte (i : Nat) (h : ∀ j < raw.length, (i + j) % 60 ≠ 0) :
    (raw.zipIdx i).flatMap wrapByte = raw := by
  induction raw generalizing i with
  | nil => rfl
  | cons b raw ih =>
    have hi : ¬(i > 0 ∧ i % 60 = 0) := fun hi => h 0 (Nat.succ_pos _) hi.2
    have hrest : ∀ j < raw.length, (i + 1 + j) % 60 ≠ 0 := fun j hj => by
      rw [Nat.add_right_comm i 1 j]
      exact h (j + 1) (Nat.succ_lt_succ hj)
    rw [List.zipIdx_cons, List.flatMap_cons, ih (i + 1) hrest]
    simp only [wrapByte, if_neg hi, List.singleton_append]

/-- The loop from a multiple of 60 on. -/
theorem flatMap_wrapByte_lines (k : Nat) (hne : raw ≠ []) :
    (raw.zipIdx (60 * k)).flatMap wrapByte ++ [newline] = (if k = 0 then [] else [newline]) ++ wrapped raw := by
  induction raw using wrapped.induct generalizing k with
  | case1 => exact absurd rfl hne
  | case2 raw _ ih =>
    obtain ⟨b, rest, rfl⟩ := List.exists_cons_of_ne_nil hne
    have hfirst : wrapByte (b, 60 * k) = (if k = 0 then [] else [newline]) ++ [b] := by
      by_cases hk : k = 0
      · simp [wrapByte, hk]
      · have hpos : 60 * k > 0 ∧ 60 * k % 60 = 0 := by omega
        simp [wrapByte, hk]
    have hline : ((rest.take 59).zipIdx (60 * k + 1)).flatMap wrapByte = rest.take 59 := by
      refine flatMap_wrapByte _ fun j hj => ?_
      rw [List.length_take] at hj
      omega
    rw [wrapped, if_neg hne, List.zipIdx_cons, List.flatMap_cons, hfirst]
    by_cases hend : rest.drop 59 = []
    · have htake : rest.take 59 = rest := by
        rw [List.drop_eq_nil_iff] at hend
        exact List.take_of_length_le hend
      rw [htake] at hline
      rw [hline, List.drop_succ_cons, List.take_succ_cons, htake, hend, wrapped, if_pos rfl]
      simp
    · have hlen : (rest.take 59).length = 59 := by
        rw [List.drop_eq_nil_iff] at hend
        rw [List.length_take]
        omega
      have hrest : rest.zipIdx (60 * k + 1) =
          (rest.take 59).zipIdx (60 * k + 1) ++ (rest.drop 59).zipIdx (60 * (k + 1)) := by
        conv_lhs => rw [← List.take_append_drop 59 rest, List.zipIdx_append, hlen]
        rfl
      have hnext := ih (k + 1) hend
      rw [if_neg (Nat.succ_ne_zero k), List.drop_succ_cons] at hnext
      rw [hrest, List.flatMap_append, hline, List.append_assoc, List.append_assoc, List.append_assoc, hnext]
      simp

private theorem encode64_eq (d : Bytes) : encode64 d = wrapped (strictEncode64 d) := by
  unfold encode64 strictEncode64
  by_cases hraw : encodeRaw d B64 = []
  · rw [hraw, wrapped, if_pos rfl]
    rfl
  · exact (if_neg hraw).trans (flatMap_wrapByte_lines 0 hraw)

/-- Without the newlines, the lines are the text. -/
theorem filter_wrapped (raw : Bytes) : (wrapped raw).filter (· ≠ newline) = raw.filter (· ≠ newline) := by
  induction raw using wrapped.induct with
  | case1 => rw [wrapped, if_pos rfl]
  | case2 raw hne ih =>
    rw [wrapped, if_neg hne, List.filter_append, List.filter_cons_of_neg (by simp), ih, ← List.filter_append,
      List.take_append_drop]

/-! ### Reading the lines -/

/-- Newlines are skipped. -/
theorem kept_filter (s : Bytes) : kept (s.filter (· ≠ newline)) = kept s := by
  induction s with
  | nil => rfl
  | cons b s ih =>
    by_cases hnl : b = newline
    · subst hnl
      rw [List.filter_cons_of_neg (by simp), ih, kept_junk value_newline (by decide)]
    · rw [List.filter_cons_of_pos (by simpa using hnl)]
      by_cases hpad : b = pad
      · rw [hpad, kept_pad, kept_pad]
      · cases hv : value b with
        | none => rw [kept_junk hv hpad, kept_junk hv hpad, ih]
        | some v => rw [kept_letter hv, kept_letter hv, ih]

theorem kept_letters (hlt : ∀ v ∈ vs, v < 64) (n : Nat) : kept (vs.map letter ++ List.replicate n pad) = vs := by
  induction vs with
  | nil =>
    cases n with
    | zero => rfl
    | succ n => exact kept_pad _
  | cons v vs ih =>
    have hv := value_letter v (hlt v (List.mem_cons_self ..))
    rw [List.map_cons, List.cons_append, kept_letter hv, ih fun w hw => hlt w (List.mem_cons_of_mem v hw)]

private theorem decode64_encode64 (d : Bytes) : decode64 (encode64 d) = d := by
  have hkept : kept (encode64 d) = sextets d := by
    rw [encode64_eq, ← kept_filter, filter_wrapped, kept_filter, strictEncode64_eq]
    exact kept_letters (fun v hv => Base64.sextet_lt hv) _
  rw [decode64_eq, hkept, Base64.bytes_sextets]

/-! ### The alphabet of URLs -/

private theorem fromUrl_letter : ∀ v < 64, fromUrl (B64URL.getD v 0) = letter v := by decide +kernel

private theorem urlLetter_ne_pad : ∀ v < 64, B64URL.getD v 0 ≠ pad := by decide +kernel

private theorem map_fromUrl (hlt : ∀ v ∈ vs, v < 64) : (vs.map (B64URL.getD · 0)).map fromUrl = vs.map letter := by
  rw [List.map_map]
  exact List.map_congr_left fun v hv => fromUrl_letter v (hlt v hv)

/-- The padding is dropped, and no letter with it. -/
theorem rdropWhile_pads {body : Bytes} (h : pad ∉ body) (n : Nat) :
    (body ++ List.replicate n pad).rdropWhile (· = pad) = body := by
  induction n with
  | zero =>
    rw [List.replicate_zero, List.append_nil, List.rdropWhile_eq_self_iff]
    intro hne hlast
    rw [decide_eq_true_eq] at hlast
    exact h (hlast ▸ List.getLast_mem hne)
  | succ n ih => rw [List.replicate_succ', ← List.append_assoc, List.rdropWhile_concat_pos _ _ _ (by simp), ih]

private theorem strictDecode64_strictEncode64 (d : Bytes) : strictDecode64 (strictEncode64 d) = some d :=
  strictDecode64_eq_some_iff.2 ⟨sextets d, _, shape_encode d, (Base64.bytes_sextets d).symm⟩

private theorem length_strictEncode64 (d : Bytes) : (strictEncode64 d).length % 4 = 0 := by
  rw [strictEncode64_eq, List.length_append, List.length_map, List.length_replicate]
  exact (shape_encode d).groups

private theorem urlsafeDecode64_urlsafeEncode64 (d : Bytes) (padding : Bool) :
    urlsafeDecode64 (urlsafeEncode64 d padding) = some d := by
  have hlt : ∀ v ∈ sextets d, v < 64 := fun v hv => Base64.sextet_lt hv
  cases padding with
  | true =>
    have hmap : (urlsafeEncode64 d true).map fromUrl = strictEncode64 d := by
      rw [strictEncode64_eq, ← map_fromUrl hlt]
      show (encodeRaw d B64URL).map fromUrl = _
      rw [encodeRaw_eq, List.map_append, List.map_replicate]
      rfl
    unfold urlsafeDecode64
    rw [hmap]
    dsimp only
    rw [if_neg fun h => h.2 (length_strictEncode64 d), strictDecode64_strictEncode64]
  | false =>
    have hbody : pad ∉ (sextets d).map (B64URL.getD · 0) := by
      intro h
      obtain ⟨v, hv, heq⟩ := List.mem_map.1 h
      exact urlLetter_ne_pad v (hlt v hv) heq
    have hmap : (urlsafeEncode64 d false).map fromUrl = (sextets d).map letter := by
      rw [← map_fromUrl hlt]
      show ((encodeRaw d B64URL).rdropWhile (· = pad)).map fromUrl = _
      rw [encodeRaw_eq, rdropWhile_pads hbody]
    have hlast : ((sextets d).map letter).getLast? ≠ some pad := by
      intro h
      obtain ⟨v, hv, heq⟩ := List.mem_map.1 (List.mem_of_getLast? h)
      exact letter_ne_pad v (hlt v hv) heq
    have hgroups := (shape_encode d).groups
    have hpadding := (shape_encode d).padding
    unfold urlsafeDecode64
    rw [hmap]
    dsimp only
    rw [← strictDecode64_strictEncode64 d, strictEncode64_eq]
    by_cases hlen : ((sextets d).map letter).length % 4 = 0
    · rw [if_neg fun h => h.2 hlen]
      rw [List.length_map] at hlen
      rw [show padLen d.length = 0 by omega, List.replicate_zero, List.append_nil]
    · rw [if_pos ⟨hlast, hlen⟩]
      rw [List.length_map] at *
      rw [show padLen d.length = 4 - (sextets d).length % 4 by omega]

/-- What is encoded in lines of 60 characters, or for a URL with or without padding, is decoded to what it was. -/
theorem codec_round_trip (d : Bytes) :
    (encode64 d = wrapped (strictEncode64 d) ∧ decode64 (encode64 d) = d) ∧
      ∀ padding, urlsafeDecode64 (urlsafeEncode64 d padding) = some d :=
  ⟨⟨encode64_eq d, decode64_encode64 d⟩, urlsafeDecode64_urlsafeEncode64 d⟩

end Codec

end Calisto

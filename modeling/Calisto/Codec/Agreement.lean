import Calisto.Bundle.NativeBits
import Calisto.Codec.Lenient
import Calisto.Codec.RoundTrip

/-!
# The decoders agree

There are five decoders of Base64: the strict, the lenient and the URL-safe one of the codec, the one of the protocol
and the one in the loader of a bundle.  They treat what is not Base64 in five ways, but what the strict one accepts they
all decode to the same bytes, and so does Ruby (`decoders_agree`); the one of the protocol then makes a string of them,
in which what is not UTF-8 is lost.  The URL-safe one accepts exactly the texts in which the two alphabets are mixed and
the padding is whole or left out (`urlsafe_accepts_iff`).
-/

namespace Calisto.Codec

open Base64 (bytes triple)

variable {s d : Bytes} {vs : List Nat} {n : Nat}

/-! ### The text of digits -/

/-- The text of letters and padding. -/
def textOf (vs : List Nat) (n : Nat) : Str := vs.map Base64.char ++ List.replicate n '='

private theorem utf8EncodeChar_char : ∀ v < 64, String.utf8EncodeChar (Base64.char v) = [letter v] := by
  unfold letter
  rw [B64_eq]
  decide +kernel

theorem utf8_textOf (h : ∀ v ∈ vs, v < 64) (n : Nat) : utf8 (textOf vs n) = vs.map letter ++ List.replicate n pad := by
  have hpads : utf8 (List.replicate n '=') = List.replicate n pad := by
    induction n with
    | zero => rfl
    | succ n ih =>
      rw [List.replicate_succ, utf8_cons, ih]
      rfl
  have hletters : utf8 (vs.map Base64.char) = vs.map letter := by
    induction vs with
    | nil => rfl
    | cons v vs ih =>
      rw [List.map_cons, utf8_cons, utf8EncodeChar_char v (h v (by simp)), ih fun w hw => h w (by simp [hw])]
      rfl
  rw [textOf, utf8_append, hletters, hpads]

/-- What the strict decoder accepts is ASCII. -/
theorem Shape.text_eq (h : Shape s vs n) : fromUtf8Lossy s = textOf vs n := by
  rw [h.text, ← utf8_textOf h.lt, fromUtf8Lossy_utf8]

/-! ### The decoders of the codec -/

private theorem decode64_of_shape (h : Shape s vs n) : decode64 s = bytes vs := by
  rw [decode64_eq, h.text, kept_letters h.lt]

private theorem seen_pads (q n : Nat) : seen q (List.replicate n pad) = [] := by
  induction n with
  | zero => rfl
  | succ n ih =>
    rw [List.replicate_succ, seen, value_pad]
    dsimp only
    split
    · rfl
    · exact ih

private theorem unpackM_of_shape (h : Shape s vs n) : unpackM s = bytes vs := by
  have hpad : pad ∉ vs.map letter := by
    intro hmem
    obtain ⟨v, hv, heq⟩ := List.mem_map.1 hmem
    exact letter_ne_pad v (h.lt v hv) heq
  have hvalues : (vs.map letter).filterMap value = vs := by
    have hall := h.filterMap_value
    have hpads : (List.replicate n pad).filterMap value = [] :=
      List.filterMap_eq_nil_iff.2 fun b hb => by rw [List.eq_of_mem_replicate hb, value_pad]
    rwa [h.text, List.filterMap_append, hpads, List.append_nil] at hall
  rw [unpackM_eq, h.text, seen_append hpad (by decide), seen_pads, hvalues, List.append_nil]

/-! ### The decoder of the protocol -/

private theorem table_letter {v : Nat} (h : v < 64) : table (letter v) = Int16.ofNat v := by
  have hvalue : B64.idxOf? (letter v) = some v := value_letter v h
  rw [table, hvalue]

/-- The bytes of four digits, as the decoder of the protocol makes them. -/
theorem asU8_triple {x y z w : Nat} (hx : x < 64) (hy : y < 64) (hz : z < 64) (hw : w < 64) :
    [asU8 (firstByte (.ofNat x) (.ofNat y)), asU8 (secondByte (.ofNat y) (.ofNat z)),
      asU8 (thirdByte (.ofNat z) (.ofNat w))] = triple x y z w := by
  have hbyte : ∀ {a : Int16} {k : Nat}, a.toInt = (k : Int) → k < 256 → asU8 a = UInt8.ofNat k := by
    intro a k ha hk
    refine UInt8.toNat_inj.1 ?_
    rw [toNat_asU8 ha hk, UInt8.toNat_ofNat_of_lt' hk]
  rw [hbyte (firstByte_ofNat x hx y hy) (by omega), hbyte (secondByte_ofNat y hy z hz) (by omega),
    hbyte (thirdByte_ofNat z hz w hw) (by omega)]
  rfl

/-- The loop of the protocol's decoder gives the bytes of the digits from `i` on. -/
theorem decodeLoop_digits (vs : List Nat) {n : Nat} (hlt : ∀ v ∈ vs, v < 64) (hn : n ≤ 2)
    (hgroups : (vs.length + n) % 4 = 0) {text : Bytes} {i : Nat} (out : Bytes)
    (h : text.drop i = vs.map letter ++ List.replicate n pad) : decodeLoop text i out = some (out ++ bytes vs) := by
  have hmem : ∀ v, v < 64 → letter v ∈ B64 := fun v hv => letter_mem hv
  have hlast : ∀ {i : Nat} (out : Bytes), text.drop i = [] → decodeLoop text i out = some out := by
    intro i out hdrop
    have hlen : text.length ≤ i := List.drop_eq_nil_iff.1 hdrop
    rw [decodeLoop, if_neg (by omega)]
  induction vs using Base64.bytes.induct generalizing i out with
  | case1 =>
    obtain rfl : n = 0 := by
      rw [List.length_nil] at hgroups
      omega
    rw [hlast out h, bytes, List.append_nil]
  | case2 v =>
    rw [List.length_singleton] at hgroups
    omega
  | case3 x y =>
    obtain rfl : n = 2 := by
      simp only [List.length_cons, List.length_nil] at hgroups
      omega
    have hx := hlt x (by simp)
    have hy := hlt y (by simp)
    have hdrop : text.drop i = letter x :: letter y :: pad :: pad :: [] := h
    have hg := decodeGroup_of_drop hdrop (hmem x hx) (hmem y hy)
    have htriple := asU8_triple hx hy (z := 0) (w := 0) (by decide) (by decide)
    rw [if_neg pad_not_mem, table_letter hx, table_letter hy] at hg
    obtain ⟨hloop, hend⟩ := decodeLoop_group hdrop hg out
    rw [hloop, hlast _ hend, bytes, ← htriple]
    rfl
  | case4 x y z =>
    obtain rfl : n = 1 := by
      simp only [List.length_cons, List.length_nil] at hgroups
      omega
    have hx := hlt x (by simp)
    have hy := hlt y (by simp)
    have hz := hlt z (by simp)
    have hdrop : text.drop i = letter x :: letter y :: letter z :: pad :: [] := h
    have hg := decodeGroup_of_drop hdrop (hmem x hx) (hmem y hy)
    have htriple := asU8_triple hx hy hz (w := 0) (by decide)
    rw [if_pos (hmem z hz), if_neg pad_not_mem, table_letter hx, table_letter hy, table_letter hz] at hg
    obtain ⟨hloop, hend⟩ := decodeLoop_group hdrop hg out
    rw [hloop, hlast _ hend, bytes, ← htriple]
    rfl
  | case5 x y z w rest ih =>
    have hx := hlt x (by simp)
    have hy := hlt y (by simp)
    have hz := hlt z (by simp)
    have hw := hlt w (by simp)
    have hdrop : text.drop i = letter x :: letter y :: letter z :: letter w ::
        (rest.map letter ++ List.replicate n pad) := h
    have hg := decodeGroup_of_drop hdrop (hmem x hx) (hmem y hy)
    have htriple := asU8_triple hx hy hz hw
    rw [if_pos (hmem z hz), if_pos (hmem w hw), table_letter hx, table_letter hy, table_letter hz,
      table_letter hw, htriple] at hg
    obtain ⟨hloop, hrest⟩ := decodeLoop_group hdrop hg out
    simp only [List.length_cons] at hgroups
    rw [hloop, ih (fun v hv => hlt v (by simp [hv])) (by omega) _ hrest, List.append_assoc]
    rfl

private theorem decodedBytes_of_shape (h : Shape s vs n) : decodedBytes s = some (bytes vs) := by
  have hutf8 : utf8 (fromUtf8Lossy s) = vs.map letter ++ List.replicate n pad := by rw [h.text_eq, utf8_textOf h.lt]
  rw [decodedBytes, hutf8]
  exact decodeLoop_digits vs h.lt h.padding h.groups [] (List.drop_zero)

/-! ### The decoder of the loader -/

open Native in
private theorem b64decodeFrom_pads (n : Nat) (out : Bytes) (buf bits : Nat) :
    b64decodeFrom (List.replicate n '=') out buf bits = some out := by
  induction n with
  | zero => rfl
  | succ n ih => rw [List.replicate_succ, b64decodeFrom_pad (.inl rfl), ih]

open Native in
/-- The loader's decoder gives the bytes of the digits. -/
theorem b64decodeFrom_digits (vs : List Nat) (n : Nat) (hlt : ∀ v ∈ vs, v < 64) (out : Bytes) (buf : Nat) :
    b64decodeFrom (textOf vs n) out buf 0 = some (out ++ bytes vs) := by
  have hbyte : ∀ {a b : Nat}, a % 256 = b % 256 → UInt8.ofNat a = UInt8.ofNat b := by
    intro a b h
    refine UInt8.toNat_inj.1 ?_
    rwa [UInt8.toNat_ofNat', UInt8.toNat_ofNat']
  induction vs using Base64.bytes.induct generalizing out buf with
  | case1 =>
    rw [bytes, List.append_nil]
    exact b64decodeFrom_pads n out buf 0
  | case2 v =>
    change b64decodeFrom (Base64.char v :: List.replicate n '=') out buf 0 = _
    rw [b64decodeFrom_first (hlt v (by simp)), b64decodeFrom_pads, bytes, List.append_nil]
  | case3 x y =>
    have hx := hlt x (by simp)
    have hy := hlt y (by simp)
    change b64decodeFrom (Base64.char x :: Base64.char y :: List.replicate n '=') out buf 0 = _
    rw [b64decodeFrom_first hx, b64decodeFrom_next hy (by decide), b64decodeFrom_pads, bytes]
    refine congrArg (fun b => some (out ++ [b])) (hbyte ?_)
    simp only [shiftIn]
    omega
  | case4 x y z =>
    have hx := hlt x (by simp)
    have hy := hlt y (by simp)
    have hz := hlt z (by simp)
    change b64decodeFrom (Base64.char x :: Base64.char y :: Base64.char z :: List.replicate n '=') out buf 0 = _
    rw [b64decodeFrom_first hx, b64decodeFrom_next hy (by decide), b64decodeFrom_next hz (by decide),
      b64decodeFrom_pads, bytes, List.append_assoc]
    refine congrArg₂ (fun b c => some (out ++ ([b] ++ [c]))) (hbyte ?_) (hbyte ?_)
    · simp only [shiftIn]
      omega
    · simp only [shiftIn]
      omega
  | case5 x y z w rest ih =>
    have hx := hlt x (by simp)
    have hy := hlt y (by simp)
    have hz := hlt z (by simp)
    have hw := hlt w (by simp)
    change b64decodeFrom
      (Base64.char x :: Base64.char y :: Base64.char z :: Base64.char w :: textOf rest n) out buf 0 = _
    rw [b64decodeFrom_first hx, b64decodeFrom_next hy (by decide), b64decodeFrom_next hz (by decide),
      b64decodeFrom_next hw (by decide), ih fun v hv => hlt v (by simp [hv])]
    simp only [bytes, triple, List.append_assoc]
    refine congrArg (fun t => some (out ++ t)) ?_
    refine congrArg₂ List.cons (hbyte ?_) (congrArg₂ List.cons (hbyte ?_) (congrArg₂ List.cons (hbyte ?_) rfl))
    all_goals
      simp only [shiftIn]
      omega

/-! ### What the decoders make of a text -/

private theorem fromUrl_letter_self : ∀ v < 64, fromUrl (letter v) = letter v := by
  unfold letter
  rw [B64_eq]
  decide +kernel

private theorem map_fromUrl_shape (h : Shape s vs n) : s.map fromUrl = s := by
  have hletters : (vs.map letter).map fromUrl = vs.map letter := by
    rw [List.map_map]
    exact List.map_congr_left fun v hv => fromUrl_letter_self v (h.lt v hv)
  have hpad : fromUrl pad = pad := by decide
  rw [h.text, List.map_append, List.map_replicate, hletters, hpad]

/-- What the strict decoder accepts each of the others decodes to the same bytes, of which the protocol's decoder gives
the text. -/
theorem decoders_agree (h : strictDecode64 s = some d) :
    urlsafeDecode64 s = some d ∧ decode64 s = d ∧ unpackM s = d ∧ b64Decode s = some (fromUtf8Lossy d) ∧
      Native.b64decode (fromUtf8Lossy s) = some d := by
  obtain ⟨vs, n, hshape, rfl⟩ := strictDecode64_eq_some_iff.1 h
  have hlen : s.length % 4 = 0 := by
    rw [hshape.text, List.length_append, List.length_map, List.length_replicate]
    exact hshape.groups
  refine ⟨?_, decode64_of_shape hshape, unpackM_of_shape hshape, ?_, ?_⟩
  · unfold urlsafeDecode64
    rw [map_fromUrl_shape hshape]
    dsimp only
    rw [if_neg fun hnot => hnot.2 hlen, h]
  · rw [b64Decode, decodedBytes_of_shape hshape, Option.map_some]
  · rw [Native.b64decode, hshape.text_eq]
    exact b64decodeFrom_digits vs n hshape.lt [] 0

private theorem getLast?_letters (h : ∀ v ∈ vs, v < 64) : (vs.map letter).getLast? ≠ some pad := by
  intro hlast
  obtain ⟨v, hv, heq⟩ := List.mem_map.1 (List.mem_of_getLast? hlast)
  exact letter_ne_pad v (h v hv) heq

/-- The text before the padding. -/
theorem rdropWhile_padded {t : Bytes} (h : t.getLast? ≠ some pad) (n : Nat) :
    (t ++ List.replicate n pad).rdropWhile (· = pad) = t := by
  induction n with
  | zero =>
    rw [List.replicate_zero, List.append_nil, List.rdropWhile_eq_self_iff]
    intro hne hlast
    rw [decide_eq_true_eq] at hlast
    exact h (hlast ▸ List.getLast?_eq_some_getLast hne)
  | succ n ih => rw [List.replicate_succ', ← List.append_assoc, List.rdropWhile_concat_pos _ _ _ (by simp), ih]

/-- The URL-safe decoder accepts the digits in letters of either alphabet, whole groups of them with their padding, or
any number but one more than whole groups without. -/
theorem urlsafe_accepts_iff : urlsafeDecode64 s = some d ↔
    ∃ vs n, s.map fromUrl = vs.map letter ++ List.replicate n pad ∧ (∀ v ∈ vs, v < 64) ∧ n ≤ 2 ∧
      ((vs.length + n) % 4 = 0 ∨ n = 0 ∧ vs.length % 4 ≠ 1) ∧ d = bytes vs := by
  unfold urlsafeDecode64
  dsimp only
  generalize s.map fromUrl = t
  split
  · rename_i hshort
    obtain ⟨hlast, hlen⟩ := hshort
    rw [strictDecode64_eq_some_iff]
    constructor
    · rintro ⟨vs, n, hshape, rfl⟩
      have htext := congrArg (List.rdropWhile (· = pad)) hshape.text
      rw [rdropWhile_padded hlast, rdropWhile_padded (getLast?_letters hshape.lt)] at htext
      have hpads := congrArg List.length hshape.text
      have hcount := congrArg List.length htext
      simp only [List.length_append, List.length_map, List.length_replicate] at hpads hcount
      have hn := hshape.padding
      exact ⟨vs, 0, by rw [htext, List.replicate_zero, List.append_nil], hshape.lt, Nat.zero_le _,
        .inr ⟨rfl, by omega⟩, rfl⟩
    · rintro ⟨vs, n, rfl, hlt, hn, hgroups, rfl⟩
      have hzero : n = 0 := by
        by_contra hne
        obtain ⟨m, rfl⟩ := Nat.exists_eq_succ_of_ne_zero hne
        rw [List.replicate_succ', ← List.append_assoc, List.getLast?_concat] at hlast
        exact hlast rfl
      subst hzero
      simp only [List.replicate_zero, List.append_nil, List.length_map] at hlen ⊢
      exact ⟨vs, 4 - vs.length % 4, ⟨rfl, hlt, by omega, by omega⟩, rfl⟩
  · rename_i hwhole
    rw [strictDecode64_eq_some_iff]
    constructor
    · rintro ⟨vs, n, hshape, rfl⟩
      exact ⟨vs, n, hshape.text, hshape.lt, hshape.padding, .inl hshape.groups, rfl⟩
    · rintro ⟨vs, n, rfl, hlt, hn, hgroups | ⟨rfl, hone⟩, rfl⟩
      · exact ⟨vs, n, ⟨rfl, hlt, hn, hgroups⟩, rfl⟩
      · rw [List.replicate_zero, List.append_nil] at hwhole
        have hlen : (vs.map letter).length % 4 = 0 := by
          by_contra hne
          exact hwhole ⟨getLast?_letters hlt, hne⟩
        rw [List.length_map] at hlen
        exact ⟨vs, 0, ⟨rfl, hlt, Nat.zero_le _, hlen⟩, rfl⟩

/-- Bits that go to no byte, which none of them minds, and a byte that is no text. -/
theorem decoders_agree_spare : (strictDecode64 (utf8 "QR==".toList) = some [65] ∧
      decode64 (utf8 "QR==".toList) = [65] ∧ b64Decode (utf8 "QR==".toList) = some ['A']) ∧
    strictDecode64 (utf8 "/w==".toList) = some [255] ∧ b64Decode (utf8 "/w==".toList) = some ['\uFFFD'] := by
  have h : strictDecode64 (utf8 "QR==".toList) = some [65] := by decide +kernel
  have h' : strictDecode64 (utf8 "/w==".toList) = some [255] := by decide +kernel
  obtain ⟨-, hlenient, -, hprotocol, -⟩ := decoders_agree h
  obtain ⟨-, -, -, hprotocol', -⟩ := decoders_agree h'
  have htext : fromUtf8Lossy [65] = ['A'] := by decide +kernel
  have htext' : fromUtf8Lossy [255] = ['\uFFFD'] := by decide +kernel
  exact ⟨⟨h, hlenient, htext ▸ hprotocol⟩, h', htext' ▸ hprotocol'⟩

end Calisto.Codec

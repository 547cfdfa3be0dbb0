import Calisto.Wire.Command
import Mathlib.Tactic.Common

/-!
# What a scan has read

`Parsed d r`: the bytes `d`, read from the start of a command, are exactly what the locals `r` hold, that is a head
line and the fields read so far with their length lines.  A scan that ends a command does the same whatever follows
(`scan_append`), it may be started again from locals that hold what was drained (`Parsed.resume`), and it comes to
the three calls of `client_fill` with locals that hold all that is drained, except for the one in the data of a
field, where the length line is drained and held nowhere (`scan_fill`).
-/

namespace Calisto

variable {alloc : Nat → Bool}

/-! ### Lines -/

/-- `line` has no CRLF, nor does its end make one with the CRLF that follows it. -/
def IsLine (line : Bytes) : Prop := ∀ rest, findCrlf (line ++ crlf ++ rest) = some line.length

theorem findCrlf_split {buf : Bytes} {pos : Nat} (h : findCrlf buf = some pos) :
    ∃ line rest, buf = line ++ crlf ++ rest ∧ line.length = pos ∧ IsLine line := by
  induction buf using findCrlf.induct generalizing pos with
  | case1 a b rest hab =>
    simp only [findCrlf, hab, and_self, ↓reduceIte, Option.some.injEq] at h
    refine ⟨[], rest, by simp [crlf, hab], h, fun x => by simp [findCrlf, crlf]⟩
  | case2 a b rest hab ih =>
    simp only [findCrlf, hab, ↓reduceIte, Option.map_eq_some_iff] at h
    obtain ⟨p, hp, rfl⟩ := h
    obtain ⟨line, tail, heq, hlen, hline⟩ := ih hp
    refine ⟨a :: line, tail, by simp [heq], by simp [hlen], fun x => ?_⟩
    -- the second byte is `b` in both buffers, so the CRLF does not begin at `a`
    obtain ⟨t, ht⟩ : ∃ t, line ++ crlf ++ x = b :: t := by
      cases line with
      | nil =>
        simp only [crlf, List.nil_append, List.cons_append, List.cons.injEq] at heq
        exact ⟨10 :: x, by simp [crlf, heq.1]⟩
      | cons c line =>
        simp only [List.cons_append, List.cons.injEq] at heq
        exact ⟨line ++ crlf ++ x, by simp [heq.1]⟩
    have hx := hline x
    simp only [List.cons_append, ht] at hx ⊢
    simp [findCrlf, hab, hx]
  | case3 buf hbuf =>
    unfold findCrlf at h
    split at h
    · exact absurd rfl (hbuf _ _ _)
    · simp at h

private theorem take_line (line rest : Bytes) : (line ++ crlf ++ rest).take line.length = line := by
  simp [List.append_assoc]

private theorem drop_line (line rest : Bytes) : (line ++ crlf ++ rest).drop (line.length + 2) = rest := by
  have : line.length + 2 = (line ++ crlf).length := by simp [crlf]
  rw [this, List.drop_left]

/-! ### The scan of the fields -/

theorem scanFields_line {line : Bytes} (h : IsLine line) (head op : Str) (todo : Nat) (got : List Bytes)
    (rest : Bytes) :
    scanFields head op (todo + 1) got (line ++ crlf ++ rest) =
      match parseLen line with
      | none => .bad head rest
      | some len =>
        if rest.length < len then .fill .data (.fields head op (todo + 1) got) rest
        else scanFields head op todo (got ++ [rest.take len]) (rest.drop len) := by
  rw [scanFields, h rest]
  cases hp : parseLen line <;> simp only [take_line, drop_line, hp]

theorem scan_line {line : Bytes} (h : IsLine line) (rest : Bytes) :
    scan alloc .head (line ++ crlf ++ rest) =
      match parseHead line with
      | .error head => .bad head rest
      | .ok (op, count) => match withCapacity alloc count with
        | some c => .crash c
        | none => scanFields (fromUtf8Lossy line) op count [] rest := by
  rw [scan, h rest]
  cases hp : parseHead line with
  | error head => simp only [take_line, drop_line, hp]
  | ok x => cases hw : withCapacity alloc x.2 <;> simp only [take_line, drop_line, hp, hw]

theorem scanFields_field {line : Bytes} (h : IsLine line) {data : Bytes} (hlen : parseLen line = some data.length)
    (head op : Str) (todo : Nat) (got : List Bytes) (rest : Bytes) :
    scanFields head op (todo + 1) got (line ++ crlf ++ data ++ rest) =
      scanFields head op todo (got ++ [data]) rest := by
  have hlong : ¬(data ++ rest).length < data.length := by simp
  rw [List.append_assoc _ data, scanFields_line h, hlen]
  simp only [hlong, ↓reduceIte, List.take_left, List.drop_left]

def Scan.append : Scan → Bytes → Scan
  | .done op fields buf, x => .done op fields (buf ++ x)
  | .bad head buf, x => .bad head (buf ++ x)
  | .crash c, _ => .crash c
  | .fill site r buf, x => .fill site r (buf ++ x)

def Scan.IsFill : Scan → Prop
  | .fill _ _ _ => True
  | _ => False

private theorem scanFields_append (head op : Str) (todo : Nat) (got : List Bytes) (buf x : Bytes)
    (h : ¬(scanFields head op todo got buf).IsFill) :
    scanFields head op todo got (buf ++ x) = (scanFields head op todo got buf).append x := by
  induction todo generalizing got buf with
  | zero => rfl
  | succ todo ih =>
    cases hpos : findCrlf buf with
    | none => simp [scanFields, hpos, Scan.IsFill] at h
    | some pos =>
      obtain ⟨line, rest, rfl, -, hline⟩ := findCrlf_split hpos
      rw [List.append_assoc _ rest x, scanFields_line hline, scanFields_line hline]
      rw [scanFields_line hline] at h
      cases hlen : parseLen line with
      | none => rfl
      | some len =>
        simp only [hlen] at h ⊢
        by_cases hshort : rest.length < len
        · simp [hshort, Scan.IsFill] at h
        · have hshort' : ¬(rest ++ x).length < len := by simp; omega
          have hle : len ≤ rest.length := by omega
          rw [if_neg hshort] at h ⊢
          rw [if_neg hshort', List.take_append_of_le_length hle, List.drop_append_of_le_length hle]
          exact ih _ _ h

/-- A scan that does not come to a receive is the same when more bytes follow. -/
theorem scan_append (r : Reader) (buf x : Bytes) (h : ¬(scan alloc r buf).IsFill) :
    scan alloc r (buf ++ x) = (scan alloc r buf).append x := by
  cases r with
  | fields head op todo got => exact scanFields_append head op todo got buf x h
  | head =>
    cases hpos : findCrlf buf with
    | none => simp [scan, hpos, Scan.IsFill] at h
    | some pos =>
      obtain ⟨line, rest, rfl, rfl, hline⟩ := findCrlf_split hpos
      rw [List.append_assoc _ rest x, scan_line hline, scan_line hline]
      rw [scan_line hline] at h
      cases hhead : parseHead line with
      | error e => rfl
      | ok p =>
        obtain ⟨op, count⟩ := p
        cases hcap : withCapacity alloc count with
        | some c => simp [hcap, Scan.append]
        | none =>
          simp only [hhead, hcap] at h ⊢
          exact scanFields_append _ _ _ _ _ _ h

/-! ### Locals that hold what was read -/

/-- The bytes `d`, read from the start of a command, are what the locals `r` hold. -/
inductive Parsed (alloc : Nat → Bool) : Bytes → Reader → Prop
  | start : Parsed alloc [] .head
  | head {line : Bytes} {op : Str} {count : Nat} : IsLine line → parseHead line = .ok (op, count) →
      withCapacity alloc count = none →
      Parsed alloc (line ++ crlf) (.fields (fromUtf8Lossy line) op count [])
  | field {d line data : Bytes} {head op : Str} {todo : Nat} {got : List Bytes} :
      Parsed alloc d (.fields head op (todo + 1) got) → IsLine line → parseLen line = some data.length →
      Parsed alloc (d ++ line ++ crlf ++ data) (.fields head op todo (got ++ [data]))

theorem Parsed.ne_nil {d : Bytes} {head op : Str} {todo : Nat} {got : List Bytes}
    (h : Parsed alloc d (.fields head op todo got)) : d ≠ [] := by
  cases h <;> simp [crlf]

theorem Parsed.of_head {d : Bytes} (h : Parsed alloc d .head) : d = [] := by
  cases h; rfl

/-- Scanning a command from its start goes on, after the bytes `d`, as a scan from the locals that hold them. -/
theorem Parsed.resume {d : Bytes} {r : Reader} (h : Parsed alloc d r) (rest : Bytes) :
    scan alloc .head (d ++ rest) = scan alloc r rest := by
  induction h generalizing rest with
  | start => rfl
  | head hline hhead hcap =>
    rw [scan_line hline, hhead]
    simp only [hcap, scan]
  | @field d line data head op todo got _ hline hlen ih =>
    have hsplit : d ++ line ++ crlf ++ data ++ rest = d ++ (line ++ crlf ++ data ++ rest) := by simp
    rw [hsplit, ih]
    exact scanFields_field hline hlen head op todo got rest

/-- The locals at a receive hold what was drained before it; at a receive for the data of a field the drained
length line is what they do not hold. -/
structure FillAt (alloc : Nat → Bool) (d : Bytes) (site : Site) (r : Reader) (buf whole : Bytes) : Prop where
  held : site ≠ .data → whole = d ++ buf ∧ Parsed alloc d r
  dropped : site = .data → ∃ line len, IsLine line ∧ parseLen line = some len ∧ buf.length < len ∧
    whole = d ++ line ++ crlf ++ buf ∧ Parsed alloc d r ∧ r ≠ .head
  head : site = .head ↔ r = .head

private theorem scanFields_fill {head op : Str} {todo : Nat} {got : List Bytes} {d y : Bytes} {site : Site} {r : Reader}
    {buf : Bytes} (hd : Parsed alloc d (.fields head op todo got))
    (h : scanFields head op todo got y = .fill site r buf) :
    ∃ d', FillAt alloc d' site r buf (d ++ y) := by
  induction todo generalizing got d y with
  | zero => cases h
  | succ todo ih =>
    cases hpos : findCrlf y with
    | none =>
      simp only [scanFields, hpos, Scan.fill.injEq] at h
      obtain ⟨rfl, rfl, rfl⟩ := h
      exact ⟨d, ⟨fun _ => ⟨rfl, hd⟩, nofun, by simp⟩⟩
    | some pos =>
      obtain ⟨line, rest, rfl, -, hline⟩ := findCrlf_split hpos
      rw [scanFields_line hline] at h
      cases hlen : parseLen line with
      | none => simp [hlen] at h
      | some len =>
        simp only [hlen] at h
        by_cases hshort : rest.length < len
        · simp only [hshort, ↓reduceIte, Scan.fill.injEq] at h
          obtain ⟨rfl, rfl, rfl⟩ := h
          exact ⟨d, ⟨nofun, fun _ => ⟨line, len, hline, hlen, hshort, by simp, hd, nofun⟩, by simp⟩⟩
        · rw [if_neg hshort] at h
          have hle : len ≤ rest.length := by omega
          have hdata : parseLen line = some (rest.take len).length := by
            rw [hlen, List.length_take, Nat.min_eq_left hle]
          obtain ⟨d', hd'⟩ := ih (hd.field hline hdata) h
          refine ⟨d', ?_⟩
          have hsplit : d ++ (line ++ crlf ++ rest) =
              d ++ line ++ crlf ++ rest.take len ++ rest.drop len := by simp
          rw [hsplit]
          exact hd'

/-- What a scan has drained when it comes to a receive. -/
theorem scan_fill {d y : Bytes} {r r' : Reader} {site : Site} {buf : Bytes} (hd : Parsed alloc d r)
    (h : scan alloc r y = .fill site r' buf) : ∃ d', FillAt alloc d' site r' buf (d ++ y) := by
  cases r with
  | fields head op todo got => exact scanFields_fill hd h
  | head =>
    rw [hd.of_head, List.nil_append]
    cases hpos : findCrlf y with
    | none =>
      simp only [scan, hpos, Scan.fill.injEq] at h
      obtain ⟨rfl, rfl, rfl⟩ := h
      exact ⟨[], ⟨fun _ => ⟨rfl, .start⟩, nofun, by simp⟩⟩
    | some pos =>
      obtain ⟨line, rest, rfl, rfl, hline⟩ := findCrlf_split hpos
      rw [scan_line hline] at h
      cases hhead : parseHead line with
      | error e => simp [hhead] at h
      | ok p =>
        obtain ⟨op, count⟩ := p
        cases hcap : withCapacity alloc count with
        | some c => simp [hhead, hcap] at h
        | none =>
          simp only [hhead, hcap] at h
          exact scanFields_fill (Parsed.head hline hhead hcap) h

/-- Locals do not hold a length line that was drained for a field whose data is not all there. -/
theorem not_parsed_dropped {d line : Bytes} {r : Reader} {len : Nat} (hd : Parsed alloc d r) (hr : r ≠ .head)
    (hline : IsLine line) (hlen : parseLen line = some len) (hpos : 0 < len) :
    ¬Parsed alloc (d ++ line ++ crlf) r := by
  intro h
  -- both ways of holding the bytes would have to go on alike when nothing follows
  have h1 := h.resume []
  have h2 := hd.resume (line ++ crlf)
  rw [List.append_nil] at h1
  rw [← List.append_assoc, h1] at h2
  cases r with
  | head => exact hr rfl
  | fields head op todo got =>
    cases todo with
    | zero => simp [scan, scanFields, crlf] at h2
    | succ todo =>
      have h3 := scanFields_line hline head op todo got []
      rw [List.append_nil, hlen] at h3
      simp only [scan] at h2
      rw [h3] at h2
      simp [scanFields, findCrlf, hpos] at h2

end Calisto

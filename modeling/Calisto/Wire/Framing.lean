import Calisto.Wire.Scan

/-!
# Built commands are read back

A command built by `build_cmd` is read back whole from the front of the buffer, whatever bytes its fields and the
rest of the buffer hold (`scan_buildCmd`): the search for CRLF only ever looks at a line, since the data of a field
is taken by its length.
-/

namespace Calisto

variable {alloc : Nat → Bool}

/-- A command that the wire format can carry: `op` has no space and no CRLF, the lengths are those of Rust strings
and the reader gets the memory for its vector of fields. -/
structure Framed (alloc : Nat → Bool) (op : Str) (fields : List Bytes) : Prop where
  noSpace : ' ' ∉ op
  noCrlf : findCrlf (utf8 op) = none
  fits : withCapacity alloc fields.length = none
  lens : ∀ f ∈ fields, f.length < usizeSize

theorem utf8EncodeChar_ascii {c : Char} (h : c.toNat ≤ 127) :
    String.utf8EncodeChar c = [UInt8.ofNat c.toNat] := by
  have h' : c.val.toNat ≤ 127 := h
  simp only [String.utf8EncodeChar, h', ↓reduceIte]
  rfl

/-- The bytes of other characters are none of ASCII. -/
theorem utf8EncodeChar_high {c : Char} (h : 127 < c.toNat) : ∀ b ∈ String.utf8EncodeChar c, 127 < b.toNat := by
  have h' : ¬c.val.toNat ≤ 127 := Nat.not_le.2 h
  unfold String.utf8EncodeChar
  simp only [h', ↓reduceIte]
  split
  · simp
    omega
  · split
    · simp
      omega
    · simp
      omega

/-- An ASCII byte of a text is one of its characters. -/
theorem mem_of_mem_utf8 {s : Str} {b : UInt8} (h : b ∈ utf8 s) (hb : b.toNat ≤ 127) : Char.ofNat b.toNat ∈ s := by
  obtain ⟨c, hc, hbytes⟩ := List.mem_flatMap.1 h
  by_cases hascii : c.toNat ≤ 127
  · rw [utf8EncodeChar_ascii hascii, List.mem_singleton] at hbytes
    have hval : b.toNat = c.toNat := by
      rw [hbytes, UInt8.toNat_ofNat']
      omega
    rwa [hval, Char.ofNat_toNat]
  · have := utf8EncodeChar_high (by omega) b hbytes
    omega

/-- The digits of a number have no byte in common with a CRLF. -/
theorem findCrlf_decimal (n : Nat) : ∀ b ∈ utf8 (decimal n), b ≠ 13 ∧ b ≠ 10 := by
  intro b hb
  obtain ⟨c, hc, hb⟩ := List.mem_flatMap.1 hb
  have hd := isDigit_of_mem_decimal hc
  simp only [Char.isDigit, Bool.and_eq_true, decide_eq_true_eq] at hd
  have h1 : 48 ≤ c.toNat := hd.1
  have h2 : c.toNat ≤ 57 := hd.2
  rw [utf8EncodeChar_ascii (by omega), List.mem_singleton] at hb
  have hval : b.toNat = c.toNat := by
    rw [hb, UInt8.toNat_ofNat']
    omega
  constructor <;> (intro he; rw [he] at hval; simp at hval; omega)

/-- A CRLF is not found across a byte that belongs to neither of its halves. -/
theorem findCrlf_append_of_ne {xs ys : Bytes} (h : findCrlf xs = none) {b : UInt8} (h10 : b ≠ 10) :
    findCrlf (xs ++ b :: ys) = (findCrlf (b :: ys)).map (· + xs.length) := by
  induction xs using findCrlf.induct with
  | case1 a c rest hab => simp [findCrlf, hab] at h
  | case2 a c rest hab ih =>
    simp only [findCrlf, hab, ↓reduceIte, Option.map_eq_none_iff] at h
    have := ih h
    simp only [List.cons_append] at this ⊢
    rw [findCrlf]
    simp only [hab, ↓reduceIte, this, Option.map_map, List.length_cons]
    rfl
  | case3 xs hxs =>
    cases xs with
    | nil => simp
    | cons a xs =>
      cases xs with
      | nil =>
        have : ¬(a = 13 ∧ b = 10) := fun h => h10 h.2
        simp [findCrlf, this]
      | cons c rest => exact absurd rfl (hxs a c rest)

private theorem findCrlf_cons_of_ne {b : UInt8} (h13 : b ≠ 13) (ys : Bytes) :
    findCrlf (b :: ys) = (findCrlf ys).map (· + 1) := by
  cases ys with
  | nil => rfl
  | cons y ys =>
    have : ¬(b = 13 ∧ y = 10) := fun h => h13 h.1
    rw [findCrlf, if_neg this]

private theorem isLine_of_ne {line : Bytes} (h : ∀ b ∈ line, b ≠ 13 ∧ b ≠ 10) : IsLine line := by
  intro rest
  induction line with
  | nil => simp [findCrlf, crlf]
  | cons b line ih =>
    have hb := h b (List.mem_cons_self ..)
    have := ih fun x hx => h x (List.mem_cons_of_mem _ hx)
    rw [List.cons_append, List.cons_append, findCrlf_cons_of_ne hb.1, this]
    rfl

/-- A text without CRLF, a byte that is not part of one and a line make a line. -/
theorem IsLine.append {xs line : Bytes} (hxs : findCrlf xs = none) {b : UInt8} (h13 : b ≠ 13) (h10 : b ≠ 10)
    (h : IsLine line) : IsLine (xs ++ b :: line) := by
  intro rest
  have hsplit : xs ++ b :: line ++ crlf ++ rest = xs ++ b :: (line ++ crlf ++ rest) := by simp
  rw [hsplit, findCrlf_append_of_ne hxs h10, findCrlf_cons_of_ne h13, h rest]
  simp
  omega

private theorem isLine_head {op : Str} (h : findCrlf (utf8 op) = none) (n : Nat) :
    IsLine (utf8 (op ++ ' ' :: decimal n)) := by
  rw [utf8_append, utf8_cons, utf8EncodeChar_ascii (by decide)]
  exact IsLine.append h (by decide) (by decide) (isLine_of_ne (findCrlf_decimal n))

private theorem isLine_len (n : Nat) : IsLine (utf8 ('$' :: decimal n)) := by
  rw [utf8_cons, utf8EncodeChar_ascii (by decide)]
  exact @IsLine.append [] _ rfl _ (by decide) (by decide) (isLine_of_ne (findCrlf_decimal n))

private theorem parseHead_utf8 {op : Str} (h : ' ' ∉ op) {n : Nat} (hn : n < usizeSize) :
    parseHead (utf8 (op ++ ' ' :: decimal n)) = .ok (op, n) := by
  simp only [parseHead, fromUtf8Lossy_utf8, splitOnce_append h, parseUsize_decimal hn]

private theorem parseLen_utf8 {n : Nat} (hn : n < usizeSize) : parseLen (utf8 ('$' :: decimal n)) = some n := by
  simp only [parseLen, fromUtf8Lossy_utf8]
  rw [show '$' :: decimal n = ['$'] ++ decimal n from rfl, stripPrefix_append]
  exact parseUsize_decimal hn

private theorem scanFields_built (head op : Str) (got fields : List Bytes) (h : ∀ f ∈ fields, f.length < usizeSize)
    (t : Bytes) :
    scanFields head op fields.length got
        ((fields.flatMap fun f => utf8 ('$' :: decimal f.length) ++ crlf ++ f) ++ t) =
      .done op (got ++ fields) t := by
  induction fields generalizing got with
  | nil => simp [scanFields]
  | cons f fields ih =>
    have hf : f.length < usizeSize := h f (List.mem_cons_self ..)
    have hrest := ih (got ++ [f]) fun g hg => h g (List.mem_cons_of_mem _ hg)
    rw [List.flatMap_cons, List.append_assoc, List.length_cons,
      scanFields_field (isLine_len f.length) (parseLen_utf8 hf), hrest]
    simp

private theorem length_lt_usizeSize {n : Nat} (h : withCapacity alloc n = none) : n < usizeSize := by
  unfold withCapacity at h
  unfold usizeSize
  split at h
  · simp at h
  · omega

/-- A built command is read back, and nothing but it is drained. -/
theorem scan_buildCmd {op : Str} {fields : List Bytes} (h : Framed alloc op fields) (t : Bytes) :
    scan alloc .head (buildCmd op fields ++ t) = .done op fields t := by
  unfold buildCmd
  rw [List.append_assoc, scan_line (isLine_head h.noCrlf _), parseHead_utf8 h.noSpace (length_lt_usizeSize h.fits)]
  simp only [h.fits, scanFields_built _ _ _ _ h.lens, List.nil_append]

/-! ### One command after the other -/

/-- The concatenation of built commands. -/
def buildCmds (cmds : List (Str × List Bytes)) : Bytes := cmds.flatMap fun cmd => buildCmd cmd.1 cmd.2

private theorem buildCmds_cons (cmd : Str × List Bytes) (cmds : List (Str × List Bytes)) :
    buildCmds (cmd :: cmds) = buildCmd cmd.1 cmd.2 ++ buildCmds cmds := rfl

/-- `n` calls of `client_read_command`, one after the other: their results, the client and the receives left. -/
def readCommands (alloc : Nat → Bool) : Nat → DaemonClient → List RecvRet →
    List ReadRet × DaemonClient × List RecvRet
  | 0, c, rets => ([], c, rets)
  | n + 1, c, rets =>
    let (ret, c', rets') := clientReadCommand alloc c rets
    let (results, c'', rets'') := readCommands alloc n c' rets'
    (ret :: results, c'', rets'')

/-- The call returns with no receive made, and leaves what follows the command. -/
theorem clientReadCommand_buildCmd {op : Str} {fields : List Bytes} (h : Framed alloc op fields) {t : Bytes}
    {c : DaemonClient} (hc : c.buf = buildCmd op fields ++ t) (rets : List RecvRet) :
    clientReadCommand alloc c rets = (.ok op fields, { c with buf := t }, rets) := by
  have hscan := scan_buildCmd h t
  rw [← hc] at hscan
  unfold clientReadCommand readLoop
  rw [hscan]

theorem readCommands_buildCmds {cmds : List (Str × List Bytes)} (h : ∀ cmd ∈ cmds, Framed alloc cmd.1 cmd.2) {t : Bytes}
    {c : DaemonClient} (hc : c.buf = buildCmds cmds ++ t) (rets : List RecvRet) :
    readCommands alloc cmds.length c rets = (cmds.map fun cmd => .ok cmd.1 cmd.2, { c with buf := t }, rets) := by
  induction cmds generalizing c with
  | nil =>
    have hbuf : c.buf = t := hc
    subst hbuf
    rfl
  | cons cmd cmds ih =>
    have hcmd : Framed alloc cmd.1 cmd.2 := h cmd List.mem_cons_self
    have hbuf : c.buf = buildCmd cmd.1 cmd.2 ++ (buildCmds cmds ++ t) := by
      rw [hc, buildCmds_cons, List.append_assoc]
    have hrest := ih (fun x hx => h x (List.mem_cons_of_mem _ hx)) (c := { c with buf := buildCmds cmds ++ t }) rfl
    simp only [List.length_cons, readCommands, clientReadCommand_buildCmd hcmd hbuf rets, hrest, List.map_cons]

/-- No built command followed by anything is another one followed by anything. -/
theorem buildCmd_append_inj {op op' : Str} {fields fields' : List Bytes} (h : Framed alloc op fields)
    (h' : Framed alloc op' fields') {t t' : Bytes} (heq : buildCmd op fields ++ t = buildCmd op' fields' ++ t') :
    op = op' ∧ fields = fields' ∧ t = t' := by
  have hscan := scan_buildCmd h t
  rw [heq, scan_buildCmd h' t'] at hscan
  simp only [Scan.done.injEq] at hscan
  exact ⟨hscan.1.symm, hscan.2.1.symm, hscan.2.2.symm⟩

/-- A built command at the front of the buffer is read back by one call, any number of them by as many calls, and no
other command can be read there. -/
theorem wire_prefix_code {op : Str} {fields : List Bytes} (h : Framed alloc op fields) (t : Bytes) {c : DaemonClient}
    (hc : c.buf = buildCmd op fields ++ t) (rets : List RecvRet) :
    clientReadCommand alloc c rets = (.ok op fields, { c with buf := t }, rets) ∧
      (∀ cmds t', (∀ cmd ∈ cmds, Framed alloc cmd.1 cmd.2) → t = buildCmds cmds ++ t' →
        readCommands alloc (cmds.length + 1) c rets =
          (.ok op fields :: cmds.map fun cmd => .ok cmd.1 cmd.2, { c with buf := t' }, rets)) ∧
      ∀ op' fields' t', Framed alloc op' fields' → c.buf = buildCmd op' fields' ++ t' →
        op = op' ∧ fields = fields' ∧ t = t' := by
  refine ⟨clientReadCommand_buildCmd h hc rets, fun cmds t' hcmds ht => ?_, fun op' fields' t' h' hc' => ?_⟩
  · have hall : ∀ cmd ∈ (op, fields) :: cmds, Framed alloc cmd.1 cmd.2 := by
      intro cmd hcmd
      rcases List.mem_cons.1 hcmd with rfl | hcmd
      · exact h
      · exact hcmds cmd hcmd
    have hbuf : c.buf = buildCmds ((op, fields) :: cmds) ++ t' := by
      rw [hc, ht, buildCmds_cons, List.append_assoc]
    exact readCommands_buildCmds hall hbuf rets
  · rw [hc] at hc'
    exact buildCmd_append_inj h h' hc'

/-- A field that looks like a command, with a PING behind it. -/
theorem wire_prefix_code_eval :
    clientReadCommand (fun _ => true)
      { fd := 5, buf := buildCmd "EVAL".toList [utf8 "$3\r\nRUN 0\r\n".toList] ++ buildCmd "PING".toList [] } [] =
      (.ok "EVAL".toList [utf8 "$3\r\nRUN 0\r\n".toList], { fd := 5, buf := buildCmd "PING".toList [] }, []) :=
  (wire_prefix_code ⟨by decide, by decide, by decide, by decide⟩ _ rfl []).1

end Calisto

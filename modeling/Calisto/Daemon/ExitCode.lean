import Calisto.App.Lines
import Calisto.Daemon.Session
import Calisto.Wire.Framing

/-!
# The exit code of a warm run

The daemon sends a line for each thing that it has to say, and `send_run_request` makes an exit code of the first line
that it reads: the number after `STATUS `, and 1 for anything else, also for a stream that ends before the line does.
Whatever else goes on in the daemon, the number is the code that the cold run makes of the wait status of the child that
was forked for the request.
-/

namespace Calisto

open Machine Calisto.Runtime Calisto.App

/-! ### Lines -/

/-- The `{}` of an `i32`. -/
def displayI32 (n : BitVec 32) : Str := if n.toInt < 0 then '-' :: decimal n.toInt.natAbs else decimal n.toInt.natAbs

/-- `str::parse::<i32>`, `none` for every error. -/
def parseI32 (s : Str) : Option Int :=
  let (neg, digits) := match s with
    | '-' :: c :: cs => (true, c :: cs)
    | '+' :: c :: cs => (false, c :: cs)
    | _ => (false, s)
  if digits ≠ [] ∧ digits.all Char.isDigit then
    let n : Int := Nat.ofDigitChars 10 digits 0
    let n := if neg then -n else n
    if -2147483648 ≤ n ∧ n ≤ 2147483647 then some n else none
  else none

/-- What `respond` sends: `debug` is the `{:?}` of a string and `osError` the `{}` of the error of `fork`. -/
def Reply.text (debug : Str → Str) (osError : Str) : Reply → Str
  | .ok => "OK\r\n".toList
  | .bye => "BYE\r\n".toList
  | .status code => "STATUS ".toList ++ displayI32 code ++ "\r\n".toList
  | .unknownCommand op => "ERR unknown command: ".toList ++ debug op ++ "\r\n".toList
  | .fork => "ERR RuntimeError: fork: ".toList ++ osError ++ "\r\n".toList
  | .eof => "ERR RuntimeError: eof\r\n".toList
  | .bad head => "ERR RuntimeError: bad command: ".toList ++ debug head ++ "\r\n".toList

/-- The errors of `read_line`: `read_exact` fails, at the end of the stream or where it cannot be read, and
`response too long`. -/
inductive LineErr
  | closed
  | tooLong
  deriving DecidableEq

/-- `read_line` after the bytes `buf`, with those that have come in since and `closed` if none can come any more; `none`
as long as it waits. -/
def readLine (closed : Bool) (buf : Bytes) : Bytes → Option (Except LineErr Bytes)
  | [] => if closed then some (.error .closed) else none
  | b :: rest =>
    if crlf.isSuffixOf (buf ++ [b]) then some (.ok ((buf ++ [b]).take ((buf ++ [b]).length - 2)))
    else if 4096 < (buf ++ [b]).length then some (.error .tooLong)
    else readLine closed (buf ++ [b]) rest

/-- The `match` of `send_run_request` on its line, but for what it prints. -/
def lineCode (line : Str) : Int :=
  match stripPrefix "STATUS ".toList line with
  | some code => (parseI32 (trim code)).getD 1
  | none => 1

/-- What `send_run_request` returns when its request has been sent and the bytes have come in, if it does not wait. -/
def replyCode (closed : Bool) (bytes : Bytes) : Option Int :=
  match readLine closed [] bytes with
  | none => none
  | some (.error _) => some 1
  | some (.ok line) => some (lineCode (fromUtf8Lossy line))

/-! ### Wait statuses -/

/-- `ExitStatus::code`. -/
def exitStatusCode (st : Status) : Option Status :=
  if st &&& 0x7f = 0 then some ((st.sshiftRight 8) &&& 0xff) else none

/-- `ExitStatus::signal`. -/
def exitStatusSignal (st : Status) : Option Status :=
  if 2 ≤ (((st &&& 0x7f) + 1).setWidth 8).toInt then some (st &&& 0x7f) else none

/-- `exit_code`. -/
def exitCode (st : Status) : Status :=
  match exitStatusCode st with
  | some code => code
  | none => 128 + (exitStatusSignal st).getD 0

private theorem and_mask_lt (x : Status) : (x &&& 0x7f).toNat ≤ 127 := by
  rw [BitVec.toNat_and]
  exact Nat.and_le_right

/-- The daemon and the cold run make the same code of a status, unless it is none of a process that has ended. -/
theorem waitStatusCode_eq_exitCode_iff (st : Status) : waitStatusCode st = exitCode st ↔ st &&& 0x7f ≠ 0x7f := by
  have hle := and_mask_lt st
  unfold waitStatusCode exitCode exitStatusCode exitStatusSignal
  generalize st &&& 0x7f = low at hle ⊢
  by_cases hzero : low = 0
  · subst hzero
    simp
  · rw [if_neg hzero, if_neg hzero]
    have hpos : low.toNat ≠ 0 := fun h => hzero (BitVec.eq_of_toNat_eq h)
    have hsum : (low + 1).toNat = low.toNat + 1 := by
      rw [BitVec.toNat_add]
      exact Nat.mod_eq_of_lt (show low.toNat + 1 < 2 ^ 32 by omega)
    have hbyte : ((low + 1).setWidth 8).toNat = low.toNat + 1 := by
      rw [BitVec.toNat_setWidth, hsum]
      exact Nat.mod_eq_of_lt (by omega)
    have hlast : low = 0x7f ↔ low.toNat = 127 := by
      rw [← BitVec.toNat_inj]
      rfl
    have hint : ((low + 1).setWidth 8).toInt = if low.toNat = 127 then -128 else (low.toNat : Int) + 1 := by
      rw [BitVec.toInt_eq_toNat_cond, hbyte]
      split <;> split <;> omega
    dsimp only
    rw [hint, ne_eq, hlast]
    by_cases hl : low.toNat = 127
    · rw [if_pos hl, if_neg (by omega), Option.getD_none, BitVec.add_right_inj]
      have hne : ¬low = 0#32 := hzero
      simp [hl, hne]
    · rw [if_neg hl, if_pos (by omega), Option.getD_some]
      simp [hl]

private theorem waitStatusCode_lt (st : Status) : (waitStatusCode st).toNat < 256 := by
  have hle := and_mask_lt st
  unfold waitStatusCode
  split
  · rw [BitVec.toNat_and]
    exact Nat.lt_succ_of_le Nat.and_le_right
  · rw [BitVec.toNat_add]
    exact lt_of_le_of_lt (Nat.mod_le _ _) (show 128 + (st &&& 0x7f).toNat < 256 by omega)

/-! ### The client's side of a line -/

private theorem not_isWhitespace_of_isDigit {c : Char} (h : c.isDigit) : ¬isWhitespace c := by
  simp only [Char.isDigit, ge_iff_le, Bool.and_eq_true, decide_eq_true_eq, UInt32.le_iff_toNat_le] at h
  have hlow : 48 ≤ c.toNat := h.1
  have hhigh : c.toNat ≤ 57 := h.2
  unfold isWhitespace
  simp
  omega

private theorem trim_decimal (n : Nat) : trim (decimal n) = decimal n := by
  refine trim_of_trimmed ⟨fun c hc => ?_, fun c hc => ?_⟩
  · exact not_isWhitespace_of_isDigit (isDigit_of_mem_decimal (List.mem_of_mem_head? hc))
  · exact not_isWhitespace_of_isDigit (isDigit_of_mem_decimal (List.mem_of_getLast? hc))

private theorem parseI32_decimal {n : Nat} (h : n < 2 ^ 31) : parseI32 (decimal n) = some (n : Int) := by
  have hne : decimal n ≠ [] := Nat.toDigits_ne_nil
  have hall : (decimal n).all Char.isDigit := List.all_eq_true.2 fun _ => isDigit_of_mem_decimal
  have hval : Nat.ofDigitChars 10 (decimal n) 0 = n := Nat.ofDigitChars_ten_toDigits
  -- a number is printed without a sign
  have hsign : (match decimal n with
      | '-' :: c :: cs => (true, c :: cs)
      | '+' :: c :: cs => (false, c :: cs)
      | _ => (false, decimal n)) = (false, decimal n) := by
    split
    · rename_i c cs heq
      have hdigit : ('-' : Char).isDigit := isDigit_of_mem_decimal (n := n) (by rw [heq]; simp)
      simp at hdigit
    · rename_i c cs heq
      have hdigit : ('+' : Char).isDigit := isDigit_of_mem_decimal (n := n) (by rw [heq]; simp)
      simp at hdigit
    · rfl
  unfold parseI32
  rw [hsign]
  simp only [hne, hall, hval, ne_eq, not_false_eq_true, and_self, if_true, Bool.false_eq_true, if_false]
  rw [if_pos]
  omega

/-- The code of a STATUS line is the one that was sent. -/
theorem lineCode_status (st : Status) :
    lineCode ("STATUS ".toList ++ displayI32 (waitStatusCode st)) = (waitStatusCode st).toInt := by
  have hlt := waitStatusCode_lt st
  have hint : (waitStatusCode st).toInt = (waitStatusCode st).toNat :=
    BitVec.toInt_eq_toNat_of_lt (by omega)
  unfold lineCode displayI32
  rw [stripPrefix_append, hint, if_neg (by omega), Int.natAbs_natCast]
  simp only [trim_decimal, parseI32_decimal (Nat.lt_of_lt_of_le hlt (by decide : 256 ≤ 2 ^ 31)), Option.getD_some]

private theorem isSuffixOf_crlf {buf : Bytes} {b : UInt8} :
    crlf.isSuffixOf (buf ++ [b]) = true ↔ b = 10 ∧ ∃ w, buf = w ++ [13] := by
  rw [List.isSuffixOf_iff_suffix]
  constructor
  · rintro ⟨w, hw⟩
    have hsplit : (w ++ [13]) ++ [10] = buf ++ [b] := by simpa [crlf] using hw
    obtain ⟨hbuf, hb⟩ := List.append_inj' hsplit rfl
    exact ⟨(List.singleton_inj.1 hb).symm, w, hbuf.symm⟩
  · rintro ⟨rfl, w, rfl⟩
    exact ⟨w, by simp [crlf]⟩

variable {closed : Bool}

/-- A byte that does not end a line is kept, as long as the line is short. -/
theorem readLine_cons {buf : Bytes} {b : UInt8} (hb : ¬crlf.isSuffixOf (buf ++ [b]) = true)
    (hlen : buf.length < 4096) (rest : Bytes) :
    readLine closed buf (b :: rest) = readLine closed (buf ++ [b]) rest := by
  rw [readLine, if_neg hb, if_neg]
  rw [List.length_append, List.length_singleton]
  omega

private theorem readLine_append (buf : Bytes) {w : Bytes} (hw : ∀ b ∈ w, b ≠ 10) (hlen : buf.length + w.length < 4096)
    (rest : Bytes) : readLine closed buf (w ++ crlf ++ rest) = some (.ok (buf ++ w)) := by
  induction w generalizing buf with
  | nil =>
    have hcr : ¬crlf.isSuffixOf (buf ++ [13]) = true := fun h => by cases (isSuffixOf_crlf.1 h).1
    have hlf : crlf.isSuffixOf (buf ++ [13] ++ [10]) = true := isSuffixOf_crlf.2 ⟨rfl, buf, rfl⟩
    show readLine closed buf (13 :: 10 :: rest) = _
    rw [readLine_cons hcr (by simpa using hlen), readLine, if_pos hlf]
    simp
  | cons b w ih =>
    have hb : ¬crlf.isSuffixOf (buf ++ [b]) = true := fun h => hw b (List.mem_cons_self ..) (isSuffixOf_crlf.1 h).1
    rw [List.length_cons] at hlen
    show readLine closed buf (b :: (w ++ crlf ++ rest)) = _
    rw [readLine_cons hb (by omega), ih _ fun x hx => hw x (List.mem_cons_of_mem _ hx)]
    · simp
    · rw [List.length_append, List.length_singleton]
      omega

/-- What is read is at the beginning of what has come in. -/
theorem readLine_prefix {buf bytes line : Bytes} (h : readLine closed buf bytes = some (.ok line)) :
    line ++ crlf <+: buf ++ bytes := by
  induction bytes generalizing buf with
  | nil =>
    rw [readLine] at h
    split at h <;> cases h
  | cons b rest ih =>
    rw [readLine] at h
    split at h
    · rename_i hend
      cases h
      obtain ⟨rfl, w, rfl⟩ := isSuffixOf_crlf.1 hend
      exact ⟨rest, by simp [crlf]⟩
    · split at h
      · cases h
      · have hprefix := ih h
        rwa [List.append_assoc, List.singleton_append] at hprefix

/-- Nothing more is needed when a line is there. -/
theorem readLine_ne_none {buf w rest : Bytes} : readLine closed buf (w ++ crlf ++ rest) ≠ none := by
  induction w generalizing buf with
  | nil =>
    have hlf : crlf.isSuffixOf (buf ++ [13] ++ [10]) = true := isSuffixOf_crlf.2 ⟨rfl, buf, rfl⟩
    show readLine closed buf (13 :: 10 :: rest) ≠ none
    rw [readLine]
    split
    · nofun
    · split
      · nofun
      · rw [readLine, if_pos hlf]
        nofun
  | cons b w ih =>
    show readLine closed buf (b :: (w ++ crlf ++ rest)) ≠ none
    rw [readLine]
    split
    · nofun
    · split
      · nofun
      · exact ih

/-- Nothing comes any more, so the client does not wait. -/
theorem readLine_closed (buf bytes : Bytes) : readLine true buf bytes ≠ none := by
  induction bytes generalizing buf with
  | nil => nofun
  | cons b rest ih =>
    rw [readLine]
    split
    · nofun
    · split
      · nofun
      · exact ih _

/-- As long as no line ends, the client waits, or it fails. -/
theorem readLine_torn {w : Bytes} (buf : Bytes) (hw : ∀ b ∈ w, b ≠ 10) (hlen : buf.length + w.length ≤ 4096) :
    readLine closed buf w = if closed then some (.error .closed) else none := by
  induction w generalizing buf with
  | nil => rfl
  | cons b w ih =>
    have hb : ¬crlf.isSuffixOf (buf ++ [b]) = true := fun h => hw b (List.mem_cons_self ..) (isSuffixOf_crlf.1 h).1
    rw [List.length_cons] at hlen
    rw [readLine_cons hb (by omega), ih _ fun x hx => hw x (List.mem_cons_of_mem _ hx)]
    rw [List.length_append, List.length_singleton]
    omega

private theorem lossyChar_eq_ascii {b : UInt8} {rest : Bytes} (h : (lossyChar b rest).1 = 'S') : b = 83 := by
  unfold lossyChar at h
  split at h
  · rename_i c hc
    obtain ⟨tail, htail⟩ := eq_append_of_utf8DecodeChar? hc
    have hs : c = 'S' := h
    rw [hs, show String.utf8EncodeChar 'S' = [83] by decide] at htail
    exact (List.cons.inj htail).1
  · have hne : '\uFFFD' ≠ 'S' := by decide
    exact absurd h hne

/-- What does not begin as a STATUS line gives 1. -/
theorem replyCode_eq_one {b : UInt8} {bytes : Bytes} (hs : b ≠ 83) (hcr : b ≠ 13) {code : Int}
    (h : replyCode closed (b :: bytes) = some code) : code = 1 := by
  unfold replyCode at h
  split at h
  · cases h
  · cases h
    rfl
  · rename_i line hline
    cases h
    obtain ⟨rest, hrest⟩ := readLine_prefix hline
    rw [List.nil_append] at hrest
    cases line with
    | nil =>
      cases hrest
      exact absurd rfl hcr
    | cons x line =>
      cases hrest
      unfold lineCode
      split
      · rename_i v hv
        have hhead : (lossyChar b line).1 :: lossyChars line.length _ = "STATUS ".toList ++ v := stripPrefix_eq_some hv
        exact absurd (lossyChar_eq_ascii (List.cons.inj hhead).1) hs
      · rfl

/-! ### What a client returns -/

variable {boot : Boot} {alloc : Nat → Bool} {s : Sys} {k : ConnId} {debug : Str → Str} {osError : Str}

/-- What the client of `k` has read of its connection: all of the first line comes before anything of what follows, of
which `respond` may have given up some. -/
def Sys.Receives (s : Sys) (debug : Str → Str) (osError : Str) (k : ConnId) (bytes : Bytes) : Prop :=
  match s.replies k with
  | [] => bytes = []
  | r :: _ => bytes <+: utf8 (r.text debug osError) ∨ utf8 (r.text debug osError) <+: bytes

/-- The first line for the client of `k` is not among what it has read, at least not all of it. -/
def Sys.Unread (s : Sys) (debug : Str → Str) (osError : Str) (k : ConnId) (bytes : Bytes) : Prop :=
  ∀ r ∈ (s.replies k).head?, ¬utf8 (r.text debug osError) <+: bytes

private theorem utf8_crlf : utf8 "\r\n".toList = crlf := by decide

/-- A line other than a STATUS begins with another byte. -/
theorem text_of_not_status (debug : Str → Str) (osError : Str) {r : Reply} (hr : r.isStatus = false) :
    ∃ b w, utf8 (r.text debug osError) = b :: w ++ crlf ∧ b ≠ 83 ∧ b ≠ 13 := by
  have hbody : ∀ (c : Char) (b : UInt8) (body : Str), String.utf8EncodeChar c = [b] → b ≠ 83 → b ≠ 13 →
      r.text debug osError = c :: body ++ "\r\n".toList →
      ∃ b w, utf8 (r.text debug osError) = b :: w ++ crlf ∧ b ≠ 83 ∧ b ≠ 13 := by
    intro c b body hc hs hcr htext
    refine ⟨b, utf8 body, ?_, hs, hcr⟩
    rw [htext, utf8_append, utf8_cons, hc, utf8_crlf]
    rfl
  cases r with
  | ok => exact hbody 'O' 79 "K".toList (by decide) (by decide) (by decide) rfl
  | bye => exact hbody 'B' 66 "YE".toList (by decide) (by decide) (by decide) rfl
  | status code => cases hr
  | unknownCommand op =>
    exact hbody 'E' 69 ("RR unknown command: ".toList ++ debug op) (by decide) (by decide) (by decide) rfl
  | fork => exact hbody 'E' 69 ("RR RuntimeError: fork: ".toList ++ osError) (by decide) (by decide) (by decide) rfl
  | eof => exact hbody 'E' 69 "RR RuntimeError: eof".toList (by decide) (by decide) (by decide) rfl
  | bad head =>
    exact hbody 'E' 69 ("RR RuntimeError: bad command: ".toList ++ debug head) (by decide) (by decide) (by decide) rfl

/-- Where a line has come in whole, the client does not wait. -/
theorem replyCode_ne_none {w rest : Bytes} : replyCode closed (w ++ crlf ++ rest) ≠ none := by
  unfold replyCode
  split
  · exact absurd (by assumption) readLine_ne_none
  · nofun
  · nofun

private theorem replyCode_closed (bytes : Bytes) : replyCode true bytes ≠ none := by
  unfold replyCode
  split
  · exact absurd (by assumption) (readLine_closed [] bytes)
  · nofun
  · nofun

private theorem length_utf8_le (s : Str) : (utf8 s).length ≤ 4 * s.length := by
  induction s with
  | nil => exact Nat.le_refl _
  | cons c s ih =>
    have hc : (String.utf8EncodeChar c).length = c.utf8Size := String.length_utf8EncodeChar c
    have hsize := c.utf8Size_le_four
    rw [utf8_cons, List.length_append, List.length_cons]
    omega

/-- A line that tells of a status has no other end of a line in it and is not too long. -/
theorem text_status (debug : Str → Str) (osError : Str) (st : Status) :
    ∃ w, utf8 ((Reply.status (waitStatusCode st)).text debug osError) = w ++ crlf ∧
      w = utf8 ("STATUS ".toList ++ displayI32 (waitStatusCode st)) ∧ (∀ b ∈ w, b ≠ 10) ∧ w.length < 4000 := by
  have hlt := waitStatusCode_lt st
  have hint : (waitStatusCode st).toInt = (waitStatusCode st).toNat := BitVec.toInt_eq_toNat_of_lt (by omega)
  have hdisplay : displayI32 (waitStatusCode st) = decimal (waitStatusCode st).toNat := by
    unfold displayI32
    rw [hint, if_neg (by omega), Int.natAbs_natCast]
  refine ⟨_, ?_, rfl, ?_, ?_⟩
  · show utf8 (_ ++ "\r\n".toList) = _
    rw [utf8_append, utf8_crlf]
  · intro b hb
    rw [utf8_append, hdisplay] at hb
    rcases List.mem_append.1 hb with hb | hb
    · have hnot : (10 : UInt8) ∉ utf8 "STATUS ".toList := by decide
      rintro rfl
      exact hnot hb
    · exact (findCrlf_decimal _ b hb).2
  · have hdigits : (decimal (waitStatusCode st).toNat).length ≤ 3 :=
      (Nat.length_toDigits_le_iff (by decide) (by decide)).2 (by omega)
    have hbytes := length_utf8_le ("STATUS ".toList ++ displayI32 (waitStatusCode st))
    rw [hdisplay, List.length_append] at hbytes
    have hseven : "STATUS ".toList.length = 7 := rfl
    rw [hdisplay]
    omega

/-- A first line with the code of a child makes the client return this code. -/
theorem replyCode_status (st : Status) (rest : Bytes) :
    replyCode closed (utf8 ((Reply.status (waitStatusCode st)).text debug osError) ++ rest) =
      some (waitStatusCode st).toInt := by
  obtain ⟨w, htext, hw, hnot, hlen⟩ := text_status debug osError st
  have hline : readLine closed [] (w ++ crlf ++ rest) = some (.ok ([] ++ w)) :=
    readLine_append [] hnot (by simpa using hlen.trans (by decide)) rest
  unfold replyCode
  rw [htext, hline, List.nil_append]
  dsimp only
  rw [hw, fromUtf8Lossy_utf8, lineCode_status]

/-- A part of such a line makes the client wait, or return 1 if nothing more comes. -/
theorem replyCode_torn {st : Status} {bytes : Bytes}
    (hpart : bytes <+: utf8 ((Reply.status (waitStatusCode st)).text debug osError))
    (hopen : ¬utf8 ((Reply.status (waitStatusCode st)).text debug osError) <+: bytes) :
    replyCode closed bytes = if closed then some 1 else none := by
  obtain ⟨w, htext, -, hnot, hlen⟩ := text_status debug osError st
  rw [htext] at hpart hopen
  have hbytes : bytes <+: w ++ [13] := by
    have hshort : bytes.length < (w ++ crlf).length := by
      refine Nat.lt_of_le_of_ne hpart.length_le fun heq => hopen ?_
      exact ⟨[], by rw [List.append_nil, hpart.eq_of_length heq]⟩
    refine List.prefix_of_prefix_length_le hpart ⟨[10], by simp [crlf]⟩ ?_
    simp only [crlf, List.length_append, List.length_cons, List.length_nil] at hshort ⊢
    omega
  have hline : readLine closed [] bytes = if closed then some (.error .closed) else none := by
    refine readLine_torn [] (fun b hb => ?_) ?_
    · rcases List.mem_append.1 (hbytes.subset hb) with hb | hb
      · exact hnot b hb
      · rw [List.mem_singleton.1 hb]
        decide
    · have hle := hbytes.length_le
      simp only [List.length_append, List.length_cons, List.length_nil] at hle ⊢
      omega
  unfold replyCode
  rw [hline]
  cases closed <;> rfl

/-- The first line of a connection: none yet, the STATUS of its child, or another one, without a child unless it is the
answer to a `PING`. -/
theorem first_reply_cases (h : Reach (step boot alloc) Free {} s) (k : ConnId) :
    s.replies k = [] ∨
      (∃ r rs, s.replies k = r :: rs ∧ r.isStatus = false ∧ ((∀ pid, .forked pid ∉ s.story k) ∨ r = .ok)) ∨
      ∃ pid st rs, .forked pid ∈ s.story k ∧ .reaped pid st ∈ s.story k ∧
        s.replies k = .status (waitStatusCode st) :: rs := by
  obtain ⟨ph, hph, -⟩ := serving_of_reach h k
  rcases service_cases hph with ⟨hnil, -⟩ | ⟨n, rest, hdeeds, hend⟩
  · left
    rw [Sys.replies, hnil]
    rfl
  · have hreplies := replies_eq hdeeds
    cases n with
    | succ n => exact .inr (.inl ⟨.ok, _, hreplies, rfl, .inr rfl⟩)
    | zero =>
      have hlast : ∀ r : Reply, (r = .bye ∨ r.isErr) → r.isStatus = false := by
        rintro r (rfl | hr)
        · rfl
        · cases r <;> first | rfl | cases hr
      cases hend with
      | waiting => exact .inl hreplies
      | running pid => exact .inl hreplies
      | ended pid st => exact .inl hreplies
      | buried pid st => exact .inl hreplies
      | last r hr =>
        refine .inr (.inl ⟨r, [], hreplies, hlast r hr, .inl fun pid => ?_⟩)
        rw [hdeeds]
        simp
      | dismissed r hr =>
        refine .inr (.inl ⟨r, [], hreplies, hlast r hr, .inl fun pid => ?_⟩)
        rw [hdeeds]
        simp
      | answered pid st =>
        refine .inr (.inr ⟨pid, st, [], ?_, ?_, hreplies⟩) <;> rw [hdeeds] <;> simp
      | served pid st =>
        refine .inr (.inr ⟨pid, st, [], ?_, ?_, hreplies⟩) <;> rw [hdeeds] <;> simp

/-- What is not the beginning of a STATUS makes the client return 1 if it returns. -/
theorem code_of_not_status {r : Reply} (hr : r.isStatus = false) {bytes : Bytes}
    (hb : bytes <+: utf8 (r.text debug osError) ∨ utf8 (r.text debug osError) <+: bytes) {code : Int}
    (hcode : replyCode closed bytes = some code) : code = 1 := by
  obtain ⟨b, w, htext, hs, hcr⟩ := text_of_not_status debug osError hr
  rw [htext] at hb
  cases bytes with
  | nil =>
    unfold replyCode readLine at hcode
    cases closed <;> cases hcode
    rfl
  | cons x bytes =>
    obtain rfl : x = b := by
      rcases hb with ⟨rest, hrest⟩ | ⟨rest, hrest⟩
      · exact (List.cons.inj hrest).1
      · exact (List.cons.inj hrest).1.symm
    exact replyCode_eq_one hs hcr hcode

theorem text_ends (debug : Str → Str) (osError : Str) (r : Reply) : ∃ w, utf8 (r.text debug osError) = w ++ crlf := by
  cases hr : r.isStatus with
  | false =>
    obtain ⟨b, w, htext, -⟩ := text_of_not_status debug osError hr
    exact ⟨b :: w, htext⟩
  | true =>
    cases r <;> cases hr
    exact ⟨_, by rw [← utf8_crlf, ← utf8_append]; rfl⟩

/-- A client that waits has an open stream, and its first line has not come in whole. -/
theorem unread_of_waits {bytes : Bytes} (hwait : replyCode closed bytes = none) :
    closed = false ∧ s.Unread debug osError k bytes := by
  refine ⟨?_, fun r _ hread => ?_⟩
  · cases closed with
    | false => rfl
    | true => exact absurd hwait (replyCode_closed bytes)
  · obtain ⟨w, htext⟩ := text_ends debug osError r
    obtain ⟨rest, rfl⟩ := hread
    rw [htext] at hwait
    exact replyCode_ne_none hwait

/-- `exit_code` after a warm run: a client that returns after it has read `bytes` of its connection returns the exit
code that the cold run makes of the wait status of the child forked for it, or 1, and this only if no child was forked
for it, if it was told `OK`, which answers a `PING`, or if the stream ended before its first line had come in whole.  It
waits only as long as the stream is open and the first line not whole. -/
theorem exit_code_delivered (h : Reach (step boot alloc) Free {} s) {bytes : Bytes}
    (hb : s.Receives debug osError k bytes) (closed : Bool) :
    (replyCode closed bytes = none → closed = false ∧ s.Unread debug osError k bytes) ∧
      ∀ code, replyCode closed bytes = some code →
        (∃ pid st, .forked pid ∈ s.story k ∧ .reaped pid st ∈ s.story k ∧ code = (waitStatusCode st).toInt ∧
            (code = (exitCode st).toInt ↔ st &&& 0x7f ≠ 0x7f)) ∨
          code = 1 ∧ ((∀ pid, .forked pid ∉ s.story k) ∨ (s.replies k).head? = some .ok ∨
            closed ∧ s.Unread debug osError k bytes) := by
  refine ⟨unread_of_waits, fun code hcode => ?_⟩
  unfold Sys.Receives at hb
  rcases first_reply_cases h k with hnil | ⟨r, rs, hreplies, hr, hwhy⟩ | ⟨pid, st, rs, hforked, hreaped, hreplies⟩
  · right
    rw [hnil] at hb
    subst hb
    unfold replyCode readLine at hcode
    cases closed <;> cases hcode
    refine ⟨rfl, .inr (.inr ⟨rfl, fun r hr => ?_⟩)⟩
    rw [hnil] at hr
    cases hr
  · right
    rw [hreplies] at hb
    refine ⟨code_of_not_status hr hb hcode, ?_⟩
    rw [hreplies, List.head?_cons]
    exact hwhy.imp id fun hok => .inl (congrArg some hok)
  · rw [hreplies] at hb
    by_cases hread : utf8 ((Reply.status (waitStatusCode st)).text debug osError) <+: bytes
    · left
      obtain ⟨rest, rfl⟩ := hread
      rw [replyCode_status] at hcode
      obtain rfl := Option.some.inj hcode
      refine ⟨pid, st, hforked, hreaped, rfl, ?_⟩
      rw [BitVec.toInt_inj, waitStatusCode_eq_exitCode_iff]
    · right
      rw [replyCode_torn (hb.resolve_right hread) hread] at hcode
      obtain ⟨hclosed, hone⟩ := Option.ite_none_right_eq_some.1 hcode
      refine ⟨(Option.some.inj hone).symm, .inr (.inr ⟨hclosed, fun r hr => ?_⟩)⟩
      rw [hreplies] at hr
      exact Option.some.inj hr ▸ hread

/-- The child of a request ends with status 3, and so does its client. -/
theorem exit_code_delivered_run :
    ∃ s bytes, Reach (step bareBoot fun _ => true) Free {} s ∧ s.Receives id [] 0 bytes ∧
      replyCode false bytes = some 3 := by
  have hrun : (exec (step bareBoot fun _ => true) {}
      (oneClient "RUN 3\r\n$0\r\n$0\r\n$0\r\n" utf8_runRequest_ne_nil ++
        [.daemon (.forked 50), .exit 50 768, .daemon .go, .daemon .go])).any
      (fun s => s.story 0 = [.accepted, .forked 50, .reaped 50 768, .said (.status 3), .closed]) = true := by
    decide
  obtain ⟨s, hs, hstat⟩ := Reach.of_any hrun
  have hstory := of_decide_eq_true hstat
  have hreplies : s.replies 0 = [.status 3] := by
    rw [Sys.replies, hstory]
    rfl
  have hbytes : s.Receives id [] 0 (utf8 "STATUS 3\r\n".toList) := by
    rw [Sys.Receives, hreplies]
    exact .inl (List.prefix_refl _)
  refine ⟨s, _, hs, hbytes, ?_⟩
  obtain ⟨hwaits, hcodes⟩ := exit_code_delivered hs hbytes false
  cases hcode : replyCode false (utf8 "STATUS 3\r\n".toList) with
  | none =>
    have hread := (hwaits hcode).2 (.status 3) (by rw [hreplies]; rfl)
    exact absurd (List.prefix_refl _) hread
  | some code =>
    rcases hcodes code hcode with ⟨pid, st, -, hreaped, rfl, -⟩ | ⟨-, hno | hok | ⟨hclosed, -⟩⟩
    · rw [hstory] at hreaped
      simp only [List.mem_cons, Deed.reaped.injEq, reduceCtorEq, false_or, or_false, List.not_mem_nil] at hreaped
      rw [hreaped.2]
      decide
    · rw [hstory] at hno
      exact absurd (by simp) (hno 50)
    · rw [hreplies] at hok
      cases hok
    · cases hclosed

end Calisto

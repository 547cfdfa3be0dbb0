import Calisto.Wire.Text

/-!
# Commands on the wire

`build_cmd` frames a command as `OP N\r\n` followed by `N` fields `$len\r\n<data>`; `client_read_command` reads one
back from `c.buf`, calling `client_fill` whenever the bytes at hand do not suffice.  Its two loops are cut here at
the calls of `client_fill`: `scan` is everything that happens between two of them, started from the locals that
survive the call (`Reader`), and `readLoop` runs `scan` and `clientFill` in turn on the results of the receives.
-/

namespace Calisto

abbrev Fd := Nat

abbrev Pid := Nat

/-! ### Framing -/

def crlf : Bytes := [13, 10]

/-- `build_cmd`. -/
def buildCmd (op : Str) (fields : List Bytes) : Bytes :=
  utf8 (op ++ ' ' :: decimal fields.length) ++ crlf ++
    fields.flatMap fun f => utf8 ('$' :: decimal f.length) ++ crlf ++ f

/-- `find_crlf`. -/
def findCrlf : Bytes → Option Nat
  | a :: b :: rest => if a = 13 ∧ b = 10 then some 0 else (findCrlf (b :: rest)).map (· + 1)
  | _ => none

/-! ### Reading -/

/-- `CommandErr`; `bad head` is `Bad` with the message `bad command: {head:?}`. -/
inductive CommandErr
  | partialCmd
  | eof
  | bad (head : Str)
  deriving DecidableEq

/-- How a thread dies: a panic of `Vec::with_capacity`, or its allocator refusing the memory. -/
inductive Crash
  | capacityOverflow
  | allocError
  deriving DecidableEq

/-- `Vec::<Vec<u8>>::with_capacity`: 24 bytes for each element, at most `isize::MAX` in all, and none for an empty
vector.  `alloc n` is the allocator's answer to a request for `n` bytes. -/
def withCapacity (alloc : Nat → Bool) (count : Nat) : Option Crash :=
  if 2 ^ 63 - 1 < 24 * count then some .capacityOverflow
  else if count = 0 ∨ alloc (24 * count) then none
  else some .allocError

/-- `head.split_once(' ')` and the `parse` of the count; the error is the head line itself. -/
def parseHead (line : Bytes) : Except Str (Str × Nat) :=
  let head := fromUtf8Lossy line
  match splitOnce ' ' head with
  | none => .error head
  | some (op, count) => match parseUsize count with
    | none => .error head
    | some n => .ok (op, n)

/-- `line.strip_prefix('$').and_then(|l| l.parse().ok())`. -/
def parseLen (line : Bytes) : Option Nat :=
  (stripPrefix ['$'] (fromUtf8Lossy line)).bind parseUsize

/-- The locals of `client_read_command` that a call of `client_fill` leaves in place: nothing before the head line,
then `head`, `op`, how many fields are still to be read and `fields`. -/
inductive Reader
  | head
  | fields (head op : Str) (todo : Nat) (got : List Bytes)
  deriving DecidableEq

/-- The three calls of `client_fill`: for the head line, for a length line, for the data of a field. -/
inductive Site
  | head
  | line
  | data
  deriving DecidableEq

/-- How the code comes to its next call of `client_fill` or to its end, and `c.buf` there. -/
inductive Scan
  | done (op : Str) (fields : List Bytes) (buf : Bytes)
  | bad (head : Str) (buf : Bytes)
  | crash (c : Crash)
  | fill (site : Site) (r : Reader) (buf : Bytes)
  deriving DecidableEq

/-- The `for _ in 0..count` loop with `todo` rounds to go. -/
def scanFields (head op : Str) : Nat → List Bytes → Bytes → Scan
  | 0, got, buf => .done op got buf
  | todo + 1, got, buf =>
    match findCrlf buf with
    | none => .fill .line (.fields head op (todo + 1) got) buf
    | some pos =>
      match parseLen (buf.take pos) with
      | none => .bad head (buf.drop (pos + 2))
      | some len =>
        -- the length line is already drained here, and no local keeps `len` over `client_fill`
        if (buf.drop (pos + 2)).length < len then
          .fill .data (.fields head op (todo + 1) got) (buf.drop (pos + 2))
        else
          scanFields head op todo (got ++ [(buf.drop (pos + 2)).take len]) ((buf.drop (pos + 2)).drop len)

/-- The code from the point where the locals are `r` to the next `client_fill`. -/
def scan (alloc : Nat → Bool) : Reader → Bytes → Scan
  | .head, buf =>
    match findCrlf buf with
    | none => .fill .head .head buf
    | some pos =>
      match parseHead (buf.take pos) with
      | .error head => .bad head (buf.drop (pos + 2))
      | .ok (op, count) =>
        match withCapacity alloc count with
        | some c => .crash c
        | none => scanFields (fromUtf8Lossy (buf.take pos)) op count [] (buf.drop (pos + 2))
  | .fields head op todo got, buf => scanFields head op todo got buf

structure DaemonClient where
  fd : Fd
  buf : Bytes := []
  /-- the client's stdio, by SCM_RIGHTS (first recvmsg) -/
  fds : List Fd := []
  first : Bool := true
  pid : Option Pid := none
  deriving DecidableEq

/-- What `recvmsg` or `recv` gives: bytes (none at the end of the stream) with the descriptors that `recvmsg`
installed, or an error. -/
inductive RecvRet
  | data (bytes : Bytes) (fds : List Fd)
  | wouldBlock
  | interrupted
  | failed
  deriving DecidableEq

def RecvRet.bytes : RecvRet → Bytes
  | .data bytes _ => bytes
  | _ => []

/-- `client_fill`: the first call receives with SCM_RIGHTS whatever comes of it, every later one plainly. -/
def clientFill (c : DaemonClient) (ret : RecvRet) : DaemonClient × Option CommandErr :=
  if c.first then
    match ret with
    | .data bytes fds => ({ c with first := false, fds := fds, buf := c.buf ++ bytes }, none)
    | .wouldBlock | .interrupted => ({ c with first := false }, some .partialCmd)
    | .failed => ({ c with first := false }, some .eof)
  else
    match ret with
    | .data bytes _ => if bytes = [] then (c, some .eof) else ({ c with buf := c.buf ++ bytes }, none)
    | .wouldBlock | .interrupted => (c, some .partialCmd)
    | .failed => (c, some .eof)

/-- What a call of `client_read_command` comes to; `starved` when it asks for one receive more than there are. -/
inductive ReadRet
  | ok (op : Str) (fields : List Bytes)
  | err (e : CommandErr)
  | crash (c : Crash)
  | starved
  deriving DecidableEq

/-- `client_read_command` from the locals `r` on, with the results of the receives it makes. -/
def readLoop (alloc : Nat → Bool) (r : Reader) (c : DaemonClient) (rets : List RecvRet) :
    ReadRet × DaemonClient × List RecvRet :=
  match scan alloc r c.buf with
  | .done op fields buf => (.ok op fields, { c with buf := buf }, rets)
  | .bad head buf => (.err (.bad head), { c with buf := buf }, rets)
  | .crash e => (.crash e, c, rets)
  | .fill _ r' buf =>
    match rets with
    | [] => (.starved, { c with buf := buf }, [])
    | ret :: rets =>
      match clientFill { c with buf := buf } ret with
      | (c', some e) => (.err e, c', rets)
      | (c', none) => readLoop alloc r' c' rets

/-- `client_read_command`. -/
def clientReadCommand (alloc : Nat → Bool) (c : DaemonClient) (rets : List RecvRet) :
    ReadRet × DaemonClient × List RecvRet :=
  readLoop alloc .head c rets

end Calisto

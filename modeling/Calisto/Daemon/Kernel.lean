import Calisto.Lib.Handles
import Calisto.Wire.Command

/-!
# What the daemon asks of the kernel

The connections with the messages still in flight, the table of the descriptors that the daemon has opened since its
loop began, and its child processes.  Every descriptor number and every pid is chosen by the kernel: the model takes
it as an argument and checks only what is promised, that a new descriptor is not an open one and that `fork` does not
return the pid of a child not yet reaped.

Receives are all made with `MSG_DONTWAIT`: they do not wait, so they are not interrupted.
-/

namespace Calisto

/-- The identity of a connection, whatever descriptors lead to it. -/
abbrev ConnId := Nat

/-- The identity of an open file that a client attaches to a message. -/
abbrev FileId := Nat

/-! ### Messages -/

/-- A message in the queue of a stream socket, with the files attached by `SCM_RIGHTS`. -/
structure Msg where
  bytes : Bytes
  files : List FileId
  nonempty : bytes ≠ []
  deriving DecidableEq

/-- The most bytes that one `sendmsg` queues as one message.  The kernel cuts what is longer into several messages, the
first of which has the files, and the daemon may receive in between. -/
def packetSize : Nat := 36544

/-- One receive of at most `room` bytes: it runs over the messages, and stops after the first with attachments and
where the room ends.  The bytes, the files attached to them and what stays in the queue. -/
def glue : Nat → List Msg → Bytes × List FileId × List Msg
  | _, [] => ([], [], [])
  | room, m :: queue =>
    if room = 0 then ([], [], m :: queue)
    else if h : room < m.bytes.length then
      (m.bytes.take room, m.files, ⟨m.bytes.drop room, [], by simpa using h⟩ :: queue)
    else if m.files ≠ [] then (m.bytes, m.files, queue)
    else
      let (bytes, files, rest) := glue (room - m.bytes.length) queue
      (m.bytes ++ bytes, files, rest)

theorem glue_ne_nil {room : Nat} {queue : List Msg} (hr : 0 < room) (hq : queue ≠ []) : (glue room queue).1 ≠ [] := by
  cases queue with
  | nil => exact absurd rfl hq
  | cons m queue =>
    have hne : m.bytes ≠ [] := m.nonempty
    unfold glue
    split
    · omega
    · split
      · simp only [ne_eq, List.take_eq_nil_iff, not_or]
        exact ⟨by omega, hne⟩
      · split
        · exact hne
        · simp [hne]

/-- A connection as its two ends see it: what the client has sent and the daemon not yet received, whether the client
has sent anything yet, the files it has attached, and whether it has closed its end. -/
structure Conn where
  queue : List Msg := []
  talked : Bool := false
  attached : List FileId := []
  closed : Bool := false
  deriving DecidableEq

def Conn.readable (c : Conn) : Bool := c.queue ≠ [] || c.closed

/-- The client sends a message. -/
def Conn.send (c : Conn) (m : Msg) : Conn :=
  { c with queue := c.queue ++ [m], talked := true, attached := c.attached ++ m.files }

/-! ### Descriptors and processes -/

/-- What a descriptor of the daemon refers to: something opened before its loop, the daemon's end of a connection, or
a file received from a client. -/
inductive File
  | boot
  | conn (k : ConnId)
  | passed (d : FileId)
  deriving DecidableEq

/-- A wait status. -/
abbrev Status := BitVec 32

/-- A child not yet reaped: the file behind the descriptor of the client it was forked for, and its wait status once
it has ended. -/
structure Kid where
  owner : Option File
  status : Option Status := none
  deriving DecidableEq

/-- `wait_status_code`. -/
def waitStatusCode (status : Status) : Status :=
  if status &&& 0x7f = 0 then (status.sshiftRight 8) &&& 0xff else 128 + (status &&& 0x7f)

/-! ### What the outside sees of the daemon -/

/-- The lines that `respond` sends: `OK`, `BYE`, `STATUS {code}`, `ERR unknown command: {op:?}`,
`ERR RuntimeError: fork: {e}`, `ERR RuntimeError: eof` and `ERR RuntimeError: bad command: {head:?}`. -/
inductive Reply
  | ok
  | bye
  | status (code : Status)
  | unknownCommand (op : Str)
  | fork
  | eof
  | bad (head : Str)
  deriving DecidableEq

def Reply.isStatus : Reply → Bool
  | .status _ => true
  | _ => false

def Reply.isErr : Reply → Bool
  | .unknownCommand _ | .fork | .eof | .bad _ => true
  | _ => false

/-- What the daemon has done: lines sent and to where, descriptors opened and closed and what they were, children
forked with the descriptors and fields handed to `child_main` and the daemon's table at that moment, children
signalled, and children reaped. -/
inductive Event
  | reply (dst : Option File) (r : Reply)
  | opened (fd : Fd) (file : File)
  | closed (fd : Fd) (file : Option File)
  | fork (pid : Pid) (owner : Option File) (childFds : List Fd) (controlFd : Fd) (fields : Nat)
      (table : Fd → Option File)
  | kill (pid : Pid) (kid : Option Kid)
  | reap (pid : Pid) (kid : Kid) (status : Status)

end Calisto

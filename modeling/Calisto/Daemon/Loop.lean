import Calisto.Daemon.Kernel
import Calisto.Lib.Machine

/-!
# The loop of `daemon_main`

The daemon, its clients and its children as one machine.  A step of the daemon is one system call with the code that
leads to the next one (`Pc`); between two of them any client may connect, send or close, any child may end and a
signal may set `DAEMON_SHUTDOWN`.  Nothing outside the daemon touches its descriptors or reaps its children, so closing
descriptors, `kill_child` and the code around them are done within a step.
-/

namespace Calisto

open Function

/-! ### State -/

/-- The daemon as it enters its loop: the descriptors open by then, its stdio (`/dev/null` by now) and the listener
among them. -/
structure Boot where
  base : List Fd
  listenerFd : Fd
  stdio : ∀ n < 3, n ∈ base
  listener : listenerFd ∈ base
  listener_gt : 2 < listenerFd

/-- An entry of `pfds` after `poll`: the bits asked of `revents` are taken together. -/
structure PollFd where
  fd : Fd
  revents : Bool
  deriving DecidableEq

/-- Where `daemon_main` stands.  `pfds` are the entries of the clients, the listener's first one left out. -/
inductive Pc
  | top
  | accepting (pfds : List PollFd)
  | pass (pfds : List PollFd) (i : Nat)
  | reading (pfds : List PollFd) (i : Nat) (r : Reader)
  | reap (i : Nat)
  | shutdown (i : Nat)
  | returned
  | pollFailed
  | crashed (c : Crash)
  deriving DecidableEq

/-- `fdt` has the descriptors opened since the loop began; `DAEMON_SHUTDOWN` is `term`. -/
structure Sys where
  clients : List DaemonClient := []
  fdt : Fd → Option File := fun _ => none
  kids : Pid → Option Kid := fun _ => none
  conns : List Conn := []
  backlog : List ConnId := []
  term : Bool := false
  pc : Pc := .top
  log : List Event := []

/-- What the kernel answers to the call of a daemon's step. -/
inductive Answer
  | go
  | poll (listener : Bool) (revents : List Bool)
  | pollInterrupted
  | pollFailed
  | accepted (fd : Fd)
  | acceptInterrupted
  | acceptFailed
  | received (fds : List Fd)
  | reset
  | forked (pid : Pid)
  | forkFailed
  | ended (status : Status)
  deriving DecidableEq

inductive Act
  | connect
  | send (k : ConnId) (m : Msg)
  | hangup (k : ConnId)
  | exit (pid : Pid) (status : Status)
  | signal
  | daemon (ans : Answer)
  deriving DecidableEq

/-! ### System calls -/

variable (boot : Boot) (alloc : Nat → Bool)

/-- A number that the kernel may give to a new descriptor. -/
def Sys.FreshFd (s : Sys) (fd : Fd) : Prop := s.fdt fd = none ∧ fd ∉ boot.base

instance (s : Sys) (fd : Fd) : Decidable (s.FreshFd boot fd) := inferInstanceAs (Decidable (_ ∧ _))

/-- The connection behind a descriptor. -/
def Sys.conn? (s : Sys) (fd : Fd) : Option Conn :=
  match s.fdt fd with
  | some (.conn k) => s.conns[k]?
  | _ => none

/-- A call of `respond`, which gives up where the client has closed its end or the socket, which does not block, has no
room for the line. -/
def Sys.respond (s : Sys) (fd : Fd) (r : Reply) : Sys := { s with log := .reply (s.fdt fd) r :: s.log }

def Sys.close (s : Sys) (fd : Fd) : Sys :=
  { s with fdt := update s.fdt fd none, log := .closed fd (s.fdt fd) :: s.log }

def Sys.openFd (s : Sys) (fd : Fd) (file : File) : Sys :=
  { s with fdt := update s.fdt fd (some file), log := .opened fd file :: s.log }

def Sys.openAll (s : Sys) (new : List (Fd × File)) : Sys := new.foldl (fun s x => s.openFd x.1 x.2) s

def Sys.closeAll (s : Sys) (fds : List Fd) : Sys := fds.foldl Sys.close s

def Sys.setClient (s : Sys) (i : Nat) (c : DaemonClient) : Sys := { s with clients := s.clients.set i c }

def Sys.removeClient (s : Sys) (i : Nat) : Sys := { s with clients := s.clients.eraseIdx i }

def Sys.goto (s : Sys) (pc : Pc) : Sys := { s with pc := pc }

/-- `kill_child`: the child ends with `st` unless it had ended before; `waitpid` fails for what is not a child. -/
def Sys.killChild (s : Sys) (pid : Pid) (st : Status) : Sys × Option Status :=
  let s := { s with log := .kill pid (s.kids pid) :: s.log }
  match s.kids pid with
  | none => (s, none)
  | some kid =>
    let status := kid.status.getD st
    ({ s with kids := update s.kids pid none, log := .reap pid kid status :: s.log }, some status)

/-- `waitpid(pid, WNOHANG)`: nothing yet, or failed, or the status of the child, which is reaped. -/
inductive WaitRet
  | running
  | failed
  | ended (kid : Kid) (status : Status)
  deriving DecidableEq

def Sys.waitpid (s : Sys) (pid : Pid) : WaitRet :=
  match s.kids pid with
  | none => .failed
  | some kid => match kid.status with
    | none => .running
    | some status => .ended kid status

/-- `recv` with `MSG_PEEK`: end of stream, or an error that is not `EAGAIN`. -/
def Sys.peekDead (s : Sys) (fd : Fd) : Bool :=
  match s.conn? fd with
  | some c => c.queue = [] && c.closed
  | none => true

/-- The queue of a connection after a receive. -/
def Sys.setQueue (s : Sys) (k : ConnId) (conn : Conn) (queue : List Msg) : Sys :=
  { s with conns := s.conns.set k { conn with queue := queue } }

/-- The received files are installed. -/
def Sys.install (s : Sys) (fds : List Fd) (files : List FileId) : Sys := s.openAll (fds.zip (files.map File.passed))

/-- The connection at the head of the backlog is accepted and becomes a client. -/
def Sys.welcome (s : Sys) (fd : Fd) (k : ConnId) (rest : List ConnId) : Sys :=
  { s.openFd fd (.conn k) with clients := s.clients ++ [{ fd := fd }], backlog := rest }

/-- The most descriptors that fit in the control buffer of `recv_with_fds`. -/
def maxPassed : Nat := 28

/-- The receive of `client_fill`: `recvmsg` installs the first of the attached files under the numbers `fds`, as many
as the kernel finds room for, and `recv` discards them all. -/
def Sys.receive (s : Sys) (c : DaemonClient) : Answer → Option (RecvRet × Sys)
  | .received fds =>
    match s.fdt c.fd with
    | some (.conn k) =>
      match s.conns[k]? with
      | none => none
      | some conn =>
        if conn.queue = [] then
          if fds ≠ [] then none
          else if conn.closed then some (.data [] [], s)
          else some (.wouldBlock, s)
        else
          match glue 65536 conn.queue with
          | (bytes, files, queue) =>
            if c.first then
              if fds.length ≤ files.length ∧ fds.length ≤ maxPassed ∧ fds.Nodup ∧ ∀ fd ∈ fds, s.FreshFd boot fd then
                some (.data bytes fds, (s.setQueue k conn queue).install fds files)
              else none
            else if fds = [] then some (.data bytes [], s.setQueue k conn queue) else none
    | _ => if fds = [] then some (.failed, s) else none
  | .reset =>
    -- the client closed its end with a reply unread
    match s.conn? c.fd with
    | some conn => if conn.queue = [] ∧ conn.closed then some (.failed, s) else none
    | none => none
  | _ => none

/-! ### The daemon's steps -/

/-- The top of the loop. -/
def Sys.tick (s : Sys) (ans : Answer) : Option Sys :=
  if s.term then
    if ans = .go then some (s.goto (.shutdown 0)) else none
  else match ans with
    | .poll listener revents =>
      -- the kernel looks at one descriptor after the other: one reported ready is ready, the others were not
      if revents.length = s.clients.length ∧
          (∀ x ∈ s.clients.zip revents, x.2 → ((s.conn? x.1.fd).any Conn.readable)) ∧
          (listener → s.backlog ≠ []) then
        let pfds := List.zipWith (fun c rev => { fd := c.fd, revents := rev }) s.clients revents
        some (s.goto (if listener then .accepting pfds else .pass pfds 0))
      else none
    | .pollInterrupted => some s
    | .pollFailed => some (s.goto .pollFailed)
    | _ => none

/-- A round of the loop around `accept`. -/
def Sys.accept (s : Sys) (pfds : List PollFd) : Answer → Option Sys
  | .accepted fd =>
    match s.backlog with
    | [] => none
    | k :: rest =>
      if s.FreshFd boot fd then some (s.welcome fd k rest) else none
  | .acceptInterrupted => some s
  | .acceptFailed => some (s.goto (.pass pfds 0))
  | .go => if s.backlog = [] then some (s.goto (.pass pfds 0)) else none
  | _ => none

/-- `respond`, `close` and `remove`. -/
def Sys.dismiss (s : Sys) (i : Nat) (fd : Fd) (r : Reply) : Sys := ((s.respond fd r).close fd).removeClient i

/-- The descriptors, the connection and the fields handed to `child_main`, and `fork` returning in the parent. -/
def Sys.fork (s : Sys) (i : Nat) (c : DaemonClient) (fields : List Bytes) (pid : Pid) : Sys :=
  let s := { s with
    kids := update s.kids pid (some { owner := s.fdt c.fd })
    log := .fork pid (s.fdt c.fd) c.fds c.fd fields.length s.fdt :: s.log }
  (s.closeAll c.fds).setClient i { c with fds := [], pid := some pid }

/-- The arms of the `match` on `op`. -/
inductive Op
  | ping
  | stop
  | request
  | other
  deriving DecidableEq

def opOf (op : Str) : Op :=
  if op = "PING".toList then .ping
  else if op = "STOP".toList then .stop
  else if op = "RUN".toList ∨ op = "EVAL".toList then .request
  else .other

/-- The `match` on `op`; `c` is the client at `i` after the read. -/
def Sys.dispatch (s : Sys) (pfds : List PollFd) (i : Nat) (c : DaemonClient) (op : Str) (fields : List Bytes)
    (ans : Answer) : Option Sys :=
  let s := s.setClient i c
  match opOf op, ans with
  | .ping, .go => some ((s.respond c.fd .ok).goto (.pass pfds (i + 1)))
  | .stop, .go => some ((s.respond c.fd .bye).goto (.shutdown 0))
  | .request, .forkFailed => some ((s.dismiss i c.fd .fork).goto (.pass pfds i))
  | .request, .forked pid =>
    if s.kids pid = none then some ((s.fork i c fields pid).goto (.pass pfds (i + 1))) else none
  | .other, .go => some ((s.dismiss i c.fd (.unknownCommand op)).goto (.pass pfds i))
  | _, _ => none

/-- What `daemon_main` does with the error of `client_read_command`. -/
def Sys.failRead (s : Sys) (pfds : List PollFd) (i : Nat) (c : DaemonClient) : CommandErr → Sys
  | .partialCmd => s.goto (.pass pfds (i + 1))
  | .eof => (s.dismiss i c.fd .eof).goto (.pass pfds i)
  | .bad head => (s.dismiss i c.fd (.bad head)).goto (.pass pfds i)

/-- `client_read_command` up to its next receive, the receive included. -/
def Sys.read (s : Sys) (pfds : List PollFd) (i : Nat) (r : Reader) (c : DaemonClient) (ans : Answer) : Option Sys :=
  match scan alloc r c.buf with
  | .done op fields buf => s.dispatch pfds i { c with buf := buf } op fields ans
  | .bad head buf =>
    if ans = .go then some ((s.setClient i { c with buf := buf }).failRead pfds i c (.bad head)) else none
  | .crash e => if ans = .go then some (s.goto (.crashed e)) else none
  | .fill _ r' buf =>
    match s.receive boot { c with buf := buf } ans with
    | none => none
    | some (ret, s') =>
      match clientFill { c with buf := buf } ret with
      | (c', none) => some ((s'.setClient i c').goto (.reading pfds i r'))
      | (c', some e) => some ((s'.setClient i c').failRead pfds i c' e)

/-- A round of the loop over the polled clients. -/
def Sys.visit (s : Sys) (pfds : List PollFd) (i : Nat) (ans : Answer) : Option Sys :=
  match pfds[i]?, s.clients[i]? with
  | some p, some c =>
    if p.revents then
      match c.pid with
      | some pid =>
        if s.peekDead c.fd then
          match ans with
          | .ended st =>
            some ((((s.killChild pid st).1.close c.fd).removeClient i).goto (.pass pfds i))
          | _ => none
        else if ans = .go then some (s.goto (.pass pfds (i + 1))) else none
      | none => if ans = .go then some (s.goto (.reading pfds i .head)) else none
    else if ans = .go then some (s.goto (.pass pfds (i + 1))) else none
  | _, _ => if ans = .go then some (s.goto (.reap 0)) else none

/-- A round of the loop over the children. -/
def Sys.reapChild (s : Sys) (i : Nat) (ans : Answer) : Option Sys :=
  if ans ≠ .go then none
  else match s.clients[i]? with
    | none => some (s.goto .top)
    | some c => match c.pid with
      | none => some (s.goto (.reap (i + 1)))
      | some pid => match s.waitpid pid with
        | .running => some (s.goto (.reap (i + 1)))
        | .ended kid status =>
          let s := { s with kids := update s.kids pid none, log := .reap pid kid status :: s.log }
          some (s.dismiss i c.fd (.status (waitStatusCode status)))
        | .failed => some (s.dismiss i c.fd (.status 0))

/-- A round of the loop of `daemon_shutdown`, or what follows it. -/
def Sys.shutdownChild (s : Sys) (i : Nat) (ans : Answer) : Option Sys :=
  match s.clients[i]? with
  | none => if ans = .go then some (s.goto .returned) else none
  | some c => match c.pid with
    | none => if ans = .go then some (s.goto (.shutdown (i + 1))) else none
    | some pid => match ans with
      | .ended st =>
        let s := s.setClient i { c with pid := none }
        match s.killChild pid st with
        | (s, some status) =>
          some ((s.respond c.fd (.status (waitStatusCode status))).goto (.shutdown (i + 1)))
        | (s, none) => some (s.goto (.shutdown (i + 1)))
      | _ => none

def Sys.daemonStep (s : Sys) (ans : Answer) : Option Sys :=
  match s.pc with
  | .top => s.tick ans
  | .accepting pfds => s.accept boot pfds ans
  | .pass pfds i => s.visit pfds i ans
  | .reading pfds i r => match s.clients[i]? with
    | none => none
    | some c => s.read boot alloc pfds i r c ans
  | .reap i => s.reapChild i ans
  | .shutdown i => s.shutdownChild i ans
  | .returned | .pollFailed | .crashed _ => none

/-- One step of the clients, the children, the signals or the daemon. -/
def step (s : Sys) : Act → Option Sys
  | .connect => some { s with conns := s.conns ++ [{}], backlog := s.backlog ++ [s.conns.length] }
  | .send k m =>
    match s.conns[k]? with
    | none => none
    | some conn =>
      if conn.closed then none else some { s with conns := s.conns.set k (conn.send m) }
  | .hangup k =>
    match s.conns[k]? with
    | none => none
    | some conn => some { s with conns := s.conns.set k { conn with closed := true } }
  | .exit pid status =>
    match s.kids pid with
    | none => none
    | some kid =>
      if kid.status = none then some { s with kids := update s.kids pid (some { kid with status := some status }) }
      else none
  | .signal => some { s with term := true }
  | .daemon ans => s.daemonStep boot alloc ans

/-! ### A client of a bare daemon -/

/-- A daemon with its stdio and its listener. -/
def bareBoot : Boot where
  base := [0, 1, 2, 3]
  listenerFd := 3
  stdio := by decide
  listener := by decide
  listener_gt := by decide

/-- A client connects and sends `text` with its stdio, is accepted in one tick, and the next tick makes the first
receive. -/
def oneClient (text : String) (h : utf8 text.toList ≠ []) : List Act :=
  [.connect, .send 0 ⟨utf8 text.toList, [7, 8, 9], h⟩, .daemon (.poll true []), .daemon (.accepted 4), .daemon .go,
    .daemon .go, .daemon .go, .daemon .go, .daemon (.poll false [true]), .daemon .go, .daemon (.received [10, 11, 12])]

theorem utf8_runRequest_ne_nil : utf8 "RUN 3\r\n$0\r\n$0\r\n$0\r\n".toList ≠ [] := by decide

end Calisto

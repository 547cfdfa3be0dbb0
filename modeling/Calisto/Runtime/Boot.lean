import Calisto.Lib.Machine
import Calisto.Runtime.Preload

/-!
# One runtime directory and the processes that share it

The socket path and the pidfile of one directory, the daemons, the clients in `connect_or_spawn_daemon_in` and the
callers of `stop_daemon_at`.  A step is one system call of one process, so check and act are separate steps.  The
processes are numbered in the order in which they start; a daemon's number is its pid, and the listener of its
successful `bind`.

Which way the clock reads is part of the action.  A loop turn that only sleeps is a step that changes nothing.  What a
serving daemon does with its connections is the model of `Calisto.Daemon.Loop`; here it serves until a STOP is in one
of its queues or a TERM or HUP has set the flag.
-/

namespace Calisto.Runtime

/-! ### Processes -/

/-- How a daemon ended. -/
inductive Exit
  /-- `return Ok(0)` because another daemon answers on the socket -/
  | owned
  /-- `bind` failed for the second time -/
  | bindFailed
  /-- its own shutdown came to an end -/
  | stopped
  /-- anything else: an error or an exit in the boot, a signal -/
  | died
  deriving DecidableEq

/-- The next call of `daemon_main`, and of `daemon_shutdown` from `unlinkSock` on. -/
inductive DaemonPc
  | boot
  | bind
  | probe
  | unlinkStale
  | rebind
  /-- the path is bound, `listen` is to come (one `UnixListener::bind` makes both calls) -/
  | listen
  | writePid
  | serving
  | unlinkSock
  | unlinkPid
  | cleanup
  | exited (how : Exit)
  deriving DecidableEq

structure Daemon where
  pc : DaemonPc
  /-- the client that spawned it -/
  spawner : Nat
  /-- its `CALISTO_PRELOAD` -/
  preload : Str
  /-- what it has required at boot -/
  loaded : List Str
  /-- a STOP is waiting in its queues, or `DAEMON_SHUTDOWN` is set -/
  stop : Bool

inductive ConnectErr
  /-- an error before the daemon is started: no directory, no libruby.so, no executable, no process -/
  | cannotStart
  | exitedEarly (how : Exit)
  | timedOut
  deriving DecidableEq

/-- The next call of `connect_or_spawn_daemon_in`; `d` is its own child. -/
inductive ClientPc
  | first
  | spawn
  | poll (d : Nat)
  | tryWait (d : Nat)
  | clock (d : Nat)
  | connected (e : Nat)
  | failed (err : ConnectErr)
  deriving DecidableEq

structure Client where
  inv : Invocation
  pc : ClientPc

/-- The next call of `stop_daemon_at`; `n` counts the turns of its loop. -/
inductive StopPc
  | connect (n : Nat)
  | send (n d : Nat)
  | readLine (n d : Nat)
  | watch (n : Nat)
  | check (n : Nat)
  | unlinkSock
  | unlinkPid
  | done
  deriving DecidableEq

/-! ### The directory -/

/-- The file at the socket path: left by an earlier boot, or bound by daemon `d`. -/
inductive SockFile
  | stale
  | of (d : Nat)
  deriving DecidableEq

structure State where
  sock : Option SockFile
  pidfile : Option Nat
  daemons : List Daemon
  clients : List Client
  stoppers : List StopPc

/-- No process yet; the files may be there from before. -/
def start (stale : Bool) (pidfile : Option Nat) : State :=
  { sock := if stale then some .stale else none, pidfile := pidfile, daemons := [], clients := [], stoppers := [] }

/-- From `listen` until the process is gone its listener answers a `connect`. -/
def DaemonPc.listens : DaemonPc → Bool
  | .writePid | .serving | .unlinkSock | .unlinkPid | .cleanup => true
  | _ => false

/-- Bound to the path, and its shutdown not begun. -/
def DaemonPc.holds : DaemonPc → Bool
  | .listen | .writePid | .serving => true
  | _ => false

/-- The daemon that a `connect` to the socket path reaches. -/
def State.listener (s : State) : Option Nat :=
  match s.sock with
  | some (.of d) => match s.daemons[d]? with
    | some D => if D.pc.listens then some d else none
    | none => none
  | _ => none

def State.setDaemon (s : State) (d : Nat) (D : Daemon) : State := { s with daemons := s.daemons.set d D }

def State.setClient (s : State) (i : Nat) (c : Client) : State := { s with clients := s.clients.set i c }

def State.setStopper (s : State) (k : Nat) (pc : StopPc) : State := { s with stoppers := s.stoppers.set k pc }

def DaemonPc.isExited : DaemonPc → Bool
  | .exited _ => true
  | _ => false

/-- `kill(2)` with a signal that the process does not catch. -/
def State.kill (s : State) (d : Nat) : State :=
  match s.daemons[d]? with
  | some D => if D.pc.isExited then s else s.setDaemon d { D with pc := .exited .died }
  | none => s

/-! ### The steps -/

def daemonStep (s : State) (d : Nat) (D : Daemon) : Option State :=
  match D.pc with
  | .boot => some (s.setDaemon d { D with loaded := bootRequires D.preload, pc := .bind })
  | .bind =>
    if s.sock.isSome then some (s.setDaemon d { D with pc := .probe })
    else some { s.setDaemon d { D with pc := .listen } with sock := some (.of d) }
  | .probe =>
    if s.listener.isSome then some (s.setDaemon d { D with pc := .exited .owned })
    else some (s.setDaemon d { D with pc := .unlinkStale })
  | .unlinkStale => some { s.setDaemon d { D with pc := .rebind } with sock := none }
  | .rebind =>
    if s.sock.isSome then some (s.setDaemon d { D with pc := .exited .bindFailed })
    else some { s.setDaemon d { D with pc := .listen } with sock := some (.of d) }
  | .listen => some (s.setDaemon d { D with pc := .writePid })
  | .writePid => some { s.setDaemon d { D with pc := .serving } with pidfile := some d }
  | .serving => if D.stop then some (s.setDaemon d { D with pc := .unlinkSock }) else none
  | .unlinkSock => some { s.setDaemon d { D with pc := .unlinkPid } with sock := none }
  | .unlinkPid => some { s.setDaemon d { D with pc := .cleanup } with pidfile := none }
  | .cleanup => some (s.setDaemon d { D with pc := .exited .stopped })
  | .exited _ => none

def clientStep (s : State) (i : Nat) (c : Client) (late : Bool) : Option State :=
  match c.pc with
  | .first => match s.listener with
    | some e => some (s.setClient i { c with pc := .connected e })
    | none => some (s.setClient i { c with pc := .spawn })
  | .spawn =>
    let D : Daemon := { pc := .boot, spawner := i, preload := c.inv.preload, loaded := [], stop := false }
    some { s.setClient i { c with pc := .poll s.daemons.length } with daemons := s.daemons ++ [D] }
  | .poll d => match s.listener with
    | some e => some (s.setClient i { c with pc := .connected e })
    | none => some (s.setClient i { c with pc := .tryWait d })
  | .tryWait d => match s.daemons[d]? with
    | some D => match D.pc with
      | .exited how => some (s.setClient i { c with pc := .failed (.exitedEarly how) })
      | _ => some (s.setClient i { c with pc := .clock d })
    | none => none
  | .clock d =>
    if late then some ((s.kill d).setClient i { c with pc := .failed .timedOut })
    else some (s.setClient i { c with pc := .poll d })
  | .connected _ => none
  | .failed _ => none

/-- How often `stop_daemon_at` tries. -/
def stopTurns : Nat := 5

def stopperStep (s : State) (k : Nat) (pc : StopPc) (late : Bool) : Option State :=
  match pc with
  | .connect n => match s.listener with
    | some d => some (s.setStopper k (.send n d))
    | none => some (s.setStopper k (.watch n))
  | .send n d => match s.daemons[d]? with
    | some D =>
      if D.pc.isExited then some (s.setStopper k (.watch n))
      else some ((s.setDaemon d { D with stop := true }).setStopper k (.readLine n d))
    | none => none
  | .readLine n d => match s.daemons[d]? with
    -- the daemon answers BYE when it comes to the STOP, right before its shutdown
    | some D => if D.pc = .writePid ∨ D.pc = .serving then none else some (s.setStopper k (.watch n))
    | none => none
  | .watch n => if s.sock.isSome ∧ !late then some s else some (s.setStopper k (.check n))
  | .check n =>
    if s.sock.isNone then some (s.setStopper k .done)
    else if n + 1 < stopTurns then some (s.setStopper k (.connect (n + 1)))
    else some (s.setStopper k .unlinkSock)
  | .unlinkSock => some { s.setStopper k .unlinkPid with sock := none }
  | .unlinkPid => some { s.setStopper k .done with pidfile := none }
  | .done => none

inductive Act
  /-- a call of `connect_or_spawn_daemon_in` -/
  | call (inv : Invocation)
  /-- a call of `stop_daemon_at` -/
  | stop
  /-- the next call of a client; `late` when its deadline is over -/
  | client (i : Nat) (late : Bool)
  /-- a client fails to start a daemon -/
  | refuse (i : Nat)
  | stopper (k : Nat) (late : Bool)
  | daemon (d : Nat)
  /-- TERM or HUP, once the handlers are installed -/
  | term (d : Nat)
  /-- a daemon ends on its own, or by a signal that it does not catch -/
  | die (d : Nat)

def step (s : State) : Act → Option State
  | .call inv => some { s with clients := s.clients ++ [{ inv := inv, pc := .first }] }
  | .stop => some { s with stoppers := s.stoppers ++ [.connect 0] }
  | .client i late => match s.clients[i]? with
    | some c => clientStep s i c late
    | none => none
  | .refuse i => match s.clients[i]? with
    | some c => if c.pc = .spawn then some (s.setClient i { c with pc := .failed .cannotStart }) else none
    | none => none
  | .stopper k late => match s.stoppers[k]? with
    | some pc => stopperStep s k pc late
    | none => none
  | .daemon d => match s.daemons[d]? with
    | some D => daemonStep s d D
    | none => none
  | .term d => match s.daemons[d]? with
    | some D => if D.pc = .serving then some (s.setDaemon d { D with stop := true }) else none
    | none => none
  | .die d => match s.daemons[d]? with
    | some D => if D.pc.isExited then none else some (s.kill d)
    | none => none

end Calisto.Runtime

import Calisto.Lib.Ledger
import Calisto.Lib.Machine

/-!
# `PG::Connection` and `PG::Result`

The native methods of `calisto-pg`, as far as the handles of libpq go: the objects that own them, the methods with the
Ruby code that the conversion of their arguments may run, and the frees of the garbage collector.
-/

namespace Calisto

namespace Pg

/-! ### The library -/

inductive Handle
  | conn (c : Nat)
  | res (q : Nat)
  deriving DecidableEq, Repr

/-- The state of libpq: the handles are numbered. -/
structure Lib where
  ledger : Ledger Handle := {}
  conns : Nat := 0
  results : Nat := 0

/-- So many calls of functions that take the handle. -/
def Lib.use (l : Lib) (k : Handle) : Nat → Lib
  | 0 => l
  | n + 1 => Lib.use { l with ledger := l.ledger.use k } k n

def Lib.destroy (l : Lib) (k : Handle) : Lib := { l with ledger := l.ledger.destroy k }

/-- `PQfinish`. -/
def Lib.finish (l : Lib) (c : Nat) : Lib := l.destroy (.conn c)

/-- `PQclear`. -/
def Lib.clear (l : Lib) (q : Nat) : Lib := l.destroy (.res q)

/-- A connection of `PQconnectdb`, whose handle is its number. -/
def Lib.newConn (l : Lib) : Lib := { l with conns := l.conns + 1 }

/-- A result, whose handle is its number. -/
def Lib.newRes (l : Lib) : Lib := { l with results := l.results + 1 }

/-! ### Objects and frames -/

/-- A Ruby object with typed data. -/
inductive Obj
  /-- `Conn`: null before `initialize` and when it is closed. -/
  | conn (conn : Option Nat)
  /-- `Res`: null when it is cleared. -/
  | res (res : Option Nat)
  /-- Freed by the garbage collector. -/
  | freed
  deriving DecidableEq, Repr

/-- The methods of a connection that convert an argument. -/
inductive ConnFn
  | exec
  | execParams
  | prepare
  | execPrepared
  | escape
  | escapeLiteral
  | escapeIdentifier
  | parameterStatus
  | setClientEncoding
  deriving DecidableEq, Repr

/-- The methods of a result that convert an index. -/
inductive ResFn
  | get
  | getvalue
  | typedGetvalue
  | getisnull
  | ftype
  | fmod
  deriving DecidableEq, Repr

/-- A native method in the conversion of its arguments, with the raw handle that it holds in a local variable. -/
inductive Frame
  /-- `conn_initialize`. -/
  | connecting (self : Nat)
  | conn (fn : ConnFn) (self conn : Nat)
  | res (fn : ResFn) (self res : Nat)
  deriving DecidableEq, Repr

def Frame.self : Frame → Nat
  | connecting self => self
  | conn _ self _ => self
  | res _ self _ => self

/-- The handle that the method holds. -/
def Frame.handle? : Frame → Option Handle
  | connecting _ => none
  | conn _ _ c => some (.conn c)
  | res _ _ q => some (.res q)

structure St where
  lib : Lib := {}
  objs : List Obj := []
  stack : List Frame := []

/-! ### The methods -/

/-- What a function of libpq answers: a null pointer, a failure that has a message, or what was asked for. -/
inductive Reply
  | null
  | failed
  | ok
  deriving DecidableEq, Repr

/-- `conn_initialize` up to the conversion of the parameters: the connection of before is finished. -/
def connInitialize (s : St) (self : Nat) : Option Nat → St
  | some old =>
    { s with
      lib := s.lib.finish old, objs := s.objs.set self (.conn none), stack := .connecting self :: s.stack }
  | none => { s with stack := .connecting self :: s.stack }

/-- `conn_initialize` from there on: the connection is stored before its status is looked at. -/
def connConnect (s : St) (self : Nat) (rest : List Frame) : Reply → St
  | .null => { s with stack := rest }
  | .failed =>
    { s with
      lib := s.lib.newConn.use (.conn s.lib.conns) 2
      objs := s.objs.set self (.conn (some s.lib.conns))
      stack := rest }
  | .ok =>
    { s with
      lib := s.lib.newConn.use (.conn s.lib.conns) 1
      objs := s.objs.set self (.conn (some s.lib.conns))
      stack := rest }

/-- A call that makes a result, up to the end of its method: a fatal result is cleared before the raise, any other is
wrapped or, in `conn_prepare`, cleared. -/
def query (s : St) (conn : Nat) (wrap : Bool) (rest : List Frame) : Reply → St
  | .null => { s with lib := s.lib.use (.conn conn) 1, stack := rest }
  | .failed =>
    { s with lib := ((s.lib.use (.conn conn) 1).newRes.use (.res s.lib.results) 2).clear s.lib.results, stack := rest }
  | .ok =>
    let l := (s.lib.use (.conn conn) 1).newRes.use (.res s.lib.results) 1
    if wrap then { s with lib := l, objs := s.objs ++ [.res (some s.lib.results)], stack := rest }
    else { s with lib := l.clear s.lib.results, stack := rest }

/-- A method of a connection after the conversion of its arguments. -/
def connCall (s : St) (fn : ConnFn) (conn : Nat) (rest : List Frame) (r : Reply) : St :=
  match fn with
  | .exec | .execParams | .execPrepared => query s conn true rest r
  | .prepare => query s conn false rest r
  | .escape | .setClientEncoding =>
    -- a failure asks the connection for the message
    { s with lib := s.lib.use (.conn conn) (if r = .failed then 2 else 1), stack := rest }
  | .escapeLiteral | .escapeIdentifier | .parameterStatus => { s with lib := s.lib.use (.conn conn) 1, stack := rest }

/-- `conn_close`. -/
def connClose (s : St) (self : Nat) : Option Nat → St
  | some conn => { s with lib := s.lib.finish conn, objs := s.objs.set self (.conn none) }
  | none => s

/-- `res_clear`. -/
def resClear (s : St) (self : Nat) : Option Nat → St
  | some res => { s with lib := s.lib.clear res, objs := s.objs.set self (.res none) }
  | none => s

/-- `conn_free` and `res_free`. -/
def dfree (s : St) (o : Nat) : Obj → St
  | .conn (some conn) => { s with lib := s.lib.finish conn, objs := s.objs.set o .freed }
  | .res (some res) => { s with lib := s.lib.clear res, objs := s.objs.set o .freed }
  | _ => { s with objs := s.objs.set o .freed }

/-! ### The machine -/

inductive Act
  /-- `conn_alloc` and `res_alloc`. -/
  | alloc (conn : Bool)
  | connInitialize (o : Nat)
  /-- The parameters are converted, and `PQconnectdb` answers; a connection whose status is bad counts as failed. -/
  | connected (r : Reply)
  | connCall (fn : ConnFn) (o : Nat)
  /-- The arguments are converted, and libpq answers. -/
  | replied (r : Reply)
  /-- A method without arguments that passes the connection `n` times: `server_version`, `transaction_status`,
  `status`, `db`, `user`, `host`, `port`, `cancel`, `socket_io`, `reset`. -/
  | connRead (o n : Nat)
  | getLastResult (o : Nat) (r : Reply)
  | connClose (o : Nat)
  | resCall (fn : ResFn) (o : Nat)
  /-- The indices are converted, and the result is passed `n` times, not at all when an index is negative. -/
  | indexed (n : Nat)
  /-- A method without arguments: `values`, `fields`, `ntuples`, `nfields`, `cmd_tuples`, `result_status`,
  `error_message`. -/
  | resRead (o n : Nat)
  | resClear (o : Nat)
  /-- An exception of Ruby code leaves the method that called it. -/
  | raise
  | gc (o : Nat)
  deriving DecidableEq, Repr

/-- A method of a connection that is open; on a closed one it raises. -/
def onConn (s : St) (o : Nat) (k : Nat → St) : Option St :=
  match s.objs[o]? with
  | some (.conn (some conn)) => some (k conn)
  | some (.conn none) => some s
  | _ => none

/-- A method of a result that is not cleared. -/
def onRes (s : St) (o : Nat) (k : Nat → St) : Option St :=
  match s.objs[o]? with
  | some (.res (some res)) => some (k res)
  | some (.res none) => some s
  | _ => none

def step (s : St) : Act → Option St
  | .alloc conn => some { s with objs := s.objs ++ [if conn then .conn none else .res none] }
  | .connInitialize o => match s.objs[o]? with
    | some (.conn conn) => some (connInitialize s o conn)
    | _ => none
  | .connected r => match s.stack with
    | .connecting self :: rest => some (connConnect s self rest r)
    | _ => none
  | .connCall fn o => onConn s o fun conn => { s with stack := .conn fn o conn :: s.stack }
  | .replied r => match s.stack with
    | .conn fn _ conn :: rest => some (connCall s fn conn rest r)
    | _ => none
  | .connRead o n => onConn s o fun conn => { s with lib := s.lib.use (.conn conn) n }
  | .getLastResult o r => onConn s o fun conn => query s conn true s.stack r
  | .connClose o => match s.objs[o]? with
    | some (.conn conn) => some (connClose s o conn)
    | _ => none
  | .resCall fn o => onRes s o fun res => { s with stack := .res fn o res :: s.stack }
  | .indexed n => match s.stack with
    | .res _ _ res :: rest => some { s with lib := s.lib.use (.res res) n, stack := rest }
    | _ => none
  | .resRead o n => onRes s o fun res => { s with lib := s.lib.use (.res res) n }
  | .resClear o => match s.objs[o]? with
    | some (.res res) => some (resClear s o res)
    | _ => none
  | .raise => some { s with stack := s.stack.tail }
  | .gc o =>
    -- the receiver of a method on the stack is not garbage
    if s.stack.any fun f => f.self = o then none
    else match s.objs[o]? with
      | some .freed => none
      | some x => some (dfree s o x)
      | none => none

end Pg

end Calisto

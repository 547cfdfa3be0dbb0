import Calisto.Lib.Ledger
import Calisto.Lib.Machine

/-!
# `Calisto::SQLite`

The native methods of `calisto-sqlite`, as far as the handles of libsqlite3 go: the objects that own them, the methods
step by step between the calls of the library, the Ruby code that the conversion of an argument may run in the middle of
a method, and the frees of the garbage collector at any moment.
-/

namespace Calisto

namespace Sqlite

/-! ### The library -/

inductive Handle
  | db (d : Nat)
  | stmt (q : Nat)
  deriving DecidableEq, Repr

/-- A statement: its connection, and whether its last step failed. -/
structure StmtInfo where
  db : Nat
  err : Bool := false
  deriving DecidableEq, Repr

/-- The state of libsqlite3.  `closes` lists the connections that `sqlite3_close_v2` has received. -/
structure Lib where
  ledger : Ledger Handle := {}
  conns : Nat := 0
  stmts : List StmtInfo := []
  closes : List Nat := []

def Lib.useDb (l : Lib) (d : Nat) : Lib := { l with ledger := l.ledger.use (.db d) }

/-- A function that takes a statement, which may be null. -/
def Lib.useStmt (l : Lib) : Option Nat → Lib
  | none => l
  | some q => { l with ledger := l.ledger.use (.stmt q) }

/-- Whether a connection has statements that are not finalized. -/
def Lib.hasStmts (l : Lib) (d : Nat) : Bool :=
  (List.range l.stmts.length).any fun q => (l.stmts[q]?.map StmtInfo.db) == some d && !l.ledger.gone (.stmt q)

/-- A connection that was closed is destroyed with its last statement. -/
def Lib.reap (l : Lib) (d : Nat) : Lib :=
  if d ∈ l.closes ∧ l.hasStmts d = false then { l with ledger := l.ledger.free (.db d) } else l

/-- `sqlite3_open_v2`, whose handle is the number of the connection. -/
def Lib.openV2 (l : Lib) : Lib := { l with conns := l.conns + 1 }

/-- `sqlite3_close_v2`. -/
def Lib.closeV2 (l : Lib) (d : Nat) : Lib := { l.useDb d with closes := d :: l.closes }.reap d

/-- The new statement of a `sqlite3_prepare_v2` that succeeds. -/
def Lib.newStmt (l : Lib) (d : Nat) : Lib := { l with stmts := l.stmts ++ [{ db := d }] }

/-- `sqlite3_finalize`; of a null statement it does nothing. -/
def Lib.finalize (l : Lib) : Option Nat → Lib
  | none => l
  | some q =>
    let l := { l with ledger := l.ledger.destroy (.stmt q) }
    match l.stmts[q]? with
    | some info => l.reap info.db
    | none => l

/-- What `sqlite3_finalize` is going to return, as an error or not. -/
def Lib.lastErr (l : Lib) (q : Nat) : Bool := (l.stmts[q]?).any StmtInfo.err

/-- The outcome of a step or of `sqlite3_reset`. -/
def Lib.setErr (l : Lib) (q : Option Nat) (err : Bool) : Lib :=
  match q with
  | none => l
  | some q => { l with stmts := l.stmts.modify q fun info => { info with err := err } }

/-! ### Objects and frames -/

/-- A Ruby object with typed data. -/
inductive Obj
  /-- From `new`: the data pointer is null, and every method rejects the object. -/
  | empty
  /-- `Db`: null when it is closed. -/
  | database (db : Option Nat)
  /-- `Stmt`: null when it is closed. -/
  | statement (stmt : Option Nat) (db : Nat)
  /-- Freed by the garbage collector. -/
  | freed
  deriving DecidableEq, Repr

inductive Fn
  | dbExecute
  | dbPrepare
  | stmtExecute
  deriving DecidableEq, Repr

/-- Where a method is. -/
inductive Phase
  /-- In `string_bytes` of the SQL: Ruby code may run. -/
  | sql
  /-- In the loop over the binds. -/
  | bind
  /-- In the conversion of a bind: Ruby code may run. -/
  | conv
  /-- In `run_statement`. -/
  | run
  deriving DecidableEq, Repr

/-- A native method on the stack, with the raw handles that it holds in local variables. -/
inductive Frame
  /-- `sqlite_open`, in `string_bytes` of the path. -/
  | opening
  | call (fn : Fn) (self : Nat) (db : Nat) (stmt : Option Nat) (phase : Phase)
  deriving DecidableEq, Repr

def Frame.self? : Frame → Option Nat
  | opening => none
  | call _ self _ _ _ => some self

/-- Whether Ruby code runs above the frame. -/
def Frame.atCode : Frame → Bool
  | opening => true
  | call _ _ _ _ phase => phase = .sql ∨ phase = .conv

structure St where
  lib : Lib := {}
  objs : List Obj := []
  stack : List Frame := []

/-- Whether Ruby code runs. -/
def St.atCode (s : St) : Bool :=
  match s.stack with
  | [] => true
  | f :: _ => f.atCode

/-! ### The methods -/

/-- What `sqlite3_open_v2` answers; when it fails it may leave a handle. -/
inductive Opened
  | ok
  | failed (handle : Bool)
  deriving DecidableEq, Repr

/-- What `sqlite3_prepare_v2` answers; the statement of SQL without a command is null. -/
inductive Prepared
  | failed
  | ok (stmt tail : Bool)
  deriving DecidableEq, Repr

/-- What `bind_param` comes to: done, a value that cannot be bound, or an error of the library. -/
inductive Bound
  | ok
  | type
  | failed
  deriving DecidableEq, Repr

/-- `sqlite_open` from the conversion of the path on. -/
def sqliteOpen (s : St) (rest : List Frame) : Opened → St
  | .ok => { s with lib := s.lib.openV2, objs := s.objs ++ [.database (some s.lib.conns)], stack := rest }
  | .failed true => { s with lib := s.lib.openV2.closeV2 s.lib.conns, stack := rest }
  | .failed false => { s with stack := rest }

/-- `db_execute` and `db_prepare` from the conversion of the SQL on, up to the binds. -/
def prepare (s : St) (fn : Fn) (self db : Nat) (rest : List Frame) : Prepared → St
  -- `err_raise` asks the connection for the message
  | .failed => { s with lib := (s.lib.useDb db).useDb db, stack := rest }
  | .ok hasStmt tail =>
    let l := s.lib.useDb db
    let stmt := if hasStmt then some l.stmts.length else none
    let l := if hasStmt then l.newStmt db else l
    -- more than one statement: finalized before the raise
    if tail then { s with lib := l.finalize stmt, stack := rest }
    else match fn with
      | .dbPrepare => { s with lib := l, objs := s.objs ++ [.statement stmt db], stack := rest }
      | _ => { s with lib := l, stack := .call fn self db stmt .bind :: rest }

/-- The end of `db_execute`, which finalizes its statement, and of `stmt_execute`, which keeps it. -/
def leave (s : St) (l : Lib) (fn : Fn) (stmt : Option Nat) (rest : List Frame) : St :=
  match fn with
  | .dbExecute => { s with lib := l.finalize stmt, stack := rest }
  | _ => { s with lib := l, stack := rest }

/-- `bind_param` of one argument. -/
def bindParam (s : St) (fn : Fn) (self db : Nat) (stmt : Option Nat) (rest : List Frame) : Bound → St
  | .ok => { s with lib := s.lib.useStmt stmt, stack := .call fn self db stmt .bind :: rest }
  | .type => leave s s.lib fn stmt rest
  | .failed => leave s ((s.lib.useStmt stmt).useDb db) fn stmt rest

/-- A row: the step, and the columns that are read. -/
def stepRow (s : St) (stmt : Option Nat) : St :=
  { s with lib := (((s.lib.useStmt stmt).setErr stmt false).useStmt stmt) }

/-- The last step. -/
def stepDone (s : St) (fn : Fn) (stmt : Option Nat) (rest : List Frame) : St :=
  leave s ((s.lib.useStmt stmt).setErr stmt false) fn stmt rest

/-- A step that fails: the message is asked for before the statement is finalized. -/
def stepFailed (s : St) (fn : Fn) (db : Nat) (stmt : Option Nat) (rest : List Frame) : St :=
  leave s (((s.lib.useStmt stmt).setErr stmt true).useDb db) fn stmt rest

/-- `stmt_execute` up to the binds. -/
def stmtExecute (s : St) (self stmt db : Nat) : St :=
  let l := (s.lib.useStmt (some stmt)).setErr (some stmt) false
  { s with lib := l.useStmt (some stmt), stack := .call .stmtExecute self db (some stmt) .bind :: s.stack }

/-- `stmt_close`: the null is written only if `sqlite3_finalize` reports no error. -/
def stmtClose (s : St) (self stmt db : Nat) : St :=
  if s.lib.lastErr stmt then { s with lib := (s.lib.finalize (some stmt)).useDb db }
  else { s with lib := s.lib.finalize (some stmt), objs := s.objs.set self (.statement none db) }

/-- `db_close`; `sqlite3_close_v2` of a connection returns `SQLITE_OK`. -/
def dbClose (s : St) (self db : Nat) : St :=
  { s with lib := s.lib.closeV2 db, objs := s.objs.set self (.database none) }

/-- `db_free` and `stmt_free`. -/
def dfree (s : St) (o : Nat) : Obj → St
  | .database (some db) => { s with lib := s.lib.closeV2 db, objs := s.objs.set o .freed }
  | .statement (some stmt) _ => { s with lib := s.lib.finalize (some stmt), objs := s.objs.set o .freed }
  | _ => { s with objs := s.objs.set o .freed }

/-! ### The machine -/

inductive Act
  | openDb
  | opened (r : Opened)
  /-- `Database.new` and `Statement.new`. -/
  | new
  | dbExecute (o : Nat)
  | dbPrepare (o : Nat)
  /-- The SQL is converted. -/
  | prepared (r : Prepared)
  | stmtExecute (o : Nat)
  /-- The next argument has a conversion that runs Ruby code. -/
  | convert
  | bind (r : Bound)
  /-- The binds are done. -/
  | run
  | row
  | done
  | failed
  | stmtColumns (o : Nat)
  /-- `changes` and `last_insert_rowid`. -/
  | dbRead (o : Nat)
  | dbClose (o : Nat)
  | stmtClose (o : Nat)
  /-- An exception of Ruby code leaves the method that called it. -/
  | raise
  | gc (o : Nat)
  deriving DecidableEq, Repr

/-- A method on a database that is open; on anything else it raises. -/
def onDb (s : St) (o : Nat) (k : Nat → St) : Option St :=
  if s.atCode then match s.objs[o]? with
    | some (.database (some db)) => some (k db)
    | some .freed => none
    | some _ => some s
    | none => none
  else none

/-- A method on a statement that is open. -/
def onStmt (s : St) (o : Nat) (k : Nat → Nat → St) : Option St :=
  if s.atCode then match s.objs[o]? with
    | some (.statement (some stmt) db) => some (k stmt db)
    | some .freed => none
    | some _ => some s
    | none => none
  else none

def step (s : St) : Act → Option St
  | .openDb => if s.atCode then some { s with stack := .opening :: s.stack } else none
  | .opened r => match s.stack with
    | .opening :: rest => some (sqliteOpen s rest r)
    | _ => none
  | .new => if s.atCode then some { s with objs := s.objs ++ [.empty] } else none
  | .dbExecute o => onDb s o fun db => { s with stack := .call .dbExecute o db none .sql :: s.stack }
  | .dbPrepare o => onDb s o fun db => { s with stack := .call .dbPrepare o db none .sql :: s.stack }
  | .prepared r => match s.stack with
    | .call fn self db _ .sql :: rest =>
      -- a closed connection that waits for its statements prepares nothing
      if db ∈ s.lib.closes ∧ r ≠ .failed then none else some (prepare s fn self db rest r)
    | _ => none
  | .stmtExecute o => onStmt s o fun stmt db => stmtExecute s o stmt db
  | .convert => match s.stack with
    | .call fn self db stmt .bind :: rest => some { s with stack := .call fn self db stmt .conv :: rest }
    | _ => none
  | .bind r => match s.stack with
    | .call fn self db stmt .bind :: rest => some (bindParam s fn self db stmt rest r)
    | .call fn self db stmt .conv :: rest => some (bindParam s fn self db stmt rest r)
    | _ => none
  | .run => match s.stack with
    | .call fn self db stmt .bind :: rest =>
      some { s with lib := s.lib.useStmt stmt, stack := .call fn self db stmt .run :: rest }
    | _ => none
  | .row => match s.stack with
    | .call _ _ _ stmt .run :: _ => some (stepRow s stmt)
    | _ => none
  | .done => match s.stack with
    | .call fn _ _ stmt .run :: rest => some (stepDone s fn stmt rest)
    | _ => none
  | .failed => match s.stack with
    | .call fn _ db stmt .run :: rest => some (stepFailed s fn db stmt rest)
    | _ => none
  | .stmtColumns o => onStmt s o fun stmt _ => { s with lib := s.lib.useStmt (some stmt) }
  | .dbRead o => onDb s o fun db => { s with lib := s.lib.useDb db }
  | .dbClose o => onDb s o fun db => dbClose s o db
  | .stmtClose o => onStmt s o fun stmt db => stmtClose s o stmt db
  | .raise => if s.atCode then some { s with stack := s.stack.tail } else none
  | .gc o =>
    -- the receiver of a method on the stack is not garbage
    if s.stack.any fun f => f.self? = some o then none
    else match s.objs[o]? with
      | some .freed => none
      | some x => some (dfree s o x)
      | none => none

end Sqlite

end Calisto

import Calisto.Lib.Machine
import Calisto.Wire.Text
import Mathlib.Logic.Function.Basic
import Mathlib.Data.List.Nodup

/-!
# The loader of a bundle

`LOADER` of `build.rb`: `load_file`, `preload` and the `require` and `require_relative` that replace those of `Kernel`.
The loader takes its steps between those of the code that it evaluates, and the code of a file may do anything:
require, raise, rescue what its requires raise, come to its end.
-/

namespace Calisto

namespace Bundle

/-- An exception, as far as the `rescue NameError` of the loader tells them apart. -/
inductive Exc
  | nameError (msg : Str)
  | other (cls msg : Str)
  deriving DecidableEq, Repr

def Exc.isNameError : Exc → Bool
  | .nameError _ => true
  | .other _ _ => false

/-- The constants of `CalistoBundle`.  Of the code of a file it matters here only whether there is one. -/
structure Maps where
  code : Str → Bool
  index : Str → Option Str
  native : Str → Bool
  autoloads : Str → List Str
  entry : Str

def Maps.embedded (B : Maps) (abs : Str) : Bool := B.native abs || B.code abs

/-- A call of `load_file` that is past its first line. -/
inductive Frame
  /-- In `preload`: `todo` is what the round has still to try, its head the target that is being loaded, and `kept`
  what it leaves for the next round. -/
  | preload (abs : Str) (todo kept : List Str) (progressed : Bool)
  /-- In `eval`. -/
  | eval (abs : Str)
  /-- In `load_native`. -/
  | native (abs : Str)
  deriving DecidableEq, Repr

def Frame.file : Frame → Str
  | preload abs _ _ _ => abs
  | eval abs => abs
  | native abs => abs

inductive Ctl
  /-- What is on top of the stack goes on: the loader in a `preload`, the code of the file in the other frames, the
  main program below them. -/
  | go
  /-- `load_file` is called. -/
  | call (abs : Str)
  /-- A call of `load_file` has returned. -/
  | ret (b : Bool)
  /-- An exception has arrived on top of the stack. -/
  | raised (e : Exc)
  deriving DecidableEq, Repr

/-- What happened to a file. -/
inductive Event
  | enter (abs : Str)
  | done (abs : Str)
  | failed (abs : Str)
  deriving DecidableEq, Repr

def Event.file : Event → Str
  | enter abs => abs
  | done abs => abs
  | failed abs => abs

/-- The state of a bundle that runs; `hist` is what happened so far, the last first. -/
structure St where
  loading : Str → Bool := fun _ => false
  loaded : Str → Bool := fun _ => false
  stack : List Frame := []
  ctl : Ctl
  hist : List Event := []

/-- The files whose `load_file` is on the stack. -/
def St.files (s : St) : List Str := s.stack.map Frame.file

/-- `CalistoBundle.run`. -/
def start (B : Maps) : St := { ctl := .call B.entry }

/-! ### The loader -/

def loadError (abs : Str) : Exc := .other "LoadError".toList ("cannot load such file -- ".toList ++ abs)

/-- `load_file` up to the `begin` of its last part. -/
def loadFile (B : Maps) (s : St) (abs : Str) : St :=
  if s.loaded abs || s.loading abs then { s with ctl := .ret false }
  else if B.native abs then
    { s with
      loading := Function.update s.loading abs true, stack := .native abs :: s.stack, ctl := .go,
      hist := .enter abs :: s.hist }
  else if !B.code abs then { s with ctl := .raised (loadError abs), hist := .failed abs :: s.hist }
  else
    { s with
      loading := Function.update s.loading abs true
      stack := .preload abs (B.autoloads abs) [] false :: s.stack, ctl := .go, hist := .enter abs :: s.hist }

/-- `preload` goes on: to the next target, to the next round, or out of the loop. -/
def preloadNext (s : St) (abs : Str) (todo kept : List Str) (progressed : Bool) (rest : List Frame) : St :=
  match todo with
  | t :: _ => { s with ctl := .call t }
  | [] =>
    if kept.isEmpty || !progressed then { s with stack := .eval abs :: rest }
    else { s with stack := .preload abs kept [] false :: rest }

/-- The end of `load_file`, after the code of the file has come to its own. -/
def finish (s : St) (abs : Str) (rest : List Frame) : St :=
  { s with
    loading := Function.update s.loading abs false, loaded := Function.update s.loaded abs true, stack := rest
    ctl := .ret true, hist := .done abs :: s.hist }

/-- The `ensure` of `load_file`, with an exception that leaves it. -/
def unwind (s : St) (abs : Str) (e : Exc) (rest : List Frame) : St :=
  { s with
    loading := Function.update s.loading abs false, stack := rest, ctl := .raised e, hist := .failed abs :: s.hist }

/-- An exception that leaves `preload` leaves `load_file` from outside of its `begin`. -/
def unwindPreload (s : St) (abs : Str) (e : Exc) (rest : List Frame) : St :=
  { s with stack := rest, ctl := .raised e, hist := .failed abs :: s.hist }

/-- The step of the loader: a call, what becomes of its result, or the next turn of `preload`. -/
def loaderStep (B : Maps) (s : St) : Option St :=
  match s.ctl, s.stack with
  | .call abs, _ => some (loadFile B s abs)
  | .go, .preload abs todo kept progressed :: rest => some (preloadNext s abs todo kept progressed rest)
  | .go, _ => none
  | .ret _, .preload abs todo kept _ :: rest =>
    some { s with stack := .preload abs todo.tail kept true :: rest, ctl := .go }
  | .ret _, _ => some { s with ctl := .go }
  | .raised e, .preload abs todo kept progressed :: rest =>
    if e.isNameError then
      some { s with stack := .preload abs todo.tail (kept ++ todo.take 1) progressed :: rest, ctl := .go }
    else some (unwindPreload s abs e rest)
  | .raised e, .eval abs :: rest => some (unwind s abs e rest)
  | .raised e, .native abs :: rest => some (unwind s abs e rest)
  | .raised _, [] => none

/-! ### The code of the files -/

inductive Act
  /-- The loader, or the way of an exception through code that does not rescue it. -/
  | loader
  | require (path : Str)
  /-- With the path that `File.expand_path` makes of the argument. -/
  | requireRelative (abs : Str)
  | raise (e : Exc)
  | rescue
  | finish
  deriving DecidableEq, Repr

/-- Whether the code of a file, or the main program, is on top of the stack. -/
def St.atCode (s : St) : Bool :=
  match s.stack with
  | .preload .. :: _ => false
  | _ => true

/-- `Kernel#require`; what the original one runs is code like any other. -/
def require (B : Maps) (s : St) (path : Str) : St :=
  match B.index path with
  | some abs => { s with ctl := .call abs }
  | none => s

/-- `Kernel#require_relative`. -/
def requireRelative (B : Maps) (s : St) (abs : Str) : St :=
  if B.code abs then { s with ctl := .call abs }
  else if B.code (abs ++ ".rb".toList) then { s with ctl := .call (abs ++ ".rb".toList) }
  else s

/-- Code that rescues what has arrived. -/
def rescueStep (s : St) : Option St :=
  match s.ctl with
  | .raised _ => if s.atCode then some { s with ctl := .go } else none
  | _ => none

/-- The code of a file comes to its end. -/
def finishStep (s : St) : Option St :=
  match s.ctl, s.stack with
  | .go, .eval abs :: rest => some (finish s abs rest)
  | .go, .native abs :: rest => some (finish s abs rest)
  | _, _ => none

def step (B : Maps) (s : St) : Act → Option St
  | .loader => loaderStep B s
  | .require path => if s.ctl = .go ∧ s.atCode then some (require B s path) else none
  | .requireRelative abs => if s.ctl = .go ∧ s.atCode then some (requireRelative B s abs) else none
  | .raise e => if s.ctl = .go ∧ s.atCode then some { s with ctl := .raised e } else none
  | .rescue => rescueStep s
  | .finish => finishStep s

end Bundle

end Calisto

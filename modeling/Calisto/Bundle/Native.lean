import Calisto.Lib.Base64
import Calisto.Lib.Machine
import Calisto.Wire.Text
import Mathlib.Data.List.DropRight
import Mathlib.Logic.Function.Basic

/-!
# The native extensions of a bundle

`load_native` of `build.rb`, in runs of bundles that share the directory of temporary files: each run extracts what it
has embedded under a name made from the path, unless a file of that name is there, and requires that file.
-/

namespace Calisto

namespace Native

/-! ### `b64decode` -/

def b64decodeFrom : Str → Bytes → Nat → Nat → Option Bytes
  | [], out, _, _ => some out
  | c :: s, out, buf, bits =>
    if c = '=' ∨ c = '\n' then b64decodeFrom s out buf bits
    else match Base64.value c with
      | none => none
      | some v =>
        let buf := ((buf <<< 6) ||| v) &&& 0x3fffffff
        let bits := bits + 6
        if bits ≥ 8 then b64decodeFrom s (out ++ [UInt8.ofNat ((buf >>> (bits - 8)) &&& 0xff)]) buf (bits - 8)
        else b64decodeFrom s out buf bits

/-- `b64decode`; `none` is its `raise`. -/
def b64decode (s : Str) : Option Bytes := b64decodeFrom s [] 0 0

/-! ### The name of the file -/

/-- `File.join` of two names. -/
def fileJoin (a b : Str) : Str :=
  if b.head? = some '/' then a.rdropWhile (· = '/') ++ b
  else if a.getLast? = some '/' then a ++ b
  else a ++ '/' :: b

/-- `File.basename`. -/
def basename (abs : Str) : Str :=
  let name := abs.rdropWhile (· = '/')
  if name = [] then abs.take 1 else name.rtakeWhile (· ≠ '/')

/-- `abs.tr("/.", "__")`. -/
def sanitize (abs : Str) : Str := abs.map fun c => if c = '/' ∨ c = '.' then '_' else c

/-- The directory of temporary files, from `ENV["TMPDIR"]`. -/
def tmpdir : Option Str → Str
  | none => "/tmp".toList
  | some tmp => if tmp = [] then "/tmp".toList else tmp

/-- `out`: the name of the extracted file. -/
def cachePath (tmpEnv : Option Str) (abs : Str) : Str :=
  let base := fileJoin (tmpdir tmpEnv) "calisto-native".toList
  let dir := fileJoin base (sanitize abs)
  fileJoin dir (basename abs)

/-! ### The runs -/

/-- Where a run is in `load_native`. -/
inductive Pc
  /-- In the code of the bundle. -/
  | user
  /-- Before `File.file?(out)`; an error of `Dir.mkdir` is a `fail` here. -/
  | check (abs : Str)
  /-- Before the `open` of `File.binwrite`, which creates the file or empties it. -/
  | openOut (abs : Str)
  /-- In `File.binwrite`, with `off` bytes of `data` written. -/
  | write (abs : Str) (data : Bytes) (off : Nat)
  /-- Before `require out`. -/
  | require (abs : Str)
  | gone
  deriving DecidableEq

/-- A process that runs a bundle, with the bytes that were embedded for each path. -/
structure Run where
  embedded : Str → Option Bytes
  pc : Pc := .user

/-- `NATIVE[abs]`: what `[data].pack("m0")` put into the bundle. -/
def Run.native (r : Run) (abs : Str) : Option Str := (r.embedded abs).map Base64.encode

/-- A `require out`: the file as it was then. -/
structure Required where
  run : Nat
  abs : Str
  file : Option Bytes
  embedded : Option Bytes
  deriving DecidableEq

structure St where
  files : Str → Option Bytes := fun _ => none
  runs : List Run := []
  required : List Required := []

inductive Act
  | start (embedded : Str → Option Bytes)
  /-- The process ends or is killed. -/
  | exit (i : Nat)
  /-- `load_file` calls `load_native`. -/
  | load (i : Nat) (abs : Str)
  | check (i : Nat)
  | openOut (i : Nat)
  /-- At most `n` bytes are written. -/
  | write (i n : Nat)
  | close (i : Nat)
  | require (i : Nat)
  /-- An exception leaves `load_native`. -/
  | fail (i : Nat)

/-- Bytes written at a place of a file; a hole before it is zeros. -/
def pwrite (file : Bytes) (off : Nat) (bytes : Bytes) : Bytes :=
  file.take off ++ List.replicate (off - file.length) 0 ++ bytes ++ file.drop (off + bytes.length)

def St.setPc (s : St) (i : Nat) (r : Run) (pc : Pc) : St := { s with runs := s.runs.set i { r with pc := pc } }

def St.setFile (s : St) (path : Str) (bytes : Bytes) : St :=
  { s with files := Function.update s.files path (some bytes) }

/-- A step of the run `r`, which is the `i`-th one. -/
def runStep (tmpEnv : Option Str) (s : St) (i : Nat) (r : Run) : Act → Option St
  | .exit _ => some (s.setPc i r .gone)
  | .load _ abs => if r.pc = .user ∧ (r.native abs).isSome then some (s.setPc i r (.check abs)) else none
  | .check _ => match r.pc with
    | .check abs =>
      if (s.files (cachePath tmpEnv abs)).isSome then some (s.setPc i r (.require abs))
      else some (s.setPc i r (.openOut abs))
    | _ => none
  | .openOut _ => match r.pc with
    | .openOut abs => match (r.native abs).bind b64decode with
      | some data => some ((s.setFile (cachePath tmpEnv abs) []).setPc i r (.write abs data 0))
      | none => some (s.setPc i r .user)
    | _ => none
  | .write _ n => match r.pc with
    | .write abs data off =>
      let chunk := (data.drop off).take n
      let file := (s.files (cachePath tmpEnv abs)).getD []
      some ((s.setFile (cachePath tmpEnv abs) (pwrite file off chunk)).setPc i r (.write abs data (off + chunk.length)))
    | _ => none
  | .close _ => match r.pc with
    | .write abs data off => if off = data.length then some (s.setPc i r (.require abs)) else none
    | _ => none
  | .require _ => match r.pc with
    | .require abs =>
      some { s.setPc i r .user with
        required := ⟨i, abs, s.files (cachePath tmpEnv abs), r.embedded abs⟩ :: s.required }
    | _ => none
  | .fail _ => if r.pc = .user ∨ r.pc = .gone then none else some (s.setPc i r .user)
  | .start _ => none

/-- The run that takes a step. -/
def Act.run? : Act → Option Nat
  | .start _ => none
  | .exit i | .load i _ | .check i | .openOut i | .write i _ | .close i | .require i | .fail i => some i

def step (tmpEnv : Option Str) (s : St) (a : Act) : Option St :=
  match a with
  | .start embedded => some { s with runs := s.runs ++ [{ embedded := embedded }] }
  | a => a.run?.bind fun i => (s.runs[i]?).bind fun r => runStep tmpEnv s i r a

end Native

end Calisto

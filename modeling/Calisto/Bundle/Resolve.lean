import Calisto.Wire.Text
import Mathlib.Data.List.DropRight

/-!
# The files that static names stand for

`resolve_relative`, `resolve_require` and `gem_origin` of `build.rb`, over the functions of Ruby's `File` that they
call.
-/

namespace Calisto

namespace Build

/-- The exceptions of `File`. -/
inductive Exc
  | argumentError
  | enoent (path : Str)
  deriving DecidableEq, Repr

/-! ### `File` -/

/-- An absolute path: how many slashes it begins with, and the names behind them. -/
structure AbsPath where
  slashes : Nat
  names : List Str
  deriving DecidableEq, Repr

def AbsPath.text (p : AbsPath) : Str := List.replicate p.slashes '/' ++ List.intercalate ['/'] p.names

/-- The working directory and the home directories, that of the current user under the empty name. -/
structure Env where
  cwd : AbsPath
  home : Str → Option AbsPath

def nul : Char := Char.ofNat 0

/-- One more name. -/
def enter (names : List Str) (name : Str) : List Str :=
  if name = [] ∨ name = ['.'] then names
  else if name = ['.', '.'] then names.dropLast
  else names ++ [name]

/-- The path below another one. -/
def AbsPath.below (p : AbsPath) (path : Str) : AbsPath := ⟨p.slashes, (path.splitOn '/').foldl enter p.names⟩

/-- A path that is relative to `base`, if it is neither absolute nor below a home directory. -/
def expandFrom (env : Env) (base : Except Exc AbsPath) (path : Str) : Except Exc AbsPath :=
  if path.contains nul then .error .argumentError
  else match path with
    | '/' :: _ => .ok (AbsPath.below ⟨(path.takeWhile (· = '/')).length, []⟩ path)
    | '~' :: rest =>
      let user := rest.takeWhile (· ≠ '/')
      match env.home user with
      | some home => .ok (home.below (rest.drop user.length))
      | none => .error .argumentError
    | _ => base.map (·.below path)

/-- `File.expand_path`: the directory is expanded before it is needed, but only a NUL in it is an error then. -/
def expandPath (env : Env) (path : Str) (dir : Option Str) : Except Exc AbsPath :=
  match dir with
  | none => expandFrom env (.ok env.cwd) path
  | some dir =>
    if dir.contains nul then .error .argumentError
    else expandFrom env (expandFrom env (.ok env.cwd) dir) path

/-- `File.dirname` of an expanded path, of whose leading slashes one is left. -/
def AbsPath.dirname (p : AbsPath) : AbsPath := ⟨1, p.names.dropLast⟩

/-- `File.extname`: what begins with the last dot of the last name, leading dots apart. -/
def extname (path : Str) : Str :=
  let name := (path.rtakeWhile (· ≠ '/')).dropWhile (· = '.')
  if name.contains '.' then '.' :: name.rtakeWhile (· ≠ '.') else []

/-! ### The files of a project -/

/-- The files, by the paths that name them. -/
abbrev Fs := List (Str × Bytes)

/-- `File.file?`. -/
def isFile (fs : Fs) (path : Str) : Bool := (fs.lookup path).isSome

/-- `File.read`. -/
def read (fs : Fs) (path : Str) : Except Exc Bytes :=
  match fs.lookup path with
  | some bytes => .ok bytes
  | none => .error (.enoent path)

def resolveRelative (env : Env) (fs : Fs) (ident file : Str) : Except Exc (Option Str) := do
  let base := (← expandPath env file none).dirname.text
  let exact ← expandPath env ident (some base)
  let rb ← expandPath env (ident ++ ".rb".toList) (some base)
  return [exact.text, rb.text].find? (isFile fs)

/-- The candidates of one directory, in the order of Ruby's `require`. -/
def candidates (env : Env) (ident lp : Str) : Except Exc (List Str) := do
  let exact ← expandPath env ident (some lp)
  let rb ← expandPath env (ident ++ ".rb".toList) (some lp)
  let so ← expandPath env (ident ++ ".so".toList) (some lp)
  let bundle ← expandPath env (ident ++ ".bundle".toList) (some lp)
  return [exact.text, rb.text, so.text, bundle.text]

def resolveRequire (env : Env) (fs : Fs) (ident : Str) (loadPath : List Str) : Except Exc (Option Str) := do
  let cands ← loadPath.mapM (candidates env ident)
  return cands.flatten.find? (isFile fs)

/-- What `gem_origin` answers: the name of the gem and whether it has a C extension, `:project` or `:stdlib`. -/
inductive Origin
  | gem (name : Str) (cExt : Bool)
  | project
  | stdlib
  deriving DecidableEq, Repr

/-- An entry of `gem_path_map`. -/
structure GemPath where
  path : Str
  name : Str
  cExt : Bool

/-- Is the path below the directory? -/
def below (dir path : Str) : Bool := (dir ++ ['/']).isPrefixOf path

/-- `gem_origin`: the directories of the gems come first, since they may be inside of the root. -/
def gemOrigin (path root : Str) (gemPathMap : List GemPath) : Origin :=
  match gemPathMap.find? fun gem => below gem.path path with
  | some gem => .gem gem.name gem.cExt
  | none => if below root path then .project else .stdlib

end Build

end Calisto

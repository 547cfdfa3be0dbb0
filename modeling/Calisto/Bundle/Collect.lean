import Calisto.Bundle.EndMarker
import Calisto.Bundle.Loader
import Calisto.Bundle.Native
import Calisto.Bundle.Resolve

/-!
# The collection of a bundle

The part of `build.rb` that collects the files, from the entry along the static names that it finds in them, and what it
generates from them.  What Ripper makes of a text, the tokens and the static names, is given.
-/

namespace Calisto

namespace Build

open EndMarker (Encoding Token splitEndMarker)

inductive Kind
  | require
  | requireRelative
  | autoload
  deriving DecidableEq, Repr

/-- A gem of the lockfile: its version, and what its directories have by the name of a `.so` or a `.bundle`. -/
structure Spec where
  version : Str
  globbed : List Str

/-- What a build is given. -/
structure Project where
  env : Env
  fs : Fs
  entry : Str
  root : Str
  /-- `$LOAD_PATH`. -/
  libPath : List Str := []
  /-- `gem_paths` and `gem_specs`, which are empty without `--compile`. -/
  gemPaths : List GemPath := []
  gemSpecs : Str → Option Spec := fun _ => none
  /-- What `walk_requires` finds in a text. -/
  requires : Bytes → List (Kind × Str)
  lex : Bytes → List Token := fun _ => []
  /-- The encoding of the texts that are read. -/
  encoding : Encoding := .utf8
  /-- `build.rb` aborts without it. -/
  entry_isFile : isFile fs entry = true

inductive Warning
  /-- `nao resolvido em`. -/
  | unresolved (kind : Kind) (ident file : Str)
  /-- `nao embutido`. -/
  | asset (gem basename : Str)
  deriving DecidableEq, Repr

/-- The variables of the collection. -/
structure Collection where
  files : List Str := []
  index : Str → Option Str := fun _ => none
  warnings : List Warning := []
  embeddedGems : List (Str × Str) := []
  native : List (Str × Bytes) := []
  nativeGems : List Str := []
  autoloadMap : Str → List Str := fun _ => []
  queue : List Str

/-- Does the hash have the key? -/
def hasKey {β : Type} (hash : List (Str × β)) (key : Str) : Bool := hash.any fun entry => entry.1 == key

/-- `hash[key] = value`. -/
def store {β : Type} (hash : List (Str × β)) (key : Str) (value : β) : List (Str × β) :=
  if hasKey hash key then hash.map fun entry => if entry.1 = key then (key, value) else entry
  else hash ++ [(key, value)]

/-- `hash[key] ||= value`, where no value is false. -/
def storeNew {β : Type} (hash : List (Str × β)) (key : Str) (value : β) : List (Str × β) :=
  if hasKey hash key then hash else hash ++ [(key, value)]

variable (P : Project)

def Project.loadPath : List Str := P.root :: P.gemPaths.map GemPath.path ++ P.libPath

/-- What a static name of a file resolves to. -/
def Project.resolve (kind : Kind) (ident file : Str) : Except Exc (Option Str) :=
  match kind with
  | .requireRelative => resolveRelative P.env P.fs ident file
  | .require | .autoload => resolveRequire P.env P.fs ident P.loadPath

def Project.origin (path : Str) : Origin := gemOrigin path P.root P.gemPaths

/-- `index[ident] = resolved unless kind == :require_relative`. -/
def Collection.indexed (c : Collection) (kind : Kind) (ident resolved : Str) : Collection :=
  if kind = .requireRelative then c else { c with index := Function.update c.index ident (some resolved) }

/-- `(autoload_map[file] ||= []) << resolved if kind == :autoload`. -/
def Collection.autoloaded (c : Collection) (kind : Kind) (file resolved : Str) : Collection :=
  if kind = .autoload then
    { c with autoloadMap := Function.update c.autoloadMap file (c.autoloadMap file ++ [resolved]) }
  else c

/-- `queue << resolved unless files[resolved]`. -/
def Collection.queued (c : Collection) (resolved : Str) : Collection :=
  if c.files.contains resolved then c else { c with queue := c.queue ++ [resolved] }

/-- `native_gems[name] = true`. -/
def Collection.nativeGem (c : Collection) (name : Str) : Collection :=
  if c.nativeGems.contains name then c else { c with nativeGems := c.nativeGems ++ [name] }

def isNativeExt (ext : Str) : Bool := ext == ".so".toList || ext == ".bundle".toList

/-- What a file that belongs to a gem becomes. -/
def Project.collectGem (c : Collection) (kind : Kind) (ident file resolved name : Str) : Except Exc Collection :=
  if isNativeExt (extname resolved) then do
    let bytes ← read P.fs resolved
    return ({ c with native := store c.native resolved bytes }.nativeGem name).indexed kind ident resolved
  else if extname resolved = ".rb".toList then
    let version := match P.gemSpecs name with
      | some spec => spec.version
      | none => []
    return ((({ c with embeddedGems := storeNew c.embeddedGems name version }.nativeGem name).indexed kind ident
      resolved).autoloaded kind file resolved).queued resolved
  else
    return { c with warnings := c.warnings ++ [.asset name (Native.basename resolved)] }

/-- The body of `requires.each`. -/
def Project.collectName (file : Str) (c : Collection) (name : Kind × Str) : Except Exc Collection := do
  match ← P.resolve name.1 name.2 file with
  | none => return { c with warnings := c.warnings ++ [.unresolved name.1 name.2 file] }
  | some resolved =>
    match P.origin resolved with
    | .stdlib => return c
    | .gem gem _ => P.collectGem c name.1 name.2 file resolved gem
    | .project => return ((c.indexed name.1 name.2 resolved).autoloaded name.1 file resolved).queued resolved

/-- The body of `until queue.empty?`. -/
def Project.turn (c : Collection) : Except Exc Collection :=
  match c.queue with
  | [] => .ok c
  | file :: queue =>
    if c.files.contains file then .ok { c with queue := queue }
    else do
      let src ← read P.fs file
      (P.requires src).foldlM (P.collectName file) { c with queue := queue, files := c.files ++ [file] }

/-- So many turns of `until queue.empty?`; `none` if they are not enough. -/
def Project.loop : Nat → Collection → Option (Except Exc Collection)
  | 0, c => if c.queue = [] then some (.ok c) else none
  | n + 1, c =>
    if c.queue = [] then some (.ok c)
    else match P.turn c with
      | .error e => some (.error e)
      | .ok c => loop n c

def Project.start : Collection := { queue := [P.entry] }

/-! ### After the search -/

/-- `gem_native_files`. -/
def Project.gemNativeFiles (spec : Spec) : List Str := (spec.globbed.filter (isFile P.fs)).eraseDups

/-- `native_gems.each_key`: `native[f] ||= File.binread(f)` for the files of the gems that were reached. -/
def Project.nativeFiles (c : Collection) : List (Str × Bytes) :=
  let files := c.nativeGems.flatMap fun name => match P.gemSpecs name with
    | some spec => P.gemNativeFiles spec
    | none => []
  files.foldl (fun native f => match P.fs.lookup f with
    | some bytes => storeNew native f bytes
    | none => native) c.native

/-- `sub(/\.(so|bundle)\z/, "")`. -/
def withoutExt (rel : Str) : Str :=
  if ".so".toList.isSuffixOf rel then rel.take (rel.length - 3)
  else if ".bundle".toList.isSuffixOf rel then rel.take (rel.length - 7)
  else rel

/-- `native.each_key`: the names below the directories of the gems. -/
def Project.nativeIndex (native : List (Str × Bytes)) (index : Str → Option Str) : Str → Option Str :=
  native.foldl (fun index entry => match P.gemPaths.find? fun gem => below gem.path entry.1 with
    | some gem =>
      let rel := withoutExt (entry.1.drop (gem.path.length + 1))
      if (index rel).isSome then index else Function.update index rel (some entry.1)
    | none => index) index

/-- The globals of the file that is written. -/
structure Globals where
  code : Str → Option Bytes
  index : Str → Option Str
  /-- With the base64 of the bytes. -/
  native : List (Str × Str)
  autoloads : Str → List Str
  entry : Str
  data : Option Bytes

/-- `split_end_marker(File.read(f))`; the files have all been read before. -/
def Project.split (f : Str) : Option (Bytes × Option Bytes) := (P.fs.lookup f).map (splitEndMarker P.encoding P.lex)

def Project.generate (c : Collection) : Globals where
  code f := if c.files.contains f then (P.split f).map (·.1) else none
  index := P.nativeIndex (P.nativeFiles c) c.index
  native := (P.nativeFiles c).map fun entry => (entry.1, Base64.encode entry.2)
  autoloads := c.autoloadMap
  entry := P.entry
  data := (P.split P.entry).bind (·.2)

/-- What the loader sees of them. -/
def Globals.maps (g : Globals) : Bundle.Maps where
  code abs := (g.code abs).isSome
  index := g.index
  native := hasKey g.native
  autoloads := g.autoloads
  entry := g.entry

end Build

end Calisto

import Calisto.Wire.Text

/-!
# The preload string of an invocation

What `cmd_run` passes to `connect_or_spawn_daemon` as `preload`: the value of `--preload`, or else `run_preload`,
which looks for a Gemfile from the working directory upwards and only then at `CALISTO_PRELOAD`.  The environment is
the one after `load_dotenv`.  `bootRequires` is how the daemon reads the string at its boot.
-/

namespace Calisto.Runtime

/-- An absolute path, innermost component first. -/
abbrev Path := List Str

def defaultPreload : Str :=
  "json,erb,pathname,fileutils,time,date,digest,base64,ostruct,set,stringio,logger,socket".toList

def normalizePreload (v : Str) : Str := if v = "0".toList ∨ v = "none".toList then [] else v

/-- The loop of `find_in_parents_from`, from `base` to the root. -/
def findInParentsFrom (isFile : Path → Bool) (name : Str) : Path → Option Path
  | [] => if isFile [name] then some [name] else none
  | c :: dir =>
    if isFile (name :: c :: dir) then some (name :: c :: dir) else findInParentsFrom isFile name dir

/-- A `calisto run` as far as its preload string depends on it. -/
structure Invocation where
  /-- the value of `--preload` -/
  preloadOpt : Option Str
  /-- the `CALISTO_PRELOAD` of its environment, if set and UTF-8 -/
  envPreload : Option Str
  /-- is `BUNDLE_GEMFILE` set? -/
  bundleGemfile : Bool
  currentDir : Option Path
  isFile : Path → Bool
  /-- does the `calisto.toml` above the working directory give the app a daemon of its own? -/
  appDaemon : Bool

def hasGemfileFrom (inv : Invocation) (base : Path) : Bool :=
  inv.bundleGemfile || (findInParentsFrom inv.isFile "Gemfile".toList base).isSome ||
    (findInParentsFrom inv.isFile "gems.rb".toList base).isSome

def hasGemfile (inv : Invocation) : Bool :=
  match inv.currentDir with
  | none => false
  | some cwd => hasGemfileFrom inv cwd

def runPreload (inv : Invocation) : Str :=
  if inv.appDaemon then []
  else if hasGemfile inv then []
  else match inv.envPreload with
    | none => defaultPreload
    | some v => normalizePreload v

/-- The `preload` of `cmd_run`. -/
def Invocation.preload (inv : Invocation) : Str :=
  match inv.preloadOpt with
  | some v => normalizePreload v
  | none => runPreload inv

/-- Outside any project, with neither variable set. -/
def bareRun : Invocation :=
  { preloadOpt := none, envPreload := none, bundleGemfile := false, currentDir := some [], isFile := fun _ => false,
    appDaemon := false }

/-! ### The daemon's side -/

/-- `char::is_whitespace`. -/
def isWhitespace (c : Char) : Bool :=
  (0x9 ≤ c.toNat && c.toNat ≤ 0xD) || c.toNat = 0x20 || c.toNat = 0x85 || c.toNat = 0xA0 || c.toNat = 0x1680 ||
    (0x2000 ≤ c.toNat && c.toNat ≤ 0x200A) || c.toNat = 0x2028 || c.toNat = 0x2029 || c.toNat = 0x202F ||
    c.toNat = 0x205F || c.toNat = 0x3000

/-- `str::trim`. -/
def trim (s : Str) : Str := ((s.dropWhile isWhitespace).reverse.dropWhile isWhitespace).reverse

/-- The libraries that `daemon_main` requires for its `CALISTO_PRELOAD`. -/
def bootRequires (preload : Str) : List Str := ((preload.splitOn ',').map trim).filter fun name => name ≠ []

@[simp] theorem bootRequires_nil : bootRequires [] = [] := by decide

/-! ### Searching the parents -/

/-- The search succeeds exactly when the base or a directory above it has a file of that name. -/
theorem findInParentsFrom_isSome {isFile : Path → Bool} {name : Str} {base : Path} :
    (findInParentsFrom isFile name base).isSome ↔ ∃ dir, dir <:+ base ∧ isFile (name :: dir) := by
  induction base with
  | nil =>
    unfold findInParentsFrom
    constructor
    · intro h
      exact ⟨[], List.suffix_rfl, by by_contra hf; simp [hf] at h⟩
    · rintro ⟨dir, hd, hf⟩
      rw [List.suffix_nil.1 hd] at hf
      simp [hf]
  | cons c base ih =>
    unfold findInParentsFrom
    by_cases hc : isFile (name :: c :: base)
    · simp only [hc, ↓reduceIte, Option.isSome_some, true_iff]
      exact ⟨c :: base, List.suffix_rfl, hc⟩
    · rw [if_neg hc, ih]
      constructor
      · rintro ⟨dir, hd, hf⟩
        exact ⟨dir, hd.trans (List.suffix_cons c base), hf⟩
      · rintro ⟨dir, hd, hf⟩
        rcases List.suffix_cons_iff.1 hd with rfl | hd
        · exact absurd hf hc
        · exact ⟨dir, hd, hf⟩

/-- In or below a directory with a Gemfile the preload string is empty, unless `--preload` says otherwise. -/
theorem preload_of_gemfile {inv : Invocation} {cwd dir : Path} (hopt : inv.preloadOpt = none)
    (hcwd : inv.currentDir = some cwd) (hdir : dir <:+ cwd)
    (hfile : inv.isFile ("Gemfile".toList :: dir) ∨ inv.isFile ("gems.rb".toList :: dir)) : inv.preload = [] := by
  have hg : hasGemfile inv := by
    simp only [hasGemfile, hcwd, hasGemfileFrom, Bool.or_eq_true, findInParentsFrom_isSome]
    rcases hfile with hf | hf
    · exact .inl (.inr ⟨dir, hdir, hf⟩)
    · exact .inr ⟨dir, hdir, hf⟩
  simp [Invocation.preload, hopt, runPreload, hg]

end Calisto.Runtime

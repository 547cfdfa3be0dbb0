import Calisto.App.Dotenv
import Calisto.App.RuntimeDir
import Calisto.Wire.Framing

/-!
# The ruby of a command

`resolve_ruby` chooses the ruby of a command: `CALISTO_RUBY` if it is a file, or else the version that the nearest
`.ruby-version` or the Gemfile asks for, or else the pinned one.  A version that is asked for is never replaced by
another one, and two commands on one installation have one daemon exactly if they have one ruby
(`one_daemon_for_each_ruby`).
-/

namespace Calisto.Runtime

open Calisto.App (Env lines pinnedRuby toStr rubyVersionOf daemonDirFor AppConfig appKey saltVersion appKey_eq)
open UnixPath (PathBuf Component slash components join names)

/-! ### The code -/

/-- What a command sees of its process and of the file system; `readToString` fails on what is not UTF-8, too. -/
structure Site where
  env : Env
  currentExe : Option Path
  currentDir : Option Path
  isFile : PathBuf → Bool
  isDir : PathBuf → Bool
  readToString : PathBuf → Option Str

/-- An absolute path as it is written. -/
def bufOf (p : Path) : PathBuf := p.foldr (fun name dir => join dir (utf8 name)) [slash]

/-- `env::var`, without what is not UTF-8. -/
def Site.var (s : Site) (k : String) : Option Str := (s.env (utf8 k.toList)).bind toStr

/-- `find_in_parents`. -/
def Site.findInParents (s : Site) (name : Str) : Option PathBuf :=
  (s.currentDir.bind (findInParentsFrom (fun p => s.isFile (bufOf p)) name)).map bufOf

/-- The last resort of `vendor_root`. -/
def Site.relativeVendor (s : Site) : Option PathBuf :=
  if s.isDir (utf8 "vendor".toList) then some (utf8 "vendor".toList) else none

/-- `vendor_root`. -/
def Site.vendorRoot (s : Site) : Option PathBuf :=
  match s.var "CALISTO_HOME" with
  | some (c :: home) => some (join (utf8 (c :: home)) (utf8 "vendor".toList))
  | _ =>
    match s.currentExe with
    | none => none
    | some exe =>
      -- the search from the directory of the executable on, as `find_in_parents_from` makes it for files
      match exe.tail? with
      | none => s.relativeVendor
      | some dir =>
        match findInParentsFrom (fun p => s.isDir (bufOf p)) "vendor".toList dir with
        | some vendor => some (bufOf vendor)
        | none => s.relativeVendor

/-- `ruby-{version}/bin/ruby`. -/
def rubyIn (version : Str) : PathBuf := utf8 ("ruby-".toList ++ version ++ "/bin/ruby".toList)

/-- `vendor_ruby`. -/
def Site.vendorRuby (s : Site) (version : Str) : Option PathBuf :=
  match s.vendorRoot with
  | none => none
  | some vendor =>
    let cand := join vendor (rubyIn version)
    if s.isFile cand then some cand else none

/-- `str::trim_start_matches`: no text begins more often with `p` than it has characters. -/
def trimStartMatches (p s : Str) : Str := Nat.iterate (fun t => (stripPrefix p t).getD t) s.length s

/-- `ruby_version_from_file`. -/
def Site.rubyVersionFromFile (s : Site) (file : PathBuf) : Option Str := do
  let content ← s.readToString file
  let line ← (lines content).head?
  let v := trim (trimStartMatches "ruby-".toList (trim line))
  if v ≠ [] then some v else none

/-- The text in front of the next `q`, after a `q`. -/
def quotedBy (q : Char) (s : Str) : Option Str := (stripPrefix [q] s).map (·.takeWhile (· ≠ q))

/-- `Path::parent`, written with its components. -/
def parentBuf (p : PathBuf) : Option PathBuf :=
  (UnixPath.parent (components p)).map UnixPath.write

/-- The loop of `ruby_version_from_gemfile`. -/
def Site.gemfileLoop (s : Site) (file : PathBuf) : List Str → Option Str
  | [] => none
  | line :: rest =>
    match stripPrefix "ruby".toList (trim line) with
    | none => s.gemfileLoop file rest
    | some arg =>
      let arg := arg.dropWhile isWhitespace
      let quoted := ((quotedBy '"' arg).or (quotedBy '\'' arg)).getD []
      if quoted.head?.any Char.isDigit then some quoted
      else
        match (stripPrefix "file:".toList arg).bind fun name => quotedBy '"' (trim name) with
        | some name => (parentBuf file).bind fun dir => s.rubyVersionFromFile (join dir (utf8 name))
        | none => s.gemfileLoop file rest

/-- `ruby_version_from_gemfile`. -/
def Site.rubyVersionFromGemfile (s : Site) (file : PathBuf) : Option Str :=
  (s.readToString file).bind fun content => s.gemfileLoop file (lines content)

/-- The `CALISTO_RUBY` of the command, if it is a file. -/
def Site.override (s : Site) : Option PathBuf :=
  (s.var "CALISTO_RUBY").bind fun p => if s.isFile (utf8 p) then some (utf8 p) else none

/-- The nearest `.ruby-version` and the version in it. -/
def Site.versionFile (s : Site) : Option (PathBuf × Str) :=
  (s.findInParents ".ruby-version".toList).bind fun file => (s.rubyVersionFromFile file).map (file, ·)

/-- The version that the Gemfile asks for. -/
def Site.gemfileVersion (s : Site) : Option Str :=
  ((s.env (utf8 "BUNDLE_GEMFILE".toList)).or (s.findInParents "Gemfile".toList)).bind s.rubyVersionFromGemfile

/-- What `resolve_ruby` says of a version that is not there, and where it was asked for. -/
def notInstalled (want place : Str) : Str :=
  "calisto: ruby ".toList ++ want ++ " pedido ".toList ++ place ++ " nao esta instalado (vendor/ruby-".toList ++ want ++
    " ausente); rode RUBY_VERSION=".toList ++ want ++ " scripts/build-ruby.sh".toList

/-- `resolve_ruby` where no version is asked for. -/
def Site.defaultRuby (s : Site) : PathBuf :=
  match s.vendorRuby pinnedRuby with
  | some ruby => ruby
  | none =>
    match s.vendorRoot with
    | none => utf8 "ruby".toList
    | some r =>
      let cand := join r (utf8 "current/bin/ruby".toList)
      if s.isFile cand then cand else utf8 "ruby".toList

/-- `resolve_ruby`. -/
def Site.resolveRuby (s : Site) : Except Str PathBuf :=
  match s.override with
  | some ruby => .ok ruby
  | none =>
    match s.versionFile with
    | some (file, want) =>
      match s.vendorRuby want with
      | some ruby => .ok ruby
      | none => .error (notInstalled want ("por ".toList ++ fromUtf8Lossy file))
    | none =>
      match s.gemfileVersion with
      | some want =>
        match s.vendorRuby want with
        | some ruby => .ok ruby
        | none => .error (notInstalled want "pelo Gemfile".toList)
      | none => .ok s.defaultRuby

/-- The version that a command is asked to run. -/
def Site.asked (s : Site) : Option Str := (s.versionFile.map (·.2)).or s.gemfileVersion

/-! ### Versions of vendored rubies -/

/-- A version without a slash is the end of one name. -/
theorem isName_ruby {v : Str} (h : '/' ∉ v) : UnixPath.IsName (utf8 ("ruby-".toList ++ v)) := by
  have hcons : utf8 ("ruby-".toList ++ v) = utf8 "ruby-".toList ++ utf8 v := utf8_append _ _
  have hruby : utf8 "ruby-".toList = [114, 117, 98, 121, 45] := by decide
  refine ⟨?_, ?_, ?_, ?_⟩
  · intro hmem
    have hslash := mem_of_mem_utf8 hmem (by decide)
    rcases List.mem_append.1 hslash with hpre | hv
    · exact absurd hpre (by decide)
    · exact h hv
  all_goals
    rw [hcons, hruby]
    simp

/-- The components of a ruby under its version. -/
theorem components_rubyIn (vendor : PathBuf) {v : Str} (h : '/' ∉ v) :
    components (join vendor (rubyIn v)) =
      components vendor ++ [.normal (utf8 ("ruby-".toList ++ v)), .normal (utf8 "bin".toList),
        .normal (utf8 "ruby".toList)] := by
  have hbuf : rubyIn v = utf8 ("ruby-".toList ++ v) ++ slash :: utf8 "bin/ruby".toList := utf8_append _ _
  have hnames : names (utf8 "bin/ruby".toList) = [.normal (utf8 "bin".toList), .normal (utf8 "ruby".toList)] := by
    decide +kernel
  rw [hbuf, UnixPath.components_join_append vendor (isName_ruby h), hnames]

private theorem rubyVersionOf_rubyIn (vendor : PathBuf) {v : Str} (h : '/' ∉ v) :
    rubyVersionOf (join vendor (rubyIn v)) = if v ≠ pinnedRuby then some v else none := by
  rw [App.rubyVersionOf_of_components (components_rubyIn vendor h), stripPrefix_append]
  rfl

private theorem rubyVersionOf_current (vendor : PathBuf) :
    rubyVersionOf (join vendor (utf8 "current/bin/ruby".toList)) = none := by
  have hbuf : utf8 "current/bin/ruby".toList = utf8 "current".toList ++ slash :: utf8 "bin/ruby".toList := by decide
  have hnames : names (utf8 "bin/ruby".toList) = [.normal (utf8 "bin".toList), .normal (utf8 "ruby".toList)] := by
    decide +kernel
  have hname : UnixPath.IsName (utf8 "current".toList) := by
    constructor <;> decide
  have hcomponents := UnixPath.components_join_append vendor hname (utf8 "bin/ruby".toList)
  rw [← hbuf, hnames] at hcomponents
  rw [App.rubyVersionOf_of_components hcomponents]
  decide

private theorem rubyVersionOf_path : rubyVersionOf (utf8 "ruby".toList) = none := by decide +kernel

/-! ### The ruby that is chosen -/

private theorem vendorRuby_eq_some_iff {s : Site} {v : Str} {ruby : PathBuf} :
    s.vendorRuby v = some ruby ↔
      ∃ vendor, s.vendorRoot = some vendor ∧ ruby = join vendor (rubyIn v) ∧ s.isFile ruby := by
  unfold Site.vendorRuby
  cases s.vendorRoot with
  | none => simp
  | some vendor =>
    dsimp only
    constructor
    · intro h
      split at h
      · rename_i hfile
        cases h
        exact ⟨vendor, rfl, rfl, hfile⟩
      · cases h
    · rintro ⟨w, hw, rfl, hfile⟩
      cases hw
      rw [if_pos hfile]

/-- A version that is asked for is run, or missing. -/
theorem resolveRuby_of_asked {s : Site} {v : Str} (hoverride : s.override = none) (h : s.asked = some v) :
    (∃ ruby, s.vendorRuby v = some ruby ∧ s.resolveRuby = .ok ruby) ∨
      s.vendorRuby v = none ∧ ∃ place, s.resolveRuby = .error (notInstalled v place) := by
  unfold Site.asked at h
  unfold Site.resolveRuby
  rw [hoverride]
  cases hfile : s.versionFile with
  | some x =>
    obtain ⟨file, want⟩ := x
    rw [hfile] at h
    cases h
    dsimp only
    cases s.vendorRuby want with
    | some ruby => exact .inl ⟨ruby, rfl, rfl⟩
    | none => exact .inr ⟨rfl, _, rfl⟩
  | none =>
    rw [hfile, Option.map_none, Option.none_or] at h
    dsimp only
    rw [h]
    dsimp only
    cases s.vendorRuby v with
    | some ruby => exact .inl ⟨ruby, rfl, rfl⟩
    | none => exact .inr ⟨rfl, _, rfl⟩

/-- Without a version that is asked for the default is run. -/
theorem resolveRuby_of_none {s : Site} (hoverride : s.override = none) (h : s.asked = none) :
    s.resolveRuby = .ok s.defaultRuby := by
  unfold Site.asked at h
  obtain ⟨hfile, hgem⟩ := Option.or_eq_none_iff.1 h
  unfold Site.resolveRuby
  rw [hoverride, Option.map_eq_none_iff.1 hfile, hgem]

theorem resolveRuby_ok {s : Site} {ruby : PathBuf} (hoverride : s.override = none) (h : s.resolveRuby = .ok ruby) :
    (∃ v, s.asked = some v ∧ s.vendorRuby v = some ruby) ∨ s.asked = none ∧ ruby = s.defaultRuby := by
  cases hasked : s.asked with
  | some v =>
    rcases resolveRuby_of_asked hoverride hasked with ⟨r, hr, hresolve⟩ | ⟨-, place, hresolve⟩
    · cases h.symm.trans hresolve
      exact .inl ⟨v, rfl, hr⟩
    · rw [h] at hresolve
      cases hresolve
  | none =>
    rw [resolveRuby_of_none hoverride hasked] at h
    cases h
    exact .inr ⟨rfl, rfl⟩

/-- The default ruby shows no version. -/
theorem rubyVersionOf_default (s : Site) : rubyVersionOf s.defaultRuby = none := by
  unfold Site.defaultRuby
  cases hpinned : s.vendorRuby pinnedRuby with
  | some ruby =>
    obtain ⟨vendor, -, rfl, -⟩ := vendorRuby_eq_some_iff.1 hpinned
    dsimp only
    rw [rubyVersionOf_rubyIn vendor (by decide), if_neg (by simp)]
  | none =>
    dsimp only
    cases s.vendorRoot with
    | none => exact rubyVersionOf_path
    | some vendor =>
      dsimp only
      split
      · exact rubyVersionOf_current vendor
      · exact rubyVersionOf_path

/-- A chosen ruby is the one under the version that it shows, and the default one if it shows none. -/
theorem resolveRuby_version {s : Site} {ruby : PathBuf} (hoverride : s.override = none)
    (hplain : ∀ v ∈ s.asked, '/' ∉ v) (h : s.resolveRuby = .ok ruby) :
    match rubyVersionOf ruby with
    | some v => s.vendorRuby v = some ruby
    | none => ruby = s.defaultRuby := by
  rcases resolveRuby_ok hoverride h with ⟨v, hasked, hruby⟩ | ⟨-, rfl⟩
  · have hv := hplain v hasked
    obtain ⟨vendor, -, rfl, -⟩ := vendorRuby_eq_some_iff.1 hruby
    by_cases hpinned : v = pinnedRuby
    · rw [rubyVersionOf_rubyIn vendor hv, if_neg (not_not.2 hpinned)]
      unfold Site.defaultRuby
      rw [← hpinned, hruby]
    · rw [rubyVersionOf_rubyIn vendor hv, if_pos hpinned]
      exact hruby
  · rw [rubyVersionOf_default]

/-- Commands on one installation have the same ruby exactly if their rubies show the same version. -/
theorem resolveRuby_eq_iff {a b : Site} {p q : PathBuf} (hvendor : a.vendorRoot = b.vendorRoot)
    (hfile : a.isFile = b.isFile) (ha : a.override = none) (hb : b.override = none)
    (hap : ∀ v ∈ a.asked, '/' ∉ v) (hbp : ∀ v ∈ b.asked, '/' ∉ v)
    (hp : a.resolveRuby = .ok p) (hq : b.resolveRuby = .ok q) : rubyVersionOf p = rubyVersionOf q ↔ p = q := by
  have hvendorRuby : a.vendorRuby = b.vendorRuby := by
    funext v
    unfold Site.vendorRuby
    rw [hvendor, hfile]
  have hdefault : a.defaultRuby = b.defaultRuby := by
    unfold Site.defaultRuby
    rw [hvendorRuby, hvendor, hfile]
  refine ⟨fun heq => ?_, fun heq => by rw [heq]⟩
  have hpv := resolveRuby_version ha hap hp
  have hqv := resolveRuby_version hb hbp hq
  rw [heq] at hpv
  cases hversion : rubyVersionOf q with
  | some v =>
    rw [hversion] at hpv hqv
    exact Option.some.inj (hpv.symm.trans (hvendorRuby ▸ hqv))
  | none =>
    rw [hversion] at hpv hqv
    exact hpv.trans (hdefault.trans hqv.symm)

/-- The keys of one app for two rubies are the same exactly if these show the same version. -/
theorem appKey_ruby_iff (app : AppConfig) (salt : Str) (p q : PathBuf) :
    appKey app salt p = appKey app salt q ↔ rubyVersionOf p = rubyVersionOf q := by
  rw [appKey_eq, appKey_eq]
  constructor
  · intro h
    have hsalt : saltVersion salt p = saltVersion salt q := by
      simpa using h
    unfold saltVersion at hsalt
    cases hp : rubyVersionOf p <;> cases hq : rubyVersionOf q <;> simp_all
  · intro h
    unfold saltVersion
    rw [h]

/-- On one installation, whatever two commands ask for: without `CALISTO_RUBY` they have the same ruby exactly if they
have the same daemon, be it the generic one or the one of an app, and a command that asks for a version has no other. -/
theorem one_daemon_for_each_ruby {a b : Site} {p q : PathBuf} (hvendor : a.vendorRoot = b.vendorRoot)
    (hfile : a.isFile = b.isFile) (ha : a.override = none) (hb : b.override = none)
    (hap : ∀ v ∈ a.asked, '/' ∉ v) (hbp : ∀ v ∈ b.asked, '/' ∉ v)
    (hp : a.resolveRuby = .ok p) (hq : b.resolveRuby = .ok q) (runtimeDir : PathBuf) (app : AppConfig) (salt : Str) :
    (components (daemonDirFor runtimeDir p) = components (daemonDirFor runtimeDir q) ↔ p = q) ∧
      (appKey app salt p = appKey app salt q ↔ p = q) ∧
      ∀ v, a.asked = some v → ∃ vendor, a.vendorRoot = some vendor ∧ p = join vendor (rubyIn v) ∧ a.isFile p := by
  have hruby := resolveRuby_eq_iff hvendor hfile ha hb hap hbp hp hq
  refine ⟨(App.daemonDirFor_eq_iff runtimeDir p q).trans hruby, (appKey_ruby_iff app salt p q).trans hruby, ?_⟩
  intro v hv
  rcases resolveRuby_ok ha hp with ⟨w, hw, hvendored⟩ | ⟨hnone, -⟩
  · cases hv.symm.trans hw
    exact vendorRuby_eq_some_iff.1 hvendored
  · rw [hnone] at hv
    cases hv

/-- An installation with two rubies, and an app whose `.ruby-version` asks for the one that is not pinned. -/
def sampleSite (cwd : Path) : Site where
  env k := if k = utf8 "CALISTO_HOME".toList then some (utf8 "/c".toList) else none
  currentExe := none
  currentDir := some cwd
  isFile p := p = utf8 "/app/.ruby-version".toList ∨ p = utf8 "/c/vendor/ruby-3.4.4/bin/ruby".toList ∨
    p = utf8 "/c/vendor/ruby-3.4.10/bin/ruby".toList
  isDir _ := false
  readToString p := if p = utf8 "/app/.ruby-version".toList then some "ruby-3.4.4\n".toList else none

/-- The commands of the app and those outside it have two rubies and two daemons. -/
theorem one_daemon_for_each_ruby_sample :
    (sampleSite ["app".toList]).resolveRuby = .ok (utf8 "/c/vendor/ruby-3.4.4/bin/ruby".toList) ∧
      (sampleSite []).resolveRuby = .ok (utf8 "/c/vendor/ruby-3.4.10/bin/ruby".toList) ∧
      components (daemonDirFor (utf8 "/run".toList) (utf8 "/c/vendor/ruby-3.4.4/bin/ruby".toList)) ≠
        components (daemonDirFor (utf8 "/run".toList) (utf8 "/c/vendor/ruby-3.4.10/bin/ruby".toList)) := by
  have hp : (sampleSite ["app".toList]).resolveRuby = .ok (utf8 "/c/vendor/ruby-3.4.4/bin/ruby".toList) := by
    decide +kernel
  have hq : (sampleSite []).resolveRuby = .ok (utf8 "/c/vendor/ruby-3.4.10/bin/ruby".toList) := by decide +kernel
  have hone := one_daemon_for_each_ruby (a := sampleSite ["app".toList]) (b := sampleSite []) (by decide +kernel) rfl
    (by decide +kernel) (by decide +kernel) (by decide +kernel) (by decide +kernel) hp hq (utf8 "/run".toList)
    { root := [], preload := none, compact := none, yjit := none, warmup := none, scripts := [] } []
  exact ⟨hp, hq, fun h => absurd (hone.1.1 h) (by decide +kernel)⟩

/-- A slash in a version can hide it: this ruby would have the daemon of the pinned one. -/
example : rubyVersionOf (join (utf8 "/c/vendor".toList) (rubyIn "3.4.4/bin/..".toList)) = none := by decide +kernel

/-! ### What a project asks for -/

/-- `name` stands in `dir`, and not in a directory between it and the working directory. -/
structure Site.Nearest (s : Site) (name : Str) (cwd dir : Path) : Prop where
  above : dir <:+ cwd
  isFile : s.isFile (bufOf (name :: dir))
  none_nearer : ∀ d, d <:+ cwd → dir.length < d.length → ¬s.isFile (bufOf (name :: d))

/-- A line with a version: blanks around it, `ruby-` any number of times in front of it. -/
structure VersionLine (v line : Str) : Prop where
  trimmed : App.Trimmed v
  ne_nil : v ≠ []
  bare : stripPrefix "ruby-".toList v = none
  written : ∃ l r k, (∀ c ∈ l, isWhitespace c) ∧ (∀ c ∈ r, isWhitespace c) ∧
    line = l ++ ((List.replicate k "ruby-".toList).flatten ++ v ++ r)

/-- What follows `ruby` in a directive with a quoted version. -/
structure Directive (v core : Str) : Prop where
  trimmed : App.Trimmed core
  digit : v.head?.any Char.isDigit
  written : ∃ ws q rest, (∀ c ∈ ws, isWhitespace c) ∧ (q = '"' ∨ q = '\'') ∧ q ∉ v ∧
    core = "ruby".toList ++ (ws ++ q :: (v ++ q :: rest))

/-- A Gemfile whose first line that begins with `ruby` is a directive with the version. -/
structure GemfileText (v : Str) (content : Str) : Prop where
  written : ∃ before core l r after, (∀ line ∈ before, stripPrefix "ruby".toList (trim line) = none) ∧
    (∀ c ∈ l, isWhitespace c) ∧ (∀ c ∈ r, isWhitespace c) ∧ Directive v core ∧
    lines content = before ++ (l ++ (core ++ r)) :: after

theorem Site.Nearest.found {s : Site} {name : Str} {cwd dir : Path} (h : s.Nearest name cwd dir)
    (hcwd : s.currentDir = some cwd) : s.findInParents name = some (bufOf (name :: dir)) := by
  obtain ⟨⟨below, hbelow⟩, hfile, hnearer⟩ := h
  have hsearch : findInParentsFrom (fun p => s.isFile (bufOf p)) name cwd = some (name :: dir) := by
    subst hbelow
    clear hcwd
    induction below with
    | nil =>
      cases dir with
      | nil => exact if_pos hfile
      | cons c dir => exact if_pos hfile
    | cons c below ih =>
      have hc : ¬s.isFile (bufOf (name :: c :: (below ++ dir))) := by
        refine hnearer _ List.suffix_rfl ?_
        rw [List.length_cons, List.length_append]
        omega
      rw [List.cons_append, findInParentsFrom, if_neg hc]
      exact ih fun d hd => hnearer d (hd.trans (List.suffix_cons c _))
  unfold Site.findInParents
  rw [hcwd, Option.bind_some, hsearch]
  rfl

private theorem trimStartMatches_flatten {p v : Str} (hp : p ≠ []) (hv : stripPrefix p v = none) (k : Nat) :
    trimStartMatches p ((List.replicate k p).flatten ++ v) = v := by
  have hfixed : (stripPrefix p v).getD v = v := by rw [hv, Option.getD_none]
  have hlen : k ≤ ((List.replicate k p).flatten ++ v).length := by
    have hpos : 0 < p.length := List.length_pos_iff.2 hp
    induction k with
    | zero => exact Nat.zero_le _
    | succ k ih =>
      rw [List.replicate_succ, List.flatten_cons, List.append_assoc, List.length_append]
      omega
  unfold trimStartMatches
  generalize ((List.replicate k p).flatten ++ v).length = n at hlen
  induction k generalizing n with
  | zero => exact Function.iterate_fixed (f := fun t => (stripPrefix p t).getD t) hfixed n
  | succ k ih =>
    obtain ⟨m, rfl⟩ : ∃ m, n = m + 1 := ⟨n - 1, by omega⟩
    rw [Function.iterate_succ_apply, List.replicate_succ, List.flatten_cons, List.append_assoc, stripPrefix_append]
    exact ih m (by omega)

private theorem rubyVersionFromFile_line {s : Site} {file : PathBuf} {content line v : Str} {rest : List Str}
    (hread : s.readToString file = some content) (hlines : lines content = line :: rest) (h : VersionLine v line) :
    s.rubyVersionFromFile file = some v := by
  obtain ⟨htrimmed, hne, hbare, l, r, k, hl, hr, rfl⟩ := h
  have hruby : App.Trimmed ((List.replicate k "ruby-".toList).flatten ++ v) := by
    refine ⟨?_, ?_⟩
    · cases k with
      | zero => exact htrimmed.head
      | succ k =>
        intro c hc
        rw [List.replicate_succ] at hc
        cases hc
        decide
    · intro c hc
      rw [List.getLast?_append_of_ne_nil _ hne] at hc
      exact htrimmed.last c hc
  unfold Site.rubyVersionFromFile
  simp only [hread, hlines, bind, Option.bind, List.head?_cons, App.trim_padded hruby hl hr,
    trimStartMatches_flatten (p := "ruby-".toList) (by simp) hbare, App.trim_of_trimmed htrimmed]
  rw [if_pos hne]

private theorem quotedBy_append {q : Char} {v : Str} (h : q ∉ v) (rest : Str) :
    quotedBy q (q :: (v ++ q :: rest)) = some v := by
  have hstrip : stripPrefix [q] (q :: (v ++ q :: rest)) = some (v ++ q :: rest) := stripPrefix_append [q] _
  have htake : (v ++ q :: rest).takeWhile (· ≠ q) = v := by
    rw [List.takeWhile_append_of_pos (by simpa using fun c hc => ne_of_mem_of_not_mem hc h)]
    simp
  rw [quotedBy, hstrip, Option.map_some, htake]

private theorem gemfileLoop_directive {s : Site} (file : PathBuf) {v core l r : Str} {before after : List Str}
    (hbefore : ∀ line ∈ before, stripPrefix "ruby".toList (trim line) = none) (hl : ∀ c ∈ l, isWhitespace c)
    (hr : ∀ c ∈ r, isWhitespace c) (h : Directive v core) :
    s.gemfileLoop file (before ++ (l ++ (core ++ r)) :: after) = some v := by
  induction before with
  | nil =>
    obtain ⟨htrimmed, hdigit, ws, q, rest, hws, hq, hqv, rfl⟩ := h
    have hblank : ¬isWhitespace q := by
      rcases hq with rfl | rfl <;> decide
    have harg : (ws ++ q :: (v ++ q :: rest)).dropWhile isWhitespace = q :: (v ++ q :: rest) := by
      rw [List.dropWhile_append_of_pos hws, List.dropWhile_cons_of_neg hblank]
    have hquoted : (quotedBy '"' (q :: (v ++ q :: rest))).or (quotedBy '\'' (q :: (v ++ q :: rest))) = some v := by
      rcases hq with rfl | rfl
      · rw [quotedBy_append hqv, Option.some_or]
      · rw [quotedBy_append hqv]
        rfl
    rw [List.nil_append, Site.gemfileLoop, App.trim_padded htrimmed hl hr, stripPrefix_append]
    dsimp only
    rw [harg, hquoted, Option.getD_some, if_pos hdigit]
  | cons line before ih =>
    rw [List.cons_append, Site.gemfileLoop, hbefore line List.mem_cons_self]
    exact ih fun x hx => hbefore x (List.mem_cons_of_mem _ hx)

/-- A command in or below `dir` that the version file of `dir` governs, or the Gemfile of `dir` where there is no
version file above the command. -/
inductive Governed (s : Site) (cwd dir : Path) (v : Str) : Prop
  | versionFile {content line : Str} {rest : List Str} (near : s.Nearest ".ruby-version".toList cwd dir)
      (read : s.readToString (bufOf (".ruby-version".toList :: dir)) = some content)
      (text : lines content = line :: rest) (version : VersionLine v line)
  | gemfile {content : Str} (none_above : s.findInParents ".ruby-version".toList = none)
      (unset : s.env (utf8 "BUNDLE_GEMFILE".toList) = none) (near : s.Nearest "Gemfile".toList cwd dir)
      (read : s.readToString (bufOf ("Gemfile".toList :: dir)) = some content) (version : GemfileText v content)

/-- In or below a directory with a `.ruby-version`, up to the next one, each command is asked for the version in it and
runs it or fails for its sake, whatever any Gemfile says; where there is none above, the nearest Gemfile decides. -/
theorem ruby_of_project {s : Site} {cwd dir : Path} {v : Str} (hoverride : s.override = none)
    (hcwd : s.currentDir = some cwd) (h : Governed s cwd dir v) :
    s.asked = some v ∧ ((∃ ruby, s.vendorRuby v = some ruby ∧ s.resolveRuby = .ok ruby) ∨
      s.vendorRuby v = none ∧ ∃ place, s.resolveRuby = .error (notInstalled v place)) := by
  have hasked : s.asked = some v := by
    cases h with
    | versionFile near read text version =>
      rw [Site.asked, Site.versionFile, near.found hcwd, Option.bind_some, rubyVersionFromFile_line read text version]
      rfl
    | gemfile none_above unset near read version =>
      obtain ⟨before, core, l, r, after, hbefore, hl, hr, hdirective, hlines⟩ := version
      have hversion : s.rubyVersionFromGemfile (bufOf ("Gemfile".toList :: dir)) = some v := by
        rw [Site.rubyVersionFromGemfile, read, Option.bind_some, hlines]
        exact gemfileLoop_directive _ hbefore hl hr hdirective
      rw [Site.asked, Site.versionFile, Site.gemfileVersion, none_above, unset, near.found hcwd, Option.none_or,
        Option.bind_some, hversion]
      rfl
  exact ⟨hasked, resolveRuby_of_asked hoverride hasked⟩

/-- A command one directory below the version file. -/
theorem ruby_of_project_sample : (sampleSite ["lib".toList, "app".toList]).asked = some "3.4.4".toList := by
  have hnear : (sampleSite ["lib".toList, "app".toList]).Nearest ".ruby-version".toList
      ["lib".toList, "app".toList] ["app".toList] := by
    refine ⟨List.suffix_cons .., by decide +kernel, fun d hd hlen => ?_⟩
    rcases List.suffix_cons_iff.1 hd with rfl | hd
    · decide +kernel
    · exact absurd hd.length_le (Nat.not_le.2 hlen)
  have hread : (sampleSite ["lib".toList, "app".toList]).readToString (bufOf [".ruby-version".toList, "app".toList]) =
      some "ruby-3.4.4\n".toList := by decide +kernel
  have hlines : lines "ruby-3.4.4\n".toList = ["ruby-3.4.4".toList] := by decide +kernel
  have hline : VersionLine "3.4.4".toList "ruby-3.4.4".toList :=
    ⟨App.Trimmed.of_ends (a := '3') (b := '4') (by decide) (by decide) ".4.".toList, by decide, by decide, [], [], 1,
      by simp, by simp, rfl⟩
  exact (ruby_of_project (by decide +kernel) rfl (.versionFile hnear hread hlines hline)).1

end Calisto.Runtime

import Calisto.App.Toml

/-!
# One directory for each daemon

`daemon_dir_for` and `app_runtime_dir_for` choose the directory of a daemon, and with it the socket.  A ruby counts by
the version that its path shows: the name of the directory two above it, after `ruby-`, and nothing for the pinned
version and for any other name.  So the rubies below one vendor directory are told apart, but not those that are
installed anywhere else, nor two under the same version (`one_socket_iff`).
-/

namespace Calisto.App

open UnixPath (PathBuf Component slash components names isAbsolute IsName components_of_isAbsolute)

/-! ### The code -/

def pinnedRuby : Str := "3.4.10".toList

/-- `to_str`, `none` for what is not UTF-8. -/
def toStr (bs : Bytes) : Option Str := if utf8 (fromUtf8Lossy bs) = bs then some (fromUtf8Lossy bs) else none

/-- `ruby_version_of`. -/
def rubyVersionOf (path : PathBuf) : Option Str := do
  let dir ← (UnixPath.parent (components path)).bind UnixPath.parent
  let name ← (UnixPath.fileName dir).bind toStr
  let v ← stripPrefix "ruby-".toList name
  if v ≠ pinnedRuby then some v else none

/-- `daemon_dir_for`, under the directory of `runtime_dir`. -/
def daemonDirFor (runtimeDir ruby : PathBuf) : PathBuf :=
  match rubyVersionOf ruby with
  | some v => UnixPath.join runtimeDir (utf8 ("ruby-".toList ++ v))
  | none => runtimeDir

/-- `fnv1a`. -/
def fnv1a (s : Str) : UInt64 :=
  (utf8 s).foldl (fun h b => (h ^^^ b.toUInt64) * 0x00000100000001b3) 0xcbf29ce484222325

/-- The `{:016x}` of a hash. -/
def hex16 (h : UInt64) : Str :=
  let digits := Nat.toDigits 16 h.toNat
  List.replicate (16 - digits.length) '0' ++ digits

/-- The text that `app_runtime_dir_for` hashes. -/
def appKey (app : AppConfig) (salt : Str) (ruby : PathBuf) : Str :=
  let preload := (app.preload.map fromUtf8Lossy).getD []
  let base := fromUtf8Lossy app.root ++ nul :: (preload ++ nul :: salt)
  match rubyVersionOf ruby with
  | some v => base ++ nul :: v
  | none => base

/-- `app_runtime_dir_for`. -/
def appRuntimeDirFor (runtimeDir : PathBuf) (app : AppConfig) (salt : Str) (ruby : PathBuf) : PathBuf :=
  UnixPath.join (UnixPath.join runtimeDir (utf8 "apps".toList)) (utf8 (hex16 (fnv1a (appKey app salt ruby))))

/-! ### Directories -/

/-- A ruby that is installed as `ruby-<v>/x/y` in some directory, `v` not being the pinned version. -/
def Shows (path : PathBuf) (v : Str) : Prop :=
  v ≠ pinnedRuby ∧ ∃ dir x y, components path = dir ++ [.normal (utf8 ("ruby-".toList ++ v)), x, y]

private theorem rootDir_not_mem_tail {path : PathBuf} {c : Component} {dir cs : List Component}
    (h : components path = dir ++ c :: cs) : .rootDir ∉ cs := by
  intro hmem
  by_cases habs : isAbsolute path
  · rw [components_of_isAbsolute habs] at h
    have hnames : .rootDir ∈ names path := by
      cases dir with
      | nil =>
        rw [(List.cons.inj h).2]
        exact hmem
      | cons d dir =>
        rw [(List.cons.inj h).2]
        exact List.mem_append_right _ (List.mem_cons_of_mem c hmem)
    exact UnixPath.rootDir_not_mem_names path hnames
  · refine UnixPath.rootDir_not_mem (p := path) (by simpa using habs) ?_
    rw [h]
    exact List.mem_append_right _ (List.mem_cons_of_mem c hmem)

/-- The version that a path shows is read off the name two above its last one. -/
theorem rubyVersionOf_of_components {path : PathBuf} {cs : List Component} {name : Str} {x y : Component}
    (h : components path = cs ++ [.normal (utf8 name), x, y]) :
    rubyVersionOf path = (stripPrefix "ruby-".toList name).bind fun v => if v ≠ pinnedRuby then some v else none := by
  have hroot := rootDir_not_mem_tail h
  have hup : UnixPath.parent (components path) = some (cs ++ [.normal (utf8 name), x]) := by
    rw [h, UnixPath.parent]
    cases y <;> simp_all
  have hupper : UnixPath.parent (cs ++ [.normal (utf8 name), x]) = some (cs ++ [.normal (utf8 name)]) := by
    rw [UnixPath.parent]
    cases x <;> simp_all
  have hname : UnixPath.fileName (cs ++ [.normal (utf8 name)]) = some (utf8 name) := by simp [UnixPath.fileName]
  have hstr : toStr (utf8 name) = some name := by simp [toStr, fromUtf8Lossy_utf8]
  unfold rubyVersionOf
  simp only [hup, hupper, hname, hstr, bind, Option.bind]

private theorem toStr_eq_some {bs : Bytes} {s : Str} (h : toStr bs = some s) : bs = utf8 s := by
  unfold toStr at h
  split at h
  · rename_i hutf8
    rw [← Option.some.inj h, hutf8]
  · cases h

private theorem parent_eq_some {cs ds : List Component} (h : UnixPath.parent cs = some ds) : ∃ c, cs = ds ++ [c] := by
  unfold UnixPath.parent at h
  split at h
  · cases h
  · cases h
  · rename_i c _ hlast
    cases h
    exact ⟨c, (List.dropLast_append_getLast? c hlast).symm⟩

private theorem fileName_eq_some {cs : List Component} {name : List UInt8} (h : UnixPath.fileName cs = some name) :
    ∃ dir, cs = dir ++ [.normal name] := by
  unfold UnixPath.fileName at h
  split at h
  · rename_i n hlast
    cases h
    exact ⟨_, (List.dropLast_append_getLast? _ hlast).symm⟩
  · cases h

private theorem rubyVersionOf_eq_some_iff (path : PathBuf) (v : Str) : rubyVersionOf path = some v ↔ Shows path v := by
  constructor
  · intro h
    unfold rubyVersionOf at h
    obtain ⟨dir, hdir, hrest⟩ := Option.bind_eq_some_iff.1 h
    obtain ⟨name, hname, hrest⟩ := Option.bind_eq_some_iff.1 hrest
    obtain ⟨w, hw, hv⟩ := Option.bind_eq_some_iff.1 hrest
    obtain ⟨up, hup, hdir⟩ := Option.bind_eq_some_iff.1 hdir
    obtain ⟨bytes, hbytes, hstr⟩ := Option.bind_eq_some_iff.1 hname
    obtain ⟨y, hy⟩ := parent_eq_some hup
    obtain ⟨x, rfl⟩ := parent_eq_some hdir
    obtain ⟨dir, rfl⟩ := fileName_eq_some hbytes
    split at hv
    · rename_i hpinned
      obtain rfl := Option.some.inj hv
      refine ⟨hpinned, dir, x, y, ?_⟩
      rw [hy, toStr_eq_some hstr, stripPrefix_eq_some hw]
      simp
    · cases hv
  · rintro ⟨hpinned, dir, x, y, h⟩
    rw [rubyVersionOf_of_components h, stripPrefix_append, Option.bind_some, if_pos hpinned]

/-- Two rubies show the same version exactly when they are installed under the same one. -/
theorem rubyVersionOf_eq_iff (p q : PathBuf) : rubyVersionOf p = rubyVersionOf q ↔ ∀ v, Shows p v ↔ Shows q v := by
  simp only [← rubyVersionOf_eq_some_iff]
  constructor
  · intro h v
    rw [h]
  · intro h
    exact Option.ext fun v => h v

/-- The directory of a version is one name below the runtime directory. -/
theorem isName_of_version {ruby : PathBuf} {v : Str} (h : rubyVersionOf ruby = some v) :
    IsName (utf8 ("ruby-".toList ++ v)) := by
  have hruby : ∃ bs, utf8 ("ruby-".toList ++ v) = 114 :: 117 :: 98 :: bs := ⟨_, utf8_append _ _⟩
  obtain ⟨bs, hbs⟩ := hruby
  obtain ⟨-, dir, x, y, hpath⟩ := (rubyVersionOf_eq_some_iff ruby v).1 h
  have hmem : Component.normal (utf8 ("ruby-".toList ++ v)) ∈ components ruby := by
    rw [hpath]
    simp
  refine ⟨UnixPath.no_slash_of_mem_components hmem, ?_, ?_, ?_⟩ <;> rw [hbs] <;> simp

/-- Two rubies have one directory exactly when they show the same version. -/
theorem daemonDirFor_eq_iff (runtimeDir p q : PathBuf) :
    components (daemonDirFor runtimeDir p) = components (daemonDirFor runtimeDir q) ↔
      rubyVersionOf p = rubyVersionOf q := by
  unfold daemonDirFor
  cases hp : rubyVersionOf p with
  | none =>
    cases hq : rubyVersionOf q with
    | none => simp
    | some w =>
      dsimp only
      rw [UnixPath.components_join_name runtimeDir (isName_of_version hq)]
      simp
  | some v =>
    cases hq : rubyVersionOf q with
    | none =>
      dsimp only
      rw [UnixPath.components_join_name runtimeDir (isName_of_version hp)]
      simp
    | some w =>
      dsimp only
      rw [UnixPath.components_join_name runtimeDir (isName_of_version hp),
        UnixPath.components_join_name runtimeDir (isName_of_version hq)]
      constructor
      · intro heq
        have hlast := List.append_cancel_left heq
        simp only [List.cons.injEq, Component.normal.injEq, and_true] at hlast
        rw [List.append_cancel_left (utf8_inj hlast)]
      · intro heq
        cases heq
        rfl

/-! ### Keys of apps -/

/-- An app whose files exist: no path of the file system has a NUL. -/
structure FoundApp extends AppConfig where
  root_nul : 0 ∉ root
  preload_nul : ∀ p ∈ preload, 0 ∉ p

/-- A ruby that is a file. -/
structure FoundRuby where
  path : PathBuf
  path_nul : 0 ∉ path

/-- The preload as it is shown. -/
def AppConfig.shownPreload (app : AppConfig) : Str := (app.preload.map fromUtf8Lossy).getD []

/-- The salt, and the version if the ruby shows one. -/
def saltVersion (salt : Str) (ruby : PathBuf) : Str :=
  match rubyVersionOf ruby with
  | some v => salt ++ nul :: v
  | none => salt

theorem appKey_eq (app : AppConfig) (salt : Str) (ruby : PathBuf) :
    appKey app salt ruby =
      fromUtf8Lossy app.root ++ nul :: (app.shownPreload ++ nul :: saltVersion salt ruby) := by
  unfold appKey saltVersion AppConfig.shownPreload
  cases rubyVersionOf ruby <;> simp

private theorem append_nul_inj {s s' t t' : Str} (hs : nul ∉ s) (hs' : nul ∉ s') (h : s ++ nul :: t = s' ++ nul :: t') :
    s = s' ∧ t = t' := by
  have hsplit := splitOnce_append hs t
  rw [h, splitOnce_append hs'] at hsplit
  simpa [eq_comm] using hsplit

/-- Two keys are the same text exactly when the parts of it are. -/
theorem appKey_eq_iff (a b : FoundApp) (salt salt' : Str) (p q : PathBuf) :
    appKey a.toAppConfig salt p = appKey b.toAppConfig salt' q ↔
      fromUtf8Lossy a.root = fromUtf8Lossy b.root ∧ a.shownPreload = b.shownPreload ∧
        saltVersion salt p = saltVersion salt' q := by
  have hroot : ∀ app : FoundApp, nul ∉ fromUtf8Lossy app.root := fun app h => app.root_nul (zero_mem_of_nul_mem h)
  have hpreload : ∀ app : FoundApp, nul ∉ app.shownPreload := by
    intro app h
    unfold AppConfig.shownPreload at h
    cases hp : app.preload with
    | none =>
      rw [hp] at h
      cases h
    | some x =>
      rw [hp] at h
      exact app.preload_nul x hp (zero_mem_of_nul_mem h)
  rw [appKey_eq, appKey_eq]
  constructor
  · intro h
    obtain ⟨h1, h⟩ := append_nul_inj (hroot a) (hroot b) h
    obtain ⟨h2, h3⟩ := append_nul_inj (hpreload a) (hpreload b) h
    exact ⟨h1, h2, h3⟩
  · rintro ⟨h1, h2, h3⟩
    rw [h1, h2, h3]

/-- For salts like those of the callers, without a NUL: the salts and the versions are the same. -/
theorem saltVersion_eq_iff {salt salt' : Str} (hs : nul ∉ salt) (hs' : nul ∉ salt') (p q : PathBuf) :
    saltVersion salt p = saltVersion salt' q ↔ salt = salt' ∧ rubyVersionOf p = rubyVersionOf q := by
  unfold saltVersion
  cases rubyVersionOf p with
  | none =>
    cases rubyVersionOf q with
    | none => simp
    | some w =>
      refine iff_of_false (fun h => hs ?_) (by simp)
      dsimp only at h
      rw [h]
      simp
  | some v =>
    cases rubyVersionOf q with
    | none =>
      refine iff_of_false (fun h => hs' ?_) (by simp)
      dsimp only at h
      rw [← h]
      simp
    | some w =>
      constructor
      · intro h
        obtain ⟨h1, h2⟩ := append_nul_inj hs hs' h
        exact ⟨h1, congrArg some h2⟩
      · rintro ⟨rfl, h⟩
        cases h
        rfl

private theorem not_mem_of_shows {path : PathBuf} (hpath : 0 ∉ path) {v : Str} (h : Shows path v) : nul ∉ v := by
  obtain ⟨-, dir, x, y, hcs⟩ := h
  intro hv
  have hname : .normal (utf8 ("ruby-".toList ++ v)) ∈ names path := by
    have hmem : Component.normal (utf8 ("ruby-".toList ++ v)) ∈ components path := by
      rw [hcs]
      simp
    rcases List.mem_append.1 hmem with hmem | hmem
    · unfold UnixPath.anchor at hmem
      split at hmem
      · simp at hmem
      · split at hmem <;> simp at hmem
    · exact hmem
  obtain ⟨piece, hpiece, hcomp⟩ := List.mem_filterMap.1 hname
  unfold UnixPath.component at hcomp
  split at hcomp
  · cases hcomp
  · split at hcomp <;> cases hcomp
    refine hpath (mem_of_mem_splitOn hpiece (List.mem_flatMap.2 ⟨nul, List.mem_append_right _ hv, ?_⟩))
    decide

private theorem nul_append_inj {s s' t t' : Str} (ht : nul ∉ t) (ht' : nul ∉ t') (h : s ++ nul :: t = s' ++ nul :: t') :
    s = s' ∧ t = t' := by
  have hrev : t.reverse ++ nul :: s.reverse = t'.reverse ++ nul :: s'.reverse := by
    simpa using congrArg List.reverse h
  obtain ⟨h1, h2⟩ := append_nul_inj (by simpa using ht) (by simpa using ht') hrev
  exact ⟨List.reverse_injective h2, List.reverse_injective h1⟩

/-- The salt of the other app ends with a version that its ruby does not show. -/
def SaltShows (salt salt' : Str) (p q : PathBuf) : Prop :=
  ∃ v, Shows p v ∧ (∀ w, ¬Shows q w) ∧ salt' = salt ++ nul :: v

/-- The end of a key is the same for one salt and rubies under one version, and for a salt that ends with the
version. -/
theorem saltVersion_eq_iff_shows (p q : FoundRuby) (salt salt' : Str) :
    saltVersion salt p.path = saltVersion salt' q.path ↔
      (salt = salt' ∧ ∀ v, Shows p.path v ↔ Shows q.path v) ∨ SaltShows salt salt' p.path q.path ∨
        SaltShows salt' salt q.path p.path := by
  have hplain : ∀ (r : FoundRuby) {v : Str}, rubyVersionOf r.path = some v → nul ∉ v := fun r v h =>
    not_mem_of_shows r.path_nul ((rubyVersionOf_eq_some_iff _ _).1 h)
  unfold SaltShows saltVersion
  simp only [← rubyVersionOf_eq_some_iff]
  cases hp : rubyVersionOf p.path with
  | none =>
    cases hq : rubyVersionOf q.path with
    | none => simp
    | some w => simp
  | some v =>
    cases hq : rubyVersionOf q.path with
    | none => simp [eq_comm]
    | some w =>
      simp only [Option.some.injEq, exists_eq_left']
      constructor
      · intro h
        obtain ⟨rfl, rfl⟩ := nul_append_inj (hplain p hp) (hplain q hq) h
        exact .inl ⟨rfl, fun _ => Iff.rfl⟩
      · rintro (⟨rfl, h⟩ | ⟨hnone, -⟩ | ⟨hnone, -⟩)
        · rw [(h v).1 rfl]
        · exact absurd rfl (hnone w)
        · exact absurd rfl (hnone v)

/-! ### One socket -/

/-! ### One socket -/

/-- Daemons that share a directory are for the same interpreter, and those with the same key of an app for the same
root, preload and salt, too. -/
structure OneSocket {I : Type*} (interp : List Component → I) (runtimeDir p q : PathBuf) (a b : AppConfig)
    (salt salt' : Str) : Prop where
  generic : components (daemonDirFor runtimeDir p) = components (daemonDirFor runtimeDir q) →
    interp (components p) = interp (components q)
  app : appKey a salt p = appKey b salt' q → interp (components p) = interp (components q) ∧
    components a.root = components b.root ∧ a.preload.map components = b.preload.map components ∧ salt = salt'

/-- Installed below `vendor` as `ruby-<v>/bin/ruby`. -/
def Vendored (vendor p : PathBuf) : Prop :=
  ∃ v, components p = components vendor ++ [.normal (utf8 ("ruby-".toList ++ v)), .normal (utf8 "bin".toList),
    .normal (utf8 "ruby".toList)]

/-- A path that is text. -/
def IsText (p : PathBuf) : Prop := utf8 (fromUtf8Lossy p) = p

/-- An app whose root and preload are text, the preload not the empty path. -/
structure TextApp (a : AppConfig) : Prop where
  root : IsText a.root
  preload : ∀ p ∈ a.preload, IsText p ∧ p ≠ []

theorem shownPreload_inj {a b : AppConfig} (ha : TextApp a) (hb : TextApp b) (h : a.shownPreload = b.shownPreload) :
    a.preload = b.preload := by
  have hshown : ∀ {c : AppConfig}, TextApp c → utf8 c.shownPreload = c.preload.getD [] := by
    intro c hc
    unfold AppConfig.shownPreload
    cases hpre : c.preload with
    | none => rfl
    | some x => exact (hc.preload x hpre).1
  have hget : a.preload.getD [] = b.preload.getD [] := by rw [← hshown ha, ← hshown hb, h]
  cases hap : a.preload with
  | none =>
    cases hbp : b.preload with
    | none => rfl
    | some y =>
      rw [hap, hbp] at hget
      exact absurd hget.symm (hb.preload y hbp).2
  | some x =>
    cases hbp : b.preload with
    | none =>
      rw [hap, hbp] at hget
      exact absurd hget (ha.preload x hap).2
    | some y =>
      rw [hap, hbp] at hget
      exact congrArg some hget

/-- Rubies below one vendor directory that show the same version are one path. -/
theorem Vendored.components_eq {vendor p q : PathBuf} (hp : Vendored vendor p) (hq : Vendored vendor q)
    (h : rubyVersionOf p = rubyVersionOf q) : components p = components q := by
  obtain ⟨v, hp⟩ := hp
  obtain ⟨w, hq⟩ := hq
  rw [rubyVersionOf_of_components hp, rubyVersionOf_of_components hq, stripPrefix_append, stripPrefix_append] at h
  simp only [Option.bind_some] at h
  have hvw : v = w := by
    by_cases hv : v = pinnedRuby
    · by_cases hw : w = pinnedRuby
      · rw [hv, hw]
      · rw [if_neg (not_not.2 hv), if_pos hw] at h
        cases h
    · by_cases hw : w = pinnedRuby
      · rw [if_pos hv, if_neg (not_not.2 hw)] at h
        cases h
      · rw [if_pos hv, if_pos hw] at h
        exact Option.some.inj h
  rw [hp, hq, hvw]

/-- Rubies below one vendor directory and apps whose paths are text, with salts like those of the callers, keep
apart. -/
theorem oneSocket_vendored {I : Type*} (interp : List Component → I) (runtimeDir : PathBuf) {vendor p q : PathBuf}
    (hp : Vendored vendor p) (hq : Vendored vendor q) {a b : FoundApp} (ha : TextApp a.toAppConfig)
    (hb : TextApp b.toAppConfig) {salt salt' : Str} (hs : nul ∉ salt) (hs' : nul ∉ salt') :
    OneSocket interp runtimeDir p q a.toAppConfig b.toAppConfig salt salt' where
  generic h := by rw [hp.components_eq hq ((daemonDirFor_eq_iff runtimeDir p q).1 h)]
  app h := by
    obtain ⟨hroot, hpreload, hsalt⟩ := (appKey_eq_iff a b salt salt' p q).1 h
    obtain ⟨hsalts, hversion⟩ := (saltVersion_eq_iff hs hs' p q).1 hsalt
    refine ⟨by rw [hp.components_eq hq hversion], ?_, by rw [shownPreload_inj ha hb hpreload], hsalts⟩
    have hsame : a.root = b.root := by rw [← ha.root, ← hb.root, hroot]
    rw [hsame]

/-- One of the rubies is installed under a version, and the other one is not installed under it. -/
def RubiesApart (p q : PathBuf) : Prop := ∃ v, Shows p v ∧ ¬Shows q v ∨ Shows q v ∧ ¬Shows p v

/-- The roots or the preloads are displayed differently, or the rubies tell apart what has one salt, or the salts differ
otherwise than by the version of one ruby that the other one does not show. -/
def AppsApart (p q : PathBuf) (a b : AppConfig) (salt salt' : Str) : Prop :=
  fromUtf8Lossy a.root ≠ fromUtf8Lossy b.root ∨ a.shownPreload ≠ b.shownPreload ∨
    (salt = salt' → RubiesApart p q) ∧ ¬SaltShows salt salt' p q ∧ ¬SaltShows salt' salt q p

private theorem rubiesApart_iff (p q : PathBuf) : RubiesApart p q ↔ rubyVersionOf p ≠ rubyVersionOf q := by
  rw [Ne, rubyVersionOf_eq_iff, not_forall]
  exact exists_congr fun v => by tauto

private theorem appsApart_iff (p q : FoundRuby) (a b : FoundApp) (salt salt' : Str) :
    AppsApart p.path q.path a.toAppConfig b.toAppConfig salt salt' ↔
      appKey a.toAppConfig salt p.path ≠ appKey b.toAppConfig salt' q.path := by
  rw [Ne, appKey_eq_iff, saltVersion_eq_iff_shows, ← rubyVersionOf_eq_iff, AppsApart, rubiesApart_iff]
  tauto

/-- The rubies below one vendor directory and the apps whose paths are text have their own sockets.  In general, two
different interpreters have their own exactly if one of them is installed under a version and the other one is not
installed under it, and apps that differ in anything exactly if their keys show it. -/
theorem one_socket_iff {I : Type*} (interp : List Component → I) (runtimeDir : PathBuf) (p q : FoundRuby)
    (a b : FoundApp) (salt salt' : Str) :
    ((∃ vendor, Vendored vendor p.path ∧ Vendored vendor q.path) → TextApp a.toAppConfig → TextApp b.toAppConfig →
        nul ∉ salt → nul ∉ salt' →
        OneSocket interp runtimeDir p.path q.path a.toAppConfig b.toAppConfig salt salt') ∧
      (interp (components p.path) ≠ interp (components q.path) →
        (OneSocket interp runtimeDir p.path q.path a.toAppConfig b.toAppConfig salt salt' ↔
          RubiesApart p.path q.path ∧ AppsApart p.path q.path a.toAppConfig b.toAppConfig salt salt')) ∧
      (interp (components p.path) = interp (components q.path) →
        ¬(components a.root = components b.root ∧ a.preload.map components = b.preload.map components ∧
          salt = salt') →
        (OneSocket interp runtimeDir p.path q.path a.toAppConfig b.toAppConfig salt salt' ↔
          AppsApart p.path q.path a.toAppConfig b.toAppConfig salt salt')) := by
  refine ⟨?_, fun hne => ?_, fun heq hne => ?_⟩
  · rintro ⟨vendor, hp, hq⟩ ha hb hs hs'
    exact oneSocket_vendored interp runtimeDir hp hq ha hb hs hs'
  · rw [rubiesApart_iff, appsApart_iff]
    constructor
    · intro h
      refine ⟨fun hv => hne (h.generic ((daemonDirFor_eq_iff ..).2 hv)), fun hk => hne (h.app hk).1⟩
    · rintro ⟨hv, hk⟩
      exact ⟨fun h => absurd ((daemonDirFor_eq_iff ..).1 h) hv, fun h => absurd h hk⟩
  · rw [appsApart_iff]
    constructor
    · intro h hk
      exact hne (h.app hk).2
    · intro hk
      exact ⟨fun _ => heq, fun h => absurd h hk⟩

/-- Two rubies of an installation, and two apps under them. -/
theorem one_socket_sample :
    OneSocket id (utf8 "/run".toList) (utf8 "/c/vendor/ruby-3.4.4/bin/ruby".toList)
      (utf8 "/c/vendor/ruby-3.4.10/bin/ruby".toList)
      { root := utf8 "/a".toList, preload := none, compact := none, yjit := none, warmup := none, scripts := [] }
      { root := utf8 "/b".toList, preload := none, compact := none, yjit := none, warmup := none, scripts := [] }
      [] "test".toList := by
  have htext : ∀ {a : AppConfig}, IsText a.root → a.preload = none → TextApp a := by
    intro a hroot hnone
    refine ⟨hroot, fun p hp => ?_⟩
    rw [hnone] at hp
    cases hp
  refine (one_socket_iff id (utf8 "/run".toList)
    ⟨utf8 "/c/vendor/ruby-3.4.4/bin/ruby".toList, by decide⟩
    ⟨utf8 "/c/vendor/ruby-3.4.10/bin/ruby".toList, by decide⟩
    ⟨{ root := utf8 "/a".toList, preload := none, compact := none, yjit := none, warmup := none, scripts := [] },
      by decide, by simp⟩
    ⟨{ root := utf8 "/b".toList, preload := none, compact := none, yjit := none, warmup := none, scripts := [] },
      by decide, by simp⟩ [] "test".toList).1
    ⟨utf8 "/c/vendor".toList, ⟨"3.4.4".toList, by decide +kernel⟩, ⟨"3.4.10".toList, by decide +kernel⟩⟩ ?_ ?_
    (by decide) (by decide)
  · exact htext (by unfold IsText; decide +kernel) rfl
  · exact htext (by unfold IsText; decide +kernel) rfl

/-- For rubies that show the same version, or none, an app has one directory. -/
theorem appRuntimeDirFor_eq {p q : PathBuf} (h : rubyVersionOf p = rubyVersionOf q) (runtimeDir : PathBuf)
    (app : AppConfig) (salt : Str) :
    appRuntimeDirFor runtimeDir app salt p = appRuntimeDirFor runtimeDir app salt q := by
  unfold appRuntimeDirFor appKey
  rw [h]

/-- The ruby of the system and one of rbenv have one socket, and so have the daemons of every app for them. -/
theorem versions_share_socket :
    (¬∀ runtimeDir p q : PathBuf, components (daemonDirFor runtimeDir p) = components (daemonDirFor runtimeDir q) →
      components p = components q) ∧
    ∀ (app : AppConfig) (salt : Str), ¬∀ runtimeDir p q : PathBuf,
      appRuntimeDirFor runtimeDir app salt p = appRuntimeDirFor runtimeDir app salt q →
        components p = components q := by
  have hsystem : rubyVersionOf (utf8 "/usr/bin/ruby".toList) = none := by decide +kernel
  have hrbenv : rubyVersionOf (utf8 "/opt/rbenv/versions/3.3.0/bin/ruby".toList) = none := by decide +kernel
  have hversion := hsystem.trans hrbenv.symm
  have hne : components (utf8 "/usr/bin/ruby".toList) ≠
      components (utf8 "/opt/rbenv/versions/3.3.0/bin/ruby".toList) := by decide +kernel
  refine ⟨fun h => hne (h (utf8 "/run".toList) _ _ ((daemonDirFor_eq_iff _ _ _).2 hversion)), fun app salt h => ?_⟩
  exact hne (h (utf8 "/run".toList) _ _ (appRuntimeDirFor_eq hversion _ app salt))

end Calisto.App

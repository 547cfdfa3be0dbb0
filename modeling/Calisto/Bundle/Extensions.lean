import Calisto.Bundle.Reachable
import Calisto.Bundle.Termination

/-!
# Native extensions among the files

An extension of a gem becomes bytes that `load_native` loads.  One of the project becomes Ruby code, like every other
file of the project.
-/

namespace Calisto

namespace Build

variable {P : Project}

/-! ### What the loader does with an extension -/

/-- What is native is loaded by `load_native` and by nothing else. -/
theorem native_frames {B : Bundle.Maps} {s : Bundle.St}
    (h : Machine.Reach (Bundle.step B) Machine.Free (Bundle.start B) s) :
    ∀ f ∈ s.stack, B.native f.file = true → f = .native f.file := by
  apply Bundle.frames_of_reach (I := fun f => B.native f.file = true → f = .native f.file) h
  · exact fun _ _ _ => rfl
  · intro p hnot _ hnative
    exact absurd (hnot.symm.trans hnative) Bool.false_ne_true
  · intro f g hnext hf hnative
    rw [hnext.file_eq] at hnative
    rw [hf hnative] at hnext
    cases hnext

/-! ### What the collection stores -/

/-- The bytes are those of the files. -/
def Stores (fs : Fs) (native : List (Str × Bytes)) : Prop := ∀ entry ∈ native, fs.lookup entry.1 = some entry.2

private theorem hasKey_iff {β : Type} {hash : List (Str × β)} {key : Str} :
    hasKey hash key = true ↔ ∃ value, (key, value) ∈ hash := by
  rw [hasKey, List.any_eq_true]
  constructor
  · rintro ⟨⟨k, value⟩, hmem, hk⟩
    exact ⟨value, eq_of_beq hk ▸ hmem⟩
  · rintro ⟨value, hmem⟩
    exact ⟨(key, value), hmem, beq_self_eq_true key⟩

section Store

variable {β : Type} {hash : List (Str × β)} {key k : Str} {value : β}

theorem mem_store {entry : Str × β} (h : entry ∈ store hash key value) : entry ∈ hash ∨ entry = (key, value) := by
  unfold store at h
  split at h
  · obtain ⟨e, he, rfl⟩ := List.mem_map.1 h
    split
    · exact .inr rfl
    · exact .inl he
  · rcases List.mem_append.1 h with h | h
    · exact .inl h
    · exact .inr (List.mem_singleton.1 h)

private theorem hasKey_store (h : hasKey hash k = true) : hasKey (store hash key value) k = true := by
  unfold store
  split
  · obtain ⟨v, hv⟩ := hasKey_iff.1 h
    by_cases hk : k = key
    · exact hasKey_iff.2 ⟨value, List.mem_map.2 ⟨(k, v), hv, by simp [hk]⟩⟩
    · exact hasKey_iff.2 ⟨v, List.mem_map.2 ⟨(k, v), hv, by simp [hk]⟩⟩
  · obtain ⟨v, hv⟩ := hasKey_iff.1 h
    exact hasKey_iff.2 ⟨v, List.mem_append_left _ hv⟩

private theorem hasKey_store_self : hasKey (store hash key value) key = true := by
  by_cases h : hasKey hash key = true
  · exact hasKey_store h
  · rw [store, if_neg h]
    exact hasKey_iff.2 ⟨value, by simp⟩

theorem mem_storeNew {entry : Str × β} (h : entry ∈ storeNew hash key value) : entry ∈ hash ∨ entry = (key, value) := by
  unfold storeNew at h
  split at h
  · exact .inl h
  · rcases List.mem_append.1 h with h | h
    · exact .inl h
    · exact .inr (List.mem_singleton.1 h)

private theorem hasKey_storeNew (h : hasKey hash k = true) : hasKey (storeNew hash key value) k = true := by
  unfold storeNew
  split
  · exact h
  · obtain ⟨v, hv⟩ := hasKey_iff.1 h
    exact hasKey_iff.2 ⟨v, List.mem_append_left _ hv⟩

end Store

/-- The names of a file store the bytes of what they resolve to. -/
theorem stored_stores {native : List (Str × Bytes)} (h : Stores P.fs native) (resolved : Option Str) :
    Stores P.fs (P.stored native resolved) := by
  unfold Project.stored
  split
  · split
    · rename_i path bytes hbytes
      split
      · intro entry hentry
        rcases mem_store hentry with hentry | rfl
        · exact h entry hentry
        · exact hbytes
      · exact h
    · exact h
  · exact h

theorem hasKey_stored {native : List (Str × Bytes)} {k : Str} (h : hasKey native k = true) (resolved : Option Str) :
    hasKey (P.stored native resolved) k = true := by
  unfold Project.stored
  split
  · split
    · split
      · exact hasKey_store h
      · exact h
    · exact h
  · exact h

theorem hasKey_stored_self {native : List (Str × Bytes)} {path : Str} (hfile : isFile P.fs path = true)
    (h : P.extracts path = true) : hasKey (P.stored native (some path)) path = true := by
  obtain ⟨bytes, hbytes⟩ := lookup_of_isFile hfile
  simp only [Project.stored, hbytes, h, if_true]
  exact hasKey_store_self

private theorem foldl_stored {native : List (Str × Bytes)} (h : Stores P.fs native) (resolved : List (Option Str)) :
    Stores P.fs (resolved.foldl P.stored native) ∧
      (∀ k, hasKey native k = true → hasKey (resolved.foldl P.stored native) k = true) ∧
      ∀ path, some path ∈ resolved → isFile P.fs path = true → P.extracts path = true →
        hasKey (resolved.foldl P.stored native) path = true := by
  induction resolved generalizing native with
  | nil => exact ⟨h, fun _ hk => hk, fun _ hp => absurd hp List.not_mem_nil⟩
  | cons r resolved ih =>
    rw [List.foldl_cons]
    obtain ⟨hstores, hkeys, hall⟩ := ih (stored_stores h r)
    refine ⟨hstores, fun k hk => hkeys k (hasKey_stored hk r), fun path hpath hfile hextracts => ?_⟩
    rcases List.mem_cons.1 hpath with rfl | hpath
    · exact hkeys path (hasKey_stored_self hfile hextracts)
    · exact hall path hpath hfile hextracts

/-- The extensions of gems that the processed files require have been stored. -/
structure Project.Natives (P : Project) (c : Collection) : Prop where
  stores : Stores P.fs c.native
  complete : ∀ file ∈ c.files, ∀ path, P.Requires file path → P.extracts path = true → hasKey c.native path = true

private theorem Turn.natives {c c' : Collection} (hturn : Turn P c (.ok c')) (h : P.Natives c) : P.Natives c' := by
  generalize hr : Except.ok c' = r at hturn
  cases hturn with
  | skip file queue => cases hr; exact ⟨h.stores, h.complete⟩
  | raise file queue e => cases hr
  | visit file queue src resolved c₁ hqueue hfile hsrc hall hfiles hqueue' hnative =>
    cases hr
    obtain ⟨hstores, hkeys, hnew⟩ := foldl_stored h.stores resolved
    rw [← hnative] at hstores hkeys hnew
    refine ⟨hstores, fun f hf path hrequires hextracts => ?_⟩
    rw [hfiles] at hf
    rcases List.mem_append.1 hf with hf | hf
    · exact hkeys path (h.complete f hf path hrequires hextracts)
    · rw [List.mem_singleton.1 hf] at hrequires
      exact hnew path (resolved_of_requires hsrc hall hrequires) hrequires.isFile hextracts

/-- What the directories of the gems add changes nothing that has been stored. -/
theorem nativeFiles_spec {c : Collection} (h : Stores P.fs c.native) :
    Stores P.fs (P.nativeFiles c) ∧ ∀ k, hasKey c.native k = true → hasKey (P.nativeFiles c) k = true := by
  unfold Project.nativeFiles
  generalize (c.nativeGems.flatMap _) = files
  generalize c.native = native at h
  induction files generalizing native with
  | nil => exact ⟨h, fun _ hk => hk⟩
  | cons f files ih =>
    rw [List.foldl_cons]
    cases hbytes : P.fs.lookup f with
    | none => exact ih native h
    | some bytes =>
      have hstores : Stores P.fs (storeNew native f bytes) := by
        intro entry hentry
        rcases mem_storeNew hentry with hentry | rfl
        · exact h entry hentry
        · exact hbytes
      obtain ⟨hstores', hkeys⟩ := ih _ hstores
      exact ⟨hstores', fun k hk => hkeys k (hasKey_storeNew hk)⟩

private theorem lookup_of_hasKey {native : List (Str × Bytes)} {path : Str} (h : Stores P.fs native)
    (hkey : hasKey native path = true) : ∃ bytes, P.fs.lookup path = some bytes ∧
      (native.map fun entry => (entry.1, Base64.encode entry.2)).lookup path = some (Base64.encode bytes) := by
  induction native with
  | nil => exact absurd hkey Bool.false_ne_true
  | cons entry native ih =>
    by_cases hpath : entry.1 = path
    · refine ⟨entry.2, hpath ▸ h entry List.mem_cons_self, ?_⟩
      simp [hpath]
    · obtain ⟨v, hv⟩ := hasKey_iff.1 hkey
      have hv' : (path, v) ∈ native := by
        rcases List.mem_cons.1 hv with rfl | hv
        · exact absurd rfl hpath
        · exact hv
      obtain ⟨bytes, hbytes, hlookup⟩ := ih (fun e he => h e (List.mem_cons_of_mem entry he)) (hasKey_iff.2 ⟨v, hv'⟩)
      refine ⟨bytes, hbytes, ?_⟩
      have hne : (path == entry.1) = false := beq_eq_false_iff_ne.2 (Ne.symm hpath)
      rw [List.map_cons, List.lookup_cons, hne]
      exact hlookup

/-! ### The extensions in the bundle -/

/-- The bundle has the file as bytes, not as code, and no run of it evaluates the file. -/
structure Project.AsBytes (P : Project) (c : Collection) (path : Str) : Prop where
  native : ∃ bytes, P.fs.lookup path = some bytes ∧ (P.generate c).native.lookup path = some (Base64.encode bytes)
  code : (P.generate c).code path = none
  /-- `load_file` passes it to `load_native`. -/
  loads : ∀ s : Bundle.St, s.loaded path = false → s.loading path = false →
    (Bundle.loadFile (P.generate c).maps s path).stack = .native path :: s.stack
  never : ∀ s, Machine.Reach (Bundle.step (P.generate c).maps) Machine.Free (Bundle.start (P.generate c).maps) s →
    ∀ f ∈ s.stack, f.file = path → f = .native path

theorem code_eq_none_iff {c : Collection} {path : Str} (hfile : isFile P.fs path = true) :
    (P.generate c).code path = none ↔ path ∉ c.files := by
  obtain ⟨bytes, hbytes⟩ := lookup_of_isFile hfile
  simp [Project.generate, Project.split, hbytes]

private theorem asBytes_of {c : Collection} {path : Str} (h : P.Natives c) (hfile : isFile P.fs path = true)
    (hkey : hasKey c.native path = true) (hnot : path ∉ c.files) : P.AsBytes c path := by
  obtain ⟨hstores, hkeys⟩ := nativeFiles_spec h.stores
  have hmaps : (P.generate c).maps.native path = true := by
    obtain ⟨bytes, hbytes⟩ := hasKey_iff.1 (hkeys path hkey)
    exact hasKey_iff.2 ⟨Base64.encode bytes, List.mem_map.2 ⟨(path, bytes), hbytes, rfl⟩⟩
  refine ⟨lookup_of_hasKey hstores (hkeys path hkey), (code_eq_none_iff hfile).2 hnot, ?_, ?_⟩
  · intro s hloaded hloading
    simp [Bundle.loadFile, hloaded, hloading, hmaps]
  · rintro s hs f hf rfl
    exact native_frames hs f hf hmaps

/-- What the collection has found: its files, and the extensions of gems in bytes. -/
theorem collection_spec {n : Nat} {c : Collection} (h : P.loop n P.start = some (.ok c)) : P.Natives c :=
  (loop_invariant (I := P.Natives) (fun _ _ _ hI hturn => hturn.natives hI) P.inv_start
    ⟨fun _ he => absurd he List.not_mem_nil, fun _ hf => absurd hf List.not_mem_nil⟩ h).2.2

/-- An extension of the project is embedded like any other file. -/
theorem embeds_of_project {path : Str} (h : P.origin path = .project) : P.embeds path = true := by
  simp [Project.embeds, h]

private theorem extracts_of_gem {path name : Str} {cExt : Bool} (h : P.origin path = .gem name cExt)
    (hext : isNativeExt (extname path) = true) : P.extracts path = true := by
  simp [Project.extracts, h, hext]

/-- In a bundle that has been built, the extensions of the project and of gems that static names of its files resolve to
are all there as bytes, and never evaluated, exactly when none of them is of the project and none is the entry. -/
theorem extensions_embedded (P : Project) (n : Nat) (c : Collection) (h : P.loop n P.start = some (.ok c)) :
    (∀ file ∈ c.files, ∀ path, P.Requires file path → isNativeExt (extname path) = true → P.origin path ≠ .stdlib →
      P.AsBytes c path) ↔
    ∀ file path, P.Reached file → P.Requires file path → isNativeExt (extname path) = true →
      P.origin path ≠ .project ∧ (P.origin path ≠ .stdlib → path ≠ P.entry) := by
  constructor
  · intro hall file path hreached hrequires hext
    have hfile := hrequires.isFile
    have hcode : P.origin path ≠ .stdlib → path ∉ c.files := fun horigin =>
      (code_eq_none_iff hfile).1 (hall file ((mem_files_iff h).2 hreached) path hrequires hext horigin).code
    constructor
    · intro hproject
      apply hcode (by simp [hproject])
      exact (mem_files_iff h).2 (hreached.tail ⟨hrequires, embeds_of_project hproject⟩)
    · rintro horigin rfl
      exact hcode horigin ((mem_files_iff h).2 .refl)
  · intro hcond file hmem path hrequires hext horigin
    obtain ⟨hproject, hentry⟩ := hcond file path ((mem_files_iff h).1 hmem) hrequires hext
    have hfile := hrequires.isFile
    have hextracts : P.extracts path = true := by
      cases hgem : P.origin path with
      | gem name cExt => exact extracts_of_gem hgem hext
      | project => exact absurd hgem hproject
      | stdlib => exact absurd hgem horigin
    have hnatives := collection_spec h
    apply asBytes_of hnatives hfile (hnatives.complete file hmem path hrequires hextracts)
    -- nothing but the entry is embedded without being of the project or Ruby
    intro hin
    rcases Relation.ReflTransGen.cases_tail ((mem_files_iff h).1 hin) with he | ⟨_, -, -, hembeds⟩
    · exact hentry horigin he
    · rw [not_embeds_of_extracts hextracts] at hembeds
      exact Bool.false_ne_true hembeds

private theorem requires_of_forall {Q : Str → Prop} (h : ∀ entry ∈ P.fs, ∀ name ∈ P.requires entry.2,
    ∀ path ∈ (P.resolve name.1 name.2 entry.1).toOption.join, Q path) {file path : Str}
    (hrequires : P.Requires file path) : Q path := by
  obtain ⟨src, kind, ident, hsrc, hname, hresolve⟩ := hrequires
  apply h (file, src) (mem_of_lookup hsrc) (kind, ident) hname
  simp [hresolve, Except.toOption]

/-- `main.rb` requires an extension, in a directory of the load path. -/
def withExtension (dir : String) (gemPaths : List GemPath) : Project where
  env := oneUser
  fs := [("/app/main.rb".toList, [1]), (dir.toList ++ "/ext.so".toList, [127, 69, 76, 70])]
  entry := "/app/main.rb".toList
  root := "/app".toList
  gemPaths := gemPaths
  requires src := if src = [1] then [(.require, "ext".toList)] else []
  entry_isFile := rfl

def ofGem : Project := withExtension "/gems/g" [⟨"/gems/g".toList, "g".toList, true⟩]

def ofProject : Project := withExtension "/app" []

/-- The extension of a gem is embedded as bytes. -/
theorem extensions_embedded_gem :
    ∃ n c, ofGem.loop n ofGem.start = some (.ok c) ∧ ofGem.AsBytes c "/gems/g/ext.so".toList := by
  have hends : (ofGem.loop 2 ofGem.start).any (·.isOk) = true ∧
      (∀ entry ∈ ofGem.fs, ∀ name ∈ ofGem.requires entry.2,
        ∀ path ∈ (ofGem.resolve name.1 name.2 entry.1).toOption.join,
          ofGem.origin path ≠ .project ∧ (ofGem.origin path ≠ .stdlib → path ≠ ofGem.entry)) ∧
      ofGem.resolve .require "ext".toList ofGem.entry = .ok (some "/gems/g/ext.so".toList) ∧
      ofGem.origin "/gems/g/ext.so".toList ≠ .stdlib := by
    decide +kernel
  obtain ⟨hends, hcond, hresolve, horigin⟩ := hends
  obtain ⟨r, hloop, hok⟩ := (Option.any_eq_true _ _).1 hends
  cases r with
  | error e => exact absurd hok Bool.false_ne_true
  | ok c =>
    refine ⟨2, c, hloop, ?_⟩
    apply (extensions_embedded ofGem 2 c hloop).2 (fun file path _ hrequires _ => requires_of_forall hcond hrequires)
      ofGem.entry ((mem_files_iff hloop).2 .refl)
    · exact ⟨[1], .require, "ext".toList, rfl, by simp [ofGem, withExtension], hresolve⟩
    · decide
    · exact horigin

/-- The extension of the project is embedded as code and evaluated. -/
theorem project_extension_evaluated :
    ∃ n c, ofProject.loop n ofProject.start = some (.ok c) ∧ "/app/main.rb".toList ∈ c.files ∧
      ofProject.Requires "/app/main.rb".toList "/app/ext.so".toList ∧
      isNativeExt (extname "/app/ext.so".toList) = true ∧ ofProject.origin "/app/ext.so".toList = .project ∧
      (ofProject.generate c).native = [] ∧
      (ofProject.generate c).code "/app/ext.so".toList = some [127, 69, 76, 70] ∧
      (∃ s, Machine.Reach (Bundle.step (ofProject.generate c).maps) Machine.Free
        (Bundle.start (ofProject.generate c).maps) s ∧ .eval "/app/ext.so".toList ∈ s.stack) ∧
      ¬ofProject.AsBytes c "/app/ext.so".toList := by
  have hrun : (ofProject.loop 2 ofProject.start).any (fun r => r.toOption.any fun c =>
      c.files.contains "/app/main.rb".toList ∧ (ofProject.generate c).native = [] ∧
        (ofProject.generate c).code "/app/ext.so".toList = some [127, 69, 76, 70] ∧
        (Machine.exec (Bundle.step (ofProject.generate c).maps) (Bundle.start (ofProject.generate c).maps)
          [.loader, .loader, .require "ext".toList, .loader, .loader]).any
          (fun s => s.stack.contains (.eval "/app/ext.so".toList))) = true := by
    decide +kernel
  obtain ⟨r, hloop, hr⟩ := (Option.any_eq_true _ _).1 hrun
  cases r with
  | error e => exact absurd hr Bool.false_ne_true
  | ok c =>
    simp only [Except.toOption, Option.any_some, decide_eq_true_eq] at hr
    obtain ⟨hmain, hnative, hcode, hexec⟩ := hr
    obtain ⟨s, hs, heval⟩ := Machine.Reach.of_any hexec
    have hresolve : ofProject.resolve .require "ext".toList "/app/main.rb".toList =
        .ok (some "/app/ext.so".toList) := by
      decide +kernel
    refine ⟨2, c, hloop, List.contains_iff_mem.1 hmain, ?_, by decide, by decide, hnative, hcode,
      ⟨s, hs, List.contains_iff_mem.1 heval⟩, ?_⟩
    · exact ⟨[1], .require, "ext".toList, rfl, by simp [ofProject, withExtension], hresolve⟩
    · intro h
      have hnone := h.code
      rw [hcode] at hnone
      cases hnone

end Build

end Calisto

import Calisto.Bundle.Extensions
import Calisto.Bundle.Rounds

/-!
# What the names of a bundle stand for

The index, the autoloads and the entry of a bundle name nothing but embedded files, so no run of a bundle ends because
the loader misses one.  A static name stands for the same file when the bundle runs as when it was built.
-/

namespace Calisto

namespace Bundle

variable {B : Maps} {s t : St} {a : Act}

/-- Whatever the maps name is embedded. -/
structure Maps.Closed (B : Maps) : Prop where
  entry : B.embedded B.entry = true
  index : ∀ ident path, B.index ident = some path → B.embedded path = true
  autoloads : ∀ file, ∀ t ∈ B.autoloads file, B.embedded t = true

/-- What a step calls is in the index, or it is code, or `preload` has it as its next target. -/
theorem call_cases {path : Str} (h : step B s a = some t) (hcall : t.ctl = .call path) :
    (∃ ident, B.index ident = some path) ∨ B.code path = true ∨
      ∃ abs todo kept progressed rest, s.stack = .preload abs (path :: todo) kept progressed :: rest := by
  cases a with
  | loader =>
    have hl : loaderStep B s = some t := h
    rcases hc : s.ctl with _ | p | b | e
    · rcases hs : s.stack with _ | ⟨⟨p, todo, kept, progressed⟩ | p | p, rest⟩ <;>
        simp only [loaderStep, hc, hs, Option.some.injEq, reduceCtorEq] at hl
      subst hl
      unfold preloadNext at hcall
      split at hcall
      · cases hcall
        exact .inr (.inr ⟨p, _, kept, progressed, rest, rfl⟩)
      · split at hcall <;> simp [hc] at hcall
    · simp only [loaderStep, hc, Option.some.injEq] at hl
      subst hl
      unfold loadFile at hcall
      split at hcall
      · simp at hcall
      · split at hcall
        · simp at hcall
        · split at hcall <;> simp at hcall
    · rcases hs : s.stack with _ | ⟨⟨p, todo, kept, progressed⟩ | p | p, rest⟩ <;>
        simp only [loaderStep, hc, hs, Option.some.injEq] at hl <;> subst hl <;> simp at hcall
    · rcases hs : s.stack with _ | ⟨⟨p, todo, kept, progressed⟩ | p | p, rest⟩ <;>
        simp only [loaderStep, hc, hs, Option.some.injEq, reduceCtorEq] at hl
      · split at hl <;> cases hl <;> simp [unwindPreload] at hcall
      · subst hl
        simp [unwind] at hcall
      · subst hl
        simp [unwind] at hcall
  | require ident =>
    obtain ⟨⟨hgo, -⟩, ht⟩ := Option.ite_none_right_eq_some.1 h
    cases ht
    unfold require at hcall
    split at hcall
    · rename_i abs habs
      cases hcall
      exact .inl ⟨ident, habs⟩
    · simp [hgo] at hcall
  | requireRelative abs =>
    obtain ⟨⟨hgo, -⟩, ht⟩ := Option.ite_none_right_eq_some.1 h
    cases ht
    unfold requireRelative at hcall
    split at hcall
    · rename_i hcode
      cases hcall
      exact .inr (.inl hcode)
    · split at hcall
      · rename_i hcode
        cases hcall
        exact .inr (.inl hcode)
      · simp [hgo] at hcall
  | raise e =>
    obtain ⟨-, ht⟩ := Option.ite_none_right_eq_some.1 h
    cases ht
    simp at hcall
  | rescue =>
    have hr : rescueStep s = some t := h
    unfold rescueStep at hr
    split at hr
    · obtain ⟨-, ht⟩ := Option.ite_none_right_eq_some.1 hr
      cases ht
      simp at hcall
    · simp at hr
  | finish =>
    have hf : finishStep s = some t := h
    unfold finishStep at hf
    split at hf <;> cases hf <;> simp [finish] at hcall

/-- Where the maps name embedded files only, the runs call embedded files only. -/
theorem Maps.Closed.embedded_of_call (hB : B.Closed) (h : Machine.Reach (step B) Machine.Free (start B) s) {path : Str}
    (hcall : s.ctl = .call path) : B.embedded path = true := by
  cases h with
  | refl =>
    cases hcall
    exact hB.entry
  | tail hr _ hstep =>
    rcases call_cases hstep hcall with ⟨ident, hindex⟩ | hcode | ⟨abs, todo, kept, progressed, rest, hstack⟩
    · exact hB.index ident path hindex
    · rw [Maps.embedded, hcode, Bool.or_true]
    · have hreg := registered_of_reach hr (.preload abs (path :: todo) kept progressed) (by simp [hstack])
      exact hB.autoloads abs path (hreg path (by simp))

end Bundle

namespace Build

variable {P : Project} {c c' : Collection}

/-- The file has the static name. -/
def Project.Static (P : Project) (file : Str) (kind : Kind) (ident : Str) : Prop :=
  ∃ src, P.fs.lookup file = some src ∧ (kind, ident) ∈ P.requires src

/-- Does a file become part of the bundle, as code or as bytes? -/
def Project.takes (P : Project) (path : Str) : Bool := P.embeds path || P.extracts path

theorem takes_of_embeds {path : Str} (h : P.embeds path = true) : P.takes path = true := by simp [Project.takes, h]

theorem takes_of_extracts {path : Str} (h : P.extracts path = true) : P.takes path = true := by simp [Project.takes, h]

/-! ### One name -/

/-- What a name adds to the index. -/
def Project.entered (P : Project) (index : Str → Option Str) (kind : Kind) (ident : Str) :
    Option Str → Str → Option Str
  | some path => if P.takes path && kind != .requireRelative then Function.update index ident (some path) else index
  | none => index

/-- What a name of the file adds to the autoloads. -/
def Project.registered (P : Project) (autoloads : Str → List Str) (kind : Kind) (file : Str) :
    Option Str → Str → List Str
  | some path =>
    if P.embeds path && kind == .autoload then Function.update autoloads file (autoloads file ++ [path]) else autoloads
  | none => autoloads

/-- An entry of the index was there before, or the name has made it. -/
private theorem entered_cases {index : Str → Option Str} {kind : Kind} {ident id p : Str}
    (h : P.entered index kind ident (some path) id = some p) :
    (id = ident ∧ p = path ∧ P.takes path = true ∧ kind ≠ .requireRelative) ∨ index id = some p := by
  rw [Project.entered] at h
  split at h
  · rename_i hcond
    simp only [Bool.and_eq_true, bne_iff_ne, ne_eq] at hcond
    by_cases hid : id = ident
    · subst hid
      rw [Function.update_self, Option.some.injEq] at h
      exact .inl ⟨rfl, h.symm, hcond⟩
    · rw [Function.update_of_ne hid] at h
      exact .inr h
  · exact .inr h

/-- An entry stays if the name, where it is the same, resolves to the same file. -/
private theorem entered_of_index {index : Str → Option Str} {kind : Kind} {ident id p : Str}
    (h : index id = some p) (hsame : id = ident → kind ≠ .requireRelative → path = p) :
    P.entered index kind ident (some path) id = some p := by
  rw [Project.entered]
  split
  · rename_i hcond
    simp only [Bool.and_eq_true, bne_iff_ne, ne_eq] at hcond
    by_cases hid : id = ident
    · rw [hid, Function.update_self, hsame hid hcond.2]
    · rwa [Function.update_of_ne hid]
  · exact h

/-- An autoload of a file was there before, or the name has made it. -/
private theorem registered_cases {autoloads : Str → List Str} {kind : Kind} {file f t : Str}
    (h : t ∈ P.registered autoloads kind file (some path) f) :
    t ∈ autoloads f ∨ f = file ∧ t = path ∧ P.embeds path = true ∧ kind = .autoload := by
  rw [Project.registered] at h
  split at h
  · rename_i hcond
    simp only [Bool.and_eq_true, beq_iff_eq] at hcond
    by_cases hf : f = file
    · subst hf
      rw [Function.update_self] at h
      exact (List.mem_append.1 h).imp_right fun ht => ⟨rfl, List.mem_singleton.1 ht, hcond⟩
    · rw [Function.update_of_ne hf] at h
      exact .inl h
  · exact .inl h

section Fields

variable (c : Collection) (kind : Kind) (ident file resolved name : Str)

@[simp] theorem autoloaded_index : (c.autoloaded kind file resolved).index = c.index := by
  unfold Collection.autoloaded
  split <;> rfl

@[simp] theorem queued_index : (c.queued resolved).index = c.index := by
  unfold Collection.queued
  split <;> rfl

@[simp] theorem nativeGem_index : (c.nativeGem name).index = c.index := by
  unfold Collection.nativeGem
  split <;> rfl

@[simp] theorem indexed_autoloadMap : (c.indexed kind ident resolved).autoloadMap = c.autoloadMap := by
  unfold Collection.indexed
  split <;> rfl

@[simp] theorem queued_autoloadMap : (c.queued resolved).autoloadMap = c.autoloadMap := by
  unfold Collection.queued
  split <;> rfl

@[simp] theorem nativeGem_autoloadMap : (c.nativeGem name).autoloadMap = c.autoloadMap := by
  unfold Collection.nativeGem
  split <;> rfl

end Fields

private theorem indexed_index (h : P.takes path = true) (c : Collection) (kind : Kind) (ident : Str) :
    (c.indexed kind ident path).index = P.entered c.index kind ident (some path) := by
  cases kind <;> simp [Collection.indexed, Project.entered, h]

theorem autoloaded_autoloadMap {path : Str} (h : P.embeds path = true) (c : Collection) (kind : Kind) (file : Str) :
    (c.autoloaded kind file path).autoloadMap = P.registered c.autoloadMap kind file (some path) := by
  cases kind <;> simp [Collection.autoloaded, Project.registered, h]

/-- What becomes of the index and of the autoloads. -/
theorem collectName_maps {file ident : Str} {kind : Kind} {resolved : Option Str}
    (h : P.resolve kind ident file = .ok resolved) (hc : P.collectName file c (kind, ident) = .ok c') :
    c'.index = P.entered c.index kind ident resolved ∧
      c'.autoloadMap = P.registered c.autoloadMap kind file resolved := by
  unfold Project.collectName at hc
  rw [h] at hc
  cases resolved with
  | none =>
    cases hc
    exact ⟨rfl, rfl⟩
  | some path =>
    obtain ⟨bytes, hbytes⟩ := lookup_of_isFile (resolve_isFile h)
    simp only [bind, Except.bind, pure, Except.pure] at hc
    cases horigin : P.origin path with
    | stdlib =>
      rw [horigin] at hc
      cases hc
      simp [Project.entered, Project.registered, Project.takes, Project.embeds, Project.extracts, horigin]
    | project =>
      rw [horigin] at hc
      cases hc
      have hembeds : P.embeds path = true := by simp [Project.embeds, horigin]
      refine ⟨?_, ?_⟩
      · rw [queued_index, autoloaded_index, indexed_index (takes_of_embeds hembeds)]
      · rw [queued_autoloadMap, autoloaded_autoloadMap hembeds, indexed_autoloadMap]
    | gem name cExt =>
      rw [horigin] at hc
      simp only [Project.collectGem, read, hbytes, bind, Except.bind, pure, Except.pure] at hc
      by_cases hnative : isNativeExt (extname path) = true
      · have hextracts : P.extracts path = true := by simp [Project.extracts, horigin, hnative]
        rw [if_pos hnative] at hc
        cases hc
        refine ⟨?_, ?_⟩
        · rw [indexed_index (takes_of_extracts hextracts), nativeGem_index]
        · simp [Project.registered, not_embeds_of_extracts hextracts]
      · rw [if_neg hnative] at hc
        by_cases hrb : extname path = ".rb".toList
        · have hembeds : P.embeds path = true := by simp [Project.embeds, horigin, hrb]
          rw [if_pos hrb] at hc
          cases hc
          refine ⟨?_, ?_⟩
          · rw [queued_index, autoloaded_index, indexed_index (takes_of_embeds hembeds), nativeGem_index]
          · rw [queued_autoloadMap, autoloaded_autoloadMap hembeds, indexed_autoloadMap, nativeGem_autoloadMap]
        · have hembeds : P.embeds path = false := by
            simp only [Project.embeds, horigin]
            rwa [beq_eq_false_iff_ne]
          have hextracts : P.extracts path = false := by
            simp only [Project.extracts, horigin]
            exact Bool.eq_false_iff.2 hnative
          rw [if_neg hrb] at hc
          cases hc
          simp [Project.entered, Project.registered, Project.takes, hembeds, hextracts]

/-- A name that is not relative resolves to the same file wherever it stands. -/
theorem resolve_of_ne {kind : Kind} (h : kind ≠ .requireRelative) (ident file : Str) :
    P.resolve kind ident file = resolveRequire P.env P.fs ident P.loadPath := by
  cases kind with
  | require => rfl
  | autoload => rfl
  | requireRelative => exact absurd rfl h

/-- A name of one of the files, by `require` or `autoload`, has been resolved to a file that the bundle takes. -/
structure Project.Lists (P : Project) (files : List Str) (ident path : Str) : Prop where
  static : ∃ file ∈ files, ∃ kind, kind ≠ .requireRelative ∧ P.Static file kind ident ∧
    P.resolve kind ident file = .ok (some path)
  takes : P.takes path = true

theorem Project.Lists.resolves {files : List Str} {ident path : Str} (h : P.Lists files ident path) :
    resolveRequire P.env P.fs ident P.loadPath = .ok (some path) := by
  obtain ⟨file, -, kind, hkind, -, hresolve⟩ := h.static
  rwa [resolve_of_ne hkind] at hresolve

theorem Project.Lists.mono {files files' : List Str} {ident path : Str} (h : P.Lists files ident path)
    (hfiles : ∀ f ∈ files, f ∈ files') : P.Lists files' ident path := by
  obtain ⟨⟨file, hfile, hstatic⟩, htakes⟩ := h
  exact ⟨⟨file, hfiles file hfile, hstatic⟩, htakes⟩

/-- What the maps of the collection say. -/
structure Project.Named (P : Project) (c : Collection) : Prop where
  names : ∀ ident path, c.index ident = some path → P.Lists c.files ident path
  has : ∀ ident path, c.index ident = some path → path ∈ c.files ∨ path ∈ c.queue ∨ hasKey c.native path = true
  targets : ∀ file, ∀ t ∈ c.autoloadMap file, t ∈ c.files ∨ t ∈ c.queue
  registers : ∀ file, ∀ t ∈ c.autoloadMap file, file ∈ c.files ∧ P.embeds t = true ∧
    ∃ ident, P.Static file .autoload ident ∧ P.resolve .autoload ident file = .ok (some t)

private theorem named_start (P : Project) : P.Named P.start where
  names _ _ h := by cases h
  has _ _ h := by cases h
  targets _ _ h := absurd h List.not_mem_nil
  registers _ _ h := absurd h List.not_mem_nil

/-- The head of the queue becomes one of the files. -/
theorem Project.Named.pop (h : P.Named c) {file : Str} {queue files : List Str} (hqueue : c.queue = file :: queue)
    (hfile : file ∈ files) (hfiles : ∀ f ∈ c.files, f ∈ files) :
    P.Named { c with queue := queue, files := files } := by
  have hleave : ∀ path, path ∈ c.queue → path ∈ files ∨ path ∈ queue := by
    intro path hpath
    rw [hqueue] at hpath
    rcases List.mem_cons.1 hpath with rfl | hpath
    · exact .inl hfile
    · exact .inr hpath
  refine ⟨fun ident path hi => (h.names ident path hi).mono hfiles, fun ident path hi => ?_, fun f t ht => ?_,
    fun f t ht => (h.registers f t ht).imp_left (hfiles f)⟩
  · rcases h.has ident path hi with hf | hq | hn
    · exact .inl (hfiles path hf)
    · exact (hleave path hq).imp_right .inl
    · exact .inr (.inr hn)
  · rcases h.targets f t ht with hf | hq
    · exact .inl (hfiles t hf)
    · exact hleave t hq

private theorem mem_added_or {files queue : List Str} {path : Str} (h : P.embeds path = true) :
    path ∈ files ∨ path ∈ queue ++ P.added files (some path) := by
  by_cases hf : path ∈ files
  · exact .inl hf
  · exact .inr (List.mem_append_right queue (mem_added.2 ⟨rfl, h, hf⟩))

private theorem collectName_named {file ident : Str} {kind : Kind} {resolved : Option Str} (h : P.Named c)
    (hfile : file ∈ c.files) (hstatic : P.Static file kind ident) (hresolve : P.resolve kind ident file = .ok resolved)
    (hc : P.collectName file c (kind, ident) = .ok c') :
    P.Named c' ∧ (∀ id path, c.index id = some path → c'.index id = some path) ∧
      ∀ path, resolved = some path → kind ≠ .requireRelative → P.takes path = true → c'.index ident = some path := by
  obtain ⟨c₁, hc₁, hfiles, hqueue, hnative⟩ := collectName_ok (c := c) hresolve
  obtain rfl : c₁ = c' := Except.ok.inj (hc₁.symm.trans hc)
  obtain ⟨hindex, hautoloads⟩ := collectName_maps hresolve hc
  cases resolved with
  | none =>
    simp only [Project.entered, Project.registered, Project.added, Project.stored, List.append_nil] at *
    refine ⟨⟨?_, ?_, ?_, ?_⟩, ?_, fun path he => by cases he⟩
    · rw [hindex, hfiles]
      exact h.names
    · rw [hindex, hfiles, hqueue, hnative]
      exact h.has
    · rw [hautoloads, hfiles, hqueue]
      exact h.targets
    · rw [hautoloads, hfiles]
      exact h.registers
    · rw [hindex]
      exact fun _ _ hi => hi
  | some path =>
    have hisFile := resolve_isFile hresolve
    -- what was there stays
    have hkeep : ∀ p, p ∈ c.files ∨ p ∈ c.queue ∨ hasKey c.native p = true →
        p ∈ c₁.files ∨ p ∈ c₁.queue ∨ hasKey c₁.native p = true := by
      intro p hp
      rw [hfiles, hqueue, hnative]
      exact hp.imp_right (Or.imp (List.mem_append_left _) fun hn => hasKey_stored hn (some path))
    have hnew : P.takes path = true → path ∈ c₁.files ∨ path ∈ c₁.queue ∨ hasKey c₁.native path = true := by
      intro htakes
      rw [hfiles, hqueue, hnative]
      rcases Bool.or_eq_true_iff.1 htakes with hembeds | hextracts
      · exact (mem_added_or hembeds).imp_right .inl
      · exact .inr (.inr (hasKey_stored_self hisFile hextracts))
    have hcases : ∀ id p, c₁.index id = some p →
        (id = ident ∧ p = path ∧ P.takes path = true ∧ kind ≠ .requireRelative) ∨ c.index id = some p := by
      rw [hindex]
      exact fun id p => entered_cases
    have htargets : ∀ f, ∀ t ∈ c₁.autoloadMap f, t ∈ c.autoloadMap f ∨
        f = file ∧ t = path ∧ P.embeds path = true ∧ kind = .autoload := by
      rw [hautoloads]
      exact fun f t => registered_cases
    refine ⟨⟨fun id p hi => ?_, fun id p hi => ?_, fun f t ht => ?_, fun f t ht => ?_⟩, fun id p hi => ?_, ?_⟩
    · rw [hfiles]
      rcases hcases id p hi with ⟨rfl, rfl, htakes, hkind⟩ | hi
      · exact ⟨⟨file, hfile, kind, hkind, hstatic, hresolve⟩, htakes⟩
      · exact h.names id p hi
    · rcases hcases id p hi with ⟨rfl, rfl, htakes, -⟩ | hi
      · exact hnew htakes
      · exact hkeep p (h.has id p hi)
    · rw [hfiles, hqueue]
      rcases htargets f t ht with ht | ⟨rfl, rfl, hembeds, -⟩
      · exact (h.targets f t ht).imp_right (List.mem_append_left _)
      · exact mem_added_or hembeds
    · rw [hfiles]
      rcases htargets f t ht with ht | ⟨rfl, rfl, hembeds, rfl⟩
      · exact h.registers f t ht
      · exact ⟨hfile, hembeds, ident, hstatic, hresolve⟩
    · rw [hindex]
      refine entered_of_index hi fun hid hkind => ?_
      -- the name resolves to the same file again
      have hsame := (h.names id p hi).resolves
      rw [hid, ← resolve_of_ne hkind ident file, hresolve, Except.ok.injEq] at hsame
      exact Option.some.inj hsame
    · rintro p hp hkind htakes
      cases hp
      simp [hindex, Project.entered, htakes, hkind]

/-! ### The search -/

private theorem foldlM_named {file : Str} {names : List (Kind × Str)} (h : P.Named c) (hfile : file ∈ c.files)
    (hnames : ∀ name ∈ names, P.Static file name.1 name.2)
    (hc : names.foldlM (P.collectName file) c = .ok c') :
    P.Named c' ∧ (∀ id path, c.index id = some path → c'.index id = some path) ∧
      ∀ kind ident path, (kind, ident) ∈ names → kind ≠ .requireRelative →
        P.resolve kind ident file = .ok (some path) → P.takes path = true → c'.index ident = some path := by
  induction names generalizing c with
  | nil =>
    cases hc
    exact ⟨h, fun _ _ hi => hi, fun _ _ _ hm => absurd hm List.not_mem_nil⟩
  | cons name names ih =>
    rw [List.foldlM_cons] at hc
    obtain ⟨c₁, hc₁, hc⟩ := except_bind_eq_ok hc
    cases hresolve : P.resolve name.1 name.2 file with
    | error e =>
      rw [collectName_error hresolve c] at hc₁
      cases hc₁
    | ok resolved =>
      obtain ⟨h₁, hkeep₁, hnew₁⟩ := collectName_named h hfile (hnames name List.mem_cons_self) hresolve hc₁
      obtain ⟨c₂, hc₂, hfiles, -⟩ := collectName_ok (c := c) hresolve
      obtain rfl : c₂ = c₁ := Except.ok.inj (hc₂.symm.trans hc₁)
      obtain ⟨h', hkeep, hnew⟩ := ih h₁ (hfiles ▸ hfile) (fun n hn => hnames n (List.mem_cons_of_mem name hn)) hc
      refine ⟨h', fun id path hi => hkeep id path (hkeep₁ id path hi), ?_⟩
      intro kind ident path hmem hkind hr htakes
      rcases List.mem_cons.1 hmem with rfl | hmem
      · rw [hr, Except.ok.injEq] at hresolve
        exact hkeep ident path (hnew₁ path hresolve.symm hkind htakes)
      · exact hnew kind ident path hmem hkind hr htakes

/-- The names of the processed files are in the index. -/
def Project.Indexed (P : Project) (c : Collection) : Prop :=
  ∀ file ∈ c.files, ∀ kind ident path, P.Static file kind ident → kind ≠ .requireRelative →
    P.resolve kind ident file = .ok (some path) → P.takes path = true → c.index ident = some path

private theorem turn_named (hc : P.turn c = .ok c') (h : P.Named c ∧ P.Indexed c) : P.Named c' ∧ P.Indexed c' := by
  obtain ⟨hnamed, hindexed⟩ := h
  unfold Project.turn at hc
  split at hc
  · cases hc
    exact ⟨hnamed, hindexed⟩
  · rename_i file queue hqueue
    split at hc
    · rename_i hfile
      cases hc
      exact ⟨hnamed.pop hqueue (List.contains_iff_mem.1 hfile) fun f hf => hf, hindexed⟩
    · obtain ⟨src, hsrc, hc⟩ := except_bind_eq_ok hc
      have hlookup : P.fs.lookup file = some src := by
        unfold read at hsrc
        split at hsrc
        · rename_i bytes hbytes
          rw [hbytes, Except.ok.inj hsrc]
        · cases hsrc
      have hpop : P.Named { c with queue := queue, files := c.files ++ [file] } :=
        hnamed.pop hqueue (by simp) fun f hf => List.mem_append_left _ hf
      obtain ⟨h', hkeep, hnew⟩ := foldlM_named hpop (by simp) (fun name hname => ⟨src, hlookup, hname⟩) hc
      refine ⟨h', fun f hf kind ident path hstatic hkind hresolve htakes => ?_⟩
      have hfiles : c'.files = c.files ++ [file] := by
        rcases foldlM_collectName (P := P) file (P.requires src)
          { c with queue := queue, files := c.files ++ [file] } with ⟨-, e, he⟩ | ⟨c₁, _, hc₁, -, hfiles, -⟩
        · rw [hc] at he
          cases he
        · rw [hc, Except.ok.injEq] at hc₁
          rw [hc₁]
          exact hfiles
      rw [hfiles] at hf
      rcases List.mem_append.1 hf with hf | hf
      · exact hkeep ident path (hindexed f hf kind ident path hstatic hkind hresolve htakes)
      · obtain ⟨src', hsrc', hname⟩ := hstatic
        rw [List.mem_singleton.1 hf] at hsrc' hresolve
        rw [hlookup, Option.some.injEq] at hsrc'
        subst hsrc'
        exact hnew kind ident path hname hkind hresolve htakes

/-- What the turns keep holds at the end. -/
theorem loop_keeps {I : Collection → Prop} (hI : ∀ c c', P.turn c = .ok c' → I c → I c') {n : Nat} (h : I c)
    (hloop : P.loop n c = some (.ok c')) : I c' := by
  induction n generalizing c with
  | zero =>
    obtain ⟨-, hloop⟩ := Option.ite_none_right_eq_some.1 hloop
    cases hloop
    exact h
  | succ n ih =>
    rw [Project.loop] at hloop
    split at hloop
    · cases hloop
      exact h
    · split at hloop
      · cases hloop
      · rename_i c₁ hc₁
        exact ih (hI c c₁ hc₁ h) hloop

theorem named_of_loop {n : Nat} (h : P.loop n P.start = some (.ok c)) : P.Named c ∧ P.Indexed c :=
  loop_keeps (I := fun c => P.Named c ∧ P.Indexed c) (fun _ _ => turn_named)
    ⟨named_start P, fun _ hf => absurd hf List.not_mem_nil⟩ h

/-! ### The maps of the bundle -/

theorem maps_code_iff {n : Nat} (h : P.loop n P.start = some (.ok c)) {path : Str} :
    (P.generate c).maps.code path = true ↔ path ∈ c.files := by
  have hcode : (P.generate c).maps.code path = ((P.generate c).code path).isSome := rfl
  rw [hcode]
  by_cases hmem : path ∈ c.files
  · have hfile := ((mem_files_iff h).1 hmem).isFile
    rw [Option.isSome_iff_ne_none, ne_eq, code_eq_none_iff hfile]
    exact iff_of_true (not_not_intro hmem) hmem
  · simp [Project.generate, hmem]

private theorem maps_native (P : Project) (c : Collection) (path : Str) :
    (P.generate c).maps.native path = hasKey (P.nativeFiles c) path := by
  show hasKey ((P.nativeFiles c).map fun entry => (entry.1, Base64.encode entry.2)) path = _
  rw [hasKey, hasKey, List.any_map]
  rfl

/-- The name by which a native file of a gem is required: below the first directory of a gem that it is in, without its
ending. -/
def Project.requireName (P : Project) (path : Str) : Option Str :=
  (P.gemPaths.find? fun gem => below gem.path path).map fun gem => withoutExt (path.drop (gem.path.length + 1))

/-- The names of the native files do not replace what is in the index. -/
theorem nativeIndex_spec (native : List (Str × Bytes)) (index : Str → Option Str) :
    (∀ ident path, index ident = some path → P.nativeIndex native index ident = some path) ∧
      ∀ ident path, P.nativeIndex native index ident = some path →
        index ident = some path ∨ hasKey native path = true ∧ P.requireName path = some ident := by
  unfold Project.nativeIndex
  induction native generalizing index with
  | nil => exact ⟨fun _ _ hi => hi, fun _ _ hi => .inl hi⟩
  | cons entry native ih =>
    rw [List.foldl_cons]
    have hkey : ∀ path, hasKey native path = true → hasKey (entry :: native) path = true := by
      intro path hpath
      rw [hasKey, List.any_cons, Bool.or_eq_true]
      exact .inr hpath
    split
    · rename_i gem hgem
      have hname : P.requireName entry.1 = some (withoutExt (entry.1.drop (gem.path.length + 1))) := by
        rw [Project.requireName, hgem, Option.map_some]
      dsimp only
      generalize withoutExt (entry.1.drop (gem.path.length + 1)) = rel at hname
      by_cases hrel : (index rel).isSome = true
      · rw [if_pos hrel]
        obtain ⟨hkeep, hnew⟩ := ih index
        exact ⟨hkeep, fun ident path hi => (hnew ident path hi).imp_right (And.imp_left (hkey path))⟩
      · rw [if_neg hrel]
        obtain ⟨hkeep, hnew⟩ := ih (Function.update index rel (some entry.1))
        refine ⟨fun ident path hi => hkeep ident path ?_, fun ident path hi => ?_⟩
        · have hne : ident ≠ rel := by
            rintro rfl
            rw [hi] at hrel
            exact hrel rfl
          rw [Function.update_of_ne hne]
          exact hi
        · rcases hnew ident path hi with hupdate | hn
          · by_cases hid : ident = rel
            · subst hid
              rw [Function.update_self, Option.some.injEq] at hupdate
              subst hupdate
              exact .inr ⟨by simp [hasKey], hname⟩
            · rw [Function.update_of_ne hid] at hupdate
              exact .inl hupdate
          · exact .inr (hn.imp_left (hkey path))
    · obtain ⟨hkeep, hnew⟩ := ih index
      exact ⟨hkeep, fun ident path hi => (hnew ident path hi).imp_right (And.imp_left (hkey path))⟩

theorem maps_closed {n : Nat} (h : P.loop n P.start = some (.ok c)) : (P.generate c).maps.Closed := by
  obtain ⟨hnamed, -⟩ := named_of_loop h
  obtain ⟨hqueue, -⟩ := loop_ends h
  have hcode : ∀ path ∈ c.files, (P.generate c).maps.embedded path = true := fun path hpath => by
    rw [Bundle.Maps.embedded, (maps_code_iff h).2 hpath, Bool.or_true]
  have hnative : ∀ path, hasKey (P.nativeFiles c) path = true → (P.generate c).maps.embedded path = true :=
    fun path hpath => by rw [Bundle.Maps.embedded, maps_native, hpath, Bool.true_or]
  refine ⟨hcode P.entry ((mem_files_iff h).2 .refl), fun ident path hi => ?_, fun file t ht => ?_⟩
  · rcases (nativeIndex_spec _ _).2 ident path hi with hi | ⟨hn, -⟩
    · rcases hnamed.has ident path hi with hf | hq | hn
      · exact hcode path hf
      · rw [hqueue] at hq
        exact absurd hq List.not_mem_nil
      · exact hnative path ((nativeFiles_spec (collection_spec h).stores).2 path hn)
    · exact hnative path hn
  · rcases hnamed.targets file t ht with hf | hq
    · exact hcode t hf
    · rw [hqueue] at hq
      exact absurd hq List.not_mem_nil

/-- No run of a bundle that has been built asks the loader for a file that is not embedded: every call of `load_file`
answers `false` or begins to load its file, and none raises. -/
theorem bundle_closed (P : Project) (n : Nat) (c : Collection) (h : P.loop n P.start = some (.ok c)) (s : Bundle.St)
    (hs : Machine.Reach (Bundle.step (P.generate c).maps) Machine.Free (Bundle.start (P.generate c).maps) s)
    (path : Str) (hcall : s.ctl = .call path) :
    (P.generate c).maps.embedded path = true ∧
      ((Bundle.loadFile (P.generate c).maps s path).ctl = .ret false ∧
          (Bundle.loadFile (P.generate c).maps s path).files = s.files ∨
        (Bundle.loadFile (P.generate c).maps s path).ctl = .go ∧
          (Bundle.loadFile (P.generate c).maps s path).files = path :: s.files) := by
  have hB := (maps_closed h).embedded_of_call hs hcall
  refine ⟨hB, ?_⟩
  by_cases hknown : s.loaded path = true ∨ s.loading path = true
  · left
    have hret : Bundle.loadFile (P.generate c).maps s path = { s with ctl := .ret false } := by
      unfold Bundle.loadFile
      rw [if_pos (Bool.or_eq_true_iff.2 hknown)]
    rw [hret]
    exact ⟨rfl, rfl⟩
  · right
    rw [not_or, Bool.not_eq_true, Bool.not_eq_true] at hknown
    exact (Bundle.loadFile_enters hB hknown.1 hknown.2).symm

private theorem loads_of_pair : ∃ c, pair.loop 4 pair.start = some (.ok c) ∧
    ∃ s, Machine.Reach (Bundle.step (pair.generate c).maps) Machine.Free (Bundle.start (pair.generate c).maps) s ∧
      s.ctl = .call "/app/lib/a.rb".toList ∧ s.files = ["/app/main.rb".toList] := by
  have hrun : (pair.loop 4 pair.start).any (fun r => r.toOption.any fun c =>
      (Machine.exec (Bundle.step (pair.generate c).maps) (Bundle.start (pair.generate c).maps)
        [.loader, .loader, .loader, .loader, .finish, .loader, .loader, .require "lib/../lib/a".toList]).any
        (fun s => s.ctl = .call "/app/lib/a.rb".toList ∧ s.files = ["/app/main.rb".toList])) = true := by
    decide +kernel
  obtain ⟨r, hloop, hr⟩ := (Option.any_eq_true _ _).1 hrun
  cases r with
  | error e => exact absurd hr Bool.false_ne_true
  | ok c =>
    obtain ⟨s, hs, hp⟩ := Machine.Reach.of_any hr
    exact ⟨c, hloop, s, hs, of_decide_eq_true hp⟩

/-- `main.rb` requires `a.rb`, and its file is there. -/
theorem bundle_closed_pair : ∃ (c : Collection) (s : Bundle.St), pair.loop 4 pair.start = some (.ok c) ∧
    s.ctl = .call "/app/lib/a.rb".toList ∧ (pair.generate c).maps.embedded "/app/lib/a.rb".toList = true := by
  obtain ⟨c, hloop, s, hs, hcall, -⟩ := loads_of_pair
  exact ⟨c, s, hloop, hcall, (bundle_closed pair 4 c hloop s hs _ hcall).1⟩

/-! ### Relative names -/

/-- A name that ends with the name of a file and does not begin at a home directory. -/
structure Plain (ident : Str) : Prop where
  name : enter [] (ident.rtakeWhile (· ≠ '/')) = [ident.rtakeWhile (· ≠ '/')]
  home : ident.head? ≠ some '~'

/-- What the system answers about directories, and the entry, is absolute. -/
structure Project.Absolute (P : Project) : Prop where
  cwd : P.env.cwd.slashes ≠ 0
  home : ∀ user dir, P.env.home user = some dir → dir.slashes ≠ 0
  entry : P.entry.head? = some '/'

private theorem expandFrom_slashes {env : Env} {base : Except Exc AbsPath} {path : Str} {q : AbsPath}
    (h : expandFrom env base path = .ok q) (hbase : ∀ b, base = .ok b → b.slashes ≠ 0)
    (hhome : ∀ user dir, env.home user = some dir → dir.slashes ≠ 0) : q.slashes ≠ 0 := by
  unfold expandFrom at h
  split at h
  · cases h
  · split at h
    · cases h
      simp [AbsPath.below]
    · dsimp only at h
      split at h
      · rename_i dir hdir
        cases h
        exact hhome _ dir hdir
      · cases h
    · cases base with
      | error e => cases h
      | ok b =>
        cases h
        exact hbase b rfl

private theorem Project.Absolute.expand (hP : P.Absolute) {path : Str} {dir : Option Str} {q : AbsPath}
    (h : expandPath P.env path dir = .ok q) : q.text.head? = some '/' := by
  have hcwd : ∀ b, (.ok P.env.cwd : Except Exc AbsPath) = .ok b → b.slashes ≠ 0 := by
    rintro b hb
    cases hb
    exact hP.cwd
  have hslashes : q.slashes ≠ 0 := by
    cases dir with
    | none => exact expandFrom_slashes h hcwd hP.home
    | some dir =>
      simp only [expandPath] at h
      split at h
      · cases h
      · exact expandFrom_slashes h (fun b hb => expandFrom_slashes hb hcwd hP.home) hP.home
  obtain ⟨k, hk⟩ := Nat.exists_eq_succ_of_ne_zero hslashes
  simp [AbsPath.text, hk, List.replicate_succ]

theorem exists_of_mapM_ok {ε α β : Type} {f : α → Except ε β} {l : List α} {u : List β} (h : l.mapM f = .ok u) {b : β}
    (hb : b ∈ u) : ∃ a ∈ l, f a = .ok b := by
  induction l generalizing u with
  | nil =>
    cases h
    cases hb
  | cons a l ih =>
    rw [List.mapM_cons] at h
    obtain ⟨b', hb', h⟩ := except_bind_eq_ok h
    obtain ⟨u', hu', h⟩ := except_bind_eq_ok h
    cases h
    rcases List.mem_cons.1 hb with rfl | hb
    · exact ⟨a, List.mem_cons_self, hb'⟩
    · obtain ⟨a', ha', hfa⟩ := ih hu' hb
      exact ⟨a', List.mem_cons_of_mem a ha', hfa⟩

theorem Project.Absolute.resolve (hP : P.Absolute) {kind : Kind} {ident file path : Str}
    (h : P.resolve kind ident file = .ok (some path)) : path.head? = some '/' := by
  have hrequire : ∀ loadPath, resolveRequire P.env P.fs ident loadPath = .ok (some path) →
      path.head? = some '/' := by
    intro loadPath h
    obtain ⟨cands, hcands, h⟩ := except_bind_eq_ok h
    obtain ⟨l, hl, hpath⟩ := List.mem_flatten.1 (List.mem_of_find?_eq_some (Except.ok.inj h))
    obtain ⟨lp, -, hlp⟩ := exists_of_mapM_ok hcands hl
    unfold candidates at hlp
    obtain ⟨exact, hexact, hlp⟩ := except_bind_eq_ok hlp
    obtain ⟨rb, hrb, hlp⟩ := except_bind_eq_ok hlp
    obtain ⟨so, hso, hlp⟩ := except_bind_eq_ok hlp
    obtain ⟨bundle, hbundle, hlp⟩ := except_bind_eq_ok hlp
    cases hlp
    simp only [List.mem_cons, List.not_mem_nil, or_false] at hpath
    rcases hpath with rfl | rfl | rfl | rfl
    · exact hP.expand hexact
    · exact hP.expand hrb
    · exact hP.expand hso
    · exact hP.expand hbundle
  cases kind with
  | require => exact hrequire _ h
  | autoload => exact hrequire _ h
  | requireRelative =>
    obtain ⟨base, -, h⟩ := except_bind_eq_ok h
    obtain ⟨exact, hexact, h⟩ := except_bind_eq_ok h
    obtain ⟨rb, hrb, h⟩ := except_bind_eq_ok h
    have hpath := List.mem_of_find?_eq_some (Except.ok.inj h)
    simp only [List.mem_cons, List.not_mem_nil, or_false] at hpath
    rcases hpath with rfl | rfl
    · exact hP.expand hexact
    · exact hP.expand hrb

/-- The files that are found have absolute paths. -/
theorem Project.Absolute.reached (hP : P.Absolute) {file : Str} (h : P.Reached file) : file.head? = some '/' := by
  cases Relation.ReflTransGen.cases_tail h with
  | inl he =>
    rw [he]
    exact hP.entry
  | inr he =>
    obtain ⟨_, -, ⟨src, kind, ident, -, -, hresolve⟩, -⟩ := he
    exact hP.resolve hresolve

/-- The home directories matter only to a path that begins with a tilde. -/
theorem expandFrom_env (env env' : Env) (base : Except Exc AbsPath) {path : Str} (h : path.head? ≠ some '~') :
    expandFrom env base path = expandFrom env' base path := by
  cases path with
  | nil => rfl
  | cons c path =>
    by_cases hslash : c = '/'
    · subst hslash
      rfl
    · have htilde : c ≠ '~' := fun hc => h (by rw [hc]; rfl)
      simp [expandFrom, hslash, htilde]

/-- What a path that does not begin with a tilde is put below. -/
theorem expandFrom_eq_ok {env : Env} {base : Except Exc AbsPath} {path : Str} {q : AbsPath}
    (h : expandFrom env base path = .ok q) (htilde : path.head? ≠ some '~') :
    ∃ b, q = b.below path ∧
      (path.head? = some '/' ∧ b = ⟨(path.takeWhile (· = '/')).length, []⟩ ∨
        path.head? ≠ some '/' ∧ base = .ok b) := by
  unfold expandFrom at h
  split at h
  · cases h
  · split at h
    · cases h
      exact ⟨_, rfl, .inl ⟨rfl, rfl⟩⟩
    · exact absurd rfl htilde
    · rename_i hslash _
      cases base with
      | error e => cases h
      | ok b =>
        cases h
        refine ⟨b, rfl, .inr ⟨fun hs => ?_, rfl⟩⟩
        obtain ⟨rest, rfl⟩ := List.head?_eq_some_iff.1 hs
        exact hslash rest rfl

/-- An absolute path is the same on every machine. -/
theorem expandPath_env (env env' : Env) {path : Str} (h : path.head? = some '/') :
    expandPath env path none = expandPath env' path none := by
  obtain ⟨rest, rfl⟩ := List.head?_eq_some_iff.1 h
  rfl

private theorem expandPath_below_env (env env' : Env) {path dir : Str} (hdir : dir.head? = some '/')
    (hpath : path.head? ≠ some '~') : expandPath env path (some dir) = expandPath env' path (some dir) := by
  have hexpand : expandFrom env (.ok env.cwd) dir = expandFrom env' (.ok env'.cwd) dir := expandPath_env env env' hdir
  simp only [expandPath]
  rw [hexpand, expandFrom_env env env' _ hpath]

/-! ### The last name of a path -/

private theorem splitOn_last (ident : Str) : ∃ init, ∀ ext : Str, '/' ∉ ext →
    (ident ++ ext).splitOn '/' = init ++ [ident.rtakeWhile (· ≠ '/') ++ ext] := by
  induction ident using List.reverseRecOn with
  | nil => exact ⟨[], fun ext hext => by simp [List.splitOn_eq_singleton hext]⟩
  | append_singleton ident c ih =>
    by_cases hc : c = '/'
    · subst hc
      refine ⟨ident.splitOn '/', fun ext hext => ?_⟩
      rw [List.rtakeWhile_concat_neg _ _ _ (by simp), List.append_assoc, List.singleton_append,
        List.splitOn_append_cons_self, List.splitOn_eq_singleton hext, List.nil_append]
    · obtain ⟨init, hinit⟩ := ih
      refine ⟨init, fun ext hext => ?_⟩
      rw [List.rtakeWhile_concat_pos _ _ _ (by simpa using hc), List.append_assoc, List.append_assoc]
      exact hinit ([c] ++ ext) (by simp [hext, Ne.symm hc])

private theorem intercalate_append_last (sep : Str) (names : List Str) (name ext : Str) :
    sep.intercalate (names ++ [name ++ ext]) = sep.intercalate (names ++ [name]) ++ ext := by
  induction names with
  | nil => simp
  | cons n names ih =>
    cases names with
    | nil => simp [List.intercalate_cons_cons]
    | cons m names =>
      simp only [List.cons_append, List.intercalate_cons_cons, List.append_assoc] at ih ⊢
      rw [ih]

private theorem enter_of_plain {ident : Str} (h : Plain ident) (names : List Str) :
    enter names (ident.rtakeWhile (· ≠ '/')) = names ++ [ident.rtakeWhile (· ≠ '/')] := by
  have hname := h.name
  unfold enter at hname ⊢
  split at hname
  · simp at hname
  · rename_i hempty
    rw [if_neg hempty]
    split at hname
    · simp at hname
    · rename_i hparent
      rw [if_neg hparent]

/-- The candidate with the ending `.rb` is the exact one with `.rb` behind it. -/
theorem expandPath_rb {env : Env} {ident base : Str} {exact rb : AbsPath} (h : Plain ident)
    (hexact : expandPath env ident (some base) = .ok exact)
    (hrb : expandPath env (ident ++ ".rb".toList) (some base) = .ok rb) : rb.text = exact.text ++ ".rb".toList := by
  obtain ⟨init, hinit⟩ := splitOn_last ident
  -- both are the same directory with one more name
  have hbelow : ∀ q : AbsPath, (q.below (ident ++ ".rb".toList)).text = (q.below ident).text ++ ".rb".toList := by
    intro q
    have hplain := hinit [] (by simp)
    rw [List.append_nil, List.append_nil] at hplain
    have hname : enter (init.foldl enter q.names) (ident.rtakeWhile (· ≠ '/') ++ ".rb".toList) =
        init.foldl enter q.names ++ [ident.rtakeWhile (· ≠ '/') ++ ".rb".toList] := by
      have hlength : 3 ≤ (ident.rtakeWhile (· ≠ '/') ++ ".rb".toList).length := by simp
      unfold enter
      rw [if_neg, if_neg]
      · intro hd
        rw [hd] at hlength
        simp at hlength
      · rintro (hd | hd) <;> rw [hd] at hlength <;> simp at hlength
    rw [AbsPath.below, AbsPath.below, hplain, hinit ".rb".toList (by decide), List.foldl_append, List.foldl_append,
      List.foldl_cons, List.foldl_cons, List.foldl_nil, List.foldl_nil, hname, enter_of_plain h]
    simp only [AbsPath.text]
    rw [intercalate_append_last, List.append_assoc]
  simp only [expandPath] at hexact hrb
  split at hexact
  · cases hexact
  · rename_i hdir
    rw [if_neg hdir] at hrb
    obtain ⟨b, rfl, hb⟩ := expandFrom_eq_ok hexact h.home
    have hne : ident ≠ [] := by
      rintro rfl
      exact absurd h.name (by simp [enter])
    obtain ⟨b', rfl, hb'⟩ := expandFrom_eq_ok hrb (by rw [List.head?_append_of_ne_nil _ hne]; exact h.home)
    rw [List.head?_append_of_ne_nil _ hne] at hb'
    have hsame : b' = b := by
      rcases hb with ⟨hslash, rfl⟩ | ⟨hslash, hbase⟩
      · rw [(hb'.resolve_right fun h' => h'.1 hslash).2, List.takeWhile_append]
        split
        · rename_i hall
          rw [hall, List.length_append]
          rfl
        · rfl
      · have hbase' := (hb'.resolve_left fun h' => hslash h'.1).2
        rw [hbase, Except.ok.injEq] at hbase'
        exact hbase'.symm
    rw [hsame]
    exact hbelow b

/-! ### The names when the bundle runs -/

/-- `File.expand_path(path, base)` of `require_relative`, in a file that is called `file`. -/
def expandRelative (env : Env) (ident file : Str) : Except Exc AbsPath := do
  let base := (← expandPath env file none).dirname.text
  expandPath env ident (some base)

/-- A file of the project or of a gem that a static name of an embedded file resolves to is embedded. -/
theorem mem_files_of_resolve {n : Nat} (h : P.loop n P.start = some (.ok c)) {file ident path : Str} {kind : Kind}
    (hfile : file ∈ c.files) (hstatic : P.Static file kind ident)
    (hresolve : P.resolve kind ident file = .ok (some path)) (hembeds : P.embeds path = true) : path ∈ c.files := by
  obtain ⟨src, hsrc, hname⟩ := hstatic
  exact (mem_files_iff h).2 (((mem_files_iff h).1 hfile).tail ⟨⟨src, kind, ident, hsrc, hname, hresolve⟩, hembeds⟩)

section Static

variable {n : Nat} {file ident path : Str} {kind : Kind}

theorem require_static (h : P.loop n P.start = some (.ok c)) (hfile : file ∈ c.files)
    (hstatic : P.Static file kind ident) (hresolve : P.resolve kind ident file = .ok (some path))
    (htakes : P.takes path = true) (hkind : kind ≠ .requireRelative) (s : Bundle.St) :
    Bundle.require (P.generate c).maps s ident = { s with ctl := .call path } := by
  have hi := (named_of_loop h).2 file hfile kind ident path hstatic hkind hresolve htakes
  have hindex : (P.generate c).maps.index ident = some path := (nativeIndex_spec _ _).1 ident path hi
  rw [Bundle.require, hindex]

theorem requireRelative_static (hP : P.Absolute) (h : P.loop n P.start = some (.ok c)) (hfile : file ∈ c.files)
    (hstatic : P.Static file .requireRelative ident)
    (hresolve : P.resolve .requireRelative ident file = .ok (some path)) (hembeds : P.embeds path = true)
    (hplain : Plain ident) (env : Env) :
    ∃ abs, expandRelative env ident file = .ok abs ∧
      ∀ s, Bundle.requireRelative (P.generate c).maps s abs.text = { s with ctl := .call path } := by
  have hcode := (maps_code_iff h).2 (mem_files_of_resolve h hfile hstatic hresolve hembeds)
  obtain ⟨q, hq, hresolve⟩ := except_bind_eq_ok hresolve
  obtain ⟨exact, hexact, hresolve⟩ := except_bind_eq_ok hresolve
  obtain ⟨rb, hrb, hresolve⟩ := except_bind_eq_ok hresolve
  have hfound := Except.ok.inj hresolve
  refine ⟨exact, ?_, fun s => ?_⟩
  · have hbase : q.dirname.text.head? = some '/' := rfl
    rw [expandRelative, expandPath_env env P.env (hP.reached ((mem_files_iff h).1 hfile)), hq]
    exact (expandPath_below_env env P.env hbase hplain.home).trans hexact
  · by_cases hisFile : isFile P.fs exact.text = true
    · rw [List.find?_cons_of_pos hisFile, Option.some.injEq] at hfound
      rw [Bundle.requireRelative, hfound, if_pos hcode]
    · rw [List.find?_cons_of_neg hisFile, List.find?_singleton] at hfound
      obtain ⟨-, hpath⟩ := Option.ite_none_right_eq_some.1 hfound
      rw [Option.some.injEq, expandPath_rb hplain hexact hrb] at hpath
      -- what is no file has no code
      have hno : ¬(P.generate c).maps.code exact.text = true := fun hc =>
        hisFile ((mem_files_iff h).1 ((maps_code_iff h).1 hc)).isFile
      rw [Bundle.requireRelative, if_neg hno, hpath, if_pos hcode]

end Static

/-- A static name of an embedded file calls the file that it was resolved to, if the bundle has taken that file: one of
`require` and `autoload` always, and one of `require_relative` if it ends with the name of a Ruby file, wherever the
bundle runs.  The index has no other names than these and those by which the native files are required, and what is not
in it is left to the `require` of Ruby. -/
theorem static_names (P : Project) (hP : P.Absolute) (n : Nat) (c : Collection) (h : P.loop n P.start = some (.ok c)) :
    (∀ file ∈ c.files, ∀ kind ident path, P.Static file kind ident → P.resolve kind ident file = .ok (some path) →
      (kind ≠ .requireRelative → P.takes path = true →
        ∀ s, Bundle.require (P.generate c).maps s ident = { s with ctl := .call path }) ∧
      (kind = .requireRelative → P.embeds path = true → Plain ident →
        ∀ env, ∃ abs, expandRelative env ident file = .ok abs ∧
          ∀ s, Bundle.requireRelative (P.generate c).maps s abs.text = { s with ctl := .call path })) ∧
    (∀ ident path, (P.generate c).maps.index ident = some path →
      P.Lists c.files ident path ∨ (P.generate c).maps.native path = true ∧ P.requireName path = some ident) ∧
    ∀ ident, (P.generate c).maps.index ident = none → ∀ s, Bundle.require (P.generate c).maps s ident = s := by
  refine ⟨fun file hfile kind ident path hstatic hresolve => ⟨fun hkind htakes => ?_, ?_⟩, fun ident path hi => ?_,
    fun ident hi s => ?_⟩
  · exact require_static h hfile hstatic hresolve htakes hkind
  · rintro rfl hembeds hplain
    exact requireRelative_static hP h hfile hstatic hresolve hembeds hplain
  · rcases (nativeIndex_spec _ _).2 ident path hi with hi | ⟨hn, hname⟩
    · exact .inl ((named_of_loop h).1.names ident path hi)
    · exact .inr ⟨(maps_native P c path).trans hn, hname⟩
  · rw [Bundle.require, hi]

private theorem absolute_pair : pair.Absolute where
  cwd := by decide
  home user dir h := by
    obtain ⟨-, hdir⟩ := Option.ite_none_right_eq_some.1 h
    cases hdir
    decide
  entry := rfl

/-- `lib/a` of `main.rb` is `a.rb` wherever the bundle runs. -/
theorem static_names_pair : ∃ c, pair.loop 4 pair.start = some (.ok c) ∧
    ∀ env, ∃ abs, expandRelative env "lib/a".toList "/app/main.rb".toList = .ok abs ∧
      ∀ s, Bundle.requireRelative (pair.generate c).maps s abs.text =
        { s with ctl := .call "/app/lib/a.rb".toList } := by
  obtain ⟨c, hloop, -⟩ := loads_of_pair
  refine ⟨c, hloop, ?_⟩
  have hfile := (mem_files_iff hloop).2 .refl
  exact ((static_names pair absolute_pair 4 c hloop).1 _ hfile .requireRelative "lib/a".toList "/app/lib/a.rb".toList
    ⟨[1], rfl, by decide⟩ (by decide +kernel)).2 rfl (by decide +kernel) ⟨by decide, by decide⟩

end Build

end Calisto

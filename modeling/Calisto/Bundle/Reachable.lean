import Calisto.Bundle.Collect
import Calisto.Lib.Worklist

/-!
# What is embedded

The collection is a search along the static names.  It always comes to an end: with the least set of files that has the
entry and is closed under the names, each of them processed once, or with the exception that one of these names raises
when it is expanded.
-/

namespace Calisto

namespace Build

variable {P : Project}

/-- A static name of the file resolves to the other one. -/
def Project.Requires (P : Project) (file resolved : Str) : Prop :=
  ∃ src kind ident, P.fs.lookup file = some src ∧ (kind, ident) ∈ P.requires src ∧
    P.resolve kind ident file = .ok (some resolved)

/-- A static name of the file cannot be expanded. -/
def Project.Raises (P : Project) (file : Str) : Prop :=
  ∃ src kind ident e, P.fs.lookup file = some src ∧ (kind, ident) ∈ P.requires src ∧
    P.resolve kind ident file = .error e

/-- The files of the project, and those of gems that are Ruby. -/
def Project.embeds (P : Project) (resolved : Str) : Bool :=
  match P.origin resolved with
  | .gem _ _ => extname resolved == ".rb".toList
  | .project => true
  | .stdlib => false

def Project.Embeds (P : Project) (file resolved : Str) : Prop := P.Requires file resolved ∧ P.embeds resolved = true

/-- What is found along the static names, from the entry on. -/
def Project.Reached (P : Project) (file : Str) : Prop := Relation.ReflTransGen P.Embeds P.entry file

/-- The collection ends, and its files are the least set that has the entry and is closed under what static names
resolve to, in the project or in the Ruby of a gem, each of them processed once. -/
def Project.Complete (P : Project) : Prop :=
  ∃ n c, P.loop n P.start = some (.ok c) ∧ c.files.Nodup ∧
    IsLeast {S | Worklist.Closed P.Embeds P.entry S} {file | file ∈ c.files}

/-! ### Resolution -/

theorem except_bind_eq_ok {ε α β : Type} {x : Except ε α} {f : α → Except ε β} {b : β}
    (h : (x >>= f) = .ok b) : ∃ a, x = .ok a ∧ f a = .ok b := by
  cases x with
  | error e => cases h
  | ok a => exact ⟨a, rfl, h⟩

/-- What a name resolves to is a file. -/
theorem resolve_isFile {kind : Kind} {ident file resolved : Str}
    (h : P.resolve kind ident file = .ok (some resolved)) : isFile P.fs resolved = true := by
  have hrequire : ∀ loadPath, resolveRequire P.env P.fs ident loadPath = .ok (some resolved) →
      isFile P.fs resolved = true := by
    intro loadPath h
    obtain ⟨cands, -, h⟩ := except_bind_eq_ok h
    exact List.find?_some (Except.ok.inj h)
  cases kind with
  | require => exact hrequire _ h
  | autoload => exact hrequire _ h
  | requireRelative =>
    obtain ⟨base, -, h⟩ := except_bind_eq_ok h
    obtain ⟨exact, -, h⟩ := except_bind_eq_ok h
    obtain ⟨rb, -, h⟩ := except_bind_eq_ok h
    exact List.find?_some (Except.ok.inj h)

theorem mem_of_lookup {fs : Fs} {path : Str} {bytes : Bytes} (h : fs.lookup path = some bytes) :
    (path, bytes) ∈ fs := by
  obtain ⟨l₁, l₂, hfs, -⟩ := List.lookup_eq_some_iff.1 h
  simp [hfs]

theorem lookup_of_isFile {fs : Fs} {path : Str} (h : isFile fs path = true) : ∃ bytes, fs.lookup path = some bytes :=
  Option.isSome_iff_exists.1 h

theorem Project.Requires.isFile {file path : Str} (h : P.Requires file path) : isFile P.fs path = true := by
  obtain ⟨src, kind, ident, -, -, hresolve⟩ := h
  exact resolve_isFile hresolve

theorem Project.Reached.isFile {file : Str} (h : P.Reached file) : isFile P.fs file = true := by
  induction h with
  | refl => exact P.entry_isFile
  | tail _ hE _ => exact Project.Requires.isFile hE.1

/-! ### One name -/

section Fields

variable (c : Collection) (kind : Kind) (ident file resolved name : Str)

@[simp] theorem indexed_files : (c.indexed kind ident resolved).files = c.files := by
  unfold Collection.indexed
  split <;> rfl

@[simp] theorem indexed_queue : (c.indexed kind ident resolved).queue = c.queue := by
  unfold Collection.indexed
  split <;> rfl

@[simp] theorem indexed_native : (c.indexed kind ident resolved).native = c.native := by
  unfold Collection.indexed
  split <;> rfl

@[simp] theorem autoloaded_files : (c.autoloaded kind file resolved).files = c.files := by
  unfold Collection.autoloaded
  split <;> rfl

@[simp] theorem autoloaded_queue : (c.autoloaded kind file resolved).queue = c.queue := by
  unfold Collection.autoloaded
  split <;> rfl

@[simp] theorem autoloaded_native : (c.autoloaded kind file resolved).native = c.native := by
  unfold Collection.autoloaded
  split <;> rfl

@[simp] theorem nativeGem_files : (c.nativeGem name).files = c.files := by
  unfold Collection.nativeGem
  split <;> rfl

@[simp] theorem nativeGem_queue : (c.nativeGem name).queue = c.queue := by
  unfold Collection.nativeGem
  split <;> rfl

@[simp] theorem nativeGem_native : (c.nativeGem name).native = c.native := by
  unfold Collection.nativeGem
  split <;> rfl

@[simp] theorem queued_files : (c.queued resolved).files = c.files := by
  unfold Collection.queued
  split <;> rfl

@[simp] theorem queued_native : (c.queued resolved).native = c.native := by
  unfold Collection.queued
  split <;> rfl

end Fields

/-- The files that become bytes: those of gems that are native extensions. -/
def Project.extracts (P : Project) (resolved : Str) : Bool :=
  match P.origin resolved with
  | .gem _ _ => isNativeExt (extname resolved)
  | .project => false
  | .stdlib => false

/-- What a name adds to the queue. -/
def Project.added (P : Project) (files : List Str) : Option Str → List Str
  | some path => if P.embeds path && !files.contains path then [path] else []
  | none => []

/-- What a name makes of the native extensions. -/
def Project.stored (P : Project) (native : List (Str × Bytes)) : Option Str → List (Str × Bytes)
  | some path => match P.fs.lookup path with
    | some bytes => if P.extracts path then store native path bytes else native
    | none => native
  | none => native

private theorem queued_queue (c : Collection) {path : Str} (h : P.embeds path = true) :
    (c.queued path).queue = c.queue ++ P.added c.files (some path) := by
  simp only [Collection.queued, Project.added, h, Bool.true_and]
  cases c.files.contains path with
  | false => rfl
  | true => exact (List.append_nil _).symm

theorem added_eq_nil {path : Str} (h : P.embeds path = false) (files : List Str) : P.added files (some path) = [] := by
  simp [Project.added, h]

private theorem stored_eq {path : Str} (h : P.extracts path = false) (native : List (Str × Bytes)) :
    P.stored native (some path) = native := by
  simp only [Project.stored, h]
  split <;> rfl

theorem not_embeds_of_extracts {path : Str} (h : P.extracts path = true) : P.embeds path = false := by
  unfold Project.extracts at h
  unfold Project.embeds
  cases horigin : P.origin path with
  | gem name cExt =>
    simp only [horigin] at h ⊢
    rw [beq_eq_false_iff_ne]
    intro he
    rw [he] at h
    exact absurd h (by decide)
  | project => simp [horigin] at h
  | stdlib => simp [horigin] at h

/-- What becomes of a name that can be expanded. -/
theorem collectName_ok {file : Str} {c : Collection} {kind : Kind} {ident : Str} {resolved : Option Str}
    (h : P.resolve kind ident file = .ok resolved) :
    ∃ c', P.collectName file c (kind, ident) = .ok c' ∧ c'.files = c.files ∧
      c'.queue = c.queue ++ P.added c.files resolved ∧ c'.native = P.stored c.native resolved := by
  unfold Project.collectName
  rw [h]
  cases resolved with
  | none => exact ⟨_, rfl, rfl, (List.append_nil _).symm, rfl⟩
  | some path =>
    obtain ⟨bytes, hbytes⟩ := lookup_of_isFile (resolve_isFile h)
    simp only [bind, Except.bind, pure, Except.pure]
    cases horigin : P.origin path with
    | stdlib =>
      have hembeds : P.embeds path = false := by simp [Project.embeds, horigin]
      have hextracts : P.extracts path = false := by simp [Project.extracts, horigin]
      exact ⟨c, rfl, rfl, by simp [added_eq_nil hembeds], by simp [stored_eq hextracts]⟩
    | project =>
      have hembeds : P.embeds path = true := by simp [Project.embeds, horigin]
      have hextracts : P.extracts path = false := by simp [Project.extracts, horigin]
      exact ⟨_, rfl, by simp, by simp [queued_queue _ hembeds], by simp [stored_eq hextracts]⟩
    | gem name cExt =>
      simp only [Project.collectGem]
      by_cases hnative : isNativeExt (extname path) = true
      · have hextracts : P.extracts path = true := by simp [Project.extracts, horigin, hnative]
        rw [if_pos hnative]
        simp only [read, hbytes, bind, Except.bind, pure, Except.pure]
        refine ⟨_, rfl, by simp, ?_, by simp [Project.stored, hbytes, hextracts]⟩
        simp [added_eq_nil (not_embeds_of_extracts hextracts)]
      · have hextracts : P.extracts path = false := by
          simp only [Project.extracts, horigin]
          exact Bool.eq_false_iff.2 hnative
        rw [if_neg hnative]
        by_cases hrb : extname path = ".rb".toList
        · have hembeds : P.embeds path = true := by simp [Project.embeds, horigin, hrb]
          rw [if_pos hrb]
          exact ⟨_, rfl, by simp, by simp [queued_queue _ hembeds], by simp [stored_eq hextracts]⟩
        · have hembeds : P.embeds path = false := by
            simp only [Project.embeds, horigin]
            rw [beq_eq_false_iff_ne]
            exact hrb
          rw [if_neg hrb]
          exact ⟨_, rfl, rfl, by simp [added_eq_nil hembeds], by simp [stored_eq hextracts]⟩

/-- An exception in the expansion of a name leaves the loop. -/
theorem collectName_error {file : Str} {kind : Kind} {ident : Str} {e : Exc}
    (h : P.resolve kind ident file = .error e) (c : Collection) : P.collectName file c (kind, ident) = .error e := by
  unfold Project.collectName
  rw [h]
  rfl

/-! ### One file -/

/-- The names of a file. -/
theorem foldlM_collectName (file : Str) (names : List (Kind × Str)) (c : Collection) :
    (∃ name ∈ names, ∃ e, P.resolve name.1 name.2 file = .error e) ∧
      (∃ e, names.foldlM (P.collectName file) c = .error e) ∨
    ∃ c' resolved, names.foldlM (P.collectName file) c = .ok c' ∧
      List.Forall₂ (fun name r => P.resolve name.1 name.2 file = .ok r) names resolved ∧ c'.files = c.files ∧
      c'.queue = c.queue ++ resolved.flatMap (P.added c.files) ∧ c'.native = resolved.foldl P.stored c.native := by
  induction names generalizing c with
  | nil => exact .inr ⟨c, [], rfl, .nil, rfl, by simp, rfl⟩
  | cons name names ih =>
    rw [List.foldlM_cons]
    cases hresolve : P.resolve name.1 name.2 file with
    | error e =>
      refine .inl ⟨⟨name, List.mem_cons_self, e, hresolve⟩, e, ?_⟩
      rw [collectName_error hresolve c]
      rfl
    | ok r =>
      obtain ⟨c₁, hc₁, hfiles, hqueue, hnative⟩ := collectName_ok (c := c) hresolve
      rw [hc₁]
      rcases ih c₁ with ⟨⟨n, hn, e, he⟩, hraise⟩ | ⟨c', resolved, hc', hall, hfiles', hqueue', hnative'⟩
      · exact .inl ⟨⟨n, List.mem_cons_of_mem name hn, e, he⟩, hraise⟩
      · refine .inr ⟨c', r :: resolved, hc', .cons hresolve hall, hfiles'.trans hfiles, ?_, ?_⟩
        · rw [hqueue', hqueue, hfiles, List.flatMap_cons, List.append_assoc]
        · rw [hnative', hnative, List.foldl_cons]

/-- How many static names a file has. -/
def Project.width (P : Project) (file : Str) : Nat :=
  match P.fs.lookup file with
  | some src => (P.requires src).length
  | none => 0

/-- What one turn of the loop does. -/
inductive Turn (P : Project) (c : Collection) : Except Exc Collection → Prop
  | skip (file : Str) (queue : List Str) (hqueue : c.queue = file :: queue) (hfile : file ∈ c.files) :
    Turn P c (.ok { c with queue := queue })
  | raise (file : Str) (queue : List Str) (e : Exc) (hqueue : c.queue = file :: queue) (hraises : P.Raises file) :
    Turn P c (.error e)
  | visit (file : Str) (queue : List Str) (src : Bytes) (resolved : List (Option Str)) (c' : Collection)
    (hqueue : c.queue = file :: queue) (hfile : file ∉ c.files) (hsrc : P.fs.lookup file = some src)
    (hall : List.Forall₂ (fun name r => P.resolve name.1 name.2 file = .ok r) (P.requires src) resolved)
    (hfiles : c'.files = c.files ++ [file])
    (hqueue' : c'.queue = queue ++ resolved.flatMap (P.added (c.files ++ [file])))
    (hnative : c'.native = resolved.foldl P.stored c.native) : Turn P c (.ok c')

private theorem turn_cases {c : Collection} {file : Str} {queue : List Str} (hqueue : c.queue = file :: queue)
    (hfile : isFile P.fs file = true) : Turn P c (P.turn c) := by
  obtain ⟨src, hsrc⟩ := lookup_of_isFile hfile
  unfold Project.turn
  rw [hqueue]
  by_cases hmem : file ∈ c.files
  · simp only [List.contains_iff_mem.2 hmem, if_true]
    exact .skip file queue hqueue hmem
  · have hnot : c.files.contains file = false := by simpa using hmem
    simp only [hnot, Bool.false_eq_true, if_false, read, hsrc, bind, Except.bind]
    rcases foldlM_collectName (P := P) file (P.requires src) { c with queue := queue, files := c.files ++ [file] } with
      ⟨⟨name, hname, e', he'⟩, e, he⟩ | ⟨c', resolved, hc', hall, hfiles, hqueue', hnative⟩
    · rw [he]
      exact .raise file queue e hqueue ⟨src, name.1, name.2, e', hsrc, hname, he'⟩
    · rw [hc']
      exact .visit file queue src resolved c' hqueue hmem hsrc hall hfiles hqueue' hnative

/-! ### The search -/

theorem exists_left_of_forall₂ {α β : Type} {R : α → β → Prop} {l : List α} {u : List β} (h : List.Forall₂ R l u)
    {b : β} (hb : b ∈ u) : ∃ a ∈ l, R a b := by
  obtain ⟨n, hn, rfl⟩ := List.mem_iff_getElem.1 hb
  have hlt : n < l.length := h.length_eq ▸ hn
  exact ⟨l[n], List.getElem_mem hlt, h.get hlt hn⟩

theorem exists_right_of_forall₂ {α β : Type} {R : α → β → Prop} {l : List α} {u : List β} (h : List.Forall₂ R l u)
    {a : α} (ha : a ∈ l) : ∃ b ∈ u, R a b := by
  obtain ⟨n, hn, rfl⟩ := List.mem_iff_getElem.1 ha
  have hlt : n < u.length := h.length_eq ▸ hn
  exact ⟨u[n], List.getElem_mem hlt, h.get hn hlt⟩

/-- What a name of the file resolves to is among what all its names resolve to. -/
theorem resolved_of_requires {file path : Str} {src : Bytes} {resolved : List (Option Str)}
    (hsrc : P.fs.lookup file = some src)
    (hall : List.Forall₂ (fun name r => P.resolve name.1 name.2 file = .ok r) (P.requires src) resolved)
    (h : P.Requires file path) : some path ∈ resolved := by
  obtain ⟨src', kind, ident, hsrc', hname, hresolve⟩ := h
  rw [hsrc, Option.some.injEq] at hsrc'
  subst hsrc'
  obtain ⟨r, hr, hresolve'⟩ := exists_right_of_forall₂ hall hname
  rw [hresolve, Except.ok.injEq] at hresolve'
  subst hresolve'
  exact hr

theorem mem_added {files : List Str} {r : Option Str} {path : Str} :
    path ∈ P.added files r ↔ r = some path ∧ P.embeds path = true ∧ path ∉ files := by
  cases r with
  | none => simp [Project.added]
  | some p =>
    rw [Project.added, Option.some.injEq]
    split
    · rename_i h
      simp only [Bool.and_eq_true, Bool.not_eq_true', List.contains_eq_mem, decide_eq_false_iff_not] at h
      rw [List.mem_singleton]
      constructor
      · rintro rfl
        exact ⟨rfl, h⟩
      · exact fun h => h.1.symm
    · rename_i h
      refine iff_of_false List.not_mem_nil ?_
      rintro ⟨rfl, hembeds, hfile⟩
      simp [hembeds, hfile] at h

/-- Each name adds one file at most. -/
theorem length_added_le (files : List Str) (resolved : List (Option Str)) :
    (resolved.flatMap (P.added files)).length ≤ resolved.length := by
  induction resolved with
  | nil => exact Nat.le_refl 0
  | cons r resolved ih =>
    have hone : (P.added files r).length ≤ 1 := by
      cases r with
      | none => exact Nat.zero_le 1
      | some path =>
        rw [Project.added]
        split <;> simp
    rw [List.flatMap_cons, List.length_append, List.length_cons]
    omega

/-- A turn is a turn of the search. -/
theorem Turn.search {c c' : Collection} (h : Turn P c (.ok c')) :
    Worklist.Step P.Embeds P.width ⟨c.queue, c.files⟩ ⟨c'.queue, c'.files⟩ := by
  generalize hr : Except.ok c' = r at h
  cases h with
  | skip file queue hqueue hfile =>
    cases hr
    rw [hqueue]
    exact .skip file queue c.files hfile
  | raise file queue e => cases hr
  | visit file queue src resolved c₁ hqueue hfile hsrc hall hfiles hqueue' hnative =>
    cases hr
    rw [hqueue, hfiles, hqueue']
    refine .visit file queue c.files _ hfile (fun y hy => ?_) (fun y hy => ?_) ?_
    · obtain ⟨r, hr, hy⟩ := List.mem_flatMap.1 hy
      obtain ⟨rfl, hembeds, -⟩ := mem_added.1 hy
      obtain ⟨name, hname, hresolve⟩ := exists_left_of_forall₂ hall hr
      exact ⟨⟨src, name.1, name.2, hsrc, hname, hresolve⟩, hembeds⟩
    · by_cases hmem : y ∈ c.files ++ [file]
      · exact .inr hmem
      · have hr := resolved_of_requires hsrc hall hy.1
        exact .inl (List.mem_flatMap.2 ⟨_, hr, mem_added.2 ⟨rfl, hy.2, hmem⟩⟩)
    · rw [Project.width, hsrc]
      exact (length_added_le _ resolved).trans_eq hall.length_eq.symm

/-- What holds between the turns: no name of a file that has been processed has raised. -/
structure Project.Inv (P : Project) (c : Collection) : Prop where
  search : Worklist.Inv P.Embeds P.entry ⟨c.queue, c.files⟩
  quiet : ∀ file ∈ c.files, ¬P.Raises file

theorem Project.inv_start (P : Project) : P.Inv P.start :=
  ⟨.init P.Embeds P.entry, fun _ h => absurd h List.not_mem_nil⟩

/-- The head of the queue is there to be read. -/
theorem Project.Inv.turn {c : Collection} (h : P.Inv c) (hqueue : c.queue ≠ []) : Turn P c (P.turn c) := by
  obtain ⟨file, queue, hqueue⟩ := List.exists_cons_of_ne_nil hqueue
  have hreached : P.Reached file := h.search.reached file (.inl (by simp [hqueue]))
  exact turn_cases hqueue hreached.isFile

theorem Turn.inv {c c' : Collection} (hturn : Turn P c (.ok c')) (h : P.Inv c) : P.Inv c' := by
  refine ⟨hturn.search.inv h.search, ?_⟩
  generalize hr : Except.ok c' = r at hturn
  cases hturn with
  | skip file queue hqueue hfile =>
    cases hr
    exact h.quiet
  | raise file queue e => cases hr
  | visit file queue src resolved c₁ hqueue hfile hsrc hall hfiles =>
    cases hr
    rw [hfiles]
    intro f hf
    rcases List.mem_append.1 hf with hf | hf
    · exact h.quiet f hf
    · rw [List.mem_singleton.1 hf]
      rintro ⟨src', kind, ident, e, hsrc', hname, hraise⟩
      rw [hsrc, Option.some.injEq] at hsrc'
      subst hsrc'
      obtain ⟨r, -, hresolve⟩ := exists_right_of_forall₂ hall hname
      rw [hraise] at hresolve
      cases hresolve

theorem Turn.raises {c : Collection} {e : Exc} (hturn : Turn P c (.error e)) :
    ∃ file ∈ c.queue, P.Raises file := by
  generalize hr : Except.error e = r at hturn
  cases hturn with
  | skip => cases hr
  | raise file queue e hqueue hraises => exact ⟨file, by simp [hqueue], hraises⟩
  | visit => cases hr

/-! ### The loop -/

/-- What a turn of the collection keeps holds at its end. -/
theorem loop_invariant {I : Collection → Prop} (hI : ∀ c c', P.Inv c → I c → Turn P c (.ok c') → I c') {n : Nat}
    {c c' : Collection} (hc : P.Inv c) (h : I c) (hloop : P.loop n c = some (.ok c')) :
    c'.queue = [] ∧ P.Inv c' ∧ I c' := by
  induction n generalizing c with
  | zero =>
    obtain ⟨hqueue, hloop⟩ := Option.ite_none_right_eq_some.1 hloop
    cases hloop
    exact ⟨hqueue, hc, h⟩
  | succ n ih =>
    rw [Project.loop] at hloop
    split at hloop
    · rename_i hqueue
      cases hloop
      exact ⟨hqueue, hc, h⟩
    · rename_i hqueue
      have hturn := hc.turn hqueue
      split at hloop
      · cases hloop
      · rename_i c₁ hc₁
        rw [hc₁] at hturn
        exact ih (hturn.inv hc) (hI c c₁ hc h hturn) hloop

theorem loop_ends {n : Nat} {c : Collection} (h : P.loop n P.start = some (.ok c)) : c.queue = [] ∧ P.Inv c := by
  obtain ⟨hqueue, hinv, -⟩ := loop_invariant (I := fun _ => True) (fun _ _ _ _ _ => trivial) P.inv_start trivial h
  exact ⟨hqueue, hinv⟩

/-- What ends the collection early is a name of a file that is found. -/
theorem loop_raises {n : Nat} {c : Collection} {e : Exc} (hc : P.Inv c) (hloop : P.loop n c = some (.error e)) :
    ∃ file, P.Reached file ∧ P.Raises file := by
  induction n generalizing c with
  | zero =>
    obtain ⟨-, hloop⟩ := Option.ite_none_right_eq_some.1 hloop
    cases hloop
  | succ n ih =>
    rw [Project.loop] at hloop
    split at hloop
    · cases hloop
    · rename_i hqueue
      have hturn := hc.turn hqueue
      split at hloop
      · rename_i e' he'
        rw [he'] at hturn
        obtain ⟨file, hfile, hraises⟩ := hturn.raises
        exact ⟨file, hc.search.reached file (.inl hfile), hraises⟩
      · rename_i c₁ hc₁
        rw [hc₁] at hturn
        exact ih (hturn.inv hc) hloop

/-- The paths of the files. -/
def Project.paths (P : Project) : Finset Str := (P.fs.map (·.1)).toFinset

private theorem mem_paths {path : Str} (h : isFile P.fs path = true) : path ∈ P.paths := by
  obtain ⟨bytes, hbytes⟩ := lookup_of_isFile h
  rw [Project.paths, List.mem_toFinset, List.mem_map]
  exact ⟨(path, bytes), mem_of_lookup hbytes, rfl⟩

/-- The collection comes to its end. -/
theorem loop_terminates {c : Collection} (hc : P.Inv c) : ∃ n r, P.loop n c = some r := by
  induction hn : Worklist.rank P.paths P.width ⟨c.queue, c.files⟩ using Nat.strongRecOn generalizing c with
  | ind n ih =>
    subst hn
    by_cases hqueue : c.queue = []
    · exact ⟨0, .ok c, if_pos hqueue⟩
    · have hturn := hc.turn hqueue
      cases hres : P.turn c with
      | error e =>
        refine ⟨1, .error e, ?_⟩
        rw [Project.loop, if_neg hqueue, hres]
      | ok c' =>
        rw [hres] at hturn
        have hlt := hturn.search.rank_lt (U := P.paths) fun path hpath =>
          mem_paths (Project.Reached.isFile (hc.search.reached path (.inl hpath)))
        obtain ⟨n, r, hr⟩ := ih _ hlt (hturn.inv hc) rfl
        refine ⟨n + 1, r, ?_⟩
        rw [Project.loop, if_neg hqueue, hres]
        exact hr

private theorem loop_succ {n : Nat} {c : Collection} {r : Except Exc Collection} (h : P.loop n c = some r) :
    P.loop (n + 1) c = some r := by
  induction n generalizing c with
  | zero =>
    obtain ⟨hqueue, hr⟩ := Option.ite_none_right_eq_some.1 h
    rw [Project.loop, if_pos hqueue, hr]
  | succ n ih =>
    rw [Project.loop] at h ⊢
    split
    · rename_i hqueue
      rwa [if_pos hqueue] at h
    · rename_i hqueue
      rw [if_neg hqueue] at h
      split at h
      · exact h
      · exact ih h

/-- How many turns are tried does not matter, if they are enough. -/
theorem loop_unique {n m : Nat} {c : Collection} {r r' : Except Exc Collection} (h : P.loop n c = some r)
    (h' : P.loop m c = some r') : r = r' := by
  have hmono : ∀ {n m r}, n ≤ m → P.loop n c = some r → P.loop m c = some r := by
    intro n m r hnm h
    induction m, hnm using Nat.le_induction with
    | base => exact h
    | succ m _ ih => exact loop_succ ih
  have hmax := hmono (Nat.le_max_left n m) h
  rw [hmono (Nat.le_max_right n m) h'] at hmax
  exact (Option.some.inj hmax).symm

/-- The files of a collection that has come to its end are those that are found along the static names. -/
theorem mem_files_iff {n : Nat} {c : Collection} (h : P.loop n P.start = some (.ok c)) {file : Str} :
    file ∈ c.files ↔ P.Reached file := by
  obtain ⟨hqueue, hinv⟩ := loop_ends h
  exact hinv.search.mem_seen_iff hqueue

/-- The collection always ends, and it ends with the least closed set exactly when no static name of a file in that set
raises an exception when it is expanded. -/
theorem bundle_files (P : Project) :
    (∃ n r, P.loop n P.start = some r) ∧ (P.Complete ↔ ∀ file, P.Reached file → ¬P.Raises file) := by
  refine ⟨loop_terminates P.inv_start, ?_, fun hquiet => ?_⟩
  · rintro ⟨n, c, hloop, -, -⟩ file hfile
    obtain ⟨-, hinv⟩ := loop_ends hloop
    exact hinv.quiet file ((mem_files_iff hloop).2 hfile)
  · obtain ⟨n, r, hloop⟩ := loop_terminates P.inv_start
    cases r with
    | error e =>
      obtain ⟨file, hreached, hraises⟩ := loop_raises P.inv_start hloop
      exact absurd hraises (hquiet file hreached)
    | ok c =>
      obtain ⟨hqueue, hinv⟩ := loop_ends hloop
      exact ⟨n, c, hloop, hinv.search.nodup, hinv.search.isLeast hqueue⟩

/-- Names that can all be expanded. -/
theorem not_raises_of_forall (h : ∀ entry ∈ P.fs, ∀ name ∈ P.requires entry.2,
    (P.resolve name.1 name.2 entry.1).isOk = true) (file : Str) : ¬P.Raises file := by
  rintro ⟨src, kind, ident, e, hsrc, hname, hraise⟩
  have hok := h (file, src) (mem_of_lookup hsrc) (kind, ident) hname
  rw [hraise] at hok
  exact absurd hok Bool.false_ne_true

/-- A machine with the home directory of one user. -/
def oneUser : Env where
  cwd := ⟨1, ["app".toList]⟩
  home user := if user = [] then some ⟨1, ["home".toList]⟩ else none

/-- `main.rb` and `a.rb` require each other, `a.rb` twice and by other names, and `main.rb` requires a file of a gem. -/
def pair : Project where
  env := oneUser
  fs := [("/app/main.rb".toList, [1]), ("/app/lib/a.rb".toList, [2]), ("/gems/g/g.rb".toList, [3])]
  entry := "/app/main.rb".toList
  root := "/app".toList
  gemPaths := [⟨"/gems/g".toList, "g".toList, false⟩]
  requires src :=
    if src = [1] then [(.requireRelative, "lib/a".toList), (.require, "lib/../lib/a".toList), (.autoload, "g".toList)]
    else if src = [2] then [(.requireRelative, "../main".toList), (.require, "json".toList)]
    else []
  entry_isFile := rfl

theorem bundle_files_pair : pair.Complete := by
  refine (bundle_files pair).2.2 fun file _ => not_raises_of_forall ?_ file
  decide +kernel

/-- `main.rb` requires a file of a user who does not exist. -/
def noUser : Project where
  env := oneUser
  fs := [("/app/main.rb".toList, [1])]
  entry := "/app/main.rb".toList
  root := "/app".toList
  requires _ := [(.require, "~nouser/x".toList)]
  entry_isFile := rfl

/-- The build ends with an `ArgumentError`. -/
theorem build_aborted_by_name : noUser.loop 1 noUser.start = some (.error .argumentError) ∧ ¬noUser.Complete := by
  have hloop : noUser.loop 1 noUser.start = some (.error .argumentError) := rfl
  refine ⟨hloop, ?_⟩
  rintro ⟨n, c, hc, -⟩
  cases loop_unique hloop hc

end Build

end Calisto

import Calisto.Bundle.Index
import Calisto.Lib.Simulation

/-!
# What a bundle means

`require` as the interpreter runs it over the files of a project: a feature is evaluated once, the main program is none,
and what is being loaded is not loaded again.  A bundle without autoloads takes the same steps, as long as its code
requires what its static names stand for, and what it has of a file is what the interpreter loads of it.
-/

namespace Calisto

namespace Source

open Build (Project Kind)
open EndMarker (endLine newline)
open LineBreaks (linesOf)

/-- What is evaluated. -/
inductive Unit
  | main
  | feature (path : Str)
  deriving DecidableEq, Repr

/-- The state of a program that runs; `hist` is what happened so far, the last first. -/
structure St where
  provided : Str → Bool := fun _ => false
  stack : List Unit
  ctl : Bundle.Ctl
  hist : List Bundle.Event

inductive Act
  /-- The interpreter, or the way of an exception through code that does not rescue it. -/
  | interpreter
  /-- A name is required by the code on top of the stack. -/
  | name (kind : Kind) (ident : Str)
  | raise (e : Bundle.Exc)
  | rescue
  | finish

variable (P : Project)

def Unit.file : Unit → Str
  | main => P.entry
  | feature path => path

def start : St := { stack := [.main], ctl := .go, hist := [.enter P.entry] }

def load (s : St) (path : Str) : St :=
  if s.provided path || s.stack.contains (.feature path) then { s with ctl := .ret false }
  else { s with stack := .feature path :: s.stack, ctl := .go, hist := .enter path :: s.hist }

/-- A feature is provided when its code has come to its end. -/
def provide (provided : Str → Bool) : Unit → Str → Bool
  | .main => provided
  | .feature path => Function.update provided path true

def step (s : St) : Act → Option St
  | .interpreter => match s.ctl, s.stack with
    | .call path, _ => some (load s path)
    | .ret _, _ => some { s with ctl := .go }
    | .raised _, u :: rest => some { s with stack := rest, hist := .failed (u.file P) :: s.hist }
    | .raised _, [] => none
    | .go, _ => none
  | .name kind ident => match s.ctl, s.stack with
    | .go, u :: _ => match P.resolve kind ident (u.file P) with
      | .ok (some path) => some { s with ctl := .call path }
      | _ => none
    | _, _ => none
  | .raise e => if s.ctl = .go then some { s with ctl := .raised e } else none
  | .rescue => match s.ctl with
    | .raised _ => some { s with ctl := .go }
    | _ => none
  | .finish => match s.ctl, s.stack with
    | .go, u :: rest =>
      some { provided := provide s.provided u, stack := rest, ctl := .ret true, hist := .done (u.file P) :: s.hist }
    | _, _ => none

/-- What the interpreter evaluates of a file: what stands before the line of its end marker. -/
def text (path : Str) : Option Bytes :=
  (P.fs.lookup path).map fun src => match endLine (P.lex src) with
    | some line => ((linesOf newline src).take (line - 1)).flatten
    | none => src

variable {P}

theorem step_name {r : St} {u : Unit} {below : List Unit} {kind : Kind} {ident path : Str} (hr : r.stack = u :: below)
    (h : P.resolve kind ident (u.file P) = .ok (some path)) :
    step P r (.name kind ident) = if r.ctl = .go then some { r with ctl := .call path } else none := by
  by_cases hgo : r.ctl = .go
  · simp [step, hgo, hr, h]
  · simp [step, hgo]

end Source

namespace Build

open EndMarker (endLine newline splitEndMarker splitEndMarker_eq)
open LineBreaks (linesOf)

variable {P : Project} {c : Collection} {n : Nat} {env : Env}

/-- A static name of a file that is embedded stands for a file that the bundle takes. -/
structure Project.Names (P : Project) (file : Str) (kind : Kind) (ident path : Str) : Prop where
  reached : P.Reached file
  static : P.Static file kind ident
  resolve : P.resolve kind ident file = .ok (some path)
  takes : P.takes path = true

/-- The projects whose bundles mean what the projects mean: no autoloads, nothing that requires the main program, only
Ruby files among what is embedded as code, and no relative names but those of such files. -/
structure Project.Simple (P : Project) : Prop where
  absolute : P.Absolute
  kind : ∀ file kind ident path, P.Names file kind ident path → kind ≠ .autoload
  entry : ∀ file kind ident path, P.Names file kind ident path → path ≠ P.entry
  relative : ∀ file ident path, P.Names file .requireRelative ident path → Plain ident ∧ P.embeds path = true
  main : isNativeExt (extname P.entry) = false
  ruby : ∀ file kind ident path, P.Names file kind ident path → P.embeds path = true → extname path = ".rb".toList
  /-- The glob of `gem_native_files`. -/
  globbed : ∀ gem spec, P.gemSpecs gem = some spec → ∀ path ∈ spec.globbed, isNativeExt (extname path) = true
  /-- The lexer finds the marker in one of the lines. -/
  lexed : ∀ file src line, P.Reached file → P.fs.lookup file = some src → endLine (P.lex src) = some line →
    line - 1 < (linesOf newline src).length

/-- A call of `load_file` without autoloads, as far as the program can tell: the first turn of `preload` has nothing to
do. -/
def Idle (s : Bundle.St) : Prop :=
  s.ctl = .go ∧ ∃ abs rest, s.stack = .preload abs [] [] false :: rest

/-- The bundle is where the program is. -/
structure Same (P : Project) (s : Bundle.St) (r : Source.St) : Prop where
  ctl : s.ctl = r.ctl
  hist : s.hist = r.hist
  files : s.files = r.stack.map (Source.Unit.file P)
  loaded : ∀ path, path ≠ P.entry → s.loaded path = r.provided path
  loading : ∀ path, path ≠ P.entry → (s.loading path = true ↔ .feature path ∈ r.stack)
  /-- The main program is no feature. -/
  main : .feature P.entry ∉ r.stack
  called : ∀ path, s.ctl = .call path → path ≠ P.entry
  /-- What is below the top is code. -/
  code : ∀ f ∈ s.stack.tail, f.isCode = true
  top : s.atCode = true ∨ Idle s

variable {B : Bundle.Maps} {s : Bundle.St} {r : Source.St} {path : Str}

/-! ### Steps of the bundle alone -/

/-- Every frame of a stack with code on its top has code. -/
theorem Same.allCode (h : Same P s r) (hat : s.atCode = true) : ∀ f ∈ s.stack, f.isCode = true := by
  intro f hf
  cases hs : s.stack with
  | nil =>
    rw [hs] at hf
    cases hf
  | cons g rest =>
    rw [hs] at hf
    rcases List.mem_cons.1 hf with rfl | hf
    · rw [← Bundle.atCode_cons hs]
      exact hat
    · have hcode := h.code
      rw [hs, List.tail_cons] at hcode
      exact hcode f hf

private theorem Same.atCode_of_ctl (h : Same P s r) (hctl : s.ctl ≠ .go) : s.atCode = true :=
  h.top.resolve_right fun hidle => hctl hidle.1

/-! ### A call -/

/-- A file that is called is loaded by the bundle when the program loads it. -/
theorem Same.load (h : Same P s r) (hcall : s.ctl = .call path) (hB : B.embedded path = true)
    (hautoloads : B.autoloads path = []) : Same P (Bundle.loadFile B s path) (Source.load r path) := by
  have hne := h.called path hcall
  have hat := h.atCode_of_ctl (by rw [hcall]; simp)
  have hcode := h.allCode hat
  have hloaded := h.loaded path hne
  have hloading := h.loading path hne
  by_cases hknown : s.loaded path = true ∨ s.loading path = true
  · have hbundle : Bundle.loadFile B s path = { s with ctl := .ret false } := by
      rw [Bundle.loadFile, if_pos (Bool.or_eq_true_iff.2 hknown)]
    have hsource : Source.load r path = { r with ctl := .ret false } := by
      rw [Source.load, if_pos]
      rw [hloaded, hloading] at hknown
      exact Bool.or_eq_true_iff.2 (hknown.imp_right List.contains_iff_mem.2)
    rw [hbundle, hsource]
    exact ⟨rfl, h.hist, h.files, h.loaded, h.loading, h.main, fun _ hc => by simp at hc, h.code, .inl hat⟩
  · have hsource : Source.load r path =
        { r with stack := .feature path :: r.stack, ctl := .go, hist := .enter path :: r.hist } := by
      rw [Source.load, if_neg]
      rw [hloaded, hloading] at hknown
      intro hk
      exact hknown ((Bool.or_eq_true_iff.1 hk).imp_right List.contains_iff_mem.1)
    rw [not_or, Bool.not_eq_true, Bool.not_eq_true] at hknown
    have hloading' : ∀ q, q ≠ P.entry →
        (Function.update s.loading path true q = true ↔ .feature q ∈ Source.Unit.feature path :: r.stack) := by
      intro q hq
      by_cases hqp : q = path
      · simp [hqp]
      · rw [Function.update_of_ne hqp, h.loading q hq]
        simp [hqp]
    have hmain : Source.Unit.feature P.entry ∉ Source.Unit.feature path :: r.stack := by
      rw [List.mem_cons, not_or]
      exact ⟨by simpa using Ne.symm hne, h.main⟩
    have hfiles := h.files
    simp only [Bundle.St.files] at hfiles
    rw [hsource]
    by_cases hnative : B.native path = true
    · have hbundle : Bundle.loadFile B s path =
          { s with
            loading := Function.update s.loading path true, stack := .native path :: s.stack, ctl := .go,
            hist := .enter path :: s.hist } := by
        simp [Bundle.loadFile, hknown, hnative]
      rw [hbundle]
      exact ⟨rfl, by rw [h.hist], by simp [Bundle.St.files, hfiles, Bundle.Frame.file, Source.Unit.file], h.loaded,
        hloading', hmain, fun _ hc => by simp at hc, hcode, .inl rfl⟩
    · have hB' : B.code path = true := by simpa [Bundle.Maps.embedded, hnative] using hB
      have hbundle : Bundle.loadFile B s path =
          { s with
            loading := Function.update s.loading path true, stack := .preload path [] [] false :: s.stack, ctl := .go,
            hist := .enter path :: s.hist } := by
        simp [Bundle.loadFile, hknown, hnative, hB', hautoloads]
      rw [hbundle]
      exact ⟨rfl, by rw [h.hist], by simp [Bundle.St.files, hfiles, Bundle.Frame.file, Source.Unit.file], h.loaded,
        hloading', hmain, fun _ hc => by simp at hc, hcode, .inr ⟨rfl, path, s.stack, rfl⟩⟩

/-! ### The end of a file -/

/-- What is below the top, after its file has left `LOADING`. -/
theorem Same.pop (h : Same P s r) (hnodup : s.files.Nodup) {f : Bundle.Frame} {rest : List Bundle.Frame}
    (hs : s.stack = f :: rest) :
    ∃ u below, r.stack = u :: below ∧ u.file P = f.file ∧ rest.map Bundle.Frame.file = below.map (Source.Unit.file P) ∧
      (∀ q, q ≠ P.entry → (Function.update s.loading f.file false q = true ↔ .feature q ∈ below)) ∧
      .feature P.entry ∉ below := by
  have hfiles := h.files
  rw [Bundle.St.files, hs, List.map_cons] at hfiles
  rw [Bundle.St.files, hs, List.map_cons] at hnodup
  cases hr : r.stack with
  | nil =>
    rw [hr] at hfiles
    cases hfiles
  | cons u below =>
    rw [hr, List.map_cons] at hfiles
    obtain ⟨hfile, hrest⟩ := List.cons.inj hfiles
    have hmain := h.main
    rw [hr, List.mem_cons, not_or] at hmain
    refine ⟨u, below, rfl, hfile.symm, hrest, fun q hq => ?_, hmain.2⟩
    by_cases hqf : q = f.file
    · subst hqf
      rw [Function.update_self]
      refine iff_of_false Bool.false_ne_true fun hmem => (List.nodup_cons.1 hnodup).1 ?_
      rw [hrest]
      exact List.mem_map_of_mem (f := Source.Unit.file P) hmem
    · rw [Function.update_of_ne hqf, h.loading q hq, hr, List.mem_cons]
      refine or_iff_right ?_
      rintro rfl
      exact hqf hfile.symm

/-! ### One step of both -/

theorem Same.ret (h : Same P s r) (hat : s.atCode = true) {ctl : Bundle.Ctl} (hctl : ∀ path, ctl ≠ .call path) :
    Same P { s with ctl := ctl } { r with ctl := ctl } :=
  ⟨rfl, h.hist, h.files, h.loaded, h.loading, h.main, fun path hc => absurd hc (hctl path), h.code, .inl hat⟩

theorem Same.call (h : Same P s r) (hat : s.atCode = true) (hne : path ≠ P.entry) :
    Same P { s with ctl := .call path } { r with ctl := .call path } := by
  refine ⟨rfl, h.hist, h.files, h.loaded, h.loading, h.main, fun q hq => ?_, h.code, .inl hat⟩
  cases hq
  exact hne

private theorem code_below (h : Same P s r) (hat : s.atCode = true) {f : Bundle.Frame} {rest : List Bundle.Frame}
    (hs : s.stack = f :: rest) (t : Bundle.St) (ht : t.stack = rest) :
    (∀ g ∈ t.stack.tail, g.isCode = true) ∧ t.atCode = true := by
  have hcode := h.allCode hat
  rw [hs] at hcode
  rw [ht]
  refine ⟨fun g hg => hcode g (List.mem_cons_of_mem f (List.mem_of_mem_tail hg)), ?_⟩
  cases rest with
  | nil => simp [Bundle.St.atCode, ht]
  | cons g rest =>
    rw [Bundle.atCode_cons ht]
    exact hcode g (by simp)

/-- The file on top fails. -/
theorem Same.unwind (h : Same P s r) (hat : s.atCode = true) (hnodup : s.files.Nodup) {f : Bundle.Frame}
    {rest : List Bundle.Frame} (hs : s.stack = f :: rest) {e : Bundle.Exc} (hraised : s.ctl = .raised e) :
    Option.Rel (Same P) (some (Bundle.unwind s f.file e rest)) (Source.step P r .interpreter) := by
  obtain ⟨u, below, hr, hfile, hrest, hloading, hmain⟩ := h.pop hnodup hs
  have hctl := h.ctl
  rw [hraised] at hctl
  have hstep : Source.step P r .interpreter = some { r with stack := below, hist := .failed (u.file P) :: r.hist } := by
    simp [Source.step, ← hctl, hr]
  rw [hstep]
  obtain ⟨hcode, hat'⟩ := code_below h hat hs (Bundle.unwind s f.file e rest) rfl
  exact .some ⟨hctl, by simp [Bundle.unwind, h.hist, hfile], hrest, h.loaded, hloading, hmain,
    fun _ hc => by simp [Bundle.unwind] at hc, hcode, .inl hat'⟩

/-- The file on top comes to its end. -/
theorem Same.finish (h : Same P s r) (hat : s.atCode = true) (hnodup : s.files.Nodup) {f : Bundle.Frame}
    {rest : List Bundle.Frame} (hs : s.stack = f :: rest) (hgo : s.ctl = .go) :
    Option.Rel (Same P) (some (Bundle.finish s f.file rest)) (Source.step P r .finish) := by
  obtain ⟨u, below, hr, hfile, hrest, hloading, hmain⟩ := h.pop hnodup hs
  have hctl := h.ctl
  rw [hgo] at hctl
  have hstep : Source.step P r .finish = some
      { provided := Source.provide r.provided u, stack := below, ctl := .ret true,
        hist := .done (u.file P) :: r.hist } := by
    simp [Source.step, ← hctl, hr]
  rw [hstep]
  obtain ⟨hcode, hat'⟩ := code_below h hat hs (Bundle.finish s f.file rest) rfl
  refine .some ⟨rfl, by simp [Bundle.finish, h.hist, hfile], hrest, fun q hq => ?_, hloading, hmain,
    fun _ hc => by simp [Bundle.finish] at hc, hcode, .inl hat'⟩
  show Function.update s.loaded f.file true q = Source.provide r.provided u q
  cases u with
  | main =>
    -- the main program is not provided, whatever the bundle notes down
    have hqf : q ≠ f.file := fun he => hq (he.trans hfile.symm)
    rw [Function.update_of_ne hqf]
    exact h.loaded q hq
  | feature p =>
    have hp : p = f.file := hfile
    subst hp
    by_cases hqp : q = f.file
    · rw [hqp, Source.provide, Function.update_self, Function.update_self]
    · rw [Source.provide, Function.update_of_ne hqp, Function.update_of_ne hqp]
      exact h.loaded q hq

/-- Actions that do the same in a bundle, which runs where `env` says, and in the program. -/
inductive Project.Matches (P : Project) (env : Env) (s : Bundle.St) : Bundle.Act → Source.Act → Prop
  | loader : Matches P env s .loader .interpreter
  | require (f : Bundle.Frame) (rest : List Bundle.Frame) (kind : Kind) (ident path : Str) (hs : s.stack = f :: rest)
    (hkind : kind ≠ .requireRelative) (hnames : P.Names f.file kind ident path) :
    Matches P env s (.require ident) (.name kind ident)
  | relative (f : Bundle.Frame) (rest : List Bundle.Frame) (ident : Str) (q : AbsPath) (path : Str)
    (hs : s.stack = f :: rest) (hq : expandRelative env ident f.file = .ok q)
    (hnames : P.Names f.file .requireRelative ident path) :
    Matches P env s (.requireRelative q.text) (.name .requireRelative ident)
  | raise (e : Bundle.Exc) : Matches P env s (.raise e) (.raise e)
  | rescue : Matches P env s .rescue .rescue
  | finish : Matches P env s .finish .finish

/-- What is on top of the program is on top of the bundle. -/
theorem Same.top_source (h : Same P s r) {f : Bundle.Frame} {rest : List Bundle.Frame} (hs : s.stack = f :: rest) :
    ∃ u below, r.stack = u :: below ∧ u.file P = f.file := by
  have hfiles := h.files
  rw [Bundle.St.files, hs, List.map_cons] at hfiles
  cases hr : r.stack with
  | nil =>
    rw [hr] at hfiles
    cases hfiles
  | cons u below =>
    rw [hr, List.map_cons] at hfiles
    exact ⟨u, below, rfl, (List.cons.inj hfiles).1.symm⟩

/-- No file of a simple project registers an autoload. -/
theorem no_autoloads (hP : P.Simple) (h : P.loop n P.start = some (.ok c)) (file : Str) :
    (P.generate c).maps.autoloads file = [] := by
  show c.autoloadMap file = []
  rw [List.eq_nil_iff_forall_not_mem]
  intro t ht
  obtain ⟨hfile, hembeds, ident, hstatic, hresolve⟩ := (named_of_loop h).1.registers file t ht
  exact hP.kind file .autoload ident t ⟨(mem_files_iff h).1 hfile, hstatic, hresolve, takes_of_embeds hembeds⟩ rfl

private theorem Same.stack_eq_nil (h : Same P s r) (hs : s.stack = []) : r.stack = [] := by
  have hfiles := h.files
  rw [Bundle.St.files, hs, List.map_nil] at hfiles
  exact List.map_eq_nil_iff.1 hfiles.symm

section Step

variable (hP : P.Simple) (hloop : P.loop n P.start = some (.ok c)) (h : Same P s r) (hat : s.atCode = true)
include hloop h hat

/-- The loader and the interpreter. -/
theorem Same.step_loader (hautoloads : ∀ file, (P.generate c).maps.autoloads file = [])
    (hreach : Machine.Reach (Bundle.step (P.generate c).maps) Machine.Free (Bundle.start (P.generate c).maps) s) :
    Option.Rel (Same P) (Bundle.step (P.generate c).maps s .loader) (Source.step P r .interpreter) := by
  have hctl := h.ctl
  -- with code on top, the loader has nothing to do until the code calls it
  have htop : ∀ f rest, s.stack = f :: rest → ∃ p, f = .eval p ∨ f = .native p := by
    intro f rest hs
    rw [Bundle.atCode_cons hs] at hat
    cases f with
    | preload => cases hat
    | eval p => exact ⟨p, .inl rfl⟩
    | native p => exact ⟨p, .inr rfl⟩
  rcases hc : s.ctl with _ | path | b | e
  · have hsource : Source.step P r .interpreter = none := by simp [Source.step, ← hctl, hc]
    have hbundle : Bundle.step (P.generate c).maps s .loader = none := by
      rcases hs : s.stack with _ | ⟨f, rest⟩
      · simp [Bundle.step, Bundle.loaderStep, hc, hs]
      · obtain ⟨p, rfl | rfl⟩ := htop f rest hs <;> simp [Bundle.step, Bundle.loaderStep, hc, hs]
    rw [hsource, hbundle]
    exact .none
  · have hsource : Source.step P r .interpreter = some (Source.load r path) := by simp [Source.step, ← hctl, hc]
    have hbundle : Bundle.step (P.generate c).maps s .loader = some (Bundle.loadFile (P.generate c).maps s path) := by
      simp [Bundle.step, Bundle.loaderStep, hc]
    rw [hsource, hbundle]
    exact .some (h.load hc ((maps_closed hloop).embedded_of_call hreach hc) (hautoloads path))
  · have hsource : Source.step P r .interpreter = some { r with ctl := .go } := by simp [Source.step, ← hctl, hc]
    have hbundle : Bundle.step (P.generate c).maps s .loader = some { s with ctl := .go } := by
      rcases hs : s.stack with _ | ⟨f, rest⟩
      · simp [Bundle.step, Bundle.loaderStep, hc, hs]
      · obtain ⟨p, rfl | rfl⟩ := htop f rest hs <;> simp [Bundle.step, Bundle.loaderStep, hc, hs]
    rw [hsource, hbundle]
    exact .some (h.ret hat (by simp))
  · rcases hs : s.stack with _ | ⟨f, rest⟩
    · have hsource : Source.step P r .interpreter = none := by
        simp [Source.step, ← hctl, hc, h.stack_eq_nil hs]
      have hbundle : Bundle.step (P.generate c).maps s .loader = none := by
        simp [Bundle.step, Bundle.loaderStep, hc, hs]
      rw [hsource, hbundle]
      exact .none
    · have hbundle : Bundle.step (P.generate c).maps s .loader = some (Bundle.unwind s f.file e rest) := by
        obtain ⟨p, rfl | rfl⟩ := htop f rest hs <;>
          simp [Bundle.step, Bundle.loaderStep, hc, hs, Bundle.Frame.file]
      rw [hbundle]
      exact h.unwind hat (Bundle.kept_of_reach hreach).nodup hs hc

omit hloop in
/-- Both call the same file, if they are at code that goes on. -/
theorem Same.step_call (hne : path ≠ P.entry) :
    Option.Rel (Same P) (if s.ctl = .go ∧ s.atCode then some { s with ctl := .call path } else none)
      (if r.ctl = .go then some { r with ctl := .call path } else none) := by
  by_cases hgo : s.ctl = .go
  · rw [if_pos ⟨hgo, hat⟩, if_pos (h.ctl.symm.trans hgo)]
    exact .some (h.call hat hne)
  · rw [if_neg fun hg => hgo hg.1, if_neg fun hg => hgo (h.ctl.trans hg)]
    exact .none

omit hloop in
/-- The end of a file. -/
theorem Same.step_finish
    (hreach : Machine.Reach (Bundle.step (P.generate c).maps) Machine.Free (Bundle.start (P.generate c).maps) s) :
    Option.Rel (Same P) (Bundle.step (P.generate c).maps s .finish) (Source.step P r .finish) := by
  have hctl := h.ctl
  rcases hs : s.stack with _ | ⟨f, rest⟩
  · have hbundle : Bundle.step (P.generate c).maps s .finish = none := by
      simp [Bundle.step, Bundle.finishStep, hs]
    have hsource : Source.step P r .finish = none := by simp [Source.step, h.stack_eq_nil hs]
    rw [hbundle, hsource]
    exact .none
  · by_cases hgo : s.ctl = .go
    · have hf := Bundle.atCode_cons hs
      rw [hat] at hf
      have hbundle : Bundle.step (P.generate c).maps s .finish = some (Bundle.finish s f.file rest) := by
        cases f <;> simp [Bundle.step, Bundle.finishStep, hgo, hs, Bundle.Frame.isCode, Bundle.Frame.file] at hf ⊢
      rw [hbundle]
      exact h.finish hat (Bundle.kept_of_reach hreach).nodup hs hgo
    · have hbundle : Bundle.step (P.generate c).maps s .finish = none := by
        simp [Bundle.step, Bundle.finishStep, hgo]
      have hsource : Source.step P r .finish = none := by
        rw [hctl] at hgo
        simp [Source.step, hgo]
      rw [hbundle, hsource]
      exact .none

include hP in
/-- Actions that match, with code on top. -/
theorem Same.step
    (hreach : Machine.Reach (Bundle.step (P.generate c).maps) Machine.Free (Bundle.start (P.generate c).maps) s)
    {a : Bundle.Act} {a' : Source.Act} (ha : P.Matches env s a a') :
    Option.Rel (Same P) (Bundle.step (P.generate c).maps s a) (Source.step P r a') := by
  have hctl := h.ctl
  cases ha with
  | loader => exact h.step_loader hloop hat (no_autoloads hP hloop) hreach
  | require f rest kind ident path hs hkind hn =>
    obtain ⟨u, below, hr, hfile⟩ := h.top_source hs
    have hcall := require_static hloop ((mem_files_iff hloop).2 hn.reached) hn.static hn.resolve hn.takes hkind s
    rw [Bundle.step, hcall, Source.step_name hr (hfile ▸ hn.resolve)]
    exact h.step_call hat (hP.entry _ kind ident path hn)
  | relative f rest ident q path hs hq hn =>
    obtain ⟨u, below, hr, hfile⟩ := h.top_source hs
    obtain ⟨hplain, hembeds⟩ := hP.relative _ ident path hn
    obtain ⟨abs, habs, hcall⟩ := requireRelative_static hP.absolute hloop ((mem_files_iff hloop).2 hn.reached)
      hn.static hn.resolve hembeds hplain env
    rw [hq, Except.ok.injEq] at habs
    rw [Bundle.step, habs, hcall s, Source.step_name hr (hfile ▸ hn.resolve)]
    exact h.step_call hat (hP.entry _ .requireRelative ident path hn)
  | raise e =>
    rw [Bundle.step, Source.step, ← hctl]
    by_cases hgo : s.ctl = .go
    · rw [if_pos ⟨hgo, hat⟩, if_pos hgo]
      exact .some (h.ret hat (by simp))
    · rw [if_neg fun hg => hgo hg.1, if_neg hgo]
      exact .none
  | rescue =>
    rcases hc : s.ctl with _ | path | b | e <;> rw [hc] at hctl <;>
      simp only [Bundle.step, Bundle.rescueStep, Source.step, hc, ← hctl, hat, if_true]
    · exact .none
    · exact .none
    · exact .none
    · exact .some (h.ret hat (by simp))
  | finish => exact h.step_finish hat hreach

end Step

private theorem ext_of_extracts {path : Str} (h : P.extracts path = true) : isNativeExt (extname path) = true := by
  unfold Project.extracts at h
  split at h
  · exact h
  · cases h
  · cases h

/-- What the names of a file store are extensions. -/
theorem ext_stored {native : List (Str × Bytes)} (h : ∀ entry ∈ native, isNativeExt (extname entry.1) = true)
    (resolved : List (Option Str)) :
    ∀ entry ∈ resolved.foldl P.stored native, isNativeExt (extname entry.1) = true := by
  induction resolved generalizing native with
  | nil => exact h
  | cons r resolved ih =>
    rw [List.foldl_cons]
    refine ih fun entry hentry => ?_
    unfold Project.stored at hentry
    split at hentry
    · split at hentry
      · split at hentry
        · rename_i hextracts
          rcases mem_store hentry with hentry | rfl
          · exact h entry hentry
          · exact ext_of_extracts hextracts
        · exact h entry hentry
      · exact h entry hentry
    · exact h entry hentry

theorem Turn.ext {c' : Collection} (hturn : Turn P c (.ok c'))
    (h : ∀ entry ∈ c.native, isNativeExt (extname entry.1) = true) :
    ∀ entry ∈ c'.native, isNativeExt (extname entry.1) = true := by
  generalize hr : Except.ok c' = r at hturn
  cases hturn with
  | skip file queue =>
    cases hr
    exact h
  | raise file queue e => cases hr
  | visit file queue src resolved c₁ hqueue hfile hsrc hall hfiles hqueue' hnative =>
    cases hr
    rw [hnative]
    exact ext_stored h resolved

instance (ident : Str) : Decidable (Plain ident) :=
  decidable_of_iff (enter [] (ident.rtakeWhile (· ≠ '/')) = [ident.rtakeWhile (· ≠ '/')] ∧ ident.head? ≠ some '~')
    ⟨fun h => ⟨h.1, h.2⟩, fun h => ⟨h.name, h.home⟩⟩

end Build

end Calisto

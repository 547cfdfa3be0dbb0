import Calisto.Bundle.Loader

/-!
# What the loader knows about its files

`LOADING` is meant to be the files that are being loaded and `LOADED` those that have been.  Every step keeps that but
one: an exception other than a `NameError` that leaves `preload` leaves its file in `LOADING`, and nothing will load
that file again.
-/

namespace Calisto

namespace Bundle

/-- What the last call past the first line of `load_file` came to. -/
def lastEvent (hist : List Event) (abs : Str) : Option Event := hist.find? fun e => e.file = abs

/-- The maps are what their names say, in one state. -/
structure Sound (B : Maps) (s : St) : Prop where
  /-- `LOADING` is the files whose `load_file` is on the stack. -/
  loading : ∀ p, s.loading p = true ↔ p ∈ s.files
  /-- `LOADED` is the files whose load came to its end. -/
  loaded : ∀ p, s.loaded p = true ↔ .done p ∈ s.hist
  once : ∀ p, s.hist.count (.done p) ≤ 1
  /-- A file whose load has failed is loaded again when it is required again. -/
  again : ∀ p, B.embedded p = true → lastEvent s.hist p = some (.failed p) →
    (loadFile B s p).files = p :: s.files ∧ (loadFile B s p).ctl = .go

/-- An exception other than a `NameError` is about to leave `preload`. -/
def St.leaks (s : St) : Act → Bool
  | .loader => match s.ctl, s.stack with
    | .raised e, .preload .. :: _ => !e.isNameError
    | _, _ => false
  | _ => false

/-! ### The books -/

/-- The part of the state that the maps speak about. -/
structure Book where
  loading : Str → Bool
  loaded : Str → Bool
  files : List Str
  hist : List Event

def St.book (s : St) : Book := ⟨s.loading, s.loaded, s.files, s.hist⟩

/-- What one step does to the books; the flag marks the step that leaks. -/
inductive Book.Step (B : Maps) : Bool → Book → Book → Prop
  | same (b : Book) : Step B false b b
  | enter (b : Book) (p : Str) (hloaded : b.loaded p = false) (hloading : b.loading p = false) :
    Step B false b ⟨Function.update b.loading p true, b.loaded, p :: b.files, .enter p :: b.hist⟩
  | missing (b : Book) (p : Str) (hloaded : b.loaded p = false) (hloading : b.loading p = false)
    (hB : B.embedded p = false) : Step B false b ⟨b.loading, b.loaded, b.files, .failed p :: b.hist⟩
  | done (loading loaded : Str → Bool) (p : Str) (files : List Str) (hist : List Event) :
    Step B false ⟨loading, loaded, p :: files, hist⟩
      ⟨Function.update loading p false, Function.update loaded p true, files, .done p :: hist⟩
  | failed (loading loaded : Str → Bool) (p : Str) (files : List Str) (hist : List Event) :
    Step B false ⟨loading, loaded, p :: files, hist⟩
      ⟨Function.update loading p false, loaded, files, .failed p :: hist⟩
  | leak (loading loaded : Str → Bool) (p : Str) (files : List Str) (hist : List Event) :
    Step B true ⟨loading, loaded, p :: files, hist⟩ ⟨loading, loaded, files, .failed p :: hist⟩

variable {B : Maps} {s t : St} {a : Act}

private theorem loadFile_book (B : Maps) (s : St) (p : Str) : Book.Step B false s.book (loadFile B s p).book := by
  unfold loadFile
  split
  · exact .same s.book
  · rename_i h
    simp only [Bool.or_eq_true, not_or, Bool.not_eq_true] at h
    split
    · exact .enter s.book p h.1 h.2
    · rename_i hnative
      split
      · rename_i hcode
        apply Book.Step.missing s.book p h.1 h.2
        simp only [Maps.embedded, Bool.not_eq_true] at *
        simpa [hnative] using hcode
      · exact .enter s.book p h.1 h.2

/-- A step that changes no more than the frames of the files. -/
theorem Book.Step.of_eq {b c : Book} (h : c = b) : Book.Step B false b c := by
  rw [h]
  exact .same b

theorem preloadNext_book {p : Str} {todo kept : List Str} {progressed : Bool} {rest : List Frame}
    (hs : s.stack = .preload p todo kept progressed :: rest) :
    (preloadNext s p todo kept progressed rest).book = s.book := by
  unfold preloadNext
  split
  · rfl
  · split <;> simp [St.book, St.files, hs, Frame.file]

/-- The books with a file on top of the stack. -/
theorem book_cons {f : Frame} {rest : List Frame} (hs : s.stack = f :: rest) :
    s.book = ⟨s.loading, s.loaded, f.file :: rest.map Frame.file, s.hist⟩ := by
  simp [St.book, St.files, hs]

private theorem loaderStep_book (h : loaderStep B s = some t) : Book.Step B (s.leaks .loader) s.book t.book := by
  rcases hc : s.ctl with _ | p | b | e
  · rcases hs : s.stack with _ | ⟨⟨p, todo, kept, progressed⟩ | p | p, rest⟩ <;>
      simp only [loaderStep, hc, hs, Option.some.injEq, reduceCtorEq] at h
    subst h
    have hleak : s.leaks .loader = false := by simp [St.leaks, hc]
    rw [hleak]
    exact .of_eq (preloadNext_book hs)
  · simp only [loaderStep, hc, Option.some.injEq] at h
    subst h
    have hleak : s.leaks .loader = false := by simp [St.leaks, hc]
    rw [hleak]
    exact loadFile_book B s p
  · have hleak : s.leaks .loader = false := by simp [St.leaks, hc]
    rw [hleak]
    rcases hs : s.stack with _ | ⟨⟨p, todo, kept, progressed⟩ | p | p, rest⟩ <;>
      simp only [loaderStep, hc, hs, Option.some.injEq] at h <;> subst h <;> apply Book.Step.of_eq <;>
      simp [St.book, St.files, hs, Frame.file]
  · rcases hs : s.stack with _ | ⟨⟨p, todo, kept, progressed⟩ | p | p, rest⟩ <;>
      simp only [loaderStep, hc, hs, Option.some.injEq, reduceCtorEq] at h
    · have hleak : s.leaks .loader = !e.isNameError := by simp [St.leaks, hc, hs]
      by_cases he : e.isNameError
      · rw [if_pos he, Option.some.injEq] at h
        subst h
        rw [hleak, he]
        apply Book.Step.of_eq
        simp [St.book, St.files, hs, Frame.file]
      · rw [if_neg he, Option.some.injEq] at h
        subst h
        rw [hleak, Bool.eq_false_iff.2 he, book_cons hs]
        exact .leak s.loading s.loaded p _ s.hist
    · have hleak : s.leaks .loader = false := by simp [St.leaks, hc, hs]
      subst h
      rw [hleak, book_cons hs]
      exact .failed s.loading s.loaded p _ s.hist
    · have hleak : s.leaks .loader = false := by simp [St.leaks, hc, hs]
      subst h
      rw [hleak, book_cons hs]
      exact .failed s.loading s.loaded p _ s.hist

theorem require_book (B : Maps) (s : St) (path : Str) : (require B s path).book = s.book := by
  unfold require
  split <;> rfl

theorem requireRelative_book (B : Maps) (s : St) (abs : Str) : (requireRelative B s abs).book = s.book := by
  unfold requireRelative
  split
  · rfl
  · split <;> rfl

/-- Every step of the machine is a step of the books. -/
theorem step_book (h : step B s a = some t) : Book.Step B (s.leaks a) s.book t.book := by
  cases a with
  | loader => exact loaderStep_book h
  | require path =>
    obtain ⟨-, ht⟩ := Option.ite_none_right_eq_some.1 h
    cases ht
    exact .of_eq (require_book B s path)
  | requireRelative abs =>
    obtain ⟨-, ht⟩ := Option.ite_none_right_eq_some.1 h
    cases ht
    exact .of_eq (requireRelative_book B s abs)
  | raise e =>
    obtain ⟨-, ht⟩ := Option.ite_none_right_eq_some.1 h
    cases ht
    exact .same s.book
  | rescue =>
    have hr : rescueStep s = some t := h
    unfold rescueStep at hr
    split at hr
    · obtain ⟨-, ht⟩ := Option.ite_none_right_eq_some.1 hr
      cases ht
      exact .same s.book
    · simp at hr
  | finish =>
    have hf : finishStep s = some t := h
    unfold finishStep at hf
    split at hf
    · rename_i p rest _ hs
      rw [Option.some.injEq] at hf
      subst hf
      rw [book_cons hs]
      exact .done s.loading s.loaded p _ s.hist
    · rename_i p rest _ hs
      rw [Option.some.injEq] at hf
      subst hf
      rw [book_cons hs]
      exact .done s.loading s.loaded p _ s.hist
    · simp at hf

/-! ### Every run -/

private theorem lastEvent_self (e : Event) (hist : List Event) : lastEvent (e :: hist) e.file = some e := by
  simp [lastEvent]

private theorem lastEvent_ne {e : Event} {q : Str} (h : q ≠ e.file) (hist : List Event) :
    lastEvent (e :: hist) q = lastEvent hist q := by
  simp [lastEvent, Ne.symm h]

/-- What every step keeps, leaking or not. -/
structure Book.Kept (b : Book) : Prop where
  nodup : b.files.Nodup
  loading_of_mem : ∀ p ∈ b.files, b.loading p = true
  mem_iff_last : ∀ p, p ∈ b.files ↔ lastEvent b.hist p = some (.enter p)
  loaded_iff_last : ∀ p, b.loaded p = true ↔ lastEvent b.hist p = some (.done p)
  loaded_iff_done : ∀ p, b.loaded p = true ↔ .done p ∈ b.hist
  once : ∀ p, b.hist.count (.done p) ≤ 1

private theorem Book.kept_start (entry : Str) : (St.book { ctl := .call entry }).Kept := by
  constructor <;> simp [St.book, St.files, lastEvent]

/-- An event that is not the end of a load leaves the ends as they are. -/
theorem Book.Kept.of_event {b : Book} {loading : Str → Bool} {files : List Str} {e : Event} (h : b.Kept)
    (hdone : ∀ q, e ≠ .done q) (hnot : b.loaded e.file = false) (hnodup : files.Nodup)
    (hloading : ∀ q ∈ files, loading q = true)
    (hmem : ∀ q, q ∈ files ↔ if q = e.file then e = .enter q else q ∈ b.files) :
    Book.Kept ⟨loading, b.loaded, files, e :: b.hist⟩ := by
  refine ⟨hnodup, hloading, fun q => ?_, fun q => ?_, fun q => ?_, fun q => ?_⟩
  · show q ∈ files ↔ lastEvent (e :: b.hist) q = some (.enter q)
    rw [hmem q]
    by_cases hq : q = e.file
    · subst hq
      rw [lastEvent_self, if_pos rfl, Option.some.injEq]
    · rw [lastEvent_ne hq, if_neg hq, h.mem_iff_last q]
  · show b.loaded q = true ↔ lastEvent (e :: b.hist) q = some (.done q)
    by_cases hq : q = e.file
    · subst hq
      rw [lastEvent_self, hnot, Option.some.injEq]
      simpa using hdone e.file
    · rw [lastEvent_ne hq, h.loaded_iff_last q]
  · show b.loaded q = true ↔ .done q ∈ e :: b.hist
    rw [h.loaded_iff_done q, List.mem_cons]
    constructor
    · exact Or.inr
    · rintro (he | hm)
      · exact absurd he.symm (hdone q)
      · exact hm
  · show (e :: b.hist).count (.done q) ≤ 1
    rw [List.count_cons_of_ne (hdone q)]
    exact h.once q

/-- What is being loaded has not been loaded. -/
theorem Book.Kept.not_loaded {b : Book} {p : Str} (h : b.Kept) (hp : p ∈ b.files) : b.loaded p = false := by
  rw [Bool.eq_false_iff, ne_eq, h.loaded_iff_last p, (h.mem_iff_last p).1 hp]
  simp

/-- The file on top leaves the stack with an exception. -/
theorem Book.Kept.of_failed {loading loading' loaded : Str → Bool} {p : Str} {files : List Str} {hist : List Event}
    (h : Book.Kept ⟨loading, loaded, p :: files, hist⟩) (hloading : ∀ q, q ≠ p → loading' q = loading q) :
    Book.Kept ⟨loading', loaded, files, .failed p :: hist⟩ := by
  obtain ⟨hp, hnodup⟩ := List.nodup_cons.1 h.nodup
  have hnot : loaded p = false := h.not_loaded List.mem_cons_self
  apply h.of_event (e := .failed p) (by simp) hnot hnodup
  · intro q hq
    have hqp : q ≠ p := fun he => hp (he ▸ hq)
    show loading' q = true
    rw [hloading q hqp]
    exact h.loading_of_mem q (List.mem_cons_of_mem p hq)
  · intro q
    show _ ↔ if q = p then _ else _
    by_cases hqp : q = p
    · subst hqp
      simpa using hp
    · simp [hqp]

theorem Book.Step.kept {leak : Bool} {b c : Book} (hstep : Book.Step B leak b c) (h : b.Kept) : c.Kept := by
  cases hstep with
  | same => exact h
  | enter _ p hloaded hloading =>
    have hp : p ∉ b.files := by
      intro hm
      have := h.loading_of_mem p hm
      simp [hloading] at this
    apply h.of_event (e := .enter p) (by simp) hloaded
    · exact List.nodup_cons.2 ⟨hp, h.nodup⟩
    · intro q hq
      by_cases hqp : q = p
      · simp [hqp]
      · rw [Function.update_of_ne hqp]
        exact h.loading_of_mem q ((List.mem_cons.1 hq).resolve_left hqp)
    · intro q
      show _ ↔ if q = p then _ else _
      by_cases hqp : q = p <;> simp [hqp]
  | missing _ p hloaded hloading hB =>
    have hp : p ∉ b.files := by
      intro hm
      have := h.loading_of_mem p hm
      simp [hloading] at this
    apply h.of_event (e := .failed p) (by simp) hloaded h.nodup h.loading_of_mem
    intro q
    show _ ↔ if q = p then _ else _
    by_cases hqp : q = p
    · subst hqp
      simpa using hp
    · simp [hqp]
  | done loading loaded p files hist =>
    obtain ⟨hp, hnodup⟩ := List.nodup_cons.1 h.nodup
    have hnot : loaded p = false := h.not_loaded List.mem_cons_self
    have hnd : .done p ∉ hist := by
      intro hm
      have := (h.loaded_iff_done p).2 hm
      simp [hnot] at this
    refine ⟨hnodup, fun q hq => ?_, fun q => ?_, fun q => ?_, fun q => ?_, fun q => ?_⟩
    · have hqp : q ≠ p := fun he => hp (he ▸ hq)
      show Function.update loading p false q = true
      rw [Function.update_of_ne hqp]
      exact h.loading_of_mem q (List.mem_cons_of_mem p hq)
    · by_cases hqp : q = p
      · subst hqp
        simp [hp, lastEvent, Event.file]
      · have hmem := h.mem_iff_last q
        rw [lastEvent_ne (e := .done p) hqp, ← hmem]
        simp [hqp]
    · by_cases hqp : q = p
      · subst hqp
        simp [lastEvent, Event.file]
      · have hlast := h.loaded_iff_last q
        rw [lastEvent_ne (e := .done p) hqp, ← hlast]
        simp [hqp]
    · by_cases hqp : q = p
      · subst hqp
        simp
      · have hdone := h.loaded_iff_done q
        simp only [Function.update_of_ne hqp, hdone]
        simp [hqp]
    · by_cases hqp : q = p
      · subst hqp
        show (Event.done q :: hist).count (.done q) ≤ 1
        exact Nat.le_of_eq (by rw [List.count_cons_self, List.count_eq_zero.2 hnd])
      · show (Event.done p :: hist).count (.done q) ≤ 1
        rw [List.count_cons_of_ne (by simpa using Ne.symm hqp)]
        exact h.once q
  | failed loading loaded p files hist => exact h.of_failed fun q hq => Function.update_of_ne hq _ _
  | leak loading loaded p files hist => exact h.of_failed fun q _ => rfl

/-! ### Runs without a leak -/

/-- A step that does not leak takes from `LOADING` what it takes from the stack. -/
theorem Book.Step.loading_mem {b c : Book} (hstep : Book.Step B false b c) {q : Str}
    (h : b.loading q = true → q ∈ b.files) (hq : c.loading q = true) : q ∈ c.files := by
  cases hstep with
  | same => exact h hq
  | enter _ p =>
    by_cases hqp : q = p
    · simp [hqp]
    · simp only [Function.update_of_ne hqp] at hq
      exact List.mem_cons_of_mem p (h hq)
  | missing => exact h hq
  | done loading loaded p files hist =>
    by_cases hqp : q = p
    · simp [hqp] at hq
    · simp only [Function.update_of_ne hqp] at hq
      exact (List.mem_cons.1 (h hq)).resolve_left hqp
  | failed loading loaded p files hist =>
    by_cases hqp : q = p
    · simp [hqp] at hq
    · simp only [Function.update_of_ne hqp] at hq
      exact (List.mem_cons.1 (h hq)).resolve_left hqp

/-- What is loaded stays so. -/
theorem Book.Step.loaded_mono {leak : Bool} {b c : Book} (hstep : Book.Step B leak b c) {q : Str}
    (h : b.loaded q = true) : c.loaded q = true := by
  cases hstep with
  | done loading loaded p files hist =>
    by_cases hqp : q = p
    · simp [hqp]
    · simpa only [Function.update_of_ne hqp] using h
  | _ => exact h

/-- A file that is neither loaded nor being loaded is loaded when it is required. -/
theorem loadFile_enters {p : Str} (hB : B.embedded p = true) (hloaded : s.loaded p = false)
    (hloading : s.loading p = false) : (loadFile B s p).files = p :: s.files ∧ (loadFile B s p).ctl = .go := by
  unfold loadFile
  simp only [hloaded, hloading, Bool.or_self, Bool.false_eq_true, if_false]
  split
  · exact ⟨rfl, rfl⟩
  · rename_i hnative
    split
    · rename_i hcode
      simp [Maps.embedded, hnative] at hB hcode
      simp [hB] at hcode
    · exact ⟨rfl, rfl⟩

theorem kept_of_reach {G : St → Act → Prop} (h : Machine.Reach (step B) G (start B) s) : s.book.Kept :=
  h.invariant (I := fun s => s.book.Kept) (Book.kept_start B.entry) fun _ _ _ _ hI _ hs => (step_book hs).kept hI

theorem sound_of_reach (h : Machine.Reach (step B) (fun s a => s.leaks a = false) (start B) s) : Sound B s := by
  have hkept := kept_of_reach h
  have hmem : ∀ p, s.loading p = true → p ∈ s.files := by
    refine h.invariant (I := fun s => ∀ p, s.loading p = true → p ∈ s.files) ?_ ?_
    · intro p hp
      simp [start] at hp
    · intro u a v _ hI hG hs
      have hstep := step_book hs
      rw [hG] at hstep
      exact fun p => hstep.loading_mem (hI p)
  refine ⟨fun p => ⟨hmem p, hkept.loading_of_mem p⟩, hkept.loaded_iff_done, hkept.once, fun p hB hlast => ?_⟩
  apply loadFile_enters hB
  · rw [Bool.eq_false_iff, ne_eq]
    intro hl
    have := (hkept.loaded_iff_last p).1 hl
    simp only [St.book] at this
    rw [hlast] at this
    simp at this
  · rw [Bool.eq_false_iff, ne_eq]
    intro hl
    have := (hkept.mem_iff_last p).1 (hmem p hl)
    simp only [St.book] at this
    rw [hlast] at this
    simp at this

/-- A step that leaks leaves its file in `LOADING`, with no `load_file` of it on the stack. -/
theorem not_sound_of_leaks (h : Machine.Reach (step B) Machine.Free (start B) s) (hleak : s.leaks a = true)
    (hs : step B s a = some t) : ¬Sound B t := by
  intro hsound
  have hkept := kept_of_reach h
  have hstep := step_book hs
  rw [hleak] at hstep
  generalize hb : s.book = b at *
  generalize hc : t.book = c at *
  cases hstep with
  | leak loading loaded p files hist =>
    have hp : p ∉ files := (List.nodup_cons.1 hkept.nodup).1
    have hloading : loading p = true := hkept.loading_of_mem p List.mem_cons_self
    simp only [St.book, Book.mk.injEq] at hc
    have := (hsound.loading p).1 (by rw [hc.1]; exact hloading)
    rw [hc.2.2.1] at this
    exact hp this

/-- As long as no exception but a `NameError` leaves `preload`, `LOADING` and `LOADED` are what their names say in every
state of every run; the step in which another one does breaks them. -/
theorem loader_bookkeeping (B : Maps) :
    (∀ s, Machine.Reach (step B) (fun s a => s.leaks a = false) (start B) s → Sound B s) ∧
    ∀ s t a, Machine.Reach (step B) Machine.Free (start B) s → s.leaks a = true → step B s a = some t → ¬Sound B t :=
  ⟨fun _ h => sound_of_reach h, fun _ _ _ h hleak hs => not_sound_of_leaks h hleak hs⟩

/-- `m.rb` requires `a.rb`, which has `b.rb` as the target of an autoload. -/
def autoloading : Maps where
  code := fun p => p == "/m.rb".toList || p == "/a.rb".toList || p == "/b.rb".toList
  index := fun _ => none
  native := fun _ => false
  autoloads := fun p => if p = "/a.rb".toList then ["/b.rb".toList] else []
  entry := "/m.rb".toList

/-- The steps up to the code of `b.rb`. -/
def toTarget : List Act :=
  [.loader, .loader, .requireRelative "/a.rb".toList, .loader, .loader, .loader, .loader]

/-- `b.rb` fails with a `NameError`, and `a.rb` is loaded all the same. -/
theorem loader_bookkeeping_nameError : ∃ s, Sound autoloading s ∧ s.loaded "/a.rb".toList = true ∧
    lastEvent s.hist "/b.rb".toList = some (.failed "/b.rb".toList) := by
  have hrun : (Machine.exec (Machine.guarded (step autoloading) fun s a => s.leaks a = false) (start autoloading)
      (toTarget ++ [.raise (.nameError "C".toList), .loader, .loader, .loader, .finish])).any
      (fun s => s.loaded "/a.rb".toList ∧ lastEvent s.hist "/b.rb".toList = some (.failed "/b.rb".toList)) = true := by
    decide
  obtain ⟨s, hs, hp⟩ := Machine.Reach.of_any_guarded hrun
  exact ⟨s, (loader_bookkeeping autoloading).1 s hs, of_decide_eq_true hp⟩

/-- `b.rb` raises an `ArgumentError`, `m.rb` rescues it and requires `a.rb` again: the loader answers `false`. -/
theorem failed_file_not_loaded_again :
    (∃ s, Machine.Reach (step autoloading) Machine.Free (start autoloading) s ∧ s.ctl = .ret false ∧
      s.files = ["/m.rb".toList] ∧ lastEvent s.hist "/a.rb".toList = some (.failed "/a.rb".toList)) ∧
    ¬∀ s, Machine.Reach (step autoloading) Machine.Free (start autoloading) s → Sound autoloading s := by
  have hrun : (Machine.exec (step autoloading) (start autoloading)
      (toTarget ++ [.raise (.other "ArgumentError".toList []), .loader, .loader, .rescue,
        .requireRelative "/a.rb".toList, .loader])).any
      (fun s => s.loading "/a.rb".toList ∧ s.ctl = .ret false ∧ s.files = ["/m.rb".toList] ∧
        lastEvent s.hist "/a.rb".toList = some (.failed "/a.rb".toList)) = true := by
    decide
  obtain ⟨s, hs, hp⟩ := Machine.Reach.of_any hrun
  simp only [decide_eq_true_eq] at hp
  obtain ⟨hloading, hctl, hfiles, hlast⟩ := hp
  constructor
  · exact ⟨s, hs, hctl, hfiles, hlast⟩
  · intro hall
    have := ((hall s hs).loading _).1 hloading
    rw [hfiles] at this
    exact absurd this (by decide)

end Bundle

end Calisto

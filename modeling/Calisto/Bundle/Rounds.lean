import Calisto.Bundle.Termination
import Mathlib.Data.Fintype.Order
import Mathlib.Logic.Relation

/-!
# The rounds of `preload`

Targets that register no autoloads and whose loads fail only for want of each other.  Each round that has something to
try loads a target, since one of them needs no other that is not loaded, and so all of them are loaded in the end,
whatever the order in which they are listed.
-/

namespace Calisto

namespace Bundle

variable {B : Maps} {s t : St} {a : Act} {st : ℕ → St} {act : ℕ → Act}

/-- A relation without cycles relates some element of a finite set to none of it. -/
theorem exists_unrelated {α : Type*} {r : α → α → Prop} (hr : ∀ x, ¬Relation.TransGen r x x) {A : Set α}
    (hA : A.Finite) (hne : A.Nonempty) : ∃ x ∈ A, ∀ y ∈ A, ¬r x y := by
  have hfinite : Finite A := hA
  let below : A → A → Prop := fun y x => Relation.TransGen r x y
  have htrans : IsTrans A below := ⟨fun _ _ _ h h' => h'.trans h⟩
  have hirrefl : Std.Irrefl below := ⟨fun x => hr x⟩
  obtain ⟨x, -, hmin⟩ := (Finite.wellFounded_of_trans_of_irrefl below).has_min Set.univ
    ⟨⟨hne.some, hne.some_mem⟩, trivial⟩
  exact ⟨x, x.2, fun y hy h => hmin ⟨y, hy⟩ trivial (.single h)⟩

/-! ### What a step does to a target -/

/-- What a frame of `preload` has still to try are targets of its file. -/
def Frame.Registered (B : Maps) : Frame → Prop
  | .preload abs todo kept _ => ∀ p, p ∈ todo ∨ p ∈ kept → p ∈ B.autoloads abs
  | _ => True

theorem Frame.Next.registered {f g : Frame} (h : g.Next f) (hf : f.Registered B) : g.Registered B := by
  cases h with
  | loaded abs p todo kept progressed => exact fun q hq => hf q (hq.imp_left (List.mem_cons_of_mem p))
  | kept abs p todo kept progressed =>
    rintro q (hq | hq)
    · exact hf q (.inl (List.mem_cons_of_mem p hq))
    · rcases List.mem_append.1 hq with hq | hq
      · exact hf q (.inr hq)
      · exact hf q (.inl (by simpa using Or.inl (List.mem_singleton.1 hq)))
  | round abs kept => exact fun q hq => hf q (hq.symm)
  | leave abs kept progressed => trivial

theorem registered_of_reach (h : Machine.Reach (step B) Machine.Free (start B) s) : ∀ f ∈ s.stack, f.Registered B := by
  refine frames_of_reach h (fun _ _ => trivial) ?_ fun _ _ hnext hf => hnext.registered hf
  rintro p - - q (hq | hq)
  · exact hq
  · cases hq

/-- What leaks is a file with autoloads. -/
theorem autoloads_of_leaks (hw : s.Waiting) (hreg : ∀ f ∈ s.stack, f.Registered B) (h : s.leaks a = true) :
    ∃ p files, s.files = p :: files ∧ B.autoloads p ≠ [] := by
  cases a with
  | loader =>
    rcases hc : s.ctl with _ | p | b | e <;> simp only [St.leaks, hc, Bool.false_eq_true] at h
    rcases hs : s.stack with _ | ⟨⟨p, todo, kept, progressed⟩ | p | p, rest⟩ <;>
      simp only [hs, Bool.false_eq_true] at h
    obtain ⟨target, todo', rfl⟩ := waits_cons hw (by simp [hc]) hs
    refine ⟨p, rest.map Frame.file, by simp [St.files, hs, Frame.file], ?_⟩
    have hmem := hreg (.preload p (target :: todo') kept progressed) (by simp [hs]) target (by simp)
    exact List.ne_nil_of_mem hmem
  | _ => simp [St.leaks] at h

/-- A file without autoloads is in `LOADING` no longer than on the stack. -/
theorem loading_mem_step (hr : Machine.Reach (step B) Machine.Free (start B) s) (h : step B s a = some t) {q : Str}
    (hq : B.autoloads q = []) (hmem : s.loading q = true → q ∈ s.files) : t.loading q = true → q ∈ t.files := by
  intro hloading
  have hstep := step_book h
  cases hleak : s.leaks a with
  | false =>
    rw [hleak] at hstep
    exact hstep.loading_mem hmem hloading
  | true =>
    obtain ⟨p, files, hfiles, hne⟩ := autoloads_of_leaks (waiting_of_reach hr) (registered_of_reach hr) hleak
    have hqp : q ≠ p := by
      rintro rfl
      exact hne hq
    rw [hleak] at hstep
    generalize hb : s.book = b at hstep
    generalize hc : t.book = c at hstep
    cases hstep with
    | leak loading loaded p' files' hist =>
      simp only [St.book, Book.mk.injEq] at hb hc
      rw [hc.2.2.1]
      have hq' := hmem (by rw [hb.1, ← hc.1]; exact hloading)
      rw [hb.2.2.1] at hq' hfiles
      obtain ⟨rfl, -⟩ := List.cons.inj hfiles
      exact (List.mem_cons.1 hq').resolve_left hqp

private theorem loadFile_hist (B : Maps) (s : St) (p q : Str) : (loadFile B s q).hist ≠ .done p :: s.hist := by
  unfold loadFile
  split
  · simp
  · split
    · simp
    · split <;> simp

/-- The loader itself brings no load to its end. -/
theorem loaderStep_hist (h : loaderStep B s = some t) (p : Str) : t.hist ≠ .done p :: s.hist := by
  rcases hc : s.ctl with _ | q | b | e
  · rcases hs : s.stack with _ | ⟨⟨q, todo, kept, progressed⟩ | q | q, rest⟩ <;>
      simp only [loaderStep, hc, hs, Option.some.injEq, reduceCtorEq] at h
    subst h
    have hhist : (preloadNext s q todo kept progressed rest).hist = s.hist :=
      congrArg Book.hist (preloadNext_book hs)
    simp [hhist]
  · simp only [loaderStep, hc, Option.some.injEq] at h
    subst h
    exact loadFile_hist B s p q
  · rcases hs : s.stack with _ | ⟨⟨q, todo, kept, progressed⟩ | q | q, rest⟩ <;>
      simp only [loaderStep, hc, hs, Option.some.injEq] at h <;> subst h <;> simp
  · rcases hs : s.stack with _ | ⟨⟨q, todo, kept, progressed⟩ | q | q, rest⟩ <;>
      simp only [loaderStep, hc, hs, Option.some.injEq, reduceCtorEq] at h
    · by_cases he : e.isNameError
      · rw [if_pos he, Option.some.injEq] at h
        subst h
        simp
      · rw [if_neg he, Option.some.injEq] at h
        subst h
        simp [unwindPreload]
    · subst h
      simp [unwind]
    · subst h
      simp [unwind]

/-- A load that comes to its end answers `true`. -/
theorem ret_of_done {p : Str} (h : step B s a = some t) (hdone : t.hist = .done p :: s.hist) : t.ctl = .ret true := by
  have hne : s.hist ≠ .done p :: s.hist := by simp
  cases a with
  | loader => exact absurd hdone (loaderStep_hist h p)
  | require path =>
    obtain ⟨-, ht⟩ := Option.ite_none_right_eq_some.1 h
    cases ht
    exact absurd ((congrArg Book.hist (require_book B s path)).symm.trans hdone) hne
  | requireRelative abs =>
    obtain ⟨-, ht⟩ := Option.ite_none_right_eq_some.1 h
    cases ht
    exact absurd ((congrArg Book.hist (requireRelative_book B s abs)).symm.trans hdone) hne
  | raise e =>
    obtain ⟨-, ht⟩ := Option.ite_none_right_eq_some.1 h
    cases ht
    exact absurd hdone hne
  | rescue =>
    have hr : rescueStep s = some t := h
    unfold rescueStep at hr
    split at hr
    · obtain ⟨-, ht⟩ := Option.ite_none_right_eq_some.1 hr
      cases ht
      exact absurd hdone hne
    · simp at hr
  | finish =>
    have hf : finishStep s = some t := h
    unfold finishStep at hf
    split at hf
    · cases hf
      rfl
    · cases hf
      rfl
    · simp at hf

/-- An activation leaves the stack with its file loaded or with a failure. -/
theorem step_pop {f : Frame} {rest : List Frame} (h : step B s a = some t) (hs : s.stack = f :: rest)
    (ht : t.stack = rest) :
    t.hist = .done f.file :: s.hist ∧ t.loaded f.file = true ∨ t.hist = .failed f.file :: s.hist := by
  have hstep := step_book h
  have hfiles : s.book.files = f.file :: t.book.files := by simp [St.book, St.files, hs, ht]
  have hhist : s.book.hist = s.hist := rfl
  have hhist' : t.book.hist = t.hist := rfl
  have hloaded : t.book.loaded = t.loaded := rfl
  generalize s.book = b at *
  generalize t.book = c at *
  generalize s.leaks a = leak at *
  cases hstep with
  | same => simp at hfiles
  | enter p =>
    have hlength := congrArg List.length hfiles
    simp at hlength
    omega
  | missing => simp at hfiles
  | done loading loaded p files hist =>
    obtain ⟨rfl, -⟩ := List.cons.inj hfiles
    refine .inl ⟨?_, ?_⟩
    · rw [← hhist', ← hhist]
    · rw [← hloaded]
      simp
  | failed loading loaded p files hist =>
    obtain ⟨rfl, -⟩ := List.cons.inj hfiles
    rw [← hhist', ← hhist]
    exact .inr rfl
  | leak loading loaded p files hist =>
    obtain ⟨rfl, -⟩ := List.cons.inj hfiles
    rw [← hhist', ← hhist]
    exact .inr rfl

/-- What a call of `load_file` comes to at once. -/
theorem loadFile_answers (B : Maps) (s : St) (p : Str) :
    (∃ f : Frame, f.file = p ∧ (loadFile B s p).stack = f :: s.stack) ∨
    s.loading p = true ∨
    s.loaded p = true ∧ loadFile B s p = { s with ctl := .ret false } ∨
    (loadFile B s p).hist = .failed p :: s.hist ∧ (loadFile B s p).ctl = .raised (loadError p) := by
  unfold loadFile
  split
  · rename_i h
    rcases Bool.or_eq_true_iff.1 h with hloaded | hloading
    · exact .inr (.inr (.inl ⟨hloaded, rfl⟩))
    · exact .inr (.inl hloading)
  · split
    · exact .inl ⟨.native p, rfl, rfl⟩
    · split
      · exact .inr (.inr (.inr ⟨rfl, rfl⟩))
      · exact .inl ⟨_, rfl, rfl⟩

/-! ### The runs -/

/-- The `preload` above `rest` that is under way at `n` has not come to the code of its file by `m`. -/
def Preloading (st : ℕ → St) (abs : Str) (rest : List Frame) (n m : ℕ) : Prop :=
  n ≤ m ∧ ∀ j, n ≤ j → j ≤ m → (st j).stack ≠ .eval abs :: rest

/-- The run calls `preload` for a list of targets at `n`, and the targets fail for want of each other and nothing
else. -/
structure Preload (B : Maps) (st : ℕ → St) (act : ℕ → Act) (n : ℕ) (abs : Str) (targets : List Str)
    (rest : List Frame) (dep : Str → Str → Prop) : Prop where
  stack : (st n).stack = .preload abs targets [] false :: rest
  go : (st n).ctl = .go
  idle : ∀ p ∈ targets, (st n).loading p = false
  plain : ∀ p ∈ targets, B.autoloads p = []
  acyclic : ∀ p, ¬Relation.TransGen dep p p
  /-- A load of a target raises nothing but a `NameError`, and only if a target it depends on is not loaded. -/
  fails : ∀ m, Preloading st abs rest n m → ∀ p ∈ targets, (st (m + 1)).hist = .failed p :: (st m).hist →
    (∃ msg, (st (m + 1)).ctl = .raised (.nameError msg)) ∧ ∃ q ∈ targets, dep p q ∧ (st m).loaded q = false
  /-- The code that the targets run terminates apart from its calls. -/
  terminates : ∀ m, Preloading st abs rest n m → ∀ f below, rest.length < below.length → f.isCode = true →
    (st m).stack = f :: below → (ownSteps st act m f below).Finite

section Preload

variable {abs p : Str} {targets todo kept : List Str} {progressed : Bool} {rest : List Frame}
  {dep : Str → Str → Prop} {n k m : ℕ}

private theorem Preloading.extend (h : Preloading st abs rest n k) (hkm : k ≤ m)
    (hne : ∀ j, k < j → j ≤ m → (st j).stack ≠ .eval abs :: rest) : Preloading st abs rest n m := by
  refine ⟨h.1.trans hkm, fun j hj hjm => ?_⟩
  by_cases hjk : j ≤ k
  · exact h.2 j hj hjk
  · exact hne j (Nat.lt_of_not_le hjk) hjm

theorem Preloading.succ (h : Preloading st abs rest n k) (hne : (st (k + 1)).stack ≠ .eval abs :: rest) :
    Preloading st abs rest n (k + 1) := by
  refine h.extend (Nat.le_succ k) fun j hj hjk => ?_
  obtain rfl : j = k + 1 := by omega
  exact hne

theorem loaded_mono (h : Machine.Endless (step B) (start B) st act) (hkm : k ≤ m) (hp : (st k).loaded p = true) :
    (st m).loaded p = true := by
  induction m, hkm using Nat.le_induction with
  | base => exact hp
  | succ m hm ih => exact (step_book (h.next m)).loaded_mono ih

theorem unloaded_mono (h : Machine.Endless (step B) (start B) st act) (hkm : k ≤ m) (hp : (st m).loaded p = false) :
    (st k).loaded p = false := by
  rw [Bool.eq_false_iff] at hp ⊢
  exact fun hl => hp (loaded_mono h hkm hl)

/-- On top of a `preload` it is the loader that goes on. -/
theorem step_preload (hs : s.stack = .preload abs todo kept progressed :: rest) (h : step B s a = some t) :
    loaderStep B s = some t := by
  have hloader := loader_of_not_atCode (by simp [St.atCode, hs]) h
  rw [hloader] at h
  exact h

/-- Between two loads no target is being loaded. -/
theorem Preload.not_loading (hpre : Preload B st act n abs targets rest dep)
    (h : Machine.Endless (step B) (start B) st act) (hp : p ∈ targets) (hnk : n ≤ k)
    (hs : (st k).stack = .preload abs todo kept progressed :: rest) : (st k).loading p = false := by
  have hmem : ∀ m ≥ n, (st m).loading p = true → p ∈ (st m).files := by
    intro m hm
    induction m, hm using Nat.le_induction with
    | base =>
      intro hloading
      rw [hpre.idle p hp] at hloading
      exact absurd hloading Bool.false_ne_true
    | succ m hm ih => exact loading_mem_step (h.reach m) (h.next m) (hpre.plain p hp) ih
  rw [Bool.eq_false_iff]
  intro hloading
  have hfiles : (st k).files = (st n).files := by simp [St.files, hs, hpre.stack, Frame.file]
  have hin := hmem k hnk hloading
  rw [hfiles] at hin
  have := (kept_of_reach (h.reach n)).loading_of_mem p hin
  simp only [St.book] at this
  rw [hpre.idle p hp] at this
  exact absurd this Bool.false_ne_true

/-- A target that is called comes back, loaded or for want of another target. -/
theorem Preload.call_returns (hpre : Preload B st act n abs targets rest dep) (hB : {p | B.embedded p = true}.Finite)
    (h : Machine.Endless (step B) (start B) st act) (hp : p ∈ targets) (hin : Preloading st abs rest n k)
    (hs : (st k).stack = .preload abs todo kept progressed :: rest) (hcall : (st k).ctl = .call p) :
    ∃ m > k, Preloading st abs rest n m ∧ (st m).stack = .preload abs todo kept progressed :: rest ∧
      ((∃ b, (st m).ctl = .ret b) ∧ (st m).loaded p = true ∨
        (∃ msg, (st m).ctl = .raised (.nameError msg)) ∧ ∃ q ∈ targets, dep p q ∧ (st k).loaded q = false) := by
  have hnext := step_of_call hcall (h.next k)
  rcases loadFile_answers B (st k) p with ⟨f, rfl, hstack⟩ | hloading | ⟨hloaded, heq⟩ | ⟨hfailed, hraised⟩
  · rw [← hnext, hs] at hstack
    have hstart : Preloading st abs rest n (k + 1) := hin.succ (by simp [hstack])
    -- above the `preload` there is no code of its own file
    have hinside : ∀ m ≥ k + 1, (∀ j, k + 1 ≤ j → j ≤ m → rest.length + 1 < (st j).stack.length) →
        Preloading st abs rest n m := by
      intro m hm hhigh
      refine hstart.extend hm fun j hj hjm he => ?_
      have := hhigh j (by omega) hjm
      simp [he] at this
    obtain ⟨j, hj, hlow⟩ := stack_returns (m := k + 1) (L := rest.length + 1) hB h
      fun i hi hhigh g below hbelow hcode hi' =>
        hpre.terminates i (hinside i hi hhigh) g below (by omega) hcode hi'
    obtain ⟨i, hi, g, hg, hfile, hret, hhigh⟩ := CallStack.exists_return (Q := fun g => g.file = f.file) (moves h)
      hstack rfl (fun _ _ _ _ _ _ hturn hf => hturn.file_eq.trans hf) hj hlow
    have hini := hinside i hi fun j hj hji => hhigh j hj hji
    refine ⟨i + 1, by omega, hini.succ (by simp [hret]), hret, ?_⟩
    rcases step_pop (h.next i) hg hret with ⟨hdone, hloaded⟩ | hfailed
    · rw [hfile] at hloaded
      exact .inl ⟨⟨true, ret_of_done (h.next i) hdone⟩, hloaded⟩
    · rw [hfile] at hfailed
      obtain ⟨hname, q, hq, hdep, hnot⟩ := hpre.fails i hini f.file hp hfailed
      exact .inr ⟨hname, q, hq, hdep, unloaded_mono h (by omega) hnot⟩
  · rw [hpre.not_loading h hp hin.1 hs] at hloading
    exact absurd hloading Bool.false_ne_true
  · rw [heq] at hnext
    have hstack : (st (k + 1)).stack = .preload abs todo kept progressed :: rest := by rw [hnext, ← hs]
    exact ⟨k + 1, Nat.lt_succ_self k, hin.succ (by simp [hstack]), hstack,
      .inl ⟨⟨false, by rw [hnext]⟩, loaded_mono h (Nat.le_succ k) hloaded⟩⟩
  · rw [← hnext] at hfailed hraised
    obtain ⟨⟨msg, hname⟩, -⟩ := hpre.fails k hin p hp hfailed
    rw [hraised] at hname
    simp [loadError] at hname

/-- `preload` tries its next target: it is loaded, or it is kept since another target is missing. -/
theorem Preload.attempt (hpre : Preload B st act n abs targets rest dep) (hB : {p | B.embedded p = true}.Finite)
    (h : Machine.Endless (step B) (start B) st act) (hp : p ∈ targets) (hin : Preloading st abs rest n k)
    (hs : (st k).stack = .preload abs (p :: todo) kept progressed :: rest) (hgo : (st k).ctl = .go) :
    ∃ m > k, Preloading st abs rest n m ∧ (st m).ctl = .go ∧
      ((st m).stack = .preload abs todo kept true :: rest ∧ (st m).loaded p = true ∨
        (st m).stack = .preload abs todo (kept ++ [p]) progressed :: rest ∧
          ∃ q ∈ targets, dep p q ∧ (st k).loaded q = false) := by
  have hcall := step_preload hs (h.next k)
  simp only [loaderStep, hgo, hs, preloadNext, Option.some.injEq] at hcall
  have hs' : (st (k + 1)).stack = .preload abs (p :: todo) kept progressed :: rest := by rw [← hcall, ← hs]
  have hin' : Preloading st abs rest n (k + 1) := hin.succ (by simp [hs'])
  obtain ⟨m, hm, hinm, hsm, hret⟩ := hpre.call_returns hB h hp hin' hs' (by rw [← hcall])
  have hnext := step_preload hsm (h.next m)
  rcases hret with ⟨⟨b, hb⟩, hloaded⟩ | ⟨⟨msg, hmsg⟩, q, hq, hdep, hnot⟩
  · simp only [loaderStep, hb, hsm, Option.some.injEq] at hnext
    have hsm' : (st (m + 1)).stack = .preload abs todo kept true :: rest := by rw [← hnext, List.tail_cons]
    have hloaded' := loaded_mono h (Nat.le_succ m) hloaded
    exact ⟨m + 1, by omega, hinm.succ (by simp [hsm']), by rw [← hnext], .inl ⟨hsm', hloaded'⟩⟩
  · simp only [loaderStep, hmsg, hsm, Exc.isNameError, if_true, Option.some.injEq] at hnext
    have hsm' : (st (m + 1)).stack = .preload abs todo (kept ++ [p]) progressed :: rest := by
      rw [← hnext, List.tail_cons, List.take_succ_cons, List.take_zero]
    refine ⟨m + 1, by omega, hinm.succ (by simp [hsm']), by rw [← hnext], .inr ⟨hsm', q, hq, hdep, ?_⟩⟩
    exact unloaded_mono h (Nat.le_succ k) hnot

/-- Where `preload` is between two targets, a target is tried in this round, kept for the next one, or loaded; and the
round has loaded a target, or has one to try that needs no other. -/
structure Between (s : St) (targets todo kept : List Str) (progressed : Bool) (dep : Str → Str → Prop) : Prop where
  covered : ∀ p ∈ targets, p ∈ todo ∨ p ∈ kept ∨ s.loaded p = true
  pending : ∀ p, p ∈ todo ∨ p ∈ kept → p ∈ targets
  progress : progressed = true ∨ (∃ p ∈ todo, ∀ q ∈ targets, dep p q → s.loaded q = true) ∨ todo = [] ∧ kept = []

/-- A round that has something to try has something that needs no other target. -/
theorem Between.of_round (hdep : ∀ p, ¬Relation.TransGen dep p p) {s : St}
    (hcovered : ∀ p ∈ targets, p ∈ todo ∨ s.loaded p = true) (hpending : ∀ p ∈ todo, p ∈ targets) :
    Between s targets todo [] false dep := by
  refine ⟨fun p hp => (hcovered p hp).imp_right .inr, fun p hp => hpending p (by simpa using hp), .inr ?_⟩
  by_cases htodo : todo = []
  · exact .inr ⟨htodo, rfl⟩
  · refine .inl ?_
    by_cases hall : ∀ q ∈ targets, s.loaded q = true
    · obtain ⟨p, hp⟩ := List.exists_mem_of_ne_nil todo htodo
      exact ⟨p, hp, fun q hq _ => hall q hq⟩
    · push Not at hall
      let missing : Set Str := {q | q ∈ targets ∧ s.loaded q ≠ true}
      have hfinite : missing.Finite := (List.finite_toSet targets).subset fun q hq => hq.1
      obtain ⟨p, ⟨hp, hnot⟩, hnone⟩ := exists_unrelated hdep hfinite hall
      refine ⟨p, (hcovered p hp).resolve_right hnot, fun q hq hpq => ?_⟩
      by_contra hmissing
      exact hnone q ⟨hq, hmissing⟩ hpq

theorem Between.load {s t : St} (h : Between s targets (p :: todo) kept progressed dep)
    (hst : ∀ q, s.loaded q = true → t.loaded q = true) (hloaded : t.loaded p = true) :
    Between t targets todo kept true dep := by
  refine ⟨fun x hx => ?_, fun x hx => h.pending x (hx.imp_left (List.mem_cons_of_mem p)), .inl rfl⟩
  rcases h.covered x hx with hx | hx | hx
  · rcases List.mem_cons.1 hx with rfl | hx
    · exact .inr (.inr hloaded)
    · exact .inl hx
  · exact .inr (.inl hx)
  · exact .inr (.inr (hst x hx))

theorem Between.keep {s t : St} (h : Between s targets (p :: todo) kept progressed dep)
    (hst : ∀ q, s.loaded q = true → t.loaded q = true) (hneeds : ∃ q ∈ targets, dep p q ∧ s.loaded q = false) :
    Between t targets todo (kept ++ [p]) progressed dep := by
  refine ⟨fun x hx => ?_, fun x hx => ?_, ?_⟩
  · rcases h.covered x hx with hx | hx | hx
    · rcases List.mem_cons.1 hx with rfl | hx
      · exact .inr (.inl (by simp))
      · exact .inl hx
    · exact .inr (.inl (List.mem_append_left _ hx))
    · exact .inr (.inr (hst x hx))
  · rcases hx with hx | hx
    · exact h.pending x (.inl (List.mem_cons_of_mem p hx))
    · rcases List.mem_append.1 hx with hx | hx
      · exact h.pending x (.inr hx)
      · rw [List.mem_singleton.1 hx]
        exact h.pending p (.inl List.mem_cons_self)
  · rcases h.progress with hprogressed | ⟨x, hx, hready⟩ | ⟨hnil, -⟩
    · exact .inl hprogressed
    · -- the target that has failed needs another one, so it is not the one that needs none
      refine .inr (.inl ⟨x, ?_, fun y hy hxy => hst y (hready y hy hxy)⟩)
      rcases List.mem_cons.1 hx with rfl | hx
      · obtain ⟨q, hq, hpq, hnot⟩ := hneeds
        rw [hready q hq hpq] at hnot
        exact absurd hnot Bool.noConfusion
      · exact hx
    · cases hnil

theorem Between.again {s t : St} (h : Between s targets [] kept progressed dep)
    (hst : ∀ q, s.loaded q = true → t.loaded q = true) (hdep : ∀ p, ¬Relation.TransGen dep p p) :
    Between t targets kept [] false dep := by
  refine .of_round hdep (fun p hp => ?_) fun p hp => h.pending p (.inr hp)
  rcases h.covered p hp with hp | hp | hp
  · cases hp
  · exact .inl hp
  · exact .inr (hst p hp)

theorem Preload.ends (hpre : Preload B st act n abs targets rest dep) (hB : {p | B.embedded p = true}.Finite)
    (h : Machine.Endless (step B) (start B) st act) {f : Frame} (hf : f = .preload abs todo kept progressed)
    (hin : Preloading st abs rest n k) (hs : (st k).stack = f :: rest) (hgo : (st k).ctl = .go)
    (hbetween : Between (st k) targets todo kept progressed dep) :
    ∃ m > k, (st m).stack = .eval abs :: rest ∧ ∀ p ∈ targets, (st m).loaded p = true := by
  induction f using Frame.next_wf.induction generalizing k todo kept progressed with
  | _ f ih =>
  subst hf
  cases todo with
  | nil =>
    have hnext := step_preload hs (h.next k)
    simp only [loaderStep, hgo, hs, preloadNext, Option.some.injEq] at hnext
    by_cases hkept : kept = []
    · -- nothing is pending: every target is loaded
      subst hkept
      simp only [List.isEmpty_nil, Bool.true_or, if_true] at hnext
      refine ⟨k + 1, Nat.lt_succ_self k, by rw [← hnext], fun p hp => ?_⟩
      rcases hbetween.covered p hp with hp | hp | hp
      · cases hp
      · cases hp
      · exact loaded_mono h (Nat.le_succ k) hp
    · have hprogressed : progressed = true := by
        rcases hbetween.progress with hprogressed | ⟨p, hp, -⟩ | ⟨-, hnil⟩
        · exact hprogressed
        · cases hp
        · exact absurd hnil hkept
      subst hprogressed
      have hne : kept.isEmpty = false := by simpa using hkept
      simp only [hne, Bool.not_true, Bool.or_self, Bool.false_eq_true, if_false] at hnext
      have hs' : (st (k + 1)).stack = .preload abs kept [] false :: rest := by rw [← hnext]
      have hround : Between (st (k + 1)) targets kept [] false dep :=
        hbetween.again (fun q hq => loaded_mono h (Nat.le_succ k) hq) hpre.acyclic
      obtain ⟨m, hm, hend⟩ := ih _ (.round abs kept) rfl (hin.succ (by simp [hs'])) hs' (by rw [← hnext, ← hgo]) hround
      exact ⟨m, by omega, hend⟩
  | cons p todo =>
    have hp := hbetween.pending p (.inl List.mem_cons_self)
    obtain ⟨m, hm, hinm, hgom, hattempt⟩ := hpre.attempt hB h hp hin hs hgo
    have hst : ∀ q, (st k).loaded q = true → (st m).loaded q = true := fun q hq => loaded_mono h hm.le hq
    rcases hattempt with ⟨hsm, hloaded⟩ | ⟨hsm, hneeds⟩
    · have hnext : Between (st m) targets todo kept true dep := hbetween.load hst hloaded
      obtain ⟨i, hi, hend⟩ := ih _ (.loaded abs p todo kept progressed) rfl hinm hsm hgom hnext
      exact ⟨i, by omega, hend⟩
    · have hnext : Between (st m) targets todo (kept ++ [p]) progressed dep := hbetween.keep hst hneeds
      obtain ⟨i, hi, hend⟩ := ih _ (.kept abs p todo kept progressed) rfl hinm hsm hgom hnext
      exact ⟨i, by omega, hend⟩

end Preload

/-- Every target of a `preload` is loaded, once, by the time the code of its file starts, if targets fail only for want
of each other and no target needs itself: the order in which they are listed does not matter. -/
theorem preload_complete (B : Maps) (hB : {p | B.embedded p = true}.Finite) (st : ℕ → St) (act : ℕ → Act)
    (h : Machine.Endless (step B) (start B) st act) (n : ℕ) (abs : Str) (targets : List Str) (rest : List Frame)
    (dep : Str → Str → Prop) (hpre : Preload B st act n abs targets rest dep) :
    ∃ m > n, (st m).stack = .eval abs :: rest ∧ ∀ p ∈ targets,
      (st m).loaded p = true ∧ ∀ k ≥ m, (st k).hist.count (.done p) = 1 := by
  have hstart : Preloading st abs rest n n := by
    refine ⟨le_rfl, fun j hj hjn => ?_⟩
    obtain rfl : j = n := by omega
    simp [hpre.stack]
  have hround : Between (st n) targets targets [] false dep :=
    .of_round hpre.acyclic (fun p hp => .inl hp) fun p hp => hp
  obtain ⟨m, hm, hend, hloaded⟩ := hpre.ends hB h rfl hstart hpre.stack hpre.go hround
  refine ⟨m, hm, hend, fun p hp => ⟨hloaded p hp, fun k hk => ?_⟩⟩
  have hkept := kept_of_reach (h.reach k)
  have hdone := (hkept.loaded_iff_done p).1 (loaded_mono h hk (hloaded p hp))
  exact Nat.le_antisymm (hkept.once p) (List.count_pos_iff.2 hdone)

/-- `a.rb` has `b.rb` and `c.rb` as the targets of its autoloads. -/
def registering : Maps where
  code := fun p => ["/m.rb".toList, "/a.rb".toList, "/b.rb".toList, "/c.rb".toList].contains p
  index := fun _ => none
  native := fun _ => false
  autoloads := fun p => if p = "/a.rb".toList then ["/b.rb".toList, "/c.rb".toList] else []
  entry := "/m.rb".toList

/-- `b.rb` needs `c.rb`, which is listed behind it. -/
def needsC (p q : Str) : Prop := p = "/b.rb".toList ∧ q = "/c.rb".toList

/-- `b.rb` fails in the first round and is loaded in the second. -/
def retried : List Act :=
  [.loader, .loader, .requireRelative "/a.rb".toList, .loader,
    .loader, .loader, .loader, .raise (.nameError "C".toList), .loader, .loader,
    .loader, .loader, .loader, .finish, .loader,
    .loader, .loader, .loader, .loader, .finish, .loader,
    .loader, .finish, .loader, .finish, .loader]

/-- A step that fails a target fails `b.rb` with a `NameError` before `c.rb` is loaded. -/
def failsRight (s t : St) : Bool :=
  t.hist != .failed "/c.rb".toList :: s.hist &&
    (t.hist != .failed "/b.rb".toList :: s.hist ||
      t.ctl == .raised (.nameError "C".toList) && !s.loaded "/c.rb".toList)

private theorem fails_of_failsRight {s t : St} {p : Str} (h : failsRight s t = true)
    (hp : p ∈ ["/b.rb".toList, "/c.rb".toList]) (hfailed : t.hist = .failed p :: s.hist) :
    (∃ msg, t.ctl = .raised (.nameError msg)) ∧
      ∃ q ∈ ["/b.rb".toList, "/c.rb".toList], needsC p q ∧ s.loaded q = false := by
  simp only [List.mem_cons, List.not_mem_nil, or_false] at hp
  rcases hp with rfl | rfl
  · simp only [failsRight, hfailed, bne_self_eq_false, Bool.false_or, Bool.and_eq_true, beq_iff_eq,
      Bool.not_eq_true'] at h
    exact ⟨⟨_, h.2.1⟩, _, by simp, ⟨rfl, rfl⟩, h.2.2⟩
  · simp [failsRight, hfailed] at h

private theorem needsC_acyclic (p : Str) : ¬Relation.TransGen needsC p p := by
  have hends : ∀ x y, Relation.TransGen needsC x y → x = "/b.rb".toList ∧ y = "/c.rb".toList := by
    intro x y h
    induction h with
    | single h => exact h
    | tail _ h ih => exact ⟨ih.1, h.2⟩
  intro h
  obtain ⟨hb, hc⟩ := hends p p h
  rw [hb] at hc
  exact absurd hc (by decide)

private theorem finite_registering : {p | registering.embedded p = true}.Finite := by
  refine (List.finite_toSet ["/m.rb".toList, "/a.rb".toList, "/b.rb".toList, "/c.rb".toList]).subset ?_
  intro p hp
  have hcode : registering.code p = true := hp
  exact List.contains_iff_mem.1 hcode

/-- The target that is listed too early is loaded all the same. -/
theorem preload_complete_retried : ∃ st act n m, Machine.Endless (step registering) (start registering) st act ∧
    (st n).stack = [.preload "/a.rb".toList ["/b.rb".toList, "/c.rb".toList] [] false, .eval "/m.rb".toList] ∧
    (st m).stack = [.eval "/a.rb".toList, .eval "/m.rb".toList] ∧ (st m).loaded "/b.rb".toList = true := by
  have hrun : (Machine.exec (step registering) (start registering) retried).any (fun s =>
      s.stack = [] ∧ s.ctl = .go) = true ∧
      (Machine.exec (step registering) (start registering) (retried.take 4)).any (fun s =>
        s.stack = [.preload "/a.rb".toList ["/b.rb".toList, "/c.rb".toList] [] false, .eval "/m.rb".toList] ∧
          s.ctl = .go ∧ s.loading "/b.rb".toList = false ∧ s.loading "/c.rb".toList = false) = true ∧
      ∀ n < retried.length, (Machine.exec (step registering) (start registering) (retried.take n)).any (fun s =>
        (Machine.exec (step registering) (start registering) (retried.take (n + 1))).any (failsRight s)) = true := by
    decide +kernel
  obtain ⟨hlast, hfirst, hsteps⟩ := hrun
  obtain ⟨s, hs, hp⟩ := (Option.any_eq_true _ _).1 hlast
  simp only [decide_eq_true_eq] at hp
  obtain ⟨hstack, hctl⟩ := hp
  -- the main program then requires what is no file of the bundle
  have hidle : step registering s (.require "json".toList) = some s := by
    have hcode : s.atCode = true := by rw [St.atCode, hstack]
    exact if_pos ⟨hctl, hcode⟩
  obtain ⟨st, act, hend, hstates, hafter⟩ := Machine.exists_endless hs hidle
  rw [hstates 4 (by decide), Option.any_some, decide_eq_true_eq] at hfirst
  obtain ⟨hstack4, hgo4, hb, hc⟩ := hfirst
  have hfails : ∀ m, ∀ p ∈ ["/b.rb".toList, "/c.rb".toList], (st (m + 1)).hist = .failed p :: (st m).hist →
      (∃ msg, (st (m + 1)).ctl = .raised (.nameError msg)) ∧
        ∃ q ∈ ["/b.rb".toList, "/c.rb".toList], needsC p q ∧ (st m).loaded q = false := by
    intro m p hp hfailed
    by_cases hm : m < retried.length
    · have hstep := hsteps m hm
      rw [hstates m hm.le, Option.any_some, hstates (m + 1) hm, Option.any_some] at hstep
      exact fails_of_failsRight hstep hp hfailed
    · rw [hafter m (Nat.le_of_not_lt hm), hafter (m + 1) (by omega)] at hfailed
      simp at hfailed
  have hpre : Preload registering st act 4 "/a.rb".toList ["/b.rb".toList, "/c.rb".toList] [.eval "/m.rb".toList]
      needsC :=
    { stack := hstack4
      go := hgo4
      idle := by
        simp only [List.mem_cons, List.not_mem_nil, or_false]
        rintro p (rfl | rfl)
        · exact hb
        · exact hc
      plain := by
        simp only [List.mem_cons, List.not_mem_nil, or_false]
        rintro p (rfl | rfl) <;> rfl
      acyclic := needsC_acyclic
      fails := fun m _ => hfails m
      terminates := fun m _ f below _ _ _ =>
        finite_ownSteps_of_empty (fun n hn => by rw [hafter n hn, hstack]) m f below }
  obtain ⟨m, -, hm, hall⟩ := preload_complete registering finite_registering st act hend 4 _ _ _ needsC hpre
  exact ⟨st, act, 4, m, hend, hstack4, hm, (hall _ (by simp)).1⟩

end Bundle

end Calisto

import Calisto.Bundle.LoaderState
import Calisto.Lib.CallStack
import Mathlib.Data.Set.Finite.Lattice

/-!
# The loader comes to its end

`load_file` and `preload` call each other, and the code of the files calls them.  A file is on the stack at most once,
so the stack is as deep as there are embedded files; every round of `preload` but the last takes a target from what is
pending.  A load that never came back would leave an activation on the stack that gets its turn again and again; it is
none of `preload`, which has run out of targets by then, and none of the code of a file, if that takes finitely many
steps of its own.
-/

namespace Calisto

namespace Bundle

variable {B : Maps} {s t : St} {a : Act}

/-- A call of `load_file` has come back, with an answer or with an exception. -/
def Ctl.back : Ctl → Bool
  | .ret _ => true
  | .raised _ => true
  | _ => false

/-- The code of a file runs in the frame. -/
def Frame.isCode : Frame → Bool
  | .preload .. => false
  | _ => true

/-! ### The rounds of `preload` -/

/-- A turn of `preload`, which makes the first frame of the second. -/
inductive Frame.Next : Frame → Frame → Prop
  | loaded (abs t : Str) (todo kept : List Str) (progressed : Bool) :
    Next (.preload abs todo kept true) (.preload abs (t :: todo) kept progressed)
  | kept (abs t : Str) (todo kept : List Str) (progressed : Bool) :
    Next (.preload abs todo (kept ++ [t]) progressed) (.preload abs (t :: todo) kept progressed)
  | round (abs : Str) (kept : List Str) : Next (.preload abs kept [] false) (.preload abs [] kept true)
  | leave (abs : Str) (kept : List Str) (progressed : Bool) : Next (.eval abs) (.preload abs [] kept progressed)

/-- What is pending, twice, with the round that is still to come after progress; and what the round has to try. -/
def Frame.rank : Frame → ℕ × ℕ
  | .preload _ todo kept progressed => (2 * (todo.length + kept.length) + progressed.toNat + 1, todo.length)
  | _ => (0, 0)

theorem Frame.Next.rank_lt {f g : Frame} (h : f.Next g) : Prod.Lex (· < ·) (· < ·) f.rank g.rank := by
  cases h with
  | loaded abs t todo kept progressed =>
    apply Prod.Lex.left
    simp only [List.length_cons, Bool.toNat_true]
    omega
  | kept abs t todo kept progressed =>
    simp only [rank, List.length_append, List.length_cons, List.length_nil]
    rw [show todo.length + (kept.length + (0 + 1)) = todo.length + 1 + kept.length by omega]
    exact Prod.Lex.right _ (Nat.lt_succ_self _)
  | round abs kept =>
    apply Prod.Lex.left
    simp
  | leave abs kept progressed =>
    apply Prod.Lex.left
    omega

/-- `preload` has finitely many turns, whatever its targets do. -/
theorem Frame.next_wf : WellFounded Frame.Next :=
  Subrelation.wf Frame.Next.rank_lt (InvImage.wf Frame.rank (Prod.lex Nat.lt_wfRel Nat.lt_wfRel).wf)

/-- A turn stays with its file. -/
theorem Frame.Next.file_eq {f g : Frame} (h : g.Next f) : g.file = f.file := by
  cases h <;> rfl

/-! ### One step -/

/-- A `preload` that waits for a target has one. -/
def Frame.Waits : Frame → Prop
  | .preload _ todo _ _ => todo ≠ []
  | _ => True

structure St.Waiting (s : St) : Prop where
  below : ∀ f ∈ s.stack.tail, f.Waits
  top : s.ctl ≠ .go → ∀ f ∈ s.stack.head?, f.Waits

/-- What a step does to the stack and to what is on top of it. -/
inductive Turn (B : Maps) (a : Act) (s t : St) : Prop
  | enter (p : Str) (f : Frame) (hctl : s.ctl = .call p) (hB : B.embedded f.file = true)
    (hstack : t.stack = f :: s.stack) (hgo : t.ctl = .go)
  | answer (p : Str) (hctl : s.ctl = .call p) (hstack : t.stack = s.stack) (hback : t.ctl.back = true)
  | attempt (p target : Str) (todo kept : List Str) (progressed : Bool) (rest : List Frame) (hctl : s.ctl = .go)
    (hs : s.stack = .preload p (target :: todo) kept progressed :: rest) (hstack : t.stack = s.stack)
    (hcall : t.ctl = .call target)
  | next (f g : Frame) (rest : List Frame) (hs : s.stack = f :: rest) (hstack : t.stack = g :: rest)
    (hnext : g.Next f) (hgo : t.ctl = .go)
  | leave (f : Frame) (rest : List Frame) (hs : s.stack = f :: rest) (hstack : t.stack = rest)
    (hback : t.ctl.back = true) (hpreload : f.isCode = false → ∃ e, t.ctl = .raised e)
  | resume (hcode : s.atCode = true) (hctl : s.ctl.back = true) (hstack : t.stack = s.stack) (hgo : t.ctl = .go)
  | own (hcode : s.atCode = true) (ha : a ≠ .loader) (hstack : t.stack = s.stack)

theorem atCode_cons {f : Frame} {rest : List Frame} (hs : s.stack = f :: rest) : s.atCode = f.isCode := by
  cases f <;> simp [St.atCode, hs, Frame.isCode]

private theorem loadFile_cases (B : Maps) (s : St) (p : Str) :
    (∃ f : Frame, B.embedded f.file = true ∧ (loadFile B s p).stack = f :: s.stack ∧ (loadFile B s p).ctl = .go) ∨
      (loadFile B s p).stack = s.stack ∧ (loadFile B s p).ctl.back = true := by
  unfold loadFile
  split
  · exact .inr ⟨rfl, rfl⟩
  · split
    · rename_i hnative
      exact .inl ⟨.native p, by simp [Maps.embedded, Frame.file, hnative], rfl, rfl⟩
    · split
      · exact .inr ⟨rfl, rfl⟩
      · rename_i hcode
        exact .inl ⟨_, by simpa [Maps.embedded, Frame.file] using Or.inr hcode, rfl, rfl⟩

private theorem loadFile_turn {p : Str} (hctl : s.ctl = .call p) : Turn B a s (loadFile B s p) := by
  obtain ⟨f, hB, hstack, hgo⟩ | ⟨hstack, hback⟩ := loadFile_cases B s p
  · exact .enter p f hctl hB hstack hgo
  · exact .answer p hctl hstack hback

theorem preloadNext_turn {p : Str} {todo kept : List Str} {progressed : Bool} {rest : List Frame} (hctl : s.ctl = .go)
    (hs : s.stack = .preload p todo kept progressed :: rest) :
    Turn B a s (preloadNext s p todo kept progressed rest) := by
  cases todo with
  | cons target todo => exact .attempt p target todo kept progressed rest hctl hs rfl rfl
  | nil =>
    simp only [preloadNext]
    split
    · exact .next _ _ rest hs rfl (.leave p kept progressed) hctl
    · rename_i h
      simp only [Bool.or_eq_true, not_or, Bool.not_eq_true', Bool.not_eq_false] at h
      rw [h.2] at hs
      exact .next _ _ rest hs rfl (.round p kept) hctl

/-- A target has been loaded, or has raised, and `preload` goes on behind it. -/
theorem waits_cons {p : Str} {todo kept : List Str} {progressed : Bool} {rest : List Frame} (hw : s.Waiting)
    (hctl : s.ctl ≠ .go) (hs : s.stack = .preload p todo kept progressed :: rest) :
    ∃ target todo', todo = target :: todo' := by
  have hne : todo ≠ [] := hw.top hctl (.preload p todo kept progressed) (by simp [hs])
  exact List.exists_cons_of_ne_nil hne

private theorem loaderStep_turn (hw : s.Waiting) (h : loaderStep B s = some t) : Turn B a s t := by
  rcases hc : s.ctl with _ | p | b | e
  · rcases hs : s.stack with _ | ⟨⟨p, todo, kept, progressed⟩ | p | p, rest⟩ <;>
      simp only [loaderStep, hc, hs, Option.some.injEq, reduceCtorEq] at h
    subst h
    exact preloadNext_turn hc hs
  · simp only [loaderStep, hc, Option.some.injEq] at h
    subst h
    exact loadFile_turn hc
  · have hback : s.ctl.back = true := by simp [hc, Ctl.back]
    rcases hs : s.stack with _ | ⟨⟨p, todo, kept, progressed⟩ | p | p, rest⟩ <;>
      simp only [loaderStep, hc, hs, Option.some.injEq] at h <;> subst h
    · exact .resume (by simp [St.atCode, hs]) hback hs.symm rfl
    · obtain ⟨target, todo', rfl⟩ := waits_cons hw (by simp [hc]) hs
      exact .next _ _ rest hs rfl (.loaded p target todo' kept progressed) rfl
    · exact .resume (by simp [St.atCode, hs]) hback hs.symm rfl
    · exact .resume (by simp [St.atCode, hs]) hback hs.symm rfl
  · rcases hs : s.stack with _ | ⟨⟨p, todo, kept, progressed⟩ | p | p, rest⟩ <;>
      simp only [loaderStep, hc, hs, Option.some.injEq, reduceCtorEq] at h
    · obtain ⟨target, todo', rfl⟩ := waits_cons hw (by simp [hc]) hs
      by_cases he : e.isNameError
      · rw [if_pos he, Option.some.injEq] at h
        subst h
        exact .next _ _ rest hs rfl (.kept p target todo' kept progressed) rfl
      · rw [if_neg he, Option.some.injEq] at h
        subst h
        exact .leave _ rest hs rfl rfl fun _ => ⟨e, rfl⟩
    · subst h
      exact .leave _ rest hs rfl rfl fun _ => ⟨e, rfl⟩
    · subst h
      exact .leave _ rest hs rfl rfl fun _ => ⟨e, rfl⟩

private theorem step_turn (hw : s.Waiting) (h : step B s a = some t) : Turn B a s t := by
  cases a with
  | loader => exact loaderStep_turn hw h
  | require path =>
    obtain ⟨⟨-, hcode⟩, ht⟩ := Option.ite_none_right_eq_some.1 h
    cases ht
    refine .own hcode (by simp) ?_
    unfold require
    split <;> rfl
  | requireRelative abs =>
    obtain ⟨⟨-, hcode⟩, ht⟩ := Option.ite_none_right_eq_some.1 h
    cases ht
    refine .own hcode (by simp) ?_
    unfold requireRelative
    split
    · rfl
    · split <;> rfl
  | raise e =>
    obtain ⟨⟨-, hcode⟩, ht⟩ := Option.ite_none_right_eq_some.1 h
    cases ht
    exact .own hcode (by simp) rfl
  | rescue =>
    have hr : rescueStep s = some t := h
    unfold rescueStep at hr
    split at hr
    · obtain ⟨hcode, ht⟩ := Option.ite_none_right_eq_some.1 hr
      cases ht
      exact .own hcode (by simp) rfl
    · simp at hr
  | finish =>
    have hf : finishStep s = some t := h
    unfold finishStep at hf
    split at hf
    · rename_i p rest _ hs
      cases hf
      exact .leave _ rest hs rfl rfl (by simp [Frame.isCode])
    · rename_i p rest _ hs
      cases hf
      exact .leave _ rest hs rfl rfl (by simp [Frame.isCode])
    · simp at hf

/-- Where a file's code is on top, no `preload` is. -/
theorem waits_of_atCode (hcode : s.atCode = true) : ∀ f ∈ s.stack.head?, f.Waits := by
  intro f hf
  cases hs : s.stack with
  | nil => simp [hs] at hf
  | cons g rest =>
    rw [hs, List.head?_cons, Option.mem_some_iff] at hf
    subst hf
    rw [atCode_cons hs] at hcode
    cases g with
    | preload p todo kept progressed => simp [Frame.isCode] at hcode
    | eval p => trivial
    | native p => trivial

theorem St.Waiting.all (hw : s.Waiting) (hctl : s.ctl ≠ .go) : ∀ f ∈ s.stack, f.Waits := by
  intro f hf
  cases hs : s.stack with
  | nil => simp [hs] at hf
  | cons g rest =>
    rw [hs] at hf
    rcases List.mem_cons.1 hf with rfl | hf
    · exact hw.top hctl f (by simp [hs])
    · exact hw.below f (by simpa [hs] using hf)

theorem Turn.waiting (h : Turn B a s t) (hw : s.Waiting) : t.Waiting := by
  cases h with
  | enter p f hctl hB hstack hgo =>
    refine ⟨?_, fun hne => absurd hgo hne⟩
    rw [hstack]
    exact hw.all (by simp [hctl])
  | answer p hctl hstack hback =>
    constructor
    · rw [hstack]
      exact hw.below
    · rw [hstack]
      exact fun _ => hw.top (by simp [hctl])
  | attempt p target todo kept progressed rest hctl hs hstack hcall =>
    constructor
    · rw [hstack]
      exact hw.below
    · rw [hstack, hs]
      intro _ f hf
      rw [List.head?_cons, Option.mem_some_iff] at hf
      subst hf
      exact List.cons_ne_nil target todo
  | next f g rest hs hstack hnext hgo =>
    have hbelow := hw.below
    rw [hs] at hbelow
    refine ⟨?_, fun hne => absurd hgo hne⟩
    rw [hstack]
    exact hbelow
  | leave f rest hs hstack hback hpreload =>
    have hbelow := hw.below
    rw [hs, List.tail_cons] at hbelow
    constructor
    · rw [hstack]
      exact fun g hg => hbelow g (List.mem_of_mem_tail hg)
    · rw [hstack]
      exact fun _ g hg => hbelow g (List.mem_of_mem_head? hg)
  | resume hcode hctl hstack hgo =>
    refine ⟨?_, fun hne => absurd hgo hne⟩
    rw [hstack]
    exact hw.below
  | own hcode ha hstack =>
    constructor
    · rw [hstack]
      exact hw.below
    · rw [hstack]
      exact fun _ => waits_of_atCode hcode

theorem Turn.move (h : Turn B a s t) : CallStack.Move Frame.Next s.stack t.stack := by
  cases h with
  | enter p f _ _ hstack => rw [hstack]; exact .push f s.stack
  | answer p _ hstack => rw [hstack]; exact .same s.stack
  | attempt p target todo kept progressed rest _ _ hstack => rw [hstack]; exact .same s.stack
  | next f g rest hs hstack hnext => rw [hs, hstack]; exact .turn hnext rest
  | leave f rest hs hstack => rw [hs, hstack]; exact .pop f rest
  | resume _ _ hstack => rw [hstack]; exact .same s.stack
  | own _ _ hstack => rw [hstack]; exact .same s.stack

/-- The step in which an activation leaves the stack. -/
theorem Turn.of_pop {f : Frame} {rest : List Frame} (h : Turn B a s t) (hs : s.stack = f :: rest)
    (ht : t.stack = rest) : t.ctl.back = true ∧ (f.isCode = false → ∃ e, t.ctl = .raised e) := by
  cases h with
  | leave g rest' hs' _ hback hpreload =>
    obtain ⟨rfl, rfl⟩ := List.cons.inj (hs.symm.trans hs')
    exact ⟨hback, hpreload⟩
  | enter p g _ _ hstack =>
    have hlength := congrArg List.length hstack
    rw [hs, ht, List.length_cons, List.length_cons] at hlength
    omega
  | answer p _ hstack => simp [hs, ht] at hstack
  | attempt p target todo kept progressed rest' _ _ hstack => simp [hs, ht] at hstack
  | next g g' rest' hs' hstack =>
    obtain ⟨-, rfl⟩ := List.cons.inj (hs.symm.trans hs')
    simp [ht] at hstack
  | resume _ _ hstack => simp [hs, ht] at hstack
  | own _ _ hstack => simp [hs, ht] at hstack

/-- A call is the step of the loader that follows it. -/
theorem step_of_call {p : Str} (hctl : s.ctl = .call p) (h : step B s a = some t) : t = loadFile B s p := by
  cases a with
  | loader =>
    simp only [step, loaderStep, hctl, Option.some.injEq] at h
    exact h.symm
  | require path => simp [step, hctl] at h
  | requireRelative abs => simp [step, hctl] at h
  | raise e => simp [step, hctl] at h
  | rescue => simp [step, rescueStep, hctl] at h
  | finish => simp [step, finishStep, hctl] at h

/-! ### Runs -/

variable {st : ℕ → St} {act : ℕ → Act}

theorem waiting_of_reach (h : Machine.Reach (step B) Machine.Free (start B) s) : s.Waiting := by
  refine h.invariant (I := St.Waiting) ⟨?_, ?_⟩ fun _ _ _ _ hw _ hs => (step_turn hw hs).waiting hw
  · simp [start]
  · simp [start]

theorem loadFile_frames {I : Frame → Prop} (h : ∀ f ∈ s.stack, I f) (hnative : ∀ p, B.native p = true → I (.native p))
    (hcode : ∀ p, B.native p = false → B.code p = true → I (.preload p (B.autoloads p) [] false)) (p : Str) :
    ∀ f ∈ (loadFile B s p).stack, I f := by
  unfold loadFile
  split
  · exact h
  · split
    · rename_i hn
      exact List.forall_mem_cons.2 ⟨hnative p hn, h⟩
    · rename_i hn
      split
      · exact h
      · rename_i hc
        exact List.forall_mem_cons.2 ⟨hcode p (by simpa using hn) (by simpa using hc), h⟩

/-- What the frames that `load_file` pushes have, and `preload` keeps in its turns, all frames have. -/
theorem frames_of_reach {I : Frame → Prop} (h : Machine.Reach (step B) Machine.Free (start B) s)
    (hnative : ∀ p, B.native p = true → I (.native p))
    (hcode : ∀ p, B.native p = false → B.code p = true → I (.preload p (B.autoloads p) [] false))
    (hnext : ∀ f g : Frame, g.Next f → I f → I g) : ∀ f ∈ s.stack, I f := by
  refine h.invariant (I := fun s => ∀ f ∈ s.stack, I f) (by simp [start]) ?_
  intro s a t hr hs _ hstep
  cases step_turn (waiting_of_reach hr) hstep with
  | enter p f hctl _ hstack =>
    rw [step_of_call hctl hstep]
    exact loadFile_frames hs hnative hcode p
  | answer p _ hstack => rwa [hstack]
  | attempt p target todo kept progressed rest _ _ hstack => rwa [hstack]
  | next f g rest hs' hstack hturn =>
    rw [hs', List.forall_mem_cons] at hs
    rw [hstack, List.forall_mem_cons]
    exact ⟨hnext f g hturn hs.1, hs.2⟩
  | leave f rest hs' hstack =>
    rw [hs', List.forall_mem_cons] at hs
    rw [hstack]
    exact hs.2
  | resume _ _ hstack => rwa [hstack]
  | own _ _ hstack => rwa [hstack]

/-- What is on the stack is a file of the bundle. -/
theorem embedded_of_reach (h : Machine.Reach (step B) Machine.Free (start B) s) :
    ∀ f ∈ s.stack, B.embedded f.file = true := by
  apply frames_of_reach (I := fun f => B.embedded f.file = true) h
  · intro p hnative
    simp [Maps.embedded, Frame.file, hnative]
  · intro p _ hcode
    simp [Maps.embedded, Frame.file, hcode]
  · intro f g hnext hf
    rw [hnext.file_eq]
    exact hf

/-- The stack is no deeper than there are files. -/
theorem depth_le (hB : {p | B.embedded p = true}.Finite) (h : Machine.Reach (step B) Machine.Free (start B) s) :
    s.stack.length ≤ hB.toFinset.card := by
  have hnodup : s.files.Nodup := (kept_of_reach h).nodup
  have hsub : s.files.toFinset ⊆ hB.toFinset := by
    intro p hp
    obtain ⟨f, hf, rfl⟩ := List.mem_map.1 (List.mem_toFinset.1 hp)
    exact hB.mem_toFinset.2 (embedded_of_reach h f hf)
  calc s.stack.length = s.files.length := (List.length_map _).symm
    _ = s.files.toFinset.card := (List.toFinset_card_of_nodup hnodup).symm
    _ ≤ hB.toFinset.card := Finset.card_le_card hsub

/-- The steps that the code of a file takes itself in the activation that is on top at `m`: all but those of the
loader, which its requires run into. -/
def ownSteps (st : ℕ → St) (act : ℕ → Act) (m : ℕ) (f : Frame) (rest : List Frame) : Set ℕ :=
  {n | m ≤ n ∧ (∀ k, m ≤ k → k ≤ n → f :: rest <:+ (st k).stack) ∧ (st n).stack = f :: rest ∧ act n ≠ .loader}

/-- The code of each file terminates apart from its calls. -/
def OwnCodeTerminates (st : ℕ → St) (act : ℕ → Act) : Prop :=
  ∀ m f rest, f.isCode = true → (st m).stack = f :: rest → (ownSteps st act m f rest).Finite

theorem turns (h : Machine.Endless (step B) (start B) st act) (n : ℕ) : Turn B (act n) (st n) (st (n + 1)) :=
  step_turn (waiting_of_reach (h.reach n)) (h.next n)

theorem moves (h : Machine.Endless (step B) (start B) st act) (n : ℕ) :
    CallStack.Move Frame.Next (st n).stack (st (n + 1)).stack :=
  (turns h n).move

/-- On top of a `preload` it is the loader that goes on. -/
theorem loader_of_not_atCode (hnot : s.atCode = false) (h : step B s a = some t) : a = .loader := by
  cases a with
  | loader => rfl
  | require path => simp [step, hnot] at h
  | requireRelative abs => simp [step, hnot] at h
  | raise e => simp [step, hnot] at h
  | rescue =>
    simp only [step, rescueStep, hnot] at h
    split at h <;> simp at h
  | finish =>
    simp only [step, finishStep] at h
    split at h
    · rename_i hs
      simp [St.atCode, hs] at hnot
    · rename_i hs
      simp [St.atCode, hs] at hnot
    · simp at h

/-- The activation that stays on the stack takes no more steps of its own. -/
theorem own_steps_end (h : Machine.Endless (step B) (start B) st act) {N : ℕ} {f : Frame} {rest : List Frame}
    (hown : ∀ n ≥ N, f.isCode = true → (st n).stack = f :: rest → (ownSteps st act n f rest).Finite)
    (hstay : ∀ n ≥ N, f :: rest <:+ (st n).stack) (hoften : ∀ n, ∃ k ≥ n, (st k).stack = f :: rest) :
    ∃ M ≥ N, ∀ n ≥ M, (st n).stack = f :: rest → act n = .loader := by
  obtain ⟨m, hm, hstack⟩ := hoften N
  cases hcode : f.isCode with
  | true =>
    obtain ⟨M, hM⟩ := (hown m hm hcode hstack).bddAbove
    refine ⟨max m (M + 1), hm.trans (le_max_left m _), fun n hn hs => ?_⟩
    by_contra hne
    have hmn : m ≤ n := le_trans (le_max_left m _) hn
    have hle := hM ⟨hmn, fun k hk _ => hstay k (hm.trans hk), hs, hne⟩
    have hlt : M + 1 ≤ n := le_trans (le_max_right m _) hn
    omega
  | false =>
    refine ⟨m, hm, fun n _ hs => ?_⟩
    have hnot : (st n).atCode = false := (atCode_cons hs).trans hcode
    exact loader_of_not_atCode hnot (h.next n)

/-- What an activation that stays as it is and takes no step of its own does when it is on top. -/
inductive Quiet (f : Frame) (rest : List Frame) (s t : St) : Prop
  | enter (p : Str) (g : Frame) (hctl : s.ctl = .call p) (hstack : t.stack = g :: f :: rest)
  | answer (p : Str) (hctl : s.ctl = .call p) (hstack : t.stack = f :: rest) (hback : t.ctl.back = true)
  | attempt (p : Str) (hcode : f.isCode = false) (hctl : s.ctl = .go) (hstack : t.stack = f :: rest)
    (hcall : t.ctl = .call p)
  | resume (hcode : f.isCode = true) (hctl : s.ctl.back = true) (hstack : t.stack = f :: rest) (hgo : t.ctl = .go)

theorem Frame.Next.ne {f g : Frame} (h : g.Next f) : g ≠ f := by
  rintro rfl
  exact Frame.next_wf.irrefl.irrefl _ h

theorem Turn.quiet {f : Frame} {rest : List Frame} (h : Turn B a s t) (hs : s.stack = f :: rest)
    (hstay : f :: rest <:+ t.stack) (ha : a = .loader) : Quiet f rest s t := by
  cases h with
  | enter p g hctl _ hstack => exact .enter p g hctl (hstack.trans (by rw [hs]))
  | answer p hctl hstack hback => exact .answer p hctl (hstack.trans hs) hback
  | attempt p target todo kept progressed rest' hctl hs' hstack hcall =>
    obtain ⟨rfl, rfl⟩ := List.cons.inj (hs.symm.trans hs')
    exact .attempt target rfl hctl (hstack.trans hs) hcall
  | next g g' rest' hs' hstack hnext =>
    obtain ⟨rfl, rfl⟩ := List.cons.inj (hs.symm.trans hs')
    rw [hstack] at hstay
    have heq := hstay.eq_of_length rfl
    exact absurd (List.cons.inj heq).1.symm hnext.ne
  | leave g rest' hs' hstack =>
    obtain ⟨rfl, rfl⟩ := List.cons.inj (hs.symm.trans hs')
    have hlength := hstay.length_le
    rw [hstack, List.length_cons] at hlength
    omega
  | resume hcode hctl hstack hgo => exact .resume ((atCode_cons hs).symm.trans hcode) hctl (hstack.trans hs) hgo
  | own _ hne => exact absurd ha hne

/-- No activation stays on the stack for ever and gets its turn again and again. -/
theorem not_staying (h : Machine.Endless (step B) (start B) st act) {N : ℕ} {f : Frame} {rest : List Frame}
    (hown : ∀ n ≥ N, f.isCode = true → (st n).stack = f :: rest → (ownSteps st act n f rest).Finite)
    (hstay : ∀ n ≥ N, f :: rest <:+ (st n).stack) (hoften : ∀ n, ∃ k ≥ n, (st k).stack = f :: rest) : False := by
  obtain ⟨M, hNM, hloader⟩ := own_steps_end h hown hstay hoften
  have hquiet : ∀ n ≥ M, (st n).stack = f :: rest → Quiet f rest (st n) (st (n + 1)) := fun n hn hs =>
    (turns h n).quiet hs (hstay (n + 1) (by omega)) (hloader n hn hs)
  -- nothing comes back to it: `preload` would go to its next target, and code would take a step
  have hback : ∀ n ≥ M, (st n).stack = f :: rest → (st n).ctl.back = false := by
    intro n hn hs
    rw [Bool.eq_false_iff]
    intro hb
    cases hquiet n hn hs with
    | enter p g hctl => simp [hctl, Ctl.back] at hb
    | answer p hctl => simp [hctl, Ctl.back] at hb
    | attempt p _ hctl => simp [hctl, Ctl.back] at hb
    | resume hcode _ hstack hgo =>
      cases hquiet (n + 1) (by omega) hstack with
      | enter p g hctl => simp [hgo] at hctl
      | answer p hctl => simp [hgo] at hctl
      | attempt p hnot => simp [hcode] at hnot
      | resume _ hctl => simp [hgo, Ctl.back] at hctl
  -- so it calls nothing, since what it has called comes back
  have hcall : ∀ n ≥ M, ∀ p, (st n).stack = f :: rest → (st n).ctl ≠ .call p := by
    intro n hn p hs hctl
    cases hquiet n hn hs with
    | enter q g _ hstack =>
      obtain ⟨k, hk, hlow⟩ := hoften (n + 1)
      obtain ⟨j, hj, g', hg', hret⟩ := CallStack.exists_pop (moves h) hstack hk (by rw [hlow])
      have := ((turns h j).of_pop hg' hret).1
      rw [hback (j + 1) (by omega) hret] at this
      exact Bool.false_ne_true this
    | answer q _ hstack hb =>
      rw [hback (n + 1) (by omega) hstack] at hb
      exact Bool.false_ne_true hb
    | attempt q _ hgo => simp [hctl] at hgo
    | resume _ hb => simp [hctl, Ctl.back] at hb
  obtain ⟨n, hn, hs⟩ := hoften M
  cases hquiet n hn hs with
  | enter p g hctl => exact hcall n hn p hs hctl
  | answer p hctl => exact hcall n hn p hs hctl
  | attempt p _ _ hstack hctl => exact hcall (n + 1) (by omega) p hstack hctl
  | resume _ hb =>
    rw [hback n hn hs] at hb
    exact Bool.false_ne_true hb

/-- The stack comes down to the depth `L` again, if the code above that depth takes finitely many steps of its own. -/
theorem stack_returns (hB : {p | B.embedded p = true}.Finite) (h : Machine.Endless (step B) (start B) st act) {m L : ℕ}
    (hown : ∀ n ≥ m, (∀ j, m ≤ j → j ≤ n → L < (st j).stack.length) → ∀ f rest, L ≤ rest.length → f.isCode = true →
      (st n).stack = f :: rest → (ownSteps st act n f rest).Finite) : ∃ n ≥ m, (st n).stack.length ≤ L := by
  by_contra hnone
  push Not at hnone
  obtain ⟨f, rest, hL, N, hN, hstay, hoften⟩ := CallStack.exists_staying Frame.next_wf (moves h)
    (fun n => depth_le hB (h.reach n)) hnone
  refine not_staying h (fun n hn hcode hs => ?_) hstay hoften
  exact hown n (hN.trans hn) (fun j hj _ => hnone j hj) f rest hL hcode hs

/-- The main program gets its turn again and again. -/
theorem stack_empties (hB : {p | B.embedded p = true}.Finite) (hown : OwnCodeTerminates st act)
    (h : Machine.Endless (step B) (start B) st act) (m : ℕ) : ∃ n ≥ m, (st n).stack = [] := by
  obtain ⟨n, hn, hlow⟩ := stack_returns (m := m) (L := 0) hB h fun n _ _ f rest _ hcode hs => hown n f rest hcode hs
  exact ⟨n, hn, List.eq_nil_of_length_eq_zero (Nat.le_zero.1 hlow)⟩

private theorem load_file_returns (hB : {p | B.embedded p = true}.Finite) (hown : OwnCodeTerminates st act)
    (h : Machine.Endless (step B) (start B) st act) {n : ℕ} {p : Str} (hctl : (st n).ctl = .call p) :
    ∃ k > n, (st k).stack = (st n).stack ∧ (st k).ctl.back = true := by
  have hnext := step_of_call hctl (h.next n)
  obtain ⟨f, -, hstack, -⟩ | ⟨hstack, hback⟩ := loadFile_cases B (st n) p
  · rw [← hnext] at hstack
    obtain ⟨k, hk, hempty⟩ := stack_empties hB hown h (n + 1)
    obtain ⟨j, hj, g, hg, hret⟩ := CallStack.exists_pop (moves h) hstack hk (by simp [hempty])
    exact ⟨j + 1, by omega, hret, ((turns h j).of_pop hg hret).1⟩
  · rw [← hnext] at hstack hback
    exact ⟨n + 1, Nat.lt_succ_self n, hstack, hback⟩

private theorem preload_ends (hB : {p | B.embedded p = true}.Finite) (hown : OwnCodeTerminates st act)
    (h : Machine.Endless (step B) (start B) st act) {n : ℕ} {p : Str} {todo kept : List Str} {progressed : Bool}
    {rest : List Frame} (hs : (st n).stack = .preload p todo kept progressed :: rest) :
    ∃ k > n, (st k).stack = .eval p :: rest ∨ (st k).stack = rest ∧ ∃ e, (st k).ctl = .raised e := by
  by_contra hnone
  push Not at hnone
  obtain ⟨k, hk, hempty⟩ := stack_empties hB hown h n
  -- as it never gets to the code of its file, it is in its rounds until it leaves the stack
  have hrounds : ∀ k ≥ n, ∀ f g, (st k).stack = f :: rest → (st (k + 1)).stack = g :: rest → g.Next f →
      (∃ todo kept progressed, f = .preload p todo kept progressed) →
      ∃ todo kept progressed, g = .preload p todo kept progressed := by
    rintro k hk _ g hf hg hnext ⟨todo, kept, progressed, rfl⟩
    cases hnext with
    | loaded => exact ⟨_, _, _, rfl⟩
    | kept => exact ⟨_, _, _, rfl⟩
    | round => exact ⟨_, _, _, rfl⟩
    | leave => exact absurd hg (hnone (k + 1) (by omega)).1
  obtain ⟨j, hj, g, hg, ⟨todo', kept', progressed', rfl⟩, hret, -⟩ :=
    CallStack.exists_return (moves h) hs ⟨todo, kept, progressed, rfl⟩ hrounds hk (by simp [hempty])
  obtain ⟨e, he⟩ := ((turns h j).of_pop hg hret).2 rfl
  exact (hnone (j + 1) (by omega)).2 hret e he

/-- A load that is under way can always go on. -/
theorem can_go_on (B : Maps) (s : St) (h : s.stack ≠ [] ∨ ∃ p, s.ctl = .call p) :
    ∃ a, (step B s a).isSome = true := by
  rcases hc : s.ctl with _ | p | b | e
  · rcases hs : s.stack with _ | ⟨⟨p, todo, kept, progressed⟩ | p | p, rest⟩
    · simp [hc, hs] at h
    · exact ⟨.loader, by simp [step, loaderStep, hc, hs]⟩
    · exact ⟨.finish, by simp [step, finishStep, hc, hs]⟩
    · exact ⟨.finish, by simp [step, finishStep, hc, hs]⟩
  · exact ⟨.loader, by simp [step, loaderStep, hc]⟩
  · refine ⟨.loader, ?_⟩
    rcases hs : s.stack with _ | ⟨⟨p, todo, kept, progressed⟩ | p | p, rest⟩ <;> simp [step, loaderStep, hc, hs]
  · rcases hs : s.stack with _ | ⟨⟨p, todo, kept, progressed⟩ | p | p, rest⟩
    · simp [hc, hs] at h
    · refine ⟨.loader, ?_⟩
      by_cases he : e.isNameError <;> simp [step, loaderStep, hc, hs, he]
    · exact ⟨.loader, by simp [step, loaderStep, hc, hs]⟩
    · exact ⟨.loader, by simp [step, loaderStep, hc, hs]⟩

/-- In a bundle of finitely many files, whatever autoloads it has, a load that is under way is never stuck; and in a run
in which the code of each file takes finitely many steps of its own, each call of `load_file` comes back and the rounds
of each `preload` come to an end, whatever has raised what on the way. -/
theorem loader_terminates (B : Maps) (hB : {p | B.embedded p = true}.Finite) :
    (∀ s, (s.stack ≠ [] ∨ ∃ p, s.ctl = .call p) → ∃ a, (step B s a).isSome = true) ∧
    ∀ st act, Machine.Endless (step B) (start B) st act → OwnCodeTerminates st act →
      (∀ n p, (st n).ctl = .call p → ∃ k > n, (st k).stack = (st n).stack ∧ (st k).ctl.back = true) ∧
      ∀ n p todo kept progressed rest, (st n).stack = .preload p todo kept progressed :: rest →
        ∃ k > n, (st k).stack = .eval p :: rest ∨ (st k).stack = rest ∧ ∃ e, (st k).ctl = .raised e :=
  ⟨can_go_on B, fun _ _ h hown =>
    ⟨fun _ _ hctl => load_file_returns hB hown h hctl, fun _ _ _ _ _ _ hs => preload_ends hB hown h hs⟩⟩

/-- `a.rb` has `b.rb` and `c.rb` as the targets of its autoloads, and `b.rb` has `a.rb`. -/
def cyclic : Maps where
  code := fun p => ["/m.rb".toList, "/a.rb".toList, "/b.rb".toList, "/c.rb".toList].contains p
  index := fun _ => none
  native := fun _ => false
  autoloads := fun p =>
    if p = "/a.rb".toList then ["/b.rb".toList, "/c.rb".toList]
    else if p = "/b.rb".toList then ["/a.rb".toList]
    else []
  entry := "/m.rb".toList

/-- `b.rb` fails with a `NameError` in the first round and is loaded in the second. -/
def twoRounds : List Act :=
  [.loader, .loader, .requireRelative "/a.rb".toList, .loader,
    .loader, .loader, .loader, .loader, .loader, .loader, .raise (.nameError "C".toList), .loader, .loader,
    .loader, .loader, .loader, .finish, .loader,
    .loader, .loader, .loader, .loader, .loader, .loader, .loader, .finish, .loader,
    .loader, .finish, .loader, .finish, .loader]

private theorem finite_cyclic : {p | cyclic.embedded p = true}.Finite := by
  refine (List.finite_toSet ["/m.rb".toList, "/a.rb".toList, "/b.rb".toList, "/c.rb".toList]).subset ?_
  intro p hp
  have hcode : cyclic.code p = true := hp
  exact List.contains_iff_mem.1 hcode

/-- A run in which the main program is left alone has no code that runs on and on. -/
theorem finite_ownSteps_of_empty {N : ℕ} (h : ∀ n ≥ N, (st n).stack = []) (m : ℕ) (f : Frame) (rest : List Frame) :
    (ownSteps st act m f rest).Finite := by
  refine (Set.finite_lt_nat N).subset ?_
  rintro n ⟨-, -, hs, -⟩
  show n < N
  by_contra hn
  rw [h n (Nat.le_of_not_lt hn)] at hs
  exact List.cons_ne_nil f rest hs.symm

/-- The bundle with a cycle is loaded, the target that has failed included. -/
theorem loader_terminates_cyclic : ∃ st act, Machine.Endless (step cyclic) (start cyclic) st act ∧
    OwnCodeTerminates st act ∧
    (∃ n, .failed "/b.rb".toList ∈ (st n).hist ∧ (st n).loaded "/b.rb".toList = true) ∧
    ∃ k > 0, (st k).stack = (st 0).stack ∧ (st k).ctl.back = true := by
  have hrun : (Machine.exec (step cyclic) (start cyclic) twoRounds).any (fun s =>
      s.stack = [] ∧ s.ctl = .go ∧ .failed "/b.rb".toList ∈ s.hist ∧ s.loaded "/b.rb".toList = true) = true := by
    decide +kernel
  obtain ⟨s, hs, hp⟩ := (Option.any_eq_true _ _).1 hrun
  simp only [decide_eq_true_eq] at hp
  obtain ⟨hstack, hctl, hfailed, hloaded⟩ := hp
  -- the main program then requires what is no file of the bundle
  have hidle : step cyclic s (.require "json".toList) = some s := by
    have hcode : s.atCode = true := by rw [St.atCode, hstack]
    exact if_pos ⟨hctl, hcode⟩
  obtain ⟨st, act, hend, -, hlast⟩ := Machine.exists_endless hs hidle
  have hown : OwnCodeTerminates st act := fun m f rest _ _ =>
    finite_ownSteps_of_empty (fun n hn => by rw [hlast n hn, hstack]) m f rest
  refine ⟨st, act, hend, hown, ⟨twoRounds.length, ?_⟩, ?_⟩
  · rw [hlast _ le_rfl]
    exact ⟨hfailed, hloaded⟩
  · have hcall : (st 0).ctl = .call cyclic.entry := by rw [hend.start]; rfl
    exact ((loader_terminates cyclic finite_cyclic).2 st act hend hown).1 0 cyclic.entry hcall

end Bundle

end Calisto

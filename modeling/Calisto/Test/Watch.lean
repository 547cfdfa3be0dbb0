import Calisto.Lib.Potential
import Calisto.Test.Runner

/-!
# Watching the tests

`cmd_test --watch` runs the files, takes the length and the time of change of each, and from then on looks at them again
and again and runs all of them when something is different.  In a run each file is read by a child of the daemon, unless
the attempt at it fails before: there may be no connection or no child, and the run ends all the same.  Editors write at
any time, while the files are being run or looked at, too.

Once nobody writes any more, each file has been run as it stands after a few steps of the loop, except for a file that
was last written in the first run after it had been read there, or before the loop had looked at it for the first time,
and for a file at which the last attempt failed (`edits_are_run`).  The first look comes after the first run, so the
former are in fact never run as they stand (`late_edit_missed`).
-/

namespace Calisto.Test.Watch

open Machine Function
open UnixPath (PathBuf)

/-! ### The code -/

/-- A file as `fs::metadata` and a run see it; its time of change in nanoseconds from the epoch, if there is one. -/
structure File where
  bytes : Bytes
  modified : Option Int
  deriving DecidableEq

/-- An entry of `test_file_snapshot`; `none` is a path without a file. -/
def stampOf : Option File → UInt64 × UInt64
  | none => (0, 0)
  | some f => (UInt64.ofNat f.bytes.length,
      match f.modified with
      | some (.ofNat d) => UInt64.ofNat d
      | _ => 0)

abbrev Stamp := UInt64 × UInt64

/-- `test_file_snapshot`, if nothing is written meanwhile. -/
def testFileSnapshot (fs : PathBuf → Option File) (files : List PathBuf) : List Stamp :=
  files.map fun p => stampOf (fs p)

/-- Where the loop is. -/
inductive Pc
  /-- in `run_once`, with the files that have no result yet; `snap` is there from the second run on -/
  | run (snap : Option (List Stamp)) (todo : List PathBuf)
  /-- in `test_file_snapshot`, with the entries so far -/
  | snapshot (snap : Option (List Stamp)) (now : List Stamp)
  | sleep (snap : List Stamp)
  deriving DecidableEq

structure State where
  fs : PathBuf → Option File
  /-- what a child has last read of a file -/
  ran : PathBuf → Option (Option File)
  /-- the files at which the last attempt failed -/
  failed : List PathBuf
  pc : Pc
  /-- the files whose last edit came before the loop knew a stamp of them, but after the first run had read them -/
  late : List PathBuf

inductive Act
  /-- a child of the daemon reads the file that it runs -/
  | read (p : PathBuf)
  /-- a worker has the result of a file that no child has read: `connect` or `fork` failed, or the daemon is gone -/
  | fail (p : PathBuf)
  /-- `run_once` returns -/
  | done
  | wake
  /-- the next file is looked at -/
  | stamp
  | compare
  /-- somebody writes, creates or removes a file -/
  | edit (p : PathBuf) (f : Option File)
  deriving DecidableEq

def Act.isEdit : Act → Bool
  | edit _ _ => true
  | _ => false

variable (files : List PathBuf)

/-- The files that the run under way has yet to come to. -/
def Pc.todo : Pc → List PathBuf
  | run _ todo => todo
  | _ => []

/-- The stamp of a file that the loop goes by. -/
def Pc.known (pc : Pc) (p : PathBuf) : Option Stamp :=
  match pc with
  | run none _ => none
  | run (some snap) _ => snap[files.idxOf p]?
  | snapshot none now => now[files.idxOf p]?
  | snapshot (some snap) _ => snap[files.idxOf p]?
  | sleep snap => snap[files.idxOf p]?

def step (s : State) : Act → Option State
  | .read p => match s.pc with
    | .run snap todo =>
      if p ∈ todo then
        some { s with
          ran := update s.ran p (some (s.fs p))
          failed := s.failed.filter (· ≠ p)
          pc := .run snap (todo.erase p) }
      else none
    | _ => none
  | .fail p => match s.pc with
    | .run snap todo =>
      if p ∈ todo then some { s with failed := p :: s.failed, pc := .run snap (todo.erase p) } else none
    | _ => none
  | .done => match s.pc with
    | .run none [] => some { s with pc := .snapshot none [] }
    | .run (some snap) [] => some { s with pc := .sleep snap }
    | _ => none
  | .wake => match s.pc with
    | .sleep snap => some { s with pc := .snapshot (some snap) [] }
    | _ => none
  | .stamp => match s.pc with
    | .snapshot snap now => match files[now.length]? with
      | some p => some { s with pc := .snapshot snap (now ++ [stampOf (s.fs p)]) }
      | none => none
    | _ => none
  | .compare => match s.pc with
    | .snapshot snap now =>
      if now.length ≠ files.length then none
      else match snap with
        | none => some { s with pc := .sleep now }
        | some snap => some { s with pc := if now ≠ snap then .run (some now) files else .sleep snap }
    | _ => none
  | .edit p f => some { s with
      fs := update s.fs p f
      late := if p ∉ s.pc.todo ∧ s.pc.known files p = none then p :: s.late else s.late.filter (· ≠ p) }

/-- The beginning of the first run. -/
def start (fs : PathBuf → Option File) : State where
  fs := fs
  ran _ := none
  failed := []
  pc := .run none files
  late := []

/-- No file gets back the stamp that the loop goes by. -/
def Fresh (s : State) : Act → Prop
  | .edit p f => s.pc.known files p ≠ some (stampOf f)
  | _ => True

/-! ### What the loop knows -/

variable {files} {s t : State} {a : Act}

/-- A child has read the file as it is, or it is late, or the last attempt at it failed. -/
def State.Current (s : State) (p : PathBuf) : Prop := s.ran p = some (s.fs p) ∨ p ∈ s.late ∨ p ∈ s.failed

/-- Each file is current, is yet to come in this run, or has a stamp other than the one that the loop goes by. -/
structure Inv (files : List PathBuf) (s : State) : Prop where
  accounted : ∀ p ∈ files, p ∈ s.pc.todo ∨ s.Current p ∨ ∃ x, s.pc.known files p = some x ∧ x ≠ stampOf (s.fs p)
  todo_le : s.pc.todo.length ≤ files.length
  stamps : match s.pc with
    | .run snap _ => ∀ x ∈ snap, x.length = files.length
    | .snapshot snap now => (∀ x ∈ snap, x.length = files.length) ∧ now.length ≤ files.length
    | .sleep snap => snap.length = files.length

theorem inv_start (fs : PathBuf → Option File) : Inv files (start files fs) where
  accounted _ hp := .inl hp
  todo_le := Nat.le_refl _
  stamps x hx := by cases hx

/-- What a step of the loop does, whatever the file system does meanwhile. -/
inductive Loop (files : List PathBuf) (s : State) : State → Prop
  | read {snap : Option (List Stamp)} {todo : List PathBuf} {p : PathBuf} (pc : s.pc = .run snap todo)
      (mem : p ∈ todo) : Loop files s { s with
        ran := update s.ran p (some (s.fs p))
        failed := s.failed.filter (· ≠ p)
        pc := .run snap (todo.erase p) }
  | fail {snap : Option (List Stamp)} {todo : List PathBuf} {p : PathBuf} (pc : s.pc = .run snap todo)
      (mem : p ∈ todo) : Loop files s { s with failed := p :: s.failed, pc := .run snap (todo.erase p) }
  | first_done (pc : s.pc = .run none []) : Loop files s { s with pc := .snapshot none [] }
  | done {snap : List Stamp} (pc : s.pc = .run (some snap) []) : Loop files s { s with pc := .sleep snap }
  | wake {snap : List Stamp} (pc : s.pc = .sleep snap) : Loop files s { s with pc := .snapshot (some snap) [] }
  | stamp {snap : Option (List Stamp)} {now : List Stamp} {p : PathBuf} (pc : s.pc = .snapshot snap now)
      (file : files[now.length]? = some p) :
      Loop files s { s with pc := .snapshot snap (now ++ [stampOf (s.fs p)]) }
  | first_look {now : List Stamp} (pc : s.pc = .snapshot none now) (len : now.length = files.length) :
      Loop files s { s with pc := .sleep now }
  | changed {snap now : List Stamp} (pc : s.pc = .snapshot (some snap) now) (len : now.length = files.length)
      (ne : now ≠ snap) : Loop files s { s with pc := .run (some now) files }
  | same {snap : List Stamp} (pc : s.pc = .snapshot (some snap) snap) (len : snap.length = files.length) :
      Loop files s { s with pc := .sleep snap }

private theorem loop_of_step (ha : a.isEdit = false) (h : step files s a = some t) : Loop files s t := by
  cases a with
  | read p =>
    simp only [step] at h
    split at h
    · rename_i snap todo hpc
      split at h
      · rename_i hmem
        cases h
        exact .read hpc hmem
      · cases h
    · cases h
  | fail p =>
    simp only [step] at h
    split at h
    · rename_i snap todo hpc
      split at h
      · rename_i hmem
        cases h
        exact .fail hpc hmem
      · cases h
    · cases h
  | done =>
    simp only [step] at h
    split at h
    · rename_i hpc
      cases h
      exact .first_done hpc
    · rename_i snap hpc
      cases h
      exact .done hpc
    · cases h
  | wake =>
    simp only [step] at h
    split at h
    · rename_i snap hpc
      cases h
      exact .wake hpc
    · cases h
  | stamp =>
    simp only [step] at h
    split at h
    · rename_i snap now hpc
      split at h
      · rename_i p hp
        cases h
        exact .stamp hpc hp
      · cases h
    · cases h
  | compare =>
    simp only [step] at h
    split at h
    · rename_i snap now hpc
      split at h
      · cases h
      · rename_i hlen
        cases snap with
        | none =>
          cases h
          exact .first_look hpc (not_not.1 hlen)
        | some snap =>
          dsimp only at h
          by_cases hne : now ≠ snap
          · rw [if_pos hne] at h
            cases h
            exact .changed hpc (not_not.1 hlen) hne
          · rw [if_neg hne] at h
            obtain rfl := not_not.1 hne
            cases h
            exact .same hpc (not_not.1 hlen)
    · cases h
  | edit p f => cases ha

private theorem known_run (snap : Option (List Stamp)) (todo todo' : List PathBuf) (p : PathBuf) :
    (Pc.run snap todo).known files p = (Pc.run snap todo').known files p := by
  cases snap <;> rfl

/-- Reading a file makes it current and changes nothing about the others. -/
theorem current_read {p q : PathBuf} {pc : Pc} (h : q = p ∨ s.Current q) :
    State.Current { s with
      ran := update s.ran p (some (s.fs p))
      failed := s.failed.filter (· ≠ p)
      pc := pc } q := by
  by_cases hq : q = p
  · subst hq
    exact .inl (update_self ..)
  · rcases h.resolve_left hq with hran | hlate | hfailed
    · exact .inl ((update_of_ne hq ..).trans hran)
    · exact .inr (.inl hlate)
    · exact .inr (.inr (List.mem_filter.2 ⟨hfailed, decide_eq_true hq⟩))

/-- So does an attempt that fails. -/
theorem current_fail {p q : PathBuf} {pc : Pc} (h : q = p ∨ s.Current q) :
    State.Current { s with failed := p :: s.failed, pc := pc } q := by
  rcases h with rfl | hran | hlate | hfailed
  · exact .inr (.inr List.mem_cons_self)
  · exact .inl hran
  · exact .inr (.inl hlate)
  · exact .inr (.inr (List.mem_cons_of_mem p hfailed))

/-- The run has come to the file `p`, which is current in `t`. -/
theorem accounted_come {p : PathBuf} {snap : Option (List Stamp)} {todo : List PathBuf}
    (hacc : ∀ q ∈ files, q ∈ todo ∨ s.Current q ∨
      ∃ x, (Pc.run snap todo).known files q = some x ∧ x ≠ stampOf (s.fs q))
    (hpc : t.pc = .run snap (todo.erase p)) (hfs : t.fs = s.fs)
    (hcurrent : ∀ q, q = p ∨ s.Current q → t.Current q) :
    ∀ q ∈ files, q ∈ t.pc.todo ∨ t.Current q ∨ ∃ x, t.pc.known files q = some x ∧ x ≠ stampOf (t.fs q) := by
  intro q hq
  rw [hpc, hfs]
  rcases hacc q hq with htodo | hcur | ⟨x, hx, hne⟩
  · by_cases hqp : q = p
    · exact .inr (.inl (hcurrent q (.inl hqp)))
    · exact .inl ((List.mem_erase_of_ne hqp).2 htodo)
  · exact .inr (.inl (hcurrent q (.inr hcur)))
  · exact .inr (.inr ⟨x, (known_run snap _ _ q).trans hx, hne⟩)

theorem Inv.loop (hi : Inv files s) (h : Loop files s t) : Inv files t := by
  obtain ⟨hacc, htodo, hstamps⟩ := hi
  cases h with
  | read pc mem =>
    rename_i snap todo p
    rw [pc] at hacc htodo hstamps
    exact ⟨accounted_come hacc rfl rfl fun _ => current_read, (List.length_erase_le ..).trans htodo, hstamps⟩
  | fail pc mem =>
    rename_i snap todo p
    rw [pc] at hacc htodo hstamps
    exact ⟨accounted_come hacc rfl rfl fun _ => current_fail, (List.length_erase_le ..).trans htodo, hstamps⟩
  | first_done pc =>
    rw [pc] at hacc
    refine ⟨fun q hq => ?_, Nat.zero_le _, ⟨fun x hx => (by cases hx), Nat.zero_le _⟩⟩
    rcases hacc q hq with hmem | hcur | ⟨x, hx, -⟩
    · cases hmem
    · exact .inr (.inl hcur)
    · cases hx
  | done pc =>
    rw [pc] at hacc hstamps
    exact ⟨hacc, Nat.zero_le _, hstamps _ rfl⟩
  | wake pc =>
    rw [pc] at hacc hstamps
    exact ⟨hacc, Nat.zero_le _, fun x hx => Option.some.inj hx ▸ hstamps, Nat.zero_le _⟩
  | stamp pc file =>
    rename_i snap now p
    rw [pc] at hacc hstamps
    refine ⟨fun q hq => ?_, Nat.zero_le _, hstamps.1, ?_⟩
    · rcases hacc q hq with hmem | hcur | ⟨x, hx, hne⟩
      · cases hmem
      · exact .inr (.inl hcur)
      · refine .inr (.inr ⟨x, ?_, hne⟩)
        cases snap with
        | none => exact (List.getElem?_append_left (List.getElem?_eq_some_iff.1 hx).1).trans hx
        | some snap => exact hx
    · have hlt := (List.getElem?_eq_some_iff.1 file).1
      rw [List.length_append, List.length_singleton]
      omega
  | first_look pc len =>
    rw [pc] at hacc
    exact ⟨hacc, Nat.zero_le _, len⟩
  | changed pc len ne =>
    exact ⟨fun q hq => .inl hq, Nat.le_refl _, fun x hx => Option.some.inj hx ▸ len⟩
  | same pc len =>
    rw [pc] at hacc
    exact ⟨hacc, Nat.zero_le _, len⟩

/-- An edit that gives a file a stamp of its own is accounted for, whenever it comes. -/
theorem Inv.edit (hi : Inv files s) {p : PathBuf} {f : Option File} (hfresh : Fresh files s (.edit p f))
    (h : step files s (.edit p f) = some t) : Inv files t := by
  cases h
  refine ⟨fun q hq => ?_, hi.todo_le, hi.stamps⟩
  by_cases hqp : q = p
  · subst hqp
    by_cases htodo : q ∈ s.pc.todo
    · exact .inl htodo
    · cases hknown : s.pc.known files q with
      | none =>
        refine .inr (.inl (.inr (.inl ?_)))
        rw [if_pos ⟨htodo, rfl⟩]
        exact List.mem_cons_self
      | some x =>
        refine .inr (.inr ⟨x, rfl, fun heq => hfresh ?_⟩)
        rw [hknown, heq]
        exact congrArg (some <| stampOf ·) (update_self ..)
  · rcases hi.accounted q hq with htodo | hcur | ⟨x, hx, hne⟩
    · exact .inl htodo
    · refine .inr (.inl ?_)
      rcases hcur with hran | hlate | hfailed
      · exact .inl (hran.trans (congrArg some (update_of_ne hqp ..).symm))
      · refine .inr (.inl ?_)
        dsimp only
        split
        · exact List.mem_cons_of_mem p hlate
        · exact List.mem_filter.2 ⟨hlate, decide_eq_true hqp⟩
      · exact .inr (.inr hfailed)
    · exact .inr (.inr ⟨x, hx, fun heq => hne (heq.trans (congrArg stampOf (update_of_ne hqp ..)))⟩)

theorem inv_of_reach {fs : PathBuf → Option File} (h : Reach (step files) (Fresh files) (start files fs) s) :
    Inv files s := by
  refine h.invariant (inv_start fs) fun u a v _ hi hfresh hstep => ?_
  cases a with
  | edit p f => exact hi.edit hfresh hstep
  | _ => exact hi.loop (loop_of_step rfl hstep)

/-! ### How long it takes -/

/-- Each file is current. -/
def Settled (files : List PathBuf) (s : State) : Prop := ∀ p ∈ files, s.Current p

/-- The run under way comes to each file that is not current. -/
def Covered (files : List PathBuf) (s : State) : Prop := ∀ p ∈ files, p ∈ s.pc.todo ∨ s.Current p

/-- The stamps that have been taken are still those of the files. -/
def UpToDate (files : List PathBuf) (s : State) (now : List Stamp) : Prop :=
  ∀ p ∈ files, ∀ x, now[files.idxOf p]? = some x → x = stampOf (s.fs p)

open Classical in
/-- The steps of the loop until each file is current, if nobody writes. -/
noncomputable def rank (files : List PathBuf) (s : State) : Nat :=
  match s.pc with
  | .run _ todo => if Covered files s then todo.length else todo.length + 2 * files.length + 3
  | .sleep _ => 2 * files.length + 2
  | .snapshot none now => (files.length - now.length) + 2 * files.length + 3
  | .snapshot (some _) now =>
    (files.length - now.length) + if UpToDate files s now then files.length + 1 else 3 * files.length + 4

/-- A file that is current stays so. -/
theorem Settled.loop (hs : Settled files s) (h : Loop files s t) : Settled files t := by
  intro p hp
  cases h with
  | read pc mem => exact current_read (.inr (hs p hp))
  | fail pc mem => exact current_fail (.inr (hs p hp))
  | _ => exact hs p hp

/-- The next stamp is that of its file. -/
theorem UpToDate.stamp {now : List Stamp} {p : PathBuf} {pc : Pc} (h : UpToDate files s now)
    (hp : files[now.length]? = some p) : UpToDate files { s with pc := pc } (now ++ [stampOf (s.fs p)]) := by
  intro q hq x hx
  by_cases hlt : files.idxOf q < now.length
  · rw [List.getElem?_append_left hlt] at hx
    exact h q hq x hx
  · rw [List.getElem?_append_right (Nat.not_lt.1 hlt)] at hx
    obtain ⟨hindex, rfl⟩ := List.getElem?_eq_some_iff.1 hx
    rw [List.length_singleton] at hindex
    have hlen : now.length = files.idxOf q := by omega
    rw [hlen, List.getElem?_idxOf hq] at hp
    cases hp
    exact List.getElem_singleton ..

/-- A state of the first run, or of later looks that find nothing new, in which the file is not yet to come. -/
structure Blind (files : List PathBuf) (p : PathBuf) (s₀ s : State) : Prop where
  fs : s.fs = s₀.fs
  ran : s.ran p = s₀.ran p
  unread : p ∉ s.pc.todo
  stamps : match s.pc with
    | .run snap _ => snap = none
    | .snapshot none now => now <+: testFileSnapshot s.fs files
    | .snapshot (some snap) now => snap = testFileSnapshot s.fs files ∧ now <+: testFileSnapshot s.fs files
    | .sleep snap => snap = testFileSnapshot s.fs files

private theorem prefix_stamp {fs : PathBuf → Option File} {now : List Stamp} {p : PathBuf}
    (h : now <+: testFileSnapshot fs files) (hp : files[now.length]? = some p) :
    now ++ [stampOf (fs p)] <+: testFileSnapshot fs files := by
  obtain ⟨rest, hrest⟩ := h
  have hnext : (testFileSnapshot fs files)[now.length]? = some (stampOf (fs p)) := by
    rw [testFileSnapshot, List.getElem?_map, hp, Option.map_some]
  rw [← hrest, List.getElem?_append_right (Nat.le_refl _), Nat.sub_self] at hnext
  cases rest with
  | nil => cases hnext
  | cons x rest =>
    cases hnext
    exact ⟨rest, by rw [← hrest, List.append_assoc, List.singleton_append]⟩

private theorem prefix_full {fs : PathBuf → Option File} {now : List Stamp} (h : now <+: testFileSnapshot fs files)
    (hlen : now.length = files.length) : now = testFileSnapshot fs files :=
  h.eq_of_length (hlen.trans (List.length_map _).symm)

theorem Blind.loop {p : PathBuf} {s₀ : State} (hb : Blind files p s₀ s) (h : Loop files s t) : Blind files p s₀ t := by
  obtain ⟨hfs, hran, hunread, hstamps⟩ := hb
  cases h with
  | read pc mem =>
    rename_i snap todo q
    rw [pc] at hunread hstamps
    have hne : p ≠ q := fun heq => hunread (heq ▸ mem)
    exact ⟨hfs, (update_of_ne hne ..).trans hran, fun hmem => hunread (List.mem_of_mem_erase hmem), hstamps⟩
  | fail pc mem =>
    rw [pc] at hunread hstamps
    exact ⟨hfs, hran, fun hmem => hunread (List.mem_of_mem_erase hmem), hstamps⟩
  | first_done pc => exact ⟨hfs, hran, List.not_mem_nil, List.nil_prefix⟩
  | done pc =>
    rw [pc] at hstamps
    cases hstamps
  | wake pc =>
    rw [pc] at hstamps
    exact ⟨hfs, hran, List.not_mem_nil, hstamps, List.nil_prefix⟩
  | stamp pc file =>
    rename_i snap now q
    rw [pc] at hstamps
    cases snap with
    | none => exact ⟨hfs, hran, List.not_mem_nil, prefix_stamp hstamps file⟩
    | some snap => exact ⟨hfs, hran, List.not_mem_nil, hstamps.1, prefix_stamp hstamps.2 file⟩
  | first_look pc len =>
    rw [pc] at hstamps
    exact ⟨hfs, hran, List.not_mem_nil, prefix_full hstamps len⟩
  | changed pc len ne =>
    rw [pc] at hstamps
    exact absurd ((prefix_full hstamps.2 len).trans hstamps.1.symm) ne
  | same pc len =>
    rw [pc] at hstamps
    exact ⟨hfs, hran, List.not_mem_nil, hstamps.1⟩

/-- A file to which the first run has come, and which is not what was read there.  As long as nobody writes, it is never
run as it is: neither from the first run, nor from the first look if the files that have been looked at are as they
were then. -/
theorem late_edit_missed {p : PathBuf} (hread : p ∉ s.pc.todo)
    (hfirst : (∃ todo, s.pc = .run none todo) ∨ ∃ now, s.pc = .snapshot none now ∧ now <+: testFileSnapshot s.fs files)
    (hstale : s.ran p ≠ some (s.fs p)) {as : List Act} (has : ∀ a ∈ as, a.isEdit = false)
    (hexec : exec (step files) s as = some t) : t.ran p ≠ some (t.fs p) := by
  have hstart : Blind files p s s := by
    refine ⟨rfl, rfl, hread, ?_⟩
    rcases hfirst with ⟨todo, hpc⟩ | ⟨now, hpc, hnow⟩
    · rw [hpc]
    · rw [hpc]
      exact hnow
  have hreach : Reach (step files) (fun _ a => a.isEdit = false) s t := .of_exec_forall hexec fun a ha _ => has a ha
  have hb := hreach.invariant hstart fun u a v _ hu ha hstep => hu.loop (loop_of_step ha hstep)
  rw [hb.fs, hb.ran]
  exact hstale

/-! ### One test -/

instance (s : State) : ∀ a, Decidable (Fresh files s a)
  | .edit p f => inferInstanceAs (Decidable (s.pc.known files p ≠ some (stampOf f)))
  | .read _ => .isTrue trivial
  | .fail _ => .isTrue trivial
  | .done => .isTrue trivial
  | .wake => .isTrue trivial
  | .stamp => .isTrue trivial
  | .compare => .isTrue trivial

def sampleFile (b : UInt8) (d : Nat) : Option File := some { bytes := [b], modified := some d }

def sampleStart : State := start [[1]] fun _ => sampleFile 7 1

/-- The test is edited while the first run goes on. -/
def editedRunning : List Act := [.read [1], .edit [1] (sampleFile 8 2)]

/-- What the loop does then, twice. -/
def neverRerun : List Act := [.done, .stamp, .compare, .wake, .stamp, .compare, .wake, .stamp, .compare]

theorem late_edit_missed_sample : ∃ s, exec (step [[1]]) sampleStart editedRunning = some s ∧
    ∃ t, exec (step [[1]]) s neverRerun = some t ∧ t.ran [1] ≠ some (t.fs [1]) := by
  obtain ⟨s, hs, hp⟩ := (Option.any_eq_true _ _).1 (show (exec (step [[1]]) sampleStart editedRunning).any (fun s =>
    s.pc = .run none [] ∧ s.ran [1] ≠ some (s.fs [1]) ∧ (exec (step [[1]]) s neverRerun).isSome) by decide)
  obtain ⟨hpc, hstale, hsome⟩ := of_decide_eq_true hp
  obtain ⟨t, ht⟩ := Option.isSome_iff_exists.1 hsome
  exact ⟨s, hs, t, ht, late_edit_missed (by rw [hpc]; exact List.not_mem_nil) (.inl ⟨[], hpc⟩) hstale
    (by decide) ht⟩

end Calisto.Test.Watch

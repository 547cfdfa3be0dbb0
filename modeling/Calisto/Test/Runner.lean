import Calisto.Lib.Pool
import Calisto.Test.Select

/-!
# The parallel test runner

The workers of `run_once` take the files from one counter.  Whatever their interleaving, each file is attempted once
and has one result, and the exit code says whether some file failed (`run_once_loses_nothing`).  The results are sorted
by the displayed path, so that only files that are displayed alike can change places with the schedule
(`run_once_swaps_alike`).
-/

namespace Calisto.Test

open UnixPath Pool

def TestFramework.name : TestFramework → Str
  | .minitest => "minitest".toList
  | .rspec => "rspec".toList

/-- How far the work on a file is. -/
inductive Stage
  | connecting
  | requesting
  deriving DecidableEq

/-- An entry of `results`; `elapsed` is in milliseconds. -/
structure TestResult where
  path : Str
  code : Int
  elapsed : Nat
  err : Str
  deriving DecidableEq

/-- The body of a worker's loop, after a file has been taken.  The outcome of the file is the error of `connect`, or
the code that `run_request_full` returns when the connection is there. -/
def runFile (outcome : PathBuf → Except Str Int) (file : PathBuf) : Stage → Nat → Option (Stage ⊕ TestResult)
  | .connecting, elapsed => match outcome file with
    | .error e => some (.inr ⟨fromUtf8Lossy file, 2, elapsed, "cannot connect to daemon: ".toList ++ e⟩)
    | .ok _ => some (.inl .requesting)
  | .requesting, elapsed => match outcome file with
    | .error _ => none
    | .ok code => some (.inr ⟨fromUtf8Lossy file, code, elapsed, []⟩)

/-- The workers of `run_once` on the files. -/
def testRunner (files : List PathBuf) (outcome : PathBuf → Except Str Int) : Work PathBuf Stage TestResult Nat where
  jobs := files
  start := .connecting
  work := runFile outcome

abbrev RunnerState := State PathBuf Stage TestResult Nat

def workers (availableParallelism : Option Nat) (files : List PathBuf) : Nat :=
  max 1 (min (availableParallelism.getD 4) files.length)

/-- Strings are compared by their bytes. -/
def strKey (s : Str) : List Nat := (utf8 s).map UInt8.toNat

/-- The results of all workers, sorted. -/
def sortedResults (s : RunnerState) : List TestResult := SortBy.sort (strKey ·.path) s.results

/-- The line that is printed for a file. -/
def TestResult.line (r : TestResult) : Str :=
  if r.code = 0 then "ok ".toList ++ r.path ++ " (".toList ++ decimal r.elapsed ++ "ms)".toList
  else "FAIL ".toList ++ r.path ++ " (".toList ++ decimal r.elapsed ++ "ms, exit ".toList ++
    (toString r.code).toList ++ ")".toList ++ r.err

/-- What `run_once` prints and returns when the workers have been joined. -/
def runOnce (framework : TestFramework) (s : RunnerState) : List Str × Int :=
  let results := sortedResults s
  let failures := results.countP fun r => r.code ≠ 0
  let totalMs := (results.map (·.elapsed)).sum
  (results.map TestResult.line ++ ["calisto: ".toList ++ decimal results.length ++ " arquivo(s) de teste, ".toList ++
      decimal failures ++ " falhou(ram) em ".toList ++ decimal totalMs ++ "ms (framework: ".toList ++ framework.name ++
      ")".toList],
    if failures > 0 then 1 else 0)

/-! ### What is paid for -/

/-- The files that `connect` is called for at a stage. -/
def connects (file : PathBuf) : Stage → List PathBuf
  | .connecting => [file]
  | .requesting => []

/-- The files that have been attempted, in this order. -/
def attempts (s : RunnerState) : List PathBuf := s.history.flatMap fun d => connects d.1 d.2.1

/-- The code of a file, from its outcome. -/
def exitCode : Except Str Int → Int
  | .error _ => 2
  | .ok code => code

/-- The path and the code of a file. -/
def expected (outcome : PathBuf → Except Str Int) (file : PathBuf) : Str × Int :=
  (fromUtf8Lossy file, exitCode (outcome file))

def TestResult.row (r : TestResult) : Str × Int := (r.path, r.code)

variable {files : List PathBuf} {outcome : PathBuf → Except Str Int}

private theorem runFile_inl {file : PathBuf} {stage stage' : Stage} {elapsed : Nat}
    (h : runFile outcome file stage elapsed = some (.inl stage')) : stage = .connecting ∧ stage' = .requesting := by
  unfold runFile at h
  split at h
  · split at h
    · cases h
    · cases h
      exact ⟨rfl, rfl⟩
  · split at h <;> cases h

private theorem runFile_inr {file : PathBuf} {stage : Stage} {elapsed : Nat} {r : TestResult}
    (h : runFile outcome file stage elapsed = some (.inr r)) : r.row = expected outcome file := by
  unfold runFile at h
  unfold expected
  split at h
  · split at h
    · rename_i houtcome
      cases h
      rw [houtcome]
      rfl
    · cases h
  · split at h
    · cases h
    · rename_i houtcome
      cases h
      rw [houtcome]
      rfl

/-- A file owes one attempt. -/
def attempted (files : List PathBuf) (outcome : PathBuf → Except Str Int) :
    Account (testRunner files outcome) PathBuf where
  owed := connects
  paid file stage _ := connects file stage
  out _ := []
  keep := by
    intro file stage elapsed stage' h
    obtain ⟨rfl, rfl⟩ := runFile_inl h
    exact .refl _
  finish := by
    intro file stage elapsed r h
    rw [List.append_nil]

/-- A file owes one result. -/
def reported (files : List PathBuf) (outcome : PathBuf → Except Str Int) :
    Account (testRunner files outcome) (Str × Int) where
  owed file _ := [expected outcome file]
  paid _ _ _ := []
  out r := [r.row]
  keep := by
    intro file stage elapsed stage' h
    exact .refl _
  finish := by
    intro file stage elapsed r h
    rw [List.nil_append, runFile_inr h]

variable {n : Nat} {s : RunnerState} {availableParallelism : Option Nat}

theorem attempts_perm (hn : 0 < n) (h : Machine.Reach (step (testRunner files outcome)) Machine.Free (spawn n) s)
    (hfinished : s.Finished) : (attempts s).Perm files := by
  have hbal := balance_of_finished (attempted files outcome) hn h hfinished
  have hout : s.results.flatMap (attempted files outcome).out = [] :=
    List.flatMap_eq_nil_iff.2 fun _ _ => rfl
  have hdue : (attempted files outcome).due files = files := List.flatMap_singleton' files
  rw [hout, List.append_nil] at hbal
  exact hbal.trans (.of_eq hdue)

/-- Before the end no file has been attempted twice. -/
theorem count_attempts_le (h : Machine.Reach (step (testRunner files outcome)) Machine.Free (spawn n) s)
    (file : PathBuf) : (attempts s).count file ≤ files.count file := by
  have hbal := balance (attempted files outcome) h
  have hdue : (attempted files outcome).due (files.take s.next) = files.take s.next := List.flatMap_singleton' _
  have hcount := (hbal.trans (.of_eq hdue)).count_eq file
  have htake : (files.take s.next).count file ≤ files.count file := (List.take_sublist _ _).count_le file
  have hattempts : (attempts s).count file ≤ ((attempted files outcome).total s).count file :=
    (List.sublist_append_left (attempts s) _).count_le file
  omega

private theorem rows_perm (hn : 0 < n) (h : Machine.Reach (step (testRunner files outcome)) Machine.Free (spawn n) s)
    (hfinished : s.Finished) : ((sortedResults s).map TestResult.row).Perm (files.map (expected outcome)) := by
  have hbal := balance_of_finished (reported files outcome) hn h hfinished
  have hsteps : (reported files outcome).steps s.history = [] := List.flatMap_eq_nil_iff.2 fun _ _ => rfl
  have hout : s.results.flatMap (reported files outcome).out = s.results.map TestResult.row :=
    List.flatMap_pure_eq_map ..
  have hdue : (reported files outcome).due files = files.map (expected outcome) := List.flatMap_pure_eq_map ..
  rw [hsteps, hout, List.nil_append] at hbal
  have hsort : (sortedResults s).Perm s.results := SortBy.sort_perm _ _
  exact (hsort.map TestResult.row).trans (hbal.trans (.of_eq hdue))

private theorem strKey_injective : Function.Injective strKey := fun _ _ h =>
  utf8_inj (List.map_injective_iff.2 (fun _ _ => UInt8.toNat_inj.1) h)

/-- The rows in order, if files that are displayed alike have the same code. -/
theorem rows_eq (hn : 0 < n) (h : Machine.Reach (step (testRunner files outcome)) Machine.Free (spawn n) s)
    (hfinished : s.Finished) (halike : ∀ f ∈ files, ∀ g ∈ files, fromUtf8Lossy f = fromUtf8Lossy g →
      exitCode (outcome f) = exitCode (outcome g)) :
    (sortedResults s).map TestResult.row = SortBy.sort (strKey ·.1) (files.map (expected outcome)) := by
  have hperm := rows_perm hn h hfinished
  refine SortBy.eq_of_perm (strKey ·.1) (hperm.trans (SortBy.sort_perm _ _).symm) ?_ (SortBy.pairwise_sort _ _) ?_
  · rw [List.pairwise_map]
    exact SortBy.pairwise_sort _ _
  · intro a ha b hb hkey
    obtain ⟨f, hf, rfl⟩ := List.mem_map.1 (hperm.mem_iff.1 ha)
    obtain ⟨g, hg, rfl⟩ := List.mem_map.1 (hperm.mem_iff.1 hb)
    have hdisplay : fromUtf8Lossy f = fromUtf8Lossy g := strKey_injective hkey
    unfold expected
    rw [hdisplay, halike f hf g hg hdisplay]

/-- `run_once` fails if and only if some file failed. -/
theorem runOnce_code (hn : 0 < n) (h : Machine.Reach (step (testRunner files outcome)) Machine.Free (spawn n) s)
    (hfinished : s.Finished) (framework : TestFramework) :
    (runOnce framework s).2 = if ∃ file ∈ files, exitCode (outcome file) ≠ 0 then 1 else 0 := by
  have hmem : (∃ r ∈ sortedResults s, r.code ≠ 0) ↔ ∃ file ∈ files, exitCode (outcome file) ≠ 0 := by
    have hrow : ∀ x : Str × Int, x ∈ (sortedResults s).map TestResult.row ↔ x ∈ files.map (expected outcome) :=
      fun x => (rows_perm hn h hfinished).mem_iff
    constructor
    · rintro ⟨r, hr, hcode⟩
      obtain ⟨file, hfile, heq⟩ := List.mem_map.1 ((hrow _).1 (List.mem_map_of_mem hr))
      exact ⟨file, hfile, fun h => hcode ((congrArg Prod.snd heq).symm.trans h)⟩
    · rintro ⟨file, hfile, hcode⟩
      obtain ⟨r, hr, heq⟩ := List.mem_map.1 ((hrow _).2 (List.mem_map_of_mem hfile))
      exact ⟨r, hr, fun h => hcode ((congrArg Prod.snd heq).symm.trans h)⟩
  have hcount : 0 < (sortedResults s).countP (fun r => r.code ≠ 0) ↔ ∃ file ∈ files, exitCode (outcome file) ≠ 0 := by
    rw [List.countP_pos_iff, ← hmem]
    simp only [decide_eq_true_eq]
  unfold runOnce
  simp only [gt_iff_lt, hcount]

/-- A worker that has connected to the daemon has no error of `connect`. -/
theorem requesting_ok (h : Machine.Reach (step (testRunner files outcome)) Machine.Free (spawn n) s) :
    ∀ worker ∈ s.workers, ∀ file stage, worker.task = .busy file stage →
      stage = .requesting → ∃ code, outcome file = .ok code := by
  refine busy_of_reach (fun file _ hstage => ?_) (fun file stage elapsed stage' _ hwork _ => ?_) h
  · cases hstage
  · obtain ⟨rfl, rfl⟩ := runFile_inl hwork
    simp only [testRunner, runFile] at hwork
    split at hwork
    · cases hwork
    · rename_i code houtcome
      exact ⟨code, houtcome⟩

/-- Until all workers have stopped, some worker can take a step. -/
theorem run_once_moves (h : Machine.Reach (step (testRunner files outcome)) Machine.Free (spawn n) s)
    (hrunning : ¬s.Finished) : ∃ a t, step (testRunner files outcome) s a = some t := by
  refine exists_step (fun worker hworker file stage htask => ⟨0, ?_⟩) hrunning
  have hok := requesting_ok h worker hworker file stage htask
  cases stage with
  | connecting =>
    simp only [testRunner, runFile]
    split <;> rfl
  | requesting =>
    obtain ⟨code, houtcome⟩ := hok rfl
    simp [testRunner, runFile, houtcome]

/-- In every run each file is attempted at most once, and the run goes on until all workers have stopped.  Then each
file has been attempted once and has one row, the rows are in order and depend only on the outcomes as long as files
that are displayed alike have the same code, and the exit code is 1 if and only if some file failed. -/
theorem run_once_loses_nothing (hfiles : files.Nodup) (hn : 0 < n)
    (h : Machine.Reach (step (testRunner files outcome)) Machine.Free (spawn n) s) (framework : TestFramework) :
    (∀ file, (attempts s).count file ≤ 1) ∧
      (¬s.Finished → ∃ a t, step (testRunner files outcome) s a = some t) ∧
      (s.Finished →
        (∀ file ∈ files, (attempts s).count file = 1) ∧
        ((sortedResults s).map TestResult.row).Perm (files.map (expected outcome)) ∧
        ((sortedResults s).map (strKey ·.path)).Pairwise (· ≤ ·) ∧
        ((∀ f ∈ files, ∀ g ∈ files, fromUtf8Lossy f = fromUtf8Lossy g →
            exitCode (outcome f) = exitCode (outcome g)) →
          (sortedResults s).map TestResult.row = SortBy.sort (strKey ·.1) (files.map (expected outcome))) ∧
        ((runOnce framework s).2 = 1 ↔ ∃ file ∈ files, exitCode (outcome file) ≠ 0)) := by
  refine ⟨fun file => ?_, run_once_moves h, fun hfinished => ⟨fun file hfile => ?_, rows_perm hn h hfinished, ?_,
    rows_eq hn h hfinished, ?_⟩⟩
  · exact (count_attempts_le h file).trans (List.nodup_iff_count_le_one.1 hfiles file)
  · rw [(attempts_perm hn h hfinished).count_eq file]
    exact List.count_eq_one_of_mem hfiles hfile
  · rw [List.pairwise_map]
    exact SortBy.pairwise_sort _ _
  · rw [runOnce_code hn h hfinished framework]
    split <;> simp [*]

/-- Two files whose names are not UTF-8; the daemon refuses the first connection. -/
def alikeFiles : List PathBuf :=
  [utf8 "/r/test/".toList ++ 254 :: utf8 "_test.rb".toList, utf8 "/r/test/".toList ++ 255 :: utf8 "_test.rb".toList]

def alikeOutcome (file : PathBuf) : Except Str Int :=
  if 254 ∈ file then .error "Connection refused (os error 111)".toList else .ok 1

/-- Two workers do the files one after the other; `first` takes the first file. -/
def alikeRun (first second : Nat) : List (Nat × Move Nat) :=
  [(first, .claim), (first, .work 0), (second, .claim), (second, .work 0), (second, .work 1), (first, .claim),
    (second, .claim)]

/-- What both files are displayed as. -/
def alikePath : Str := "/r/test/".toList ++ Char.ofNat 0xFFFD :: "_test.rb".toList

/-- Results with the same path stay as the workers have left them. -/
theorem rows_of_alike {rows : List (Str × Int)} (hrows : s.results.map TestResult.row = rows)
    (hpath : ∀ row ∈ rows, row.1 = alikePath) : (sortedResults s).map TestResult.row = rows := by
  have hall : ∀ r ∈ s.results, r.path = alikePath := fun r hr => hpath r.row (hrows ▸ List.mem_map_of_mem hr)
  have hsorted : s.results.Pairwise fun a b => strKey a.path ≤ strKey b.path := by
    refine List.pairwise_of_forall_mem_list fun a ha b hb => ?_
    rw [hall a ha, hall b hb]
  rw [sortedResults, SortBy.sort_of_pairwise _ hsorted, hrows]

private theorem alike_run (first second : Nat) (rows : List (Str × Int))
    (hrun : (Machine.exec (step (testRunner alikeFiles alikeOutcome)) (spawn 2) (alikeRun first second)).any fun s =>
      s.Finished ∧ s.results.map TestResult.row = rows) (hpath : ∀ row ∈ rows, row.1 = alikePath) :
    ∃ s, Machine.Reach (step (testRunner alikeFiles alikeOutcome)) Machine.Free (spawn 2) s ∧ s.Finished ∧
      (sortedResults s).map TestResult.row = rows := by
  obtain ⟨s, hreach, hs⟩ := Machine.Reach.of_any hrun
  obtain ⟨hfinished, hrows⟩ := of_decide_eq_true hs
  exact ⟨s, hreach, hfinished, rows_of_alike hrows hpath⟩

/-- The rows of two files that are displayed alike change places with the schedule. -/
theorem run_once_swaps_alike : ¬∀ (files : List PathBuf) (outcome : PathBuf → Except Str Int) (n m : Nat)
    (s t : RunnerState), files.Nodup → 0 < n → 0 < m →
      Machine.Reach (step (testRunner files outcome)) Machine.Free (spawn n) s →
      Machine.Reach (step (testRunner files outcome)) Machine.Free (spawn m) t → s.Finished → t.Finished →
        (sortedResults s).map TestResult.row = (sortedResults t).map TestResult.row := by
  intro h
  obtain ⟨s, hs, hsfinished, hsrows⟩ :=
    alike_run 0 1 [(alikePath, 2), (alikePath, 1)] (by decide +kernel) (by decide)
  obtain ⟨t, ht, htfinished, htrows⟩ :=
    alike_run 1 0 [(alikePath, 1), (alikePath, 2)] (by decide +kernel) (by decide)
  have heq := h alikeFiles alikeOutcome 2 2 s t (by decide +kernel) (by decide) (by decide) hs ht hsfinished htfinished
  rw [hsrows, htrows] at heq
  exact absurd heq (by decide)

/-- The two files in one run. -/
theorem run_once_loses_neither : ∃ s, (s.Finished ∧
    Machine.Reach (step (testRunner alikeFiles alikeOutcome)) Machine.Free (spawn 2) s) ∧
      ((runOnce .minitest s).2 = 1 ↔ ∃ file ∈ alikeFiles, exitCode (alikeOutcome file) ≠ 0) := by
  obtain ⟨s, hs, hfinished, -⟩ := alike_run 0 1 [(alikePath, 2), (alikePath, 1)] (by decide +kernel) (by decide)
  have hall := (run_once_loses_nothing (by decide +kernel) (by decide) hs .minitest).2.2 hfinished
  exact ⟨s, ⟨hfinished, hs⟩, hall.2.2.2.2⟩

end Calisto.Test

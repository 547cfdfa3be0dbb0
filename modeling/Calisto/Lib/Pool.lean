import Calisto.Lib.Machine
import Mathlib.Algebra.GroupWithZero.Nat
import Mathlib.Data.List.Count

/-!
# Worker pools

Workers take the jobs of a list from one counter and work on them step by step, in any interleaving.  An account says
what a job owes at each of its stages and what a step of work and a result pay of it: what has been paid and what the
jobs in work still owe is what the jobs that were taken owe (`balance`), so that in the end each job is paid for once,
whatever the schedule (`balance_of_finished`).
-/

namespace Pool

/-- What a worker is doing. -/
inductive Task (J S : Type*)
  | idle
  | busy (job : J) (stage : S)
  | stopped
  deriving DecidableEq

structure Worker (J S R : Type*) where
  task : Task J S := .idle
  results : List R := []

/-- The jobs, the stage where the work on a job begins, and the steps of work: to another stage, or to the result. -/
structure Work (J S R α : Type*) where
  jobs : List J
  start : S
  work : J → S → α → Option (S ⊕ R)

/-- The counter, the workers, and the steps of work so far. -/
structure State (J S R α : Type*) where
  next : Nat := 0
  workers : List (Worker J S R)
  history : List (J × S × α) := []

/-- What a worker can do: take the number of the counter, or work on its job. -/
inductive Move (α : Type*)
  | claim
  | work (a : α)

variable {J S R α β : Type*} (W : Work J S R α)

/-- The worker and the counter after a move, and the step of work that was done. -/
def advance (next : Nat) : Worker J S R → Move α → Option (Worker J S R × Nat × List (J × S × α))
  | ⟨.idle, results⟩, .claim => match W.jobs[next]? with
    | some job => some (⟨.busy job W.start, results⟩, next + 1, [])
    | none => some (⟨.stopped, results⟩, next + 1, [])
  | ⟨.busy job stage, results⟩, .work a => match W.work job stage a with
    | some (.inl stage') => some (⟨.busy job stage', results⟩, next, [(job, stage, a)])
    | some (.inr r) => some (⟨.idle, results ++ [r]⟩, next, [(job, stage, a)])
    | none => none
  | _, _ => none

/-- A move of the worker with the given number. -/
def step (s : State J S R α) (a : Nat × Move α) : Option (State J S R α) :=
  match s.workers[a.1]? with
  | none => none
  | some worker => match advance W s.next worker a.2 with
    | none => none
    | some (worker', next', done) => some ⟨next', s.workers.set a.1 worker', s.history ++ done⟩

/-- So many workers, none of which has begun. -/
def spawn (n : Nat) : State J S R α := { workers := List.replicate n {} }

/-- All workers have stopped. -/
def State.Finished (s : State J S R α) : Prop := ∀ worker ∈ s.workers, worker.task = .stopped

instance [DecidableEq J] [DecidableEq S] (s : State J S R α) : Decidable s.Finished :=
  inferInstanceAs (Decidable (∀ worker ∈ s.workers, worker.task = .stopped))

/-- The results, worker by worker. -/
def State.results (s : State J S R α) : List R := s.workers.flatMap (·.results)

variable {W} {s t : State J S R α}

/-- What one move does. -/
inductive Advance (W : Work J S R α) (next : Nat) :
    Worker J S R → Worker J S R → Nat → List (J × S × α) → Prop
  | take {job results} (h : W.jobs[next]? = some job) :
    Advance W next ⟨.idle, results⟩ ⟨.busy job W.start, results⟩ (next + 1) []
  | stop {results} (h : W.jobs.length ≤ next) : Advance W next ⟨.idle, results⟩ ⟨.stopped, results⟩ (next + 1) []
  | keep {job stage results a stage'} (h : W.work job stage a = some (.inl stage')) :
    Advance W next ⟨.busy job stage, results⟩ ⟨.busy job stage', results⟩ next [(job, stage, a)]
  | finish {job stage results a r} (h : W.work job stage a = some (.inr r)) :
    Advance W next ⟨.busy job stage, results⟩ ⟨.idle, results ++ [r]⟩ next [(job, stage, a)]

theorem advance_cases {next next' : Nat} {worker worker' : Worker J S R} {m : Move α} {done : List (J × S × α)}
    (h : advance W next worker m = some (worker', next', done)) : Advance W next worker worker' next' done := by
  unfold advance at h
  split at h
  · split at h
    · rename_i hjob
      cases h
      exact .take hjob
    · rename_i hjob
      cases h
      exact .stop (List.getElem?_eq_none_iff.1 hjob)
  · split at h
    · rename_i hwork
      cases h
      exact .keep hwork
    · rename_i hwork
      cases h
      exact .finish hwork
    · cases h
  · cases h

/-- A step is a move of one worker among the others. -/
theorem step_cases {a : Nat × Move α} (h : step W s a = some t) :
    ∃ front worker worker' back next' done, s.workers = front ++ worker :: back ∧
      t = ⟨next', front ++ worker' :: back, s.history ++ done⟩ ∧ Advance W s.next worker worker' next' done := by
  unfold step at h
  split at h
  · cases h
  · rename_i worker hworker
    split at h
    · cases h
    · rename_i worker' next' done hadvance
      cases h
      obtain ⟨hlt, hget⟩ := List.getElem?_eq_some_iff.1 hworker
      refine ⟨s.workers.take a.1, worker, worker', s.workers.drop (a.1 + 1), next', done, ?_, ?_,
        advance_cases hadvance⟩
      · rw [← hget, List.getElem_cons_drop, List.take_append_drop]
      · rw [List.set_eq_take_cons_drop worker' hlt]

/-- A worker after a step was there before, or has moved. -/
theorem mem_or_eq_of_mem_moved {γ : Type*} {front back : List γ} {x new : γ} (old : γ)
    (h : x ∈ front ++ new :: back) : x ∈ front ++ old :: back ∨ x = new := by
  rw [List.mem_append, List.mem_cons] at h
  rcases h with hfront | heq | hback
  · exact .inl (List.mem_append_left _ hfront)
  · exact .inr heq
  · exact .inl (List.mem_append_right _ (List.mem_cons_of_mem _ hback))

/-! ### Accounts -/

/-- What a job owes at a stage, and what of it a step of work and a result pay. -/
structure Account (W : Work J S R α) (β : Type*) where
  owed : J → S → List β
  paid : J → S → α → List β
  out : R → List β
  keep : ∀ {job stage a stage'}, W.work job stage a = some (.inl stage') →
    (paid job stage a ++ owed job stage').Perm (owed job stage)
  finish : ∀ {job stage a r}, W.work job stage a = some (.inr r) → (paid job stage a ++ out r).Perm (owed job stage)

variable (A : Account W β)

/-- What the steps of work have paid. -/
def Account.steps (history : List (J × S × α)) : List β := history.flatMap fun d => A.paid d.1 d.2.1 d.2.2

/-- What a worker's results have paid and its job still owes. -/
def Account.held (worker : Worker J S R) : List β :=
  worker.results.flatMap A.out ++ match worker.task with
    | .busy job stage => A.owed job stage
    | _ => []

/-- What the jobs owe before the work on them. -/
def Account.due (jobs : List J) : List β := jobs.flatMap fun job => A.owed job W.start

theorem due_take_succ {next : Nat} {job : J} (h : W.jobs[next]? = some job) :
    A.due (W.jobs.take (next + 1)) = A.due (W.jobs.take next) ++ A.owed job W.start := by
  have htake : W.jobs.take (next + 1) = W.jobs.take next ++ [job] := by
    rw [List.take_add_one, h]
    rfl
  rw [htake]
  simp [Account.due]

/-- A move pays what the worker owes less, except that a new job is owed for. -/
theorem Advance.balance {next next' : Nat} {worker worker' : Worker J S R} {done : List (J × S × α)}
    (h : Advance W next worker worker' next' done) (rest : List β)
    (hbal : (rest ++ A.held worker).Perm (A.due (W.jobs.take next))) :
    (rest ++ (A.steps done ++ A.held worker')).Perm (A.due (W.jobs.take next')) := by
  cases h with
  | take hjob =>
    rw [due_take_succ A hjob]
    simpa [Account.held, Account.steps] using hbal.append_right (A.owed _ W.start)
  | stop hlen =>
    rw [List.take_of_length_le (by omega)] at hbal ⊢
    simpa [Account.held, Account.steps] using hbal
  | keep hwork =>
    refine (List.Perm.append_left rest ?_).trans hbal
    have hkeep := A.keep hwork
    classical
    rw [List.perm_iff_count] at hkeep ⊢
    intro b
    have hb := hkeep b
    simp only [Account.held, Account.steps, List.flatMap_singleton, List.count_append] at hb ⊢
    omega
  | finish hwork =>
    refine (List.Perm.append_left rest ?_).trans hbal
    have hfinish := A.finish hwork
    classical
    rw [List.perm_iff_count] at hfinish ⊢
    intro b
    have hb := hfinish b
    simp only [Account.held, Account.steps, List.flatMap_singleton, List.flatMap_append, List.append_nil,
      List.count_append] at hb ⊢
    omega

/-- What has been paid, and what the jobs in work still owe. -/
def Account.total (s : State J S R α) : List β := A.steps s.history ++ s.workers.flatMap A.held

theorem balance_spawn (n : Nat) : (A.total (spawn n)).Perm (A.due (W.jobs.take (spawn n : State J S R α).next)) := by
  have hheld : (List.replicate n ({} : Worker J S R)).flatMap A.held = [] := by
    rw [List.flatMap_eq_nil_iff]
    intro worker hworker
    rw [List.eq_of_mem_replicate hworker]
    rfl
  unfold Account.total spawn
  rw [hheld]
  exact .refl _

theorem balance_step {a : Nat × Move α} (h : step W s a = some t)
    (hbal : (A.total s).Perm (A.due (W.jobs.take s.next))) : (A.total t).Perm (A.due (W.jobs.take t.next)) := by
  obtain ⟨front, worker, worker', back, next', done, hs, rfl, hadvance⟩ := step_cases h
  have hrest : (A.steps s.history ++ front.flatMap A.held ++ back.flatMap A.held ++ A.held worker).Perm
      (A.total s) := by
    unfold Account.total
    rw [hs]
    classical
    rw [List.perm_iff_count]
    intro b
    simp only [List.flatMap_append, List.flatMap_cons, List.count_append]
    omega
  refine List.Perm.trans ?_ (hadvance.balance A _ (hrest.trans hbal))
  unfold Account.total
  classical
  rw [List.perm_iff_count]
  intro b
  simp only [Account.steps, List.flatMap_append, List.flatMap_cons, List.count_append]
  omega

/-- What has been paid and is still owed is what the jobs that were taken owe. -/
theorem balance {n : Nat} (h : Machine.Reach (step W) Machine.Free (spawn n) s) :
    (A.total s).Perm (A.due (W.jobs.take s.next)) :=
  h.invariant (balance_spawn A n) fun _ _ _ _ hbal _ hstep => balance_step A hstep hbal

/-! ### The end -/

/-- A worker has stopped only if no job is left. -/
def State.Exhausted (W : Work J S R α) (s : State J S R α) : Prop :=
  ∀ worker ∈ s.workers, worker.task = .stopped → W.jobs.length ≤ s.next

theorem exhausted_step {a : Nat × Move α} (h : step W s a = some t) (hs : s.Exhausted W) : t.Exhausted W := by
  obtain ⟨front, old, new, back, next', done, hold, rfl, hadvance⟩ := step_cases h
  have hle : s.next ≤ next' := by
    cases hadvance <;> omega
  intro worker hworker htask
  rcases mem_or_eq_of_mem_moved old hworker with hmem | rfl
  · exact Nat.le_trans (hs worker (hold ▸ hmem) htask) hle
  · cases hadvance with
    | stop hlen => exact Nat.le_succ_of_le hlen
    | _ => cases htask

theorem exhausted {n : Nat} (h : Machine.Reach (step W) Machine.Free (spawn n) s) : s.Exhausted W := by
  refine h.invariant (fun worker hworker htask => ?_) fun _ _ _ _ hs _ hstep => exhausted_step hstep hs
  rw [List.eq_of_mem_replicate hworker] at htask
  cases htask

theorem length_workers {n : Nat} (h : Machine.Reach (step W) Machine.Free (spawn n) s) : s.workers.length = n := by
  refine h.invariant (I := fun s => s.workers.length = n) List.length_replicate fun s a t _ ih _ hstep => ?_
  obtain ⟨front, old, new, back, next', done, hold, rfl, -⟩ := step_cases hstep
  rw [hold] at ih
  rw [← ih, List.length_append, List.length_append]
  rfl

/-- In the end each job has been paid for. -/
theorem balance_of_finished {n : Nat} (hn : 0 < n) (h : Machine.Reach (step W) Machine.Free (spawn n) s)
    (hfinished : s.Finished) : (A.steps s.history ++ s.results.flatMap A.out).Perm (A.due W.jobs) := by
  obtain ⟨worker, hworker⟩ := List.exists_mem_of_length_pos (length_workers h ▸ hn)
  have hlen : W.jobs.length ≤ s.next := exhausted h worker hworker (hfinished worker hworker)
  have hheld : s.workers.flatMap A.held = s.results.flatMap A.out := by
    have hworkers : s.workers.map A.held = s.workers.map fun worker => worker.results.flatMap A.out := by
      refine List.map_congr_left fun worker hworker => ?_
      rw [Account.held, hfinished worker hworker, List.append_nil]
    rw [State.results, List.flatMap_assoc, List.flatMap_def, List.flatMap_def, hworkers]
  have hbal := balance A h
  rw [List.take_of_length_le hlen, Account.total, hheld] at hbal
  exact hbal

/-! ### Progress -/

/-- A job in work has been taken from the list and satisfies what the work keeps. -/
theorem busy_of_reach {P : J → S → Prop} (hstart : ∀ job ∈ W.jobs, P job W.start)
    (hkeep : ∀ job stage a stage', P job stage → W.work job stage a = some (.inl stage') → P job stage') {n : Nat}
    (h : Machine.Reach (step W) Machine.Free (spawn n) s) :
    ∀ worker ∈ s.workers, ∀ job stage, worker.task = .busy job stage → P job stage := by
  refine h.invariant (I := fun s => ∀ worker ∈ s.workers, ∀ job stage, worker.task = .busy job stage → P job stage)
    (fun worker hworker job stage htask => ?_) fun s a t _ ih _ hstep worker hworker job stage htask => ?_
  · rw [List.eq_of_mem_replicate hworker] at htask
    cases htask
  · obtain ⟨front, old, new, back, next', done, hold, rfl, hadvance⟩ := step_cases hstep
    rw [hold] at ih
    rcases mem_or_eq_of_mem_moved old hworker with hmem | rfl
    · exact ih worker hmem job stage htask
    · have hbusy := ih old (List.mem_append_right _ List.mem_cons_self)
      cases hadvance with
      | take hjob =>
        cases htask
        exact hstart job (List.mem_of_getElem? hjob)
      | keep hwork =>
        cases htask
        exact hkeep _ _ _ _ (hbusy _ _ rfl) hwork
      | stop | finish => cases htask

/-- Where each job in work can be worked on, some worker can move unless all have stopped. -/
theorem exists_step (hbusy : ∀ worker ∈ s.workers, ∀ job stage, worker.task = .busy job stage →
    ∃ a, (W.work job stage a).isSome) (hrunning : ¬s.Finished) : ∃ a t, step W s a = some t := by
  unfold State.Finished at hrunning
  push Not at hrunning
  obtain ⟨worker, hworker, htask⟩ := hrunning
  obtain ⟨k, hk⟩ := List.mem_iff_getElem?.1 hworker
  have hmove : ∃ m, (advance W s.next worker m).isSome := by
    obtain ⟨task, results⟩ := worker
    cases task with
    | idle =>
      refine ⟨.claim, ?_⟩
      cases hjob : W.jobs[s.next]? with
      | some job => simp [advance, hjob]
      | none => simp [advance, hjob]
    | busy job stage =>
      obtain ⟨a, ha⟩ := hbusy _ hworker job stage rfl
      refine ⟨.work a, ?_⟩
      obtain ⟨stage' | r, hwork⟩ := Option.isSome_iff_exists.1 ha
      · simp [advance, hwork]
      · simp [advance, hwork]
    | stopped => exact absurd rfl htask
  obtain ⟨m, hm⟩ := hmove
  obtain ⟨⟨worker', next', done⟩, hadvance⟩ := Option.isSome_iff_exists.1 hm
  refine ⟨(k, m), ⟨next', s.workers.set k worker', s.history ++ done⟩, ?_⟩
  simp only [step, hk, hadvance]

/-- How many steps a worker can still take, when `rank` bounds those at a stage. -/
def weight (rank : S → Nat) (worker : Worker J S R) : Nat :=
  match worker.task with
  | .idle => 1
  | .busy _ stage => rank stage + 2
  | .stopped => 0

/-- How many steps the workers can still take. -/
def State.rest (W : Work J S R α) (rank : S → Nat) (s : State J S R α) : Nat :=
  (rank W.start + 2) * (W.jobs.length - s.next) + (s.workers.map (weight rank)).sum

end Pool

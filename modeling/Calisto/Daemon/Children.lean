import Calisto.Daemon.Owners

/-!
# Children and STATUS lines

Each child that is not yet reaped is the child of exactly one entry of `clients`, the one it was forked for
(`Parented`).  A connection sees at most one fork and at most one STATUS line (`Tallied`), and every STATUS line
carries the wait status of a child reaped for the same connection.
-/

namespace Calisto

open Function Handles Machine

variable {boot : Boot} {alloc : Nat → Bool} {s t : Sys} {a : Act}

/-! ### The log -/

theorem mem_openAll_log {new : List (Fd × File)} {e : Event} :
    e ∈ (s.openAll new).log ↔ e ∈ s.log ∨ ∃ x ∈ new, e = .opened x.1 x.2 := by
  induction new generalizing s with
  | nil => simp [Sys.openAll]
  | cons x new ih =>
    rw [openAll_cons, ih]
    simp [Sys.openFd, or_assoc, or_comm]

theorem mem_log_closeAll {fds : List Fd} {e : Event} (h : e ∈ s.log) : e ∈ (s.closeAll fds).log := by
  induction fds generalizing s with
  | nil => exact h
  | cons x fds ih => exact ih (List.mem_cons_of_mem _ h)

theorem mem_closeAll_log {fds : List Fd} {e : Event} (h : e ∈ (s.closeAll fds).log) :
    e ∈ s.log ∨ ∃ fd file, e = .closed fd file := by
  induction fds generalizing s with
  | nil => exact Or.inl h
  | cons x fds ih =>
    rcases ih h with h | h
    · rcases List.mem_cons.1 h with rfl | h
      · exact Or.inr ⟨x, s.fdt x, rfl⟩
      · exact Or.inl h
    · exact Or.inr h

/-- The child `pid` was forked for the connection behind `owner`. -/
def Sys.ForkedFor (s : Sys) (pid : Pid) (owner : Option File) : Prop :=
  ∃ childFds controlFd fields table, Event.fork pid owner childFds controlFd fields table ∈ s.log

/-! ### Parents -/

/-- The children of the entries. -/
def Sys.pids (s : Sys) : List Pid := s.clients.flatMap fun c => c.pid.toList

/-- The children not yet reaped are those of the entries, each the child of the entry it was forked for. -/
structure Sys.Parented (s : Sys) : Prop where
  covers : Covers s.kids s.pids
  owner : ∀ c ∈ s.clients, ∀ pid ∈ c.pid, ∃ kid, s.kids pid = some kid ∧ kid.owner = s.fdt c.fd

theorem pids_set {i : Nat} {c : DaemonClient} (h : s.clients[i]? = some c) (c' : DaemonClient) (hp : c'.pid = c.pid)
    (hcov : Covers s.kids s.pids) : Covers s.kids ((s.clients.set i c').flatMap fun c => c.pid.toList) := by
  have hsame : c'.pid.toList = c.pid.toList := by rw [hp]
  have hperm := flatMap_set_eq (f := fun c : DaemonClient => c.pid.toList) h hsame
  exact hcov.perm hperm.symm

private theorem pids_perm {i : Nat} {c : DaemonClient} (h : s.clients[i]? = some c) :
    s.pids.Perm (c.pid.toList ++ (s.clients.eraseIdx i).flatMap fun c => c.pid.toList) :=
  flatMap_perm_of_getElem? h _

/-- Children are forked for an entry without one, and reaped as their entry goes or gives them up. -/
theorem Effect.pids_cover (he : Effect boot alloc s a t) (h : Covers s.kids s.pids) : Covers t.kids t.pids := by
  have hidle : ∀ {i c}, s.clients[i]? = some c → c.pid = none →
      Covers s.kids ((s.clients.eraseIdx i).flatMap fun c => c.pid.toList) := by
    intro i c hc hp
    have := pids_perm hc
    rw [hp] at this
    exact h.perm this
  have hbusy : ∀ {i c pid}, s.clients[i]? = some c → c.pid = some pid →
      Covers (update s.kids pid none) ((s.clients.eraseIdx i).flatMap fun c => c.pid.toList) := by
    intro i c pid hc hp
    have := pids_perm hc
    rw [hp] at this
    exact (h.perm this).erase
  cases he with
  | connect | send | hangup | signal | quiet | passedBy | returned => exact h
  | exit hkid => exact h.replace (by rw [h.mem_iff, hkid]; rfl) _
  | @accepted fd k rest hr hb hf =>
    have : (s.welcome fd k rest).pids = s.pids := by simp [Sys.pids, Sys.welcome]
    rw [this]
    exact h
  | @answered ans pc i c buf r hw hbuf hr hpc => exact pids_set hw.get { c with buf := buf } rfl h
  | @starved ans pc i c buf fds hw hbuf hq hfds hpc =>
    exact pids_set hw.get { c with buf := buf, first := false, fds := fds } rfl h
  | @received ans pc i c buf k conn bytes files queue hw hfirst ht hpc =>
    exact pids_set hw.get { c with buf := buf } rfl h
  | @installed fds pc i c buf k conn bytes files queue hw hread hfirst ht hlen hnd hfree hpc =>
    simp only [Sys.pids, goto_kids, setClient_kids, install_kids, setQueue_kids, goto_clients, setClient_clients,
      install_clients, setQueue_clients]
    exact pids_set hw.get { c with buf := buf, first := false, fds := fds } rfl h
  | rejected hw hr hrej hpc => exact hidle hw.get hw.idle
  | @forked pc i c buf fields pid hw hbuf hreq hpid hpc =>
    have hperm := flatMap_set_perm hw.get { c with buf := buf, fds := [], pid := some pid }
      fun c : DaemonClient => c.pid.toList
    have hins := (hidle hw.get hw.idle).insert hpid { owner := s.fdt c.fd }
    simp only [Sys.pids, goto_kids, fork_kids, setClient_kids, setClient_fdt, goto_clients, fork_clients,
      setClient_clients, List.set_set]
    exact hins.perm hperm.symm
  | @buried ans pc i c pid st hw hpc =>
    obtain ⟨kid, hkid⟩ := Option.isSome_iff_exists.1 (h.isSome (k := pid)
      (List.mem_flatMap.2 ⟨c, hw.mem, by simp [hw.busy]⟩))
    rw [killChild_of_some hkid]
    exact hbusy hw.get hw.busy
  | reaped hpc hw hkid => exact hbusy hw.get hw.busy
  | @lost ans i c pid hpc hw hkid =>
    have := h.isSome (k := pid) (List.mem_flatMap.2 ⟨c, hw.mem, by simp [hw.busy]⟩)
    rw [hkid] at this
    cases this
  | @takenDown ans i c pid st hpc hc hp =>
    have hmem : pid ∈ s.pids := List.mem_flatMap.2 ⟨c, List.mem_of_getElem? hc, by simp [hp]⟩
    obtain ⟨kid, hkid⟩ := Option.isSome_iff_exists.1 (h.isSome hmem)
    have hperm := flatMap_set_perm hc { c with pid := none } fun c : DaemonClient => c.pid.toList
    rw [takeDown_of_some s i c st hkid]
    exact (hbusy hc hp).perm hperm.symm

private theorem Effect.kid_inv (he : Effect boot alloc s a t) {pid : Pid} {kid : Kid} (h : t.kids pid = some kid) :
    (∃ kid', s.kids pid = some kid' ∧ kid'.owner = kid.owner) ∨ s.kids pid = none ∧ t.ForkedFor pid kid.owner := by
  cases he with
  | @exit pid' kid' st hkid =>
    by_cases heq : pid = pid'
    · subst heq
      have h : update s.kids pid (some { kid' with status := some st }) pid = some kid := h
      rw [update_self] at h
      cases h
      exact Or.inl ⟨kid', hkid, rfl⟩
    · have h : update s.kids pid' (some { kid' with status := some st }) pid = some kid := h
      rw [update_of_ne heq] at h
      exact Or.inl ⟨kid, h, rfl⟩
  | @forked pc i c buf fields pid' hw hbuf hreq hpid hpc =>
    by_cases heq : pid = pid'
    · subst heq
      simp only [goto_kids, fork_kids, update_self] at h
      cases h
      exact Or.inr ⟨hpid, c.fds, c.fd, fields.length, s.fdt, mem_log_closeAll (List.mem_cons_self ..)⟩
    · simp only [goto_kids, fork_kids, setClient_kids, update_of_ne heq] at h
      exact Or.inl ⟨kid, h, rfl⟩
  | buried hw hpc =>
    simp only [goto_kids, leave_kids, killChild_kids] at h
    exact Or.inl ⟨kid, update_none_eq_some h, rfl⟩
  | reaped hpc hw hkid => exact Or.inl ⟨kid, update_none_eq_some h, rfl⟩
  | takenDown hpc hc hp =>
    rw [takeDown_kids] at h
    exact Or.inl ⟨kid, update_none_eq_some h, rfl⟩
  | installed => exact Or.inl ⟨kid, by simpa using h, rfl⟩
  | _ => exact Or.inl ⟨kid, h, rfl⟩

private theorem Effect.parented (he : Effect boot alloc s a t) (ho : s.Owned boot) (hp : s.Parented) : t.Parented := by
  have hcov := he.pids_cover hp.covers
  obtain ⟨lost, ht⟩ := (he.owned ho).covers
  refine ⟨hcov, fun x hx pid hpid => ?_⟩
  -- an entry that had its child before the step
  have hold : ∀ c ∈ s.clients, x.fd = c.fd → pid ∈ c.pid → ∃ kid, t.kids pid = some kid ∧ kid.owner = t.fdt x.fd := by
    intro c hc hfd hpid'
    obtain ⟨kid, hkid, howner⟩ := hp.owner c hc pid hpid'
    have hlive : pid ∈ t.pids := List.mem_flatMap.2 ⟨x, hx, by simpa using hpid⟩
    obtain ⟨kid', hkid'⟩ := Option.isSome_iff_exists.1 (hcov.isSome hlive)
    rcases he.kid_inv hkid' with ⟨kid₀, hkid₀, heq⟩ | ⟨hnone, -⟩
    · rw [hkid] at hkid₀
      cases hkid₀
      rw [he.held_stable ho ht (hfd ▸ fd_mem_held hc) (fd_mem_held hx), hfd, ← howner]
      exact ⟨kid', hkid', heq.symm⟩
    · rw [hkid] at hnone
      cases hnone
  cases he.entry hx with
  | kept hc | answered hc | received hc => exact hold _ hc rfl hpid
  | starved ha hc | installed ha hc => exact hold _ hc rfl hpid
  | accepted => cases hpid
  | @forked c buf pid' hc hidle hbuf hfresh hkid =>
    cases hpid
    have hheld : c.fd ∈ t.held := fd_mem_held (c := { c with buf := buf, fds := [], pid := some pid }) hx
    exact ⟨_, hkid, (he.held_stable ho ht (fd_mem_held hc) hheld).symm⟩
  | takenDown => cases hpid

theorem parented_of_reach {G : Sys → Act → Prop} (h : Reach (step boot alloc) G {} s) : s.Parented := by
  refine effect_invariant h ⟨covers_nil, nofun⟩ fun s a t hreach hi _ he => ?_
  exact he.parented (owned_of_reach hreach) hi

/-! ### STATUS lines -/

/-- A STATUS line sent to a connection. -/
def Event.statusTo (k : ConnId) : Event → Bool
  | .reply dst r => dst = some (.conn k) && r.isStatus
  | _ => false

/-- A fork for a connection. -/
def Event.forkFor (k : ConnId) : Event → Bool
  | .fork _ owner _ _ _ _ => owner = some (.conn k)
  | _ => false

def Sys.statuses (s : Sys) (k : ConnId) : Nat := s.log.countP (Event.statusTo k)

def Sys.forks (s : Sys) (k : ConnId) : Nat := s.log.countP (Event.forkFor k)

section Counts

variable (s : Sys) (k : ConnId) (i : Nat) (c : DaemonClient) (fd : Fd) (r : Reply)

/-- What is logged first does not count. -/
theorem counts_of_cons {t : Sys} {e : Event} (h : t.log = e :: s.log)
    (he : e.statusTo k = false ∧ e.forkFor k = false) :
    t.forks k = s.forks k ∧ t.statuses k = s.statuses k := by
  simp [Sys.forks, Sys.statuses, h, he]

@[simp] theorem leave_forks : (s.leave i fd).forks k = s.forks k :=
  (counts_of_cons s k (leave_log s i fd) ⟨rfl, rfl⟩).1

@[simp] theorem leave_statuses : (s.leave i fd).statuses k = s.statuses k :=
  (counts_of_cons s k (leave_log s i fd) ⟨rfl, rfl⟩).2

@[simp] theorem reaped_forks (pid : Pid) (kid : Kid) (st : Status) : (s.reaped pid kid st).forks k = s.forks k :=
  (counts_of_cons s k rfl ⟨rfl, rfl⟩).1

@[simp] theorem reaped_statuses (pid : Pid) (kid : Kid) (st : Status) :
    (s.reaped pid kid st).statuses k = s.statuses k :=
  (counts_of_cons s k rfl ⟨rfl, rfl⟩).2

@[simp] theorem killChild_forks (pid : Pid) (st : Status) : (s.killChild pid st).1.forks k = s.forks k := by
  unfold Sys.killChild
  dsimp only
  split <;> simp [Sys.forks, Event.forkFor]

@[simp] theorem killChild_statuses (pid : Pid) (st : Status) : (s.killChild pid st).1.statuses k = s.statuses k := by
  unfold Sys.killChild
  dsimp only
  split <;> simp [Sys.statuses, Event.statusTo]

@[simp] theorem openAll_forks (new : List (Fd × File)) : (s.openAll new).forks k = s.forks k :=
  openAll_frame (f := fun s => s.forks k) (fun s _ _ => (counts_of_cons s k rfl ⟨rfl, rfl⟩).1) s new

@[simp] theorem openAll_statuses (new : List (Fd × File)) : (s.openAll new).statuses k = s.statuses k :=
  openAll_frame (f := fun s => s.statuses k) (fun s _ _ => (counts_of_cons s k rfl ⟨rfl, rfl⟩).2) s new

@[simp] theorem closeAll_forks (fds : List Fd) : (s.closeAll fds).forks k = s.forks k :=
  closeAll_frame (f := fun s => s.forks k) (fun s _ => (counts_of_cons s k rfl ⟨rfl, rfl⟩).1) s fds

@[simp] theorem closeAll_statuses (fds : List Fd) : (s.closeAll fds).statuses k = s.statuses k :=
  closeAll_frame (f := fun s => s.statuses k) (fun s _ => (counts_of_cons s k rfl ⟨rfl, rfl⟩).2) s fds

@[simp] theorem respond_forks : (s.respond fd r).forks k = s.forks k := by
  simp [Sys.forks, Event.forkFor]

private theorem respond_statuses :
    (s.respond fd r).statuses k = s.statuses k + if s.fdt fd = some (.conn k) ∧ r.isStatus then 1 else 0 := by
  simp [Sys.statuses, List.countP_cons, Event.statusTo]

theorem fork_statuses (fields : List Bytes) (pid : Pid) : (s.fork i c fields pid).statuses k = s.statuses k := by
  show (Sys.closeAll _ c.fds).statuses k = _
  rw [closeAll_statuses]
  simp [Sys.statuses, Event.statusTo]

private theorem fork_forks (fields : List Bytes) (pid : Pid) :
    (s.fork i c fields pid).forks k = s.forks k + if s.fdt c.fd = some (.conn k) then 1 else 0 := by
  show (Sys.closeAll _ c.fds).forks k = _
  rw [closeAll_forks]
  simp [Sys.forks, List.countP_cons, Event.forkFor]

end Counts

/-- How many forks and STATUS lines a connection has seen: none before it is accepted or while its entry has no
child, one fork while it has one. -/
structure Sys.Tallied (s : Sys) : Prop where
  new : ∀ k, k ∈ s.backlog ∨ s.conns.length ≤ k → s.forks k = 0 ∧ s.statuses k = 0
  idle : s.pc.stopping = false → ∀ c ∈ s.clients, c.pid = none → ∀ k, s.fdt c.fd = some (.conn k) →
    s.forks k = 0 ∧ s.statuses k = 0
  busy : ∀ c ∈ s.clients, c.pid ≠ none → ∀ k, s.fdt c.fd = some (.conn k) → s.forks k = 1 ∧ s.statuses k = 0
  most : ∀ k, s.statuses k ≤ s.forks k ∧ s.forks k ≤ 1

/-- Where the entries are when no child is forked for one or taken from one. -/
def Sys.KeepsPids (s t : Sys) : Prop :=
  ∀ x ∈ t.clients, (∃ c ∈ s.clients, x.fd = c.fd ∧ x.pid = c.pid) ∨
    x.pid = none ∧ ∃ k ∈ s.backlog, t.fdt x.fd = some (.conn k)

theorem Sys.KeepsPids.of_mem (h : ∀ x ∈ t.clients, x ∈ s.clients) : s.KeepsPids t :=
  fun x hx => Or.inl ⟨x, h x hx, rfl, rfl⟩

theorem Sys.KeepsPids.of_set {i : Nat} {c : DaemonClient} (c' : DaemonClient) (hc : s.clients[i]? = some c)
    (ht : t.clients = s.clients.set i c') (hfd : c'.fd = c.fd) (hp : c'.pid = c.pid) : s.KeepsPids t := by
  intro x hx
  rw [ht] at hx
  rcases List.mem_or_eq_of_mem_set hx with h | rfl
  · exact Or.inl ⟨x, h, rfl, rfl⟩
  · exact Or.inl ⟨c, List.mem_of_getElem? hc, hfd, hp⟩

/-- A step that forks nothing and sends no STATUS line. -/
theorem Sys.Tallied.frame (h : s.Tallied) (he : Effect boot alloc s a t) (ho : s.Owned boot)
    (hforks : ∀ k, t.forks k = s.forks k) (hstat : ∀ k, t.statuses k = s.statuses k)
    (hstop : t.pc.stopping = false → s.pc.stopping = false) (hkeeps : s.KeepsPids t) : t.Tallied := by
  obtain ⟨lost, ht⟩ := (he.owned ho).covers
  have hback : ∀ x ∈ t.clients, ∀ k, t.fdt x.fd = some (.conn k) →
      (∃ c ∈ s.clients, x.pid = c.pid ∧ s.fdt c.fd = some (.conn k)) ∨ x.pid = none ∧ k ∈ s.backlog := by
    intro x hx k hk
    rcases hkeeps x hx with ⟨c, hc, hfd, hp⟩ | ⟨hp, k', hk', hfd⟩
    · refine Or.inl ⟨c, hc, hp, ?_⟩
      rw [← hk, hfd, he.held_stable ho ht (fd_mem_held hc) (hfd ▸ fd_mem_held hx)]
    · rw [hfd] at hk
      cases hk
      exact Or.inr ⟨hp, hk'⟩
  refine ⟨fun k hk => ?_, fun hs x hx hp k hk => ?_, fun x hx hp k hk => ?_, fun k => ?_⟩
  · rw [hforks, hstat]
    rcases hk with hk | hk
    · rcases he.backlog_inv hk with hk | ⟨rfl, -⟩
      · exact h.new k (Or.inl hk)
      · exact h.new _ (Or.inr (Nat.le_refl _))
    · exact h.new k (Or.inr (Nat.le_trans he.conns_length hk))
  · rw [hforks, hstat]
    rcases hback x hx k hk with ⟨c, hc, hp', hck⟩ | ⟨-, hb⟩
    · exact h.idle (hstop hs) c hc (hp' ▸ hp) k hck
    · exact h.new k (Or.inl hb)
  · rw [hforks, hstat]
    rcases hback x hx k hk with ⟨c, hc, hp', hck⟩ | ⟨hnone, -⟩
    · exact h.busy c hc (hp' ▸ hp) k hck
    · exact absurd hnone hp
  · rw [hforks, hstat]
    exact h.most k

/-- The counts of one connection change, and it is the connection of the entry `c`, which goes or changes. -/
theorem Sys.Tallied.bump (h : s.Tallied) (he : Effect boot alloc s a t) (ho : s.Owned boot) {i : Nat}
    {c : DaemonClient} (hc : s.clients[i]? = some c) {k₀ : ConnId} (hk₀ : s.fdt c.fd = some (.conn k₀))
    (hforks : ∀ k, k ≠ k₀ → t.forks k = s.forks k) (hstat : ∀ k, k ≠ k₀ → t.statuses k = s.statuses k)
    (hstop : t.pc.stopping = false → s.pc.stopping = false)
    (hothers : ∀ x ∈ t.clients, x ∈ s.clients.eraseIdx i ∨ x.fd = c.fd)
    (hidle : t.pc.stopping = false → ∀ x ∈ t.clients, x.fd = c.fd → x.pid = none →
      t.forks k₀ = 0 ∧ t.statuses k₀ = 0)
    (hbusy : ∀ x ∈ t.clients, x.fd = c.fd → x.pid ≠ none → t.forks k₀ = 1 ∧ t.statuses k₀ = 0)
    (hmost : t.statuses k₀ ≤ t.forks k₀ ∧ t.forks k₀ ≤ 1) : t.Tallied := by
  obtain ⟨lost, ht⟩ := (he.owned ho).covers
  have hcmem := List.mem_of_getElem? hc
  have hback : ∀ x ∈ t.clients, ∀ k, t.fdt x.fd = some (.conn k) →
      x.fd = c.fd ∧ k = k₀ ∨ x ∈ s.clients ∧ s.fdt x.fd = some (.conn k) ∧ k ≠ k₀ := by
    intro x hx k hk
    rcases hothers x hx with hmem | hfd
    · have hx' : x ∈ s.clients := List.mem_of_mem_eraseIdx hmem
      rw [he.held_stable ho ht (fd_mem_held hx') (fd_mem_held hx)] at hk
      refine Or.inr ⟨hx', hk, ?_⟩
      rintro rfl
      exact ho.fd_ne hc hmem (ho.inj _ _ _ hk hk₀)
    · refine Or.inl ⟨hfd, ?_⟩
      rw [hfd, he.held_stable ho ht (fd_mem_held hcmem) (hfd ▸ fd_mem_held hx), hk₀] at hk
      cases hk
      rfl
  have hnew : ∀ k, k ∈ s.backlog ∨ s.conns.length ≤ k → k ≠ k₀ := by
    rintro k hk rfl
    rcases hk with hk | hk
    · exact ho.backlog_new k hk _ hk₀
    · exact absurd (ho.bound _ _ hk₀) (Nat.not_lt.2 hk)
  refine ⟨fun k hk => ?_, fun hs x hx hp k hk => ?_, fun x hx hp k hk => ?_, fun k => ?_⟩
  · have hk' : k ∈ s.backlog ∨ s.conns.length ≤ k := by
      rcases hk with hk | hk
      · rcases he.backlog_inv hk with hk | ⟨rfl, -⟩
        · exact Or.inl hk
        · exact Or.inr (Nat.le_refl _)
      · exact Or.inr (Nat.le_trans he.conns_length hk)
    rw [hforks k (hnew k hk'), hstat k (hnew k hk')]
    exact h.new k hk'
  · rcases hback x hx k hk with ⟨hfd, rfl⟩ | ⟨hx', hk', hne⟩
    · exact hidle hs x hx hfd hp
    · rw [hforks k hne, hstat k hne]
      exact h.idle (hstop hs) x hx' hp k hk'
  · rcases hback x hx k hk with ⟨hfd, rfl⟩ | ⟨hx', hk', hne⟩
    · exact hbusy x hx hfd hp
    · rw [hforks k hne, hstat k hne]
      exact h.busy x hx' hp k hk'
  · by_cases hk : k = k₀
    · subst hk
      exact hmost
    · rw [hforks k hk, hstat k hk]
      exact h.most k

/-- A child is forked for an entry that had none. -/
theorem Sys.Tallied.forked (h : s.Tallied) (he : Effect boot alloc s a t) (ho : s.Owned boot) {i : Nat}
    {c c' : DaemonClient} (hc : s.clients[i]? = some c) (hrun : s.pc.stopping = false) (hidle : c.pid = none)
    (hforks : ∀ k, t.forks k = s.forks k + if s.fdt c.fd = some (.conn k) then 1 else 0)
    (hstat : ∀ k, t.statuses k = s.statuses k) (ht : t.clients = s.clients.set i c') (hfd : c'.fd = c.fd)
    (hbusy : c'.pid ≠ none) : t.Tallied := by
  have hmem := List.mem_of_getElem? hc
  obtain ⟨k₀, hk₀⟩ := ho.control c hmem
  obtain ⟨hf0, hs0⟩ := h.idle hrun c hmem hidle k₀ hk₀
  have hf1 : t.forks k₀ = 1 := by rw [hforks, hf0, if_pos hk₀]
  have hs1 : t.statuses k₀ = 0 := by rw [hstat, hs0]
  have hcases : ∀ x ∈ t.clients, x = c' ∨ x ∈ s.clients.eraseIdx i := by
    intro x hx
    rw [ht] at hx
    exact mem_set_or_mem_eraseIdx hc hx
  refine h.bump he ho hc hk₀ (fun k hk => ?_) (fun k _ => hstat k) (fun _ => hrun) (fun x hx => ?_)
    (fun _ x hx hxfd hnone => ?_) (fun x hx hxfd _ => ⟨hf1, hs1⟩) ?_
  · have hne : s.fdt c.fd ≠ some (.conn k) := by
      rw [hk₀]
      intro heq
      cases heq
      exact hk rfl
    rw [hforks, if_neg hne]
    rfl
  · rcases hcases x hx with rfl | hx
    · exact Or.inr hfd
    · exact Or.inl hx
  · rcases hcases x hx with rfl | hx
    · exact absurd hnone hbusy
    · exact absurd hxfd (ho.fd_ne hc hx)
  · omega

/-- A STATUS line is sent to an entry with a child, which goes or gives its child up in `daemon_shutdown`. -/
theorem Sys.Tallied.answered (h : s.Tallied) (he : Effect boot alloc s a t) (ho : s.Owned boot) {i : Nat}
    {c : DaemonClient} (hc : s.clients[i]? = some c) (hbusy : c.pid ≠ none)
    (hforks : ∀ k, t.forks k = s.forks k)
    (hstat : ∀ k, t.statuses k = s.statuses k + if s.fdt c.fd = some (.conn k) then 1 else 0)
    (hstop : t.pc.stopping = false → s.pc.stopping = false)
    (hleft : ∀ x ∈ t.clients, x ∈ s.clients.eraseIdx i ∨ x.fd = c.fd ∧ x.pid = none ∧ t.pc.stopping) :
    t.Tallied := by
  have hmem := List.mem_of_getElem? hc
  obtain ⟨k₀, hk₀⟩ := ho.control c hmem
  obtain ⟨hf1, hs0⟩ := h.busy c hmem hbusy k₀ hk₀
  refine h.bump he ho hc hk₀ (fun k _ => hforks k) (fun k hk => ?_) hstop (fun x hx => ?_)
    (fun hs x hx hxfd _ => ?_) (fun x hx hxfd hx' => ?_) ?_
  · have hne : s.fdt c.fd ≠ some (.conn k) := by
      rw [hk₀]
      intro heq
      cases heq
      exact hk rfl
    rw [hstat, if_neg hne]
    rfl
  · rcases hleft x hx with hx | ⟨hxfd, -, -⟩
    · exact Or.inl hx
    · exact Or.inr hxfd
  · rcases hleft x hx with hx | ⟨-, -, hs'⟩
    · exact absurd hxfd (ho.fd_ne hc hx)
    · rw [hs] at hs'
      cases hs'
  · rcases hleft x hx with hx | ⟨-, hnone, -⟩
    · exact absurd hxfd (ho.fd_ne hc hx)
    · exact absurd hnone hx'
  · have hs1 : t.statuses k₀ = 1 := by rw [hstat, hs0, if_pos hk₀]
    rw [hs1, hforks, hf1]
    exact ⟨Nat.le_refl _, Nat.le_refl _⟩

private theorem Effect.tallied (he : Effect boot alloc s a t) (ho : s.Owned boot) (hp : s.Parented) (h : s.Tallied) :
    t.Tallied := by
  have he' := he
  cases he with
  | connect | send | hangup | exit | signal =>
    exact h.frame he' ho (fun _ => rfl) (fun _ => rfl) id (.of_mem fun _ hx => hx)
  | quiet hs hpc => exact h.frame he' ho (fun _ => rfl) (fun _ => rfl) (fun _ => hs) (.of_mem fun _ hx => hx)
  | @accepted fd k rest hr hb hf =>
    refine h.frame he' ho (fun k => (counts_of_cons s k rfl ⟨rfl, rfl⟩).1)
      (fun k => (counts_of_cons s k rfl ⟨rfl, rfl⟩).2) (fun _ => hr) fun x hx => ?_
    rcases List.mem_append.1 hx with hx | hx
    · exact Or.inl ⟨x, hx, rfl, rfl⟩
    · obtain rfl := List.mem_singleton.1 hx
      exact Or.inr ⟨rfl, k, by rw [hb]; exact List.mem_cons_self .., update_self ..⟩
  | @answered ans pc i c buf r hw hbuf hr hpc =>
    refine h.frame he' ho (fun k => respond_forks _ k _ _) (fun k => ?_) (fun _ => hw.running)
      (.of_set { c with buf := buf } hw.get rfl rfl rfl)
    show (Sys.respond _ _ _).statuses k = _
    rw [respond_statuses]
    simp [hr]
    rfl
  | @starved ans pc i c buf fds hw hbuf hq hfds hpc =>
    exact h.frame he' ho (fun _ => rfl) (fun _ => rfl) (fun _ => hw.running)
      (.of_set { c with buf := buf, first := false, fds := fds } hw.get rfl rfl rfl)
  | @received ans pc i c buf k conn bytes files queue hw hfirst ht hpc =>
    exact h.frame he' ho (fun _ => rfl) (fun _ => rfl) (fun _ => hw.running)
      (.of_set { c with buf := buf } hw.get rfl rfl rfl)
  | @installed fds pc i c buf k conn bytes files queue hw hread hfirst ht hlen hnd hfree hpc =>
    exact h.frame he' ho (fun k => openAll_forks _ k _) (fun k => openAll_statuses _ k _) (fun _ => hw.running)
      (.of_set { c with buf := buf, first := false, fds := fds } hw.get (by simp) rfl rfl)
  | @rejected ans pc i c r hw hr hrej hpc =>
    refine h.frame he' ho (fun k => ?_) (fun k => ?_) (fun _ => hw.running)
      (.of_mem fun x hx => List.mem_of_mem_eraseIdx hx)
    · exact (leave_forks _ k i c.fd).trans (respond_forks _ k _ _)
    · refine (leave_statuses _ k i c.fd).trans ?_
      rw [respond_statuses]
      simp [hr]
  | @forked pc i c buf fields pid hw hbuf hreq hpid hpc =>
    have hset : (((s.setClient i { c with buf := buf }).fork i { c with buf := buf } fields pid).goto pc).clients =
        s.clients.set i { c with buf := buf, fds := [], pid := some pid } := by
      simp only [goto_clients, fork_clients, setClient_clients, List.set_set]
    exact h.forked he' ho hw.get hw.running hw.idle (fun k => fork_forks _ k i _ fields pid)
      (fun k => fork_statuses _ k i _ fields pid) hset rfl nofun
  | @buried ans pc i c pid st hw hpc =>
    refine h.frame he' ho (fun k => ?_) (fun k => ?_) (fun _ => hw.running) (.of_mem fun x hx => ?_)
    · exact (leave_forks _ k i c.fd).trans (killChild_forks s k pid st)
    · exact (leave_statuses _ k i c.fd).trans (killChild_statuses s k pid st)
    · simp only [goto_clients, leave_clients, killChild_clients] at hx
      exact List.mem_of_mem_eraseIdx hx
  | @reaped ans i c pid kid st hpc hw hkid =>
    refine h.answered he' ho hw.get (by simp [hw.busy]) (fun k => ?_) (fun k => ?_) (fun _ => hw.running)
      fun x hx => Or.inl hx
    · simp [dismiss_eq]
    · rw [dismiss_eq, leave_statuses, respond_statuses]
      simp [Reply.isStatus]
      rfl
  | @lost ans i c pid hpc hw hkid =>
    obtain ⟨kid, hkid', -⟩ := hp.owner c hw.mem pid hw.busy
    rw [hkid] at hkid'
    cases hkid'
  | passedBy hs hc hnone => exact h.frame he' ho (fun _ => rfl) (fun _ => rfl) nofun (.of_mem fun _ hx => hx)
  | returned hs hc => exact h.frame he' ho (fun _ => rfl) (fun _ => rfl) nofun (.of_mem fun _ hx => hx)
  | @takenDown ans i c pid st hpc hc hbusy =>
    obtain ⟨kid, hkid, -⟩ := hp.owner c (List.mem_of_getElem? hc) pid hbusy
    have hstop : (s.takeDown i c pid st).pc.stopping = true := by rw [takeDown_pc]; rfl
    refine h.answered he' ho hc (by simp [hbusy]) (fun k => ?_) (fun k => ?_) (fun hs => ?_) fun x hx => ?_
    · rw [takeDown_of_some s i c st hkid]
      exact respond_forks _ k _ _
    · rw [takeDown_of_some s i c st hkid]
      refine (respond_statuses _ k _ _).trans ?_
      simp [Reply.isStatus]
      rfl
    · rw [hstop] at hs
      cases hs
    · rw [takeDown_clients] at hx
      rcases mem_set_or_mem_eraseIdx hc hx with rfl | hx
      · exact Or.inr ⟨rfl, rfl, hstop⟩
      · exact Or.inl hx

theorem tallied_of_reach {G : Sys → Act → Prop} (h : Reach (step boot alloc) G {} s) : s.Tallied := by
  have init : Sys.Tallied {} := ⟨fun _ _ => ⟨rfl, rfl⟩, nofun, nofun, fun _ => ⟨Nat.le_refl _, Nat.zero_le _⟩⟩
  refine effect_invariant h init fun s a t hreach hi _ he => ?_
  exact he.tallied (owned_of_reach hreach) (parented_of_reach hreach) hi

/-! ### What is logged -/

/-- What a step may add to the log. -/
inductive NewEvent (alloc : Nat → Bool) (s : Sys) (a : Act) (t : Sys) : Event → Prop
  | opened {fd : Fd} {file : File} : NewEvent alloc s a t (.opened fd file)
  | closed {fd : Fd} {file : Option File} : NewEvent alloc s a t (.closed fd file)
  | reply {dst : Option File} {r : Reply} (hr : r.isStatus = false) : NewEvent alloc s a t (.reply dst r)
  | fork {pid : Pid} {c : DaemonClient} {op : Str} {fields : List Bytes} {buf : Bytes}
      (ha : a = .daemon (.forked pid)) (hrun : s.pc.stopping = false) (hc : c ∈ s.clients) (hidle : c.pid = none)
      (hbuf : c.buf ≠ []) (hfinds : s.Finds alloc c (.done op fields buf)) (hop : opOf op = .request) :
      NewEvent alloc s a t (.fork pid (s.fdt c.fd) c.fds c.fd fields.length s.fdt)
  | kill {pid : Pid} {kid : Kid} (hkid : s.kids pid = some kid) : NewEvent alloc s a t (.kill pid (some kid))
  | reap {pid : Pid} {kid : Kid} {st : Status} (hkid : s.kids pid = some kid) : NewEvent alloc s a t (.reap pid kid st)
  | status {pid : Pid} {kid : Kid} {st : Status} (hreap : .reap pid kid st ∈ t.log) :
      NewEvent alloc s a t (.reply kid.owner (.status (waitStatusCode st)))

theorem Effect.log_inv (he : Effect boot alloc s a t) (hp : s.Parented) {e : Event} (h : e ∈ t.log) :
    e ∈ s.log ∨ NewEvent alloc s a t e := by
  cases he with
  | connect | send | hangup | exit | signal | quiet | passedBy | returned | starved | received => exact Or.inl h
  | accepted hr hb hf =>
    rcases List.mem_cons.1 h with rfl | h
    · exact Or.inr .opened
    · exact Or.inl h
  | answered hw hbuf hr hpc =>
    rcases List.mem_cons.1 h with rfl | h
    · exact Or.inr (.reply hr)
    · exact Or.inl h
  | installed hw hread hfirst ht hlen hnd hfree hpc =>
    rcases mem_openAll_log.1 h with h | ⟨x, -, rfl⟩
    · exact Or.inl h
    · exact Or.inr .opened
  | rejected hw hr hrej hpc =>
    rcases List.mem_cons.1 h with rfl | h
    · exact Or.inr .closed
    · rcases List.mem_cons.1 h with rfl | h
      · exact Or.inr (.reply hr)
      · exact Or.inl h
  | @forked pc i c buf fields pid hw hbuf hreq hpid hpc =>
    rcases mem_closeAll_log h with h | ⟨fd, file, rfl⟩
    · rcases List.mem_cons.1 h with rfl | h
      · obtain ⟨op, hfinds, hop⟩ := hreq
        exact Or.inr (.fork (c := c) rfl hw.running hw.mem hw.idle hbuf hfinds hop)
      · exact Or.inl h
    · exact Or.inr .closed
  | @buried ans pc i c pid st hw hpc =>
    obtain ⟨kid, hkid, -⟩ := hp.owner c hw.mem pid hw.busy
    rw [killChild_of_some hkid] at h
    rcases List.mem_cons.1 h with rfl | h
    · exact Or.inr .closed
    · rcases List.mem_cons.1 h with rfl | h
      · exact Or.inr (.reap hkid)
      · rcases List.mem_cons.1 h with rfl | h
        · exact Or.inr (.kill hkid)
        · exact Or.inl h
  | @reaped ans i c pid kid st hpc hw hkid =>
    obtain ⟨kid', hkid', howner⟩ := hp.owner c hw.mem pid hw.busy
    rw [hkid] at hkid'
    cases hkid'
    rcases List.mem_cons.1 h with rfl | h
    · exact Or.inr .closed
    · rcases List.mem_cons.1 h with rfl | h
      · right
        have hreap : .reap pid kid st ∈ ((s.reaped pid kid st).dismiss i c.fd (.status (waitStatusCode st))).log :=
          List.mem_cons_of_mem _ (List.mem_cons_of_mem _ (List.mem_cons_self ..))
        have := @NewEvent.status alloc s (.daemon ans) _ _ _ _ hreap
        rwa [howner] at this
      · rcases List.mem_cons.1 h with rfl | h
        · exact Or.inr (.reap hkid)
        · exact Or.inl h
  | @lost ans i c pid hpc hw hkid =>
    obtain ⟨kid, hkid', -⟩ := hp.owner c hw.mem pid hw.busy
    rw [hkid] at hkid'
    cases hkid'
  | @takenDown ans i c pid st hpc hc hbusy =>
    obtain ⟨kid, hkid, howner⟩ := hp.owner c (List.mem_of_getElem? hc) pid hbusy
    have hreap : .reap pid kid (kid.status.getD st) ∈ (s.takeDown i c pid st).log := by
      rw [takeDown_of_some s i c st hkid]
      exact List.mem_cons_of_mem _ (List.mem_cons_self ..)
    rw [takeDown_of_some s i c st hkid] at h
    rcases List.mem_cons.1 h with rfl | h
    · right
      have := @NewEvent.status alloc s (.daemon ans) _ _ _ _ hreap
      rwa [howner] at this
    · rcases List.mem_cons.1 h with rfl | h
      · exact Or.inr (.reap hkid)
      · rcases List.mem_cons.1 h with rfl | h
        · exact Or.inr (.kill hkid)
        · exact Or.inl h

private theorem Effect.log_mono (he : Effect boot alloc s a t) {e : Event} (h : e ∈ s.log) : e ∈ t.log := by
  cases he with
  | connect | send | hangup | exit | signal | quiet | passedBy | returned | starved | received => exact h
  | accepted | answered => exact List.mem_cons_of_mem _ h
  | installed => exact mem_openAll_log.2 (Or.inl h)
  | rejected | lost => exact List.mem_cons_of_mem _ (List.mem_cons_of_mem _ h)
  | reaped => exact List.mem_cons_of_mem _ (List.mem_cons_of_mem _ (List.mem_cons_of_mem _ h))
  | forked => exact mem_log_closeAll (List.mem_cons_of_mem _ h)
  | buried =>
    refine List.mem_cons_of_mem _ ?_
    unfold Sys.killChild
    dsimp only
    split
    · exact List.mem_cons_of_mem _ h
    · exact List.mem_cons_of_mem _ (List.mem_cons_of_mem _ h)
  | @takenDown ans i c pid st hpc hc hbusy =>
    cases hkid : s.kids pid with
    | none =>
      rw [takeDown_of_none s i c st hkid]
      exact List.mem_cons_of_mem _ h
    | some kid =>
      rw [takeDown_of_some s i c st hkid]
      exact List.mem_cons_of_mem _ (List.mem_cons_of_mem _ (List.mem_cons_of_mem _ h))

/-- What the log says of the children. -/
structure Sys.Attributed (s : Sys) : Prop where
  kids : ∀ pid kid, s.kids pid = some kid → s.ForkedFor pid kid.owner
  reaped : ∀ pid kid st, Event.reap pid kid st ∈ s.log → s.ForkedFor pid kid.owner
  kills : ∀ pid kid, Event.kill pid kid ∈ s.log → kid.isSome
  statuses : ∀ dst code, Event.reply dst (.status code) ∈ s.log →
    ∃ pid kid st, Event.reap pid kid st ∈ s.log ∧ kid.owner = dst ∧ code = waitStatusCode st

theorem Effect.attributed (he : Effect boot alloc s a t) (hp : s.Parented) (h : s.Attributed) : t.Attributed := by
  have hfork : ∀ {pid owner}, s.ForkedFor pid owner → t.ForkedFor pid owner := by
    rintro pid owner ⟨fds, fd, n, tab, hm⟩
    exact ⟨fds, fd, n, tab, he.log_mono hm⟩
  refine ⟨fun pid kid hkid => ?_, fun pid kid st hm => ?_, fun pid kid hm => ?_, fun dst code hm => ?_⟩
  · rcases he.kid_inv hkid with ⟨kid', hkid', howner⟩ | ⟨-, hnew⟩
    · rw [← howner]
      exact hfork (h.kids pid kid' hkid')
    · exact hnew
  · rcases he.log_inv hp hm with hm | hnew
    · exact hfork (h.reaped pid kid st hm)
    · cases hnew with
      | reap hkid => exact hfork (h.kids pid kid hkid)
  · rcases he.log_inv hp hm with hm | hnew
    · exact h.kills pid kid hm
    · cases hnew
      rfl
  · rcases he.log_inv hp hm with hm | hnew
    · obtain ⟨pid, kid, st, hreap, hown, hcode⟩ := h.statuses dst code hm
      exact ⟨pid, kid, st, he.log_mono hreap, hown, hcode⟩
    · cases hnew with
      | reply hr => cases hr
      | status hreap => exact ⟨_, _, _, hreap, rfl, rfl⟩

private theorem attributed_of_reach {G : Sys → Act → Prop} (h : Reach (step boot alloc) G {} s) : s.Attributed := by
  refine effect_invariant h ⟨nofun, nofun, nofun, nofun⟩ fun s a t hreach hi _ he => ?_
  exact he.attributed (parented_of_reach hreach) hi

/-! ### After `daemon_shutdown` -/

/-- `daemon_shutdown` leaves no child behind it. -/
structure Sys.Emptied (s : Sys) : Prop where
  passed : ∀ i, s.pc = .shutdown i → ∀ j < i, ∀ c, s.clients[j]? = some c → c.pid = none
  all : s.pc = .returned → ∀ c ∈ s.clients, c.pid = none

private theorem Sys.Emptied.of_not_stopping (h : s.pc.stopping = false) : s.Emptied := by
  refine ⟨fun i hi => ?_, fun hr => ?_⟩
  · rw [hi] at h
    cases h
  · rw [hr] at h
    cases h

private theorem Sys.Emptied.of_start (h : s.pc = .shutdown 0) : s.Emptied := by
  refine ⟨fun i hi j hj => ?_, fun hr => ?_⟩
  · rw [h] at hi
    cases hi
    exact absurd hj (Nat.not_lt_zero j)
  · rw [h] at hr
    cases hr

theorem Pc.passes.not_stopping {pc : Pc} (h : pc.passes) : pc.stopping = false := by
  obtain ⟨pfds, i, rfl⟩ := h
  rfl

theorem Effect.emptied (he : Effect boot alloc s a t) (h : s.Emptied) : t.Emptied := by
  cases he with
  | connect | send | hangup | exit | signal => exact ⟨h.passed, h.all⟩
  | @quiet ans pc hs hpc =>
    cases hstop : pc.stopping with
    | false => exact .of_not_stopping hstop
    | true => exact .of_start (hpc hstop)
  | accepted hr => exact .of_not_stopping hr
  | answered hw hbuf hr hpc =>
    rcases hpc with hpc | hpc
    · exact .of_not_stopping hpc.not_stopping
    · exact .of_start hpc
  | starved hw hbuf hq hfds hpc => exact .of_not_stopping hpc.not_stopping
  | received hw hfirst ht hpc => exact .of_not_stopping hpc.not_stopping
  | installed hw hread hfirst ht hlen hnd hfree hpc => exact .of_not_stopping hpc.not_stopping
  | rejected hw hr hrej hpc => exact .of_not_stopping hpc.not_stopping
  | forked hw hbuf hreq hpid hpc => exact .of_not_stopping hpc.not_stopping
  | buried hw hpc => exact .of_not_stopping hpc.not_stopping
  | reaped hs hw => exact .of_not_stopping hw.running
  | lost hs hw => exact .of_not_stopping hw.running
  | @passedBy ans i c hs hc hp =>
    refine ⟨fun i' hi' j hj x hx => ?_, nofun⟩
    cases hi'
    rcases Nat.lt_succ_iff_lt_or_eq.1 hj with hj | rfl
    · exact h.passed i hs j hj x hx
    · have hx : s.clients[j]? = some x := hx
      rw [hc] at hx
      cases hx
      exact hp
  | @takenDown ans i c pid st hs hc hp =>
    refine ⟨fun i' hi' j hj x hx => ?_, fun hr => ?_⟩
    · rw [takeDown_pc] at hi'
      cases hi'
      rw [takeDown_clients] at hx
      rcases Nat.lt_succ_iff_lt_or_eq.1 hj with hj | rfl
      · rw [List.getElem?_set_ne (Nat.ne_of_gt hj)] at hx
        exact h.passed i hs j hj x hx
      · rw [getElem?_set_of_get hc] at hx
        cases hx
        rfl
    · rw [takeDown_pc] at hr
      cases hr
  | @returned ans i hs hc =>
    refine ⟨nofun, fun _ c hmem => ?_⟩
    obtain ⟨j, hj⟩ := List.mem_iff_getElem?.1 hmem
    have hlt : j < i := Nat.lt_of_lt_of_le (List.getElem?_eq_some_iff.1 hj).1 (List.getElem?_eq_none_iff.1 hc)
    exact h.passed i hs j hlt c hj

private theorem emptied_of_reach {G : Sys → Act → Prop} (h : Reach (step boot alloc) G {} s) : s.Emptied :=
  effect_invariant h (.of_not_stopping rfl) fun _ _ _ _ hi _ he => he.emptied hi

/-! ### Attribution -/

/-- Every child that is not reaped is the child of exactly one entry; only such children are signalled; a connection
gets at most one STATUS line, and that carries the status of a child forked for it; the answer to a failed `waitpid`
is never given; and `daemon_shutdown` leaves no child. -/
structure Sys.ChildrenAttributed (s : Sys) : Prop where
  covers : Covers s.kids s.pids
  kills : ∀ pid kid, Event.kill pid kid ∈ s.log → kid.isSome
  once : ∀ k, s.statuses k ≤ s.forks k ∧ s.forks k ≤ 1
  statuses : ∀ dst code, Event.reply dst (.status code) ∈ s.log →
    ∃ pid kid st, Event.reap pid kid st ∈ s.log ∧ s.ForkedFor pid dst ∧ kid.owner = dst ∧ code = waitStatusCode st
  waits : ∀ i c pid, s.pc = .reap i → s.clients[i]? = some c → c.pid = some pid → s.waitpid pid ≠ .failed
  emptied : s.pc = .returned → ∀ pid, s.kids pid = none

/-- Children and STATUS lines, in every state of every run. -/
theorem children_attributed (h : Reach (step boot alloc) Free {} s) : s.ChildrenAttributed := by
  have hp := parented_of_reach h
  have hat := attributed_of_reach h
  refine ⟨hp.covers, hat.kills, (tallied_of_reach h).most, fun dst code hm => ?_, fun i c pid _ hc hpid hw => ?_,
    fun hr pid => ?_⟩
  · obtain ⟨pid, kid, st, hreap, rfl, hcode⟩ := hat.statuses dst code hm
    exact ⟨pid, kid, st, hreap, hat.reaped pid kid st hreap, rfl, hcode⟩
  · obtain ⟨kid, hkid, -⟩ := hp.owner c (List.mem_of_getElem? hc) pid hpid
    simp only [Sys.waitpid, hkid] at hw
    split at hw <;> cases hw
  · by_contra hkid
    have hmem : pid ∈ s.pids := (hp.covers.mem_iff pid).2 (Option.isSome_iff_ne_none.2 hkid)
    obtain ⟨c, hc, hpid⟩ := List.mem_flatMap.1 hmem
    rw [(emptied_of_reach h).all hr c hc] at hpid
    cases hpid

/-- A client whose child has ended with status 3 is answered and gone. -/
theorem children_attributed_run :
    ∃ s, Reach (step bareBoot fun _ => true) Free {} s ∧ s.statuses 0 = 1 ∧ s.clients = [] ∧ s.ChildrenAttributed := by
  have hrun : (exec (step bareBoot fun _ => true) {}
      (oneClient "RUN 3\r\n$0\r\n$0\r\n$0\r\n" (by decide) ++
        [.daemon (.forked 50), .exit 50 768, .daemon .go, .daemon .go])).any
      (fun s => s.statuses 0 = 1 ∧ s.clients = []) = true := by
    decide
  obtain ⟨s, hs, hstat⟩ := Reach.of_any hrun
  obtain ⟨hone, hgone⟩ := of_decide_eq_true hstat
  exact ⟨s, hs, hone, hgone, children_attributed hs⟩

end Calisto

import Calisto.Daemon.Owners

/-!
# Descriptor accounting

What the daemon holds beyond the descriptors open before its loop, and what it has closed.  An entry removed because
of `Bad`, `Eof`, an unknown command or a failed `fork` has only its connection closed: the received `fds` it still had
are lost.  In the runs without such a removal the descriptors open are those of the entries, and every descriptor ever
opened has been closed once or is held by an entry.
-/

namespace Calisto

open Function Handles Machine

variable {boot : Boot} {alloc : Nat → Bool} {s t : Sys} {a : Act}

/-! ### Opened and closed -/

def Event.opens (fd : Fd) : Event → Bool
  | .opened fd' _ => fd' = fd
  | _ => false

def Event.closes (fd : Fd) : Event → Bool
  | .closed fd' _ => fd' = fd
  | _ => false

/-- How often the number `fd` was given to a new descriptor. -/
def Sys.opens (s : Sys) (fd : Fd) : Nat := s.log.countP (Event.opens fd)

/-- How often `fd` was closed. -/
def Sys.closes (s : Sys) (fd : Fd) : Nat := s.log.countP (Event.closes fd)

/-- `close` was called on open descriptors only, and each opening but the present one has its `close`. -/
structure Sys.Balanced (s : Sys) : Prop where
  closed_open : ∀ fd file, Event.closed fd file ∈ s.log → file.isSome
  count : ∀ fd, s.opens fd = s.closes fd + if (s.fdt fd).isSome then 1 else 0

/-- The rest of the log does not matter. -/
theorem Sys.Balanced.congr (h : s.Balanced) (new : List Event) (hfdt : t.fdt = s.fdt) (hlog : t.log = new ++ s.log)
    (hopens : ∀ fd, ∀ e ∈ new, ¬e.opens fd) (hcloses : ∀ fd, ∀ e ∈ new, ¬e.closes fd) : t.Balanced := by
  refine ⟨fun fd file hm => ?_, fun fd => ?_⟩
  · rw [hlog] at hm
    rcases List.mem_append.1 hm with hm | hm
    · exact absurd (by simp [Event.closes]) (hcloses fd _ hm)
    · exact h.closed_open fd file hm
  · have ho : new.countP (Event.opens fd) = 0 := List.countP_eq_zero.2 (hopens fd)
    have hc : new.countP (Event.closes fd) = 0 := List.countP_eq_zero.2 (hcloses fd)
    have := h.count fd
    simp only [Sys.opens, Sys.closes, hlog, hfdt, List.countP_append, ho, hc] at this ⊢
    omega

theorem Sys.Balanced.openFd (h : s.Balanced) {fd : Fd} (hfree : s.fdt fd = none) (file : File) :
    (s.openFd fd file).Balanced := by
  refine ⟨fun fd' file' hm => ?_, fun fd' => ?_⟩
  · rcases List.mem_cons.1 hm with hm | hm
    · simp at hm
    · exact h.closed_open fd' file' hm
  · have := h.count fd'
    by_cases heq : fd' = fd
    · subst heq
      simp only [hfree, Option.isSome_none] at this
      simp [Sys.opens, Sys.closes, Sys.openFd, Event.opens, Event.closes] at this ⊢
      omega
    · have hne : fd ≠ fd' := fun h => heq h.symm
      simpa [Sys.opens, Sys.closes, Sys.openFd, Event.opens, Event.closes, heq, hne] using this

theorem Sys.Balanced.close (h : s.Balanced) {fd : Fd} (hopen : (s.fdt fd).isSome) : (s.close fd).Balanced := by
  refine ⟨fun fd' file' hm => ?_, fun fd' => ?_⟩
  · rcases List.mem_cons.1 hm with hm | hm
    · cases hm
      exact hopen
    · exact h.closed_open fd' file' hm
  · have := h.count fd'
    by_cases heq : fd' = fd
    · subst heq
      simp only [hopen, ↓reduceIte] at this
      simp [Sys.opens, Sys.closes, Sys.close, Event.opens, Event.closes] at this ⊢
      omega
    · have hne : fd ≠ fd' := fun h => heq h.symm
      simpa [Sys.opens, Sys.closes, Sys.close, Event.opens, Event.closes, heq, hne] using this

theorem Sys.Balanced.openAll {new : List (Fd × File)} (h : s.Balanced) (hnd : (new.map Prod.fst).Nodup)
    (hfree : ∀ fd ∈ new.map Prod.fst, s.fdt fd = none) : (s.openAll new).Balanced := by
  induction new generalizing s with
  | nil => exact h
  | cons x new ih =>
    obtain ⟨hx, hnd'⟩ := List.nodup_cons.1 hnd
    refine ih (h.openFd (hfree x.1 (List.mem_cons_self ..)) x.2) hnd' fun fd hfd => ?_
    have hne : fd ≠ x.1 := fun heq => hx (heq ▸ hfd)
    show update s.fdt x.1 _ fd = none
    rw [update_of_ne hne]
    exact hfree fd (List.mem_cons_of_mem _ hfd)

theorem Sys.Balanced.closeAll {fds : List Fd} (h : s.Balanced) (hnd : fds.Nodup)
    (hopen : ∀ fd ∈ fds, (s.fdt fd).isSome) : (s.closeAll fds).Balanced := by
  induction fds generalizing s with
  | nil => exact h
  | cons x fds ih =>
    obtain ⟨hx, hnd'⟩ := List.nodup_cons.1 hnd
    refine ih (h.close (hopen x (List.mem_cons_self ..))) hnd' fun fd hfd => ?_
    have hne : fd ≠ x := fun heq => hx (heq ▸ hfd)
    show (update s.fdt x none fd).isSome
    rw [update_of_ne hne]
    exact hopen fd (List.mem_cons_of_mem _ hfd)

private theorem Sys.Owned.fds_nodup (h : s.Owned boot) {c : DaemonClient} (hc : c ∈ s.clients) : c.fds.Nodup := by
  obtain ⟨lost, hcov⟩ := h.covers
  have hheld : s.held.Nodup := (List.nodup_append.1 hcov.nodup).1
  exact (List.nodup_cons.1 ((List.nodup_flatMap.1 hheld).1 c hc)).2

theorem Sys.Balanced.respond (h : s.Balanced) (fd : Fd) (r : Reply) : (s.respond fd r).Balanced :=
  h.congr [.reply (s.fdt fd) r] rfl rfl (by simp [Event.opens]) (by simp [Event.closes])

theorem Sys.Balanced.killChild (h : s.Balanced) (pid : Pid) (st : Status) : (s.killChild pid st).1.Balanced := by
  cases hkid : s.kids pid with
  | none =>
    have hk : (s.killChild pid st).1 = { s with log := .kill pid none :: s.log } := by simp [Sys.killChild, hkid]
    rw [hk]
    exact h.congr [.kill pid none] rfl rfl (by simp [Event.opens]) (by simp [Event.closes])
  | some kid =>
    rw [killChild_of_some hkid]
    exact h.congr [.reap pid kid (kid.status.getD st), .kill pid (some kid)] rfl rfl (by simp [Event.opens])
      (by simp [Event.closes])

theorem Sys.Balanced.dismiss (h : s.Balanced) {fd : Fd} (hopen : (s.fdt fd).isSome) (i : Nat) (r : Reply) :
    (s.dismiss i fd r).Balanced := by
  have hr : (s.respond fd r).Balanced := h.respond fd r
  have hc : ((s.respond fd r).close fd).Balanced := hr.close hopen
  exact ⟨hc.closed_open, hc.count⟩

theorem Sys.Balanced.fork (h : s.Balanced) {c : DaemonClient} (hnd : c.fds.Nodup)
    (hopen : ∀ fd ∈ c.fds, (s.fdt fd).isSome) (i : Nat) (fields : List Bytes) (pid : Pid) :
    (s.fork i c fields pid).Balanced := by
  have hf : Sys.Balanced { s with
      kids := update s.kids pid (some { owner := s.fdt c.fd })
      log := .fork pid (s.fdt c.fd) c.fds c.fd fields.length s.fdt :: s.log } :=
    h.congr [.fork pid (s.fdt c.fd) c.fds c.fd fields.length s.fdt] rfl rfl (by simp [Event.opens])
      (by simp [Event.closes])
  have hc := hf.closeAll hnd hopen
  exact ⟨hc.closed_open, hc.count⟩

private theorem Effect.balanced (he : Effect boot alloc s a t) (ho : s.Owned boot) (h : s.Balanced) : t.Balanced := by
  cases he with
  | connect | send | hangup | exit | signal | quiet | passedBy | returned | starved | received =>
    exact ⟨h.closed_open, h.count⟩
  | @accepted fd k rest hr hb hf =>
    have := h.openFd hf.1 (.conn k)
    exact ⟨this.closed_open, this.count⟩
  | @answered ans pc i c buf r hw hbuf hr hpc =>
    have := h.respond c.fd r
    exact ⟨this.closed_open, this.count⟩
  | @installed fds pc i c buf k conn bytes files queue hw hread hfirst ht hlen hnd hfree hpc =>
    have hkeys : (fds.zip (files.map File.passed)).map Prod.fst = fds := List.map_fst_zip (by simpa using hlen)
    have hq : (s.setQueue k conn queue).Balanced := ⟨h.closed_open, h.count⟩
    have := hq.openAll (by rw [hkeys]; exact hnd) (by rw [hkeys]; exact fun fd hfd => (hfree fd hfd).1)
    exact ⟨this.closed_open, this.count⟩
  | @rejected ans pc i c r hw hr hrej hpc =>
    have := h.dismiss (ho.isSome (fd_mem_held hw.mem)) i r
    exact ⟨this.closed_open, this.count⟩
  | @forked pc i c buf fields pid hw hbuf hreq hpid hpc =>
    have hset : (s.setClient i { c with buf := buf }).Balanced := ⟨h.closed_open, h.count⟩
    have hopen : ∀ fd ∈ c.fds, (s.fdt fd).isSome := fun fd hfd =>
      ho.isSome (mem_held hw.mem (List.mem_cons_of_mem _ hfd))
    have hnd : c.fds.Nodup := ho.fds_nodup hw.mem
    have := hset.fork (c := { c with buf := buf }) hnd hopen i fields pid
    exact ⟨this.closed_open, this.count⟩
  | @buried ans pc i c pid st hw hpc =>
    have hk := h.killChild pid st
    have hopen : ((s.killChild pid st).1.fdt c.fd).isSome := by
      rw [killChild_fdt]
      exact ho.isSome (fd_mem_held hw.mem)
    have := hk.close hopen
    exact ⟨this.closed_open, this.count⟩
  | @reaped ans i c pid kid st hpc hw hkid =>
    have hr : (s.reaped pid kid st).Balanced :=
      h.congr [.reap pid kid st] rfl rfl (by simp [Event.opens]) (by simp [Event.closes])
    exact hr.dismiss (ho.isSome (fd_mem_held hw.mem)) i _
  | lost hpc hw hkid => exact h.dismiss (ho.isSome (fd_mem_held hw.mem)) _ _
  | @takenDown ans i c pid st hpc hc hp =>
    have hset : (s.setClient i { c with pid := none }).Balanced := ⟨h.closed_open, h.count⟩
    have hk := hset.killChild pid st
    unfold Sys.takeDown
    split
    · rename_i s' status heq
      rw [heq] at hk
      have := hk.respond c.fd (.status (waitStatusCode status))
      exact ⟨this.closed_open, this.count⟩
    · rename_i s' heq
      rw [heq] at hk
      exact ⟨hk.closed_open, hk.count⟩

/-- In every run: no `close` misses, and no descriptor is closed more often than it was opened. -/
theorem balanced_of_reach {G : Sys → Act → Prop} (h : Reach (step boot alloc) G {} s) : s.Balanced := by
  refine effect_invariant h ⟨nofun, fun _ => rfl⟩ fun s a t hreach hi _ he => ?_
  exact he.balanced (owned_of_reach hreach) hi

/-! ### Runs without a rejected client that still has `fds` -/

/-- No entry with undrained `fds` is removed because of `Bad`, `Eof`, an unknown command or a failed `fork`. -/
def RejectedDrained (alloc : Nat → Bool) (s : Sys) : Act → Prop
  | .daemon ans => ∀ c ∈ s.rejected alloc ans, c.fds = []
  | _ => True

instance (s : Sys) (a : Act) : Decidable (RejectedDrained alloc s a) := by
  cases a <;> unfold RejectedDrained <;> infer_instance

/-- The descriptors that the daemon holds are one connection for each entry and the files in its `fds`, and every
descriptor is closed exactly once between its opening and the moment when no entry holds it any more. -/
structure Sys.Accounted (s : Sys) : Prop where
  held : Covers s.fdt s.held
  control : ∀ c ∈ s.clients, ∃ k, s.fdt c.fd = some (.conn k)
  stdio : ∀ c ∈ s.clients, ∀ fd ∈ c.fds, ∃ d, s.fdt fd = some (.passed d)
  closed_open : ∀ fd file, Event.closed fd file ∈ s.log → file.isSome
  once : ∀ fd, s.opens fd = s.closes fd + if fd ∈ s.held then 1 else 0

theorem covers_held (h : Reach (step boot alloc) (RejectedDrained alloc) {} s) : Covers s.fdt s.held := by
  refine effect_invariant (I := fun s => Covers s.fdt s.held) h covers_nil fun s a t hreach hi hg he => ?_
  have hs := owned_of_reach hreach
  have hcov : Covers s.fdt (s.held ++ []) := by rwa [List.append_nil]
  obtain ⟨lost, hcov', rfl | ⟨ans, c, rfl, hrej, rfl⟩⟩ := he.covers hs.shape hcov
  · rwa [List.append_nil] at hcov'
  · have hnone : c.fds = [] := hg c hrej
    rwa [hnone, List.append_nil, List.append_nil] at hcov'

theorem descriptors_accounted (h : Reach (step boot alloc) (RejectedDrained alloc) {} s) : s.Accounted := by
  have ho := owned_of_reach h
  have hb := balanced_of_reach h
  have hcov := covers_held h
  refine ⟨hcov, ho.control, ho.stdio, hb.closed_open, fun fd => ?_⟩
  rw [hb.count fd]
  simp only [hcov.mem_iff fd]

theorem descriptors_accounted_ping :
    ∃ s, Reach (step bareBoot fun _ => true) (RejectedDrained fun _ => true) {} s ∧ s.held = [4, 10, 11, 12] ∧
      s.Accounted := by
  have hrun : (exec (guarded (step bareBoot fun _ => true) (RejectedDrained fun _ => true)) {}
      (oneClient "PING 0\r\n" (by decide) ++ [.daemon .go])).any (fun s => s.held = [4, 10, 11, 12]) = true := by
    decide
  obtain ⟨s, hs, hheld⟩ := Reach.of_any_guarded hrun
  exact ⟨s, hs, by simpa using hheld, descriptors_accounted hs⟩

/-- A client whose head line is bad leaves its stdio open in the daemon. -/
theorem bad_head_leaks : ¬∀ s, Reach (step bareBoot fun _ => true) Free {} s → s.pc = .top → s.Accounted := by
  intro h
  have hrun : (exec (step bareBoot fun _ => true) {} (oneClient "X\r\n" (by decide) ++
      [.daemon .go, .daemon .go, .daemon .go])).any
      (fun s => s.pc = .top ∧ (s.fdt 10).isSome ∧ s.held = []) = true := by
    decide
  obtain ⟨s, hs, hleak⟩ := Reach.of_any hrun
  obtain ⟨htop, hopen, hheld⟩ := of_decide_eq_true hleak
  have hmem : 10 ∈ s.held := ((h s hs htop).held.mem_iff 10).2 hopen
  rw [hheld] at hmem
  cases hmem

end Calisto

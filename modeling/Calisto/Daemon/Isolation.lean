import Calisto.Daemon.Descriptors
import Calisto.Daemon.Stdio

/-!
# Child isolation

`child_main` closes `control_fd` and the listener, and nothing else: whatever the daemon has open besides is open in
the child as well, the connections of the other clients and the files received from them included.  The child of a
fork is isolated exactly when the client it is for is the only one, and nothing of a rejected client is left open.
-/

namespace Calisto

open Function Handles Machine

variable {boot : Boot} {alloc : Nat → Bool} {s t : Sys} {a : Act}

/-- The child holds neither the listener nor a connection or a received file of a client other than its own, which
has `controlFd` and `childFds`; the child's 0, 1 and 2 are copies of these. -/
structure Isolated (boot : Boot) (childFds : List Fd) (controlFd : Fd) (table : Fd → Option File) : Prop where
  listener : childMain boot table childFds controlFd boot.listenerFd = none
  conns : ∀ fd k, childMain boot table childFds controlFd fd = some (.conn k) → table controlFd = some (.conn k)
  files : ∀ fd d, childMain boot table childFds controlFd fd = some (.passed d) → fd < 3 ∨ fd ∈ childFds

/-- Every child that has come to `child_main`, for which the request needs three fields, is isolated. -/
def Sys.ChildrenIsolated (boot : Boot) (s : Sys) : Prop :=
  ∀ pid owner childFds controlFd fields table, Event.fork pid owner childFds controlFd fields table ∈ s.log →
    3 ≤ fields → Isolated boot childFds controlFd table

/-- There is one client, and the daemon holds nothing else. -/
structure Sys.Alone (s : Sys) : Prop where
  one : s.clients.length = 1
  nothingLost : ∀ fd, (s.fdt fd).isSome → fd ∈ s.held

/-- A request is forked only for a client that is alone. -/
def ForksAlone (alloc : Nat → Bool) (s : Sys) : Act → Prop
  | .daemon (.forked _) => ∀ c op fields buf, s.Finds alloc c (.done op fields buf) → 3 ≤ fields.length → s.Alone
  | _ => True

/-! ### What the child holds -/

section Child

variable {table : Fd → Option File} {childFds : List Fd} {controlFd fd : Fd} {file : File}

/-- One of the three rounds of `dup2`, for another descriptor than the one it writes. -/
theorem dupRound_of_ne {tab : Fd → Option File} {idx : Nat} (hne : fd ≠ idx) :
    (match childFds[idx]? with | some src => dup2 tab src idx | none => tab) fd = tab fd := by
  cases childFds[idx]? with
  | none => rfl
  | some src => exact dup2_of_ne hne

/-- What is inherited, or was one of the client's own, is so after a round of `dup2`. -/
theorem dupRound_inv {own : Fd → Option File} {tab : Fd → Option File}
    (htab : ∀ x f, tab x = some f → own x = some f ∨ ∃ src ∈ childFds, own src = some f) (idx : Nat) (x : Fd) (f : File)
    (hx : (match childFds[idx]? with | some src => dup2 tab src idx | none => tab) x = some f) :
    own x = some f ∨ ∃ src ∈ childFds, own src = some f := by
  cases hidx : childFds[idx]? with
  | none =>
    rw [hidx] at hx
    exact htab x f hx
  | some src =>
    rw [hidx] at hx
    have hx : dup2 tab src idx x = some f := hx
    by_cases heq : x = idx
    · subst heq
      cases hsrc : tab src with
      | none =>
        simp only [dup2, hsrc] at hx
        exact htab x f hx
      | some f' =>
        rw [dup2_self hsrc] at hx
        cases hx
        right
        rcases htab src f hsrc with hi | hi
        · exact ⟨src, List.mem_of_getElem? hidx, hi⟩
        · exact hi
    · rw [dup2_of_ne heq] at hx
      exact htab x f hx

/-- The prologue leaves a descriptor as it was inherited, except for 0, 1, 2 and the two that it closes. -/
theorem childMain_of_high (hfd : 3 ≤ fd) (hcontrol : fd ≠ controlFd) (hlisten : fd ≠ boot.listenerFd) :
    childMain boot table childFds controlFd fd = inherited boot table fd := by
  have hne : ∀ idx < 3, fd ≠ idx := fun idx hidx => Nat.ne_of_gt (Nat.lt_of_lt_of_le hidx hfd)
  unfold childMain
  rw [update_of_ne hlisten, update_of_ne hcontrol]
  have h0 := hne 0 (by decide)
  have h1 := hne 1 (by decide)
  have h2 := hne 2 (by decide)
  exact (dupRound_of_ne h2).trans ((dupRound_of_ne h1).trans (dupRound_of_ne h0))

/-- Every file of the child was inherited, under the same number or as one of the client's own. -/
theorem childMain_inv (h : childMain boot table childFds controlFd fd = some file) :
    inherited boot table fd = some file ∨ ∃ src ∈ childFds, inherited boot table src = some file := by
  have hlisten : fd ≠ boot.listenerFd := by
    rintro rfl
    simp [childMain] at h
  have hcontrol : fd ≠ controlFd := by
    rintro rfl
    simp [childMain, update_of_ne hlisten] at h
  unfold childMain at h
  rw [update_of_ne hlisten, update_of_ne hcontrol] at h
  simp only [List.foldl_cons, List.foldl_nil] at h
  exact dupRound_inv (dupRound_inv (dupRound_inv (fun x f hx => Or.inl hx) 0) 1) 2 fd file h

private theorem inherited_eq_some (h : inherited boot table fd = some file) (hfile : file ≠ .boot) :
    table fd = some file := by
  unfold inherited at h
  split at h
  · simp only [Option.some.injEq] at h
    exact absurd h.symm hfile
  · exact h

end Child

/-! ### At a fork -/

/-- What the loop opens is a connection or a received file. -/
theorem not_boot_of_reach {G : Sys → Act → Prop} (h : Reach (step boot alloc) G {} s) (fd : Fd) :
    s.fdt fd ≠ some .boot := by
  refine effect_invariant (I := fun s => ∀ fd, s.fdt fd ≠ some .boot) h nofun (fun s a t _ hi _ he fd hfd => ?_) fd
  rcases he.file_inv hfd with hold | ⟨-, ⟨k, heq, -⟩ | ⟨d, heq⟩⟩
  · exact hi fd hold
  · simp at heq
  · simp at heq

theorem Sys.Owned.high (h : s.Owned boot) {fd : Fd} (hfd : (s.fdt fd).isSome) : 3 ≤ fd ∧ fd ≠ boot.listenerFd := by
  have hbase : fd ∉ boot.base := h.base fd hfd
  constructor
  · by_contra hlt
    exact hbase (boot.stdio fd (Nat.not_le.1 hlt))
  · rintro rfl
    exact hbase boot.listener

/-- The descriptors of the daemon are open in the child, except for `control_fd`. -/
theorem Sys.Owned.childMain_eq (h : s.Owned boot) {childFds : List Fd} {controlFd fd : Fd}
    (hfd : (s.fdt fd).isSome) (hne : fd ≠ controlFd) :
    childMain boot s.fdt childFds controlFd fd = s.fdt fd := by
  obtain ⟨hhigh, hlisten⟩ := h.high hfd
  rw [childMain_of_high hhigh hne hlisten]
  unfold inherited
  rw [if_neg (h.base fd hfd)]

theorem Sys.Alone.of_isolated (ho : s.Owned boot) (hb : ∀ fd, s.fdt fd ≠ some .boot) {i : Nat} {c : DaemonClient}
    (hc : s.clients[i]? = some c) (h : Isolated boot c.fds c.fd s.fdt) : s.Alone := by
  have hmem : c ∈ s.clients := List.mem_of_getElem? hc
  have hconn : ∀ fd k, s.fdt fd = some (.conn k) → fd = c.fd := by
    intro fd k hk
    by_contra hne
    have hchild : childMain boot s.fdt c.fds c.fd fd = s.fdt fd := ho.childMain_eq (by rw [hk]; rfl) hne
    rw [hk] at hchild
    exact hne (ho.inj fd c.fd k hk (h.conns fd k hchild))
  constructor
  · -- another entry would have another connection
    have hi : i < s.clients.length := (List.getElem?_eq_some_iff.1 hc).1
    have hlen := List.length_eraseIdx_add_one hi
    have hnil : s.clients.eraseIdx i = [] := by
      rw [List.eq_nil_iff_forall_not_mem]
      intro x hx
      obtain ⟨k, hk⟩ := ho.control x (List.mem_of_mem_eraseIdx hx)
      exact ho.fd_ne hc hx (hconn x.fd k hk)
    rw [hnil] at hlen
    exact hlen.symm
  · intro fd hfd
    obtain ⟨file, hfile⟩ := Option.isSome_iff_exists.1 hfd
    cases file with
    | boot => exact absurd hfile (hb fd)
    | conn k =>
      rw [hconn fd k hfile]
      exact fd_mem_held hmem
    | passed d =>
      by_cases heq : fd = c.fd
      · rw [heq]
        exact fd_mem_held hmem
      · have hchild : childMain boot s.fdt c.fds c.fd fd = s.fdt fd := ho.childMain_eq hfd heq
        rw [hfile] at hchild
        rcases h.files fd d hchild with hlow | hown
        · exact absurd (ho.high hfd).1 (Nat.not_le.2 hlow)
        · exact mem_held hmem (List.mem_cons_of_mem _ hown)

private theorem Sys.Alone.isolated (ho : s.Owned boot) {i : Nat} {c : DaemonClient} (hc : s.clients[i]? = some c)
    (h : s.Alone) : Isolated boot c.fds c.fd s.fdt := by
  have hmem : c ∈ s.clients := List.mem_of_getElem? hc
  have hclients : s.clients = [c] := by
    obtain ⟨x, hx⟩ := List.length_eq_one_iff.1 h.one
    rw [hx] at hmem ⊢
    rw [List.mem_singleton.1 hmem]
  have hown : ∀ fd, (s.fdt fd).isSome → fd = c.fd ∨ fd ∈ c.fds := by
    intro fd hfd
    have := h.nothingLost fd hfd
    simpa [Sys.held, hclients, DaemonClient.handles] using this
  obtain ⟨k, hk⟩ := ho.control c hmem
  refine ⟨update_self .., fun fd k' hchild => ?_, fun fd d hchild => ?_⟩
  · have hsrc : ∃ src, s.fdt src = some (.conn k') := by
      rcases childMain_inv hchild with hi | ⟨src, -, hi⟩
      · exact ⟨fd, inherited_eq_some hi (by simp)⟩
      · exact ⟨src, inherited_eq_some hi (by simp)⟩
    obtain ⟨src, hsrc⟩ := hsrc
    rcases hown src (by rw [hsrc]; rfl) with rfl | hin
    · exact hsrc
    · obtain ⟨d, hd⟩ := ho.stdio c hmem src hin
      rw [hd] at hsrc
      simp at hsrc
  · by_cases hlow : fd < 3
    · exact Or.inl hlow
    · right
      have hlisten : fd ≠ boot.listenerFd := by
        rintro rfl
        simp [childMain] at hchild
      have hcontrol : fd ≠ c.fd := by
        rintro rfl
        simp [childMain, update_of_ne hlisten] at hchild
      rw [childMain_of_high (Nat.not_lt.1 hlow) hcontrol hlisten] at hchild
      have hfile := inherited_eq_some hchild (by simp)
      exact (hown fd (by rw [hfile]; rfl)).resolve_left hcontrol

/-- The child of a fork is isolated exactly when its client is alone. -/
theorem isolated_iff_alone (h : Reach (step boot alloc) Free {} s) {i : Nat} {c : DaemonClient}
    (hc : s.clients[i]? = some c) : Isolated boot c.fds c.fd s.fdt ↔ s.Alone :=
  ⟨.of_isolated (owned_of_reach h) (not_boot_of_reach h) hc, fun ha => ha.isolated (owned_of_reach h) hc⟩

/-! ### Runs -/

private theorem Sys.Finds.unique {c c' : DaemonClient} {res res' : Scan} (h : s.Finds alloc c res)
    (h' : s.Finds alloc c' res') : c = c' ∧ res = res' := by
  obtain ⟨pfds, i, r, hpc, hget, hscan⟩ := h
  obtain ⟨pfds', i', r', hpc', hget', hscan'⟩ := h'
  rw [hpc] at hpc'
  cases hpc'
  rw [hget] at hget'
  cases hget'
  exact ⟨rfl, hscan.symm.trans hscan'⟩

theorem Sys.Finds.get {c : DaemonClient} {res : Scan} (h : s.Finds alloc c res) :
    ∃ i : Nat, s.clients[i]? = some c := by
  obtain ⟨pfds, i, r, -, hget, -⟩ := h
  exact ⟨i, hget⟩

/-- The answer to `fork` is that of a read that has come to a request. -/
theorem forked_inv {pid : Pid} (h : step boot alloc s (.daemon (.forked pid)) = some t) :
    ∃ c op fields buf, s.Finds alloc c (.done op fields buf) ∧
      Event.fork pid (s.fdt c.fd) c.fds c.fd fields.length s.fdt ∈ t.log := by
  simp only [step, Sys.daemonStep] at h
  split at h
  · rcases tick_cases h with ⟨-, ha, -⟩ | ⟨_, _, ha, -⟩ | ⟨ha, -⟩ | ⟨ha, -⟩ <;> cases ha
  · rcases accept_cases h with ⟨_, _, _, ha, -⟩ | ⟨ha, -⟩ | ⟨ha | ha, -⟩ <;> cases ha
  · rcases visit_cases h with ⟨ha, -⟩ | ⟨p, c, -, -, ⟨ha, -⟩ | ⟨ha, -⟩ | ⟨pid, st, ha, -⟩⟩ <;> cases ha
  · rename_i pfds i r hpc
    split at h
    · simp at h
    · rename_i c hc
      cases hscan : scan alloc r c.buf with
      | done op fields buf =>
        refine ⟨c, op, fields, buf, ⟨pfds, i, r, hpc, hc, hscan⟩, ?_⟩
        simp only [Sys.read, hscan] at h
        rcases dispatch_cases h with ⟨-, ha, -⟩ | ⟨-, ha, -⟩ | ⟨_, ⟨-, ha, -⟩ | ⟨-, ha, -⟩, -⟩ |
          ⟨_, -, ha, -, rfl⟩ <;> cases ha
        exact mem_log_closeAll List.mem_cons_self
      | bad => cases (read_bad hscan h).1
      | crash => cases (read_crash hscan h).1
      | fill => simp [Sys.read, hscan, Sys.receive] at h
  · obtain ⟨ha, -⟩ := reapChild_cases h
    cases ha
  · simp only [Sys.shutdownChild] at h
    split at h
    · simp at h
    · split at h <;> simp at h
  · simp at h
  · simp at h
  · simp at h

theorem childrenIsolated_of_reach (h : Reach (step boot alloc) (ForksAlone alloc) {} s) : s.ChildrenIsolated boot := by
  refine effect_invariant h nofun fun s a t hreach hi hg he => ?_
  intro pid owner childFds controlFd fields table hm hfields
  rcases he.log_inv (parented_of_reach hreach) hm with hm | hnew
  · exact hi pid owner childFds controlFd fields table hm hfields
  · cases hnew with
    | fork ha hrun hc hidle hbuf hfinds hop =>
      subst ha
      obtain ⟨i, hget⟩ := hfinds.get
      exact (isolated_iff_alone hreach.free hget).2 (hg _ _ _ _ hfinds hfields)

/-- In a run whose forks are made for clients that are alone every child is isolated, and the next step keeps it so
exactly when it is no fork for a client among others. -/
theorem children_isolated (h : Reach (step boot alloc) (ForksAlone alloc) {} s) :
    s.ChildrenIsolated boot ∧
      ∀ a t, step boot alloc s a = some t → (t.ChildrenIsolated boot ↔ ForksAlone alloc s a) := by
  refine ⟨childrenIsolated_of_reach h, fun a t hstep => ⟨fun ht => ?_, fun hg => ?_⟩⟩
  · unfold ForksAlone
    split
    · rename_i pid
      obtain ⟨c, op, fields, buf, hfinds, hlog⟩ := forked_inv hstep
      intro c' op' fields' buf' hfinds' hfields
      obtain ⟨rfl, heq⟩ := hfinds.unique hfinds'
      cases heq
      obtain ⟨i, hget⟩ := hfinds.get
      exact (isolated_iff_alone h.free hget).1 (ht _ _ _ _ _ _ hlog hfields)
    · trivial
  · exact childrenIsolated_of_reach (.tail h hg hstep)

def Act.isFork : Act → Bool
  | .daemon (.forked _) => true
  | _ => false

private theorem forksAlone_of_not_isFork (h : a.isFork = false) : ForksAlone alloc s a := by
  unfold ForksAlone
  split
  · simp [Act.isFork] at h
  · trivial

/-- One client, whose request is forked. -/
theorem children_isolated_run :
    ∃ s, Reach (step bareBoot fun _ => true) (ForksAlone fun _ => true) {} s ∧ s.forks 0 = 1 ∧
      s.ChildrenIsolated bareBoot := by
  have hrun : (exec (guarded (step bareBoot fun _ => true)
      (fun s a => RejectedDrained (fun _ => true) s a ∧ a.isFork = false)) {}
      (oneClient "RUN 3\r\n$0\r\n$0\r\n$0\r\n" utf8_runRequest_ne_nil)).any
      (fun s => s.clients.length = 1 ∧
        (step bareBoot (fun _ => true) s (.daemon (.forked 50))).any (fun t => t.forks 0 = 1)) = true := by
    decide
  obtain ⟨s, hs, hp⟩ := Reach.of_any_guarded hrun
  obtain ⟨hone, hfork⟩ := of_decide_eq_true hp
  obtain ⟨t, hstep, ht⟩ := (Option.any_eq_true _ _).1 hfork
  have hcov : Covers s.fdt s.held := covers_held (hs.mono fun _ _ hg => hg.1)
  have halone : s.Alone := ⟨hone, fun fd hfd => (hcov.mem_iff fd).2 hfd⟩
  have hreach : Reach (step bareBoot fun _ => true) (ForksAlone fun _ => true) {} s :=
    hs.mono fun _ _ hg => forksAlone_of_not_isFork hg.2
  have hguard : ForksAlone (fun _ => true) s (.daemon (.forked 50)) := fun _ _ _ _ _ _ => halone
  have hall := Reach.tail hreach hguard hstep
  exact ⟨t, hall, of_decide_eq_true ht, (children_isolated hall).1⟩

/-- Two clients are accepted, and the request of the first one is forked. -/
def crowdedRun : List Act :=
  [.connect, .connect, .send 0 ⟨utf8 "RUN 3\r\n$0\r\n$0\r\n$0\r\n".toList, [7, 8, 9], utf8_runRequest_ne_nil⟩,
    .daemon (.poll true []), .daemon (.accepted 4), .daemon (.accepted 5), .daemon .go, .daemon .go, .daemon .go,
    .daemon .go, .daemon .go, .daemon (.poll false [true, false]), .daemon .go, .daemon (.received [10, 11, 12]),
    .daemon (.forked 50)]

/-- A child that has the connection of the second client, forked for the first one. -/
def Event.forkCrowded : Event → Bool
  | .fork _ _ childFds controlFd fields table =>
    3 ≤ fields ∧ childMain bareBoot table childFds controlFd 5 = some (.conn 1) ∧ table controlFd = some (.conn 0)
  | _ => false

/-- The child of one client has the connection of the other. -/
theorem child_holds_other_connection :
    ¬∀ s, Reach (step bareBoot fun _ => true) Free {} s → s.ChildrenIsolated bareBoot := by
  intro h
  have hrun : (exec (step bareBoot fun _ => true) {} crowdedRun).any (fun s => s.log.any Event.forkCrowded) = true := by
    decide
  obtain ⟨s, hs, hp⟩ := Reach.of_any hrun
  obtain ⟨e, hmem, he⟩ := List.any_eq_true.1 hp
  cases e with
  | fork pid owner childFds controlFd fields table =>
    obtain ⟨hfields, hother, hown⟩ := of_decide_eq_true he
    have := (h s hs _ _ _ _ _ _ hmem hfields).conns 5 1 hother
    rw [hown] at this
    cases this
  | _ => cases he

end Calisto

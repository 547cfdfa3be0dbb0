import Calisto.Daemon.Pass
import Calisto.Daemon.Stdio

/-!
# The death of a client

The loop notices that a client with a child is gone when it peeks at the connection and finds the end of the stream.
It does not find it while bytes that the client sent after its command are unread, and it does not look when the
client has moved forward under the poll result of another one that is not ready.  In the ticks in which neither
happens, every client that is dead by the `poll` and polled ready has its child killed and reaped and its entry
removed.
-/

namespace Calisto

open Function Machine

variable {boot : Boot} {alloc : Nat → Bool} {s t u v : Sys} {a : Act} {pfds : List PollFd} {i : Nat} {r : Reader}
  {c : DaemonClient} {ans : Answer}

/-! ### Ticks -/

/-- The client has closed its end of the connection behind `fd`, and the daemon has received all that it sent. -/
def Sys.spent (s : Sys) (fd : Fd) : Bool := (s.conn? fd).any fun conn => conn.closed && conn.queue = []

/-- The client of a running child is dead, and there is more to read from it than the end of the stream. -/
def Sys.hidden (s : Sys) (c : DaemonClient) : Bool :=
  c.pid.isSome && (s.conn? c.fd).any fun conn => conn.closed && conn.queue ≠ []

/-- The loop is about to pass over a dead client that was polled ready, under the result of another one. -/
def Sys.overlooks (s : Sys) : Bool :=
  match s.pc with
  | .pass pfds i => (s.clients[i]?).any fun c => (pfds[i]?).any fun p =>
      c.pid.isSome && s.spent c.fd && pfds.contains ⟨c.fd, true⟩ && !p.revents
  | _ => false

/-- No client polled ready is dead with bytes unread, and none is passed over. -/
def Noticed (s : Sys) : Act → Prop
  | .daemon (.poll _ revents) => ∀ x ∈ s.clients.zip revents, x.2 → s.hidden x.1 = false
  | .daemon _ => s.overlooks = false
  | _ => True

instance : (s : Sys) → (a : Act) → Decidable (Noticed s a)
  | s, .daemon (.poll _ revents) =>
    inferInstanceAs (Decidable (∀ x ∈ s.clients.zip revents, x.2 → s.hidden x.1 = false))
  | s, .daemon .go | s, .daemon .pollInterrupted | s, .daemon .pollFailed | s, .daemon (.accepted _)
  | s, .daemon .acceptInterrupted | s, .daemon .acceptFailed | s, .daemon (.received _) | s, .daemon .reset
  | s, .daemon (.forked _) | s, .daemon .forkFailed | s, .daemon (.ended _) =>
    inferInstanceAs (Decidable (s.overlooks = false))
  | _, .connect | _, .send .. | _, .hangup _ | _, .exit .. | _, .signal => isTrue trivial

/-- A tick of the loop, from the `poll` to the next one. -/
structure Tick (boot : Boot) (alloc : Nat → Bool) (G : Sys → Act → Prop) (s : Sys) (listener : Bool)
    (revents : List Bool) (t : Sys) : Prop where
  start : s.pc = .top
  run : ∃ u, G s (.daemon (.poll listener revents)) ∧
    step boot alloc s (.daemon (.poll listener revents)) = some u ∧
    Reach (step boot alloc) (fun u a => u.pc ≠ .top ∧ G u a) u t
  top : t.pc = .top

/-- The tick killed and reaped the child `pid` of `c`, and the entry of its connection is gone. -/
structure Buried (s t : Sys) (c : DaemonClient) (pid : Pid) : Prop where
  gone : ∀ x ∈ t.clients, t.fdt x.fd ≠ s.fdt c.fd
  killed : ∃ new kid status, t.log = new ++ s.log ∧ kid.owner = s.fdt c.fd ∧ .kill pid (some kid) ∈ new ∧
    .reap pid kid status ∈ new

/-! ### The place of a client in the pass -/

/-- The first place that the pass has not come to yet. -/
def Pc.ahead : Pc → Option (List PollFd × Nat)
  | .accepting pfds => some (pfds, 0)
  | .pass pfds i => some (pfds, i)
  | .reading pfds i _ => some (pfds, i + 1)
  | _ => none

/-- The client `c` is at a place that the pass will come to. -/
def Sys.Coming (s : Sys) (pfds : List PollFd) (c : DaemonClient) : Prop :=
  ∃ i m, s.pc.ahead = some (pfds, i) ∧ i ≤ m ∧ m < pfds.length ∧ s.clients[m]? = some c

theorem Sys.Coming.erase {m : Nat} (hpc : t.pc = .pass pfds i) (him : i < m) (hm : m < pfds.length)
    (hget : s.clients[m]? = some c) (hclients : t.clients = s.clients.eraseIdx i) : t.Coming pfds c := by
  refine ⟨i, m - 1, by rw [hpc]; rfl, by omega, by omega, ?_⟩
  rw [hclients, List.getElem?_eraseIdx, if_neg (by omega), Nat.sub_add_cancel (by omega), hget]

theorem Sys.Coming.set {m : Nat} (hpc : t.pc.ahead = some (pfds, i + 1)) (him : i < m) (hm : m < pfds.length)
    (hget : s.clients[m]? = some c) {c' : DaemonClient} (hclients : t.clients = s.clients.set i c') :
    t.Coming pfds c :=
  ⟨i + 1, m, hpc, him, hm, by rw [hclients, List.getElem?_set_ne (Nat.ne_of_lt him), hget]⟩

private theorem VisitStep.coming {m : Nat} (hv : VisitStep s pfds i t) (him : i < m) (hm : m < pfds.length)
    (hget : s.clients[m]? = some c) : t.Coming pfds c := by
  have hlt : m < s.clients.length := (List.getElem?_eq_some_iff.1 hget).1
  cases hv with
  | ended h => omega
  | unready | alive => exact ⟨i + 1, m, rfl, him, hm, hget⟩
  | opened => exact ⟨i + 1, m, rfl, him, hm, hget⟩
  | buried hp hrev hc hbusy hdead => exact .erase rfl him hm hget (by simp)

private theorem ReadStep.coming {m : Nat} {x : DaemonClient} (hr : ReadStep alloc s pfds i r x t) (him : i < m)
    (hm : m < pfds.length) (hget : s.clients[m]? = some c) : t.Coming pfds c ∨ t.pc.looping = false := by
  cases hr with
  | answered => exact Or.inl (.set rfl him hm hget rfl)
  | stopped hpc => exact Or.inr (by rw [hpc]; rfl)
  | crashed hpc => exact Or.inr (by rw [hpc]; rfl)
  | @forked fields buf pid =>
    left
    refine .set rfl him hm hget (show _ = s.clients.set i { x with buf := buf, fds := [], pid := some pid } from ?_)
    simp
  | rejected => exact Or.inl (.erase rfl him hm hget rfl)
  | starved => exact Or.inl (.set rfl him hm hget rfl)
  | more hfd hclients hpc => exact Or.inl (.set (by rw [hpc]; rfl) him hm hget hclients)

theorem accept_coming {m : Nat} (hm : m < pfds.length) (hget : s.clients[m]? = some c) (hs : s.pc = .accepting pfds)
    (h : s.accept boot pfds ans = some t) : t.Coming pfds c := by
  rcases accept_cases h with ⟨fd, k, rest, -, -, -, rfl⟩ | ⟨-, rfl⟩ | ⟨-, rfl⟩
  · refine ⟨0, m, by show s.pc.ahead = _; rw [hs]; rfl, Nat.zero_le _, hm, ?_⟩
    exact getElem?_push_of_get hget _
  · exact ⟨0, m, by rw [hs]; rfl, Nat.zero_le _, hm, hget⟩
  · exact ⟨0, m, rfl, Nat.zero_le _, hm, hget⟩

/-- Until the pass comes to a client, its place only changes by the removal of those before it. -/
theorem Sys.Coming.step (h : s.Coming pfds c) (hstep : step boot alloc s a = some t) :
    t.Coming pfds c ∨ t.pc.looping = false ∨
      ∃ m ans, a = .daemon ans ∧ s.pc = .pass pfds m ∧ m < pfds.length ∧ s.clients[m]? = some c ∧
        s.visit pfds m ans = some t := by
  obtain ⟨i, m, hpc, him, hm, hget⟩ := h
  rcases step_outside hstep with ⟨hclients, hpc'⟩ | ⟨ans, rfl, hdaemon⟩
  · exact Or.inl ⟨i, m, by rw [hpc', hpc], him, hm, by rw [hclients, hget]⟩
  unfold Sys.daemonStep at hdaemon
  split at hdaemon
  · rename_i hs
    simp [hs, Pc.ahead] at hpc
  · rename_i pfds' hs
    simp only [hs, Pc.ahead, Option.some.injEq, Prod.mk.injEq] at hpc
    obtain ⟨rfl, rfl⟩ := hpc
    exact Or.inl (accept_coming hm hget hs hdaemon)
  · rename_i pfds' i' hs
    simp only [hs, Pc.ahead, Option.some.injEq, Prod.mk.injEq] at hpc
    obtain ⟨rfl, rfl⟩ := hpc
    rcases Nat.lt_or_eq_of_le him with hlt | rfl
    · exact Or.inl ((visit_step hdaemon).coming hlt hm hget)
    · exact Or.inr (Or.inr ⟨i', ans, rfl, hs, hm, hget, hdaemon⟩)
  · rename_i pfds' i' r hs
    simp only [hs, Pc.ahead, Option.some.injEq, Prod.mk.injEq] at hpc
    obtain ⟨rfl, rfl⟩ := hpc
    split at hdaemon
    · simp at hdaemon
    · rcases (read_step hdaemon).coming him hm hget with hcoming | hover
      · exact Or.inl hcoming
      · exact Or.inr (Or.inl hover)
  · rename_i hs
    simp [hs, Pc.ahead] at hpc
  · rename_i hs
    simp [hs, Pc.ahead] at hpc
  all_goals simp at hdaemon

/-! ### A dead client -/

private theorem log_openAll_suffix (s : Sys) (new : List (Fd × File)) : s.log <:+ (s.openAll new).log := by
  induction new generalizing s with
  | nil => exact List.suffix_rfl
  | cons x new ih =>
    have hx : s.log <:+ (s.openFd x.1 x.2).log := List.suffix_cons _ _
    exact hx.trans (ih _)

private theorem log_closeAll_suffix (s : Sys) (fds : List Fd) : s.log <:+ (s.closeAll fds).log := by
  induction fds generalizing s with
  | nil => exact List.suffix_rfl
  | cons x fds ih =>
    have hx : s.log <:+ (s.close x).log := List.suffix_cons _ _
    exact hx.trans (ih _)

/-- A step adds to the log. -/
theorem Effect.log_suffix (he : Effect boot alloc s a t) : s.log <:+ t.log := by
  cases he with
  | connect | send | hangup | exit | signal | quiet | passedBy | returned | starved | received =>
    exact List.suffix_rfl
  | accepted | answered => exact List.suffix_cons _ _
  | @installed fds pc i c buf k conn bytes files queue hw hread hfirst ht hlen hnd hfree hpc =>
    exact log_openAll_suffix (s.setQueue k conn queue) _
  | rejected | lost => exact (List.suffix_cons _ _).trans (List.suffix_cons _ _)
  | reaped => exact ((List.suffix_cons _ _).trans (List.suffix_cons _ _)).trans (List.suffix_cons _ _)
  | @forked pc i c buf fields pid hw hbuf hreq hpid hpc =>
    show s.log <:+ (Sys.closeAll _ c.fds).log
    refine List.IsSuffix.trans ?_ (log_closeAll_suffix _ c.fds)
    exact List.suffix_cons _ _
  | @buried ans pc i c pid st hw hpc =>
    refine List.IsSuffix.trans ?_ (List.suffix_cons _ _)
    unfold Sys.killChild
    dsimp only
    split
    · exact List.suffix_cons _ _
    · exact (List.suffix_cons _ _).trans (List.suffix_cons _ _)
  | @takenDown ans i c pid st hpc hc hp =>
    cases hkid : s.kids pid with
    | none =>
      rw [takeDown_of_none s i c st hkid]
      exact List.suffix_cons _ _
    | some kid =>
      rw [takeDown_of_some s i c st hkid]
      exact ((List.suffix_cons _ _).trans (List.suffix_cons _ _)).trans (List.suffix_cons _ _)

/-- What the tick that began at `s` has done with the dead client `c`, whose child is `pid`. -/
inductive Fate (s : Sys) (pfds : List PollFd) (c : DaemonClient) (pid : Pid) (k : ConnId) (u : Sys) : Prop
  | coming (hplace : u.Coming pfds c) (hfd : u.fdt c.fd = some (.conn k))
      (hconn : ∃ conn, u.conns[k]? = some conn ∧ conn.closed ∧ conn.queue = []) (hlog : s.log <:+ u.log)
  | gone (hburied : ∀ x ∈ u.clients, u.fdt x.fd ≠ some (.conn k)) (hnew : k ∉ u.backlog) (hk : k < u.conns.length)
      (hkilled : ∃ new kid status, u.log = new ++ s.log ∧ kid.owner = some (.conn k) ∧ .kill pid (some kid) ∈ new ∧
        .reap pid kid status ∈ new)
  | stopped (hpc : u.pc.looping = false)

/-- A dead connection stays so. -/
theorem Effect.closed (he : Effect boot alloc s a t) (ho : s.Owned boot) (hstep : step boot alloc s a = some t)
    {k : ConnId} (h : ∃ conn, s.conns[k]? = some conn ∧ conn.closed ∧ conn.queue = []) :
    ∃ conn, t.conns[k]? = some conn ∧ conn.closed ∧ conn.queue = [] := by
  obtain ⟨conn, hk, hclosed, hqueue⟩ := h
  obtain ⟨conn', hk', hchange⟩ := he.conn_change ho hk
  refine ⟨conn', hk', ?_⟩
  cases hchange with
  | same => exact ⟨hclosed, hqueue⟩
  | sent ha =>
    subst ha
    simp [step, hk, hclosed] at hstep
  | closed => exact ⟨rfl, hqueue⟩
  | taken hfd hfirst hq => exact absurd hqueue hq

private theorem looping_false_step (h : s.pc.looping = false) (hstep : step boot alloc s a = some t) :
    t.pc.looping = false := by
  rcases step_outside hstep with ⟨-, hpc⟩ | ⟨ans, rfl, hdaemon⟩
  · rw [hpc, h]
  unfold Sys.daemonStep at hdaemon
  split at hdaemon
  case h_6 => exact shutdownChild_pc hdaemon
  all_goals simp_all [Pc.looping]

/-- The entries of other connections. -/
theorem Effect.no_entry (he : Effect boot alloc s a t) (ho : s.Owned boot) {k : ConnId}
    (h : ∀ x ∈ s.clients, s.fdt x.fd ≠ some (.conn k)) (hnew : k ∉ s.backlog) :
    ∀ x ∈ t.clients, t.fdt x.fd ≠ some (.conn k) := by
  intro x hx
  obtain ⟨lost, hcov⟩ := (he.owned ho).covers
  have hold : ∀ c ∈ s.clients, x.fd = c.fd → t.fdt x.fd ≠ some (.conn k) := by
    intro c hc hfd
    rw [he.held_stable ho hcov (hfd ▸ fd_mem_held hc) (fd_mem_held hx), hfd]
    exact h c hc
  cases he.entry hx with
  | kept hc => exact hold _ hc rfl
  | accepted hk hfd =>
    rw [hfd]
    rintro heq
    cases heq
    exact hnew hk
  | answered hc | received hc | forked hc | takenDown hc => exact hold _ hc rfl
  | starved ha hc | installed ha hc => exact hold _ hc rfl

private theorem Effect.not_mem_backlog (he : Effect boot alloc s a t) {k : ConnId} (hnew : k ∉ s.backlog)
    (hk : k < s.conns.length) : k ∉ t.backlog := by
  intro hmem
  rcases he.backlog_inv hmem with h | ⟨rfl, -⟩
  · exact hnew h
  · exact Nat.lt_irrefl _ hk

private theorem Noticed.not_overlooks (h : Noticed s (.daemon ans)) (hv : s.visit pfds i ans = some t) :
    s.overlooks = false := by
  cases ans with
  | poll listener revents =>
    rcases visit_cases hv with ⟨ha, -⟩ | ⟨p, c, -, -, ⟨ha, -⟩ | ⟨ha, -⟩ | ⟨pid, st, ha, -⟩⟩ <;> cases ha
  | _ => exact h

/-- The pass comes to the dead client: its child is killed and reaped, and its entry removed. -/
theorem Fate.of_visit {k : ConnId} {m : Nat} {pid : Pid} (hv : VisitStep s pfds m t)
    (ho : s.Owned boot) (hp : s.Parented) (hs : s.pc = .pass pfds m) (hm : m < pfds.length)
    (hget : s.clients[m]? = some c) (hpid : c.pid = some pid) (hfd : s.fdt c.fd = some (.conn k))
    (hconn : ∃ conn, s.conns[k]? = some conn ∧ conn.closed ∧ conn.queue = []) (hpolled : ⟨c.fd, true⟩ ∈ pfds)
    (hg : s.overlooks = false) (hlog : u.log <:+ s.log) : Fate u pfds c pid k t := by
  obtain ⟨conn, hk, hclosed, hqueue⟩ := hconn
  have hconn? : s.conn? c.fd = some conn := by simp [Sys.conn?, hfd, hk]
  have hspent : s.spent c.fd = true := by simp [Sys.spent, hconn?, hclosed, hqueue]
  have hdead : s.peekDead c.fd = true := by simp [Sys.peekDead, hconn?, hclosed, hqueue]
  have hlt : m < s.clients.length := (List.getElem?_eq_some_iff.1 hget).1
  cases hv with
  | ended h => omega
  | unready hget' hrev => simp [Sys.overlooks, hs, hget, hget', hpid, hspent, hpolled, hrev] at hg
  | alive hc hbusy halive =>
    rw [hget] at hc
    cases hc
    rw [hdead] at halive
    cases halive
  | opened hc hidle =>
    rw [hget] at hc
    cases hc
    rw [hpid] at hidle
    cases hidle
  | @buried p c' pid' st hp' hrev hc hbusy hdead' =>
    rw [hget] at hc
    cases hc
    rw [hpid] at hbusy
    cases hbusy
    obtain ⟨kid, hkid, howner⟩ := hp.owner c (List.mem_of_getElem? hget) pid hpid
    obtain ⟨new, hnew⟩ := hlog
    refine .gone (fun x hx => ?_) ?_ ?_ ?_
    · simp only [goto_clients, leave_clients, killChild_clients] at hx
      simp only [goto_fdt, leave_fdt, killChild_fdt, update_of_ne (ho.fd_ne hget hx)]
      exact fun heq => ho.fd_ne hget hx (ho.inj _ _ k heq hfd)
    · simp only [goto_backlog, leave_backlog, killChild_backlog]
      exact fun hmem => ho.backlog_new k hmem c.fd hfd
    · simpa using (List.getElem?_eq_some_iff.1 hk).1
    · rw [killChild_of_some hkid]
      refine ⟨.closed c.fd (s.fdt c.fd) :: .reap pid kid (kid.status.getD st) :: .kill pid (some kid) :: new, kid,
        kid.status.getD st, ?_, howner.trans hfd, by simp, by simp⟩
      simp [Sys.goto, Sys.leave, Sys.removeClient, Sys.close, Sys.reaped, Sys.signalled, hnew]

theorem Fate.step {k : ConnId} {pid : Pid} (h : Fate u pfds c pid k s) (ho : s.Owned boot) (hp : s.Parented)
    (hw : s.ReadsWaiting) (hpid : c.pid = some pid) (hpolled : ⟨c.fd, true⟩ ∈ pfds)
    (hg : Noticed s a) (hstep : step boot alloc s a = some t) : Fate u pfds c pid k t := by
  have he : Effect boot alloc s a t := step_effect hw hstep
  cases h with
  | coming hplace hfd hconn hlog =>
    rcases hplace.step hstep with hplace' | hover | ⟨m, ans, rfl, hpc, hm, hget, hv⟩
    · obtain ⟨lost, hcov⟩ := (he.owned ho).covers
      have hmem : c ∈ s.clients := by
        obtain ⟨i, m, -, -, -, hget⟩ := hplace
        exact List.mem_of_getElem? hget
      have hmem' : c ∈ t.clients := by
        obtain ⟨i, m, -, -, -, hget⟩ := hplace'
        exact List.mem_of_getElem? hget
      have hfd' : t.fdt c.fd = some (.conn k) := by
        rw [he.held_stable ho hcov (fd_mem_held hmem) (fd_mem_held hmem'), hfd]
      exact .coming hplace' hfd' (he.closed ho hstep hconn) (hlog.trans he.log_suffix)
    · exact .stopped hover
    · exact .of_visit (visit_step hv) ho hp hpc hm hget hpid hfd hconn hpolled (hg.not_overlooks hv) hlog
  | gone hburied hnew hk hkilled =>
    obtain ⟨new, kid, status, hlog, howner, hkill, hreap⟩ := hkilled
    obtain ⟨more, hmore⟩ := he.log_suffix
    refine .gone (he.no_entry ho hburied hnew) (he.not_mem_backlog hnew hk) (Nat.lt_of_lt_of_le hk he.conns_length)
      ⟨more ++ new, kid, status, ?_, howner, List.mem_append_right _ hkill, List.mem_append_right _ hreap⟩
    rw [← hmore, hlog, List.append_assoc]
  | stopped hpc => exact .stopped (looping_false_step hpc hstep)

/-! ### Every tick -/

/-- In a tick that hides and overlooks nobody, every client with a child that is dead by the `poll` and polled ready
is buried. -/
theorem dead_client_buried (h : Reach (step boot alloc) Free {} s) {listener : Bool} {revents : List Bool}
    (ht : Tick boot alloc Noticed s listener revents t) {j : Nat} (hc : s.clients[j]? = some c) {pid : Pid}
    (hpid : c.pid = some pid) (hready : revents[j]? = some true) {conn : Conn} (hconn : s.conn? c.fd = some conn)
    (hclosed : conn.closed) : Buried s t c pid := by
  obtain ⟨u, hg, hpoll, hrun⟩ := ht.run
  have ho := owned_of_reach h
  obtain ⟨k, hfd⟩ := ho.control c (List.mem_of_getElem? hc)
  have hk : s.conns[k]? = some conn := by simpa [Sys.conn?, hfd] using hconn
  have hqueue : conn.queue = [] := by
    have hzip : (c, true) ∈ s.clients.zip revents := by
      refine List.mem_of_getElem? (i := j) ?_
      rw [List.getElem?_zip_eq_some]
      exact ⟨hc, hready⟩
    have := hg (c, true) hzip rfl
    simpa [Sys.hidden, hpid, hconn, hclosed] using this
  have hu : Reach (step boot alloc) Free {} u := .tail h trivial hpoll
  have hstart : ∃ pfds, ⟨c.fd, true⟩ ∈ pfds ∧ Fate s pfds c pid k u := by
    simp only [step, Sys.daemonStep, ht.start] at hpoll
    rcases tick_cases hpoll with ⟨-, ha, -⟩ | ⟨_, _, ha, -, rfl⟩ | ⟨ha, -⟩ | ⟨ha, -⟩ <;> cases ha
    have hget : (List.zipWith (fun c rev => ({ fd := c.fd, revents := rev } : PollFd)) s.clients revents)[j]? =
        some ⟨c.fd, true⟩ := by
      simp [List.getElem?_zipWith, hc, hready]
    refine ⟨_, List.mem_of_getElem? hget, .coming ⟨0, j, ?_, Nat.zero_le _, ?_, hc⟩ hfd
      ⟨conn, hk, hclosed, hqueue⟩ List.suffix_rfl⟩
    · rw [goto_pc]
      split <;> rfl
    · exact (List.getElem?_eq_some_iff.1 hget).1
  obtain ⟨pfds, hpolled, hfate⟩ := hstart
  have hend : Fate s pfds c pid k t ∧ Reach (step boot alloc) Free {} t := by
    refine hrun.invariant (I := fun t => Fate s pfds c pid k t ∧ Reach (step boot alloc) Free {} t) ⟨hfate, hu⟩ ?_
    rintro v a w - ⟨hv, hreach⟩ ⟨-, hg'⟩ hstep
    have hw := hv.step (owned_of_reach hreach) (parented_of_reach hreach) (readsWaiting_of_reach hreach) hpid hpolled
      hg' hstep
    exact ⟨hw, .tail hreach trivial hstep⟩
  cases hend.1 with
  | coming hplace =>
    obtain ⟨i, m, hpc, -⟩ := hplace
    rw [ht.top] at hpc
    cases hpc
  | gone hburied hnew hk' hkilled =>
    obtain ⟨new, kid, status, hlog, howner, hkill, hreap⟩ := hkilled
    refine ⟨fun x hx => ?_, new, kid, status, hlog, ?_, hkill, hreap⟩
    · rw [hfd]
      exact hburied x hx
    · rw [howner, hfd]
  | stopped hpc =>
    rw [ht.top] at hpc
    cases hpc

/-- A client whose child is running, and which has sent `more` and closed its end, at the next `poll`. -/
def leftClient (more : List Act) : List Act :=
  oneClient "RUN 3\r\n$0\r\n$0\r\n$0\r\n" utf8_runRequest_ne_nil ++
    [.daemon (.forked 50), .daemon .go, .daemon .go, .daemon .go] ++ more ++ [.hangup 0]

/-- The client closes its end with nothing unread. -/
theorem dead_client_buried_run :
    ∃ s t c, Reach (step bareBoot fun _ => true) Free {} s ∧ s.clients[0]? = some c ∧ c.pid = some 50 ∧
      Tick bareBoot (fun _ => true) Noticed s false [true] t ∧ Buried s t c 50 := by
  have hrun : (exec (step bareBoot fun _ => true) {} (leftClient [])).any (fun s => s.pc = .top ∧
      Noticed s (.daemon (.poll false [true])) ∧ (s.clients[0]?).any (fun c => c.pid = some 50 ∧
        (s.conn? c.fd).any fun conn => conn.closed) ∧
      (step bareBoot (fun _ => true) s (.daemon (.poll false [true]))).any fun u =>
        (exec (guarded (step bareBoot fun _ => true) fun u a => u.pc ≠ .top ∧ Noticed u a) u
          [.daemon (.ended 15), .daemon .go, .daemon .go]).any fun t => t.pc = .top) = true := by
    decide
  obtain ⟨s, hs, hp⟩ := Reach.of_any hrun
  obtain ⟨hstart, hg, hc, hpoll⟩ := of_decide_eq_true hp
  obtain ⟨c, hget, hc⟩ := (Option.any_eq_true _ _).1 hc
  obtain ⟨hpid, hconn⟩ := of_decide_eq_true hc
  obtain ⟨conn, hconn, hclosed⟩ := (Option.any_eq_true _ _).1 hconn
  obtain ⟨u, hpoll, hrun'⟩ := (Option.any_eq_true _ _).1 hpoll
  obtain ⟨t, hrun', ht⟩ := (Option.any_eq_true _ _).1 hrun'
  have htick : Tick bareBoot (fun _ => true) Noticed s false [true] t :=
    ⟨hstart, ⟨u, hg, hpoll, .of_exec_guarded hrun'⟩, of_decide_eq_true ht⟩
  exact ⟨s, t, c, hs, hget, hpid, htick, dead_client_buried hs htick hget hpid rfl hconn hclosed⟩

/-- The client sends a byte after its request and closes its end: the tick leaves its child running. -/
theorem spurious_byte_hides_death :
    ¬∀ s t listener revents, Reach (step bareBoot fun _ => true) Free {} s →
      Tick bareBoot (fun _ => true) Free s listener revents t → ∀ (j : Nat) c pid conn, s.clients[j]? = some c →
        c.pid = some pid → revents[j]? = some true → s.conn? c.fd = some conn → conn.closed → Buried s t c pid := by
  intro h
  have hrun : (exec (step bareBoot fun _ => true) {} (leftClient [.send 0 ⟨[120], [], by decide⟩])).any (fun s =>
      s.pc = .top ∧ (s.clients[0]?).any (fun c => c.fd = 4 ∧ c.pid = some 50 ∧
        (s.conn? c.fd).any fun conn => conn.closed) ∧ s.fdt 4 = some (.conn 0) ∧
      (step bareBoot (fun _ => true) s (.daemon (.poll false [true]))).any fun u =>
        (exec (guarded (step bareBoot fun _ => true) fun u _ => u.pc ≠ .top) u
          [.daemon .go, .daemon .go, .daemon .go, .daemon .go]).any fun t => t.pc = .top ∧
            ∃ x ∈ t.clients, x.pid = some 50 ∧ t.fdt x.fd = some (.conn 0)) = true := by
    decide
  obtain ⟨s, hs, hp⟩ := Reach.of_any hrun
  obtain ⟨hstart, hc, hfd, hpoll⟩ := of_decide_eq_true hp
  obtain ⟨c, hget, hc⟩ := (Option.any_eq_true _ _).1 hc
  obtain ⟨hcfd, hpid, hconn⟩ := of_decide_eq_true hc
  obtain ⟨conn, hconn, hclosed⟩ := (Option.any_eq_true _ _).1 hconn
  obtain ⟨u, hpoll, hrun'⟩ := (Option.any_eq_true _ _).1 hpoll
  obtain ⟨t, hrun', ht⟩ := (Option.any_eq_true _ _).1 hrun'
  obtain ⟨htop, x, hx, -, hxfd⟩ := of_decide_eq_true ht
  have htick : Tick bareBoot (fun _ => true) Free s false [true] t :=
    ⟨hstart, ⟨u, trivial, hpoll, (Reach.of_exec_guarded hrun').mono fun _ _ hg => ⟨hg, trivial⟩⟩, htop⟩
  have hburied := h s t false [true] hs htick 0 c 50 conn hget hpid rfl hconn hclosed
  refine hburied.gone x hx ?_
  rw [hxfd, hcfd, hfd]

end Calisto

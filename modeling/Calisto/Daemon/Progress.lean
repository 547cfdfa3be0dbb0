import Calisto.Daemon.Attribution
import Calisto.Daemon.Delivery
import Calisto.Daemon.Turns
import Mathlib.Data.Nat.Find

/-!
# Every request is answered

The pass looks poll results up by the index of an entry, and when an entry is removed those behind it come under the
results of others, so that a client that is ready may be passed over.  Still no request is passed over for ever: once
the clients are at rest, entries come and go only finitely often, and then the result of a client is looked up where
`poll` has put it.  So a client that sends its request and waits is told that `fork` failed, or its child is forked, and
when that ends the client is told its status (`request_answered`).
-/

namespace Calisto

open Function Machine

variable {boot : Boot} {alloc : Nat → Bool} {s t : Sys} {a : Act} {k : ConnId} {m : Msg} {pfds : List PollFd} {i : Nat}
  {r : Reader} {c : DaemonClient} {ans : Answer} {pid : Pid} {fd : Fd}

/-! ### Entries come and go -/

/-- The connections that wait to be accepted, counted twice, and the entries. -/
def Sys.crowd (s : Sys) : Nat := 2 * s.backlog.length + s.clients.length

private theorem length_clientFds (s : Sys) : s.clientFds.length = s.clients.length := List.length_map ..

private theorem crowd_erase (hc : s.clients[i]? = some c) (hbacklog : t.backlog = s.backlog)
    (hclients : t.clients = s.clients.eraseIdx i) : t.crowd < s.crowd := by
  have hlt := (List.getElem?_eq_some_iff.1 hc).1
  rw [Sys.crowd, Sys.crowd, hbacklog, hclients, List.length_eraseIdx, if_pos hlt]
  omega

private theorem settled_of_set (hc : s.clients[i]? = some c) (d : DaemonClient) (hfd : d.fd = c.fd)
    (hbacklog : t.backlog = s.backlog) (hclients : t.clients = s.clients.set i d) :
    t.backlog = s.backlog ∧ t.clientFds = s.clientFds ∨ t.crowd < s.crowd :=
  .inl ⟨hbacklog, clientFds_set hc hfd hclients⟩

/-- Without a new client, a step that lets one in or out makes the crowd smaller. -/
theorem Effect.crowd (he : Effect boot alloc s a t) (hcost : a.cost = 0) :
    t.backlog = s.backlog ∧ t.clientFds = s.clientFds ∨ t.crowd < s.crowd := by
  cases he with
  | connect => cases hcost
  | send | hangup | exit | signal | quiet | passedBy | returned => exact .inl ⟨rfl, rfl⟩
  | @accepted fd k rest hs hb hf =>
    right
    show 2 * rest.length + (s.clients ++ [({ fd := fd } : DaemonClient)]).length < _
    rw [Sys.crowd, hb, List.length_append, List.length_singleton, List.length_cons]
    omega
  | @answered _ _ _ c buf _ hw => exact settled_of_set hw.get { c with buf := buf } rfl rfl rfl
  | @starved _ _ _ c buf fds hw =>
    exact settled_of_set hw.get { c with buf := buf, first := false, fds := fds } rfl rfl rfl
  | @received _ _ _ c buf _ _ _ _ _ hw => exact settled_of_set hw.get { c with buf := buf } rfl rfl rfl
  | @installed fds _ _ c buf k conn _ files queue hw =>
    refine settled_of_set hw.get { c with buf := buf, first := false, fds := fds } rfl ?_ ?_
    · show ((s.setQueue k conn queue).openAll (fds.zip (files.map File.passed))).backlog = _
      rw [openAll_backlog]
      rfl
    · simp only [goto_clients, setClient_clients, install_clients, setQueue_clients]
  | rejected hw => exact .inr (crowd_erase hw.get rfl rfl)
  | @forked _ _ c buf _ pid hw =>
    refine settled_of_set hw.get { c with buf := buf, fds := [], pid := some pid } rfl ?_ ?_
    · rw [goto_backlog, fork_backlog]
      rfl
    · simp only [goto_clients, fork_clients, setClient_clients, List.set_set]
  | @buried _ _ i _ pid st hw =>
    refine .inr (crowd_erase hw.get ?_ ?_)
    · show (s.killChild pid st).1.backlog = _
      rw [killChild_backlog]
    · show (s.killChild pid st).1.clients.eraseIdx i = _
      rw [killChild_clients]
  | reaped _ hw => exact .inr (crowd_erase hw.get rfl rfl)
  | lost _ hw => exact .inr (crowd_erase hw.get rfl rfl)
  | @takenDown _ i c pid st _ hc =>
    exact settled_of_set hc { c with pid := none } rfl (takeDown_backlog ..) (takeDown_clients ..)

/-- What the kernel promises: a client that is ready at every call of `poll` is reported in the end, and so is the
listener; and a loop that comes to `accept` with a connection waiting again and again accepts one in the end. -/
structure Fair (st : Nat → Sys) (act : Nat → Act) : Prop where
  reports : ∀ n fd,
    (∀ j ≥ n, (st j).pc = .top → fd ∈ (st j).clientFds ∧ ((st j).conn? fd).any Conn.readable) →
      ∃ j ≥ n, ∃ listener, ∃ revents : List Bool, ∃ i : Nat, act j = .daemon (.poll listener revents) ∧
        (st j).clientFds[i]? = some fd ∧ revents[i]? = some true
  listens : ∀ n, (∀ j ≥ n, (st j).backlog ≠ []) → ∃ j ≥ n, ∃ revents, act j = .daemon (.poll true revents)
  accepts : ∀ n, (∀ j ≥ n, ∃ l ≥ j, (∃ pfds, (st l).pc = .accepting pfds) ∧ (st l).backlog ≠ []) →
    ∃ j ≥ n, ∃ pfds fd, (st j).pc = .accepting pfds ∧ act j = .daemon (.accepted fd)

variable {st : Nat → Sys} {act : Nat → Act}

/-- A loop that has ended does not begin again. -/
theorem step_looping (h : step boot alloc s a = some t) (hpc : s.pc.looping = false) : t.pc.looping = false := by
  rcases step_outside h with ⟨-, hsame⟩ | ⟨ans, rfl, hd⟩
  · rw [hsame, hpc]
  · unfold Sys.daemonStep at hd
    rcases hs : s.pc with _ | pfds | ⟨pfds, i⟩ | ⟨pfds, i, r⟩ | i | i | _ | _ | e <;> rw [hs] at hpc <;>
      simp only [hs] at hd
    case shutdown => exact shutdownChild_pc hd
    case returned | pollFailed | crashed => cases hd
    all_goals cases hpc

theorem Quiet.looping (h : Quiet boot alloc st act) (n : Nat) : (st n).pc.looping = true := by
  by_contra hend
  have hnever : ∀ j ≥ n, (st j).pc.looping = false := by
    intro j hj
    induction j, hj using Nat.le_induction with
    | base => simpa using hend
    | succ j hj ih => exact step_looping (h.run.next j) ih
  obtain ⟨j, hj, htop⟩ := h.tops n
  have := hnever j hj
  rw [htop] at this
  cases this

theorem Quiet.effect (h : Quiet boot alloc st act) (n : Nat) : Effect boot alloc (st n) (act n) (st (n + 1)) :=
  step_effect (readsWaiting_of_reach (h.run.reach n)) (h.run.next n)

/-- From some state on nobody comes in or leaves. -/
theorem Quiet.settles (h : Quiet boot alloc st act) :
    ∃ n, ∀ j ≥ n, (act j).cost = 0 ∧ (st j).backlog = (st n).backlog ∧ (st j).clientFds = (st n).clientFds := by
  obtain ⟨n, hrest⟩ := h.rest
  have hdown : ∀ j ≥ n, (st (j + 1)).crowd ≤ (st j).crowd := by
    intro j hj
    rcases (h.effect j).crowd (hrest j hj) with ⟨hbacklog, hfds⟩ | hlt
    · rw [Sys.crowd, Sys.crowd, hbacklog, ← length_clientFds, hfds, length_clientFds]
    · exact Nat.le_of_lt hlt
  obtain ⟨n', hn', hsame⟩ := exists_settled (fun j => (st j).crowd) hdown
  refine ⟨n', fun j hj => ⟨hrest j (by omega), ?_⟩⟩
  induction j, hj using Nat.le_induction with
  | base => exact ⟨rfl, rfl⟩
  | succ j hj ih =>
    rcases (h.effect j).crowd (hrest j (by omega)) with ⟨hbacklog, hfds⟩ | hlt
    · exact ⟨hbacklog.trans ih.1, hfds.trans ih.2⟩
    · rw [hsame j hj, hsame (j + 1) (by omega)] at hlt
      exact absurd hlt (Nat.lt_irrefl _)

/-- And by then all that came in have been accepted. -/
theorem Quiet.drains (h : Quiet boot alloc st act) (hfair : Fair st act) :
    ∃ n, ∀ j ≥ n, (st j).backlog = [] ∧ (st j).clientFds = (st n).clientFds := by
  obtain ⟨n, hn⟩ := h.settles
  refine ⟨n, fun j hj => ⟨?_, (hn j hj).2.2⟩⟩
  rw [(hn j hj).2.1]
  by_contra hwaits
  have hbacklog : ∀ l ≥ n, (st l).backlog ≠ [] := fun l hl => (hn l hl).2.1 ▸ hwaits
  obtain ⟨l, hl, pfds, fd, hpc, hact⟩ := hfair.accepts n fun j hj => by
    obtain ⟨l, hl, revents, hact⟩ := hfair.listens j fun x hx => hbacklog x (by omega)
    obtain ⟨-, pfds, -, hnext⟩ := poll_cases (hact ▸ h.run.next l)
    exact ⟨l + 1, by omega, ⟨pfds, by rw [hnext]; rfl⟩, hbacklog (l + 1) (by omega)⟩
  -- the connection that is accepted leaves the backlog
  have hsame : (st (l + 1)).backlog = (st l).backlog := ((hn (l + 1) (by omega)).2.1).trans (hn l hl).2.1.symm
  have hd : (st l).accept boot pfds (.accepted fd) = some (st (l + 1)) := by
    have hstep := h.run.next l
    rwa [hact, step, Sys.daemonStep, hpc] at hstep
  rcases accept_cases hd with ⟨fd', k, rest, -, hb, -, hnext⟩ | ⟨hans, -⟩ | ⟨hans | hans, -⟩
  · rw [hnext, hb] at hsame
    exact absurd (congrArg List.length hsame) (Nat.ne_of_lt (Nat.lt_succ_self _))
  all_goals cases hans

/-! ### The client that waits -/

/-- The client of `k` has sent something and not closed its end. -/
def Sys.Spoke (s : Sys) (k : ConnId) : Prop := ∃ conn, s.conns[k]? = some conn ∧ conn.talked ∧ conn.closed = false

private theorem Sys.Spoke.not_closed (h : s.Spoke k) : ¬s.Closed k := by
  rintro ⟨conn, hconn, hclosed⟩
  obtain ⟨conn', hconn', -, hopen⟩ := h
  obtain rfl : conn' = conn := Option.some.inj (hconn'.symm.trans hconn)
  rw [hopen] at hclosed
  cases hclosed

/-- A connection goes on from `x` to `y`: what its client has said it has said, and it is closed only if `p` allows. -/
def Conn.Lasts (p : Prop) (x y : Conn) : Prop := (x.talked → y.talked) ∧ (p → x.closed = false → y.closed = false)

private theorem Conn.lasts_refl (p : Prop) (x : Conn) : Conn.Lasts p x x := ⟨id, fun _ => id⟩

private theorem conn_of_set {p : Prop} {j : ConnId} {x conn : Conn} (y : Conn) (hj : s.conns[j]? = some x)
    (hconns : t.conns = s.conns.set j y) (hlasts : j = k → Conn.Lasts p x y) (hconn : s.conns[k]? = some conn) :
    ∃ z, t.conns[k]? = some z ∧ Conn.Lasts p conn z := by
  rw [hconns]
  by_cases hjk : j = k
  · subst hjk
    obtain rfl : x = conn := Option.some.inj (hj.symm.trans hconn)
    exact ⟨y, getElem?_set_of_get hj _, hlasts rfl⟩
  · exact ⟨conn, (List.getElem?_set_ne hjk).trans hconn, Conn.lasts_refl p conn⟩

/-- Nobody but the client itself closes its end. -/
theorem Effect.conn (he : Effect boot alloc s a t) {conn : Conn} (hconn : s.conns[k]? = some conn) :
    ∃ z, t.conns[k]? = some z ∧ Conn.Lasts (a ≠ .hangup k) conn z := by
  have hsame : t.conns = s.conns → ∃ z, t.conns[k]? = some z ∧ Conn.Lasts (a ≠ .hangup k) conn z := fun hconns =>
    ⟨conn, hconns ▸ hconn, Conn.lasts_refl _ conn⟩
  cases he with
  | connect =>
    have hlt := (List.getElem?_eq_some_iff.1 hconn).1
    exact ⟨conn, (List.getElem?_append_left hlt).trans hconn, Conn.lasts_refl _ conn⟩
  | @send j m x hj => exact conn_of_set (x.send m) hj rfl (fun _ => ⟨fun _ => rfl, fun _ => id⟩) hconn
  | @hangup j x hj =>
    exact conn_of_set { x with closed := true } hj rfl (fun hjk => ⟨id, fun ha => absurd (hjk ▸ rfl) ha⟩) hconn
  | exit | signal | quiet | accepted | answered | starved | rejected | reaped | lost | passedBy | returned =>
    exact hsame rfl
  | @received _ _ _ _ _ j x _ _ queue _ _ ht =>
    exact conn_of_set { x with queue := queue } ht.get rfl (fun _ => ⟨id, fun _ => id⟩) hconn
  | @installed fds _ _ _ _ j x _ files queue _ _ _ ht =>
    refine conn_of_set { x with queue := queue } ht.get ?_ (fun _ => ⟨id, fun _ => id⟩) hconn
    simp only [goto_conns, setClient_conns, install_conns, setQueue_conns]
  | @forked _ i c buf fields pid => exact hsame (fork_conns _ i { c with buf := buf } fields pid)
  | @buried _ _ _ _ pid st => exact hsame (killChild_conns s pid st)
  | takenDown => exact hsame (takeDown_conns ..)

private theorem Effect.spoke (he : Effect boot alloc s a t) (h : s.Spoke k) (ha : a ≠ .hangup k) : t.Spoke k := by
  obtain ⟨conn, hconn, htalked, hopen⟩ := h
  obtain ⟨conn', hconn', hkeep, hstay⟩ := he.conn hconn
  exact ⟨conn', hconn', hkeep htalked, hstay ha hopen⟩

/-- Neither has a child been forked for the connection nor has `fork` failed. -/
def Sys.Unserved (s : Sys) (k : ConnId) : Prop := .fork ∉ s.replies k ∧ ∀ pid, .forked pid ∉ s.story k

private theorem not_isStatus {reply : Reply} (h : reply.isErr) : reply.isStatus = false := by
  cases reply with
  | status => cases h
  | _ => rfl

/-- What else is said to a client is the status of its child or that it has closed its end. -/
theorem Sys.Unserved.holds (h : s.Unserved k) (hr : Reach (step boot alloc) Free {} s) (hs : s.Carries k m)
    (hspoke : s.Spoke k) (hbacklog : s.backlog = []) : s.Holds k none := by
  obtain ⟨ph, hph, hstands⟩ := serving_of_reach hr k
  rcases service_cases hph with ⟨-, rfl⟩ | ⟨n, rest, hdeeds, hend⟩
  · obtain ⟨conn, hconn, -⟩ := hspoke
    rcases hstands with hmem | hlen
    · rw [hbacklog] at hmem
      cases hmem
    · exact absurd (List.getElem?_eq_some_iff.1 hconn).1 (Nat.not_lt.2 hlen)
  · have hmem : ∀ d ∈ rest, d ∈ s.story k := fun d hd =>
      hdeeds ▸ List.mem_cons_of_mem _ (List.mem_append_right _ hd)
    have hlast : ∀ reply, .said reply ∈ rest → (reply = .bye ∨ reply.isErr) → False := by
      intro reply hsaid hreply
      have hreplies : reply ∈ s.replies k := List.mem_filterMap.2 ⟨_, hmem _ hsaid, rfl⟩
      rcases hs.told reply (mem_replies.1 hreplies) with hstatus | rfl | ⟨rfl, hclosed⟩
      · rcases hreply with rfl | herr
        · cases hstatus
        · rw [not_isStatus herr] at hstatus
          cases hstatus
      · exact h.1 hreplies
      · exact hspoke.not_closed hclosed
    cases hend with
    | waiting => exact hstands
    | last reply hreply | dismissed reply hreply => exact (hlast reply (List.mem_cons_self ..) hreply).elim
    | running pid | ended pid | answered pid | served pid | buried pid =>
      exact absurd (hmem _ (List.mem_cons_self ..)) (h.2 pid)

/-- The entry of `k`, which has no child, is the one at `i`. -/
def Sys.Sits (s : Sys) (k : ConnId) (i : Nat) : Prop :=
  ∃ c, s.clients[i]? = some c ∧ s.fdt c.fd = some (.conn k) ∧ c.pid = none

private theorem Sys.Holds.sits (h : s.Holds k none) (ho : s.Owned boot) (hfds : s.clientFds[i]? = some fd)
    (hk : s.fdt fd = some (.conn k)) : s.Sits k i := by
  obtain ⟨c, hc, hck, hidle⟩ := h
  rw [Sys.clientFds, List.getElem?_map] at hfds
  obtain ⟨c', hc', rfl⟩ := Option.map_eq_some_iff.1 hfds
  obtain rfl := ho.entry_eq hc' hk hc hck
  exact ⟨c, hc', hck, hidle⟩

/-- What is sent can be read when the loop is at its top. -/
theorem readable_of_top (hs : s.Carries k m) (hspoke : s.Spoke k) (hsits : s.Sits k i) (hpc : s.pc = .top)
    (hfd : s.clientFds[i]? = some fd) : (s.conn? fd).any Conn.readable := by
  obtain ⟨c, hc, hk, hidle⟩ := hsits
  rw [Sys.clientFds, List.getElem?_map, hc, Option.map_some, Option.some.injEq] at hfd
  subst hfd
  obtain ⟨conn, hconn, ⟨-, hnew⟩ | ⟨-, -, -, hread⟩⟩ :=
    hs.entry (by rw [hpc]; rfl) c (List.mem_of_getElem? hc) hk hidle
  · obtain ⟨conn', hconn', htalked, -⟩ := hspoke
    obtain rfl : conn' = conn := Option.some.inj (hconn'.symm.trans hconn)
    rw [Conn.Untouched, if_pos htalked] at hnew
    simp only [Sys.conn?, hk, hconn, Option.any_some, Conn.readable, hnew]
    rfl
  · rw [Sys.reader?, hpc] at hread
    cases hread

/-! ### The way to the entry -/

/-- The loop is to come to the entry at `i`, which `poll` has reported, or reads from it. -/
def Pc.Heads (pc : Pc) (i : Nat) : Prop :=
  ∃ pfds p, pfds[i]? = some p ∧ p.revents ∧
    (pc = .accepting pfds ∨ ∃ j ≤ i, pc = .pass pfds j ∨ ∃ r, pc = .reading pfds j r)

private theorem mem_story_of_fork {owner : Option File} {childFds : List Fd} {controlFd : Fd} {n : Nat}
    {table : Fd → Option File} (h : .fork pid owner childFds controlFd n table ∈ s.log) (hk : owner = some (.conn k)) :
    .forked pid ∈ s.story k :=
  List.mem_reverse.2 (List.mem_filterMap.2 ⟨_, h, if_pos hk⟩)

/-- A read of the message goes on until the daemon forks. -/
theorem read_mine (hs : s.Carries k m) {op : Str} {fields : List Bytes}
    (hm : scan alloc .head m.bytes = .done op fields []) (hop : opOf op = .request) (hspoke : s.Spoke k)
    (hpc : s.pc = .reading pfds i r) (hc : s.clients[i]? = some c) (hk : s.fdt c.fd = some (.conn k))
    (hidle : c.pid = none) (h : s.read boot alloc pfds i r c ans = some t) :
    (∃ r', t.pc = .reading pfds i r') ∨ ¬t.Unserved k := by
  obtain rfl := hs.head pfds i r c hpc hc hk
  obtain ⟨conn, hconn, ⟨hbuf, hnew⟩ | ⟨hbuf, -⟩⟩ := hs.entry (by rw [hpc]; rfl) c (List.mem_of_getElem? hc) hk hidle
  · left
    obtain ⟨conn', hconn', htalked, hopen⟩ := hspoke
    obtain rfl : conn' = conn := Option.some.inj (hconn'.symm.trans hconn)
    have hget : s.conn? c.fd = some conn' := by
      rw [Sys.conn?, hk]
      exact hconn
    have hscan : scan alloc .head c.buf = .fill .head .head [] := by rw [hbuf]; rfl
    rcases fill_cases hscan h with ⟨-, x, hx, hempty, -⟩ | ⟨-, -, hclosed⟩ | ⟨-, -, x, hx, -, hclosed⟩ |
      ⟨_, _, _, _, _, -, -, rfl⟩ | ⟨_, _, _, _, _, _, -, -, -, -, -, -, rfl⟩
    · -- there is something to receive
      obtain rfl : conn' = x := Option.some.inj (hget.symm.trans hx)
      rw [Conn.Untouched, if_pos htalked, hempty] at hnew
      cases hnew
    · rw [hclosed conn' hget] at hopen
      cases hopen
    · obtain rfl : conn' = x := Option.some.inj (hget.symm.trans hx)
      rw [hclosed] at hopen
      cases hopen
    · exact ⟨_, rfl⟩
    · exact ⟨_, rfl⟩
  · right
    rw [← hbuf] at hm
    simp only [Sys.read, hm] at h
    rcases dispatch_cases h with ⟨hping, -⟩ | ⟨hstop, -⟩ | ⟨reply, ⟨-, -, rfl⟩ | ⟨hother, -⟩, rfl⟩ | ⟨pid, -, -, -, rfl⟩
    · rw [hop] at hping
      cases hping
    · rw [hop] at hstop
      cases hstop
    · refine fun hun => hun.1 (mem_replies.2 ?_)
      rw [← hk]
      exact List.mem_cons_of_mem _ (List.mem_cons_self ..)
    · rw [hop] at hother
      cases hother
    · refine fun hun => hun.2 pid ?_
      exact mem_story_of_fork (s := Sys.goto _ _) (mem_log_closeAll (List.mem_cons_self ..)) hk

/-- While nobody leaves, the loop does not pass over the entry. -/
theorem heads_step (hin : s.pc.Heads i) (hs : s.Carries k m) {op : Str} {fields : List Bytes}
    (hm : scan alloc .head m.bytes = .done op fields []) (hop : opOf op = .request) (hspoke : s.Spoke k)
    (hsits : s.Sits k i) (hlength : t.clients.length = s.clients.length) (hloop : t.pc.looping)
    (hun : t.Unserved k) (h : step boot alloc s a = some t) : t.pc.Heads i := by
  rcases step_outside h with ⟨-, hsame⟩ | ⟨ans, rfl, hd⟩
  · rwa [hsame]
  · obtain ⟨pfds, p, hp, hrev, hplace⟩ := hin
    obtain ⟨c, hc, hk, hidle⟩ := hsits
    have hpass : ∀ u : Sys, ∀ j ≤ i, u.pc = .pass pfds j → u.pc.Heads i := fun u j hj hu =>
      ⟨pfds, p, hp, hrev, .inr ⟨j, hj, .inl hu⟩⟩
    have hleft : ∀ j x, s.clients[j]? = some x → t.clients = s.clients.eraseIdx j → False := by
      intro j x hx hclients
      have hlt := (List.getElem?_eq_some_iff.1 hx).1
      rw [hclients, List.length_eraseIdx, if_pos hlt] at hlength
      omega
    rcases hplace with hpc | ⟨j, hj, hpc | ⟨r, hpc⟩⟩ <;> simp only [Sys.daemonStep, hpc] at hd
    · rcases accept_cases hd with ⟨fd, k', rest, -, -, -, rfl⟩ | ⟨-, rfl⟩ | ⟨-, rfl⟩
      · exact ⟨pfds, p, hp, hrev, .inl hpc⟩
      · exact ⟨pfds, p, hp, hrev, .inl hpc⟩
      · exact hpass _ 0 (Nat.zero_le i) rfl
    · have hnext : j ≠ i → j + 1 ≤ i := fun hne => Nat.lt_of_le_of_ne hj hne
      cases visit_step hd with
      | ended hend =>
        have hlt := (List.getElem?_eq_some_iff.1 hp).1
        have hlt' := (List.getElem?_eq_some_iff.1 hc).1
        omega
      | @unready q hq hunready =>
        refine hpass _ (j + 1) (hnext ?_) rfl
        rintro rfl
        obtain rfl : q = p := Option.some.inj (hq.symm.trans hp)
        rw [hunready] at hrev
        cases hrev
      | @alive x hx hbusy =>
        refine hpass _ (j + 1) (hnext ?_) rfl
        rintro rfl
        obtain rfl : x = c := Option.some.inj (hx.symm.trans hc)
        exact hbusy hidle
      | opened => exact ⟨pfds, p, hp, hrev, .inr ⟨j, hj, .inr ⟨_, rfl⟩⟩⟩
      | @buried _ x pid st _ _ hx =>
        refine (hleft j x hx ?_).elim
        show (s.killChild pid st).1.clients.eraseIdx j = _
        rw [killChild_clients]
    · split at hd
      · cases hd
      · rename_i x hx
        by_cases hji : j = i
        · subst hji
          obtain rfl : x = c := Option.some.inj (hx.symm.trans hc)
          rcases read_mine hs hm hop hspoke hpc hc hk hidle hd with ⟨r', hr'⟩ | hserved
          · exact ⟨pfds, p, hp, hrev, .inr ⟨j, hj, .inr ⟨r', hr'⟩⟩⟩
          · exact absurd hun hserved
        · have hnext : j + 1 ≤ i := Nat.lt_of_le_of_ne hj hji
          have hread := read_step hd
          cases hread with
          | answered => exact hpass _ (j + 1) hnext rfl
          | stopped hpc' | crashed hpc' =>
            rw [hpc'] at hloop
            cases hloop
          | forked => exact hpass _ (j + 1) hnext rfl
          | rejected => exact (hleft j x hx rfl).elim
          | starved => exact hpass _ (j + 1) hnext rfl
          | more _ _ hpc' => exact ⟨pfds, p, hp, hrev, .inr ⟨j, hj, .inr ⟨_, hpc'⟩⟩⟩

private theorem heads_of_poll {listener : Bool} {revents : List Bool}
    (h : step boot alloc s (.daemon (.poll listener revents)) = some t) (hfd : s.clientFds[i]? = some fd)
    (hrev : revents[i]? = some true) : t.pc.Heads i := by
  obtain ⟨htop, -⟩ := poll_cases h
  simp only [step, Sys.daemonStep, htop] at h
  rw [Sys.clientFds, List.getElem?_map] at hfd
  obtain ⟨c, hc, -⟩ := Option.map_eq_some_iff.1 hfd
  rcases tick_cases h with ⟨-, hans, -⟩ | ⟨_, _, hans, -, rfl⟩ | ⟨hans, -⟩ | ⟨hans, -⟩ <;> cases hans
  refine ⟨List.zipWith (fun c rev => { fd := c.fd, revents := rev }) s.clients revents, ⟨c.fd, true⟩, ?_, rfl, ?_⟩
  · rw [List.getElem?_zipWith, hc, hrev]
  · cases listener with
    | true => exact .inl rfl
    | false => exact .inr ⟨0, Nat.zero_le i, .inl rfl⟩

/-! ### The child -/

/-- A child that runs goes on running or ends by itself, unless its client closes its end. -/
theorem step_running (ho : s.Owned boot) (hp : s.Parented) (hkid : s.kids pid = some { owner := some (.conn k) })
    (hspoke : s.Spoke k) (hloop : t.pc.looping) (h : step boot alloc s a = some t) :
    t.kids pid = some { owner := some (.conn k) } ∨ ∃ status, a = .exit pid status := by
  cases a with
  | connect | signal => cases h; exact .inl hkid
  | send j m' =>
    simp only [step] at h
    split at h
    · cases h
    · split at h <;> cases h
      exact .inl hkid
  | hangup j =>
    simp only [step] at h
    split at h <;> cases h
    exact .inl hkid
  | exit q status =>
    simp only [step] at h
    split at h
    · cases h
    · obtain ⟨-, ht⟩ := Option.ite_none_right_eq_some.1 h
      cases ht
      by_cases hpid : pid = q
      · exact .inr ⟨status, hpid ▸ rfl⟩
      · left
        show update s.kids q _ pid = _
        rwa [update_of_ne hpid]
  | daemon ans =>
    left
    have hd : s.daemonStep boot alloc ans = some t := h
    unfold Sys.daemonStep at hd
    rcases hpc : s.pc with _ | pfds | ⟨pfds, i⟩ | ⟨pfds, i, r⟩ | i | i | _ | _ | e <;> simp only [hpc] at hd
    · rcases tick_cases hd with ⟨-, -, rfl⟩ | ⟨listener, revents, -, -, rfl⟩ | ⟨-, rfl⟩ | ⟨-, rfl⟩ <;> exact hkid
    · rcases accept_cases hd with ⟨fd, k', rest, -, -, -, rfl⟩ | ⟨-, rfl⟩ | ⟨-, rfl⟩ <;> exact hkid
    · rcases visit_cases hd with
        ⟨-, -, rfl⟩ | ⟨p, c, -, hc, ⟨-, -, rfl⟩ | ⟨-, -, -, rfl⟩ | ⟨q, st', -, -, hq, hdead, rfl⟩⟩
      · exact hkid
      · exact hkid
      · exact hkid
      · obtain ⟨kid, hkid', howner⟩ := hp.owner c (List.mem_of_getElem? hc) q hq
        show (s.killChild q st').1.kids pid = _
        rw [killChild_kids, update_of_ne, hkid]
        -- the client is there
        rintro rfl
        obtain rfl := Option.some.inj (hkid'.symm.trans hkid)
        obtain ⟨conn, hconn, -, hopen⟩ := hspoke
        simp only [Sys.peekDead, Sys.conn?, ← howner, hconn, hopen, Bool.and_false, Bool.false_eq_true] at hdead
    · split at hd
      · cases hd
      · exact read_child hkid hd
    · unfold Sys.reapChild at hd
      split at hd
      · cases hd
      · split at hd
        · cases hd
          exact hkid
        · rename_i c hc
          split at hd
          · cases hd
            exact hkid
          · rename_i q hq
            split at hd
            · cases hd
              exact hkid
            · rename_i kid status hwait
              cases hd
              show update s.kids q none pid = _
              rw [update_of_ne, hkid]
              rintro rfl
              simp only [Sys.waitpid, hkid] at hwait
              cases hwait
            · cases hd
              exact hkid
    · rw [shutdownChild_pc hd] at hloop
      cases hloop
    all_goals cases hd

/-- The client is told the status of its child when that ends. -/
theorem Quiet.told (h : Quiet boot alloc st act) {n : Nat} (hkid : (st n).kids pid = some { owner := some (.conn k) })
    (hspoke : ∀ j ≥ n, (st j).Spoke k) :
    (∀ j ≥ n, (st j).kids pid = some { owner := some (.conn k) }) ∨
      ∃ i ≥ n, ∃ status, act i = .exit pid status ∧ ∃ j > i, .status (waitStatusCode status) ∈ (st j).replies k := by
  by_cases hexit : ∃ i ≥ n, ∃ status, act i = .exit pid status ∧ (st i).kids pid = some { owner := some (.conn k) }
  · obtain ⟨i, hi, status, hact, hkid⟩ := hexit
    right
    have hnext : (st (i + 1)).kids pid = some { owner := some (.conn k), status := some status } := by
      have hstep := h.run.next i
      simp only [hact, step, hkid, if_true] at hstep
      rw [← Option.some.inj hstep]
      exact update_self ..
    obtain ⟨j, hj, -, hreply | ⟨k', conn, howner, hconn, hclosed⟩⟩ := h.answered hnext rfl
    · exact ⟨i, hi, status, hact, j, by omega, mem_replies.2 hreply⟩
    · obtain rfl : k = k' := by simpa using howner
      exact absurd ⟨conn, hconn, hclosed⟩ (hspoke j (by omega)).not_closed
  · left
    intro j hj
    induction j, hj using Nat.le_induction with
    | base => exact hkid
    | succ j hj ih =>
      have hr := h.run.reach j
      rcases step_running (owned_of_reach hr) (parented_of_reach hr) ih (hspoke j hj) (h.looping (j + 1))
        (h.run.next j) with hsame | ⟨status, hact⟩
      · exact hsame
      · exact absurd ⟨j, hj, status, hact, ih⟩ hexit

/-! ### Every request -/

section Request

variable {op : Str} {fields : List Bytes} {n : Nat}

theorem Quiet.served (h : Quiet boot alloc st act) (hfair : Fair st act) (honly : ∀ j, Only k m (st j) (act j))
    (hlen : m.bytes.length ≤ 65536) (hm : scan alloc .head m.bytes = .done op fields []) (hop : opOf op = .request)
    (hspoke : ∀ j ≥ n, (st j).Spoke k) : ∃ j, ¬(st j).Unserved k := by
  by_contra hall
  push Not at hall
  have hcarries : ∀ j, (st j).Carries k m := fun j => carries_of_reach hlen hm hop (h.run.reach_guarded honly j)
  obtain ⟨n₀, hdrained⟩ := h.drains hfair
  obtain ⟨N, hn, hn₀⟩ : ∃ N, n ≤ N ∧ n₀ ≤ N := ⟨max n n₀, le_max_left .., le_max_right ..⟩
  have hholds : ∀ j ≥ N, (st j).Holds k none := fun j hj =>
    (hall j).holds (h.run.reach j) (hcarries j) (hspoke j (by omega)) (hdrained j (by omega)).1
  obtain ⟨c, hc, hk, -⟩ := hholds N (Nat.le_refl _)
  have hmem : ∀ j ≥ N, c.fd ∈ (st j).clientFds := by
    intro j hj
    rw [(hdrained j (by omega)).2, ← (hdrained N hn₀).2]
    exact List.mem_map_of_mem hc
  -- the descriptor is not closed, so it is always that of the connection
  have hfile : ∀ j ≥ N, (st j).fdt c.fd = some (.conn k) := by
    intro j hj
    induction j, hj using Nat.le_induction with
    | base => exact hk
    | succ j hj ih =>
      obtain ⟨x, hx, hfd⟩ := List.mem_map.1 (hmem (j + 1) (by omega))
      obtain ⟨k', hk'⟩ := (owned_of_reach (h.run.reach (j + 1))).control x hx
      rw [hfd] at hk'
      rw [(h.effect j).file_stable (by rw [ih]; rfl) (by rw [hk']; rfl), ih]
  have hsits : ∀ i, (st n₀).clientFds[i]? = some c.fd → ∀ j ≥ N, (st j).Sits k i := fun i hi j hj =>
    (hholds j hj).sits (owned_of_reach (h.run.reach j)) ((hdrained j (by omega)).2 ▸ hi) (hfile j hj)
  obtain ⟨i₀, hi₀⟩ := List.mem_iff_getElem?.1 ((hdrained N hn₀).2 ▸ hmem N (Nat.le_refl _))
  obtain ⟨j₀, hj₀, listener, revents, i, hact, hfd, hrev⟩ := hfair.reports N c.fd fun j hj htop =>
    ⟨hmem j hj, readable_of_top (hcarries j) (hspoke j (by omega)) (hsits i₀ hi₀ j hj) htop
      ((hdrained j (by omega)).2 ▸ hi₀)⟩
  rw [(hdrained j₀ (by omega)).2] at hfd
  -- from there the loop cannot come back to its top
  have hheads : ∀ j ≥ j₀ + 1, (st j).pc.Heads i := by
    intro j hj
    induction j, hj using Nat.le_induction with
    | base => exact heads_of_poll (hact ▸ h.run.next j₀) ((hdrained j₀ (by omega)).2 ▸ hfd) hrev
    | succ j hj ih =>
      refine heads_step ih (hcarries j) hm hop (hspoke j (by omega)) (hsits i hfd j (by omega)) ?_ (h.looping (j + 1))
        (hall (j + 1)) (h.run.next j)
      rw [← length_clientFds, ← length_clientFds, (hdrained (j + 1) (by omega)).2, (hdrained j (by omega)).2]
  obtain ⟨j, hj, htop⟩ := h.tops (j₀ + 1)
  obtain ⟨pfds, p, -, -, hpc | ⟨x, -, hpc | ⟨r, hpc⟩⟩⟩ := hheads j hj <;> rw [htop] at hpc <;> cases hpc

/-- What is found has been sent. -/
theorem Sys.Carries.talked (hs : s.Carries k m) (hr : s.ReadsWaiting) {buf : Bytes}
    (h : s.Finds alloc c (.done op fields buf)) (hk : s.fdt c.fd = some (.conn k)) :
    ∃ conn, s.conns[k]? = some conn ∧ conn.talked := by
  obtain ⟨pfds, i, r, hpc, hc, hscan⟩ := h
  obtain ⟨-, c', hc', hidle⟩ := hr pfds i r hpc
  obtain rfl : c' = c := Option.some.inj (hc'.symm.trans hc)
  obtain rfl := hs.head pfds i r c' hpc hc hk
  obtain ⟨conn, hconn, ⟨hbuf, -⟩ | ⟨-, -, htalked, -⟩⟩ :=
    hs.entry (by rw [hpc]; rfl) c' (List.mem_of_getElem? hc) hk hidle
  · rw [hbuf] at hscan
    cases hscan
  · exact ⟨conn, hconn, htalked⟩

/-- The child of the connection is forked with the fields of the message. -/
theorem forked_of_story (hr : Reach (step boot alloc) (Only k m) {} s) (hlen : m.bytes.length ≤ 65536)
    (hm : scan alloc .head m.bytes = .done op fields []) (hop : opOf op = .request) (h : step boot alloc s a = some t)
    (hnew : .forked pid ∈ t.story k) (hold : .forked pid ∉ s.story k) :
    a = .daemon (.forked pid) ∧ t.kids pid = some { owner := some (.conn k) } ∧
      ∃ c, s.Finds alloc c (.done op fields []) ∧ s.fdt c.fd = some (.conn k) := by
  have hreads := readsWaiting_of_reach hr
  obtain ⟨e, he, hdeed⟩ := List.mem_filterMap.1 (List.mem_reverse.1 hnew)
  rcases (step_effect hreads h).log_inv (parented_of_reach hr) he with hmem | hevent
  · exact absurd (List.mem_reverse.2 (List.mem_filterMap.2 ⟨e, hmem, hdeed⟩)) hold
  · cases hevent with
    | @fork pid' c op' fields' buf ha hrun hc hidle hbuf hfinds hop' =>
      obtain ⟨hk, hpid⟩ := Option.ite_none_right_eq_some.1 hdeed
      cases hpid
      subst ha
      rcases (carries_of_reach hlen hm hop hr).finds hreads hfinds hk with hfill | hdone
      · cases hfill
      · rw [hm] at hdone
        cases hdone
        refine ⟨rfl, ?_, c, hfinds, hk⟩
        obtain ⟨pfds, i, r, hpc, hget, hscan⟩ := hfinds
        simp only [step, Sys.daemonStep, hpc, hget, Sys.read, hscan] at h
        rcases dispatch_cases h with ⟨-, hans, -⟩ | ⟨-, hans, -⟩ | ⟨_, ⟨-, hans, -⟩ | ⟨-, hans, -⟩, -⟩ |
          ⟨_, -, hans, -, rfl⟩ <;> cases hans
        rw [goto_kids, fork_kids, ← hk]
        exact update_self ..
    | opened => exact absurd (Option.ite_none_right_eq_some.1 hdeed).2 (fun h => by cases h)
    | closed => exact absurd (Option.ite_none_right_eq_some.1 hdeed).2 (fun h => by cases h)
    | reply => exact absurd (Option.ite_none_right_eq_some.1 hdeed).2 (fun h => by cases h)
    | kill => cases hdeed
    | reap => exact absurd (Option.ite_none_right_eq_some.1 hdeed).2 (fun h => by cases h)
    | status => exact absurd (Option.ite_none_right_eq_some.1 hdeed).2 (fun h => by cases h)

/-- The status of its child is all that the client of one request is told. -/
theorem Sys.Carries.only_status (hs : s.Carries k m) (h : Reach (step boot alloc) Free {} s) {code : Status}
    (hmem : .status code ∈ s.replies k) : s.replies k = [.status code] := by
  obtain ⟨n, hreplies⟩ := replies_of_status h hmem
  cases n with
  | zero => exact hreplies
  | succ n =>
    have hok : .ok ∈ s.replies k := by
      rw [hreplies]
      exact List.mem_append_left _ (List.mem_cons_self ..)
    rcases hs.told .ok (mem_replies.1 hok) with hstatus | hfork | ⟨heof, -⟩
    · cases hstatus
    · cases hfork
    · cases heof

/-- A client sends its request, which is queued as one message, and waits.  In every run in which the daemon goes on and
the clients come to rest, it is told that `fork` failed, or its child is forked with the strings that the client had,
and if the child ends, the client is told its status and nothing else. -/
theorem request_answered {cwd envBlob subject : Str} {args : List Str} (hop : op = "RUN".toList ∨ op = "EVAL".toList)
    (hsend : sendRunRequest op cwd envBlob subject args = some m.bytes) (hlen : m.bytes.length ≤ packetSize)
    (hfits : withCapacity alloc (args.length + 3) = none) (h : Quiet boot alloc st act) (hfair : Fair st act)
    (honly : ∀ j, Only k m (st j) (act j)) (hact : act n = .send k m) (hstay : ∀ j, act j ≠ .hangup k) :
    (∃ j, .fork ∈ (st j).replies k) ∨ ∃ l pid, act l = .daemon (.forked pid) ∧
      (∃ c fields, (st l).Finds alloc c (.done op fields []) ∧ (st l).fdt c.fd = some (.conn k) ∧
        decodeFields fields = some (cwd :: envBlob :: subject :: args)) ∧
      ((∀ j > l, (st j).kids pid = some { owner := some (.conn k) }) ∨
        ∃ i > l, ∃ status, act i = .exit pid status ∧
          ∃ j > i, (st j).replies k = [.status (waitStatusCode status)]) := by
  have hlen : m.bytes.length ≤ 65536 := hlen.trans (by decide)
  obtain ⟨fields, hm, hfields⟩ := scan_sendRunRequest hop hfits hsend hlen
  have hreq := opOf_request hop
  have hspoke : ∀ j ≥ n + 1, (st j).Spoke k := by
    intro j hj
    induction j, hj using Nat.le_induction with
    | base =>
      have hstep := hact ▸ h.run.next n
      simp only [step] at hstep
      split at hstep
      · cases hstep
      · rename_i conn hconn
        split at hstep
        · cases hstep
        · rename_i hopen
          rw [← Option.some.inj hstep]
          exact ⟨conn.send m, getElem?_set_of_get hconn _, rfl, by simpa [Conn.send] using hopen⟩
    | succ j hj ih => exact (h.effect j).spoke ih (hstay j)
  by_cases hfork : ∃ j, .fork ∈ (st j).replies k
  · exact .inl hfork
  · right
    have hforked : ∃ j pid, .forked pid ∈ (st j).story k := by
      obtain ⟨j, hj⟩ := h.served hfair honly hlen hm hreq hspoke
      by_contra hnone
      push Not at hnone hfork
      exact hj ⟨hfork j, hnone j⟩
    -- the first state in which there is a child
    classical
    obtain ⟨pid, hpid⟩ := Nat.find_spec hforked
    obtain ⟨l, hl⟩ : ∃ l, Nat.find hforked = l + 1 := by
      refine Nat.exists_eq_succ_of_ne_zero fun hzero => ?_
      rw [hzero, h.run.start] at hpid
      cases hpid
    rw [hl] at hpid
    have hold : .forked pid ∉ (st l).story k := fun hmem => Nat.find_min hforked (by omega) ⟨pid, hmem⟩
    obtain ⟨hl', hkid, c, hfinds, hk⟩ :=
      forked_of_story (h.run.reach_guarded honly l) hlen hm hreq (h.run.next l) hpid hold
    have hnl : n ≤ l := by
      by_contra hlt
      obtain ⟨conn, hconn, htalked⟩ := (carries_of_reach hlen hm hreq (h.run.reach_guarded honly l)).talked
        (readsWaiting_of_reach (h.run.reach l)) hfinds hk
      have hlater : ∀ j ≥ l, ∃ conn, (st j).conns[k]? = some conn ∧ conn.talked := by
        intro j hj
        induction j, hj using Nat.le_induction with
        | base => exact ⟨conn, hconn, htalked⟩
        | succ j hj ih =>
          obtain ⟨conn, hconn, htalked⟩ := ih
          obtain ⟨conn', hconn', hkeep, -⟩ := (h.effect j).conn hconn
          exact ⟨conn', hconn', hkeep htalked⟩
      obtain ⟨conn, hconn, htalked⟩ := hlater n (by omega)
      have hsilent := honly n
      rw [hact] at hsilent
      rw [(hsilent rfl).2 conn hconn] at htalked
      cases htalked
    refine ⟨l, pid, hl', ⟨c, fields, hfinds, hk, hfields⟩, ?_⟩
    refine (h.told hkid fun j hj => hspoke j (by omega)).imp id ?_
    rintro ⟨i, hi, status, hexit, j, hj, hmem⟩
    have hcarries := carries_of_reach hlen hm hreq (h.run.reach_guarded honly j)
    exact ⟨i, hi, status, hexit, j, hj, hcarries.only_status (h.run.reach j) hmem⟩

end Request

def Act.sends : Act → Bool
  | .send .. => true
  | _ => false

private theorem only_of_silent (h : a.sends = false) : Only k m s a := by
  cases a with
  | send => cases h
  | _ => trivial

/-- `calisto run app.rb -v` is sent, and its child ends with status 3. -/
def smallRun : List Act :=
  oneClient "RUN 4\r\n$4\r\nLw==$0\r\n$8\r\nYXBwLnJi$4\r\nLXY=" smallRequest.nonempty ++
    [.daemon (.forked 50), .exit 50 768, .daemon .go, .daemon .go, .daemon .go]

/-- The client hears of it, whereupon the daemon polls for ever. -/
theorem request_answered_run :
    ∃ st act, Quiet bareBoot (fun _ => true) st act ∧ Fair st act ∧ act 1 = .send 0 smallRequest ∧
      ((∃ j, .fork ∈ (st j).replies 0) ∨ ∃ l pid, act l = .daemon (.forked pid) ∧
        (∃ c fields, (st l).Finds (fun _ => true) c (.done "RUN".toList fields []) ∧
          (st l).fdt c.fd = some (.conn 0) ∧
          decodeFields fields = some ["/".toList, [], "app.rb".toList, "-v".toList]) ∧
        ((∀ j > l, (st j).kids pid = some { owner := some (.conn 0) }) ∨
          ∃ i > l, ∃ status, act i = .exit pid status ∧
            ∃ j > i, (st j).replies 0 = [.status (waitStatusCode status)])) := by
  have hrun : (exec (step bareBoot fun _ => true) {} smallRun).any
      (fun s => s.pc = .top ∧ s.term = false ∧ s.clients = [] ∧ s.backlog = []) = true := by
    decide
  obtain ⟨s, hs, hstat⟩ := (Option.any_eq_true _ _).1 hrun
  obtain ⟨htop, hterm, hclients, hbacklog⟩ := of_decide_eq_true hstat
  obtain ⟨st', act', hcycle, hmem⟩ := exists_cycle
    (exec_idle bareBoot (fun _ => true) htop hterm hclients) (by simp)
  obtain ⟨st, act, hend, hfirst, hlater⟩ := Endless.after hs hcycle
  have hidle : ∀ k, act (16 + k) ∈ [.daemon (.poll false []), .daemon .go, .daemon .go] := by
    intro k
    have hact := hmem k
    rwa [← (hlater k).2] at hact
  have hcost : ∀ k ≥ 16, (act k).weight = 1 ∧ (act k).cost = 0 ∧ act k ≠ .hangup 0 ∧
      Only 0 smallRequest (st k) (act k) := by
    intro k hk
    obtain ⟨j, rfl⟩ := Nat.exists_eq_add_of_le hk
    have hact := hidle j
    simp only [List.mem_cons, List.not_mem_nil, or_false] at hact
    rcases hact with hact | hact | hact <;> rw [hact] <;> exact ⟨rfl, rfl, fun h => (by cases h), trivial⟩
  have hquiet : Quiet bareBoot (fun _ => true) st act := by
    refine ⟨hend, fun n => ⟨16 + n, by omega, ?_⟩, 16, fun k hk => (hcost k hk).2.1⟩
    rw [(hcost (16 + n) (by omega)).1]
    exact Nat.one_ne_zero
  have hempty : ∀ j ≥ 16, (st j).crowd = 0 := by
    intro j hj
    induction j, hj using Nat.le_induction with
    | base =>
      have hstart : st 16 = s := (hlater 0).1.trans hcycle.start
      rw [hstart, Sys.crowd, hbacklog, hclients]
      rfl
    | succ j hj ih =>
      rcases (hquiet.effect j).crowd (hcost j hj).2.1 with ⟨hb, hfds⟩ | hlt
      · rw [Sys.crowd, hb, ← length_clientFds, hfds, length_clientFds]
        exact ih
      · omega
  have hfair : Fair st act := by
    have hnone : ∀ j ≥ 16, (st j).backlog = [] ∧ (st j).clientFds = [] := by
      intro j hj
      have hzero := hempty j hj
      rw [Sys.crowd, ← length_clientFds] at hzero
      exact ⟨List.length_eq_zero_iff.1 (by omega), List.length_eq_zero_iff.1 (by omega)⟩
    refine ⟨fun n fd hready => ?_, fun n hwaits => ?_, fun n hwaits => ?_⟩
    · obtain ⟨j, hj, hpc⟩ := hquiet.tops (n + 16)
      have hfd := (hready j (by omega) hpc).1
      rw [(hnone j (by omega)).2] at hfd
      cases hfd
    · exact absurd (hnone (n + 16) (by omega)).1 (hwaits (n + 16) (by omega))
    · obtain ⟨l, hl, -, hne⟩ := hwaits (n + 16) (by omega)
      exact absurd (hnone l (by omega)).1 hne
  have hact : act 1 = .send 0 smallRequest := (Option.some.inj (hfirst 1 (by decide))).symm
  have hget : ∀ j < 16, smallRun[j]? = some (act j) := hfirst
  have hnever : ∀ a ∈ smallRun, a ≠ .hangup 0 := by decide
  have hstay : ∀ j, act j ≠ .hangup 0 := by
    intro j
    by_cases hj : j < 16
    · exact hnever _ (List.mem_of_getElem? (hget j hj))
    · exact (hcost j (by omega)).2.2.1
  have hsilent : ∀ j < 16, j ≠ 1 → ∀ a ∈ smallRun[j]?, a.sends = false := by decide
  have honly : ∀ j, Only 0 smallRequest (st j) (act j) := by
    intro j
    by_cases hj : j < 16
    · by_cases hone : j = 1
      · subst hone
        have hconnect := hend.next 0
        rw [hend.start, show act 0 = .connect from (Option.some.inj (hget 0 (by decide))).symm] at hconnect
        rw [hact, ← Option.some.inj hconnect]
        exact fun _ => ⟨rfl, by simp⟩
      · exact only_of_silent (hsilent j hj hone _ (hget j hj))
    · exact (hcost j (by omega)).2.2.2
  have hsend : sendRunRequest "RUN".toList "/".toList [] "app.rb".toList ["-v".toList] = some smallRequest.bytes := by
    rw [sendRunRequest, mapM_b64]
    decide +kernel
  exact ⟨st, act, hquiet, hfair, hact,
    request_answered (.inl rfl) hsend (by decide) rfl hquiet hfair honly hact hstay⟩

end Calisto

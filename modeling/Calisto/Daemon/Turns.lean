import Calisto.Daemon.Pass
import Calisto.Daemon.Session
import Calisto.Lib.Potential

/-!
# How long a turn of the loop takes

Between two calls of `poll` the daemon serves its clients one after the other, and a read goes on until there is a
command or nothing more to receive.  Every call of such a turn takes something away: a connection of the backlog, a
client of the pass, bytes that have been sent.  So a turn comes to its end unless the clients go on sending.
-/

namespace Calisto

open Function Machine

variable {boot : Boot} {alloc : Nat → Bool} {s t s' : Sys} {pfds : List PollFd} {i : Nat} {r : Reader}
  {c : DaemonClient} {ans : Answer} {a : Act}

/-! ### What is left to do -/

def queueLength (queue : List Msg) : Nat := (queue.map fun m => m.bytes.length).sum

/-- The bytes that have been sent and not been received. -/
def Sys.queued (s : Sys) : Nat := (s.conns.map fun conn => queueLength conn.queue).sum

/-- How many calls a turn makes at most, up to the next `poll` or to the end of the loop. -/
def Sys.fuel (s : Sys) : Nat :=
  match s.pc with
  | .accepting pfds => 4 * s.backlog.length + 3 * pfds.length + s.queued + 3 * s.clients.length + 3
  | .pass pfds i => 3 * (pfds.length - i) + s.queued + 3 * s.clients.length + 2
  | .reading pfds i _ =>
    3 * (pfds.length - (i + 1)) + ((s.clients[i]?).any DaemonClient.first).toNat + s.queued + 3 * s.clients.length + 3
  | .reap i | .shutdown i => s.clients.length - i + 1
  | .top | .returned | .pollFailed | .crashed _ => 0

/-- A call of the daemon, unless it is interrupted. -/
def Act.weight : Act → Nat
  | .daemon .acceptInterrupted | .daemon .pollInterrupted => 0
  | .daemon _ => 1
  | _ => 0

/-- What the clients add to a turn. -/
def Act.cost : Act → Nat
  | .connect => 4
  | .send _ m => m.bytes.length
  | _ => 0

/-- The loop is not at its top. -/
def Busy (s : Sys) (_ : Act) : Prop := s.pc ≠ .top

instance (s : Sys) (a : Act) : Decidable (Busy s a) := inferInstanceAs (Decidable (_ ≠ _))

/-! ### The queues -/

private theorem glue_length (room : Nat) (queue : List Msg) :
    (glue room queue).1.length + queueLength (glue room queue).2.2 = queueLength queue := by
  induction queue generalizing room with
  | nil => rfl
  | cons m queue ih =>
    unfold glue
    split
    · simp [queueLength]
    · split
      · simp only [queueLength, List.map_cons, List.sum_cons, List.length_take, List.length_drop]
        omega
      · split
        · simp [queueLength]
        · have hrest := ih (room - m.bytes.length)
          generalize glue (room - m.bytes.length) queue = g at hrest ⊢
          obtain ⟨bytes, files, rest⟩ := g
          simp only [queueLength, List.map_cons, List.sum_cons, List.length_append] at hrest ⊢
          omega

private theorem sum_map_set {α : Type*} (f : α → Nat) {xs : List α} {k : Nat} {x : α} (h : xs[k]? = some x) (y : α) :
    ((xs.set k y).map f).sum + f x = (xs.map f).sum + f y := by
  induction xs generalizing k with
  | nil => simp at h
  | cons z xs ih =>
    cases k with
    | zero =>
      simp only [List.getElem?_cons_zero, Option.some.injEq] at h
      subst h
      simp only [List.set_cons_zero, List.map_cons, List.sum_cons]
      omega
    | succ k =>
      rw [List.getElem?_cons_succ] at h
      have := ih h
      simp only [List.set_cons_succ, List.map_cons, List.sum_cons]
      omega

/-- A receive takes bytes away. -/
theorem Sys.Takes.queued_lt {fd : Fd} {k : ConnId} {conn : Conn} {bytes : Bytes} {files : List FileId}
    {queue : List Msg} (h : s.Takes fd k conn bytes files queue) : (s.setQueue k conn queue).queued < s.queued := by
  have hset := sum_map_set (fun conn : Conn => queueLength conn.queue) h.get { conn with queue := queue }
  have hlength := glue_length 65536 conn.queue
  have hne := glue_ne_nil (show 0 < 65536 by decide) h.nonempty
  rw [h.glue] at hlength hne
  dsimp only at hlength hne
  have hpos := List.length_pos_iff.2 hne
  simp only [Sys.queued, setQueue_conns] at hset ⊢
  omega

/-! ### One call -/

private theorem conns_queued (h : t.conns = s.conns) : t.queued = s.queued := by rw [Sys.queued, h, Sys.queued]

private theorem fuel_pass {j : Nat} (hpc : t.pc = .pass pfds j) :
    t.fuel = 3 * (pfds.length - j) + t.queued + 3 * t.clients.length + 2 := by
  rw [Sys.fuel, hpc]

private theorem fuel_reading (hpc : t.pc = .reading pfds i r) :
    t.fuel = 3 * (pfds.length - (i + 1)) + ((t.clients[i]?).any DaemonClient.first).toNat + t.queued +
      3 * t.clients.length + 3 := by
  rw [Sys.fuel, hpc]

private theorem visit_fuel (hs : s.pc = .pass pfds i) (h : s.visit pfds i ans = some t) : t.fuel < s.fuel := by
  rw [fuel_pass hs]
  rcases visit_cases h with ⟨-, -, rfl⟩ | ⟨p, c, hp, hc, hround⟩
  · show s.clients.length - 0 + 1 < _
    omega
  · have hi : i < pfds.length := (List.getElem?_eq_some_iff.1 hp).1
    rcases hround with ⟨-, -, rfl⟩ | ⟨-, -, -, rfl⟩ | ⟨pid, st, -, -, -, -, rfl⟩
    · rw [fuel_pass rfl]
      show 3 * (pfds.length - (i + 1)) + s.queued + 3 * s.clients.length + 2 < _
      omega
    · rw [fuel_reading rfl]
      have hfirst := Bool.toNat_le ((s.clients[i]?).any DaemonClient.first)
      show 3 * (pfds.length - (i + 1)) + ((s.clients[i]?).any DaemonClient.first).toNat + s.queued +
        3 * s.clients.length + 3 < _
      omega
    · rw [fuel_pass rfl]
      have hlength : (s.clients.eraseIdx i).length + 1 = s.clients.length := by
        have hlt := (List.getElem?_eq_some_iff.1 hc).1
        rw [List.length_eraseIdx, if_pos hlt]
        omega
      have hclients : (((s.killChild pid st).1.leave i c.fd).goto (.pass pfds i)).clients = s.clients.eraseIdx i := by
        show (s.killChild pid st).1.clients.eraseIdx i = _
        rw [killChild_clients]
      have hqueued : (((s.killChild pid st).1.leave i c.fd).goto (.pass pfds i)).queued = s.queued :=
        conns_queued (killChild_conns s pid st)
      rw [hclients, hqueued]
      omega

private theorem read_fuel (hs : s.pc = .reading pfds i r) (hc : s.clients[i]? = some c)
    (h : s.read boot alloc pfds i r c ans = some t) : t.fuel < s.fuel := by
  rw [fuel_reading hs, hc]
  have hlt : i < s.clients.length := (List.getElem?_eq_some_iff.1 hc).1
  have herase : (s.clients.eraseIdx i).length + 1 = s.clients.length := by
    rw [List.length_eraseIdx, if_pos hlt]
    omega
  have hdismiss : ∀ reply, ((s.dismiss i c.fd reply).goto (.pass pfds i)).fuel < 3 * (pfds.length - (i + 1)) +
      ((some c).any DaemonClient.first).toNat + s.queued + 3 * s.clients.length + 3 := by
    intro reply
    rw [fuel_pass rfl]
    show 3 * (pfds.length - i) + s.queued + 3 * (s.clients.eraseIdx i).length + 2 < _
    omega
  have hpass : ∀ u : Sys, u.pc = .pass pfds (i + 1) → u.conns = s.conns → u.clients.length = s.clients.length →
      u.fuel < 3 * (pfds.length - (i + 1)) + ((some c).any DaemonClient.first).toNat + s.queued +
        3 * s.clients.length + 3 := by
    intro u hpc hconns hlength
    rw [fuel_pass hpc, conns_queued hconns, hlength]
    omega
  cases hscan : scan alloc r c.buf with
  | done op fields buf =>
    simp only [Sys.read, hscan] at h
    rcases dispatch_cases h with ⟨-, -, rfl⟩ | ⟨-, -, rfl⟩ | ⟨reply, -, rfl⟩ | ⟨pid, -, -, -, rfl⟩
    · exact hpass _ rfl rfl (List.length_set ..)
    · show (s.clients.set i _).length - 0 + 1 < _
      rw [List.length_set]
      omega
    · exact hdismiss reply
    · refine hpass _ rfl ?_ ?_
      · show (Sys.fork _ i _ fields pid).conns = s.conns
        rw [fork_conns]
        rfl
      · show (Sys.fork _ i _ fields pid).clients.length = _
        rw [fork_clients, List.length_set]
        exact List.length_set ..
  | bad line buf =>
    obtain ⟨-, rfl⟩ := read_bad hscan h
    exact hdismiss _
  | crash e =>
    obtain ⟨-, rfl⟩ := read_crash hscan h
    exact Nat.succ_pos _
  | fill site r' buf =>
    rcases fill_cases hscan h with ⟨rfl, -⟩ | ⟨rfl, -⟩ | ⟨hfirst, rfl, -⟩ |
      ⟨k, conn, bytes, files, queue, ht, hfirst, rfl⟩ |
      ⟨fds, k, conn, bytes, files, queue, rfl, ht, hfirst, -, -, -, rfl⟩
    · exact hpass _ rfl rfl (List.length_set ..)
    · exact hdismiss _
    · -- the end of the stream on the first receive is taken for an empty message once
      rw [fuel_reading rfl]
      simp only [Sys.goto, Sys.setClient, List.getElem?_set_self hlt, List.length_set, Option.any_some, hfirst]
      simp [Sys.queued]
    · rw [fuel_reading rfl]
      have hlt' := ht.queued_lt
      simp only [Sys.goto, Sys.setClient, setQueue_clients, List.getElem?_set_self hlt, List.length_set,
        Option.any_some, Sys.queued] at hlt' ⊢
      omega
    · rw [fuel_reading rfl]
      have hlt' := ht.queued_lt
      simp only [Sys.goto, Sys.setClient, install_clients, install_conns, setQueue_clients,
        List.getElem?_set_self hlt, List.length_set, Option.any_some, Sys.queued] at hlt' ⊢
      simp only [hfirst, Bool.toNat_true, Bool.toNat_false] at hlt' ⊢
      omega

private theorem accept_fuel (hs : s.pc = .accepting pfds) (h : s.accept boot pfds ans = some t)
    (hans : ans ≠ .acceptInterrupted) : t.fuel < s.fuel := by
  have hfuel : s.fuel = 4 * s.backlog.length + 3 * pfds.length + s.queued + 3 * s.clients.length + 3 := by
    rw [Sys.fuel, hs]
  rw [hfuel]
  rcases accept_cases h with ⟨fd, k, rest, -, hb, -, rfl⟩ | ⟨hint, -⟩ | ⟨-, rfl⟩
  · have hnext : (s.welcome fd k rest).fuel =
        4 * rest.length + 3 * pfds.length + s.queued + 3 * (s.clients.length + 1) + 3 := by
      have hpc : (s.welcome fd k rest).pc = .accepting pfds := hs
      rw [Sys.fuel, hpc]
      show 4 * rest.length + 3 * pfds.length + s.queued + 3 * (s.clients ++ [_]).length + 3 = _
      rw [List.length_append, List.length_singleton]
    rw [hnext, hb, List.length_cons]
    omega
  · exact absurd hint hans
  · rw [fuel_pass rfl]
    show 3 * (pfds.length - 0) + s.queued + 3 * s.clients.length + 2 < _
    omega

private theorem reapChild_fuel (hs : s.pc = .reap i) (h : s.reapChild i ans = some t) : t.fuel < s.fuel := by
  have hfuel : s.fuel = s.clients.length - i + 1 := by rw [Sys.fuel, hs]
  unfold Sys.reapChild at h
  split at h
  · cases h
  · split at h
    · cases h
      rw [hfuel]
      exact Nat.succ_pos _
    · rename_i c hc
      have hlt := (List.getElem?_eq_some_iff.1 hc).1
      have hnext : ((s.goto (.reap (i + 1))).fuel) < s.fuel := by
        rw [hfuel]
        show s.clients.length - (i + 1) + 1 < _
        omega
      have hdismiss : ∀ u : Sys, u.pc = .reap i → u.clients = s.clients.eraseIdx i → u.fuel < s.fuel := by
        intro u hpc hclients
        have hu : u.fuel = u.clients.length - i + 1 := by rw [Sys.fuel, hpc]
        rw [hu, hclients, hfuel, List.length_eraseIdx, if_pos hlt]
        omega
      split at h
      · cases h
        exact hnext
      · split at h <;> cases h
        · exact hnext
        · exact hdismiss _ hs rfl
        · exact hdismiss _ hs rfl

theorem shutdownChild_fuel (hs : s.pc = .shutdown i) (h : s.shutdownChild i ans = some t) : t.fuel < s.fuel := by
  have hfuel : s.fuel = s.clients.length - i + 1 := by rw [Sys.fuel, hs]
  have hnext : ∀ u : Sys, u.pc = .shutdown (i + 1) → u.clients.length = s.clients.length → i < s.clients.length →
      u.fuel < s.fuel := by
    intro u hpc hlength hlt
    have hu : u.fuel = u.clients.length - (i + 1) + 1 := by rw [Sys.fuel, hpc]
    rw [hu, hlength, hfuel]
    omega
  unfold Sys.shutdownChild at h
  split at h
  · obtain ⟨-, ht⟩ := Option.ite_none_right_eq_some.1 h
    cases ht
    rw [hfuel]
    exact Nat.succ_pos _
  · rename_i c hc
    have hlt := (List.getElem?_eq_some_iff.1 hc).1
    split at h
    · obtain ⟨-, ht⟩ := Option.ite_none_right_eq_some.1 h
      cases ht
      exact hnext _ rfl rfl hlt
    · split at h
      · rename_i pid hp _ st
        have hlength : ((s.setClient i { c with pid := none }).killChild pid st).1.clients.length =
            s.clients.length := by
          rw [killChild_clients]
          exact List.length_set ..
        dsimp only at h
        split at h <;> rename_i u _ hu <;> cases h <;> rw [hu] at hlength <;> exact hnext _ rfl hlength hlt
      · cases h

private theorem weight_le (a : Act) : a.weight ≤ 1 := by
  unfold Act.weight
  split <;> simp

/-- A call of the daemon that is not interrupted leaves less to do. -/
theorem daemonStep_fuel (hs : s.pc ≠ .top) (h : s.daemonStep boot alloc ans = some t) :
    t.fuel + (Act.daemon ans).weight ≤ s.fuel := by
  have hweight := weight_le (.daemon ans)
  unfold Sys.daemonStep at h
  rcases hpc : s.pc with _ | pfds | ⟨pfds, i⟩ | ⟨pfds, i, r⟩ | i | i | _ | _ | e <;> simp only [hpc] at h
  · exact absurd hpc hs
  · by_cases hans : ans = .acceptInterrupted
    · subst hans
      cases h
      exact Nat.le_refl _
    · have hfuel := accept_fuel hpc h hans
      omega
  · have hfuel := visit_fuel hpc h
    omega
  · split at h
    · cases h
    · rename_i c hc
      have hfuel := read_fuel hpc hc h
      omega
  · have hfuel := reapChild_fuel hpc h
    omega
  · have hfuel := shutdownChild_fuel hpc h
    omega
  all_goals cases h

/-- What happens outside the daemon adds to a turn what it costs. -/
theorem outside_fuel (ha : ∀ ans, a ≠ .daemon ans) (h : step boot alloc s a = some t) : t.fuel ≤ s.fuel + a.cost := by
  have hframe : ∀ u : Sys, u.pc = s.pc → u.clients = s.clients →
      4 * u.backlog.length + u.queued ≤ 4 * s.backlog.length + s.queued + a.cost → u.queued ≤ s.queued + a.cost →
      u.fuel ≤ s.fuel + a.cost := by
    intro u hpc hclients hsum hqueued
    unfold Sys.fuel
    rw [hpc, hclients]
    split <;> omega
  cases a with
  | connect =>
    cases h
    refine hframe _ rfl rfl ?_ ?_ <;> simp [Sys.queued, queueLength, Act.cost]
    omega
  | send k m =>
    simp only [step] at h
    split at h
    · cases h
    · rename_i conn hconn
      split at h
      · cases h
      · cases h
        have hset := sum_map_set (fun conn : Conn => queueLength conn.queue) hconn (conn.send m)
        have hqueued : ((s.conns.set k (conn.send m)).map fun conn => queueLength conn.queue).sum =
            s.queued + m.bytes.length := by
          simp only [Sys.queued, Conn.send, queueLength, List.map_append, List.sum_append, List.map_cons,
            List.map_nil, List.sum_cons, List.sum_nil] at hset ⊢
          omega
        refine hframe _ rfl rfl ?_ ?_
        · show 4 * s.backlog.length + (List.map _ (s.conns.set k (conn.send m))).sum ≤ _
          rw [hqueued]
          simp [Act.cost]
          omega
        · show (List.map _ (s.conns.set k (conn.send m))).sum ≤ _
          rw [hqueued]
          rfl
  | hangup k =>
    simp only [step] at h
    split at h
    · cases h
    · rename_i conn hconn
      cases h
      have hset := sum_map_set (fun conn : Conn => queueLength conn.queue) hconn { conn with closed := true }
      have hqueued : ((s.conns.set k { conn with closed := true }).map fun conn => queueLength conn.queue).sum =
          s.queued := by
        simp only [Sys.queued] at hset ⊢
        omega
      refine hframe _ rfl rfl ?_ ?_
      · show 4 * s.backlog.length + (List.map _ (s.conns.set k _)).sum ≤ _
        rw [hqueued]
        exact Nat.le_refl _
      · show (List.map _ (s.conns.set k _)).sum ≤ _
        rw [hqueued]
        exact Nat.le_refl _
  | exit pid status =>
    simp only [step] at h
    split at h
    · cases h
    · split at h <;> cases h
      exact Nat.le_refl _
  | signal =>
    cases h
    exact Nat.le_refl _
  | daemon ans => exact absurd rfl (ha ans)

theorem pays (boot : Boot) (alloc : Nat → Bool) : Pays (step boot alloc) Busy Sys.fuel Act.weight Act.cost := by
  intro s a t hbusy h
  by_cases ha : ∃ ans, a = .daemon ans
  · obtain ⟨ans, rfl⟩ := ha
    exact daemonStep_fuel hbusy h
  · have hout := outside_fuel (fun ans he => ha ⟨ans, he⟩) h
    have hweight : a.weight = 0 := by
      cases a with
      | daemon ans => exact absurd ⟨ans, rfl⟩ ha
      | _ => rfl
    omega

/-! ### The turns of a run -/

/-- A loop that has not ended. -/
def Pc.ended : Pc → Bool
  | .returned | .pollFailed | .crashed _ => true
  | _ => false

/-- A receive of a client always has some result. -/
theorem can_receive (ho : s.Owned boot) (hc : c ∈ s.clients) {c' : DaemonClient} (hfd : c'.fd = c.fd) :
    ∃ x, s.receive boot c' (.received []) = some x := by
  obtain ⟨k, hk⟩ := ho.control c hc
  obtain ⟨conn, hconn⟩ : ∃ conn, s.conns[k]? = some conn := ⟨_, List.getElem?_eq_getElem (ho.bound c.fd k hk)⟩
  unfold Sys.receive
  rw [hfd, hk]
  simp only [hconn]
  split
  · simp only [ne_eq, not_true_eq_false, if_false]
    split <;> exact ⟨_, rfl⟩
  · split <;> simp

/-- The daemon is never stuck: some answer lets it go on. -/
theorem can_step (h : Reach (step boot alloc) Free {} s) (hpc : s.pc.ended = false) :
    ∃ ans t, step boot alloc s (.daemon ans) = some t ∧ (Act.daemon ans).weight = 1 := by
  have hreads := readsWaiting_of_reach h
  rcases hs : s.pc with _ | pfds | ⟨pfds, i⟩ | ⟨pfds, i, r⟩ | i | i | _ | _ | e <;> rw [hs] at hpc <;>
    simp only [step, Sys.daemonStep, hs]
  · by_cases hterm : s.term = true
    · exact ⟨.go, s.goto (.shutdown 0), by simp [Sys.tick, hterm], rfl⟩
    · refine ⟨.pollFailed, s.goto .pollFailed, ?_, rfl⟩
      simp [Sys.tick, hterm]
  · exact ⟨.acceptFailed, _, rfl, rfl⟩
  · unfold Sys.visit
    split
    · rename_i p c hp hc
      by_cases hrev : p.revents = true
      · simp only [hrev, if_true]
        split
        · by_cases hdead : s.peekDead c.fd = true
          · exact ⟨.ended 0, _, by simp only [hdead, if_true]; rfl, rfl⟩
          · exact ⟨.go, _, by simp only [hdead]; rfl, rfl⟩
        · exact ⟨.go, _, rfl, rfl⟩
      · exact ⟨.go, _, by simp only [hrev]; rfl, rfl⟩
    · exact ⟨.go, _, rfl, rfl⟩
  · obtain ⟨-, c, hc, -⟩ := hreads pfds i r hs
    simp only [hc]
    unfold Sys.read
    split
    · rename_i op fields buf hscan
      cases hop : opOf op with
      | ping => exact ⟨.go, _, by simp only [Sys.dispatch, hop]; rfl, rfl⟩
      | stop => exact ⟨.go, _, by simp only [Sys.dispatch, hop]; rfl, rfl⟩
      | request => exact ⟨.forkFailed, _, by simp only [Sys.dispatch, hop]; rfl, rfl⟩
      | other => exact ⟨.go, _, by simp only [Sys.dispatch, hop]; rfl, rfl⟩
    · exact ⟨.go, _, rfl, rfl⟩
    · exact ⟨.go, _, rfl, rfl⟩
    · rename_i site r' buf hscan
      obtain ⟨⟨ret, s'⟩, hret⟩ := can_receive (owned_of_reach h) (List.mem_of_getElem? hc)
        (show ({ c with buf := buf } : DaemonClient).fd = c.fd from rfl)
      refine ⟨.received [], ?_⟩
      simp only [hret]
      split <;> exact ⟨_, rfl, rfl⟩
  · refine ⟨.go, ?_⟩
    unfold Sys.reapChild
    simp only [ne_eq, not_true_eq_false, if_false]
    split
    · exact ⟨_, rfl, rfl⟩
    · split
      · exact ⟨_, rfl, rfl⟩
      · split <;> exact ⟨_, rfl, rfl⟩
  · unfold Sys.shutdownChild
    split
    · exact ⟨.go, _, rfl, rfl⟩
    · split
      · exact ⟨.go, _, rfl, rfl⟩
      · refine ⟨.ended 0, ?_⟩
        dsimp only
        split <;> exact ⟨_, rfl, rfl⟩
  all_goals simp [Pc.ended] at hpc

/-- The loop polls at its top, with an entry for each client. -/
theorem poll_cases {listener : Bool} {revents : List Bool}
    (h : step boot alloc s (.daemon (.poll listener revents)) = some t) :
    s.pc = .top ∧ ∃ pfds : List PollFd, pfds.length = s.clients.length ∧
      t = s.goto (if listener then .accepting pfds else .pass pfds 0) := by
  have hd : s.daemonStep boot alloc (.poll listener revents) = some t := h
  unfold Sys.daemonStep at hd
  rcases hs : s.pc with _ | pfds | ⟨pfds, i⟩ | ⟨pfds, i, r⟩ | i | i | _ | _ | e <;> simp only [hs] at hd
  · rcases tick_cases hd with ⟨-, hans, -⟩ | ⟨_, _, hans, hlength, rfl⟩ | ⟨hans, -⟩ | ⟨hans, -⟩ <;> cases hans
    refine ⟨rfl, _, ?_, rfl⟩
    rw [List.length_zipWith, hlength, Nat.min_self]
  · cases hd
  · rcases visit_cases hd with ⟨hans, -⟩ | ⟨p, c, -, -, ⟨hans, -⟩ | ⟨hans, -⟩ | ⟨pid, st, hans, -⟩⟩ <;> cases hans
  · split at hd
    · cases hd
    · rename_i c hc
      unfold Sys.read at hd
      split at hd
      · rcases dispatch_cases hd with ⟨-, hans, -⟩ | ⟨-, hans, -⟩ | ⟨_, ⟨-, hans, -⟩ | ⟨-, hans, -⟩, -⟩ |
          ⟨pid, -, hans, -⟩ <;> cases hans
      · cases hd
      · cases hd
      · cases hd
  · cases hd
  · unfold Sys.shutdownChild at hd
    split at hd
    · cases hd
    · split at hd <;> cases hd
  all_goals cases hd

/-- A turn that `poll` has begun makes no more calls than there are connections waiting, clients and bytes to receive,
those that come in meanwhile included; and until the loop is at its top again or has ended there is a call to make. -/
theorem turn_ends {as : List Act} {u : Sys} {listener : Bool} {revents : List Bool}
    (hr : Reach (step boot alloc) Free {} s) (h : step boot alloc s (.daemon (.poll listener revents)) = some u)
    (hrun : exec (guarded (step boot alloc) Busy) u as = some t) :
    (as.map Act.weight).sum ≤
        4 * s.backlog.length + 6 * s.clients.length + s.queued + 3 + (as.map Act.cost).sum ∧
      (t.pc.ended = false →
        ∃ ans t', step boot alloc t (.daemon ans) = some t' ∧ (Act.daemon ans).weight = 1) := by
  refine ⟨?_, fun hpc => can_step ((hr.tail trivial h).trans (Reach.of_exec_guarded hrun).free) hpc⟩
  have hpays := exec_weight_le (pays boot alloc) hrun
  have hfuel : u.fuel ≤ 4 * s.backlog.length + 6 * s.clients.length + s.queued + 3 := by
    obtain ⟨-, pfds, hlength, rfl⟩ := poll_cases h
    cases listener with
    | false =>
      rw [fuel_pass rfl]
      show 3 * (pfds.length - 0) + s.queued + 3 * s.clients.length + 2 ≤ _
      omega
    | true =>
      show 4 * s.backlog.length + 3 * pfds.length + s.queued + 3 * s.clients.length + 3 ≤ _
      omega
  omega

/-- The turn in which a `PING` of eight bytes is received and answered takes six calls, and 17 at most. -/
theorem turn_ends_ping :
    ∃ s u t as, step bareBoot (fun _ => true) s (.daemon (.poll false [true])) = some u ∧
      exec (guarded (step bareBoot fun _ => true) Busy) u as = some t ∧ t.pc = .top ∧
      (as.map Act.weight).sum = 6 ∧ (as.map Act.weight).sum ≤ 17 := by
  have hrun : ((exec (step bareBoot fun _ => true) {} ((oneClient "PING 0\r\n" (by decide)).take 8)).bind fun s =>
      (step bareBoot (fun _ => true) s (.daemon (.poll false [true]))).bind fun u =>
        (exec (guarded (step bareBoot fun _ => true) Busy) u [.daemon .go, .daemon (.received [10, 11, 12]),
          .daemon .go, .daemon .go, .daemon .go, .daemon .go]).map fun t => (s, u, t)).any
      (fun x => x.1.backlog = [] ∧ x.1.clients.length = 1 ∧ x.1.queued = 8 ∧ x.2.2.pc = .top) = true := by
    decide
  obtain ⟨⟨s, u, t⟩, hx, hstat⟩ := (Option.any_eq_true _ _).1 hrun
  obtain ⟨hbacklog, hclients, hqueued, htop⟩ := of_decide_eq_true hstat
  obtain ⟨s, hs, hx⟩ := Option.bind_eq_some_iff.1 hx
  obtain ⟨u, hu, hx⟩ := Option.bind_eq_some_iff.1 hx
  obtain ⟨t, ht, hx⟩ := Option.map_eq_some_iff.1 hx
  cases hx
  refine ⟨s, u, t, _, hu, ht, htop, rfl, ?_⟩
  have hbound := (turn_ends (.of_exec hs) hu ht).1
  rw [hbacklog, hclients, hqueued] at hbound
  exact hbound

/-! ### Children that have ended -/

/-- The child is reaped with its status, and the status is sent to the client that it was forked for, unless that client
has closed its connection. -/
def Sys.Answered (s : Sys) (pid : Pid) (kid : Kid) (st : Status) : Prop :=
  .reap pid kid st ∈ s.log ∧
    (.reply kid.owner (.status (waitStatusCode st)) ∈ s.log ∨
      ∃ k conn, kid.owner = some (.conn k) ∧ s.conns[k]? = some conn ∧ conn.closed = true)

section Child

variable {pid : Pid} {kid : Kid} {st : Status}

theorem visit_child (ho : s.Owned boot) (hp : s.Parented) (hkid : s.kids pid = some kid) (hst : kid.status = some st)
    (h : s.visit pfds i ans = some t) : t.kids pid = some kid ∨ t.Answered pid kid st := by
  rcases visit_cases h with ⟨-, -, rfl⟩ | ⟨p, c, -, hc, ⟨-, -, rfl⟩ | ⟨-, -, -, rfl⟩ | ⟨q, st', -, -, hq, hdead, rfl⟩⟩
  · exact .inl hkid
  · exact .inl hkid
  · exact .inl hkid
  · have hkids : (((s.killChild q st').1.leave i c.fd).goto (.pass pfds i)).kids = update s.kids q none :=
      killChild_kids s q st'
    by_cases hpid : q = pid
    · subst hpid
      have hmem := List.mem_of_getElem? hc
      obtain ⟨kid', hkid', howner⟩ := hp.owner c hmem q hq
      obtain rfl : kid' = kid := Option.some.inj (hkid'.symm.trans hkid)
      obtain ⟨k, hk⟩ := ho.control c hmem
      refine .inr ⟨?_, .inr ⟨k, ?_⟩⟩
      · rw [killChild_of_some hkid, hst]
        simp [Sys.goto, Sys.leave, Sys.removeClient, Sys.close, Sys.reaped]
      · obtain ⟨conn, hconn⟩ : ∃ conn, s.conns[k]? = some conn := ⟨_, List.getElem?_eq_getElem (ho.bound c.fd k hk)⟩
        refine ⟨conn, howner.trans hk, ?_, ?_⟩
        · show (s.killChild q st').1.conns[k]? = some conn
          rw [killChild_conns, hconn]
        · simp only [Sys.peekDead, Sys.conn?, hk, hconn, Bool.and_eq_true] at hdead
          exact hdead.2
    · rw [hkids, update_of_ne (Ne.symm hpid)]
      exact .inl hkid

theorem read_child (hkid : s.kids pid = some kid) (h : s.read boot alloc pfds i r c ans = some t) :
    t.kids pid = some kid := by
  cases hscan : scan alloc r c.buf with
  | done op fields buf =>
    simp only [Sys.read, hscan] at h
    rcases dispatch_cases h with ⟨-, -, rfl⟩ | ⟨-, -, rfl⟩ | ⟨reply, -, rfl⟩ | ⟨q, -, -, hfree, rfl⟩
    · exact hkid
    · exact hkid
    · exact hkid
    · have hne : pid ≠ q := by
        rintro rfl
        rw [hkid] at hfree
        cases hfree
      show (Sys.fork _ i _ fields q).kids pid = some kid
      rw [fork_kids, update_of_ne hne]
      exact hkid
  | bad line buf =>
    obtain ⟨-, rfl⟩ := read_bad hscan h
    exact hkid
  | crash e =>
    obtain ⟨-, rfl⟩ := read_crash hscan h
    exact hkid
  | fill site r' buf =>
    rcases fill_cases hscan h with ⟨rfl, -⟩ | ⟨rfl, -⟩ | ⟨-, rfl, -⟩ | ⟨k, conn, bytes, files, queue, -, -, rfl⟩ |
      ⟨fds, k, conn, bytes, files, queue, -, -, -, -, -, -, rfl⟩
    · exact hkid
    · exact hkid
    · exact hkid
    · exact hkid
    · show (Sys.install _ fds files).kids pid = some kid
      rw [install_kids]
      exact hkid

private theorem reapChild_child (hp : s.Parented) (hkid : s.kids pid = some kid) (hst : kid.status = some st)
    (h : s.reapChild i ans = some t) : t.kids pid = some kid ∨ t.Answered pid kid st := by
  unfold Sys.reapChild at h
  split at h
  · cases h
  · split at h
    · cases h
      exact .inl hkid
    · rename_i c hc
      split at h
      · cases h
        exact .inl hkid
      · rename_i q hq
        split at h
        · cases h
          exact .inl hkid
        · rename_i kid' status hwait
          obtain ⟨kid₀, hkid₀, howner⟩ := hp.owner c (List.mem_of_getElem? hc) q hq
          cases h
          by_cases hpid : q = pid
          · subst hpid
            obtain rfl : kid₀ = kid := Option.some.inj (hkid₀.symm.trans hkid)
            simp only [Sys.waitpid, hkid, hst, WaitRet.ended.injEq] at hwait
            obtain ⟨rfl, rfl⟩ := hwait
            refine .inr ⟨?_, .inl ?_⟩
            · simp [Sys.dismiss, Sys.removeClient, Sys.close, Sys.respond]
            · simp [Sys.dismiss, Sys.removeClient, Sys.close, Sys.respond, howner]
          · left
            show update s.kids q none pid = some kid
            rw [update_of_ne (Ne.symm hpid)]
            exact hkid
        · cases h
          exact .inl hkid

private theorem shutdownChild_child (hp : s.Parented) (hkid : s.kids pid = some kid) (hst : kid.status = some st)
    (h : s.shutdownChild i ans = some t) : t.kids pid = some kid ∨ t.Answered pid kid st := by
  unfold Sys.shutdownChild at h
  split at h
  · obtain ⟨-, ht⟩ := Option.ite_none_right_eq_some.1 h
    cases ht
    exact .inl hkid
  · rename_i c hc
    split at h
    · obtain ⟨-, ht⟩ := Option.ite_none_right_eq_some.1 h
      cases ht
      exact .inl hkid
    · rename_i q hq
      split at h
      · rename_i st'
        obtain ⟨kid', hkid', howner⟩ := hp.owner c (List.mem_of_getElem? hc) q hq
        have hset : (s.setClient i { c with pid := none }).kids q = some kid' := hkid'
        dsimp only at h
        rw [killChild_of_some hset] at h
        cases h
        by_cases hpid : q = pid
        · subst hpid
          obtain rfl : kid' = kid := Option.some.inj (hkid'.symm.trans hkid)
          refine .inr ⟨?_, .inl ?_⟩
          · simp [Sys.goto, Sys.respond, Sys.reaped, hst]
          · simp [Sys.goto, Sys.respond, hst, howner, Sys.reaped, Sys.signalled, Sys.setClient]
        · left
          show update s.kids q none pid = some kid
          rw [update_of_ne (Ne.symm hpid)]
          exact hkid
      · cases h

/-- A child that has ended waits for the daemon or is answered. -/
theorem step_child (hr : Reach (step boot alloc) Free {} s) (hkid : s.kids pid = some kid) (hst : kid.status = some st)
    (h : step boot alloc s a = some t) : t.kids pid = some kid ∨ t.Answered pid kid st := by
  have ho := owned_of_reach hr
  have hp := parented_of_reach hr
  cases a with
  | connect | signal => cases h; exact .inl hkid
  | send k m =>
    simp only [step] at h
    split at h
    · cases h
    · split at h <;> cases h
      exact .inl hkid
  | hangup k =>
    simp only [step] at h
    split at h <;> cases h
    exact .inl hkid
  | exit q status =>
    simp only [step] at h
    split at h
    · cases h
    · rename_i kid' hkid'
      obtain ⟨hnone, ht⟩ := Option.ite_none_right_eq_some.1 h
      cases ht
      have hne : pid ≠ q := by
        rintro rfl
        rw [hkid, Option.some.injEq] at hkid'
        subst hkid'
        rw [hst] at hnone
        cases hnone
      left
      show update s.kids q _ pid = some kid
      rw [update_of_ne hne]
      exact hkid
  | daemon ans =>
    have h : s.daemonStep boot alloc ans = some t := h
    unfold Sys.daemonStep at h
    rcases hpc : s.pc with _ | pfds | ⟨pfds, i⟩ | ⟨pfds, i, r⟩ | i | i | _ | _ | e <;> simp only [hpc] at h
    · rcases tick_cases h with ⟨-, -, rfl⟩ | ⟨listener, revents, -, -, rfl⟩ | ⟨-, rfl⟩ | ⟨-, rfl⟩ <;>
        exact .inl hkid
    · rcases accept_cases h with ⟨fd, k, rest, -, -, -, rfl⟩ | ⟨-, rfl⟩ | ⟨-, rfl⟩ <;> exact .inl hkid
    · exact visit_child ho hp hkid hst h
    · split at h
      · cases h
      · exact .inl (read_child hkid h)
    · exact reapChild_child hp hkid hst h
    · exact shutdownChild_child hp hkid hst h
    all_goals cases h

end Child

/-! ### The way back to the top -/

/-- The top of the loop is left by a call, and reached when every client has been looked at. -/
theorem step_to_top (h : step boot alloc s a = some t) (ht : t.pc = .top) :
    s.pc = .top ∧ a.weight = 0 ∨ ∃ i, s.pc = .reap i ∧ s.clients[i]? = none := by
  by_cases hdaemon : ∃ ans, a = .daemon ans
  · obtain ⟨ans, rfl⟩ := hdaemon
    have h : s.daemonStep boot alloc ans = some t := h
    unfold Sys.daemonStep at h
    rcases hs : s.pc with _ | pfds | ⟨pfds, i⟩ | ⟨pfds, i, r⟩ | i | i | _ | _ | e <;> simp only [hs] at h
    · rcases tick_cases h with ⟨-, -, rfl⟩ | ⟨listener, revents, -, -, rfl⟩ | ⟨rfl, rfl⟩ | ⟨-, rfl⟩
      · cases ht
      · cases listener <;> cases ht
      · exact .inl ⟨rfl, rfl⟩
      · cases ht
    · rcases accept_cases h with ⟨fd, k, rest, -, -, -, rfl⟩ | ⟨-, rfl⟩ | ⟨-, rfl⟩
      · have hpc : (s.welcome fd k rest).pc = .accepting pfds := hs
        rw [hpc] at ht
        cases ht
      · rw [hs] at ht
        cases ht
      · cases ht
    · cases visit_step h <;> cases ht
    · split at h
      · cases h
      · have hread := read_step h
        cases hread with
        | stopped hpc | crashed hpc | more _ _ hpc =>
          rw [hpc] at ht
          cases ht
        | _ => cases ht
    · right
      refine ⟨i, rfl, ?_⟩
      unfold Sys.reapChild at h
      split at h
      · cases h
      · split at h
        · assumption
        · have hreap : ∀ reply fd, (s.dismiss i fd reply).pc = .reap i := fun _ _ => hs
          split at h
          · cases h
            cases ht
          · split at h <;> cases h
            · cases ht
            · have hpc : s.pc = .top := ht
              rw [hs] at hpc
              cases hpc
            · have hpc : s.pc = .top := ht
              rw [hs] at hpc
              cases hpc
    · have hpc := shutdownChild_pc h
      rw [ht] at hpc
      cases hpc
    all_goals cases h
  · rcases step_outside h with ⟨-, hpc⟩ | ⟨ans, rfl, -⟩
    · refine .inl ⟨hpc ▸ ht, ?_⟩
      cases a with
      | daemon ans => exact absurd ⟨ans, rfl⟩ hdaemon
      | _ => rfl
    · exact absurd ⟨ans, rfl⟩ hdaemon

/-- How the round over the children begins and goes on: with the next client, or with the one behind a client that has
been removed, unless that is one whose child has not ended. -/
theorem step_to_reap {i' : Nat} (h : step boot alloc s a = some t) (ht : t.pc = .reap i') :
    i' = 0 ∨ ∃ i, s.pc = .reap i ∧ (i' = i ∧ t.clients = s.clients ∨
      ∃ c, s.clients[i]? = some c ∧
        (i' = i + 1 ∧ t.clients = s.clients ∧ (∀ pid ∈ c.pid, s.waitpid pid = .running) ∨
          i' = i ∧ t.clients = s.clients.eraseIdx i ∧ ∀ pid ∈ c.pid, t.kids pid = none)) := by
  rcases step_outside h with ⟨hclients, hpc⟩ | ⟨ans, rfl, hd⟩
  · exact .inr ⟨i', hpc ▸ ht, .inl ⟨rfl, hclients⟩⟩
  · unfold Sys.daemonStep at hd
    rcases hs : s.pc with _ | pfds | ⟨pfds, i⟩ | ⟨pfds, i, r⟩ | i | i | _ | _ | e <;> simp only [hs] at hd
    · rcases tick_cases hd with ⟨-, -, rfl⟩ | ⟨listener, revents, -, -, rfl⟩ | ⟨-, rfl⟩ | ⟨-, rfl⟩
      · cases ht
      · cases listener <;> cases ht
      · rw [hs] at ht
        cases ht
      · cases ht
    · rcases accept_cases hd with ⟨fd, k, rest, -, -, -, rfl⟩ | ⟨-, rfl⟩ | ⟨-, rfl⟩
      · have hpc : (s.welcome fd k rest).pc = .accepting pfds := hs
        rw [hpc] at ht
        cases ht
      · rw [hs] at ht
        cases ht
      · cases ht
    · cases visit_step hd <;> cases ht
      exact .inl rfl
    · split at hd
      · cases hd
      · have hread := read_step hd
        cases hread with
        | stopped hpc | crashed hpc | more _ _ hpc =>
          rw [hpc] at ht
          cases ht
        | _ => cases ht
    · refine .inr ⟨i, rfl, .inr ?_⟩
      unfold Sys.reapChild at hd
      split at hd
      · cases hd
      · split at hd
        · cases hd
          cases ht
        · rename_i c hc
          refine ⟨c, hc, ?_⟩
          split at hd
          · rename_i hnone
            cases hd
            cases ht
            exact .inl ⟨rfl, rfl, by simp [hnone]⟩
          · rename_i pid hpid
            split at hd <;> rename_i hwait
            · cases hd
              cases ht
              refine .inl ⟨rfl, rfl, fun q hq => ?_⟩
              obtain rfl : pid = q := Option.some.inj (hpid.symm.trans hq)
              exact hwait
            · cases hd
              have hpc : s.pc = .reap i' := ht
              rw [hs, Pc.reap.injEq] at hpc
              refine .inr ⟨hpc.symm, rfl, fun q hq => ?_⟩
              obtain rfl : pid = q := Option.some.inj (hpid.symm.trans hq)
              exact update_self ..
            · cases hd
              have hpc : s.pc = .reap i' := ht
              rw [hs, Pc.reap.injEq] at hpc
              refine .inr ⟨hpc.symm, rfl, fun q hq => ?_⟩
              obtain rfl : pid = q := Option.some.inj (hpid.symm.trans hq)
              show s.kids pid = none
              unfold Sys.waitpid at hwait
              split at hwait
              · assumption
              · split at hwait <;> cases hwait
    · have hpc := shutdownChild_pc hd
      rw [ht] at hpc
      cases hpc
    all_goals cases hd

/-- The entry of a child that has ended is still to be looked at in the round over the children. -/
def Sys.Ahead (s : Sys) (pid : Pid) : Prop :=
  ∃ j c, s.clients[j]? = some c ∧ c.pid = some pid ∧ ∀ i, s.pc = .reap i → i ≤ j

private theorem exists_entry (hp : s.Parented) {pid : Pid} {kid : Kid} (hkid : s.kids pid = some kid) :
    ∃ (j : Nat) (c : DaemonClient), s.clients[j]? = some c ∧ c.pid = some pid := by
  have hmem : pid ∈ s.pids := (hp.covers.mem_iff pid).2 (by simp [hkid])
  obtain ⟨c, hc, hpid⟩ := List.mem_flatMap.1 hmem
  obtain ⟨j, hj⟩ := List.mem_iff_getElem?.1 hc
  exact ⟨j, c, hj, by simpa using hpid⟩

theorem Sys.Ahead.step {pid : Pid} {kid : Kid} {st : Status} (hr : Reach (step boot alloc) Free {} s)
    (ha : s.Ahead pid) (hkid : s.kids pid = some kid) (hst : kid.status = some st) (h : step boot alloc s a = some t)
    (hkid' : t.kids pid = some kid) : t.Ahead pid := by
  have ht : Reach (Calisto.step boot alloc) Free {} t := .tail hr trivial h
  obtain ⟨j', c', hj', hc'⟩ := exists_entry (parented_of_reach ht) hkid'
  by_cases hreap : ∃ i, t.pc = .reap i
  · obtain ⟨i', hi'⟩ := hreap
    obtain ⟨j, c, hj, hc, hahead⟩ := ha
    have hbehind : ∀ m, i' ≤ m → ∀ i, t.pc = .reap i → i ≤ m := by
      intro m hm i hi
      rw [hi', Pc.reap.injEq] at hi
      omega
    rcases step_to_reap h hi' with
      rfl | ⟨i, hi, ⟨rfl, hclients⟩ | ⟨x, hx, ⟨rfl, hclients, hwait⟩ | ⟨rfl, hclients, hgone⟩⟩⟩
    · exact ⟨j', c', hj', hc', hbehind j' (Nat.zero_le _)⟩
    · exact ⟨j, c, hclients ▸ hj, hc, hbehind j (hahead _ hi)⟩
    · have hij := hahead i hi
      refine ⟨j, c, hclients ▸ hj, hc, hbehind j ?_⟩
      rcases Nat.lt_or_eq_of_le hij with hlt | rfl
      · exact hlt
      · -- the child has ended, so it is not passed
        obtain rfl : x = c := Option.some.inj (hx.symm.trans hj)
        have hrunning := hwait pid hc
        simp [Sys.waitpid, hkid, hst] at hrunning
    · have hij := hahead i' hi
      rcases Nat.lt_or_eq_of_le hij with hlt | rfl
      · refine ⟨j - 1, c, ?_, hc, hbehind _ (by omega)⟩
        rw [hclients, List.getElem?_eraseIdx_of_ge (by omega)]
        rwa [Nat.sub_add_cancel (by omega)]
      · obtain rfl : x = c := Option.some.inj (hx.symm.trans hj)
        rw [hgone pid hc] at hkid'
        cases hkid'
  · exact ⟨j', c', hj', hc', fun i hi => absurd ⟨i, hi⟩ hreap⟩

/-! ### Every child is answered -/

/-- A run without an end in which the daemon goes on, interrupted or not, and the clients come to rest. -/
structure Quiet (boot : Boot) (alloc : Nat → Bool) (st : Nat → Sys) (act : Nat → Act) : Prop where
  run : Endless (step boot alloc) {} st act
  calls : ∀ n, ∃ k ≥ n, (act k).weight ≠ 0
  rest : ∃ n, ∀ k ≥ n, (act k).cost = 0

variable {st : Nat → Sys} {act : Nat → Act}

/-- Once the clients are at rest, the loop comes back to its top again and again. -/
theorem Quiet.tops (h : Quiet boot alloc st act) (n : Nat) : ∃ k ≥ n, (st k).pc = .top := by
  obtain ⟨k, hk, hbusy⟩ := h.run.recurs (pays boot alloc) h.rest h.calls n
  exact ⟨k, hk, not_not.1 hbusy⟩

/-- What is at the top and comes back to the top has been through the whole round over the children. -/
theorem Quiet.leaves (h : Quiet boot alloc st act) (n : Nat) : ∃ k ≥ n, (st k).pc ≠ .top := by
  by_contra hall
  push Not at hall
  obtain ⟨k, hk, hweight⟩ := h.calls n
  rcases step_to_top (h.run.next k) (hall (k + 1) (by omega)) with ⟨-, hw⟩ | ⟨i, hi, -⟩
  · exact hweight hw
  · rw [hall k hk] at hi
    cases hi

/-- As long as nothing but answering it can be done with a child that has ended, it is answered. -/
theorem Quiet.answered (h : Quiet boot alloc st act) {n : Nat} {pid : Pid} {kid : Kid} {status : Status}
    (hkid : (st n).kids pid = some kid) (hst : kid.status = some status) :
    ∃ m ≥ n, (st m).Answered pid kid status := by
  by_contra hnone
  push Not at hnone
  have hstays : ∀ m ≥ n, (st m).kids pid = some kid := by
    intro m hm
    induction m, hm using Nat.le_induction with
    | base => exact hkid
    | succ m hm ih => exact (step_child (h.run.reach m) ih hst (h.run.next m)).resolve_right (hnone (m + 1) (by omega))
  obtain ⟨m, hm, htop⟩ := h.tops n
  have hahead : ∀ k ≥ m, (st k).Ahead pid := by
    intro k hk
    induction k, hk using Nat.le_induction with
    | base =>
      obtain ⟨j, c, hj, hc⟩ := exists_entry (parented_of_reach (h.run.reach m)) (hstays m hm)
      refine ⟨j, c, hj, hc, fun i hi => ?_⟩
      rw [htop] at hi
      cases hi
    | succ k hk ih =>
      exact ih.step (h.run.reach k) (hstays k (by omega)) hst (h.run.next k) (hstays (k + 1) (by omega))
  -- the loop cannot come back to its top without looking at the entry
  obtain ⟨k, hk, hleft⟩ := h.leaves m
  have hnever : ∀ j ≥ k, (st j).pc ≠ .top := by
    intro j hj
    induction j, hj using Nat.le_induction with
    | base => exact hleft
    | succ j hj ih =>
      intro ht
      rcases step_to_top (h.run.next j) ht with ⟨hs, -⟩ | ⟨i, hi, hend⟩
      · exact ih hs
      · obtain ⟨j', c, hj', -, hle⟩ := hahead j (by omega)
        have hlt := (List.getElem?_eq_some_iff.1 hj').1
        have := hle i hi
        have := List.getElem?_eq_none_iff.1 hend
        omega
  obtain ⟨j, hj, ht⟩ := h.tops k
  exact hnever j hj ht

/-- The lines that reach the client of `k` even if it reads none of them: an empty socket has room for `room` of those
that `respond` sends while the connection lasts. -/
def Sys.delivered (s : Sys) (room : Nat) (k : ConnId) : List Reply := (s.replies k).take room

/-- Where a status has been sent, it reaches the client, or the client was sent as many `OK`s as its socket takes. -/
theorem delivered_of_status (h : Reach (step boot alloc) Free {} s) {k : ConnId} {code : Status}
    (hmem : .status code ∈ s.replies k) (room : Nat) :
    List.replicate room .ok <+: s.replies k ∨ .status code ∈ s.delivered room k := by
  obtain ⟨n, hreplies⟩ := replies_of_status h hmem
  rcases Nat.lt_or_ge n room with hlt | hge
  · right
    rw [Sys.delivered, hreplies, List.take_of_length_le (by simp; omega)]
    simp
  · left
    obtain ⟨j, rfl⟩ := Nat.exists_eq_add_of_le hge
    rw [hreplies, List.replicate_add, List.append_assoc]
    exact List.prefix_append ..

/-- The child of a client is that of the connection at its entry. -/
theorem owner_of_reach (h : Reach (step boot alloc) Free {} s) {pid : Pid} {kid : Kid} (hkid : s.kids pid = some kid) :
    ∃ k, kid.owner = some (.conn k) := by
  obtain ⟨j, c, hj, hc⟩ := exists_entry (parented_of_reach h) hkid
  have hmem := List.mem_of_getElem? hj
  obtain ⟨kid', hkid', howner⟩ := (parented_of_reach h).owner c hmem pid hc
  obtain rfl : kid' = kid := Option.some.inj (hkid'.symm.trans hkid)
  obtain ⟨k, hk⟩ := (owned_of_reach h).control c hmem
  exact ⟨k, howner.trans hk⟩

/-- Every child that ends is reaped with its status, and the status reaches the client that it was forked for, unless
that client closes its connection or was sent as many `OK`s as its socket takes: in every run in which the daemon goes
on and the clients come to rest. -/
theorem ended_child_answered (h : Quiet boot alloc st act) {n : Nat} {pid : Pid} {status : Status}
    (hexit : act n = .exit pid status) (room : Nat) :
    ∃ k, (st n).kids pid = some { owner := some (.conn k) } ∧
      ∃ m ≥ n, .reap pid { owner := some (.conn k), status := some status } status ∈ (st m).log ∧
        ((st m).Closed k ∨ List.replicate room .ok <+: (st m).replies k ∨
          .status (waitStatusCode status) ∈ (st m).delivered room k) := by
  have hstep := h.run.next n
  rw [hexit] at hstep
  simp only [step] at hstep
  split at hstep
  · cases hstep
  · rename_i kid hkid
    obtain ⟨hrunning, hnext⟩ := Option.ite_none_right_eq_some.1 hstep
    obtain ⟨owner, status'⟩ := kid
    obtain ⟨k, rfl⟩ := owner_of_reach (h.run.reach n) hkid
    cases hrunning
    have hkid' : (st (n + 1)).kids pid = some { owner := some (.conn k), status := some status } := by
      rw [← Option.some.inj hnext]
      exact update_self ..
    obtain ⟨m, hm, hreap, hreply | ⟨k', conn, howner, hconn, hclosed⟩⟩ := h.answered hkid' rfl
    · exact ⟨k, hkid, m, by omega, hreap, .inr (delivered_of_status (h.run.reach m) (mem_replies.2 hreply) room)⟩
    · obtain rfl : k = k' := by simpa using howner
      exact ⟨k, hkid, m, by omega, hreap, .inl ⟨conn, hconn, hclosed⟩⟩

/-- With no clients a turn changes nothing. -/
theorem exec_idle (boot : Boot) (alloc : Nat → Bool) (hpc : s.pc = .top) (hterm : s.term = false)
    (hclients : s.clients = []) :
    exec (step boot alloc) s [.daemon (.poll false []), .daemon .go, .daemon .go] = some s := by
  obtain ⟨clients, fdt, kids, conns, backlog, term, pc, log⟩ := s
  cases hpc
  cases hterm
  cases hclients
  rfl

/-- The child of a client ends with status 3 and is reaped. -/
def oneExit : List Act :=
  oneClient "RUN 3\r\n$0\r\n$0\r\n$0\r\n" utf8_runRequest_ne_nil ++
    [.daemon (.forked 50), .exit 50 768, .daemon .go, .daemon .go, .daemon .go]

/-- A client hears of the end of its child, whereupon the daemon polls for ever. -/
theorem ended_child_answered_run :
    ∃ st act k m, Quiet bareBoot (fun _ => true) st act ∧
      .reap 50 { owner := some (.conn k), status := some 768 } 768 ∈ (st m).log ∧
      ((st m).Closed k ∨ List.replicate 278 .ok <+: (st m).replies k ∨
        .status (waitStatusCode 768) ∈ (st m).delivered 278 k) := by
  have hrun : (exec (step bareBoot fun _ => true) {} oneExit).any
      (fun s => s.pc = .top ∧ s.term = false ∧ s.clients = []) = true := by
    decide
  obtain ⟨s, hs, hstat⟩ := (Option.any_eq_true _ _).1 hrun
  obtain ⟨htop, hterm, hclients⟩ := of_decide_eq_true hstat
  obtain ⟨st', act', hcycle, hmem⟩ := exists_cycle
    (exec_idle bareBoot (fun _ => true) htop hterm hclients) (by simp)
  obtain ⟨st, act, hend, hfirst, hlater⟩ := Endless.after hs hcycle
  have hidle : ∀ k, (act (16 + k)).weight = 1 ∧ (act (16 + k)).cost = 0 := by
    intro k
    have hact := hmem k
    rw [← (hlater k).2] at hact
    simp only [List.mem_cons, List.not_mem_nil, or_false] at hact
    rw [show oneExit.length = 16 from rfl] at hact
    rcases hact with hact | hact | hact <;> rw [hact] <;> exact ⟨rfl, rfl⟩
  have hquiet : Quiet bareBoot (fun _ => true) st act := by
    refine ⟨hend, fun n => ⟨16 + n, by omega, ?_⟩, 16, fun k hk => ?_⟩
    · rw [(hidle n).1]
      exact Nat.one_ne_zero
    · obtain ⟨j, rfl⟩ := Nat.exists_eq_add_of_le hk
      exact (hidle j).2
  have hexit : act 12 = .exit 50 768 := (Option.some.inj (hfirst 12 (by decide))).symm
  obtain ⟨k, -, m, -, hreap, htold⟩ := ended_child_answered hquiet hexit 278
  exact ⟨st, act, k, m, hquiet, hreap, htold⟩

end Calisto

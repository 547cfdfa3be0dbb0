import Calisto.Daemon.Owners

/-!
# The pass over the polled clients, step by step

`Effect` says what a step changes but not where the loop goes on.  Here the rounds of the pass are listed with the
index that each of them leaves: a client is passed, or removed, which moves the ones behind it one place forward under
the poll results of those before them.
-/

namespace Calisto

open Function

variable {boot : Boot} {alloc : Nat → Bool} {s t s' : Sys} {pfds : List PollFd} {i : Nat} {r : Reader}
  {c : DaemonClient} {ans : Answer}

/-- The loop has not ended. -/
def Pc.looping : Pc → Bool
  | .top | .accepting _ | .pass .. | .reading .. | .reap _ => true
  | .shutdown _ | .returned | .pollFailed | .crashed _ => false

/-- What happens outside the daemon moves neither its entries nor its place in the code. -/
theorem step_outside {a : Act} (h : step boot alloc s a = some t) :
    (t.clients = s.clients ∧ t.pc = s.pc) ∨ ∃ ans, a = .daemon ans ∧ s.daemonStep boot alloc ans = some t := by
  cases a with
  | connect | signal => cases h; exact Or.inl ⟨rfl, rfl⟩
  | send k msg =>
    simp only [step] at h
    split at h
    · simp at h
    · split at h <;> simp at h
      subst h
      exact Or.inl ⟨rfl, rfl⟩
  | hangup k =>
    simp only [step] at h
    split at h <;> simp at h
    subst h
    exact Or.inl ⟨rfl, rfl⟩
  | exit pid status =>
    simp only [step] at h
    split at h
    · simp at h
    · split at h <;> simp at h
      subst h
      exact Or.inl ⟨rfl, rfl⟩
  | daemon ans => exact Or.inr ⟨ans, rfl, h⟩

/-! ### Visits -/

/-- A round of the loop over the polled clients, up to the read if it makes one. -/
inductive VisitStep (s : Sys) (pfds : List PollFd) (i : Nat) : Sys → Prop
  | ended (h : pfds.length ≤ i ∨ s.clients.length ≤ i) : VisitStep s pfds i (s.goto (.reap 0))
  | unready {p : PollFd} (hp : pfds[i]? = some p) (hrev : p.revents = false) :
      VisitStep s pfds i (s.goto (.pass pfds (i + 1)))
  | alive {c : DaemonClient} (hc : s.clients[i]? = some c) (hbusy : c.pid ≠ none) (halive : s.peekDead c.fd = false) :
      VisitStep s pfds i (s.goto (.pass pfds (i + 1)))
  | opened {c : DaemonClient} (hc : s.clients[i]? = some c) (hidle : c.pid = none) :
      VisitStep s pfds i (s.goto (.reading pfds i .head))
  | buried {p : PollFd} {c : DaemonClient} {pid : Pid} {st : Status} (hp : pfds[i]? = some p) (hrev : p.revents)
      (hc : s.clients[i]? = some c) (hbusy : c.pid = some pid) (hdead : s.peekDead c.fd) :
      VisitStep s pfds i (((s.killChild pid st).1.leave i c.fd).goto (.pass pfds i))

theorem visit_step (h : s.visit pfds i ans = some t) : VisitStep s pfds i t := by
  rcases visit_cases h with ⟨-, hend, rfl⟩ | ⟨p, c, hp, hc, hround⟩
  · exact .ended hend
  rcases hround with ⟨-, halive, rfl⟩ | ⟨-, -, hidle, rfl⟩ | ⟨pid, st, -, hrev, hpid, hdead, rfl⟩
  · by_cases hrev : p.revents
    · exact .alive hc (halive hrev).1 (halive hrev).2
    · exact .unready hp (by simpa using hrev)
  · exact .opened hc hidle
  · exact .buried hp hrev hc hpid hdead

/-! ### Reads -/

/-- The code of a read up to its next receive, the receive included. -/
inductive ReadStep (alloc : Nat → Bool) (s : Sys) (pfds : List PollFd) (i : Nat) (r : Reader) (c : DaemonClient) :
    Sys → Prop
  | answered {op : Str} {fields : List Bytes} {buf : Bytes} (hscan : scan alloc r c.buf = .done op fields buf)
      (hop : opOf op = .ping) :
      ReadStep alloc s pfds i r c (((s.setClient i { c with buf := buf }).respond c.fd .ok).goto (.pass pfds (i + 1)))
  | stopped {t : Sys} (hpc : t.pc = .shutdown 0) : ReadStep alloc s pfds i r c t
  | crashed {t : Sys} {e : Crash} (hpc : t.pc = .crashed e) : ReadStep alloc s pfds i r c t
  | forked {fields : List Bytes} {buf : Bytes} {pid : Pid} :
      ReadStep alloc s pfds i r c
        (((s.setClient i { c with buf := buf }).fork i { c with buf := buf } fields pid).goto (.pass pfds (i + 1)))
  | rejected {reply : Reply} : ReadStep alloc s pfds i r c ((s.dismiss i c.fd reply).goto (.pass pfds i))
  | starved {site : Site} {r' : Reader} {buf : Bytes} {conn : Conn} (hscan : scan alloc r c.buf = .fill site r' buf)
      (hconn : s.conn? c.fd = some conn) (hqueue : conn.queue = []) (hopen : conn.closed = false) :
      ReadStep alloc s pfds i r c
        ((s.setClient i { c with buf := buf, first := false }).goto (.pass pfds (i + 1)))
  | more {t : Sys} {r' : Reader} {c' : DaemonClient} (hfd : c'.fd = c.fd) (hclients : t.clients = s.clients.set i c')
      (hpc : t.pc = .reading pfds i r') : ReadStep alloc s pfds i r c t

theorem dispatch_step {op : Str} {fields : List Bytes} {buf : Bytes} (hscan : scan alloc r c.buf = .done op fields buf)
    (h : s.dispatch pfds i { c with buf := buf } op fields ans = some t) : ReadStep alloc s pfds i r c t := by
  rcases dispatch_cases h with ⟨hop, -, rfl⟩ | ⟨-, -, rfl⟩ | ⟨reply, -, rfl⟩ | ⟨pid, -, -, -, rfl⟩
  · exact .answered hscan hop
  · exact .stopped rfl
  · exact .rejected
  · exact .forked

theorem read_step (h : s.read boot alloc pfds i r c ans = some t) : ReadStep alloc s pfds i r c t := by
  cases hscan : scan alloc r c.buf with
  | done op fields buf =>
    simp only [Sys.read, hscan] at h
    exact dispatch_step hscan h
  | bad line buf =>
    obtain ⟨-, rfl⟩ := read_bad hscan h
    exact .rejected
  | crash e =>
    obtain ⟨-, rfl⟩ := read_crash hscan h
    exact .crashed rfl
  | fill site r' buf =>
    rcases fill_cases hscan h with ⟨rfl, conn, hconn, hqueue, hopen⟩ | ⟨rfl, -⟩ | ⟨-, rfl, -⟩ |
      ⟨k, conn, bytes, files, queue, -, -, rfl⟩ | ⟨fds, k, conn, bytes, files, queue, -, -, -, -, -, -, rfl⟩
    · exact .starved hscan hconn hqueue hopen
    · exact .rejected
    · refine .more ?_ (show _ = s.clients.set i { c with buf := buf, first := false, fds := [] } from rfl) rfl
      rfl
    · refine .more ?_ (show _ = s.clients.set i { c with buf := buf ++ bytes } from rfl) rfl
      rfl
    · refine .more ?_ (show _ = s.clients.set i { c with buf := buf ++ bytes, first := false, fds := fds } from ?_) rfl
      · rfl
      · simp

/-! ### The end of the loop -/

theorem shutdownChild_pc (h : s.shutdownChild i ans = some t) : t.pc.looping = false := by
  unfold Sys.shutdownChild at h
  split at h
  · split at h <;> simp at h
    rw [← h]
    rfl
  · split at h
    · split at h <;> simp at h
      rw [← h]
      rfl
    · split at h
      · dsimp only at h
        split at h <;> cases h <;> rfl
      · simp at h

end Calisto

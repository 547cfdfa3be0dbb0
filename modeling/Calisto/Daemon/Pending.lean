import Calisto.Daemon.Pass

/-!
# Commands left waiting

The loop reads one command of a client each time its connection is ready, and a read takes whatever the connection
has.  What follows the command stays in `c.buf`, where no `poll` sees it: it waits until more bytes come.  No complete
command waits in the runs in which nothing complete follows a PING, and no would-block cuts the data of a field whose
bytes so far make a complete command themselves.
-/

namespace Calisto

open Function Machine

variable {boot : Boot} {alloc : Nat → Bool} {s t : Sys} {a : Act} {pfds : List PollFd} {i : Nat} {r : Reader}
  {c : DaemonClient} {ans : Answer}

/-- The buffer has a whole command at its front. -/
def complete (buf : Bytes) : Bool :=
  match scan (fun _ => true) .head buf with
  | .done _ _ _ => true
  | _ => false

/-- `daemon_main` is about to call `poll`, and an entry without a child has a complete command in `c.buf`. -/
def Sys.Waits (s : Sys) : Prop :=
  s.pc = .top ∧ s.term = false ∧ ∃ c ∈ s.clients, c.pid = none ∧ complete c.buf

instance (s : Sys) : Decidable s.Waits := inferInstanceAs (Decidable (_ ∧ _ ∧ _))

/-- The read goes on with the next client and leaves a complete command in `c.buf`: behind a PING, or as the first
bytes of the data of a field when the connection is open and has nothing more. -/
def Sys.leavesBehind (alloc : Nat → Bool) (s : Sys) : Bool :=
  match s.pc with
  | .reading _ i r => (s.clients[i]?).any fun c =>
    match scan alloc r c.buf with
    | .done op _ buf => opOf op = .ping && complete buf
    | .fill .data _ buf => complete buf && (s.conn? c.fd).any fun conn => conn.queue = [] && !conn.closed
    | _ => false
  | _ => false

def NothingBehind (alloc : Nat → Bool) (s : Sys) : Act → Prop
  | .daemon _ => s.leavesBehind alloc = false
  | _ => True

instance : (s : Sys) → (a : Act) → Decidable (NothingBehind alloc s a)
  | s, .daemon _ => inferInstanceAs (Decidable (s.leavesBehind alloc = false))
  | _, .connect | _, .send .. | _, .hangup _ | _, .exit .. | _, .signal => isTrue trivial

/-! ### Buffers without a whole line -/

private theorem scanFields_fill_line {head op : Str} {todo : Nat} {got : List Bytes} {buf buf' : Bytes} {site : Site}
    {r : Reader} (h : scanFields head op todo got buf = .fill site r buf') (hsite : site ≠ .data) :
    findCrlf buf' = none := by
  induction todo generalizing got buf with
  | zero => simp [scanFields] at h
  | succ todo ih =>
    unfold scanFields at h
    split at h
    · cases h
      assumption
    · split at h
      · simp at h
      · split at h
        · cases h
          exact absurd rfl hsite
        · exact ih h

/-- A receive for a line is made when there is none. -/
theorem scan_fill_line {r r' : Reader} {buf buf' : Bytes} {site : Site} (h : scan alloc r buf = .fill site r' buf')
    (hsite : site ≠ .data) : findCrlf buf' = none := by
  cases r with
  | head =>
    simp only [scan] at h
    split at h
    · cases h
      assumption
    · split at h
      · simp at h
      · split at h
        · simp at h
        · exact scanFields_fill_line h hsite
  | fields head op todo got => exact scanFields_fill_line h hsite

private theorem complete_eq_false_of_findCrlf {buf : Bytes} (h : findCrlf buf = none) : complete buf = false := by
  simp [complete, scan, h]

/-! ### One step -/

/-- The loop is reading from the client at `j`. -/
def Pc.readsAt (j : Nat) : Pc → Bool
  | .reading _ i _ => i = j
  | _ => false

/-- No entry without a child has a complete command in `c.buf`, the one being read aside. -/
def Sys.Settled (s : Sys) : Prop :=
  s.pc.looping → ∀ (j : Nat) (c : DaemonClient), s.clients[j]? = some c → c.pid = none → s.pc.readsAt j = false →
    complete c.buf = false

/-- Each entry was there before the step and was not read, or is settled by itself. -/
theorem Sys.Settled.next (h : s.Settled) (hloop : t.pc.looping → s.pc.looping)
    (hold : ∀ (j : Nat) (c : DaemonClient), t.clients[j]? = some c → c.pid = none → t.pc.readsAt j = false →
      complete c.buf = false ∨ ∃ j' : Nat, s.clients[j']? = some c ∧ s.pc.readsAt j' = false) : t.Settled := by
  intro hl j c hc hidle hread
  rcases hold j c hc hidle hread with hdone | ⟨j', hc', hread'⟩
  · exact hdone
  · exact h (hloop hl) j' c hc' hidle hread'

/-- Nothing is being read, and entries only leave. -/
theorem Sys.Settled.of_mem (h : s.Settled) (hs : s.pc.looping) (hread : ∀ j, s.pc.readsAt j = false)
    (hclients : ∀ c ∈ t.clients, c ∈ s.clients) : t.Settled := by
  refine h.next (fun _ => hs) fun j c hc hidle _ => Or.inr ?_
  obtain ⟨j', hlt, hj'⟩ := List.mem_iff_getElem.1 (hclients c (List.mem_of_getElem? hc))
  exact ⟨j', by rw [List.getElem?_eq_getElem hlt, hj'], hread j'⟩

/-- The entry at `i`, which is being read, changes. -/
theorem Sys.Settled.of_set (h : s.Settled) (hs : s.pc = .reading pfds i r) {c' : DaemonClient}
    (hclients : t.clients = s.clients.set i c')
    (hdone : c'.pid = none → t.pc.readsAt i = false → complete c'.buf = false) : t.Settled := by
  refine h.next (fun _ => by rw [hs]; rfl) fun j c hc hidle hread => ?_
  rw [hclients] at hc
  rcases getElem?_set_eq_some hc with ⟨rfl, rfl⟩ | ⟨hne, hc⟩
  · exact Or.inl (hdone hidle hread)
  · refine Or.inr ⟨j, hc, ?_⟩
    rw [hs]
    simpa [Pc.readsAt] using fun heq => hne heq.symm

theorem VisitStep.settled (hv : VisitStep s pfds i t) (hs : s.pc = .pass pfds i) (h : s.Settled) : t.Settled := by
  have hl : s.pc.looping = true := by rw [hs]; rfl
  have hr : ∀ j, s.pc.readsAt j = false := fun j => by rw [hs]; rfl
  cases hv with
  | ended | unready | alive | opened => exact h.of_mem hl hr fun _ hc => hc
  | buried hp hrev hc hbusy hdead =>
    refine h.of_mem hl hr fun x hx => ?_
    simp only [goto_clients, leave_clients, killChild_clients] at hx
    exact List.mem_of_mem_eraseIdx hx

theorem ReadStep.settled (hr : ReadStep alloc s pfds i r c t) (hs : s.pc = .reading pfds i r)
    (hc : s.clients[i]? = some c) (hg : s.leavesBehind alloc = false) (h : s.Settled) : t.Settled := by
  simp only [Sys.leavesBehind, hs, hc, Option.any_some] at hg
  cases hr with
  | answered hscan hop =>
    simp only [hscan, hop, decide_true, Bool.true_and] at hg
    exact h.of_set hs rfl fun _ _ => hg
  | stopped hpc => exact fun hl => by simp [hpc, Pc.looping] at hl
  | crashed hpc => exact fun hl => by simp [hpc, Pc.looping] at hl
  | @forked fields buf pid =>
    refine h.of_set hs (show _ = s.clients.set i { c with buf := buf, fds := [], pid := some pid } from ?_) nofun
    simp
  | @rejected reply =>
    -- the entries behind the one that leaves move one place forward
    refine h.next (fun _ => by rw [hs]; rfl) fun j x hx _ _ => Or.inr ?_
    have hx : (s.clients.eraseIdx i)[j]? = some x := hx
    rw [List.getElem?_eraseIdx] at hx
    split at hx
    · exact ⟨j, hx, by rw [hs]; simp [Pc.readsAt]; omega⟩
    · exact ⟨j + 1, hx, by rw [hs]; simp [Pc.readsAt]; omega⟩
  | @starved site r' buf conn hscan hconn hqueue hopen =>
    refine h.of_set hs (show _ = s.clients.set i { c with buf := buf, first := false } from rfl) fun _ _ => ?_
    by_cases hsite : site = .data
    · subst hsite
      simpa [hscan, hconn, hqueue, hopen] using hg
    · exact complete_eq_false_of_findCrlf (scan_fill_line hscan hsite)
  | more hfd hclients hpc =>
    refine h.of_set hs hclients fun _ hread => ?_
    simp [hpc, Pc.readsAt] at hread

private theorem accept_settled (hs : s.pc = .accepting pfds) (hstep : s.accept boot pfds ans = some t) (h : s.Settled) :
    t.Settled := by
  have hl : s.pc.looping = true := by rw [hs]; rfl
  have hr : ∀ j, s.pc.readsAt j = false := fun j => by rw [hs]; rfl
  rcases accept_cases hstep with ⟨fd, k, rest, -, -, -, rfl⟩ | ⟨-, rfl⟩ | ⟨-, rfl⟩
  · refine h.next (fun _ => hl) fun j c hc _ _ => ?_
    rcases getElem?_push_eq_some hc with hc | ⟨-, rfl⟩
    · exact Or.inr ⟨j, hc, hr j⟩
    · exact Or.inl rfl
  · exact h
  · exact h.of_mem hl hr fun _ hc => hc

private theorem tick_clients (h : s.tick ans = some t) : t.clients = s.clients := by
  rcases tick_cases h with ⟨-, -, rfl⟩ | ⟨listener, revents, -, -, rfl⟩ | ⟨-, rfl⟩ | ⟨-, rfl⟩ <;> rfl

private theorem reapChild_mem (h : s.reapChild i ans = some t) : ∀ c ∈ t.clients, c ∈ s.clients := by
  obtain ⟨-, rfl | rfl | ⟨c, pid, -, -, ⟨kid, status, -, rfl⟩ | ⟨-, rfl⟩⟩⟩ := reapChild_cases h
  · exact fun _ hc => hc
  · exact fun _ hc => hc
  · exact fun _ hc => List.mem_of_mem_eraseIdx hc
  · exact fun _ hc => List.mem_of_mem_eraseIdx hc

private theorem settled_step (h : s.Settled) (hg : NothingBehind alloc s a) (hstep : step boot alloc s a = some t) :
    t.Settled := by
  rcases step_outside hstep with ⟨hclients, hpc⟩ | ⟨ans, rfl, hdaemon⟩
  · unfold Sys.Settled
    rw [hclients, hpc]
    exact h
  unfold Sys.daemonStep at hdaemon
  split at hdaemon
  · rename_i hpc
    refine h.of_mem (by rw [hpc]; rfl) (fun j => by rw [hpc]; rfl) fun c hc => ?_
    rwa [tick_clients hdaemon] at hc
  · rename_i hpc
    exact accept_settled hpc hdaemon h
  · rename_i hpc
    exact (visit_step hdaemon).settled hpc h
  · rename_i hpc
    split at hdaemon
    · simp at hdaemon
    · rename_i hc
      exact (read_step hdaemon).settled hpc hc hg h
  · rename_i hpc
    exact h.of_mem (by rw [hpc]; rfl) (fun j => by rw [hpc]; rfl) (reapChild_mem hdaemon)
  · intro hl
    rw [shutdownChild_pc hdaemon] at hl
    cases hl
  all_goals simp at hdaemon

private theorem settled_of_reach (h : Reach (step boot alloc) (NothingBehind alloc) {} s) : s.Settled :=
  h.invariant (I := Sys.Settled) (fun _ => nofun) fun _ _ _ _ hi hg hs => settled_step hi hg hs

/-! ### Runs -/

/-- A read that asks for more on an open connection with an empty queue is put off. -/
theorem fill_of_open {r' : Reader} {site : Site} {buf : Bytes} {conn : Conn}
    (hscan : scan alloc r c.buf = .fill site r' buf) (h : s.read boot alloc pfds i r c ans = some t)
    (hconn : s.conn? c.fd = some conn) (hqueue : conn.queue = []) (hopen : conn.closed = false) :
    t = (s.setClient i { c with buf := buf, first := false }).goto (.pass pfds (i + 1)) := by
  have hno : ∀ {k : ConnId} {conn' : Conn} {bytes : Bytes} {files : List FileId} {queue : List Msg},
      ¬s.Takes c.fd k conn' bytes files queue := by
    intro k conn' bytes files queue ht
    have hconn' : s.conn? c.fd = some conn' := by simp [Sys.conn?, ht.fd, ht.get]
    rw [hconn, Option.some.injEq] at hconn'
    exact ht.nonempty (hconn' ▸ hqueue)
  rcases fill_cases hscan h with ⟨ht, -⟩ | ⟨-, -, hclosed⟩ | ⟨-, -, conn', hconn', -, hclosed⟩ |
    ⟨k, conn', bytes, files, queue, ht, -⟩ | ⟨fds, k, conn', bytes, files, queue, -, ht, -⟩
  · exact ht
  · exact absurd (hclosed conn hconn) (by simp [hopen])
  · rw [hconn, Option.some.injEq] at hconn'
    subst hconn'
    rw [hopen] at hclosed
    cases hclosed
  · exact absurd ht hno
  · exact absurd ht hno

/-- An entry that goes unread with a complete command in `c.buf` is not settled. -/
theorem not_settled (hc : s.clients[i]? = some c) (c' : DaemonClient) (hclients : t.clients = s.clients.set i c')
    (hidle : c'.pid = none) (hcomplete : complete c'.buf) (hpc : t.pc = .pass pfds (i + 1)) : ¬t.Settled := by
  intro h
  have hget : t.clients[i]? = some c' := by rw [hclients, getElem?_set_of_get hc]
  have := h (by rw [hpc]; rfl) i c' hget hidle (by rw [hpc]; rfl)
  rw [hcomplete] at this
  cases this

theorem nothingBehind_of_settled (hreach : s.ReadsWaiting) (hstep : step boot alloc s a = some t) (ht : t.Settled) :
    NothingBehind alloc s a := by
  unfold NothingBehind
  split
  · rename_i ans
    by_contra hleft
    unfold Sys.leavesBehind at hleft
    split at hleft
    · rename_i pfds i r hpc
      obtain ⟨-, c, hc, hidle⟩ := hreach pfds i r hpc
      simp only [step, Sys.daemonStep, hpc, hc] at hstep
      simp only [hc, Option.any_some] at hleft
      split at hleft
      · rename_i op fields buf hscan
        simp only [Bool.and_eq_true, Bool.not_eq_false, decide_eq_true_eq] at hleft
        obtain ⟨hop, hcomplete⟩ := hleft
        simp only [Sys.read, hscan] at hstep
        rcases dispatch_cases hstep with ⟨-, -, rfl⟩ | ⟨hop', -⟩ | ⟨reply, ⟨hop', -⟩ | ⟨hop', -⟩, -⟩ | ⟨pid, hop', -⟩
        · exact not_settled hc { c with buf := buf } rfl hidle hcomplete rfl ht
        all_goals cases hop.symm.trans hop'
      · rename_i r' buf hscan
        simp only [Bool.and_eq_true, Bool.not_eq_false] at hleft
        obtain ⟨hcomplete, hany⟩ := hleft
        obtain ⟨conn, hconn, hquiet⟩ := (Option.any_eq_true _ _).1 hany
        simp only [Bool.and_eq_true, decide_eq_true_eq, Bool.not_eq_true'] at hquiet
        cases fill_of_open hscan hstep hconn hquiet.1 hquiet.2
        exact not_settled hc { c with buf := buf, first := false } rfl hidle hcomplete rfl ht
      · simp at hleft
    · simp at hleft
  · trivial

/-- In a run that leaves nothing behind no complete command waits at a `poll`, and the next step keeps all the buffers
settled exactly when it leaves nothing behind either. -/
theorem no_command_waits (h : Reach (step boot alloc) (NothingBehind alloc) {} s) :
    ¬s.Waits ∧ ∀ a t, step boot alloc s a = some t → (t.Settled ↔ NothingBehind alloc s a) := by
  have hs := settled_of_reach h
  refine ⟨?_, fun a t hstep => ⟨fun ht => ?_, fun hg => settled_step hs hg hstep⟩⟩
  · rintro ⟨hpc, -, c, hc, hidle, hcomplete⟩
    obtain ⟨j, hlt, hj⟩ := List.mem_iff_getElem.1 hc
    have hget : s.clients[j]? = some c := by rw [List.getElem?_eq_getElem hlt, hj]
    have := hs (by rw [hpc]; rfl) j c hget hidle (by rw [hpc]; rfl)
    rw [hcomplete] at this
    cases this
  · exact nothingBehind_of_settled (readsWaiting_of_reach h) hstep ht

/-- A PING is answered, and the loop is about to poll again. -/
theorem no_command_waits_ping :
    ∃ s, Reach (step bareBoot fun _ => true) (NothingBehind fun _ => true) {} s ∧ s.pc = .top ∧
      s.held = [4, 10, 11, 12] ∧ ¬s.Waits := by
  have hrun : (exec (guarded (step bareBoot fun _ => true) (NothingBehind fun _ => true)) {}
      (oneClient "PING 0\r\n" (by decide) ++ [.daemon .go, .daemon .go, .daemon .go, .daemon .go])).any
      (fun s => s.pc = .top ∧ s.held = [4, 10, 11, 12]) = true := by
    decide
  obtain ⟨s, hs, hp⟩ := Reach.of_any_guarded hrun
  obtain ⟨htop, hheld⟩ := of_decide_eq_true hp
  exact ⟨s, hs, htop, hheld, (no_command_waits hs).1⟩

/-- Two PINGs in one receive: the second one is still in `c.buf` at the next `poll`. -/
theorem second_ping_waits : ¬∀ s, Reach (step bareBoot fun _ => true) Free {} s → ¬s.Waits := by
  intro h
  have hrun : (exec (step bareBoot fun _ => true) {} (oneClient "PING 0\r\nPING 0\r\n" (by decide) ++
      [.daemon .go, .daemon .go, .daemon .go, .daemon .go])).any
      (fun s => s.Waits) = true := by
    decide
  obtain ⟨s, hs, hp⟩ := Reach.of_any hrun
  exact h s hs (of_decide_eq_true hp)

end Calisto

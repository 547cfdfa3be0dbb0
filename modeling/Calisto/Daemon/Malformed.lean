import Calisto.Daemon.Children

/-!
# Malformed requests

A bad head, a bad length line or an unknown op costs its sender an ERR line and its entry, and nothing else changes.
Two things a client can send do more harm: a field count that `Vec::with_capacity` cannot serve, which ends the
daemon, and a `RUN` or `EVAL` with fewer than three fields, which is forked before the fields are looked at.
-/

namespace Calisto

open Function Handles Machine

variable {boot : Boot} {alloc : Nat → Bool} {s t : Sys} {a : Act}

/-! ### Announced counts -/

/-- The field count of the head line that the read comes upon. -/
def announced : Reader → Bytes → Option Nat
  | .head, buf => (findCrlf buf).bind fun pos => (parseHead (buf.take pos)).toOption.map Prod.snd
  | .fields _ _ _ _, _ => none

private theorem scanFields_not_crash (head op : Str) (todo : Nat) (got : List Bytes) (buf : Bytes) (e : Crash) :
    scanFields head op todo got buf ≠ .crash e := by
  induction todo generalizing got buf with
  | zero => nofun
  | succ todo ih =>
    unfold scanFields
    split
    · nofun
    · split
      · nofun
      · split
        · nofun
        · exact ih _ _

/-- The read panics exactly on a count for which there is no vector. -/
theorem scan_crash_iff (r : Reader) (buf : Bytes) :
    (∃ e, scan alloc r buf = .crash e) ↔ ∃ n ∈ announced r buf, withCapacity alloc n ≠ none := by
  cases r with
  | fields head op todo got =>
    constructor
    · rintro ⟨e, he⟩
      exact absurd he (scanFields_not_crash head op todo got buf e)
    · rintro ⟨n, hn, -⟩
      cases hn
  | head =>
    simp only [scan, announced]
    cases findCrlf buf with
    | none => simp
    | some pos =>
      cases hparse : parseHead (buf.take pos) with
      | error head => simp [Except.toOption, hparse]
      | ok x =>
        obtain ⟨op, count⟩ := x
        cases hcap : withCapacity alloc count with
        | some e => simp [Except.toOption, hparse, hcap]
        | none => simp [Except.toOption, hparse, hcap, scanFields_not_crash]

/-! ### The condition -/

/-- The request that the loop dispatches or refuses is not well formed. -/
def Scan.Malformed : Scan → Prop
  | .bad _ _ => True
  | .done op fields _ => match opOf op with
    | .request => fields.length < 3
    | .other => True
    | _ => False
  | _ => False

/-- Head lines announce counts that `Vec::with_capacity` can serve, and no `RUN` or `EVAL` with fewer than three
fields is forked. -/
def Orderly (alloc : Nat → Bool) (s : Sys) : Act → Prop
  | .daemon ans => ∀ pfds i r, s.pc = .reading pfds i r → ∀ c, s.clients[i]? = some c →
      (∀ n ∈ announced r c.buf, withCapacity alloc n = none) ∧
      ∀ op fields buf, scan alloc r c.buf = .done op fields buf → opOf op = .request →
        3 ≤ fields.length ∨ ans = .forkFailed
  | _ => True

/-! ### The property -/

/-- The sender alone pays: an ERR line on its own connection, then its descriptor and its entry go. -/
structure OnlySender (s t : Sys) (i : Nat) (c : DaemonClient) : Prop where
  replied : ∃ r : Reply, r.isErr ∧ t.log = .closed c.fd (s.fdt c.fd) :: .reply (s.fdt c.fd) r :: s.log
  clients : t.clients = s.clients.eraseIdx i
  fdt : ∀ fd ≠ c.fd, t.fdt fd = s.fdt fd
  kids : t.kids = s.kids
  conns : t.conns = s.conns

/-- A step that panics neither in the daemon nor in a child that it forks, and that lets a malformed request hurt its
sender only. -/
structure Contained (alloc : Nat → Bool) (s : Sys) (a : Act) (t : Sys) : Prop where
  daemon : ∀ e, t.pc = .crashed e → s.pc = .crashed e
  child : ∀ pid owner childFds controlFd fields table,
    Event.fork pid owner childFds controlFd fields table ∈ t.log →
      Event.fork pid owner childFds controlFd fields table ∈ s.log ∨ 3 ≤ fields
  sender : ∀ ans pfds i r c, a = .daemon ans → s.pc = .reading pfds i r → s.clients[i]? = some c →
    (scan alloc r c.buf).Malformed → OnlySender s t i c

private theorem onlySender_dismiss (i : Nat) (c : DaemonClient) {r : Reply} (hr : r.isErr) (pc : Pc) :
    OnlySender s ((s.dismiss i c.fd r).goto pc) i c where
  replied := ⟨r, hr, rfl⟩
  clients := rfl
  fdt _ hfd := update_of_ne hfd _ _
  kids := rfl
  conns := rfl

private theorem Effect.crash_inv (he : Effect boot alloc s a t) {e : Crash} (h : t.pc = .crashed e) :
    s.pc = .crashed e ∨ ∃ ans c, a = .daemon ans ∧ s.Finds alloc c (.crash e) := by
  have hpasses : ∀ {pc : Pc}, pc.passes → pc ≠ .crashed e := by
    rintro pc ⟨_, _, rfl⟩
    nofun
  have hgoes : ∀ {pc : Pc} {i : Nat}, pc.goesOn i → pc ≠ .crashed e := by
    rintro pc i (hp | ⟨_, _, rfl, -⟩)
    · exact hpasses hp
    · nofun
  cases he with
  | connect | send | hangup | exit | signal | accepted | reaped | lost => exact Or.inl h
  | quiet hs hpc hread hcrash =>
    obtain ⟨c, hc⟩ := hcrash e h
    exact Or.inr ⟨_, c, rfl, hc⟩
  | answered hw hbuf hr hpc =>
    rcases hpc with hpc | hpc
    · exact absurd h (hpasses hpc)
    · have h : _ = _ := h
      rw [goto_pc, hpc] at h
      cases h
  | starved hw hbuf hq hfds hpc => exact absurd h (hgoes hpc)
  | received hw hfirst ht hpc => exact absurd h (hgoes hpc)
  | installed hw hread hfirst ht hlen hnd hfree hpc => exact absurd h (hgoes hpc)
  | rejected hw hr hrej hpc => exact absurd h (hpasses hpc)
  | forked hw hbuf hreq hpid hpc => exact absurd h (hpasses hpc)
  | buried hw hpc => exact absurd h (hpasses hpc)
  | passedBy | returned => cases h
  | takenDown =>
    rw [takeDown_pc] at h
    cases h

/-- The forks of a step are those of the requests that it dispatches. -/
theorem Effect.fork_inv (he : Effect boot alloc s a t) (hp : s.Parented) {pid : Pid} {owner : Option File}
    {childFds : List Fd} {controlFd : Fd} {fields : Nat} {table : Fd → Option File}
    (h : Event.fork pid owner childFds controlFd fields table ∈ t.log) :
    Event.fork pid owner childFds controlFd fields table ∈ s.log ∨
      ∃ c op fs buf, a = .daemon (.forked pid) ∧ s.Finds alloc c (.done op fs buf) ∧ opOf op = .request ∧
        fields = fs.length := by
  rcases he.log_inv hp h with h | hnew
  · exact Or.inl h
  · cases hnew with
    | fork ha hrun hc hidle hbuf hfinds hop => exact Or.inr ⟨_, _, _, _, ha, hfinds, hop, rfl⟩

/-- A malformed request that is not forked is answered with an ERR line. -/
theorem read_malformed {pfds : List PollFd} {i : Nat} {r : Reader} {c : DaemonClient} {ans : Answer}
    (hm : (scan alloc r c.buf).Malformed)
    (hfork : ∀ op fields buf, scan alloc r c.buf = .done op fields buf → opOf op = .request →
      3 ≤ fields.length ∨ ans = .forkFailed)
    (h : s.read boot alloc pfds i r c ans = some t) : OnlySender s t i c := by
  cases hscan : scan alloc r c.buf with
  | done op fields buf =>
    rw [hscan] at hm
    simp only [Scan.Malformed] at hm
    simp only [Sys.read, hscan] at h
    rcases dispatch_cases h with ⟨hop, -⟩ | ⟨hop, -⟩ | ⟨reply, hreply, rfl⟩ | ⟨pid, hop, rfl, -⟩
    · simp [hop] at hm
    · simp [hop] at hm
    · rcases hreply with ⟨-, -, rfl⟩ | ⟨-, -, rfl⟩ <;> exact onlySender_dismiss i c rfl _
    · rw [hop] at hm
      rcases hfork op fields buf hscan hop with hlen | hfailed
      · exact absurd hm (Nat.not_lt.2 hlen)
      · cases hfailed
  | bad line buf =>
    obtain ⟨-, rfl⟩ := read_bad hscan h
    exact onlySender_dismiss i c rfl _
  | crash e => rw [hscan] at hm; cases hm
  | fill site r' buf => rw [hscan] at hm; cases hm

/-- No fork event stands in the log for a connection whose entry has no child. -/
theorem Sys.Tallied.not_mem_log (h : s.Tallied) (hrun : s.pc.stopping = false) {c : DaemonClient} (hc : c ∈ s.clients)
    (hidle : c.pid = none) {k : ConnId} (hk : s.fdt c.fd = some (.conn k)) (pid : Pid) (childFds : List Fd)
    (controlFd : Fd) (fields : Nat) (table : Fd → Option File) :
    Event.fork pid (s.fdt c.fd) childFds controlFd fields table ∉ s.log := by
  intro hm
  have hzero := List.countP_eq_zero.1 (h.idle hrun c hc hidle k hk).1 _ hm
  simp [Event.forkFor, hk] at hzero

private theorem contained_of_orderly (hreach : Reach (step boot alloc) Free {} s) (hstep : step boot alloc s a = some t)
    (hg : Orderly alloc s a) : Contained alloc s a t := by
  have he := step_effect (readsWaiting_of_reach hreach) hstep
  refine ⟨fun e hcrash => ?_, fun pid owner childFds controlFd fields table hm => ?_,
    fun ans pfds i r c ha hpc hc hm => ?_⟩
  · rcases he.crash_inv hcrash with h | ⟨ans, c, rfl, pfds, i, r, hpc, hc, hscan⟩
    · exact h
    · obtain ⟨n, hn, hcap⟩ := (scan_crash_iff r c.buf).1 ⟨e, hscan⟩
      exact absurd ((hg pfds i r hpc c hc).1 n hn) hcap
  · rcases he.fork_inv (parented_of_reach hreach) hm with
      h | ⟨c, op, fs, buf, rfl, ⟨pfds, i, r, hpc, hc, hscan⟩, hop, rfl⟩
    · exact Or.inl h
    · rcases (hg pfds i r hpc c hc).2 op fs buf hscan hop with hlen | hfail
      · exact Or.inr hlen
      · simp at hfail
  · subst ha
    simp only [step, Sys.daemonStep, hpc, hc] at hstep
    exact read_malformed hm (hg pfds i r hpc c hc).2 hstep

private theorem orderly_of_contained (hreach : Reach (step boot alloc) Free {} s) (hstep : step boot alloc s a = some t)
    (h : Contained alloc s a t) : Orderly alloc s a := by
  cases a with
  | daemon ans =>
    intro pfds i r hpc c hc
    simp only [step, Sys.daemonStep, hpc, hc] at hstep
    refine ⟨fun n hn => ?_, fun op fields buf hscan hop => ?_⟩
    · by_contra hcap
      obtain ⟨e, he⟩ := (scan_crash_iff r c.buf).2 ⟨n, hn, hcap⟩
      obtain ⟨rfl, rfl⟩ := read_crash he hstep
      have := h.daemon e rfl
      rw [hpc] at this
      cases this
    · by_contra hbad
      rw [not_or] at hbad
      simp only [Sys.read, hscan] at hstep
      rcases dispatch_cases hstep with ⟨hop', -⟩ | ⟨hop', -⟩ | ⟨reply, ⟨-, rfl, -⟩ | ⟨hop', -⟩, -⟩ |
        ⟨pid, -, rfl, -, rfl⟩
      · cases hop.symm.trans hop'
      · cases hop.symm.trans hop'
      · exact hbad.2 rfl
      · cases hop.symm.trans hop'
      · -- the child is forked with the short list of fields
        have hm : Event.fork pid (s.fdt c.fd) c.fds c.fd fields.length s.fdt ∈
            (((s.setClient i { c with buf := buf }).fork i { c with buf := buf } fields pid).goto
              (.pass pfds (i + 1))).log := mem_log_closeAll (List.mem_cons_self ..)
        obtain ⟨-, c', hc', hidle⟩ := readsWaiting_of_reach hreach pfds i r hpc
        rw [hc] at hc'
        cases hc'
        have hmem := List.mem_of_getElem? hc
        obtain ⟨k, hk⟩ := (owned_of_reach hreach).control c hmem
        have hrun : s.pc.stopping = false := by rw [hpc]; rfl
        rcases h.child _ _ _ _ _ _ hm with hold | hlen
        · exact (tallied_of_reach hreach).not_mem_log hrun hmem hidle hk _ _ _ _ _ hold
        · exact hbad.1 hlen
  | _ => trivial

/-- What a run without oversized counts and short requests never shows. -/
structure Sys.Unharmed (s : Sys) : Prop where
  daemon : ∀ e, s.pc ≠ .crashed e
  child : ∀ pid owner childFds controlFd fields table,
    Event.fork pid owner childFds controlFd fields table ∈ s.log → 3 ≤ fields

/-- A run whose steps are all orderly panics nowhere, and a step of any run is contained exactly when it is orderly. -/
theorem malformed_hurts_sender_iff (boot : Boot) (alloc : Nat → Bool) :
    (∀ s, Reach (step boot alloc) (Orderly alloc) {} s →
      s.Unharmed ∧ ∀ a t, Orderly alloc s a → step boot alloc s a = some t → Contained alloc s a t) ∧
    ∀ s a t, Reach (step boot alloc) Free {} s → step boot alloc s a = some t →
      (Contained alloc s a t ↔ Orderly alloc s a) := by
  refine ⟨fun s h => ⟨?_, fun a t hg hs => contained_of_orderly h.free hs hg⟩,
    fun s a t h hs => ⟨orderly_of_contained h hs, contained_of_orderly h hs⟩⟩
  refine h.invariant (I := Sys.Unharmed) ⟨nofun, nofun⟩ fun s a t hreach hi hg hs => ?_
  have hc := contained_of_orderly hreach.free hs hg
  refine ⟨fun e he => hi.daemon e (hc.daemon e he), fun pid owner childFds controlFd fields table hm => ?_⟩
  rcases hc.child _ _ _ _ _ _ hm with hold | hlen
  · exact hi.child _ _ _ _ _ _ hold
  · exact hlen

/-- The head line `RUN 18446744073709551615` ends the daemon. -/
theorem oversized_count_crashes :
    ¬∀ s a t, Reach (step bareBoot fun _ => true) Free {} s → step bareBoot (fun _ => true) s a = some t →
      Contained (fun _ => true) s a t := by
  intro h
  have hrun : (exec (step bareBoot fun _ => true) {} (oneClient "RUN 18446744073709551615\r\n" (by decide))).any
      (fun s => s.pc ≠ .crashed .capacityOverflow ∧
        (step bareBoot (fun _ => true) s (.daemon .go)).any fun t => t.pc = .crashed .capacityOverflow) = true := by
    decide
  obtain ⟨s, hs, hp⟩ := Reach.of_any hrun
  obtain ⟨hpc, hstep⟩ := of_decide_eq_true hp
  obtain ⟨t, ht, hcrash⟩ := (Option.any_eq_true _ _).1 hstep
  exact hpc ((h s _ t hs ht).daemon _ (of_decide_eq_true hcrash))

end Calisto

import Calisto.Runtime.Moves

/-!
# Concurrent cold starts

Clients that find no daemon each start one; the first daemon to bind the path keeps it and the others exit with
status 0 (`return Ok(0)`), so that their clients connect to the winner.  A client looks at the socket and at its own
child in separate calls, and fails if its child exits between the two, and so it does if the winner is gone by the time
of its `connect`.  `Orderly` is the condition that this does not happen.  In the runs that keep to it each such client
gets its stream (`cold_start`); after any other step, some run has such a client fail although a daemon serves.
-/

namespace Calisto.Runtime

open Machine

variable {s t : State} {a : Act} {d e i : Nat} {c : Client} {D E : Daemon}

/-! ### Spurious failures -/

/-- The child that a client is looking after. -/
def ClientPc.child : ClientPc → Option Nat
  | .poll d | .tryWait d | .clock d => some d
  | _ => none

def ClientPc.isConnected : ClientPc → Bool
  | .connected _ => true
  | _ => false

/-- The client of `d` has its stream, or its next `connect` is answered and comes before the next `try_wait`. -/
def Client.Served (s : State) (d : Nat) (c : Client) : Prop :=
  c.pc.isConnected ∨ (c.pc = .poll d ∨ c.pc = .clock d) ∧ s.listener.isSome

/-- Every client whose daemon ended because another one answers is served. -/
def ColdStart (s : State) : Prop :=
  ∀ (d : Nat) (D : Daemon), s.daemons[d]? = some D → D.pc = .exited .owned →
    ∃ c : Client, s.clients[D.spawner]? = some c ∧ c.Served s d

/-- Some client has returned an error although its daemon ended because another one answered. -/
def Spurious (s : State) : Prop :=
  ∃ (d : Nat) (D : Daemon) (c : Client) (err : ConnectErr), s.daemons[d]? = some D ∧ D.pc = .exited .owned ∧
    s.clients[D.spawner]? = some c ∧ c.pc = .failed err

/-! ### The runs -/

/-- There are only clients of `connect_or_spawn_daemon_in` and the daemons that they start. -/
def StartsOnly (_ : State) : Act → Prop
  | .stop => False
  | .stopper _ _ => False
  | _ => True

instance : (s : State) → (a : Act) → Decidable (StartsOnly s a)
  | _, .stop => isFalse id
  | _, .stopper _ _ => isFalse id
  | _, .call _ => isTrue trivial
  | _, .client _ _ => isTrue trivial
  | _, .refuse _ => isTrue trivial
  | _, .daemon _ => isTrue trivial
  | _, .term _ => isTrue trivial
  | _, .die _ => isTrue trivial

/-- Some daemon that has bound the path serves and is not asked to stop. -/
def State.hasServer (s : State) : Bool := s.daemons.any fun D => D.pc = .serving && !D.stop

/-- A client whose daemon ended because another one answers is still on its way to its `connect`. -/
def State.waiting (s : State) : Bool :=
  s.daemons.any fun D => D.pc = .exited .owned && (s.clients[D.spawner]?).any fun c => !c.pc.isConnected

def ClientPc.expiring : ClientPc → Option Nat
  | .clock d => some d
  | _ => none

/-- The step removes the file at the socket path, or ends the process that listens there: at the end of its shutdown,
because the client that spawned it finds its time over, or in any other way. -/
def losesListener (s : State) (a : Act) : Bool :=
  removesSock s a || match a with
    | .daemon d => s.listener = some d && (s.daemons[d]?).any fun D => D.pc = .cleanup
    | .client i true => (s.clients[i]?).any fun c => c.pc.expiring.any fun d => s.listener = some d
    | .die d => s.listener = some d
    | _ => false

/-- No daemon finds the path owned while its client stands between a `connect` that failed and the `try_wait`, and no
client's time is over when its daemon has just found the path owned. -/
def InTime (s : State) : Act → Prop
  | .daemon d => ∀ D ∈ s.daemons[d]?, D.pc = .probe → s.listener.isSome →
      ∀ c ∈ s.clients[D.spawner]?, c.pc ≠ .tryWait d
  | .client i true => ∀ c ∈ s.clients[i]?, ∀ d ∈ c.pc.expiring, ∀ D ∈ s.daemons[d]?, D.pc ≠ .exited .owned
  | _ => True

instance : (s : State) → (a : Act) → Decidable (InTime s a)
  | s, .daemon d => inferInstanceAs (Decidable (∀ D ∈ s.daemons[d]?, D.pc = .probe → s.listener.isSome →
      ∀ c ∈ s.clients[D.spawner]?, c.pc ≠ .tryWait d))
  | s, .client i true => inferInstanceAs (Decidable (∀ c ∈ s.clients[i]?, ∀ d ∈ c.pc.expiring,
      ∀ D ∈ s.daemons[d]?, D.pc ≠ .exited .owned))
  | _, .client _ false => isTrue trivial
  | _, .call _ => isTrue trivial
  | _, .stop => isTrue trivial
  | _, .refuse _ => isTrue trivial
  | _, .stopper _ _ => isTrue trivial
  | _, .term _ => isTrue trivial
  | _, .die _ => isTrue trivial

/-- Every client is in time, and while a client of a daemon that found the path owned is on its way to its `connect`,
the listener stays. -/
def Orderly (s : State) (a : Act) : Prop := InTime s a ∧ (s.waiting → losesListener s a = false)

instance (s : State) (a : Act) : Decidable (Orderly s a) := inferInstanceAs (Decidable (_ ∧ _))

/-! ### The invariant -/

/-- Where the client of daemon `d` stands. -/
def Client.Linked (c : Client) (d : Nat) (D : Daemon) : Prop :=
  c.pc.child = some d ∨ c.pc.isConnected ∨ (∃ err, c.pc = .failed err) ∧ D.pc.isExited

structure ColdInv (s : State) : Prop where
  linked : ∀ (d : Nat) (D : Daemon), s.daemons[d]? = some D →
    ∃ c : Client, s.clients[D.spawner]? = some c ∧ c.Linked d D
  mine : ∀ (i : Nat) (c : Client) (d : Nat), s.clients[i]? = some c → c.pc.child = some d →
    ∃ D : Daemon, s.daemons[d]? = some D ∧ D.spawner = i
  cold : ColdStart s

/-! ### The listener stays -/

private theorem waiting_iff : s.waiting ↔ ∃ (d : Nat) (D : Daemon) (c : Client), s.daemons[d]? = some D ∧
    D.pc = .exited .owned ∧ s.clients[D.spawner]? = some c ∧ ¬ c.pc.isConnected := by
  simp only [State.waiting, List.any_eq_true, Bool.and_eq_true, decide_eq_true_eq, Option.any_eq_true,
    Bool.not_eq_true', List.mem_iff_getElem?]
  constructor
  · rintro ⟨D, ⟨d, hD⟩, hpc, c, hc, hno⟩
    exact ⟨d, D, c, hD, hpc, hc, by simpa using hno⟩
  · rintro ⟨d, D, c, hD, hpc, hc, hno⟩
    exact ⟨D, ⟨d, hD⟩, hpc, c, hc, by simpa using hno⟩

/-- A listener stays unless the step removes its file or ends it. -/
theorem listener_kept (h : Moves s a t) (he : s.listener = some e) (hlose : losesListener s a = false) :
    t.listener = some e := by
  obtain ⟨hs, E, hE, hl⟩ := listener_eq_some.1 he
  obtain ⟨hsock, hend⟩ := Bool.or_eq_false_iff.1 hlose
  have ht : t.sock = some (.of e) := by
    rcases h.sock with ht | ⟨-, hr⟩ | ⟨hnone, -⟩
    · rw [ht, hs]
    · rw [hsock] at hr; cases hr
    · rw [hs] at hnone; cases hnone
  obtain ⟨E', hE', hn⟩ := h.daemon_kept hE
  refine listener_eq_some.2 ⟨ht, E', hE', ?_⟩
  cases hn with
  | same => exact hl
  | asked => exact hl
  | died _ hwhy =>
    rcases hwhy with rfl | ⟨i, c, rfl, hc, hpc⟩
    · simp [he] at hend
    · simp [he, hc, hpc, ClientPc.expiring] at hend
  | goes ha hg =>
    subst ha
    cases hg with
    | listening => rfl
    | stopping => rfl
    | stopped hpc => simp [he, hE, hpc] at hend
    | _ hpc => rw [hpc] at hl; cases hl
  | writePid => rfl
  | unlinkSock => rfl
  | unlinkPid => rfl
  | boot _ hpc => rw [hpc] at hl; cases hl
  | bind _ hpc => rcases hpc with hpc | hpc <;> rw [hpc] at hl <;> cases hl
  | unlinkStale _ hpc => rw [hpc] at hl; cases hl

private theorem sock_of_removesSock (h : step s a = some t) (hr : removesSock s a) : t.sock = none := by
  cases a with
  | daemon d =>
    obtain ⟨D, hD, hpc⟩ := (Option.any_eq_true _ _).1 hr
    rcases of_decide_eq_true hpc with hpc | hpc <;>
      · simp only [step, hD, daemonStep, hpc, Option.some.injEq] at h
        rw [← h]
  | stopper k late =>
    simp only [step, of_decide_eq_true hr, stopperStep, Option.some.injEq] at h
    rw [← h]
  | _ => cases hr

/-- Nobody listens on a path whose daemon is gone. -/
theorem listener_of_exited (hs : t.sock = some (.of d)) (hD : t.daemons[d]? = some D) (hex : D.pc.isExited) :
    t.listener = none := by
  by_contra hne
  obtain ⟨e, he⟩ := Option.ne_none_iff_exists'.1 hne
  obtain ⟨hs', E, hE, hl⟩ := listener_eq_some.1 he
  rw [hs] at hs'
  cases hs'
  rw [hD] at hE
  cases hE
  rw [DaemonPc.not_exited_of_listens hl] at hex
  cases hex

/-- A step that removes the file of the listener or ends it leaves no listener. -/
theorem listener_lost (h : step s a = some t) (hlose : losesListener s a) : t.listener = none := by
  have hsock : t.sock = none → t.listener = none := fun hs => by rw [State.listener, hs]
  have hkill : ∀ d, s.listener = some d → t.sock = s.sock → t.daemons = (s.kill d).daemons → t.listener = none := by
    intro d hl hs hd
    obtain ⟨hof, D, hD, hlistens⟩ := listener_eq_some.1 hl
    refine listener_of_exited (d := d) (D := { D with pc := .exited .died }) (hs.trans hof) ?_ rfl
    rw [hd, kill_of_not_exited hD (DaemonPc.not_exited_of_listens hlistens), setDaemon_daemons,
      getElem?_set_of_get hD]
  rcases Bool.or_eq_true_iff.1 hlose with hr | hend
  · exact hsock (sock_of_removesSock h hr)
  cases a with
  | daemon d =>
    obtain ⟨hl, hany⟩ := Bool.and_eq_true_iff.1 hend
    obtain ⟨D, hD, hpc⟩ := (Option.any_eq_true _ _).1 hany
    simp only [step, hD, daemonStep, of_decide_eq_true hpc, Option.some.injEq] at h
    subst h
    exact listener_of_exited (listener_eq_some.1 (of_decide_eq_true hl)).1 (getElem?_set_of_get hD _) rfl
  | client i late =>
    cases late with
    | false => cases hend
    | true =>
      obtain ⟨c, hc, hany⟩ := (Option.any_eq_true _ _).1 hend
      obtain ⟨d, hd, hl⟩ := (Option.any_eq_true _ _).1 hany
      have hpc : c.pc = .clock d := by
        cases hp : c.pc <;> rw [hp] at hd <;> cases hd
        rfl
      simp only [step, hc, clientStep, hpc, ↓reduceIte, Option.some.injEq] at h
      subst h
      exact hkill d (of_decide_eq_true hl) (kill_sock d) rfl
  | die d =>
    have hl := of_decide_eq_true hend
    obtain ⟨-, D, hD, hlistens⟩ := listener_eq_some.1 hl
    simp only [step, hD, DaemonPc.not_exited_of_listens hlistens, Bool.false_eq_true, ↓reduceIte,
      Option.some.injEq] at h
    subst h
    exact hkill d hl (kill_sock d) rfl
  | _ => cases hend

/-! ### One step -/

/-- The child of a client whose time is over is gone. -/
theorem exited_of_expire (h : Moves s (.client i true) t) (hc : s.clients[i]? = some c) (hpc : c.pc = .clock d)
    (hE : t.daemons[d]? = some E) : E.pc.isExited := by
  cases h with
  | connect hc' hpc' =>
    rw [hc] at hc'
    cases hc'
    rcases hpc' with hpc' | ⟨_, hpc'⟩ <;> rw [hpc] at hpc' <;> cases hpc'
  | client hc' hg =>
    rw [hc] at hc'
    cases hc'
    cases hg with
    | again _ hl => cases hl
    | _ hpc' => rw [hpc] at hpc'; cases hpc'
  | spawn hc' hpc' =>
    rw [hc] at hc'
    cases hc'
    rw [hpc] at hpc'
    cases hpc'
  | expire hc' hpc' =>
    rw [hc] at hc'
    cases hc'
    rw [hpc] at hpc'
    cases hpc'
    rw [setClient_daemons] at hE
    unfold State.kill at hE
    split at hE
    · rename_i D hD
      split at hE
      · rename_i hex
        rw [hD] at hE
        cases hE
        exact hex
      · rw [setDaemon_daemons, getElem?_set_of_get hD] at hE
        cases hE
        rfl
    · rename_i hnone
      rw [hE] at hnone
      cases hnone

private theorem ColdInv.linked_step (hi : ColdInv s) (h : Moves s a t) (hE : t.daemons[d]? = some E) :
    ∃ c : Client, t.clients[E.spawner]? = some c ∧ c.Linked d E := by
  rcases h.daemon hE with ⟨D, hD, hn⟩ | ⟨i, late, c, -, hc, -, -, rfl, ht⟩
  · obtain ⟨c, hc, hl⟩ := hi.linked d D hD
    obtain ⟨c', hc', hcn⟩ := h.client_kept hc
    refine ⟨c', by rw [hn.spawner]; exact hc', ?_⟩
    have hexit : D.pc.isExited → E.pc.isExited := fun hx => by rw [hn.eq_of_exited hx]; exact hx
    cases hcn with
    | same => exact hl.imp_right fun hl => hl.imp_right fun hl => ⟨hl.1, hexit hl.2⟩
    | connect => exact .inr (.inl rfl)
    | goes _ hg =>
      cases hg with
      | spawn hpc => simp [Client.Linked, hpc, ClientPc.child, ClientPc.isConnected] at hl
      | tryWait hpc => left; simpa [Client.Linked, hpc, ClientPc.child, ClientPc.isConnected] using hl
      | running hpc => left; simpa [Client.Linked, hpc, ClientPc.child, ClientPc.isConnected] using hl
      | again hpc => left; simpa [Client.Linked, hpc, ClientPc.child, ClientPc.isConnected] using hl
      | @exited d' D' how hpc hD' hhow =>
        have hd : d' = d := by simpa [Client.Linked, hpc, ClientPc.child, ClientPc.isConnected] using hl
        subst hd
        rw [hD] at hD'
        cases hD'
        exact .inr (.inr ⟨⟨_, rfl⟩, hexit (by rw [hhow]; rfl)⟩)
    | refuse _ hpc => simp [Client.Linked, hpc, ClientPc.child, ClientPc.isConnected] at hl
    | spawn _ hpc => simp [Client.Linked, hpc, ClientPc.child, ClientPc.isConnected] at hl
    | @expire d' ha hpc =>
      subst ha
      have hd : d' = d := by simpa [Client.Linked, hpc, ClientPc.child, ClientPc.isConnected] using hl
      subst hd
      exact .inr (.inr ⟨⟨_, rfl⟩, exited_of_expire h hc hpc hE⟩)
  · refine ⟨{ c with pc := .poll d }, ?_, .inl rfl⟩
    show t.clients[i]? = _
    rw [ht]
    exact getElem?_set_of_get hc _

private theorem ColdInv.mine_step (hi : ColdInv s) (h : Moves s a t) (hc : t.clients[i]? = some c)
    (hd : c.pc.child = some d) : ∃ D : Daemon, t.daemons[d]? = some D ∧ D.spawner = i := by
  have kept : (∃ D : Daemon, s.daemons[d]? = some D ∧ D.spawner = i) →
      ∃ D : Daemon, t.daemons[d]? = some D ∧ D.spawner = i := by
    rintro ⟨D, hD, rfl⟩
    obtain ⟨E, hE, hn⟩ := h.daemon_kept hD
    exact ⟨E, hE, hn.spawner⟩
  rcases h.client_next hc with ⟨c0, hc0, hn⟩ | ⟨inv, -, -, rfl⟩
  · cases hn with
    | same => exact kept (hi.mine i c d hc0 hd)
    | connect => cases hd
    | goes _ hg =>
      cases hg with
      | spawn => cases hd
      | exited => cases hd
      | tryWait hpc => exact kept (hi.mine i c0 d hc0 (by rw [hpc]; exact hd))
      | running hpc => exact kept (hi.mine i c0 d hc0 (by rw [hpc]; exact hd))
      | again hpc => exact kept (hi.mine i c0 d hc0 (by rw [hpc]; exact hd))
    | refuse => cases hd
    | spawn _ _ ht =>
      cases hd
      refine ⟨c0.child i, ?_, rfl⟩
      rw [ht]
      simp
    | expire => cases hd
  · cases hd

/-- A client that is served stays so. -/
theorem ColdInv.served_step (hi : ColdInv s) (h : Moves s a t) (ho : Orderly s a)
    (hD : s.daemons[d]? = some D) (howned : D.pc = .exited .owned) :
    ∃ c : Client, t.clients[D.spawner]? = some c ∧ c.Served t d := by
  obtain ⟨c, hc, hserved⟩ := hi.cold d D hD howned
  obtain ⟨c', hc', hn⟩ := h.client_kept hc
  refine ⟨c', hc', ?_⟩
  by_cases hconn : c.pc.isConnected
  · left
    cases hn with
    | same => exact hconn
    | connect => rfl
    | goes _ hg =>
      cases hg with
      | _ hpc => rw [hpc] at hconn; cases hconn
    | refuse _ hpc => rw [hpc] at hconn; cases hconn
    | spawn _ hpc => rw [hpc] at hconn; cases hconn
    | expire _ hpc => rw [hpc] at hconn; cases hconn
  · obtain ⟨hpc, hl⟩ := hserved.resolve_left hconn
    obtain ⟨e, he⟩ := Option.isSome_iff_exists.1 hl
    have hw : s.waiting := waiting_iff.2 ⟨d, D, c, hD, howned, hc, hconn⟩
    have ht : t.listener.isSome := by rw [listener_kept h he (ho.2 hw)]; rfl
    cases hn with
    | same => exact .inr ⟨hpc, ht⟩
    | connect => exact .inl rfl
    | goes _ hg =>
      cases hg with
      | spawn hpc' => rw [hpc'] at hpc; simp at hpc
      | tryWait _ hnone => rw [he] at hnone; cases hnone
      | exited hpc' => rw [hpc'] at hpc; simp at hpc
      | running hpc' => rw [hpc'] at hpc; simp at hpc
      | again hpc' =>
        rw [hpc'] at hpc
        simp only [reduceCtorEq, ClientPc.clock.injEq, false_or] at hpc
        subst hpc
        exact .inr ⟨.inl rfl, ht⟩
    | refuse _ hpc' => rw [hpc'] at hpc; simp at hpc
    | spawn _ hpc' => rw [hpc'] at hpc; simp at hpc
    | expire ha hpc' =>
      subst ha
      rw [hpc'] at hpc
      simp only [reduceCtorEq, ClientPc.clock.injEq, false_or] at hpc
      subst hpc
      exact absurd howned (ho.1 c hc _ (by rw [hpc']; rfl) D hD)

/-- When a daemon finds the path owned, its client is served. -/
theorem ColdInv.served_probe (hi : ColdInv s) (h : Moves s (.daemon d) t) (ho : Orderly s (.daemon d))
    (hD : s.daemons[d]? = some D) (hprobe : D.pc = .probe) (hl : s.listener.isSome) :
    ∃ c : Client, t.clients[D.spawner]? = some c ∧ c.Served t d := by
  obtain ⟨c, hc, hlinked⟩ := hi.linked d D hD
  obtain ⟨e, he⟩ := Option.isSome_iff_exists.1 hl
  have ht : t.listener = some e := by
    refine listener_kept h he ?_
    simp [losesListener, removesSock, hD, hprobe]
  obtain ⟨c', hc', hn⟩ := h.client_kept hc
  have hsame : c' = c := by
    cases hn with
    | same => rfl
    | connect ha => cases ha
    | goes ha => cases ha
    | refuse ha => cases ha
    | spawn ha => cases ha
    | expire ha => cases ha
  subst hsame
  refine ⟨c', hc', ?_⟩
  have hno := ho.1 D hD hprobe hl c' hc
  rcases hlinked with hchild | hconn | ⟨-, hex⟩
  · right
    refine ⟨?_, by rw [ht]; rfl⟩
    cases hpc : c'.pc with
    | poll d' => rw [hpc] at hchild; cases hchild; exact .inl rfl
    | clock d' => rw [hpc] at hchild; cases hchild; exact .inr rfl
    | tryWait d' => rw [hpc] at hchild; cases hchild; exact absurd hpc hno
    | _ => rw [hpc] at hchild; cases hchild
  · exact .inl hconn
  · rw [hprobe] at hex; cases hex

private theorem ColdInv.cold_step (hi : ColdInv s) (h : Moves s a t) (ho : Orderly s a) :
    ColdStart t := by
  intro d E hE howned
  rcases h.daemon hE with ⟨D, hD, hn⟩ | ⟨i, late, c, -, -, -, -, rfl, -⟩
  · rw [hn.spawner]
    by_cases hD' : D.pc = .exited .owned
    · exact hi.served_step h ho hD hD'
    · -- the daemon has just found the path owned
      cases hn with
      | same => exact absurd howned hD'
      | asked => exact absurd howned hD'
      | goes ha hg =>
        subst ha
        cases hg with
        | owned hprobe hl => exact hi.served_probe h ho hD hprobe hl
        | _ => cases howned
      | _ => cases howned
  · cases howned

theorem ColdInv.kept (hi : ColdInv s) (h : Moves s a t) (ho : Orderly s a) : ColdInv t where
  linked _ _ hE := hi.linked_step h hE
  mine _ _ _ hc hd := hi.mine_step h hc hd
  cold := hi.cold_step h ho

private theorem coldInv_start (stale : Bool) (pid : Option Nat) : ColdInv (start stale pid) where
  linked _ _ hE := by simp [start] at hE
  mine _ _ _ hc _ := by simp [start] at hc
  cold _ _ hE := by simp [start] at hE

/-! ### What a disorderly step leads to -/

/-- Its daemon ended because another one answered, and it comes to its `try_wait`. -/
theorem spurious_of_tryWait (hD : s.daemons[d]? = some D) (howned : D.pc = .exited .owned)
    (hc : s.clients[D.spawner]? = some c) (hpc : c.pc = .tryWait d) :
    ∃ u, Reach step StartsOnly s u ∧ Spurious u := by
  refine ⟨s.setClient D.spawner { c with pc := .failed (.exitedEarly .owned) }, ?_, ?_⟩
  · refine Reach.tail (a := .client D.spawner false) .refl trivial ?_
    simp [step, hc, clientStep, hpc, hD, howned]
  · exact ⟨d, D, _, _, hD, howned, getElem?_set_of_get hc _, rfl⟩

/-- Its daemon ended because another one answered, and nobody answers any more. -/
theorem spurious_of_no_listener (hD : s.daemons[d]? = some D) (howned : D.pc = .exited .owned)
    (hc : s.clients[D.spawner]? = some c) (hpc : c.pc = .poll d ∨ c.pc = .clock d) (hl : s.listener = none) :
    ∃ u, Reach step StartsOnly s u ∧ Spurious u := by
  -- the listener is the same whatever the client is at
  have poll : ∀ {v : State} {c : Client}, v.daemons = s.daemons → v.listener = none →
      v.clients[D.spawner]? = some c → c.pc = .poll d → ∃ u, Reach step StartsOnly v u ∧ Spurious u := by
    intro v c hv hl hc hpc
    obtain ⟨u, hu, hs⟩ := spurious_of_tryWait (s := v.setClient D.spawner { c with pc := .tryWait d })
      (by rw [setClient_daemons, hv, hD]) howned (getElem?_set_of_get hc _) rfl
    refine ⟨u, ?_, hs⟩
    exact (Reach.tail (a := .client D.spawner false) .refl trivial (by simp [step, hc, clientStep, hpc, hl])).trans hu
  rcases hpc with hpc | hpc
  · exact poll rfl hl hc hpc
  · obtain ⟨u, hu, hs⟩ := poll (v := s.setClient D.spawner { c with pc := .poll d }) rfl hl
      (getElem?_set_of_get hc _) rfl
    refine ⟨u, ?_, hs⟩
    exact (Reach.tail (a := .client D.spawner false) .refl trivial (by simp [step, hc, clientStep, hpc])).trans hu

/-- A daemon finds the path owned while its client is at its `try_wait`, or a client's time is over when its daemon has
just found the path owned. -/
theorem ColdInv.spurious_of_late (hi : ColdInv s) (h : step s a = some t) (hno : ¬ InTime s a) :
    ∃ u, Reach step StartsOnly t u ∧ Spurious u := by
  cases a with
  | daemon d =>
    simp only [InTime, Option.mem_def, not_forall, ne_eq, not_not] at hno
    obtain ⟨D, hD, hprobe, hl, c, hc, hpc⟩ := hno
    simp only [step, hD, daemonStep, hprobe, hl, ↓reduceIte, Option.some.injEq] at h
    subst h
    exact spurious_of_tryWait (getElem?_set_of_get hD _) rfl hc hpc
  | client i late =>
    cases late with
    | false => exact absurd trivial hno
    | true =>
      simp only [InTime, Option.mem_def, not_forall, ne_eq, not_not] at hno
      obtain ⟨c, hc, d, hd, D, hD, howned⟩ := hno
      have hpc : c.pc = .clock d := by
        cases hp : c.pc <;> rw [hp] at hd <;> cases hd
        rfl
      obtain ⟨D', hD', hmine⟩ := hi.mine i c d hc (by rw [hpc]; rfl)
      rw [hD] at hD'
      cases hD'
      simp only [step, hc, clientStep, hpc, ↓reduceIte, Option.some.injEq] at h
      refine ⟨t, .refl, d, D, { c with pc := .failed .timedOut }, .timedOut, ?_, howned, ?_, rfl⟩
      · subst h
        simp [State.kill, hD, howned, DaemonPc.isExited]
      · subst h
        rw [setClient_clients, kill_clients, hmine]
        exact getElem?_set_of_get hc _
  | _ => exact absurd trivial hno

/-- The listener that a client is waiting for is lost. -/
theorem ColdInv.spurious_of_lost (hi : ColdInv s) (h : step s a = some t) (hw : s.waiting)
    (hlose : losesListener s a) : ∃ u, Reach step StartsOnly t u ∧ Spurious u := by
  obtain ⟨w, W, c, hW, howned, hc, hconn⟩ := waiting_iff.1 hw
  obtain ⟨c', hc', hserved⟩ := hi.cold w W hW howned
  rw [hc] at hc'
  cases hc'
  have hpc := (hserved.resolve_left hconn).1
  -- it is not the waiting client that takes the step
  have hother : ∀ late, a ≠ .client W.spawner late := by
    rintro late rfl
    cases late with
    | false => cases hlose
    | true =>
      have hend : (c.pc.expiring.any fun d => s.listener = some d) = true := by
        simpa [losesListener, removesSock, hc] using hlose
      obtain ⟨d, hd, hl⟩ := (Option.any_eq_true _ _).1 hend
      have hdw : d = w := by
        rcases hpc with hpc | hpc <;> rw [hpc] at hd <;> cases hd
        rfl
      subst hdw
      obtain ⟨-, E, hE, hlistens⟩ := listener_eq_some.1 (of_decide_eq_true hl)
      rw [hW] at hE
      cases hE
      rw [howned] at hlistens
      cases hlistens
  obtain ⟨E, hE, hn⟩ := (step_moves h).daemon_kept hW
  obtain rfl := hn.eq_of_exited (by rw [howned]; rfl)
  obtain ⟨c', hc', hcn⟩ := (step_moves h).client_kept hc
  have hsame : c' = c := by
    cases hcn with
    | same => rfl
    | refuse _ hspawn => rcases hpc with hpc | hpc <;> rw [hpc] at hspawn <;> cases hspawn
    | _ ha => exact absurd ha (hother _)
  subst hsame
  exact spurious_of_no_listener hE howned hc' hpc (listener_lost h hlose)

/-! ### A daemon that serves -/

/-- A client that has failed does not come back, nor does its daemon. -/
theorem Spurious.kept (hs : Spurious s) (h : Moves s a t) : Spurious t := by
  obtain ⟨d, D, c, err, hD, howned, hc, hpc⟩ := hs
  obtain ⟨E, hE, hn⟩ := h.daemon_kept hD
  obtain rfl := hn.eq_of_exited (by rw [howned]; rfl)
  obtain ⟨c', hc', hcn⟩ := h.client_kept hc
  refine ⟨d, E, c', err, hE, howned, hc', ?_⟩
  cases hcn with
  | same => exact hpc
  | connect _ hpc' => rcases hpc' with hpc' | ⟨_, hpc'⟩ <;> rw [hpc] at hpc' <;> cases hpc'
  | goes _ hg =>
    cases hg with
    | _ hpc' => rw [hpc] at hpc'; cases hpc'
  | _ _ hpc' => rw [hpc] at hpc'; cases hpc'

/-- A listener is a daemon that listens. -/
theorem listener_none (hl : s.listener = none) (hsock : t.sock = s.sock)
    (hold : ∀ (e : Nat) (E : Daemon), t.daemons[e]? = some E → E.pc.listens → s.daemons[e]? = some E) :
    t.listener = none := by
  by_contra hne
  obtain ⟨e, he⟩ := Option.ne_none_iff_exists'.1 hne
  obtain ⟨hof, E, hE, hlistens⟩ := listener_eq_some.1 he
  rw [listener_eq_some.2 ⟨hsock ▸ hof, E, hold e E hE hlistens, hlistens⟩] at hl
  cases hl

private theorem listener_setDaemon (hl : s.listener = none) (d : Nat) (hD : D.pc.listens = false) :
    (s.setDaemon d D).listener = none := by
  refine listener_none hl rfl fun e E hE hlistens => ?_
  rcases getElem?_set_eq_some hE with ⟨-, rfl⟩ | ⟨-, hE⟩
  · rw [hD] at hlistens
    cases hlistens
  · exact hE

private theorem serves_of_listen (hD : s.daemons[d]? = some D) (hpc : D.pc = .listen) (hstop : D.stop = false) :
    ∃ u, Reach step StartsOnly s u ∧ u.hasServer := by
  refine ⟨{ s.setDaemon d { D with pc := .serving } with pidfile := some d }, ?_, ?_⟩
  · refine Reach.tail (a := .daemon d) (Reach.tail (a := .daemon d) .refl trivial (t := s.setDaemon d
      { D with pc := .writePid }) ?_) trivial ?_
    · simp [step, hD, daemonStep, hpc]
    · simp [step, getElem?_set_of_get hD, daemonStep, State.setDaemon]
  · refine List.any_eq_true.2 ⟨{ D with pc := .serving }, ?_, by simp [hstop]⟩
    exact List.mem_of_getElem? (getElem?_set_of_get hD _)

/-- A daemon at its `bind`, or at its second one, comes to serve if no file is at the path. -/
theorem serves_of_bind (hD : s.daemons[d]? = some D) (hpc : D.pc = .bind ∨ D.pc = .rebind) (hstop : D.stop = false)
    (hs : s.sock = none) : ∃ u, Reach step StartsOnly s u ∧ u.hasServer := by
  obtain ⟨u, hu, hserves⟩ := serves_of_listen
    (s := { s.setDaemon d { D with pc := .listen } with sock := some (.of d) }) (getElem?_set_of_get hD _) rfl hstop
  refine ⟨u, (Reach.tail (a := .daemon d) .refl trivial ?_).trans hu, hserves⟩
  rcases hpc with hpc | hpc <;> simp [step, hD, daemonStep, hpc, hs]

/-- A daemon at its `bind` comes to serve if nobody listens. -/
theorem serves_of_no_listener (hD : s.daemons[d]? = some D) (hpc : D.pc = .bind) (hstop : D.stop = false)
    (hl : s.listener = none) : ∃ u, Reach step StartsOnly s u ∧ u.hasServer := by
  cases hs : s.sock with
  | none => exact serves_of_bind hD (.inl hpc) hstop hs
  | some file =>
    have hprobe := listener_setDaemon (D := { D with pc := .probe }) hl d rfl
    obtain ⟨u, hu, hserves⟩ := serves_of_bind (s := { s.setDaemon d { D with pc := .rebind } with sock := none })
      (getElem?_set_of_get hD _) (.inr rfl) hstop rfl
    refine ⟨u, Reach.trans ?_ hu, hserves⟩
    refine .tail (a := .daemon d) (s := s.setDaemon d { D with pc := .unlinkStale }) (.tail (a := .daemon d)
      (s := s.setDaemon d { D with pc := .probe }) (.tail (a := .daemon d) .refl trivial ?_) trivial ?_) trivial ?_
    · simp [step, hD, daemonStep, hpc, hs]
    · simp only [step, setDaemon_daemons, getElem?_set_of_get hD, daemonStep, hprobe, Option.isSome_none,
        Bool.false_eq_true, ↓reduceIte]
      simp [State.setDaemon]
    · simp [step, getElem?_set_of_get hD, daemonStep, State.setDaemon]

/-- Somebody who calls when nobody listens gets a daemon that serves. -/
theorem serves_of_call (hl : s.listener = none) : ∃ u, Reach step StartsOnly s u ∧ u.hasServer := by
  have hclient : ∀ pc, ((s.clients ++ [(⟨bareRun, pc⟩ : Client)])[s.clients.length]?) = some ⟨bareRun, pc⟩ := by simp
  let called : State := { s with clients := s.clients ++ [⟨bareRun, .first⟩] }
  let spawning : State := { s with clients := s.clients ++ [⟨bareRun, .spawn⟩] }
  let child := Client.child ⟨bareRun, .spawn⟩ s.clients.length
  let booting : State := { s with
    clients := s.clients ++ [⟨bareRun, .poll s.daemons.length⟩]
    daemons := s.daemons ++ [child] }
  have hcalled : called.listener = none := listener_none hl rfl fun _ _ hE _ => hE
  have hbooting : booting.listener = none := by
    refine listener_none hl rfl fun e E hE hlistens => ?_
    rcases getElem?_push_eq_some hE with hE | ⟨-, rfl⟩
    · exact hE
    · cases hlistens
  have hchild : booting.daemons[s.daemons.length]? = some child := by simp [booting]
  obtain ⟨u, hu, hserves⟩ := serves_of_no_listener
    (s := booting.setDaemon s.daemons.length { child with loaded := bootRequires child.preload, pc := .bind })
    (getElem?_set_of_get hchild _) rfl rfl (listener_setDaemon hbooting _ rfl)
  refine ⟨u, Reach.trans ?_ hu, hserves⟩
  refine .tail (a := .daemon s.daemons.length) (s := booting) (.tail (a := .client s.clients.length false)
    (s := spawning) (.tail (a := .client s.clients.length false) (s := called) (.tail (a := .call bareRun) .refl trivial
      rfl) trivial ?_) trivial ?_) trivial ?_
  · simp only [step, called, hclient, clientStep, hcalled]
    simp [State.setClient, spawning]
  · simp [step, spawning, clientStep, State.setClient, booting, child, Client.child]
  · simp only [step, hchild, daemonStep]
    rfl

/-- Whoever listens may end, and a new client gets a daemon that serves. -/
theorem exists_serves (s : State) : ∃ u, Reach step StartsOnly s u ∧ u.hasServer := by
  cases hl : s.listener with
  | none => exact serves_of_call hl
  | some d =>
    obtain ⟨-, D, hD, hlistens⟩ := listener_eq_some.1 hl
    have hstep : step s (.die d) = some (s.kill d) := by
      simp [step, hD, DaemonPc.not_exited_of_listens hlistens]
    obtain ⟨u, hu, hserves⟩ := serves_of_call (listener_lost hstep (by simp [losesListener, hl]))
    exact ⟨u, (Reach.tail .refl trivial hstep).trans hu, hserves⟩

/-- After a step that is not orderly, a client can fail although its daemon ended because another one answered, and a
daemon serves. -/
theorem ColdInv.spurious (hi : ColdInv s) (h : step s a = some t) (hno : ¬ Orderly s a) :
    ∃ u, Reach step StartsOnly t u ∧ u.hasServer ∧ Spurious u := by
  obtain ⟨u, hu, hspurious⟩ : ∃ u, Reach step StartsOnly t u ∧ Spurious u := by
    by_cases hin : InTime s a
    · simp only [Orderly, hin, true_and, not_forall, Bool.not_eq_false] at hno
      obtain ⟨hw, hlose⟩ := hno
      exact hi.spurious_of_lost h hw hlose
    · exact hi.spurious_of_late h hin
  obtain ⟨v, hv, hserves⟩ := exists_serves u
  refine ⟨v, hu.trans hv, hserves, ?_⟩
  exact hv.invariant hspurious fun _ _ _ _ hs _ h => hs.kept (step_moves h)

/-! ### The runs -/

/-- In the orderly runs every client whose daemon ended because another one answers gets its stream; after any other
step of such a run, some run of clients and daemons has such a client return an error while a daemon serves. -/
theorem cold_start (stale : Bool) (pid : Option Nat) :
    (∀ s, Reach step Orderly (start stale pid) s → ColdStart s) ∧
      ∀ s a t, Reach step Orderly (start stale pid) s → step s a = some t → ¬ Orderly s a →
        ∃ u, Reach step StartsOnly t u ∧ u.hasServer ∧ Spurious u := by
  have inv : ∀ s, Reach step Orderly (start stale pid) s → ColdInv s := by
    intro s hr
    exact hr.invariant (coldInv_start stale pid) fun s a t _ hi ho h => hi.kept (step_moves h) ho
  constructor
  · intro s hr
    exact (inv s hr).cold
  · intro s a t hr h hno
    exact (inv s hr).spurious h hno

/-- Two clients and their daemons, up to the `probe` of the second; the first daemon answers on the path. -/
def twoColdStarts : List Act :=
  [.call bareRun, .call bareRun, .client 0 false, .client 0 false, .client 1 false, .client 1 false,
    .daemon 0, .daemon 0, .daemon 1, .daemon 1]

theorem cold_start_runs :
    (∃ s, Reach step Orderly (start false none) s ∧ s.waiting ∧ ColdStart s) ∧
      ∃ t u, ¬ Orderly t (.daemon 1) ∧ Reach step StartsOnly t u ∧ u.hasServer ∧ Spurious u := by
  constructor
  · obtain ⟨s, hs, hw⟩ : ∃ s, Reach step Orderly (start false none) s ∧ s.waiting :=
      Reach.of_any_guarded (l := twoColdStarts ++ [.daemon 0, .daemon 1]) (by decide)
    exact ⟨s, hs, hw, (cold_start false none).1 s hs⟩
  · obtain ⟨t, hr, ht⟩ : ∃ t, Reach step Orderly (start false none) t ∧
        (decide (¬ Orderly t (.daemon 1)) && (step t (.daemon 1)).isSome) :=
      Reach.of_any_guarded (l := twoColdStarts ++ [.client 1 false, .daemon 0]) (by decide)
    simp only [Bool.and_eq_true, decide_eq_true_eq, Option.isSome_iff_exists] at ht
    obtain ⟨hno, t', ht'⟩ := ht
    obtain ⟨u, hu, hserves, hs⟩ := (cold_start false none).2 t (.daemon 1) t' hr ht' hno
    exact ⟨t, u, hno, (Reach.tail .refl trivial ht').trans hu, hserves, hs⟩

/-- The second client polls before the first daemon listens, and looks at its child after that has found the path
owned; the first daemon serves. -/
theorem cold_start_fails : ∃ s, Reach step StartsOnly (start false none) s ∧
    (s.daemons[0]?).any (fun D => D.pc = .serving && !D.stop) ∧ Spurious s ∧ ¬ ColdStart s := by
  obtain ⟨s, hs, h⟩ : ∃ s, Reach step StartsOnly (start false none) s ∧
      ((s.daemons[0]?).any (fun D => D.pc = .serving && !D.stop) &&
        (s.daemons[1]?).any (fun D => D.pc = .exited .owned ∧ D.spawner = 1) &&
        (s.clients[1]?).any fun c => c.pc = .failed (.exitedEarly .owned)) :=
    Reach.of_any_guarded
      (l := twoColdStarts ++ [.client 1 false, .daemon 0, .daemon 0, .daemon 1, .client 1 false]) (by decide)
  simp only [Bool.and_eq_true, Option.any_eq_true, decide_eq_true_eq] at h
  obtain ⟨⟨⟨D, hD, hserves⟩, E, hE, howned, hsp⟩, c, hc, hpc⟩ := h
  have hc : s.clients[E.spawner]? = some c := by rw [hsp]; exact hc
  refine ⟨s, hs, by simp [hD, hserves], ⟨1, E, c, _, hE, howned, hc, hpc⟩, fun hcold => ?_⟩
  obtain ⟨c', hc', hserved⟩ := hcold 1 E hE howned
  rw [hc] at hc'
  cases hc'
  simp [Client.Served, hpc, ClientPc.isConnected] at hserved

end Calisto.Runtime

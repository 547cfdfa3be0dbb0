import Calisto.Lib.Entries
import Calisto.Runtime.Boot

/-!
# What a step can do

`Moves s a t` lists the steps by what they write: the program counter of one process only, the socket path, the
pidfile, the list of the daemons.  From it, what one step does to the socket path (`Moves.sock`), to the pidfile
(`Moves.pidfile`), to one daemon (`Moves.daemon`) and to one client (`Moves.client_next`).
-/

namespace Calisto.Runtime

open Machine

variable {s t : State} {a : Act}

/-! ### The state after a write -/

@[simp] theorem setDaemon_sock (d : Nat) (D : Daemon) : (s.setDaemon d D).sock = s.sock := rfl
@[simp] theorem setDaemon_clients (d : Nat) (D : Daemon) : (s.setDaemon d D).clients = s.clients := rfl
@[simp] theorem setDaemon_daemons (d : Nat) (D : Daemon) : (s.setDaemon d D).daemons = s.daemons.set d D := rfl
@[simp] theorem setDaemon_stoppers (d : Nat) (D : Daemon) : (s.setDaemon d D).stoppers = s.stoppers := rfl

@[simp] theorem setClient_sock (i : Nat) (c : Client) : (s.setClient i c).sock = s.sock := rfl
@[simp] theorem setClient_pidfile (i : Nat) (c : Client) : (s.setClient i c).pidfile = s.pidfile := rfl
@[simp] theorem setClient_clients (i : Nat) (c : Client) : (s.setClient i c).clients = s.clients.set i c := rfl
@[simp] theorem setClient_daemons (i : Nat) (c : Client) : (s.setClient i c).daemons = s.daemons := rfl
@[simp] theorem setClient_stoppers (i : Nat) (c : Client) : (s.setClient i c).stoppers = s.stoppers := rfl

@[simp] theorem setStopper_clients (k : Nat) (pc : StopPc) : (s.setStopper k pc).clients = s.clients := rfl
@[simp] theorem setStopper_daemons (k : Nat) (pc : StopPc) : (s.setStopper k pc).daemons = s.daemons := rfl
@[simp] theorem setStopper_stoppers (k : Nat) (pc : StopPc) : (s.setStopper k pc).stoppers = s.stoppers.set k pc := rfl

/-- `kill` writes one entry of the daemons at most. -/
theorem kill_eq (d : Nat) : ∃ l, s.kill d = { s with daemons := l } ∧ l.length = s.daemons.length := by
  unfold State.kill
  split
  · split
    · exact ⟨s.daemons, rfl, rfl⟩
    · exact ⟨_, rfl, List.length_set⟩
  · exact ⟨s.daemons, rfl, rfl⟩

@[simp] theorem kill_sock (d : Nat) : (s.kill d).sock = s.sock := by
  obtain ⟨l, h, -⟩ := kill_eq (s := s) d
  rw [h]

@[simp] theorem kill_pidfile (d : Nat) : (s.kill d).pidfile = s.pidfile := by
  obtain ⟨l, h, -⟩ := kill_eq (s := s) d
  rw [h]

@[simp] theorem kill_clients (d : Nat) : (s.kill d).clients = s.clients := by
  obtain ⟨l, h, -⟩ := kill_eq (s := s) d
  rw [h]

@[simp] theorem kill_stoppers (d : Nat) : (s.kill d).stoppers = s.stoppers := by
  obtain ⟨l, h, -⟩ := kill_eq (s := s) d
  rw [h]

@[simp] theorem kill_length (d : Nat) : (s.kill d).daemons.length = s.daemons.length := by
  obtain ⟨l, h, hl⟩ := kill_eq (s := s) d
  rw [h, hl]

/-- Writing one daemon leaves the others, such as one at another call. -/
theorem setDaemon_of_pc_ne {d x : Nat} {D X : Daemon} (hX : s.daemons[x]? = some X) (hD : s.daemons[d]? = some D)
    (hne : X.pc ≠ D.pc) (X' : Daemon) : (s.setDaemon x X').daemons[d]? = some D := by
  have hxd : x ≠ d := by
    rintro rfl
    rw [hX] at hD
    cases hD
    exact hne rfl
  rw [setDaemon_daemons, List.getElem?_set_ne hxd, hD]

/-! ### The moves -/

/-- The calls of a daemon that write no file. -/
inductive Daemon.Goes (s : State) (D : Daemon) : DaemonPc → Prop
  | probe : D.pc = .bind → s.sock.isSome → D.Goes s .probe
  | owned : D.pc = .probe → s.listener.isSome → D.Goes s (.exited .owned)
  | stale : D.pc = .probe → s.listener = none → D.Goes s .unlinkStale
  | bindFailed : D.pc = .rebind → s.sock.isSome → D.Goes s (.exited .bindFailed)
  | listening : D.pc = .listen → D.Goes s .writePid
  | stopping : D.pc = .serving → D.stop → D.Goes s .unlinkSock
  | stopped : D.pc = .cleanup → D.Goes s (.exited .stopped)

/-- The calls of a client that write no file, find no listener and leave its daemon alone. -/
inductive Client.Goes (s : State) (c : Client) (late : Bool) : ClientPc → Prop
  | spawn : c.pc = .first → s.listener = none → c.Goes s late .spawn
  | tryWait {d : Nat} : c.pc = .poll d → s.listener = none → c.Goes s late (.tryWait d)
  | exited {d : Nat} {D : Daemon} {how : Exit} : c.pc = .tryWait d → s.daemons[d]? = some D → D.pc = .exited how →
      c.Goes s late (.failed (.exitedEarly how))
  | running {d : Nat} {D : Daemon} : c.pc = .tryWait d → s.daemons[d]? = some D → D.pc.isExited = false →
      c.Goes s late (.clock d)
  | again {d : Nat} : c.pc = .clock d → late = false → c.Goes s late (.poll d)

/-- The daemon that client `i` starts. -/
def Client.child (c : Client) (i : Nat) : Daemon :=
  { pc := .boot, spawner := i, preload := c.inv.preload, loaded := [], stop := false }

inductive Moves (s : State) : Act → State → Prop
  | call (inv : Invocation) : Moves s (.call inv) { s with clients := s.clients ++ [{ inv := inv, pc := .first }] }
  | stop : Moves s .stop { s with stoppers := s.stoppers ++ [.connect 0] }
  | boot {d : Nat} {D : Daemon} : s.daemons[d]? = some D → D.pc = .boot →
      Moves s (.daemon d) (s.setDaemon d { D with loaded := bootRequires D.preload, pc := .bind })
  | goes {d : Nat} {D : Daemon} {pc : DaemonPc} : s.daemons[d]? = some D → D.Goes s pc →
      Moves s (.daemon d) (s.setDaemon d { D with pc := pc })
  | bind {d : Nat} {D : Daemon} : s.daemons[d]? = some D → D.pc = .bind ∨ D.pc = .rebind → s.sock = none →
      Moves s (.daemon d) { s.setDaemon d { D with pc := .listen } with sock := some (.of d) }
  | unlinkStale {d : Nat} {D : Daemon} : s.daemons[d]? = some D → D.pc = .unlinkStale →
      Moves s (.daemon d) { s.setDaemon d { D with pc := .rebind } with sock := none }
  | writePid {d : Nat} {D : Daemon} : s.daemons[d]? = some D → D.pc = .writePid →
      Moves s (.daemon d) { s.setDaemon d { D with pc := .serving } with pidfile := some d }
  | unlinkSock {d : Nat} {D : Daemon} : s.daemons[d]? = some D → D.pc = .unlinkSock →
      Moves s (.daemon d) { s.setDaemon d { D with pc := .unlinkPid } with sock := none }
  | unlinkPid {d : Nat} {D : Daemon} : s.daemons[d]? = some D → D.pc = .unlinkPid →
      Moves s (.daemon d) { s.setDaemon d { D with pc := .cleanup } with pidfile := none }
  | connect {i e : Nat} {c : Client} {late : Bool} : s.clients[i]? = some c → c.pc = .first ∨ (∃ d, c.pc = .poll d) →
      s.listener = some e → Moves s (.client i late) (s.setClient i { c with pc := .connected e })
  | client {i : Nat} {c : Client} {late : Bool} {pc : ClientPc} : s.clients[i]? = some c →
      c.Goes s late pc → Moves s (.client i late) (s.setClient i { c with pc := pc })
  | refuse {i : Nat} {c : Client} : s.clients[i]? = some c → c.pc = .spawn →
      Moves s (.refuse i) (s.setClient i { c with pc := .failed .cannotStart })
  | spawn {i : Nat} {c : Client} {late : Bool} : s.clients[i]? = some c → c.pc = .spawn →
      Moves s (.client i late)
        { s.setClient i { c with pc := .poll s.daemons.length } with daemons := s.daemons ++ [c.child i] }
  | expire {i d : Nat} {c : Client} : s.clients[i]? = some c → c.pc = .clock d →
      Moves s (.client i true) ((s.kill d).setClient i { c with pc := .failed .timedOut })
  | sleep {k : Nat} {late : Bool} : Moves s (.stopper k late) s
  | stopper {k : Nat} {pc : StopPc} {late : Bool} : Moves s (.stopper k late) (s.setStopper k pc)
  | ask {k n d : Nat} {D : Daemon} {late : Bool} : s.stoppers[k]? = some (.send n d) → s.daemons[d]? = some D →
      D.pc.isExited = false →
      Moves s (.stopper k late) ((s.setDaemon d { D with stop := true }).setStopper k (.readLine n d))
  | stopSock {k : Nat} {late : Bool} : s.stoppers[k]? = some .unlinkSock →
      Moves s (.stopper k late) { s.setStopper k .unlinkPid with sock := none }
  | stopPid {k : Nat} {late : Bool} : s.stoppers[k]? = some .unlinkPid →
      Moves s (.stopper k late) { s.setStopper k .done with pidfile := none }
  | term {d : Nat} {D : Daemon} : s.daemons[d]? = some D → D.pc = .serving →
      Moves s (.term d) (s.setDaemon d { D with stop := true })
  | die {d : Nat} {D : Daemon} : s.daemons[d]? = some D → D.pc.isExited = false →
      Moves s (.die d) (s.setDaemon d { D with pc := .exited .died })

theorem kill_of_not_exited {d : Nat} {D : Daemon} (h : s.daemons[d]? = some D) (hD : D.pc.isExited = false) :
    s.kill d = s.setDaemon d { D with pc := .exited .died } := by
  simp [State.kill, h, hD]

private theorem daemonStep_moves {d : Nat} {D : Daemon} (hD : s.daemons[d]? = some D) (h : daemonStep s d D = some t) :
    Moves s (.daemon d) t := by
  unfold daemonStep at h
  split at h
  case h_1 hpc => cases h; exact .boot hD hpc
  case h_2 hpc =>
    split at h
    · rename_i hs; cases h; exact .goes hD (.probe hpc hs)
    · rename_i hs; cases h; exact .bind hD (.inl hpc) (by simpa using hs)
  case h_3 hpc =>
    split at h
    · rename_i hs; cases h; exact .goes hD (.owned hpc hs)
    · rename_i hs; cases h; exact .goes hD (.stale hpc (by simpa using hs))
  case h_4 hpc => cases h; exact .unlinkStale hD hpc
  case h_5 hpc =>
    split at h
    · rename_i hs; cases h; exact .goes hD (.bindFailed hpc hs)
    · rename_i hs; cases h; exact .bind hD (.inr hpc) (by simpa using hs)
  case h_6 hpc => cases h; exact .goes hD (.listening hpc)
  case h_7 hpc => cases h; exact .writePid hD hpc
  case h_8 hpc =>
    split at h
    · rename_i hs; cases h; exact .goes hD (.stopping hpc hs)
    · simp at h
  case h_9 hpc => cases h; exact .unlinkSock hD hpc
  case h_10 hpc => cases h; exact .unlinkPid hD hpc
  case h_11 hpc => cases h; exact .goes hD (.stopped hpc)
  case h_12 => cases h

private theorem clientStep_moves {i : Nat} {c : Client} {late : Bool} (hc : s.clients[i]? = some c)
    (h : clientStep s i c late = some t) : Moves s (.client i late) t := by
  unfold clientStep at h
  split at h
  case h_1 hpc =>
    split at h
    · rename_i e he; cases h; exact .connect hc (.inl hpc) he
    · rename_i he; cases h; exact .client hc (.spawn hpc he)
  case h_2 hpc => cases h; exact .spawn hc hpc
  case h_3 d hpc =>
    split at h
    · rename_i e he; cases h; exact .connect hc (.inr ⟨d, hpc⟩) he
    · rename_i he; cases h; exact .client hc (.tryWait hpc he)
  case h_4 d hpc =>
    split at h
    · rename_i D hD
      split at h
      · rename_i how hhow; cases h; exact .client hc (.exited hpc hD hhow)
      · rename_i hrun
        cases h
        refine .client hc (.running hpc hD ?_)
        cases hp : D.pc with
        | exited how => exact absurd hp (hrun how)
        | _ => rfl
    · simp at h
  case h_5 d hpc =>
    split at h
    · rename_i hl; cases h; rw [hl]; exact .expire hc hpc
    · rename_i hl; cases h; exact .client hc (.again hpc (by simpa using hl))
  case h_6 => cases h
  case h_7 => cases h

private theorem stopperStep_moves {k : Nat} {pc : StopPc} {late : Bool} (hk : s.stoppers[k]? = some pc)
    (h : stopperStep s k pc late = some t) : Moves s (.stopper k late) t := by
  unfold stopperStep at h
  split at h
  case h_1 => split at h <;> cases h <;> exact .stopper
  case h_2 n d =>
    split at h
    · rename_i D hD
      split at h
      · cases h; exact .stopper
      · rename_i hex; cases h; exact .ask hk hD (by simpa using hex)
    · simp at h
  case h_3 n d =>
    split at h
    · split at h
      · simp at h
      · cases h; exact .stopper
    · simp at h
  case h_4 n =>
    split at h
    · cases h; exact .sleep
    · cases h; exact .stopper
  case h_5 n =>
    split at h
    · cases h; exact .stopper
    · split at h <;> cases h <;> exact .stopper
  case h_6 => cases h; exact .stopSock hk
  case h_7 => cases h; exact .stopPid hk
  case h_8 => cases h

theorem step_moves (h : step s a = some t) : Moves s a t := by
  unfold step at h
  split at h
  case h_1 inv => cases h; exact .call inv
  case h_2 => cases h; exact .stop
  case h_3 i late =>
    split at h
    · rename_i c hc; exact clientStep_moves hc h
    · simp at h
  case h_4 i =>
    split at h
    · rename_i c hc
      split at h
      · rename_i hpc; cases h; exact .refuse hc hpc
      · simp at h
    · simp at h
  case h_5 k late =>
    split at h
    · rename_i pc hk; exact stopperStep_moves hk h
    · simp at h
  case h_6 d =>
    split at h
    · rename_i D hD; exact daemonStep_moves hD h
    · simp at h
  case h_7 d =>
    split at h
    · rename_i D hD
      split at h
      · rename_i hpc; cases h; exact .term hD hpc
      · simp at h
    · simp at h
  case h_8 d =>
    split at h
    · rename_i D hD
      split at h
      · simp at h
      · rename_i hex
        have hex : D.pc.isExited = false := by simpa using hex
        rw [kill_of_not_exited hD hex] at h
        cases h
        exact .die hD hex
    · simp at h

/-! ### One file, one process -/

/-- The step removes the file at the socket path. -/
def removesSock (s : State) : Act → Bool
  | .daemon d => (s.daemons[d]?).any fun D => D.pc = .unlinkStale ∨ D.pc = .unlinkSock
  | .stopper k _ => s.stoppers[k]? = some .unlinkSock
  | _ => false

/-- The step removes the pidfile. -/
def removesPid (s : State) : Act → Bool
  | .daemon d => (s.daemons[d]?).any fun D => D.pc = .unlinkPid
  | .stopper k _ => s.stoppers[k]? = some .unlinkPid
  | _ => false

theorem Moves.sock (h : Moves s a t) :
    t.sock = s.sock ∨ t.sock = none ∧ removesSock s a ∨ s.sock = none ∧ ∃ d, a = .daemon d ∧ t.sock = some (.of d) := by
  cases h with
  | bind hD hpc hs => exact .inr (.inr ⟨hs, _, rfl, rfl⟩)
  | unlinkStale hD hpc => exact .inr (.inl ⟨rfl, by simp [removesSock, hD, hpc]⟩)
  | unlinkSock hD hpc => exact .inr (.inl ⟨rfl, by simp [removesSock, hD, hpc]⟩)
  | stopSock hk => exact .inr (.inl ⟨rfl, by simp [removesSock, hk]⟩)
  | expire => left; simp
  | _ => exact .inl rfl

theorem Moves.pidfile (h : Moves s a t) :
    t.pidfile = s.pidfile ∨ t.pidfile = none ∧ removesPid s a ∨
      ∃ d D, a = .daemon d ∧ s.daemons[d]? = some D ∧ D.pc = .writePid ∧ t.pidfile = some d := by
  cases h with
  | writePid hD hpc => exact .inr (.inr ⟨_, _, rfl, hD, hpc, rfl⟩)
  | unlinkPid hD hpc => exact .inr (.inl ⟨rfl, by simp [removesPid, hD, hpc]⟩)
  | stopPid hk => exact .inr (.inl ⟨rfl, by simp [removesPid, hk]⟩)
  | expire => left; simp
  | _ => exact .inl rfl

/-- What becomes of daemon `d`. -/
inductive Daemon.Next (s : State) (a : Act) (t : State) (d : Nat) (D : Daemon) : Daemon → Prop
  | same : D.Next s a t d D
  | asked : D.pc.isExited = false → a = .term d ∨ s.stoppers ≠ [] → D.Next s a t d { D with stop := true }
  | died : D.pc.isExited = false → a = .die d ∨ (∃ i c, a = .client i true ∧ s.clients[i]? = some c ∧ c.pc = .clock d) →
      D.Next s a t d { D with pc := .exited .died }
  | boot : a = .daemon d → D.pc = .boot → D.Next s a t d { D with loaded := bootRequires D.preload, pc := .bind }
  | goes {pc : DaemonPc} : a = .daemon d → D.Goes s pc → D.Next s a t d { D with pc := pc }
  | bind : a = .daemon d → D.pc = .bind ∨ D.pc = .rebind → s.sock = none → t.sock = some (.of d) →
      D.Next s a t d { D with pc := .listen }
  | unlinkStale : a = .daemon d → D.pc = .unlinkStale → D.Next s a t d { D with pc := .rebind }
  | writePid : a = .daemon d → D.pc = .writePid → t.pidfile = some d →
      D.Next s a t d { D with pc := .serving }
  | unlinkSock : a = .daemon d → D.pc = .unlinkSock → D.Next s a t d { D with pc := .unlinkPid }
  | unlinkPid : a = .daemon d → D.pc = .unlinkPid → D.Next s a t d { D with pc := .cleanup }

/-- A step that writes one daemon. -/
private theorem daemon_of_set {d e : Nat} {D D' E : Daemon} (hD : s.daemons[d]? = some D)
    (hE : (s.daemons.set d D')[e]? = some E) (hn : D.Next s a t d D') :
    ∃ D, s.daemons[e]? = some D ∧ D.Next s a t e E := by
  rcases getElem?_set_eq_some hE with ⟨rfl, rfl⟩ | ⟨_, hE⟩
  · exact ⟨D, hD, hn⟩
  · exact ⟨E, hE, .same⟩

/-- Every daemon was there before the step, or a client has just started it. -/
theorem Moves.daemon (h : Moves s a t) {e : Nat} {E : Daemon} (hE : t.daemons[e]? = some E) :
    (∃ D, s.daemons[e]? = some D ∧ D.Next s a t e E) ∨
      ∃ i late c, a = .client i late ∧ s.clients[i]? = some c ∧ c.pc = .spawn ∧ e = s.daemons.length ∧ E = c.child i ∧
        t.clients = s.clients.set i { c with pc := .poll e } := by
  cases h with
  | boot hD hpc => exact .inl (daemon_of_set hD hE (.boot rfl hpc))
  | goes hD hg => exact .inl (daemon_of_set hD hE (.goes rfl hg))
  | bind hD hpc hs => exact .inl (daemon_of_set hD hE (.bind rfl hpc hs rfl))
  | unlinkStale hD hpc => exact .inl (daemon_of_set hD hE (.unlinkStale rfl hpc))
  | writePid hD hpc => exact .inl (daemon_of_set hD hE (.writePid rfl hpc rfl))
  | unlinkSock hD hpc => exact .inl (daemon_of_set hD hE (.unlinkSock rfl hpc))
  | unlinkPid hD hpc => exact .inl (daemon_of_set hD hE (.unlinkPid rfl hpc))
  | ask hk hD hex =>
    refine .inl (daemon_of_set hD hE (.asked hex (.inr ?_)))
    intro hnil
    rw [hnil] at hk
    cases hk
  | term hD hpc => exact .inl (daemon_of_set hD hE (.asked (by rw [hpc]; rfl) (.inl rfl)))
  | die hD hex => exact .inl (daemon_of_set hD hE (.died hex (.inl rfl)))
  | @expire i d c hc hpc =>
    refine .inl ?_
    rw [setClient_daemons] at hE
    unfold State.kill at hE
    split at hE
    · rename_i D hD
      split at hE
      · exact ⟨E, hE, .same⟩
      · rename_i hex
        exact daemon_of_set hD hE (.died (by simpa using hex) (.inr ⟨i, c, rfl, hc, hpc⟩))
    · exact ⟨E, hE, .same⟩
  | @spawn i c late hc hpc =>
    rcases getElem?_push_eq_some hE with hE | ⟨rfl, rfl⟩
    · exact .inl ⟨E, hE, .same⟩
    · exact .inr ⟨i, late, c, rfl, hc, hpc, rfl, rfl, rfl⟩
  | _ => exact .inl ⟨E, hE, .same⟩

/-- What becomes of client `i`. -/
inductive Client.Next (s : State) (a : Act) (t : State) (i : Nat) (c : Client) : Client → Prop
  | same : c.Next s a t i c
  | connect {late : Bool} {e : Nat} : a = .client i late → c.pc = .first ∨ (∃ d, c.pc = .poll d) →
      s.listener = some e → c.Next s a t i { c with pc := .connected e }
  | goes {late : Bool} {pc : ClientPc} : a = .client i late → c.Goes s late pc → c.Next s a t i { c with pc := pc }
  | refuse : a = .refuse i → c.pc = .spawn → c.Next s a t i { c with pc := .failed .cannotStart }
  | spawn {late : Bool} : a = .client i late → c.pc = .spawn → t.daemons = s.daemons ++ [c.child i] →
      c.Next s a t i { c with pc := .poll s.daemons.length }
  | expire {d : Nat} : a = .client i true → c.pc = .clock d → c.Next s a t i { c with pc := .failed .timedOut }

private theorem client_of_set {i j : Nat} {c c' x : Client} (hc : s.clients[i]? = some c)
    (hx : (s.clients.set i c')[j]? = some x) (hn : c.Next s a t i c') :
    ∃ c, s.clients[j]? = some c ∧ c.Next s a t j x := by
  rcases getElem?_set_eq_some hx with ⟨rfl, rfl⟩ | ⟨_, hx⟩
  · exact ⟨c, hc, hn⟩
  · exact ⟨x, hx, .same⟩

/-- Every client was there before the step, or it has just been called. -/
theorem Moves.client_next (h : Moves s a t) {j : Nat} {x : Client} (hx : t.clients[j]? = some x) :
    (∃ c, s.clients[j]? = some c ∧ c.Next s a t j x) ∨
      ∃ inv, a = .call inv ∧ j = s.clients.length ∧ x = { inv := inv, pc := .first } := by
  cases h with
  | call inv =>
    rcases getElem?_push_eq_some hx with hx | ⟨rfl, rfl⟩
    · exact .inl ⟨x, hx, .same⟩
    · exact .inr ⟨inv, rfl, rfl, rfl⟩
  | connect hc hpc he => exact .inl (client_of_set hc hx (.connect rfl hpc he))
  | client hc hg => exact .inl (client_of_set hc hx (.goes rfl hg))
  | refuse hc hpc => exact .inl (client_of_set hc hx (.refuse rfl hpc))
  | spawn hc hpc => exact .inl (client_of_set hc hx (.spawn rfl hpc rfl))
  | expire hc hpc =>
    rw [setClient_clients, kill_clients] at hx
    exact .inl (client_of_set hc hx (.expire rfl hpc))
  | _ => exact .inl ⟨x, hx, .same⟩

private theorem Moves.clients_length (h : Moves s a t) : s.clients.length ≤ t.clients.length := by
  cases h with
  | _ => simp

private theorem Moves.daemons_length (h : Moves s a t) : s.daemons.length ≤ t.daemons.length := by
  cases h with
  | _ => simp

/-- No client is lost. -/
theorem Moves.client_kept (h : Moves s a t) {i : Nat} {c : Client} (hc : s.clients[i]? = some c) :
    ∃ c', t.clients[i]? = some c' ∧ c.Next s a t i c' := by
  have hi : i < s.clients.length := (List.getElem?_eq_some_iff.1 hc).1
  obtain ⟨c', hx⟩ : ∃ c', t.clients[i]? = some c' :=
    ⟨_, List.getElem?_eq_getElem (Nat.lt_of_lt_of_le hi h.clients_length)⟩
  rcases h.client_next hx with ⟨c0, hc0, hn⟩ | ⟨inv, -, hlast, -⟩
  · rw [hc] at hc0
    cases hc0
    exact ⟨_, hx, hn⟩
  · omega

/-- No daemon is forgotten. -/
theorem Moves.daemon_kept (h : Moves s a t) {d : Nat} {D : Daemon} (hD : s.daemons[d]? = some D) :
    ∃ E, t.daemons[d]? = some E ∧ D.Next s a t d E := by
  have hd : d < s.daemons.length := (List.getElem?_eq_some_iff.1 hD).1
  obtain ⟨E, hE⟩ : ∃ E, t.daemons[d]? = some E :=
    ⟨_, List.getElem?_eq_getElem (Nat.lt_of_lt_of_le hd h.daemons_length)⟩
  rcases h.daemon hE with ⟨D0, hD0, hn⟩ | ⟨i, late, c, -, -, -, hlast, -⟩
  · rw [hD] at hD0
    cases hD0
    exact ⟨_, hE, hn⟩
  · omega

/-! ### What a step leaves -/

theorem listener_eq_some {e : Nat} :
    s.listener = some e ↔ s.sock = some (.of e) ∧ ∃ E, s.daemons[e]? = some E ∧ E.pc.listens := by
  unfold State.listener
  constructor
  · intro h
    split at h
    · rename_i d hs
      split at h
      · rename_i D hD
        split at h
        · rename_i hl
          cases h
          exact ⟨hs, D, hD, hl⟩
        · simp at h
      · simp at h
    · simp at h
  · rintro ⟨hs, E, hE, hl⟩
    simp [hs, hE, hl]

theorem DaemonPc.not_exited_of_listens {pc : DaemonPc} (h : pc.listens) : pc.isExited = false := by
  cases pc <;> first | rfl | cases h

theorem Daemon.Next.spawner {d : Nat} {D E : Daemon} (h : D.Next s a t d E) : E.spawner = D.spawner := by
  cases h <;> rfl

theorem Daemon.Next.preload {d : Nat} {D E : Daemon} (h : D.Next s a t d E) : E.preload = D.preload := by
  cases h <;> rfl

theorem Client.Next.inv {i : Nat} {c c' : Client} (h : c.Next s a t i c') : c'.inv = c.inv := by
  cases h <;> rfl

/-- A process that is gone stays gone. -/
theorem Daemon.Next.eq_of_exited {d : Nat} {D E : Daemon} (h : D.Next s a t d E) (hD : D.pc.isExited) : E = D := by
  cases h with
  | same => rfl
  | asked hex => rw [hD] at hex; cases hex
  | died hex => rw [hD] at hex; cases hex
  | goes _ hg =>
    cases hg with
    | _ hpc => rw [hpc] at hD; cases hD
  | bind _ hpc => rcases hpc with hpc | hpc <;> rw [hpc] at hD <;> cases hD
  | _ _ hpc => rw [hpc] at hD; cases hD

end Calisto.Runtime

import Calisto.Runtime.Moves

/-!
# Which preload a request is served with

The preload string of an invocation takes effect only if it is this invocation that starts the daemon; the socket path
does not depend on it, so any later client is served by a fork of that daemon.  A client agrees with the daemon it
reaches exactly when it computes the same string as the client that started it (`preload_agreement`).
-/

namespace Calisto.Runtime

open Machine

variable {s t : State} {a : Act} {d e i : Nat} {c : Client} {D E : Daemon}

/-- Every request is served by a fork of a daemon that was booted with the preload string of its client. -/
def Agreement (s : State) : Prop :=
  ∀ (i : Nat) (c : Client) (e : Nat), s.clients[i]? = some c → c.pc = .connected e →
    ∃ D : Daemon, s.daemons[e]? = some D ∧ D.preload = c.inv.preload ∧ D.loaded = bootRequires c.inv.preload

/-- It runs in or below a directory with a Gemfile, and leaves the preload to `run_preload`. -/
def Invocation.Bundled (inv : Invocation) : Prop :=
  inv.preloadOpt = none ∧ ∃ cwd dir, inv.currentDir = some cwd ∧ dir <:+ cwd ∧
    (inv.isFile ("Gemfile".toList :: dir) ∨ inv.isFile ("gems.rb".toList :: dir))

/-- No request from a directory with a Gemfile is served by a fork of a daemon that has preloaded gems. -/
def NothingPreloaded (s : State) : Prop :=
  ∀ (i : Nat) (c : Client) (e : Nat), s.clients[i]? = some c → c.pc = .connected e → c.inv.Bundled →
    ∃ D : Daemon, s.daemons[e]? = some D ∧ D.loaded = []

def ClientPc.connects : ClientPc → Bool
  | .first | .poll _ => true
  | _ => false

/-- Whoever connects computes the same preload string as the client that started the daemon it reaches. -/
def SamePreload (s : State) : Act → Prop
  | .client i _ => ∀ c ∈ s.clients[i]?, c.pc.connects → ∀ e ∈ s.listener, ∀ D ∈ s.daemons[e]?,
      ∀ c' ∈ s.clients[D.spawner]?, c'.inv.preload = c.inv.preload
  | _ => True

/-- The runs whose invocations are taken from `P`. -/
def Calls (P : Invocation → Prop) (_ : State) (a : Act) : Prop := ∀ inv, a = .call inv → P inv

/-! ### The boot of a daemon -/

/-- A daemon has the preload string of its spawner, and has required what it names before it binds. -/
def Booted (s : State) : Prop :=
  ∀ (d : Nat) (D : Daemon), s.daemons[d]? = some D →
    (D.pc.isExited ∨ D.pc = .boot ∨ D.loaded = bootRequires D.preload) ∧
      ∃ c : Client, s.clients[D.spawner]? = some c ∧ D.preload = c.inv.preload

theorem Daemon.Next.loaded (h : D.Next s a t d E) (hD : D.loaded = bootRequires D.preload) :
    E.loaded = bootRequires E.preload := by
  cases h <;> first | rfl | exact hD

theorem Booted.kept (hb : Booted s) (h : Moves s a t) : Booted t := by
  intro d E hE
  rcases h.daemon hE with ⟨D, hD, hn⟩ | ⟨i, late, c, -, hc, -, -, rfl, ht⟩
  · obtain ⟨hload, c, hc, hp⟩ := hb d D hD
    obtain ⟨c', hc', hcn⟩ := h.client_kept hc
    constructor
    · rcases hload with hex | hboot | hload
      · rw [hn.eq_of_exited hex]
        exact .inl hex
      · cases hn with
        | same => exact .inr (.inl hboot)
        | asked => exact .inr (.inl hboot)
        | died => exact .inl rfl
        | boot => exact .inr (.inr rfl)
        | goes _ hg =>
          cases hg with
          | _ hpc => rw [hboot] at hpc; cases hpc
        | bind _ hpc => rcases hpc with hpc | hpc <;> rw [hboot] at hpc <;> cases hpc
        | _ _ hpc => rw [hboot] at hpc; cases hpc
      · exact .inr (.inr (hn.loaded hload))
    · exact ⟨c', by rw [hn.spawner]; exact hc', by rw [hn.preload, hp, hcn.inv]⟩
  · refine ⟨.inr (.inl rfl), { c with pc := .poll d }, ?_, rfl⟩
    show t.clients[i]? = _
    rw [ht]
    exact getElem?_set_of_get hc _

private theorem booted_start (stale : Bool) (pid : Option Nat) : Booted (start stale pid) := by
  intro d D hD
  simp [start] at hD

/-- Who answers a `connect` has required its preload. -/
theorem Booted.listener (hb : Booted s) (he : s.listener = some e) : ∃ D c, s.daemons[e]? = some D ∧
    s.clients[D.spawner]? = some c ∧ D.preload = c.inv.preload ∧ D.loaded = bootRequires D.preload := by
  obtain ⟨-, D, hD, hl⟩ := listener_eq_some.1 he
  obtain ⟨hload, c, hc, hp⟩ := hb e D hD
  refine ⟨D, c, hD, hc, hp, ?_⟩
  rcases hload with hex | hboot | hload
  · rw [DaemonPc.not_exited_of_listens hl] at hex; cases hex
  · rw [hboot] at hl; cases hl
  · exact hload

/-! ### One step -/

theorem Agreement.kept (ha : Agreement s) (hb : Booted s) (h : Moves s a t) (hg : SamePreload s a) : Agreement t := by
  intro i c' e hc' hpc
  -- the daemon that the client is connected to keeps what it was booted with
  have after : ∀ {D : Daemon} {c : Client}, s.daemons[e]? = some D → D.preload = c.inv.preload →
      D.loaded = bootRequires c.inv.preload → c'.inv = c.inv →
      ∃ E : Daemon, t.daemons[e]? = some E ∧ E.preload = c'.inv.preload ∧ E.loaded = bootRequires c'.inv.preload := by
    intro D c hD hp hload hinv
    obtain ⟨E, hE, hn⟩ := h.daemon_kept hD
    have hp' : E.preload = c'.inv.preload := by rw [hn.preload, hp, hinv]
    exact ⟨E, hE, hp', by rw [← hp']; exact hn.loaded (by rw [hload, hp])⟩
  rcases h.client_next hc' with ⟨c, hc, hn⟩ | ⟨inv, -, -, rfl⟩
  · cases hn with
    | same =>
      obtain ⟨D, hD, hp, hload⟩ := ha i c' e hc hpc
      exact after hD hp hload rfl
    | @connect late e' hact hwas he =>
      cases hpc
      subst hact
      obtain ⟨D, c0, hD, hc0, hp, hload⟩ := hb.listener he
      have hconn : c.pc.connects := by rcases hwas with hw | ⟨_, hw⟩ <;> rw [hw] <;> rfl
      have hsame : c0.inv.preload = c.inv.preload := hg c hc hconn e he D hD c0 hc0
      exact after (c := c) hD (by rw [hp, hsame]) (by rw [hload, hp, hsame]) rfl
    | goes _ hgo => cases hpc; cases hgo
    | refuse => cases hpc
    | spawn => cases hpc
    | expire => cases hpc
  · simp at hpc

/-- A client that connects with another preload string is served with the wrong one. -/
theorem not_agreement (hb : Booted s) (h : step s a = some t) (hno : ¬ SamePreload s a) : ¬ Agreement t := by
  cases a with
  | client i late =>
    simp only [SamePreload, Option.mem_def, not_forall] at hno
    obtain ⟨c, hc, hconn, e, he, D, hD, c0, hc0, hne⟩ := hno
    have ht : t = s.setClient i { c with pc := .connected e } := by
      have hpc : c.pc = .first ∨ ∃ d, c.pc = .poll d := by
        cases hp : c.pc <;> simp [hp, ClientPc.connects] at hconn ⊢
      rcases hpc with hpc | ⟨_, hpc⟩ <;> simp only [step, hc, clientStep, hpc, he, Option.some.injEq] at h <;>
        exact h.symm
    subst ht
    intro ha
    obtain ⟨D', hD', hp, -⟩ := ha i _ e (getElem?_set_of_get hc _) rfl
    obtain ⟨-, c1, hc1, hp1⟩ := hb e D hD
    rw [setClient_daemons, hD] at hD'
    cases hD'
    rw [hc0] at hc1
    cases hc1
    exact hne (hp1.symm.trans hp)
  | _ => exact absurd trivial hno

private theorem Agreement.nothingPreloaded (ha : Agreement s) : NothingPreloaded s := by
  rintro i c e hc hpc ⟨hopt, cwd, dir, hcwd, hdir, hfile⟩
  obtain ⟨D, hD, -, hload⟩ := ha i c e hc hpc
  refine ⟨D, hD, ?_⟩
  rw [hload, preload_of_gemfile hopt hcwd hdir hfile, bootRequires_nil]

/-! ### The runs -/

private theorem booted_of_reach {G : State → Act → Prop} {stale : Bool} {pid : Option Nat}
    (hr : Reach step G (start stale pid) s) : Booted s :=
  hr.invariant (booted_start stale pid) fun _ _ _ _ hb _ h => hb.kept (step_moves h)

private theorem agreement_of_reach {stale : Bool} {pid : Option Nat} (hr : Reach step SamePreload (start stale pid) s) :
    Agreement s := by
  refine hr.invariant ?_ fun s a t hr ha hg h => ha.kept (booted_of_reach hr) (step_moves h) hg
  intro i c e hc
  simp [start] at hc

/-- If all invocations compute the same string, whoever connects does. -/
theorem samePreload_of_calls {P : Invocation → Prop} (hP : ∀ inv inv', P inv → P inv' → inv.preload = inv'.preload)
    {stale : Bool} {pid : Option Nat} (hr : Reach step (Calls P) (start stale pid) s) :
    Reach step SamePreload (start stale pid) s := by
  suffices h : Reach step SamePreload (start stale pid) s ∧
      ∀ (i : Nat) (c : Client), s.clients[i]? = some c → P c.inv from h.1
  refine Reach.invariant
    (I := fun s => Reach step SamePreload (start stale pid) s ∧
      ∀ (i : Nat) (c : Client), s.clients[i]? = some c → P c.inv)
    hr ⟨.refl, fun i c hc => by simp [start] at hc⟩ ?_
  rintro s a t - ⟨hr, hall⟩ hg h
  constructor
  · refine .tail hr ?_ h
    cases a with
    | client i late => exact fun c hc _ e _ D _ c' hc' => hP _ _ (hall _ c' hc') (hall i c hc)
    | _ => trivial
  · intro i c' hc'
    rcases (step_moves h).client_next hc' with ⟨c, hc, hn⟩ | ⟨inv, hact, -, rfl⟩
    · rw [hn.inv]
      exact hall i c hc
    · exact hg inv hact

/-- One invocation starts the daemon, and another one is served by it. -/
def startThenConnect (stale : Bool) (inv inv' : Invocation) : List Act :=
  [.call inv, .client 0 false, .client 0 false, .daemon 0, .daemon 0] ++
    (if stale then [.daemon 0, .daemon 0, .daemon 0] else []) ++ [.daemon 0, .call inv', .client 1 false]

private theorem not_agreement_of_ne {inv inv' : Invocation} (hne : inv.preload ≠ inv'.preload) (stale : Bool)
    (pid : Option Nat) {P : Invocation → Prop} (h : P inv) (h' : P inv') :
    ∃ s, Reach step (Calls P) (start stale pid) s ∧ ¬ Agreement s := by
  obtain ⟨s, hs, hc, D, hD, hp⟩ : ∃ s, exec step (start stale pid) (startThenConnect stale inv inv') = some s ∧
      s.clients[1]? = some { inv := inv', pc := .connected 0 } ∧
      ∃ D, s.daemons[0]? = some D ∧ D.preload = inv.preload := by
    cases stale <;> exact ⟨_, rfl, rfl, _, rfl, rfl⟩
  refine ⟨s, Reach.of_exec_forall hs ?_, fun ha => ?_⟩
  · rintro a hmem s inv0 rfl
    have : inv0 = inv ∨ inv0 = inv' := by
      cases stale <;> simpa [startThenConnect] using hmem
    rcases this with rfl | rfl
    · exact h
    · exact h'
  · obtain ⟨D', hD', hp', -⟩ := ha 1 _ 0 hc rfl
    rw [hD] at hD'
    cases hD'
    exact hne (hp.symm.trans hp')

/-- Whatever invocations `P` are made and in whatever order, all requests are served with the preload string of their
clients if and only if all these strings are the same.  In one history, they are as long as whoever connects computes
the same string as the client that started the daemon it reaches, and no longer. -/
theorem preload_agreement (stale : Bool) (pid : Option Nat) :
    (∀ P : Invocation → Prop, (∀ s, Reach step (Calls P) (start stale pid) s → Agreement s) ↔
      ∀ inv inv', P inv → P inv' → inv.preload = inv'.preload) ∧
    (∀ s, Reach step SamePreload (start stale pid) s → Agreement s ∧ NothingPreloaded s) ∧
    ∀ s a t, Reach step Free (start stale pid) s → step s a = some t → ¬ SamePreload s a → ¬ Agreement t := by
  refine ⟨fun P => ⟨fun hall inv inv' h h' => ?_, fun hP s hr => ?_⟩, fun s hr => ?_, fun s a t hr h hno => ?_⟩
  · by_contra hne
    obtain ⟨s, hr, hno⟩ := not_agreement_of_ne hne stale pid h h'
    exact hno (hall s hr)
  · exact agreement_of_reach (samePreload_of_calls hP hr)
  · exact ⟨agreement_of_reach hr, (agreement_of_reach hr).nothingPreloaded⟩
  · exact not_agreement (booted_of_reach hr) h hno

/-- In a directory with a Gemfile. -/
def gemfileRun : Invocation := { bareRun with isFile := fun file => file = ["Gemfile".toList] }

theorem preload_agreement_runs :
    (∃ s, Reach step SamePreload (start false none) s ∧ (∃ c, s.clients[1]? = some c ∧ c.pc = .connected 0) ∧
      Agreement s ∧ NothingPreloaded s) ∧
    (∃ s, Reach step (Calls fun inv => inv = bareRun) (start false none) s ∧ Agreement s) ∧ ∃ t, ¬ Agreement t := by
  obtain ⟨s, hs, hc⟩ : ∃ s, exec step (start false none) (startThenConnect false bareRun bareRun) = some s ∧
      s.clients[1]? = some { inv := bareRun, pc := .connected 0 } := ⟨_, rfl, rfl⟩
  have hr : Reach step (Calls fun inv => inv = bareRun) (start false none) s := by
    refine Reach.of_exec_forall hs ?_
    rintro a hmem s inv rfl
    simpa [startThenConnect] using hmem
  have hr' := samePreload_of_calls (by rintro _ _ rfl rfl; rfl) hr
  refine ⟨⟨s, hr', ⟨_, hc, rfl⟩, (preload_agreement false none).2.1 s hr'⟩, ⟨s, hr, ?_⟩, ?_⟩
  · exact ((preload_agreement false none).1 _).2 (by rintro _ _ rfl rfl; rfl) s hr
  · obtain ⟨t, u, ht, hu, hno⟩ : ∃ t u,
        exec step (start false none) ((startThenConnect false bareRun gemfileRun).take 7) = some t ∧
          step t (.client 1 false) = some u ∧ ¬ SamePreload t (.client 1 false) := by
      refine ⟨_, _, rfl, rfl, fun h => ?_⟩
      exact absurd (h _ rfl rfl 0 rfl _ rfl _ rfl) (by decide)
    exact ⟨u, (preload_agreement false none).2.2 t _ u (.of_exec ht) hu hno⟩

/-- The daemon of a client outside any project serves a client in a directory with a Gemfile. -/
theorem gemfile_served_preloaded :
    ∃ s, Reach step Free (start false none) s ∧ ¬ Agreement s ∧ ¬ NothingPreloaded s := by
  obtain ⟨s, hs, hc, D, hD, hp, hl⟩ : ∃ s,
      exec step (start false none) (startThenConnect false bareRun gemfileRun) = some s ∧
        s.clients[1]? = some { inv := gemfileRun, pc := .connected 0 } ∧
        ∃ D, s.daemons[0]? = some D ∧ D.preload = bareRun.preload ∧ D.loaded = bootRequires bareRun.preload :=
    ⟨_, rfl, rfl, _, rfl, rfl, rfl⟩
  refine ⟨s, .of_exec hs, fun ha => ?_, fun hn => ?_⟩
  · obtain ⟨D', hD', hp', -⟩ := ha 1 _ 0 hc rfl
    rw [hD] at hD'
    cases hD'
    exact absurd (hp.symm.trans hp') (by decide)
  · have hb : gemfileRun.Bundled := ⟨rfl, [], [], rfl, List.suffix_rfl, .inl (by decide)⟩
    obtain ⟨D', hD', hl'⟩ := hn 1 _ 0 hc rfl hb
    rw [hD] at hD'
    cases hD'
    exact absurd (hl.symm.trans hl') (by decide)

end Calisto.Runtime

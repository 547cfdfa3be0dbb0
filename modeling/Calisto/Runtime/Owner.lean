import Calisto.Runtime.Moves

/-!
# Who owns the socket path

A daemon owns the path from its `bind` to the start of its shutdown.  Nothing locks the path: every `remove_file` is
made on what an earlier call has seen, and hits whatever is at the path by then.  `SparesOthers` is the condition that
none of them hits a file whose daemon still needs it.  In the runs that keep to it there is one serving daemon, with
the path and the pidfile (`single_owner`), and every step that breaks it leads to a state in which this is lost.
-/

namespace Calisto.Runtime

open Machine

variable {s t : State} {a : Act} {d e : Nat}

def State.holds (s : State) (d : Nat) : Bool := (s.daemons[d]?).any fun D => D.pc.holds

/-- `d` has written its pidfile and not begun its shutdown. -/
def State.serves (s : State) (d : Nat) : Bool := (s.daemons[d]?).any fun D => D.pc = .serving

/-- The daemon that has bound the file at the socket path. -/
def State.owner (s : State) : Option Nat :=
  match s.sock with
  | some (.of d) => some d
  | _ => none

structure SingleOwner (s : State) : Prop where
  one : ∀ d e, s.serves d → s.serves e → d = e
  reached : ∀ d, s.serves d → s.listener = some d
  recorded : ∀ d, s.serves d → s.pidfile = some d

/-- The step removes neither the socket file of a daemon that holds it nor the pidfile of one that serves. -/
def SparesOthers (s : State) (a : Act) : Prop :=
  (removesSock s a → ∀ d ∈ s.owner, ¬ s.holds d) ∧ (removesPid s a → ∀ d ∈ s.pidfile, ¬ s.serves d)

instance : Decidable (SparesOthers s a) := inferInstanceAs (Decidable (_ ∧ _))

private theorem holds_iff : s.holds d ↔ ∃ D, s.daemons[d]? = some D ∧ D.pc.holds := Option.any_eq_true _ _

private theorem serves_iff : s.serves d ↔ ∃ D, s.daemons[d]? = some D ∧ D.pc = .serving := by
  simp [State.serves, Option.any_eq_true]

private theorem holds_of_serves (h : s.serves d) : s.holds d := by
  obtain ⟨D, hD, hpc⟩ := serves_iff.1 h
  exact holds_iff.2 ⟨D, hD, by rw [hpc]; rfl⟩

private theorem mem_owner : d ∈ s.owner ↔ s.sock = some (.of d) := by
  unfold State.owner
  split
  · rename_i e he
    simp [he, eq_comm]
  · rename_i hne
    constructor
    · intro h; cases h
    · intro h; exact absurd h (hne d)

/-! ### The invariant -/

/-- The holders own the path, and the serving ones are in the pidfile. -/
structure OwnerInv (s : State) : Prop where
  owns : ∀ d, s.holds d → s.sock = some (.of d)
  recorded : ∀ d, s.serves d → s.pidfile = some d

theorem Daemon.Next.holds {D E : Daemon} (h : D.Next s a t d E) (hE : E.pc.holds) :
    D.pc.holds ∨ s.sock = none ∧ t.sock = some (.of d) := by
  cases h with
  | same => exact .inl hE
  | asked => exact .inl hE
  | died => cases hE
  | boot => cases hE
  | goes _ hg =>
    cases hg with
    | listening hpc => left; rw [hpc]; rfl
    | _ => cases hE
  | bind _ _ hs ht => exact .inr ⟨hs, ht⟩
  | unlinkStale => cases hE
  | writePid _ hpc => left; rw [hpc]; rfl
  | unlinkSock => cases hE
  | unlinkPid => cases hE

theorem Daemon.Next.serves {D E : Daemon} (h : D.Next s a t d E) (hE : E.pc = .serving) :
    D.pc = .serving ∨ t.pidfile = some d := by
  cases h with
  | same => exact .inl hE
  | asked => exact .inl hE
  | goes _ hg =>
    change _ = _ at hE
    subst hE
    cases hg
  | writePid _ _ ht => exact .inr ht
  | _ => cases hE

theorem Moves.holds (h : Moves s a t) (hd : t.holds d) : s.holds d ∨ s.sock = none ∧ t.sock = some (.of d) := by
  obtain ⟨E, hE, hpc⟩ := holds_iff.1 hd
  rcases h.daemon hE with ⟨D, hD, hn⟩ | ⟨i, late, c, -, -, -, -, rfl, -⟩
  · exact (hn.holds hpc).imp_left fun hp => holds_iff.2 ⟨D, hD, hp⟩
  · cases hpc

theorem Moves.serves (h : Moves s a t) (hd : t.serves d) : s.serves d ∨ t.pidfile = some d := by
  obtain ⟨E, hE, hpc⟩ := serves_iff.1 hd
  rcases h.daemon hE with ⟨D, hD, hn⟩ | ⟨i, late, c, -, -, -, -, rfl, -⟩
  · exact (hn.serves hpc).imp_left fun hp => serves_iff.2 ⟨D, hD, hp⟩
  · cases hpc

theorem OwnerInv.kept (hi : OwnerInv s) (hg : SparesOthers s a) (h : Moves s a t) : OwnerInv t := by
  constructor
  · intro d hd
    rcases h.holds hd with hd | ⟨-, ht⟩
    · have hs := hi.owns d hd
      rcases h.sock with ht | ⟨-, hr⟩ | ⟨hnone, -⟩
      · rw [ht, hs]
      · exact absurd hd (hg.1 hr d (mem_owner.2 hs))
      · rw [hs] at hnone; cases hnone
    · exact ht
  · intro d hd
    rcases h.serves hd with hd | ht
    · have hs := hi.recorded d hd
      rcases h.pidfile with ht | ⟨-, hr⟩ | ⟨e, D, -, hD, hpc, ht⟩
      · rw [ht, hs]
      · exact absurd hd (hg.2 hr d hs)
      · -- who writes the pidfile holds the path, as `d` does
        have he : s.holds e := holds_iff.2 ⟨D, hD, by rw [hpc]; rfl⟩
        have hsock := hi.owns d (holds_of_serves hd)
        rw [hi.owns e he] at hsock
        cases hsock
        exact ht
    · exact ht

private theorem ownerInv_start (stale : Bool) (pid : Option Nat) : OwnerInv (start stale pid) := by
  constructor
  · intro d hd; simp [State.holds, start] at hd
  · intro d hd; simp [State.serves, start] at hd

private theorem OwnerInv.singleOwner (hi : OwnerInv s) : SingleOwner s := by
  refine ⟨?_, ?_, hi.recorded⟩
  · intro d e hd he
    have hs := hi.owns d (holds_of_serves hd)
    rw [hi.owns e (holds_of_serves he)] at hs
    cases hs
    rfl
  · intro d hd
    obtain ⟨D, hD, hpc⟩ := serves_iff.1 hd
    have hs := hi.owns d (holds_of_serves hd)
    simp [State.listener, hs, hD, hpc, DaemonPc.listens]

/-! ### What a removal leads to -/

/-- Daemon `x` moves from a call in which it does not hold the path: the holders stay. -/
private theorem holds_setDaemon {x : Nat} {X X' : Daemon} (hX : s.daemons[x]? = some X) (hpc : X.pc.holds = false)
    (hd : s.holds d) : (s.setDaemon x X').holds d := by
  obtain ⟨D, hD, hp⟩ := holds_iff.1 hd
  have hne : X.pc ≠ D.pc := by
    intro heq
    rw [heq, hp] at hpc
    cases hpc
  exact holds_iff.2 ⟨D, setDaemon_of_pc_ne hX hD hne X', hp⟩

/-- A removal leaves no socket file, and who held the path goes on without. -/
theorem removesSock_step (hr : removesSock s a) (h : step s a = some t) :
    t.sock = none ∧ ∀ d, s.holds d → t.holds d := by
  cases a with
  | daemon x =>
    obtain ⟨X, hX, hpc⟩ := (Option.any_eq_true _ _).1 hr
    have hpc : X.pc = .unlinkStale ∨ X.pc = .unlinkSock := by simpa using hpc
    have hno : X.pc.holds = false := by rcases hpc with hpc | hpc <;> rw [hpc] <;> rfl
    rcases hpc with hpc | hpc <;> simp only [step, hX, daemonStep, hpc, Option.some.injEq] at h <;> subst h <;>
      exact ⟨rfl, fun d hd => holds_setDaemon hX hno hd⟩
  | stopper k late =>
    have hk : s.stoppers[k]? = some .unlinkSock := by simpa [removesSock] using hr
    simp only [step, hk, stopperStep, Option.some.injEq] at h
    subst h
    exact ⟨rfl, fun d hd => hd⟩
  | _ => cases hr

private theorem removesPid_step (hr : removesPid s a) (h : step s a = some t) :
    t.pidfile = none ∧ ∀ d, s.serves d → t.serves d := by
  cases a with
  | daemon x =>
    obtain ⟨X, hX, hpc⟩ := (Option.any_eq_true _ _).1 hr
    have hpc : X.pc = .unlinkPid := by simpa using hpc
    simp only [step, hX, daemonStep, hpc, Option.some.injEq] at h
    subst h
    refine ⟨rfl, fun d hd => ?_⟩
    obtain ⟨D, hD, hp⟩ := serves_iff.1 hd
    have hne : X.pc ≠ D.pc := by simp [hpc, hp]
    exact serves_iff.2 ⟨D, setDaemon_of_pc_ne hX hD hne _, hp⟩
  | stopper k late =>
    have hk : s.stoppers[k]? = some .unlinkPid := by simpa [removesPid] using hr
    simp only [step, hk, stopperStep, Option.some.injEq] at h
    subst h
    exact ⟨rfl, fun d hd => hd⟩
  | _ => cases hr

/-- A daemon that holds the path comes to serve, whether or not the path still leads to it. -/
theorem comes_to_serve (hd : s.holds d) : ∃ u, Reach step Free s u ∧ u.serves d ∧ u.sock = s.sock := by
  obtain ⟨D, hD, hp⟩ := holds_iff.1 hd
  -- from `writePid` it is one call
  have last : ∀ {v : State} {D : Daemon}, v.daemons[d]? = some D → D.pc = .writePid →
      ∃ u, Reach step Free v u ∧ u.serves d ∧ u.sock = v.sock := by
    intro v D hD hpc
    refine ⟨{ v.setDaemon d { D with pc := .serving } with pidfile := some d }, ?_, ?_, rfl⟩
    · exact Reach.tail (a := .daemon d) .refl trivial (by simp [step, hD, daemonStep, hpc])
    · exact serves_iff.2 ⟨_, getElem?_set_of_get hD _, rfl⟩
  cases hpc : D.pc with
  | listen =>
    obtain ⟨u, hu, hs, hk⟩ := last (v := s.setDaemon d { D with pc := .writePid }) (getElem?_set_of_get hD _) rfl
    refine ⟨u, ?_, hs, hk⟩
    exact (Reach.tail (a := .daemon d) .refl trivial (by simp [step, hD, daemonStep, hpc])).trans hu
  | writePid => exact last hD hpc
  | serving => exact ⟨s, .refl, serves_iff.2 ⟨D, hD, hpc⟩, rfl⟩
  | _ => rw [hpc] at hp; cases hp

/-- After a step that does not spare a file in use, some run loses the single owner. -/
theorem not_singleOwner_of_removal (hg : ¬ SparesOthers s a) (h : step s a = some t) :
    ∃ u, Reach step Free t u ∧ ¬ SingleOwner u := by
  unfold SparesOthers at hg
  by_cases hr : removesSock s a ∧ ∃ d ∈ s.owner, s.holds d
  · obtain ⟨hr, d, -, hd⟩ := hr
    obtain ⟨hnone, hkeep⟩ := removesSock_step hr h
    obtain ⟨u, hu, hserves, hsock⟩ := comes_to_serve (hkeep d hd)
    refine ⟨u, hu, fun ho => ?_⟩
    have := ho.reached d hserves
    simp [State.listener, hsock, hnone] at this
  · obtain ⟨hp, d, hd, hs⟩ : removesPid s a ∧ ∃ d ∈ s.pidfile, s.serves d := by
      by_contra hn
      apply hg
      exact ⟨fun h1 d h2 h3 => hr ⟨h1, d, h2, h3⟩, fun h1 d h2 h3 => hn ⟨h1, d, h2, h3⟩⟩
    obtain ⟨hnone, hkeep⟩ := removesPid_step hp h
    refine ⟨t, .refl, fun ho => ?_⟩
    have := ho.recorded d (hkeep d hs)
    rw [hnone] at this
    cases this

/-! ### The runs -/

/-- In the runs whose removals spare the files in use, the serving daemon is the only one, the socket path leads to
its listener and the pidfile holds its pid; any other removal is followed by the loss of this in some run. -/
theorem single_owner (stale : Bool) (pid : Option Nat) :
    (∀ s, Reach step SparesOthers (start stale pid) s → SingleOwner s) ∧
      ∀ s a t, step s a = some t → ¬ SparesOthers s a → ∃ u, Reach step Free t u ∧ ¬ SingleOwner u := by
  constructor
  · intro s hr
    have hi : OwnerInv s := hr.invariant (ownerInv_start stale pid) fun s a t _ hi hg h => hi.kept hg (step_moves h)
    exact hi.singleOwner
  · intro s a t h hg
    exact not_singleOwner_of_removal hg h

/-- One client and the daemon that it starts, up to the accept loop. -/
def oneBoot : List Act :=
  [.call bareRun, .client 0 false, .client 0 false, .daemon 0, .daemon 0, .daemon 0, .daemon 0, .daemon 0]

/-- Two daemons find the same stale socket; the first has bound it again when the second comes to its `remove_file`. -/
def staleRace : List Act :=
  [.call bareRun, .call bareRun, .client 0 false, .client 0 false, .client 1 false, .client 1 false,
    .daemon 0, .daemon 0, .daemon 0, .daemon 1, .daemon 1, .daemon 1,
    .daemon 0, .daemon 0, .daemon 0, .daemon 0, .daemon 1, .daemon 1, .daemon 1, .daemon 1]

theorem single_owner_runs :
    (∃ s, Reach step SparesOthers (start true none) s ∧ s.serves 0 ∧ SingleOwner s) ∧
      ∃ t u, ¬ SparesOthers t (.daemon 1) ∧ Reach step Free t u ∧ ¬ SingleOwner u := by
  constructor
  · obtain ⟨s, hs, hserves⟩ : ∃ s, Reach step SparesOthers (start true none) s ∧ s.serves 0 :=
      Reach.of_any_guarded (l := oneBoot ++ [.daemon 0, .daemon 0]) (by decide)
    exact ⟨s, hs, hserves, (single_owner true none).1 s hs⟩
  · obtain ⟨t, -, ht⟩ : ∃ t, Reach step Free (start true none) t ∧
        (decide (¬ SparesOthers t (.daemon 1)) && (step t (.daemon 1)).isSome) :=
      Reach.of_any (l := staleRace.take 16) (by decide)
    simp only [Bool.and_eq_true, decide_eq_true_eq, Option.isSome_iff_exists] at ht
    obtain ⟨hg, t', ht'⟩ := ht
    obtain ⟨u, hu, hn⟩ := (single_owner true none).2 t (.daemon 1) t' ht' hg
    exact ⟨t, u, hg, (Reach.tail .refl trivial ht').trans hu, hn⟩

/-- Both daemons of the race end up in their accept loops. -/
theorem stale_race_two_serving : ∃ s, Reach step Free (start true none) s ∧ ¬ SingleOwner s := by
  obtain ⟨s, hs, h⟩ : ∃ s, Reach step Free (start true none) s ∧ (s.serves 0 && s.serves 1) :=
    Reach.of_any (l := staleRace) (by decide)
  simp only [Bool.and_eq_true] at h
  exact ⟨s, hs, fun ho => absurd (ho.one 0 1 h.1 h.2) (by decide)⟩

end Calisto.Runtime

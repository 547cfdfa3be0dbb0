import Calisto.Daemon.Pass
import Calisto.Lib.Sweep

/-!
# Whose poll result a client is visited under

The pass over the polled clients reads `pfds` by the index of `clients`, and goes on with the same index when it has
removed a client.  It is a sweep (`Sweeps.step`): behind a removal a client is treated under the result of another one,
and so are the clients that were accepted in this tick.  `poll_attribution_iff` says in which ticks this makes no
difference.
-/

namespace Calisto

open Machine

variable {boot : Boot} {alloc : Nat → Bool} {s t : Sys} {a : Act} {pfds rounds : List PollFd} {i : Nat} {r : Reader}
  {c : DaemonClient} {ans : Answer} {acc : List Fd} {σ : Sweep.State Fd}

/-! ### Passes -/

/-- The client that the loop over the polled clients comes to in a step, with the result that it reads for it.  It is
visited if the result says that it is ready: the loop peeks at its connection if it has a child, and calls
`client_read_command` otherwise. -/
def Sys.round (s : Sys) : Act → List PollFd
  | .daemon _ => match s.pc with
    | .pass pfds i => match pfds[i]?, s.clients[i]? with
      | some p, some c => [⟨c.fd, p.revents⟩]
      | _, _ => []
    | _ => []
  | _ => []

/-- The entries of `pfds` after the `poll`. -/
def Sys.polled (s : Sys) (revents : List Bool) : List PollFd :=
  List.zipWith (fun c rev => { fd := c.fd, revents := rev }) s.clients revents

def Sys.clientFds (s : Sys) : List Fd := s.clients.map (·.fd)

/-- The loop accepts or is in the pass. -/
def Pc.inPass : Pc → Bool
  | .accepting _ | .pass .. | .reading .. => true
  | _ => false

/-- A tick from its `poll` to a state of its pass, or to the end of the pass, with the rounds of the loop so far. -/
structure PassRun (boot : Boot) (alloc : Nat → Bool) (s : Sys) (listener : Bool) (revents : List Bool)
    (rounds : List PollFd) (t : Sys) : Prop where
  start : s.pc = .top
  run : ∃ u, step boot alloc s (.daemon (.poll listener revents)) = some u ∧
    Reach (recorded (step boot alloc) Sys.round) (fun x _ => x.1.pc.inPass) (u, []) (t, rounds)
  looping : t.pc.looping

/-- The visits go to clients that were polled ready, to each at most once, and at the end of the pass to all of them
that are still there. -/
structure Attributed (pfds rounds : List PollFd) (t : Sys) : Prop where
  ready : ∀ r ∈ rounds, r.revents → r ∈ pfds
  once : ((rounds.filter (·.revents)).map (·.fd)).Nodup
  visited : t.pc = .reap 0 → ∀ p ∈ pfds, p.revents → p.fd ∈ t.clientFds → p ∈ rounds

/-- The index under which the loop comes to the client that was at `j` when the pass began: as many as there are left
of the ones before it. -/
def Sys.indexOf (t : Sys) (rounds : List PollFd) (j : Nat) : Nat := (rounds.take j).countP fun r => r.fd ∈ t.clientFds

/-! ### The pass is a sweep -/

/-- Where the loop stands in the sweep over the clients `all`. -/
inductive At (pfds : List PollFd) (all : List Fd) : Pc → Sweep.State Fd → Prop
  | accepting : At pfds all (.accepting pfds) { todo := all }
  | pass {i : Nat} {σ : Sweep.State Fd} (hi : σ.kept.length = i) (hnow : σ.now = none) : At pfds all (.pass pfds i) σ
  | reading {i : Nat} {r : Reader} {σ : Sweep.State Fd} {fd : Fd} (hi : σ.kept.length = i) (hnow : σ.now = some fd) :
      At pfds all (.reading pfds i r) σ
  | ended {σ : Sweep.State Fd} (hend : pfds.length ≤ σ.kept.length ∨ σ.todo = []) : At pfds all (.reap 0) σ

/-- The pass as a sweep over the polled clients and the ones accepted in this tick. -/
structure Sweeps (pfds rounds : List PollFd) (acc : List Fd) (σ : Sweep.State Fd) (s : Sys) : Prop where
  nodup : (pfds.map (·.fd) ++ acc).Nodup
  run : Sweep.Run (pfds.map (·.revents)) (pfds.map (·.fd) ++ acc) σ
  present : σ.present = s.clientFds
  rounds_eq : σ.rounds = rounds.map fun r => (r.fd, r.revents)
  place : At pfds (pfds.map (·.fd) ++ acc) s.pc σ

private theorem clientFds_nodup (h : s.Owned boot) : s.clientFds.Nodup := by
  obtain ⟨lost, hcov⟩ := h.covers
  have hheld : s.held.Nodup := (List.nodup_append.1 hcov.nodup).1
  refine hheld.sublist ?_
  unfold Sys.clientFds Sys.held
  induction s.clients with
  | nil => exact .slnil
  | cons c clients ih =>
    rw [List.map_cons, List.flatMap_cons]
    exact .cons_cons _ (ih.trans (List.sublist_append_right _ _))

/-- An entry that only its connection identifies is changed. -/
theorem clientFds_set (hc : s.clients[i]? = some c) {c' : DaemonClient} (hfd : c'.fd = c.fd)
    (hclients : t.clients = s.clients.set i c') : t.clientFds = s.clientFds := by
  unfold Sys.clientFds
  rw [hclients, List.map_set]
  refine List.ext_getElem? fun j => ?_
  by_cases hj : i = j
  · subst hj
    obtain ⟨hlt, rfl⟩ := List.getElem?_eq_some_iff.1 hc
    rw [List.getElem?_set_self (by rwa [List.length_map]), hfd, List.getElem?_map, hc]
    rfl
  · rw [List.getElem?_set_ne hj]

/-- An entry is removed. -/
theorem clientFds_erase {kept todo : List Fd} {fd : Fd} (h : kept ++ fd :: todo = s.clientFds) (hi : kept.length = i)
    (hclients : t.clients = s.clients.eraseIdx i) : kept ++ todo = t.clientFds := by
  unfold Sys.clientFds at h ⊢
  rw [hclients, List.eraseIdx_eq_take_drop_succ, List.map_append, List.map_take, List.map_drop, ← h, ← hi,
    List.take_left, List.drop_length_add_append]
  rfl

/-- The client that the loop comes to is the next one of the sweep. -/
theorem next_of_get {kept todo : List Fd} (hpresent : kept ++ todo = s.clientFds) (hi : kept.length = i)
    (hc : s.clients[i]? = some c) : ∃ rest, todo = c.fd :: rest := by
  have hget : (kept ++ todo)[kept.length]? = some c.fd := by
    rw [hpresent, hi, Sys.clientFds, List.getElem?_map, hc]
    rfl
  rw [List.getElem?_append_right (Nat.le_refl _), Nat.sub_self] at hget
  cases todo with
  | nil => simp at hget
  | cons fd rest =>
    rw [List.getElem?_cons_zero, Option.some.injEq] at hget
    exact ⟨rest, by rw [hget]⟩

/-- The sweep in the round of a client that is polled ready, before it is decided whether it stays. -/
theorem Sweeps.met (h : Sweeps pfds rounds acc σ s) (hs : s.pc = .pass pfds i) {p : PollFd} (hp : pfds[i]? = some p)
    (hc : s.clients[i]? = some c) : ∃ kept rest, kept.length = i ∧ kept ++ c.fd :: rest = s.clientFds ∧
      (pfds.map (·.fd) ++ acc).Nodup ∧ (pfds.map (·.revents))[kept.length]? = some p.revents ∧
      Sweep.Run (pfds.map (·.revents)) (pfds.map (·.fd) ++ acc)
        ⟨kept, none, c.fd :: rest, rounds.map fun r => (r.fd, r.revents)⟩ := by
  obtain ⟨hnodup, hrun, hpresent, hrounds, hplace⟩ := h
  obtain ⟨kept, now, todo, seen⟩ := σ
  rw [hs] at hplace
  cases hplace with
  | pass hi hnow =>
    cases hnow
    cases hrounds
    obtain ⟨rest, rfl⟩ := next_of_get hpresent hi hc
    have hflag : (pfds.map (·.revents))[i]? = some p.revents := by
      rw [List.getElem?_map, hp]
      rfl
    exact ⟨kept, rest, hi, hpresent, hnodup, hi ▸ hflag, hrun⟩

private theorem map_rounds_append (rounds : List PollFd) (p : PollFd) :
    rounds.map (fun r => (r.fd, r.revents)) ++ [(p.fd, p.revents)] =
      (rounds ++ [p]).map fun r => (r.fd, r.revents) := by
  rw [List.map_append]
  rfl

theorem Sweeps.visit (h : Sweeps pfds rounds acc σ s) (hs : s.pc = .pass pfds i)
    (hv : s.visit pfds i ans = some t) : ∃ σ', Sweeps pfds (rounds ++ s.round (.daemon ans)) acc σ' t := by
  rcases visit_cases hv with ⟨-, hend, rfl⟩ | ⟨p, c, hp, hc, hcase⟩
  · have hround : s.round (.daemon ans) = [] := by
      rcases hend with hend | hend <;> simp [Sys.round, hs, List.getElem?_eq_none hend]
    obtain ⟨hnodup, hrun, hpresent, hrounds, hplace⟩ := h
    rw [hs] at hplace
    rw [hround, List.append_nil]
    refine ⟨σ, hnodup, hrun, hpresent, hrounds, .ended ?_⟩
    cases hplace with
    | pass hi hnow =>
      rcases hend with hend | hend
      · exact .inl (hi ▸ hend)
      · have hlength := congrArg List.length hpresent
        simp only [Sweep.State.present, hnow, Option.toList_none, List.nil_append, List.length_append,
          Sys.clientFds, List.length_map] at hlength
        exact .inr (List.eq_nil_of_length_eq_zero (by omega))
  obtain ⟨kept, rest, hi, hpresent, hnodup, hflag, hrun⟩ := h.met hs hp hc
  have hround : s.round (.daemon ans) = [⟨c.fd, p.revents⟩] := by simp [Sys.round, hs, hp, hc]
  have hkept : (kept ++ [c.fd]).length = i + 1 := by rw [List.length_append, hi, List.length_singleton]
  have hpresent' : kept ++ [c.fd] ++ rest = s.clientFds := by rw [List.append_assoc, List.singleton_append, hpresent]
  have hrounds := map_rounds_append rounds ⟨c.fd, p.revents⟩
  rw [hround]
  by_cases hrev : p.revents
  · rw [hrev] at hflag hrounds ⊢
    have hvisit := hrun.step (.visit hflag)
    rcases hcase with ⟨-, -, rfl⟩ | ⟨-, -, -, rfl⟩ | ⟨pid, st, -, -, -, -, rfl⟩
    · exact ⟨_, hnodup, hvisit.step .keep, hpresent', hrounds, .pass hkept rfl⟩
    · exact ⟨_, hnodup, hvisit, hpresent, hrounds, .reading hi rfl⟩
    · have hclients := congrArg (·.eraseIdx i) (killChild_clients s pid st)
      exact ⟨_, hnodup, hvisit.step .remove, clientFds_erase hpresent hi hclients, hrounds, .pass hi rfl⟩
  · have hfalse : p.revents = false := by simpa using hrev
    rw [hfalse] at hflag hrounds ⊢
    rcases hcase with ⟨-, -, rfl⟩ | ⟨-, hready, -⟩ | ⟨pid, st, -, hready, -⟩
    · exact ⟨_, hnodup, hrun.step (.skip hflag), hpresent', hrounds, .pass hkept rfl⟩
    · exact absurd hready hrev
    · exact absurd hready hrev

theorem Sweeps.read (h : Sweeps pfds rounds acc σ s) (hs : s.pc = .reading pfds i r) (hc : s.clients[i]? = some c)
    (hread : ReadStep alloc s pfds i r c t) : (∃ σ', Sweeps pfds rounds acc σ' t) ∨ t.pc.looping = false := by
  obtain ⟨hnodup, hrun, hpresent, hrounds, hplace⟩ := h
  obtain ⟨kept, now, todo, seen⟩ := σ
  rw [hs] at hplace
  obtain ⟨hi, fd, rfl⟩ : kept.length = i ∧ ∃ fd, now = some fd := by
    cases hplace with
    | reading hi hnow => exact ⟨hi, _, hnow⟩
  have hpresent' : kept ++ [fd] ++ todo = s.clientFds := by
    rw [List.append_assoc]
    exact hpresent
  have hkept : (kept ++ [fd]).length = i + 1 := by rw [List.length_append, hi, List.length_singleton]
  have hkeep : ∀ (c' : DaemonClient) (t' : Sys), c'.fd = c.fd → t'.clients = s.clients.set i c' →
      t'.pc = .pass pfds (i + 1) → ∃ σ', Sweeps pfds rounds acc σ' t' := by
    intro c' t' hfd hclients hpc
    refine ⟨_, hnodup, hrun.step .keep, ?_, hrounds, hpc ▸ .pass hkept rfl⟩
    rw [clientFds_set hc hfd hclients]
    exact hpresent'
  cases hread with
  | @answered op fields buf => exact .inl (hkeep { c with buf := buf } _ rfl rfl rfl)
  | stopped hpc => exact .inr (by rw [hpc]; rfl)
  | crashed hpc => exact .inr (by rw [hpc]; rfl)
  | @forked fields buf pid =>
    exact .inl (hkeep { c with buf := buf, fds := [], pid := some pid } _ rfl (by simp) rfl)
  | rejected => exact .inl ⟨_, hnodup, hrun.step .remove, clientFds_erase hpresent hi rfl, hrounds, .pass hi rfl⟩
  | @starved site r' buf => exact .inl (hkeep { c with buf := buf, first := false } _ rfl rfl rfl)
  | more hfd hclients hpc =>
    refine .inl ⟨_, hnodup, hrun, ?_, hrounds, hpc ▸ .reading hi rfl⟩
    rw [clientFds_set hc hfd hclients]
    exact hpresent

/-- A client that is accepted is one more behind the others. -/
theorem Sweeps.accept (h : Sweeps pfds rounds acc σ s) (hs : s.pc = .accepting pfds) (ho : t.Owned boot)
    (ha : s.accept boot pfds ans = some t) : ∃ acc' σ', Sweeps pfds rounds acc' σ' t := by
  obtain ⟨hnodup, hrun, hpresent, hrounds, hplace⟩ := h
  rw [hs] at hplace
  cases hplace
  rcases accept_cases ha with ⟨fd, k, rest, -, -, -, rfl⟩ | ⟨-, rfl⟩ | ⟨-, rfl⟩
  · have hfds : pfds.map (·.fd) ++ (acc ++ [fd]) = (s.welcome fd k rest).clientFds := by
      have hall : pfds.map (·.fd) ++ acc = s.clientFds := hpresent
      rw [← List.append_assoc, hall]
      simp [Sys.clientFds, Sys.welcome]
    refine ⟨acc ++ [fd], { todo := pfds.map (·.fd) ++ (acc ++ [fd]) }, ?_, .refl, hfds, hrounds, ?_⟩
    · rw [hfds]
      exact clientFds_nodup ho
    · show At pfds _ s.pc _
      rw [hs]
      exact .accepting
  · refine ⟨acc, _, hnodup, hrun, hpresent, hrounds, ?_⟩
    rw [hs]
    exact .accepting
  · exact ⟨acc, _, hnodup, hrun, hpresent, hrounds, .pass rfl rfl⟩

/-- A step of the pass is a part of a step of the sweep, or some of them. -/
theorem Sweeps.step (h : Sweeps pfds rounds acc σ s) (hin : s.pc.inPass) (ho : t.Owned boot)
    (hstep : step boot alloc s a = some t) :
    (∃ acc' σ', Sweeps pfds (rounds ++ s.round a) acc' σ' t) ∨ t.pc.looping = false := by
  cases a with
  | daemon ans =>
    have hdaemon : s.daemonStep boot alloc ans = some t := hstep
    have hplace := h.place
    unfold Sys.daemonStep at hdaemon
    generalize hs : s.pc = pc at hplace hdaemon
    cases hplace with
    | accepting =>
      have hround : s.round (.daemon ans) = [] := by simp [Sys.round, hs]
      rw [hround, List.append_nil]
      exact .inl (h.accept hs ho hdaemon)
    | pass => exact .inl ⟨acc, h.visit hs hdaemon⟩
    | reading =>
      have hround : s.round (.daemon ans) = [] := by simp [Sys.round, hs]
      rw [hround, List.append_nil]
      dsimp only at hdaemon
      split at hdaemon
      · cases hdaemon
      · rename_i c hc
        rcases h.read hs hc (read_step hdaemon) with hnext | hover
        · exact .inl ⟨acc, hnext⟩
        · exact .inr hover
    | ended =>
      rw [hs] at hin
      cases hin
  | _ =>
    rcases step_outside hstep with ⟨hclients, hpc⟩ | ⟨ans, ha, -⟩
    · obtain ⟨hnodup, hrun, hpresent, hrounds, hplace⟩ := h
      refine .inl ⟨acc, σ, hnodup, hrun, ?_, ?_, hpc ▸ hplace⟩
      · rw [Sys.clientFds, hclients]
        exact hpresent
      · rw [hrounds]
        exact congrArg _ (List.append_nil rounds).symm
    · cases ha

theorem map_polled {clients : List DaemonClient} {revents : List Bool} (hlen : revents.length = clients.length) :
    let pfds : List PollFd := List.zipWith (fun c rev => { fd := c.fd, revents := rev }) clients revents
    pfds.map (·.fd) = clients.map (·.fd) ∧ pfds.map (·.revents) = revents := by
  induction clients generalizing revents with
  | nil =>
    rw [List.length_nil, List.length_eq_zero_iff] at hlen
    subst hlen
    exact ⟨rfl, rfl⟩
  | cons c clients ih =>
    cases revents with
    | nil => cases hlen
    | cons rev revents =>
      obtain ⟨hfds, hrevents⟩ := ih (Nat.succ.inj hlen)
      constructor
      · rw [List.zipWith_cons_cons, List.map_cons, hfds, List.map_cons]
      · rw [List.zipWith_cons_cons, List.map_cons, hrevents]

/-- The `poll` begins the sweep. -/
theorem sweeps_polled (ho : s.Owned boot) (hs : s.pc = .top) {listener : Bool} {revents : List Bool}
    (h : step boot alloc s (.daemon (.poll listener revents)) = some t) :
    (s.polled revents).map (·.revents) = revents ∧ Sweeps (s.polled revents) [] [] { todo := s.clientFds } t := by
  simp only [Calisto.step, Sys.daemonStep, hs] at h
  rcases tick_cases h with ⟨-, ha, -⟩ | ⟨_, _, ha, hlen, rfl⟩ | ⟨ha, -⟩ | ⟨ha, -⟩ <;> cases ha
  obtain ⟨hfds, hrevents⟩ := map_polled hlen
  have hall : (s.polled revents).map (·.fd) ++ [] = s.clientFds := by
    rw [List.append_nil]
    exact hfds
  refine ⟨hrevents, ?_, ?_, rfl, rfl, ?_⟩
  · rw [hall]
    exact clientFds_nodup ho
  · rw [hall]
    exact .refl
  · rw [hall, goto_pc]
    split
    · exact .accepting
    · exact .pass rfl rfl

private theorem sweeps_of_passRun (hreach : Reach (step boot alloc) Free {} s) {listener : Bool} {revents : List Bool}
    (h : PassRun boot alloc s listener revents rounds t) :
    (s.polled revents).map (·.revents) = revents ∧ ∃ acc σ, Sweeps (s.polled revents) rounds acc σ t := by
  obtain ⟨u, hpoll, hrun⟩ := h.run
  obtain ⟨hrevents, hstart⟩ := sweeps_polled (owned_of_reach hreach) h.start hpoll
  have hend := hrun.invariant (I := fun x => Reach (step boot alloc) Free {} x.1 ∧
    ((∃ acc σ, Sweeps (s.polled revents) x.2 acc σ x.1) ∨ x.1.pc.looping = false))
    ⟨.tail hreach trivial hpoll, .inl ⟨_, _, hstart⟩⟩ ?_
  · refine ⟨hrevents, hend.2.resolve_right fun hover => ?_⟩
    rw [h.looping] at hover
    cases hover
  · rintro x a y - ⟨hx, hsweeps⟩ hin hstep
    obtain ⟨hstep, hrounds⟩ := recorded_eq_some hstep
    have hy : Reach (step boot alloc) Free {} y.1 := .tail hx trivial hstep
    refine ⟨hy, ?_⟩
    rcases hsweeps with ⟨acc, σ, hsweeps⟩ | hover
    · rw [hrounds]
      exact hsweeps.step hin (owned_of_reach hy) hstep
    · have hin : x.1.pc.inPass = true := hin
      unfold Pc.inPass at hin
      unfold Pc.looping at hover
      split at hin <;> simp_all

/-! ### Attribution -/

private theorem Sweeps.length_rounds (h : Sweeps pfds rounds acc σ s) : σ.rounds.length = rounds.length := by
  rw [h.rounds_eq, List.length_map]

theorem mem_rounds_iff (h : Sweeps pfds rounds acc σ s) {p : PollFd} : p ∈ rounds ↔ (p.fd, p.revents) ∈ σ.rounds := by
  rw [h.rounds_eq, List.mem_map]
  constructor
  · intro hp
    exact ⟨p, hp, rfl⟩
  · rintro ⟨q, hq, heq⟩
    cases p
    cases q
    cases heq
    exact hq

/-- The entries of `pfds` are the results of the clients in their order. -/
theorem mem_pfds_iff (pfds : List PollFd) (acc : List Fd) (fd : Fd) : ⟨fd, true⟩ ∈ pfds ↔
    ∃ j : Nat, (pfds.map (·.fd) ++ acc)[j]? = some fd ∧ (pfds.map (·.revents))[j]? = some true := by
  constructor
  · intro h
    obtain ⟨j, hj⟩ := List.mem_iff_getElem?.1 h
    have hlt : j < (pfds.map (·.fd)).length := by
      rw [List.length_map]
      exact (List.getElem?_eq_some_iff.1 hj).1
    refine ⟨j, ?_, ?_⟩
    · rw [List.getElem?_append_left hlt, List.getElem?_map, hj]
      rfl
    · rw [List.getElem?_map, hj]
      rfl
  · rintro ⟨j, hfd, hrev⟩
    rw [List.getElem?_map, Option.map_eq_some_iff] at hrev
    obtain ⟨p, hp, hrev⟩ := hrev
    have hlt : j < (pfds.map (·.fd)).length := by
      rw [List.length_map]
      exact (List.getElem?_eq_some_iff.1 hp).1
    rw [List.getElem?_append_left hlt, List.getElem?_map, hp] at hfd
    cases hfd
    rw [← hrev]
    exact List.mem_of_getElem? hp

private theorem place_eq_indexOf (h : Sweeps pfds rounds acc σ t) {j : Nat} (hj : j < rounds.length) :
    Sweep.place (pfds.map (·.fd) ++ acc) σ j = t.indexOf rounds j := by
  have hlen : j ≤ σ.rounds.length := h.length_rounds ▸ Nat.le_of_lt hj
  rw [Sweep.place, h.run.take_all hlen, h.rounds_eq, h.present, List.map_map, ← List.map_take, List.countP_map]
  rfl

private theorem visited_eq (h : Sweeps pfds rounds acc σ s) : σ.visited = (rounds.filter (·.revents)).map (·.fd) := by
  rw [Sweep.State.visited, h.rounds_eq, List.filter_map, List.map_map]
  rfl

/-- The visits go to clients that were polled ready exactly if no other client is visited under a result. -/
theorem Sweeps.ready_iff (h : Sweeps pfds rounds acc σ t) : (∀ r ∈ rounds, r.revents → r ∈ pfds) ↔
    ∀ j < rounds.length, (pfds.map (·.revents))[t.indexOf rounds j]? = some true →
      (pfds.map (·.revents))[j]? = some true := by
  have hsweep := h.run.flagged_of_visited_iff h.nodup
  rw [h.length_rounds] at hsweep
  have hplace : ∀ j < rounds.length, Sweep.place _ σ j = t.indexOf rounds j := fun j => place_eq_indexOf h
  constructor
  · intro hready j hj hflag
    refine hsweep.1 (fun fd hfd => ?_) j hj (hplace j hj ▸ hflag)
    rw [← mem_pfds_iff]
    exact hready _ ((mem_rounds_iff h).2 (Sweep.mem_visited_iff.1 hfd)) rfl
  · intro hcond r hr hrev
    obtain ⟨fd, rev⟩ := r
    have hrev : rev = true := hrev
    subst hrev
    have hvisited : fd ∈ σ.visited := Sweep.mem_visited_iff.2 ((mem_rounds_iff h).1 hr)
    rw [mem_pfds_iff pfds acc]
    exact hsweep.2 (fun j hj hflag => hcond j hj (hplace j hj ▸ hflag)) fd hvisited

/-- At the end of the pass, the clients polled ready that are still there have been visited exactly if none of them was
passed under another result. -/
theorem Sweeps.visited_iff (h : Sweeps pfds rounds acc σ t) (hpc : t.pc = .reap 0) :
    (∀ p ∈ pfds, p.revents → p.fd ∈ t.clientFds → p ∈ rounds) ↔
      ∀ j < rounds.length, (pfds.map (·.revents))[j]? = some true →
        (pfds.map (·.revents))[t.indexOf rounds j]? = some true := by
  have hend : (pfds.map (·.revents)).length ≤ σ.kept.length ∨ σ.todo = [] := by
    have hplace := h.place
    rw [hpc] at hplace
    cases hplace with
    | ended hend =>
      rw [List.length_map]
      exact hend
  have hsweep := h.run.visited_of_flagged_iff h.nodup hend
  rw [h.length_rounds, h.present] at hsweep
  have hplace : ∀ j < rounds.length, Sweep.place _ σ j = t.indexOf rounds j := fun j => place_eq_indexOf h
  constructor
  · intro hall j hj hflag
    rw [← hplace j hj]
    refine hsweep.1 (fun k fd hfd hrev hpresent => ?_) j hj hflag
    have hp : ⟨fd, true⟩ ∈ pfds := (mem_pfds_iff pfds acc fd).2 ⟨k, hfd, hrev⟩
    exact Sweep.mem_visited_iff.2 ((mem_rounds_iff h).1 (hall _ hp rfl hpresent))
  · intro hcond p hp hrev hpresent
    obtain ⟨fd, rev⟩ := p
    have hrev : rev = true := hrev
    subst hrev
    obtain ⟨k, hfd, hflag⟩ := (mem_pfds_iff pfds acc fd).1 hp
    have hvisited := hsweep.2 (fun j hj hflag => (hplace j hj).symm ▸ hcond j hj hflag) k fd hfd hflag hpresent
    exact (mem_rounds_iff h).2 (Sweep.mem_visited_iff.1 hvisited)

/-- The visits are rightly attributed if and only if each client that the loop has come to is visited only if its own
result says so, which is the one at its index when the pass began, and at the end of the pass also if. -/
theorem poll_attribution_iff (hreach : Reach (step boot alloc) Free {} s) {listener : Bool} {revents : List Bool}
    (h : PassRun boot alloc s listener revents rounds t) :
    Attributed (s.polled revents) rounds t ↔ ∀ j < rounds.length,
      (revents[t.indexOf rounds j]? = some true → revents[j]? = some true) ∧
        (t.pc = .reap 0 → revents[j]? = some true → revents[t.indexOf rounds j]? = some true) := by
  obtain ⟨hrevents, acc, σ, hsweeps⟩ := sweeps_of_passRun hreach h
  have hready := hsweeps.ready_iff
  have hvisited := hsweeps.visited_iff
  have honce := hsweeps.run.nodup_visited hsweeps.nodup
  rw [visited_eq hsweeps] at honce
  rw [hrevents] at hready
  simp only [hrevents] at hvisited
  constructor
  · intro ha j hj
    exact ⟨hready.1 ha.ready j hj, fun hpc => (hvisited hpc).1 (ha.visited hpc) j hj⟩
  · intro hcond
    refine ⟨hready.2 fun j hj => (hcond j hj).1, honce, fun hpc => (hvisited hpc).2 fun j hj => (hcond j hj).2 hpc⟩

/-! ### Two clients, one of which is gone -/

/-- Two clients connect and are accepted; then the client `k` closes its end. -/
def twoClients (k : ConnId) : List Act :=
  [.connect, .connect, .daemon (.poll true []), .daemon (.accepted 4), .daemon (.accepted 5), .daemon .go,
    .daemon .go, .daemon .go, .daemon .go, .daemon .go, .hangup k]

/-- The tick of such a run with the given results of `poll`, and what the loop does in it. -/
theorem passRun_of_any (k : ConnId) (revents : List Bool) (acts : List Act) (rounds : List PollFd) (fds : List Fd)
    (hrun : (exec (step bareBoot fun _ => true) {} (twoClients k)).any fun s => s.pc = .top ∧ s.clientFds = [4, 5] ∧
      ((step bareBoot (fun _ => true) s (.daemon (.poll false revents))).any fun u =>
        (exec (guarded (recorded (step bareBoot fun _ => true) Sys.round) fun x _ => x.1.pc.inPass) (u, []) acts).any
          fun x => x.1.pc = .reap 0 ∧ x.1.clientFds = fds ∧ x.2 = rounds)) :
    ∃ s t, Reach (step bareBoot fun _ => true) Free {} s ∧ s.clientFds = [4, 5] ∧
      PassRun bareBoot (fun _ => true) s false revents rounds t ∧ t.pc = .reap 0 ∧ t.clientFds = fds := by
  obtain ⟨s, hs, hp⟩ := Reach.of_any hrun
  obtain ⟨hstart, hfds, htick⟩ := of_decide_eq_true hp
  obtain ⟨u, hpoll, hloop⟩ := (Option.any_eq_true _ _).1 htick
  obtain ⟨⟨t, seen⟩, hpass, ht⟩ := Reach.of_any_guarded hloop
  obtain ⟨hpc, htfds, hseen⟩ := of_decide_eq_true ht
  have hseen : seen = rounds := hseen
  have hpc : t.pc = .reap 0 := hpc
  subst hseen
  exact ⟨s, t, hs, hfds, ⟨hstart, ⟨u, hpoll, hpass⟩, by rw [hpc]; rfl⟩, hpc, htfds⟩

/-- The last client is gone: nobody stands behind it. -/
theorem poll_attribution_last : ∃ s t rounds, Reach (step bareBoot fun _ => true) Free {} s ∧
    PassRun bareBoot (fun _ => true) s false [false, true] rounds t ∧
      Attributed (s.polled [false, true]) rounds t := by
  obtain ⟨s, t, hs, -, hpass, -, hfds⟩ := passRun_of_any 1 [false, true]
    [.daemon .go, .daemon .go, .daemon (.received []), .daemon (.received []), .daemon .go]
    [⟨4, false⟩, ⟨5, true⟩] [4] (by decide)
  refine ⟨s, t, _, hs, hpass, (poll_attribution_iff hs hpass).2 ?_⟩
  have hindex : ∀ j < 2, t.indexOf [⟨4, false⟩, ⟨5, true⟩] j = j := by
    unfold Sys.indexOf
    rw [hfds]
    decide
  intro j hj
  rw [hindex j hj]
  exact ⟨id, fun _ => id⟩

/-- The first client is gone: the loop reads from the second one under its result. -/
theorem removal_shifts_results : ¬∀ s t listener revents rounds, Reach (step bareBoot fun _ => true) Free {} s →
    PassRun bareBoot (fun _ => true) s listener revents rounds t → Attributed (s.polled revents) rounds t := by
  intro h
  obtain ⟨s, t, hs, hfds, hpass, -, -⟩ := passRun_of_any 0 [true, false]
    [.daemon .go, .daemon (.received []), .daemon (.received []), .daemon .go, .daemon (.received []), .daemon .go]
    [⟨4, true⟩, ⟨5, true⟩] [5] (by decide)
  have hmem := (h s t false [true, false] _ hs hpass).ready ⟨5, true⟩ (by decide) rfl
  have hlen : [true, false].length = s.clients.length := by
    have hlength := congrArg List.length hfds
    rw [Sys.clientFds, List.length_map] at hlength
    exact hlength.symm
  obtain ⟨j, hj, hrev⟩ := (mem_pfds_iff (s.polled [true, false]) [] 5).1 hmem
  obtain ⟨hpolled, hrevents⟩ := map_polled hlen
  rw [List.append_nil, Sys.polled, hpolled] at hj
  rw [Sys.polled, hrevents] at hrev
  have hfd : ([4, 5] : List Fd)[j]? = some 5 := hfds ▸ hj
  rcases j with _ | _ | j
  · cases hfd
  · cases hrev
  · cases hfd

end Calisto

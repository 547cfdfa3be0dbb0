import Calisto.Daemon.Children

/-!
# What one connection sees

A client knows nothing of the other ones: it connects, is answered, and at some time its connection is closed.  `Phase`
is this service as an automaton, with a letter for each thing that is done about the connection or the child forked for
it.  Whatever the daemon does in between for its other clients, what it logs about one connection is a run of the
automaton, and the entry of the connection is in the phase that this run leads to (`Sys.Serving`).
-/

namespace Calisto

open Function Handles Machine

/-! ### The service -/

/-- What happens to a connection, or to the child that was forked for it. -/
inductive Deed
  | accepted
  | said (r : Reply)
  | forked (pid : Pid)
  | reaped (pid : Pid) (st : Status)
  | closed
  deriving DecidableEq

/-- How far the service of a connection has come.  It has been told the last line after a `BYE`, an error or the
`STATUS` of its child. -/
inductive Phase
  | outside
  | idle
  | busy (pid : Pid)
  | ended (st : Status)
  | told
  | gone
  deriving DecidableEq

def Phase.next : Phase → Deed → Option Phase
  | .outside, .accepted => some .idle
  | .idle, .said r => if r = .ok then some .idle else if r = .bye ∨ r.isErr then some .told else none
  | .idle, .forked pid => some (.busy pid)
  | .busy pid, .reaped q st => if q = pid then some (.ended st) else none
  | .ended st, .said r => if r = .status (waitStatusCode st) then some .told else none
  -- the client had closed its end before
  | .ended _, .closed => some .gone
  | .told, .closed => some .gone
  | _, _ => none

/-- The lines among what happens to a connection. -/
def Deed.line : Deed → Option Reply
  | .said r => some r
  | _ => none

private theorem next_idle (r : Reply) :
    Phase.next .idle (.said r) =
      if r = .ok then some .idle else if r = .bye ∨ r.isErr then some .told else none := rfl

private theorem next_busy (pid q : Pid) (st : Status) :
    Phase.next (.busy pid) (.reaped q st) = if q = pid then some (.ended st) else none := rfl

private theorem next_ended (st : Status) (r : Reply) :
    Phase.next (.ended st) (.said r) = if r = .status (waitStatusCode st) then some .told else none := rfl

theorem next_reaped (pid : Pid) (st : Status) : Phase.next (.busy pid) (.reaped pid st) = some (.ended st) := if_pos rfl

private theorem next_status (st : Status) : Phase.next (.ended st) (.said (.status (waitStatusCode st))) = some .told :=
  if_pos rfl

private theorem next_last {r : Reply} (hr : r = .bye ∨ r.isErr) : Phase.next .idle (.said r) = some .told := by
  rw [next_idle, if_neg, if_pos hr]
  rintro rfl
  rcases hr with h | h <;> cases h

/-- What may follow the `OK`s of a connection. -/
inductive Ending : List Deed → Phase → Prop
  | waiting : Ending [] .idle
  | last (r : Reply) (hr : r = .bye ∨ r.isErr) : Ending [.said r] .told
  | dismissed (r : Reply) (hr : r = .bye ∨ r.isErr) : Ending [.said r, .closed] .gone
  | running (pid : Pid) : Ending [.forked pid] (.busy pid)
  | ended (pid : Pid) (st : Status) : Ending [.forked pid, .reaped pid st] (.ended st)
  | answered (pid : Pid) (st : Status) :
      Ending [.forked pid, .reaped pid st, .said (.status (waitStatusCode st))] .told
  | served (pid : Pid) (st : Status) :
      Ending [.forked pid, .reaped pid st, .said (.status (waitStatusCode st)), .closed] .gone
  | buried (pid : Pid) (st : Status) : Ending [.forked pid, .reaped pid st, .closed] .gone

variable {deeds : List Deed} {ph : Phase}

private theorem exec_cons {σ α : Type*} {step : σ → α → Option σ} {s t : σ} {a : α} {as : List α}
    (h : exec step s (a :: as) = some t) : ∃ u, step s a = some u ∧ exec step u as = some t := by
  rw [exec] at h
  split at h
  · cases h
  · rename_i u hu
    exact ⟨u, hu, h⟩

theorem exec_cons_eq {σ α : Type*} {step : σ → α → Option σ} {s u : σ} {a : α} (h : step s a = some u) (as : List α) :
    exec step s (a :: as) = exec step u as := by
  rw [exec, h]

private theorem exec_gone (h : exec Phase.next .gone deeds = some ph) : deeds = [] ∧ ph = .gone := by
  cases deeds with
  | nil =>
    cases h
    exact ⟨rfl, rfl⟩
  | cons deed deeds =>
    obtain ⟨u, hu, -⟩ := exec_cons h
    cases hu

private theorem exec_told (h : exec Phase.next .told deeds = some ph) :
    deeds = [] ∧ ph = .told ∨ deeds = [.closed] ∧ ph = .gone := by
  cases deeds with
  | nil =>
    cases h
    exact .inl ⟨rfl, rfl⟩
  | cons deed deeds =>
    obtain ⟨u, hu, hrest⟩ := exec_cons h
    cases deed <;> cases hu
    obtain ⟨rfl, rfl⟩ := exec_gone hrest
    exact .inr ⟨rfl, rfl⟩

private theorem exec_ended {st : Status} (h : exec Phase.next (.ended st) deeds = some ph) (pid : Pid) :
    Ending (.forked pid :: .reaped pid st :: deeds) ph := by
  cases deeds with
  | nil =>
    cases h
    exact .ended pid st
  | cons deed deeds =>
    obtain ⟨u, hu, hrest⟩ := exec_cons h
    cases deed with
    | said r =>
      rw [next_ended, Option.ite_none_right_eq_some] at hu
      obtain ⟨rfl, hu⟩ := hu
      cases hu
      obtain ⟨rfl, rfl⟩ | ⟨rfl, rfl⟩ := exec_told hrest
      · exact .answered pid st
      · exact .served pid st
    | closed =>
      cases hu
      obtain ⟨rfl, rfl⟩ := exec_gone hrest
      exact .buried pid st
    | _ => cases hu

private theorem exec_busy {pid : Pid} (h : exec Phase.next (.busy pid) deeds = some ph) :
    Ending (.forked pid :: deeds) ph := by
  cases deeds with
  | nil =>
    cases h
    exact .running pid
  | cons deed deeds =>
    obtain ⟨u, hu, hrest⟩ := exec_cons h
    cases deed with
    | reaped q st =>
      rw [next_busy, Option.ite_none_right_eq_some] at hu
      obtain ⟨rfl, hu⟩ := hu
      cases hu
      exact exec_ended hrest q
    | _ => cases hu

private theorem exec_idle_cases (h : exec Phase.next .idle deeds = some ph) :
    ∃ n rest, deeds = List.replicate n (.said .ok) ++ rest ∧ Ending rest ph := by
  induction deeds with
  | nil =>
    cases h
    exact ⟨0, [], rfl, .waiting⟩
  | cons deed deeds ih =>
    obtain ⟨u, hu, hrest⟩ := exec_cons h
    have hlast : ∀ r, (r = .bye ∨ r.isErr) → u = .told → Ending (.said r :: deeds) ph := by
      rintro r hr rfl
      obtain ⟨rfl, rfl⟩ | ⟨rfl, rfl⟩ := exec_told hrest
      · exact .last r hr
      · exact .dismissed r hr
    cases deed with
    | said r =>
      rw [next_idle] at hu
      split at hu
      · rename_i hok
        subst hok
        cases hu
        obtain ⟨n, rest, rfl, hend⟩ := ih hrest
        exact ⟨n + 1, rest, rfl, hend⟩
      · obtain ⟨hr, hu⟩ := Option.ite_none_right_eq_some.1 hu
        exact ⟨0, _, rfl, hlast r hr (Option.some.inj hu).symm⟩
    | forked pid =>
      cases hu
      exact ⟨0, _, rfl, exec_busy hrest⟩
    | _ => cases hu

/-- The service of a connection: it is accepted, answered with any number of `OK`s, and then it ends. -/
theorem service_cases (h : exec Phase.next .outside deeds = some ph) :
    deeds = [] ∧ ph = .outside ∨
      ∃ n rest, deeds = .accepted :: (List.replicate n (.said .ok) ++ rest) ∧ Ending rest ph := by
  cases deeds with
  | nil =>
    cases h
    exact .inl ⟨rfl, rfl⟩
  | cons deed deeds =>
    obtain ⟨u, hu, hrest⟩ := exec_cons h
    cases deed <;> cases hu
    obtain ⟨n, rest, rfl, hend⟩ := exec_idle_cases hrest
    exact .inr ⟨n, rest, rfl, hend⟩

/-! ### The story of a connection -/

/-- What an event is for the connection `k`. -/
def Event.deed (k : ConnId) : Event → Option Deed
  | .reply dst r => if dst = some (.conn k) then some (.said r) else none
  | .opened _ file => if file = .conn k then some .accepted else none
  | .closed _ file => if file = some (.conn k) then some .closed else none
  | .fork pid owner _ _ _ _ => if owner = some (.conn k) then some (.forked pid) else none
  | .reap pid kid st => if kid.owner = some (.conn k) then some (.reaped pid st) else none
  | .kill _ _ => none

/-- What has happened to the connection `k`, in order. -/
def Sys.story (s : Sys) (k : ConnId) : List Deed := (s.log.filterMap (Event.deed k)).reverse

/-- The lines that a connection has been told. -/
def Sys.replies (s : Sys) (k : ConnId) : List Reply := (s.story k).filterMap Deed.line

variable {boot : Boot} {alloc : Nat → Bool} {s t : Sys} {a : Act} {k : ConnId} {i : Nat} {c : DaemonClient}

private theorem story_of_log (h : t.log = s.log) : t.story k = s.story k := by
  unfold Sys.story
  rw [h]

/-- What is logged comes last in the story. -/
theorem story_of_append (es : List Event) (h : t.log = es ++ s.log) :
    t.story k = s.story k ++ es.reverse.filterMap (Event.deed k) := by
  unfold Sys.story
  rw [h, List.filterMap_append, List.reverse_append, List.filterMap_reverse]

theorem mem_replies {reply : Reply} : reply ∈ s.replies k ↔ .reply (some (.conn k)) reply ∈ s.log := by
  simp only [Sys.replies, Sys.story, List.mem_filterMap, List.mem_reverse]
  constructor
  · rintro ⟨deed, ⟨e, he, hdeed⟩, hline⟩
    cases deed <;> cases hline
    cases e with
    | reply dst r =>
      obtain ⟨rfl, hr⟩ := Option.ite_none_right_eq_some.1 hdeed
      cases hr
      exact he
    | kill => cases hdeed
    | _ =>
      obtain ⟨-, hr⟩ := Option.ite_none_right_eq_some.1 hdeed
      cases hr
  · exact fun h => ⟨.said reply, ⟨_, h, if_pos rfl⟩, rfl⟩

private theorem story_openAll {new : List (Fd × File)} (h : ∀ x ∈ new, x.2 ≠ .conn k) :
    (s.openAll new).story k = s.story k := by
  induction new generalizing s with
  | nil => rfl
  | cons x new ih =>
    rw [openAll_cons, ih fun y hy => h y (List.mem_cons_of_mem _ hy),
      story_of_append (s := s) [.opened x.1 x.2] rfl]
    simp [Event.deed, h x (List.mem_cons_self ..)]

private theorem story_closeAll (fds : List Fd) (h : ∀ fd ∈ fds, s.fdt fd ≠ some (.conn k)) :
    (s.closeAll fds).story k = s.story k := by
  induction fds generalizing s with
  | nil => rfl
  | cons fd fds ih =>
    rw [closeAll_cons, ih, story_of_append (s := s) [.closed fd (s.fdt fd)] rfl]
    · simp [Event.deed, h fd (List.mem_cons_self ..)]
    · intro x hx hk
      exact h x (List.mem_cons_of_mem _ hx) (update_none_eq_some hk)

/-! ### Where a connection stands -/

/-- The connection is in the backlog, or yet to be made. -/
def Sys.Outside (s : Sys) (k : ConnId) : Prop := k ∈ s.backlog ∨ s.conns.length ≤ k

/-- The client has closed its end of the connection `k`. -/
def Sys.Closed (s : Sys) (k : ConnId) : Prop := ∃ conn, s.conns[k]? = some conn ∧ conn.closed

/-- The entry of the connection has the child `pid`, or none. -/
def Sys.Holds (s : Sys) (k : ConnId) (pid : Option Pid) : Prop :=
  ∃ c ∈ s.clients, s.fdt c.fd = some (.conn k) ∧ c.pid = pid

/-- The phase of a connection in the state of the daemon. -/
def Sys.Stands (s : Sys) (k : ConnId) : Phase → Prop
  | .outside => s.Outside k
  | .idle => s.Holds k none
  | .busy pid => s.Holds k (some pid)
  | .ended _ => False
  | .told => s.pc.stopping ∧ s.Holds k none
  | .gone => ¬s.Outside k ∧ ∀ fd, s.fdt fd ≠ some (.conn k)

/-- What happens to the connection leads the service on, and its entry along. -/
def Sys.Serves (s t : Sys) (k : ConnId) (ph : Phase) : Prop :=
  ∃ deeds ph', t.story k = s.story k ++ deeds ∧ exec Phase.next ph deeds = some ph' ∧ t.Stands k ph'

/-- A step that does nothing about the connection `k`. -/
structure Sys.Spares (s t : Sys) (k : ConnId) : Prop where
  story : t.story k = s.story k
  outside : t.Outside k ↔ s.Outside k
  files : ∀ fd, t.fdt fd = some (.conn k) ↔ s.fdt fd = some (.conn k)
  entries : ∀ c ∈ s.clients, s.fdt c.fd = some (.conn k) → ∃ c' ∈ t.clients, c'.fd = c.fd ∧ c'.pid = c.pid
  stopping : s.pc.stopping → t.pc.stopping

theorem Sys.Spares.holds (h : s.Spares t k) {pid : Option Pid} (hh : s.Holds k pid) : t.Holds k pid := by
  obtain ⟨c, hc, hk, hpid⟩ := hh
  obtain ⟨c', hc', hfd, hpid'⟩ := h.entries c hc hk
  exact ⟨c', hc', hfd ▸ (h.files c.fd).2 hk, hpid'.trans hpid⟩

theorem Sys.Spares.serves (h : s.Spares t k) (hs : s.Stands k ph) : s.Serves t k ph := by
  refine ⟨[], ph, by rw [h.story, List.append_nil], rfl, ?_⟩
  cases ph with
  | outside => exact h.outside.2 hs
  | idle => exact h.holds hs
  | busy pid => exact h.holds hs
  | ended st => exact hs
  | told => exact ⟨h.stopping hs.1, h.holds hs.2⟩
  | gone => exact ⟨fun hout => hs.1 (h.outside.1 hout), fun fd hfd => hs.2 fd ((h.files fd).1 hfd)⟩

/-- Only the place in the code changes. -/
theorem spares_goto {pc : Pc} (hpc : s.pc.stopping → pc.stopping) : s.Spares (s.goto pc) k :=
  ⟨rfl, Iff.rfl, fun _ => Iff.rfl, fun c hc _ => ⟨c, hc, rfl, rfl⟩, hpc⟩

/-- An entry changes and keeps its connection and its child. -/
theorem spares_set (hc : s.clients[i]? = some c) (c' : DaemonClient) (hfd : c'.fd = c.fd) (hpid : c'.pid = c.pid)
    (hstory : t.story k = s.story k) (hclients : t.clients = s.clients.set i c')
    (hconns : t.conns.length = s.conns.length) (hbacklog : t.backlog = s.backlog)
    (hfiles : ∀ fd, t.fdt fd = some (.conn k) ↔ s.fdt fd = some (.conn k)) (hstop : s.pc.stopping = false) :
    s.Spares t k := by
  refine ⟨hstory, by rw [Sys.Outside, Sys.Outside, hconns, hbacklog], hfiles, fun x hx _ => ?_, ?_⟩
  · obtain ⟨j, hj⟩ := List.mem_iff_getElem?.1 hx
    by_cases hji : j = i
    · subst hji
      obtain rfl : c = x := Option.some.inj (hc.symm.trans hj)
      exact ⟨c', hclients ▸ List.mem_of_getElem? (getElem?_set_of_get hc c'), hfd, hpid⟩
    · refine ⟨x, hclients ▸ List.mem_of_getElem? (i := j) ?_, rfl, rfl⟩
      rw [List.getElem?_set_ne (Ne.symm hji), hj]
  · rw [hstop]
    nofun

/-- The entry of another connection changes or goes. -/
theorem spares_other (hk : s.fdt c.fd ≠ some (.conn k)) (hstory : t.story k = s.story k)
    (hclients : ∀ x ∈ s.clients, x ≠ c → x ∈ t.clients) (hconns : t.conns = s.conns)
    (hbacklog : t.backlog = s.backlog) (hfiles : ∀ fd, t.fdt fd = some (.conn k) ↔ s.fdt fd = some (.conn k))
    (hstop : s.pc.stopping → t.pc.stopping) : s.Spares t k := by
  refine ⟨hstory, by rw [Sys.Outside, Sys.Outside, hconns, hbacklog], hfiles, fun x hx hxk => ?_, hstop⟩
  refine ⟨x, hclients x hx ?_, rfl, rfl⟩
  rintro rfl
  exact hk hxk

private theorem mem_eraseIdx_of_ne (hc : s.clients[i]? = some c) {x : DaemonClient} (hx : x ∈ s.clients) (hne : x ≠ c) :
    x ∈ s.clients.eraseIdx i := by
  obtain ⟨j, hj⟩ := List.mem_iff_getElem?.1 hx
  refine List.mem_eraseIdx_iff_getElem?.2 ⟨j, ?_, hj⟩
  rintro rfl
  exact hne (Option.some.inj (hj.symm.trans hc))

private theorem mem_set_of_ne (hc : s.clients[i]? = some c) {x : DaemonClient} (c' : DaemonClient) (hx : x ∈ s.clients)
    (hne : x ≠ c) : x ∈ s.clients.set i c' := by
  obtain ⟨j, hj⟩ := List.mem_iff_getElem?.1 hx
  refine List.mem_of_getElem? (i := j) ?_
  rw [List.getElem?_set_ne, hj]
  rintro rfl
  exact hne (Option.some.inj (hj.symm.trans hc))

/-! ### The phase of the entry at hand -/

/-- A connection has one entry. -/
theorem Sys.Owned.entry_eq (ho : s.Owned boot) (hc : s.clients[i]? = some c) (hk : s.fdt c.fd = some (.conn k))
    {x : DaemonClient} (hx : x ∈ s.clients) (hxk : s.fdt x.fd = some (.conn k)) : x = c := by
  by_contra hne
  exact ho.fd_ne hc (mem_eraseIdx_of_ne hc hx hne) (ho.inj _ _ _ hxk hk)

theorem Sys.Owned.not_outside (ho : s.Owned boot) {fd : Fd} (hk : s.fdt fd = some (.conn k)) : ¬s.Outside k := by
  rintro (hmem | hlen)
  · exact ho.backlog_new k hmem fd hk
  · exact Nat.not_lt.2 hlen (ho.bound fd k hk)

private theorem Sys.Stands.of_entry (h : s.Stands k ph) (ho : s.Owned boot) (hc : s.clients[i]? = some c)
    (hk : s.fdt c.fd = some (.conn k)) :
    (ph = .idle ∨ s.pc.stopping ∧ ph = .told) ∧ c.pid = none ∨ ∃ pid, ph = .busy pid ∧ c.pid = some pid := by
  cases ph with
  | outside => exact absurd h (ho.not_outside hk)
  | idle =>
    obtain ⟨x, hx, hxk, hpid⟩ := h
    exact .inl ⟨.inl rfl, ho.entry_eq hc hk hx hxk ▸ hpid⟩
  | busy pid =>
    obtain ⟨x, hx, hxk, hpid⟩ := h
    exact .inr ⟨pid, rfl, ho.entry_eq hc hk hx hxk ▸ hpid⟩
  | ended st => exact h.elim
  | told =>
    obtain ⟨hstop, x, hx, hxk, hpid⟩ := h
    exact .inl ⟨.inr ⟨hstop, rfl⟩, ho.entry_eq hc hk hx hxk ▸ hpid⟩
  | gone => exact absurd hk (h.2 c.fd)

private theorem Sys.Stands.idle_of (h : s.Stands k ph) (ho : s.Owned boot) (hc : s.clients[i]? = some c)
    (hk : s.fdt c.fd = some (.conn k)) (hpid : c.pid = none) (hstop : s.pc.stopping = false) : ph = .idle := by
  rcases h.of_entry ho hc hk with ⟨hph | ⟨hpc, -⟩, -⟩ | ⟨pid, -, hbusy⟩
  · exact hph
  · rw [hstop] at hpc
    cases hpc
  · rw [hpid] at hbusy
    cases hbusy

private theorem Sys.Stands.busy_of {pid : Pid} (h : s.Stands k ph) (ho : s.Owned boot) (hc : s.clients[i]? = some c)
    (hk : s.fdt c.fd = some (.conn k)) (hpid : c.pid = some pid) : ph = .busy pid := by
  rcases h.of_entry ho hc hk with ⟨-, hnone⟩ | ⟨q, hph, hbusy⟩
  · rw [hpid] at hnone
    cases hnone
  · rw [hpid, Option.some.injEq] at hbusy
    rw [hph, hbusy]

private theorem Sys.Stands.outside_of (h : s.Stands k ph) (ho : s.Owned boot) (hout : s.Outside k) : ph = .outside := by
  have hholds : ∀ pid, ¬s.Holds k pid := fun pid ⟨c, _, hk, _⟩ => ho.not_outside hk hout
  cases ph with
  | outside => rfl
  | idle => exact absurd h (hholds _)
  | busy pid => exact absurd h (hholds _)
  | ended st => exact h.elim
  | told => exact absurd h.2 (hholds _)
  | gone => exact absurd hout h.1

/-- The entry leaves, and its connection is closed. -/
theorem stands_gone (ho : s.Owned boot) (hk : s.fdt c.fd = some (.conn k)) (hfdt : t.fdt = update s.fdt c.fd none)
    (hconns : t.conns = s.conns) (hbacklog : t.backlog = s.backlog) : t.Stands k .gone := by
  refine ⟨?_, fun fd hfd => ?_⟩
  · rw [Sys.Outside, hconns, hbacklog]
    exact ho.not_outside hk
  · rw [hfdt] at hfd
    have hne : fd ≠ c.fd := by
      rintro rfl
      rw [update_self] at hfd
      cases hfd
    exact hne (ho.inj _ _ _ (update_none_eq_some hfd) hk)

private theorem files_of_leave (hk : s.fdt c.fd ≠ some (.conn k)) (fd : Fd) :
    update s.fdt c.fd none fd = some (.conn k) ↔ s.fdt fd = some (.conn k) := by
  refine ⟨update_none_eq_some, fun hfd => ?_⟩
  rwa [update_of_ne]
  rintro rfl
  exact hk hfd

/-! ### One step -/

variable {pfds : List PollFd} {r : Reader} {ans : Answer}

private theorem visit_serves (ho : s.Owned boot) (hp : s.Parented) (hs : s.Stands k ph) (hpc : s.pc.stopping = false)
    (h : s.visit pfds i ans = some t) : s.Serves t k ph := by
  rcases visit_cases h with ⟨-, -, rfl⟩ | ⟨p, c, -, hc, ⟨-, -, rfl⟩ | ⟨-, -, -, rfl⟩ | ⟨pid, st, -, -, hpid, -, rfl⟩⟩
  · exact (spares_goto (by simp [hpc])).serves hs
  · exact (spares_goto (by simp [hpc])).serves hs
  · exact (spares_goto (by simp [hpc])).serves hs
  · obtain ⟨kid, hkid, howner⟩ := hp.owner c (List.mem_of_getElem? hc) pid hpid
    rw [killChild_of_some hkid]
    have hstory := story_of_append (k := k) (s := s)
      (t := (((s.signalled pid kid).reaped pid kid (kid.status.getD st)).leave i c.fd).goto (.pass pfds i))
      [.closed c.fd (s.fdt c.fd), .reap pid kid (kid.status.getD st), .kill pid (some kid)] rfl
    by_cases hk : s.fdt c.fd = some (.conn k)
    · obtain rfl := hs.busy_of ho hc hk hpid
      refine ⟨[.reaped pid (kid.status.getD st), .closed], .gone, ?_, ?_, stands_gone ho hk rfl rfl rfl⟩
      · rw [hstory]
        simp [List.filterMap_cons, Event.deed, howner, hk]
      · rw [exec_cons_eq (next_reaped ..)]
        rfl
    · refine Sys.Spares.serves ?_ hs
      refine spares_other hk ?_ (fun x hx hne => mem_eraseIdx_of_ne hc hx hne) rfl rfl (files_of_leave hk) ?_
      · rw [hstory]
        simp [List.filterMap_cons, Event.deed, howner, hk]
      · rw [hpc]
        nofun

/-- The entry at hand is told its last line and leaves. -/
theorem dismiss_serves (ho : s.Owned boot) (hs : s.Stands k ph) (hpc : s.pc.stopping = false)
    (hc : s.clients[i]? = some c) (hidle : c.pid = none) {reply : Reply} (hreply : reply.isErr) (pc : Pc) :
    s.Serves ((s.dismiss i c.fd reply).goto pc) k ph := by
  have hstory := story_of_append (k := k) (s := s) (t := (s.dismiss i c.fd reply).goto pc)
    [.closed c.fd (s.fdt c.fd), .reply (s.fdt c.fd) reply] rfl
  by_cases hk : s.fdt c.fd = some (.conn k)
  · obtain rfl := hs.idle_of ho hc hk hidle hpc
    refine ⟨[.said reply, .closed], .gone, ?_, ?_, stands_gone ho hk rfl rfl rfl⟩
    · rw [hstory]
      simp [Event.deed, hk]
    · rw [exec_cons_eq (next_last (.inr hreply))]
      rfl
  · refine Sys.Spares.serves ?_ hs
    refine spares_other hk ?_ (fun x hx hne => mem_eraseIdx_of_ne hc hx hne) rfl rfl (files_of_leave hk) ?_
    · rw [hstory]
      simp [Event.deed, hk]
    · rw [hpc]
      nofun

theorem mem_zip_passed {fds : List Fd} {files : List FileId} {x : Fd × File}
    (hx : x ∈ fds.zip (files.map File.passed)) : x.1 ∈ fds ∧ ∃ d, x.2 = .passed d := by
  obtain ⟨hfst, hsnd⟩ := List.of_mem_zip (a := x.1) (b := x.2) hx
  obtain ⟨d, -, hd⟩ := List.mem_map.1 hsnd
  exact ⟨hfst, d, hd.symm⟩

/-- A child is forked for the entry at hand, and the descriptors that it was given are closed. -/
theorem fork_serves (ho : s.Owned boot) (hs : s.Stands k ph) (hpc : s.pc.stopping = false)
    (hc : s.clients[i]? = some c) (hidle : c.pid = none) (fields : List Bytes) (buf : Bytes) (pid : Pid) (pc : Pc) :
    s.Serves (((s.setClient i { c with buf := buf }).fork i { c with buf := buf } fields pid).goto pc) k ph := by
  have hpassed : ∀ fd ∈ c.fds, ∀ j, s.fdt fd ≠ some (.conn j) := by
    intro fd hfd j hj
    obtain ⟨d, hd⟩ := ho.stdio c (List.mem_of_getElem? hc) fd hfd
    rw [hd] at hj
    cases hj
  have hstory : (((s.setClient i { c with buf := buf }).fork i { c with buf := buf } fields pid).goto pc).story k =
      s.story k ++ [Event.fork pid (s.fdt c.fd) c.fds c.fd fields.length s.fdt].filterMap (Event.deed k) := by
    have hclosed := story_closeAll (k := k) (s := { s.setClient i { c with buf := buf } with
      kids := update s.kids pid (some { owner := s.fdt c.fd })
      log := .fork pid (s.fdt c.fd) c.fds c.fd fields.length s.fdt :: s.log }) c.fds fun fd hfd => hpassed fd hfd k
    refine Eq.trans hclosed ?_
    exact story_of_append (s := s) [.fork pid (s.fdt c.fd) c.fds c.fd fields.length s.fdt] rfl
  have hfiles : ∀ fd j, closeAll s.fdt c.fds fd = some (.conn j) ↔ s.fdt fd = some (.conn j) := by
    refine fun fd j => ⟨closeAll_eq_some, fun hfd => ?_⟩
    rw [closeAll_of_not_mem fun hmem => hpassed fd hmem j hfd, hfd]
  have hfdt : (((s.setClient i { c with buf := buf }).fork i { c with buf := buf } fields pid).goto pc).fdt =
      closeAll s.fdt c.fds := fork_fdt (s.setClient i _) i _ fields pid
  have hclients : (((s.setClient i { c with buf := buf }).fork i { c with buf := buf } fields pid).goto pc).clients =
      s.clients.set i { c with buf := buf, fds := [], pid := some pid } := by
    simp only [goto_clients, fork_clients, setClient_clients, List.set_set]
  by_cases hk : s.fdt c.fd = some (.conn k)
  · obtain rfl := hs.idle_of ho hc hk hidle hpc
    refine ⟨[.forked pid], .busy pid, ?_, rfl, { c with buf := buf, fds := [], pid := some pid }, ?_, ?_, rfl⟩
    · rw [hstory]
      simp [Event.deed, hk]
    · rw [hclients]
      exact List.mem_of_getElem? (getElem?_set_of_get hc _)
    · rw [hfdt]
      exact (hfiles _ _).2 hk
  · refine Sys.Spares.serves ?_ hs
    refine spares_other hk ?_ (fun x hx hne => ?_) (fork_conns (s.setClient i _) i _ fields pid)
      (fork_backlog (s.setClient i _) i _ fields pid) (fun fd => ?_) ?_
    · rw [hstory]
      simp [Event.deed, hk]
    · rw [hclients]
      exact mem_set_of_ne hc _ hx hne
    · rw [hfdt]
      exact hfiles fd k
    · rw [hpc]
      nofun

private theorem dispatch_serves (ho : s.Owned boot) (hs : s.Stands k ph) (hpc : s.pc.stopping = false)
    (hc : s.clients[i]? = some c) (hidle : c.pid = none) {op : Str} {fields : List Bytes} {buf : Bytes}
    (h : s.dispatch pfds i { c with buf := buf } op fields ans = some t) : s.Serves t k ph := by
  -- PING and STOP answer and keep the entry
  have hanswer : ∀ reply pc ph', exec Phase.next .idle [.said reply] = some ph' →
      (ph' = .idle ∨ pc.stopping ∧ ph' = .told) →
      s.Serves (((s.setClient i { c with buf := buf }).respond c.fd reply).goto pc) k ph := by
    intro reply pc ph' hexec hph'
    have hstory := story_of_append (k := k) (s := s)
      (t := ((s.setClient i { c with buf := buf }).respond c.fd reply).goto pc) [.reply (s.fdt c.fd) reply] rfl
    by_cases hk : s.fdt c.fd = some (.conn k)
    · obtain rfl := hs.idle_of ho hc hk hidle hpc
      have hholds : (((s.setClient i { c with buf := buf }).respond c.fd reply).goto pc).Holds k none :=
        ⟨{ c with buf := buf }, List.mem_of_getElem? (getElem?_set_of_get hc _), hk, hidle⟩
      refine ⟨[.said reply], ph', ?_, hexec, ?_⟩
      · rw [hstory]
        simp [Event.deed, hk]
      · rcases hph' with rfl | ⟨hstop, rfl⟩
        · exact hholds
        · exact ⟨hstop, hholds⟩
    · refine Sys.Spares.serves ?_ hs
      refine spares_other hk ?_ (fun x hx hne => mem_set_of_ne hc _ hx hne) rfl rfl (fun _ => Iff.rfl) ?_
      · rw [hstory]
        simp [Event.deed, hk]
      · rw [hpc]
        nofun
  rcases dispatch_cases h with ⟨-, -, rfl⟩ | ⟨-, -, rfl⟩ | ⟨reply, hreply, rfl⟩ | ⟨pid, -, -, -, rfl⟩
  · exact hanswer .ok _ .idle rfl (.inl rfl)
  · exact hanswer .bye _ .told rfl (.inr ⟨rfl, rfl⟩)
  · refine dismiss_serves ho hs hpc hc hidle ?_ _
    rcases hreply with ⟨-, -, rfl⟩ | ⟨-, -, rfl⟩ <;> rfl
  · exact fork_serves ho hs hpc hc hidle fields buf pid _

private theorem read_serves (ho : s.Owned boot) (hs : s.Stands k ph) (hpc : s.pc.stopping = false)
    (hc : s.clients[i]? = some c) (hidle : c.pid = none) (h : s.read boot alloc pfds i r c ans = some t) :
    s.Serves t k ph := by
  cases hscan : scan alloc r c.buf with
  | done op fields buf =>
    simp only [Sys.read, hscan] at h
    exact dispatch_serves ho hs hpc hc hidle h
  | bad line buf =>
    obtain ⟨-, rfl⟩ := read_bad hscan h
    exact dismiss_serves ho hs hpc hc hidle rfl _
  | crash e =>
    obtain ⟨-, rfl⟩ := read_crash hscan h
    exact (spares_goto (by simp [hpc])).serves hs
  | fill site r' buf =>
    rcases fill_cases hscan h with ⟨rfl, -⟩ | ⟨rfl, -⟩ | ⟨-, rfl, -⟩ | ⟨k', conn, bytes, files, queue, -, -, rfl⟩ |
      ⟨fds, k', conn, bytes, files, queue, -, -, -, -, -, hfree, rfl⟩
    · refine Sys.Spares.serves ?_ hs
      exact spares_set hc { c with buf := buf, first := false } rfl rfl rfl rfl rfl rfl (fun _ => Iff.rfl) hpc
    · exact dismiss_serves ho hs hpc hc hidle rfl _
    · refine Sys.Spares.serves ?_ hs
      exact spares_set hc { c with buf := buf, first := false, fds := [] } rfl rfl rfl rfl rfl rfl
        (fun _ => Iff.rfl) hpc
    · refine Sys.Spares.serves ?_ hs
      exact spares_set hc { c with buf := buf ++ bytes } rfl rfl rfl rfl (List.length_set ..) rfl
        (fun _ => Iff.rfl) hpc
    · refine Sys.Spares.serves ?_ hs
      refine spares_set hc { c with buf := buf ++ bytes, first := false, fds := fds } rfl rfl ?_ ?_ ?_ ?_ ?_ hpc
      · refine Eq.trans (story_openAll (s := s.setQueue k' conn queue) fun x hx => ?_) (story_of_log rfl)
        obtain ⟨-, d, hd⟩ := mem_zip_passed hx
        intro hk
        cases hd.symm.trans hk
      · show (Sys.install _ fds files).clients.set i _ = _
        rw [install_clients]
        rfl
      · show (Sys.install _ fds files).conns.length = _
        rw [install_conns]
        exact List.length_set ..
      · show (Sys.openAll _ _).backlog = _
        rw [openAll_backlog]
        rfl
      · intro fd
        show (Sys.install _ fds files).fdt fd = _ ↔ _
        rw [install_fdt]
        constructor
        · intro hfd
          rcases openAll_eq_some hfd with hfd | hmem
          · exact hfd
          · obtain ⟨-, d, hd⟩ := mem_zip_passed hmem
            cases hd
        · intro hfd
          rw [openAll_of_not_mem]
          · exact hfd
          · intro hmem
            obtain ⟨x, hx, rfl⟩ := List.mem_map.1 hmem
            have hnone := (hfree x.1 (mem_zip_passed hx).1).1
            rw [hfd] at hnone
            cases hnone

/-- The entry of a child that has been reaped is told its status. -/
theorem status_serves (ho : s.Owned boot) (hp : s.Parented) (hs : s.Stands k ph) (hpc : s.pc.stopping = false)
    (hc : s.clients[i]? = some c) {pid : Pid} (hpid : c.pid = some pid) {kid : Kid} (hkid : s.kids pid = some kid)
    (status : Status) :
    s.Serves ((s.reaped pid kid status).dismiss i c.fd (.status (waitStatusCode status))) k ph := by
  obtain ⟨kid', hkid', howner⟩ := hp.owner c (List.mem_of_getElem? hc) pid hpid
  obtain rfl : kid' = kid := Option.some.inj (hkid'.symm.trans hkid)
  have hstory := story_of_append (k := k) (s := s)
    (t := (s.reaped pid kid' status).dismiss i c.fd (.status (waitStatusCode status)))
    [.closed c.fd (s.fdt c.fd), .reply (s.fdt c.fd) (.status (waitStatusCode status)),
      .reap pid kid' status] rfl
  by_cases hk : s.fdt c.fd = some (.conn k)
  · obtain rfl := hs.busy_of ho hc hk hpid
    refine ⟨[.reaped pid status, .said (.status (waitStatusCode status)), .closed], .gone, ?_, ?_,
      stands_gone ho hk rfl rfl rfl⟩
    · rw [hstory]
      simp [Event.deed, howner, hk]
    · rw [exec_cons_eq (next_reaped ..), exec_cons_eq (next_status _)]
      rfl
  · refine Sys.Spares.serves ?_ hs
    refine spares_other hk ?_ (fun x hx hne => mem_eraseIdx_of_ne hc hx hne) rfl rfl (files_of_leave hk) ?_
    · rw [hstory]
      simp [Event.deed, howner, hk]
    · rw [hpc]
      nofun

theorem reapChild_serves (ho : s.Owned boot) (hp : s.Parented) (hs : s.Stands k ph) (hpc : s.pc.stopping = false)
    (h : s.reapChild i ans = some t) : s.Serves t k ph := by
  obtain ⟨-, rfl | rfl | ⟨c, pid, hc, hpid, ⟨kid, status, hkid, rfl⟩ | ⟨hnone, -⟩⟩⟩ := reapChild_cases h
  · exact (spares_goto (by simp [hpc])).serves hs
  · exact (spares_goto (by simp [hpc])).serves hs
  · exact status_serves ho hp hs hpc hc hpid hkid status
  · obtain ⟨kid, hkid, -⟩ := hp.owner c (List.mem_of_getElem? hc) pid hpid
    rw [hnone] at hkid
    cases hkid

/-- In `daemon_shutdown` a child is killed and its client told, but its connection stays open. -/
theorem takeDown_serves (ho : s.Owned boot) (hp : s.Parented) (hs : s.Stands k ph) (hc : s.clients[i]? = some c)
    {pid : Pid} (hpid : c.pid = some pid) (st : Status) : s.Serves (s.takeDown i c pid st) k ph := by
  obtain ⟨kid, hkid, howner⟩ := hp.owner c (List.mem_of_getElem? hc) pid hpid
  have hstory := story_of_append (k := k) (s := s) (t := s.takeDown i c pid st)
    [.reply (s.fdt c.fd) (.status (waitStatusCode (kid.status.getD st))),
      .reap pid kid (kid.status.getD st), .kill pid (some kid)] (by rw [takeDown_of_some s i c st hkid]; rfl)
  by_cases hk : s.fdt c.fd = some (.conn k)
  · obtain rfl := hs.busy_of ho hc hk hpid
    refine ⟨[.reaped pid (kid.status.getD st), .said (.status (waitStatusCode (kid.status.getD st)))], .told, ?_, ?_,
      ?_, { c with pid := none }, ?_, ?_, rfl⟩
    · rw [hstory]
      simp [List.filterMap_cons, Event.deed, howner, hk]
    · rw [exec_cons_eq (next_reaped ..), exec_cons_eq (next_status _)]
      rfl
    · rw [takeDown_pc]
      rfl
    · rw [takeDown_clients]
      exact List.mem_of_getElem? (getElem?_set_of_get hc _)
    · rw [takeDown_fdt]
      exact hk
  · refine Sys.Spares.serves ?_ hs
    refine spares_other hk ?_ (fun x hx hne => ?_) (takeDown_conns ..) (takeDown_backlog ..) (fun fd => ?_) fun _ => ?_
    · rw [hstory]
      simp [List.filterMap_cons, Event.deed, howner, hk]
    · rw [takeDown_clients]
      exact mem_set_of_ne hc _ hx hne
    · rw [takeDown_fdt]
    · rw [takeDown_pc]
      rfl

private theorem shutdownChild_serves (ho : s.Owned boot) (hp : s.Parented) (hs : s.Stands k ph)
    (h : s.shutdownChild i ans = some t) : s.Serves t k ph := by
  have hstop : ∀ pc : Pc, pc.stopping → s.Serves (s.goto pc) k ph := fun _ h => (spares_goto fun _ => h).serves hs
  unfold Sys.shutdownChild at h
  split at h
  · obtain ⟨-, ht⟩ := Option.ite_none_right_eq_some.1 h
    cases ht
    exact hstop _ rfl
  · rename_i c hc
    split at h
    · obtain ⟨-, ht⟩ := Option.ite_none_right_eq_some.1 h
      cases ht
      exact hstop _ rfl
    · rename_i pid hpid
      split at h
      · rename_i st
        have ht : t = s.takeDown i c pid st := by
          unfold Sys.takeDown
          dsimp only at h
          split at h <;> cases h <;> simp_all
        rw [ht]
        exact takeDown_serves ho hp hs hc hpid st
      · cases h

private theorem accept_serves (ho : s.Owned boot) (hs : s.Stands k ph) (hpc : s.pc.stopping = false)
    (h : s.accept boot pfds ans = some t) : s.Serves t k ph := by
  rcases accept_cases h with ⟨fd, k', rest, -, hb, hfree, rfl⟩ | ⟨-, rfl⟩ | ⟨-, rfl⟩
  · have hstory := story_of_append (k := k) (s := s) (t := s.welcome fd k' rest) [.opened fd (.conn k')] rfl
    have hnd := ho.backlog_nodup
    rw [hb, List.nodup_cons] at hnd
    by_cases hk : k' = k
    · subst hk
      have hout : s.Outside k' := .inl (by rw [hb]; exact List.mem_cons_self ..)
      obtain rfl := hs.outside_of ho hout
      refine ⟨[.accepted], .idle, ?_, rfl, { fd := fd }, ?_, update_self .., rfl⟩
      · rw [hstory]
        simp [Event.deed]
      · exact List.mem_append_right _ (List.mem_singleton.2 rfl)
    · refine Sys.Spares.serves ⟨?_, ?_, fun x => ?_, fun c hc _ => ⟨c, List.mem_append_left _ hc, rfl, rfl⟩, ?_⟩ hs
      · rw [hstory]
        simp [Event.deed, hk]
      · show k ∈ rest ∨ s.conns.length ≤ k ↔ k ∈ s.backlog ∨ _
        rw [hb, List.mem_cons]
        simp [Ne.symm hk]
      · show update s.fdt fd (some (.conn k')) x = _ ↔ _
        by_cases hx : x = fd
        · subst hx
          rw [update_self, hfree.1]
          simp [hk]
        · rw [update_of_ne hx]
      · exact id
  · exact (Sys.Spares.mk rfl Iff.rfl (fun _ => Iff.rfl) (fun c hc _ => ⟨c, hc, rfl, rfl⟩) id).serves hs
  · exact (spares_goto (by simp [hpc])).serves hs

private theorem step_serves (hr : s.ReadsWaiting) (ho : s.Owned boot) (hp : s.Parented) (hs : s.Stands k ph)
    (h : step boot alloc s a = some t) : s.Serves t k ph := by
  -- what happens outside the daemon is logged nowhere
  have hquiet : t.log = s.log → t.clients = s.clients → t.fdt = s.fdt → t.pc = s.pc → (t.Outside k ↔ s.Outside k) →
      s.Serves t k ph := by
    intro hlog hclients hfdt hpc hout
    refine Sys.Spares.serves ⟨story_of_log hlog, hout, fun fd => by rw [hfdt], fun c hc _ => ?_, ?_⟩ hs
    · exact ⟨c, hclients ▸ hc, rfl, rfl⟩
    · rw [hpc]
      exact id
  cases a with
  | connect =>
    cases h
    refine hquiet rfl rfl rfl rfl ?_
    simp only [Sys.Outside, List.mem_append, List.mem_singleton, List.length_append, List.length_singleton]
    rw [or_assoc]
    refine or_congr Iff.rfl ⟨?_, fun hle => ?_⟩
    · rintro (rfl | hlt)
      · exact Nat.le_refl _
      · exact Nat.le_of_succ_le hlt
    · exact (Nat.lt_or_eq_of_le hle).symm.imp Eq.symm id
  | signal =>
    cases h
    exact hquiet rfl rfl rfl rfl Iff.rfl
  | send j m =>
    simp only [step] at h
    split at h
    · cases h
    · split at h <;> cases h
      refine hquiet rfl rfl rfl rfl ?_
      simp only [Sys.Outside, List.length_set]
  | hangup j =>
    simp only [step] at h
    split at h <;> cases h
    refine hquiet rfl rfl rfl rfl ?_
    simp only [Sys.Outside, List.length_set]
  | exit pid status =>
    simp only [step] at h
    split at h
    · cases h
    · obtain ⟨-, ht⟩ := Option.ite_none_right_eq_some.1 h
      cases ht
      exact hquiet rfl rfl rfl rfl Iff.rfl
  | daemon ans =>
    have hd : s.daemonStep boot alloc ans = some t := h
    unfold Sys.daemonStep at hd
    rcases hpc : s.pc with _ | pfds | ⟨pfds, i⟩ | ⟨pfds, i, r⟩ | i | i | _ | _ | e <;> simp only [hpc] at hd
    · have hgoto : ∀ pc, s.Serves (s.goto pc) k ph := fun pc => (spares_goto (by simp [hpc, Pc.stopping])).serves hs
      rcases tick_cases hd with ⟨-, -, rfl⟩ | ⟨listener, revents, -, -, rfl⟩ | ⟨-, rfl⟩ | ⟨-, rfl⟩
      · exact hgoto _
      · exact hgoto _
      · exact hquiet rfl rfl rfl rfl Iff.rfl
      · exact hgoto _
    · exact accept_serves ho hs (by rw [hpc]; rfl) hd
    · exact visit_serves ho hp hs (by rw [hpc]; rfl) hd
    · obtain ⟨-, c, hc, hidle⟩ := hr pfds i r hpc
      simp only [hc] at hd
      exact read_serves ho hs (by rw [hpc]; rfl) hc hidle hd
    · exact reapChild_serves ho hp hs (by rw [hpc]; rfl) hd
    · exact shutdownChild_serves ho hp hs hd
    all_goals cases hd

/-! ### Every run -/

/-- The connection has been served so far, and its entry is as far. -/
def Sys.Serving (s : Sys) (k : ConnId) : Prop :=
  ∃ ph, exec Phase.next .outside (s.story k) = some ph ∧ s.Stands k ph

theorem serving_of_reach (h : Reach (step boot alloc) Free {} s) (k : ConnId) : s.Serving k := by
  refine h.invariant (I := fun s => s.Serving k) ?_ fun s a t hreach hi _ hstep => ?_
  · exact ⟨.outside, rfl, .inr (Nat.zero_le k)⟩
  · obtain ⟨ph, hph, hs⟩ := hi
    obtain ⟨deeds, ph', hstory, hexec, ht⟩ :=
      step_serves (readsWaiting_of_reach hreach) (owned_of_reach hreach) (parented_of_reach hreach) hs hstep
    refine ⟨ph', ?_, ht⟩
    rw [hstory, exec_append, hph]
    exact hexec

theorem replies_eq {n : Nat} {rest : List Deed}
    (h : s.story k = .accepted :: (List.replicate n (.said .ok) ++ rest)) :
    s.replies k = List.replicate n .ok ++ rest.filterMap Deed.line := by
  have hoks : (List.replicate n (Deed.said .ok)).filterMap Deed.line = List.replicate n .ok := by
    rw [List.filterMap_replicate]
    rfl
  unfold Sys.replies
  rw [h, List.filterMap_cons_none rfl, List.filterMap_append, hoks]

/-- Before the status of its child a client is told nothing but `OK`s, and nothing after it. -/
theorem replies_of_status (h : Reach (step boot alloc) Free {} s) {code : Status}
    (hmem : .status code ∈ s.replies k) : ∃ n, s.replies k = List.replicate n .ok ++ [.status code] := by
  obtain ⟨ph, hph, -⟩ := serving_of_reach h k
  rcases service_cases hph with ⟨hnil, -⟩ | ⟨n, rest, hdeeds, hend⟩
  · rw [Sys.replies, hnil] at hmem
    cases hmem
  · have hreplies := replies_eq hdeeds
    refine ⟨n, hreplies.trans (congrArg (List.replicate n Reply.ok ++ ·) ?_)⟩
    have hlast : .status code ∈ rest.filterMap Deed.line := by
      rw [hreplies] at hmem
      refine (List.mem_append.1 hmem).resolve_left fun hok => ?_
      cases (List.mem_replicate.1 hok).2
    have hnever : ∀ r : Reply, (r = .bye ∨ r.isErr) → .status code ≠ r := by
      intro r hr heq
      subst heq
      rcases hr with hr | hr <;> cases hr
    cases hend with
    | waiting | running | ended | buried => cases hlast
    | last r hr | dismissed r hr => exact absurd (List.mem_singleton.1 hlast) (hnever r hr)
    | answered pid st | served pid st => exact congrArg (fun r => [r]) (List.mem_singleton.1 hlast).symm

/-- What one connection sees of the daemon is the same whatever the daemon does for the others: it is accepted, answered
with any number of `OK`s, and then with one last line at most, which after a fork is the status of the child. -/
theorem session_served (h : Reach (step boot alloc) Free {} s) (k : ConnId) :
    s.story k = [] ∧ s.Outside k ∨
      ∃ n rest ph, s.story k = .accepted :: (List.replicate n (.said .ok) ++ rest) ∧ Ending rest ph ∧
        s.Stands k ph := by
  obtain ⟨ph, hph, hs⟩ := serving_of_reach h k
  rcases service_cases hph with ⟨hnil, rfl⟩ | ⟨n, rest, hdeeds, hend⟩
  · exact .inl ⟨hnil, hs⟩
  · exact .inr ⟨n, rest, ph, hdeeds, hend, hs⟩

/-- A client whose child has ended with status 3. -/
theorem session_served_run :
    ∃ s, Reach (step bareBoot fun _ => true) Free {} s ∧
      s.story 0 = [.accepted, .forked 50, .reaped 50 768, .said (.status 3), .closed] ∧
      ∃ n rest ph, s.story 0 = .accepted :: (List.replicate n (.said .ok) ++ rest) ∧ Ending rest ph ∧
        s.Stands 0 ph := by
  have hrun : (exec (step bareBoot fun _ => true) {}
      (oneClient "RUN 3\r\n$0\r\n$0\r\n$0\r\n" utf8_runRequest_ne_nil ++
        [.daemon (.forked 50), .exit 50 768, .daemon .go, .daemon .go])).any
      (fun s => s.story 0 = [.accepted, .forked 50, .reaped 50 768, .said (.status 3), .closed]) = true := by
    decide
  obtain ⟨s, hs, hstat⟩ := Reach.of_any hrun
  have hstory := of_decide_eq_true hstat
  refine ⟨s, hs, hstory, ?_⟩
  rcases session_served hs 0 with ⟨hnil, -⟩ | hserved
  · rw [hstory] at hnil
    cases hnil
  · exact hserved

end Calisto

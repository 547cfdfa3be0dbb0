import Calisto.Daemon.Effect

/-!
# The owners of the daemon's descriptors

Every descriptor opened since the loop began is held by one entry of `clients`, as its connection or in its `fds`, or
has been lost by a rejected one.  `Effect.covers` says what a step adds to the lost ones, and `Owned` gathers what
follows for the table of descriptors in every state of every run.
-/

namespace Calisto

open Function Handles

variable {boot : Boot} {alloc : Nat → Bool} {s t : Sys} {a : Act}

/-- The descriptors of an entry. -/
def DaemonClient.handles (c : DaemonClient) : List Fd := c.fd :: c.fds

/-- The descriptors that the entries hold. -/
def Sys.held (s : Sys) : List Fd := s.clients.flatMap DaemonClient.handles

theorem mem_held {c : DaemonClient} (hc : c ∈ s.clients) {fd : Fd} (hfd : fd ∈ c.handles) : fd ∈ s.held :=
  List.mem_flatMap.2 ⟨c, hc, hfd⟩

theorem fd_mem_held {c : DaemonClient} (hc : c ∈ s.clients) : c.fd ∈ s.held := mem_held hc (List.mem_cons_self ..)

theorem Sys.Waiting.mem {i : Nat} {c : DaemonClient} (h : s.Waiting i c) : c ∈ s.clients :=
  List.mem_of_getElem? h.get

theorem Sys.Served.mem {i : Nat} {c : DaemonClient} {pid : Pid} (h : s.Served i c pid) : c ∈ s.clients :=
  List.mem_of_getElem? h.get

/-! ### Entries -/

/-- Where an entry of `clients` after a step comes from. -/
inductive Entry (s : Sys) (a : Act) (t : Sys) : DaemonClient → Prop
  | kept {c : DaemonClient} (hc : c ∈ s.clients) : Entry s a t c
  | accepted {fd : Fd} {k : ConnId} (hk : k ∈ s.backlog) (hfd : t.fdt fd = some (.conn k)) :
      Entry s a t { fd := fd }
  | answered {c : DaemonClient} {buf : Bytes} (hc : c ∈ s.clients) (hidle : c.pid = none) (hbuf : c.buf ≠ []) :
      Entry s a t { c with buf := buf }
  | starved {ans : Answer} {c : DaemonClient} {buf : Bytes} {fds : List Fd} (ha : a = .daemon ans)
      (hc : c ∈ s.clients) (hidle : c.pid = none) (hbuf : c.buf = [] → buf = [])
      (hq : ∀ conn ∈ s.conn? c.fd, conn.queue = []) (hfds : fds = c.fds ∨ c.first ∧ fds = []) :
      Entry s a t { c with buf := buf, first := false, fds := fds }
  | received {c : DaemonClient} {buf : Bytes} {k : ConnId} {conn : Conn} {bytes : Bytes} {files : List FileId}
      {queue : List Msg} (hc : c ∈ s.clients) (hidle : c.pid = none) (hfirst : c.first = false)
      (ht : s.Takes c.fd k conn bytes files queue) :
      Entry s a t { c with buf := buf }
  | installed {c : DaemonClient} {buf : Bytes} {fds : List Fd} {k : ConnId} {conn : Conn} {bytes : Bytes}
      {files : List FileId} {queue : List Msg} (ha : a = .daemon (.received fds)) (hc : c ∈ s.clients)
      (hread : s.reader? = some c) (hidle : c.pid = none) (hfirst : c.first)
      (ht : s.Takes c.fd k conn bytes files queue)
      (hlen : fds.length ≤ files.length) (hfds : fds.map t.fdt = (files.take fds.length).map (some ∘ File.passed)) :
      Entry s a t { c with buf := buf, first := false, fds := fds }
  | forked {c : DaemonClient} {buf : Bytes} {pid : Pid} (hc : c ∈ s.clients) (hidle : c.pid = none)
      (hbuf : c.buf ≠ []) (hpid : s.kids pid = none) (hkid : t.kids pid = some { owner := s.fdt c.fd }) :
      Entry s a t { c with buf := buf, fds := [], pid := some pid }
  | takenDown {c : DaemonClient} {pid : Pid} (hc : c ∈ s.clients) (hbusy : c.pid = some pid) (hstop : t.pc.stopping) :
      Entry s a t { c with pid := none }

theorem map_openAll_zip {fds : List Fd} {files : List FileId} (hnd : fds.Nodup) (hlen : fds.length ≤ files.length)
    (tab : Fd → Option File) :
    fds.map (openAll tab (fds.zip (files.map File.passed))) =
      (files.take fds.length).map (some ∘ File.passed) := by
  have hl : fds.length ≤ (files.map File.passed).length := by simpa using hlen
  have hfst : (fds.zip (files.map File.passed)).map Prod.fst = fds := List.map_fst_zip hl
  have hsnd : (fds.zip (files.map File.passed)).map Prod.snd = (files.map File.passed).take fds.length := by
    rw [List.zip_eq_zip_take_min, Nat.min_eq_left hl]
    apply List.map_snd_zip
    rw [List.length_take, List.take_length]
    exact Nat.min_le_left _ _
  have hnd' : ((fds.zip (files.map File.passed)).map Prod.fst).Nodup := by rwa [hfst]
  calc fds.map (openAll tab (fds.zip (files.map File.passed)))
      = ((fds.zip (files.map File.passed)).map Prod.fst).map (openAll tab (fds.zip (files.map File.passed))) := by
        rw [hfst]
    _ = ((fds.zip (files.map File.passed)).map Prod.snd).map some := by
        rw [openAll_map hnd', List.map_map]
        rfl
    _ = (files.take fds.length).map (some ∘ File.passed) := by
        rw [hsnd, ← List.map_take, List.map_map]

theorem Effect.entry (he : Effect boot alloc s a t) {x : DaemonClient} (hx : x ∈ t.clients) : Entry s a t x := by
  cases he with
  | connect | send | hangup | exit | signal | quiet | passedBy | returned => exact .kept hx
  | accepted hs hb hf =>
    rcases List.mem_append.1 hx with h | h
    · exact .kept h
    · obtain rfl := List.mem_singleton.1 h
      exact .accepted (by rw [hb]; exact List.mem_cons_self ..) (update_self ..)
  | answered hw hbuf hr hpc =>
    rcases List.mem_or_eq_of_mem_set hx with h | rfl
    · exact .kept h
    · exact .answered hw.mem hw.idle hbuf
  | starved hw hbuf hq hfds hpc =>
    rcases List.mem_or_eq_of_mem_set hx with h | rfl
    · exact .kept h
    · exact .starved rfl hw.mem hw.idle hbuf hq hfds
  | received hw hfirst ht hpc =>
    rcases List.mem_or_eq_of_mem_set hx with h | rfl
    · exact .kept h
    · exact .received hw.mem hw.idle hfirst ht
  | installed hw hread hfirst ht hlen hnd hfree hpc =>
    simp only [goto_clients, setClient_clients, install_clients, setQueue_clients] at hx
    rcases List.mem_or_eq_of_mem_set hx with h | rfl
    · exact .kept h
    · refine .installed rfl hw.mem hread hw.idle hfirst ht hlen ?_
      simp only [goto_fdt, setClient_fdt, install_fdt, setQueue_fdt]
      exact map_openAll_zip hnd hlen _
  | rejected hw hr hrej hpc => exact .kept (List.mem_of_mem_eraseIdx hx)
  | forked hw hbuf hreq hpid hpc =>
    simp only [goto_clients, fork_clients, setClient_clients, List.set_set] at hx
    rcases List.mem_or_eq_of_mem_set hx with h | rfl
    · exact .kept h
    · exact .forked hw.mem hw.idle hbuf hpid (by simp)
  | buried hw hpc =>
    simp only [goto_clients, leave_clients, killChild_clients] at hx
    exact .kept (List.mem_of_mem_eraseIdx hx)
  | reaped hs hw hkid => exact .kept (List.mem_of_mem_eraseIdx hx)
  | lost hs hw hkid => exact .kept (List.mem_of_mem_eraseIdx hx)
  | takenDown hs hc hp =>
    rw [takeDown_clients] at hx
    rcases List.mem_or_eq_of_mem_set hx with h | rfl
    · exact .kept h
    · exact .takenDown (List.mem_of_getElem? hc) hp (by rw [takeDown_pc]; rfl)

/-- An entry before its first receive has nothing, and one with a child has no `fds`. -/
structure DaemonClient.Shape (c : DaemonClient) : Prop where
  fresh : c.first → c.buf = [] ∧ c.fds = [] ∧ c.pid = none
  busy : c.pid ≠ none → c.fds = []

theorem Entry.shape {x : DaemonClient} (h : Entry s a t x) (hs : ∀ c ∈ s.clients, c.Shape) : x.Shape := by
  cases h with
  | kept hc => exact hs _ hc
  | accepted => exact ⟨fun _ => ⟨rfl, rfl, rfl⟩, fun h => absurd rfl h⟩
  | answered hc hidle hbuf =>
    refine ⟨fun h => absurd ((hs _ hc).fresh h).1 hbuf, fun h => absurd hidle h⟩
  | starved ha hc hidle hbuf hq hfds => exact ⟨nofun, fun h => absurd hidle h⟩
  | received hc hidle hfirst ht =>
    refine ⟨fun h => ?_, fun h => absurd hidle h⟩
    have hf : _ = true := h
    rw [hfirst] at hf
    cases hf
  | installed ha hc hread hidle => exact ⟨nofun, fun h => absurd hidle h⟩
  | forked hc hidle hbuf hpid hkid => exact ⟨fun h => absurd ((hs _ hc).fresh h).1 hbuf, fun _ => rfl⟩
  | takenDown hc hbusy hstop =>
    refine ⟨fun h => ?_, fun h => absurd rfl h⟩
    have := ((hs _ hc).fresh h).2.2
    rw [hbusy] at this
    cases this

/-! ### What is held -/

/-- The descriptors of the entries other than the one at `i`. -/
def Sys.others (s : Sys) (i : Nat) : List Fd := (s.clients.eraseIdx i).flatMap DaemonClient.handles

private theorem held_perm {i : Nat} {c : DaemonClient} (h : s.clients[i]? = some c) (lost : List Fd) :
    (s.held ++ lost).Perm (c.fd :: (c.fds ++ (s.others i ++ lost))) := by
  have hp : s.held.Perm (c.handles ++ s.others i) := flatMap_perm_of_getElem? h _
  have := hp.append_right lost
  rwa [List.append_assoc] at this

theorem held_set_perm {i : Nat} {c : DaemonClient} (h : s.clients[i]? = some c) (c' : DaemonClient) (lost : List Fd) :
    ((s.clients.set i c').flatMap DaemonClient.handles ++ lost).Perm (c'.fd :: (c'.fds ++ (s.others i ++ lost))) := by
  have hp : ((s.clients.set i c').flatMap DaemonClient.handles).Perm (c'.handles ++ s.others i) :=
    flatMap_set_perm h c' _
  have := hp.append_right lost
  rwa [List.append_assoc] at this

/-- An entry changes and keeps its descriptors. -/
theorem covers_set {i : Nat} {c : DaemonClient} (h : s.clients[i]? = some c) (c' : DaemonClient) (hfd : c'.fd = c.fd)
    (hfds : c'.fds = c.fds) {lost : List Fd} (hcov : Covers s.fdt (s.held ++ lost)) :
    Covers s.fdt ((s.clients.set i c').flatMap DaemonClient.handles ++ lost) := by
  have hsame : c'.handles = c.handles := by simp [DaemonClient.handles, hfd, hfds]
  exact hcov.perm ((flatMap_set_eq h hsame).symm.append_right _)

/-- An entry with a child leaves, and its connection is closed. -/
theorem covers_leave {i : Nat} {c : DaemonClient} {pid : Pid} (hw : s.Served i c pid) (hc : c.Shape) {lost : List Fd}
    (h : Covers s.fdt (s.held ++ lost)) : Covers (update s.fdt c.fd none) (s.others i ++ lost) := by
  have hnone : c.fds = [] := hc.busy (by simp [hw.busy])
  have hold := held_perm hw.get lost
  rw [hnone] at hold
  exact (h.perm hold).erase

/-- A step closes and opens descriptors as the entries release and gain them, except for the `fds` of a rejected
client, which stay open. -/
theorem Effect.covers (he : Effect boot alloc s a t) (hs : ∀ c ∈ s.clients, c.Shape) {lost : List Fd}
    (h : Covers s.fdt (s.held ++ lost)) :
    ∃ lost', Covers t.fdt (t.held ++ lost') ∧ (lost' = lost ∨
      ∃ ans c, a = .daemon ans ∧ s.rejected alloc ans = some c ∧ lost' = c.fds ++ lost) := by
  cases he with
  | connect | send | hangup | exit | signal | quiet | passedBy | returned => exact ⟨lost, h, Or.inl rfl⟩
  | @accepted fd k rest hr hb hf =>
    refine ⟨lost, ?_, Or.inl rfl⟩
    have hc := h.insert hf.1 (.conn k)
    have hheld : (s.clients ++ [({ fd := fd } : DaemonClient)]).flatMap DaemonClient.handles = s.held ++ [fd] := by
      simp [Sys.held, DaemonClient.handles]
    show Covers _ ((s.clients ++ [({ fd := fd } : DaemonClient)]).flatMap DaemonClient.handles ++ lost)
    rw [hheld, List.append_assoc, List.singleton_append]
    exact hc.perm List.perm_middle.symm
  | @answered ans pc i c buf r hw hbuf hr hpc =>
    exact ⟨lost, covers_set hw.get { c with buf := buf } rfl rfl h, Or.inl rfl⟩
  | @starved ans pc i c buf fds hw hbuf hq hfds hpc =>
    have hsame : fds = c.fds := hfds.elim id fun hf => hf.2.trans ((hs _ hw.mem).fresh hf.1).2.1.symm
    exact ⟨lost, covers_set hw.get { c with buf := buf, first := false, fds := fds } rfl hsame h, Or.inl rfl⟩
  | @received ans pc i c buf k conn bytes files queue hw hfirst ht hpc =>
    exact ⟨lost, covers_set hw.get { c with buf := buf } rfl rfl h, Or.inl rfl⟩
  | @installed fds pc i c buf k conn bytes files queue hw hread hfirst ht hlen hnd hfree hpc =>
    refine ⟨lost, ?_, Or.inl rfl⟩
    have hnone : c.fds = [] := ((hs _ hw.mem).fresh hfirst).2.1
    have hkeys : (fds.zip (files.map File.passed)).map Prod.fst = fds := List.map_fst_zip (by simpa using hlen)
    have hc := h.openAll (by rw [hkeys]; exact hnd) (by rw [hkeys]; exact fun fd hfd => (hfree fd hfd).1)
    rw [hkeys] at hc
    have hold := held_perm hw.get lost
    have hnew := held_set_perm hw.get { c with buf := buf, first := false, fds := fds } lost
    rw [hnone] at hold
    simp only [goto_fdt, setClient_fdt, install_fdt, setQueue_fdt, Sys.held, goto_clients, setClient_clients,
      install_clients, setQueue_clients]
    exact hc.perm ((hold.append_left fds).trans (List.perm_middle.trans hnew.symm))
  | @rejected ans pc i c r hw hr hrej hpc =>
    refine ⟨c.fds ++ lost, ?_, Or.inr ⟨ans, c, rfl, hrej, rfl⟩⟩
    have hc := (h.perm (held_perm hw.get lost)).erase
    exact hc.perm (List.perm_append_comm_assoc _ _ _)
  | @forked pc i c buf fields pid hw hbuf hreq hpid hpc =>
    refine ⟨lost, ?_, Or.inl rfl⟩
    have hold := (held_perm hw.get lost).trans List.perm_middle.symm
    have hnew := held_set_perm hw.get { c with buf := buf, fds := [], pid := some pid } lost
    have hc := (h.perm hold).closeAll
    simp only [goto_fdt, fork_fdt, setClient_fdt, Sys.held, goto_clients, fork_clients, setClient_clients, List.set_set]
    exact hc.perm hnew.symm
  | @buried ans pc i c pid st hw hpc =>
    refine ⟨lost, ?_, Or.inl rfl⟩
    simp only [goto_fdt, leave_fdt, killChild_fdt, Sys.held, goto_clients, leave_clients, killChild_clients]
    exact covers_leave hw (hs _ hw.mem) h
  | reaped hpc hw | lost hpc hw => exact ⟨lost, covers_leave hw (hs _ hw.mem) h, Or.inl rfl⟩
  | @takenDown ans i c pid st hpc hc hp =>
    refine ⟨lost, ?_, Or.inl rfl⟩
    simp only [takeDown_fdt, Sys.held, takeDown_clients]
    exact covers_set hc { c with pid := none } rfl rfl h

/-! ### The table of descriptors -/

/-- A descriptor open after a step was open before it as the same file, or it is new: the connection at the head of
the backlog, or a file received. -/
theorem Effect.file_inv (he : Effect boot alloc s a t) {fd : Fd} {file : File} (h : t.fdt fd = some file) :
    s.fdt fd = some file ∨ s.FreshFd boot fd ∧
      ((∃ k, file = .conn k ∧ s.backlog = k :: t.backlog ∧ a = .daemon (.accepted fd)) ∨ ∃ d, file = .passed d) := by
  cases he with
  | connect | send | hangup | exit | signal | quiet | passedBy | returned => exact Or.inl h
  | answered hw hbuf hr hpc => exact Or.inl h
  | starved hw hbuf hq hfds hpc => exact Or.inl h
  | received hw hfirst ht hpc => exact Or.inl h
  | @accepted fd' k rest hr hb hf =>
    have h : update s.fdt fd' (some (.conn k)) fd = some file := h
    by_cases heq : fd = fd'
    · subst heq
      rw [update_self] at h
      cases h
      exact Or.inr ⟨hf, Or.inl ⟨k, rfl, hb, rfl⟩⟩
    · rw [update_of_ne heq] at h
      exact Or.inl h
  | @installed fds pc i c buf k conn bytes files queue hw hread hfirst ht hlen hnd hfree hpc =>
    simp only [goto_fdt, setClient_fdt, install_fdt, setQueue_fdt] at h
    rcases openAll_eq_some h with h | h
    · exact Or.inl h
    · obtain ⟨hfd, hfile⟩ := List.of_mem_zip h
      obtain ⟨d, -, rfl⟩ := List.mem_map.1 hfile
      exact Or.inr ⟨hfree fd hfd, Or.inr ⟨d, rfl⟩⟩
  | rejected hw hr hrej hpc => exact Or.inl (update_none_eq_some h)
  | forked hw hbuf hreq hpid hpc =>
    simp only [goto_fdt, fork_fdt, setClient_fdt] at h
    exact Or.inl (closeAll_eq_some h)
  | buried hw hpc =>
    simp only [goto_fdt, leave_fdt, killChild_fdt] at h
    exact Or.inl (update_none_eq_some h)
  | reaped hpc hw hkid => exact Or.inl (update_none_eq_some h)
  | lost hpc hw hkid => exact Or.inl (update_none_eq_some h)
  | takenDown hpc hc hp =>
    rw [takeDown_fdt] at h
    exact Or.inl h

/-- A descriptor that stays open stays what it is. -/
theorem Effect.file_stable (he : Effect boot alloc s a t) {fd : Fd} (hs : (s.fdt fd).isSome) (ht : (t.fdt fd).isSome) :
    t.fdt fd = s.fdt fd := by
  obtain ⟨file, hfile⟩ := Option.isSome_iff_exists.1 ht
  rcases he.file_inv hfile with h | ⟨hf, -⟩
  · rw [hfile, h]
  · rw [hf.1] at hs
    cases hs

theorem Effect.conns_length (he : Effect boot alloc s a t) : s.conns.length ≤ t.conns.length := by
  cases he <;> simp [Sys.reaped, dismiss_eq]

/-- A connection waits in the backlog from its `connect` to its `accept`. -/
theorem Effect.backlog_inv (he : Effect boot alloc s a t) {k : ConnId} (h : k ∈ t.backlog) :
    k ∈ s.backlog ∨ k = s.conns.length ∧ s.conns.length < t.conns.length := by
  cases he with
  | connect =>
    rcases List.mem_append.1 h with h | h
    · exact Or.inl h
    · exact Or.inr ⟨List.mem_singleton.1 h, by simp⟩
  | accepted hr hb hf =>
    left
    rw [hb]
    exact List.mem_cons_of_mem _ h
  | _ => left; simpa [Sys.setQueue, Sys.install, Sys.reaped, dismiss_eq] using h

theorem Effect.backlog_nodup (he : Effect boot alloc s a t) (h : s.backlog.Nodup)
    (hlt : ∀ k ∈ s.backlog, k < s.conns.length) : t.backlog.Nodup := by
  cases he with
  | connect =>
    refine List.nodup_append.2 ⟨h, List.nodup_singleton _, ?_⟩
    intro k hk k' hk' heq
    have hlen := hlt k hk
    rw [heq, List.mem_singleton.1 hk'] at hlen
    exact Nat.lt_irrefl _ hlen
  | accepted hr hb hf =>
    rw [hb] at h
    exact (List.nodup_cons.1 h).2
  | _ => simpa [Sys.setQueue, Sys.install, Sys.reaped, dismiss_eq] using h

/-- The descriptors of the daemon, in every state of every run. -/
structure Sys.Owned (boot : Boot) (s : Sys) : Prop where
  shape : ∀ c ∈ s.clients, c.Shape
  covers : ∃ lost, Covers s.fdt (s.held ++ lost)
  control : ∀ c ∈ s.clients, ∃ k, s.fdt c.fd = some (.conn k)
  stdio : ∀ c ∈ s.clients, ∀ fd ∈ c.fds, ∃ d, s.fdt fd = some (.passed d)
  base : ∀ fd, (s.fdt fd).isSome → fd ∉ boot.base
  inj : ∀ fd fd' k, s.fdt fd = some (.conn k) → s.fdt fd' = some (.conn k) → fd = fd'
  bound : ∀ fd k, s.fdt fd = some (.conn k) → k < s.conns.length
  backlog_nodup : s.backlog.Nodup
  backlog_bound : ∀ k ∈ s.backlog, k < s.conns.length
  backlog_new : ∀ k ∈ s.backlog, ∀ fd, s.fdt fd ≠ some (.conn k)

private theorem owned_init : Sys.Owned boot {} where
  shape := nofun
  covers := ⟨[], covers_nil⟩
  control := nofun
  stdio := nofun
  base := nofun
  inj := nofun
  bound := nofun
  backlog_nodup := List.nodup_nil
  backlog_bound := nofun
  backlog_new := nofun

theorem Sys.Owned.isSome (h : s.Owned boot) {fd : Fd} (hfd : fd ∈ s.held) : (s.fdt fd).isSome := by
  obtain ⟨lost, hcov⟩ := h.covers
  exact hcov.isSome (List.mem_append_left _ hfd)

/-- An entry other than the one at `i` has another connection. -/
theorem Sys.Owned.fd_ne (h : s.Owned boot) {i : Nat} {c x : DaemonClient} (hc : s.clients[i]? = some c)
    (hx : x ∈ s.clients.eraseIdx i) : x.fd ≠ c.fd := by
  obtain ⟨lost, hcov⟩ := h.covers
  have hnd := (hcov.perm (held_perm hc lost)).nodup
  have hmem : x.fd ∈ s.others i := List.mem_flatMap.2 ⟨x, hx, List.mem_cons_self ..⟩
  intro heq
  rw [heq] at hmem
  exact (List.nodup_cons.1 hnd).1 (List.mem_append_right _ (List.mem_append_left _ hmem))

/-- A descriptor held before and after a step stays what it is. -/
theorem Effect.held_stable (he : Effect boot alloc s a t) (hs : s.Owned boot) {lost : List Fd}
    (ht : Covers t.fdt (t.held ++ lost)) {fd : Fd} (h : fd ∈ s.held) (h' : fd ∈ t.held) : t.fdt fd = s.fdt fd :=
  he.file_stable (hs.isSome h) (ht.isSome (List.mem_append_left _ h'))

theorem Effect.owned (he : Effect boot alloc s a t) (hs : s.Owned boot) : t.Owned boot := by
  obtain ⟨lost, hcov⟩ := hs.covers
  obtain ⟨lost', hcov', -⟩ := he.covers hs.shape hcov
  have hstable : ∀ c ∈ s.clients, ∀ x ∈ t.clients, ∀ fd ∈ c.handles, fd ∈ x.handles → t.fdt fd = s.fdt fd :=
    fun c hc x hx fd hfd hfd' => he.held_stable hs hcov' (mem_held hc hfd) (mem_held hx hfd')
  have hnew : ∀ fd k, t.fdt fd = some (.conn k) →
      s.fdt fd = some (.conn k) ∨ s.backlog = k :: t.backlog ∧ a = .daemon (.accepted fd) := by
    intro fd k h
    rcases he.file_inv h with h | ⟨-, ⟨k', heq, hb, ha⟩ | ⟨d, heq⟩⟩
    · exact Or.inl h
    · cases heq
      exact Or.inr ⟨hb, ha⟩
    · simp at heq
  refine ⟨fun x hx => (he.entry hx).shape hs.shape, ⟨lost', hcov'⟩, ?_, ?_, ?_, ?_, ?_, ?_, ?_, ?_⟩
  · intro x hx
    have hold : ∀ c ∈ s.clients, x.fd = c.fd → ∃ k, t.fdt x.fd = some (.conn k) := by
      intro c hc hfd
      obtain ⟨k, hk⟩ := hs.control c hc
      rw [← hfd] at hk
      exact ⟨k, by rw [he.held_stable hs hcov' (hfd ▸ fd_mem_held hc) (fd_mem_held hx), hk]⟩
    cases he.entry hx with
    | kept hc => exact hold _ hc rfl
    | accepted hk hfd => exact ⟨_, hfd⟩
    | answered hc | received hc | forked hc | takenDown hc => exact hold _ hc rfl
    | starved ha hc | installed ha hc => exact hold _ hc rfl
  · intro x hx fd hfd
    have hold : ∀ c ∈ s.clients, fd ∈ c.fds → ∃ d, t.fdt fd = some (.passed d) := by
      intro c hc hfd'
      obtain ⟨d, hd⟩ := hs.stdio c hc fd hfd'
      have h1 : fd ∈ s.held := mem_held hc (List.mem_cons_of_mem _ hfd')
      have h2 : fd ∈ t.held := mem_held hx (List.mem_cons_of_mem _ hfd)
      exact ⟨d, by rw [he.held_stable hs hcov' h1 h2, hd]⟩
    cases he.entry hx with
    | kept hc => exact hold _ hc hfd
    | accepted => cases hfd
    | answered hc | received hc | takenDown hc => exact hold _ hc hfd
    | starved ha hc hidle hbuf hq hfds =>
      rcases hfds with rfl | ⟨-, rfl⟩
      · exact hold _ hc hfd
      · simp at hfd
    | @installed c buf fds k conn bytes files queue ha hc hread hidle hfirst ht hlen hfds =>
      have : t.fdt fd ∈ (files.take fds.length).map (some ∘ File.passed) := hfds ▸ List.mem_map_of_mem hfd
      obtain ⟨d, -, hd⟩ := List.mem_map.1 this
      exact ⟨d, hd.symm⟩
    | forked => cases hfd
  · intro fd hfd
    obtain ⟨file, hfile⟩ := Option.isSome_iff_exists.1 hfd
    rcases he.file_inv hfile with h | ⟨hf, -⟩
    · exact hs.base fd (by rw [h]; rfl)
    · exact hf.2
  · intro fd fd' k h h'
    rcases hnew fd k h with h | ⟨hb, ha⟩ <;> rcases hnew fd' k h' with h' | ⟨hb', ha'⟩
    · exact hs.inj fd fd' k h h'
    · exact absurd h (hs.backlog_new k (by rw [hb']; exact List.mem_cons_self ..) fd)
    · exact absurd h' (hs.backlog_new k (by rw [hb]; exact List.mem_cons_self ..) fd')
    · rw [ha] at ha'
      cases ha'
      rfl
  · intro fd k h
    refine Nat.lt_of_lt_of_le ?_ he.conns_length
    rcases hnew fd k h with h | ⟨hb, -⟩
    · exact hs.bound fd k h
    · exact hs.backlog_bound k (by rw [hb]; exact List.mem_cons_self ..)
  · exact he.backlog_nodup hs.backlog_nodup hs.backlog_bound
  · intro k hk
    rcases he.backlog_inv hk with h | ⟨rfl, hlt⟩
    · exact Nat.lt_of_lt_of_le (hs.backlog_bound k h) he.conns_length
    · exact hlt
  · intro k hk fd h
    rcases hnew fd k h with h | ⟨hb, -⟩
    · rcases he.backlog_inv hk with hk | ⟨rfl, -⟩
      · exact hs.backlog_new k hk fd h
      · exact absurd (hs.bound fd _ h) (Nat.lt_irrefl _)
    · have := hs.backlog_nodup
      rw [hb] at this
      exact (List.nodup_cons.1 this).1 hk

/-- In every state of every run the daemon's descriptors are owned. -/
theorem owned_of_reach {G : Sys → Act → Prop} (h : Machine.Reach (step boot alloc) G {} s) : s.Owned boot :=
  effect_invariant h owned_init fun _ _ _ _ hi _ he => he.owned hi

end Calisto

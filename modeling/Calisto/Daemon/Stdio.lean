import Calisto.Daemon.Children

/-!
# Stdio delivery

The stdio of a client travels with its first message and is received by the one receive of `client_fill` that looks
for it.  When that receive comes before the message, which happens when the loop reads a client under the poll result
of another one, the descriptors are lost and the child is forked without them.  In the runs in which no client sends
its descriptors so late, the child gets exactly the files its client attached.
-/

namespace Calisto

open Function Handles Machine

variable {boot : Boot} {alloc : Nat → Bool} {s t : Sys} {a : Act}

/-! ### The child -/

/-- What a descriptor is in the child right after `fork`. -/
def inherited (boot : Boot) (table : Fd → Option File) (fd : Fd) : Option File :=
  if fd ∈ boot.base then some .boot else table fd

def dup2 (table : Fd → Option File) (src dst : Fd) : Fd → Option File :=
  match table src with
  | none => table
  | some file => update table dst (some file)

/-- The descriptors in the prologue of `child_main`: the client's stdio over 0, 1 and 2, then `control_fd` and
`listener_fd` closed. -/
def childMain (boot : Boot) (table : Fd → Option File) (stdioFds : List Fd) (controlFd : Fd) : Fd → Option File :=
  let table := [0, 1, 2].foldl (fun table idx =>
    match stdioFds[idx]? with
    | some fd => dup2 table fd idx
    | none => table) (inherited boot table)
  update (update table controlFd none) boot.listenerFd none

/-- The child gets the files that its client attached: in `child_fds`, and as its 0, 1 and 2. -/
structure Delivered (boot : Boot) (attached : List FileId) (childFds : List Fd) (controlFd : Fd)
    (table : Fd → Option File) : Prop where
  fds : childFds.map table = attached.map (some ∘ File.passed)
  stdio : ∀ n < 3, ∀ d, attached[n]? = some d → childMain boot table childFds controlFd n = some (.passed d)

theorem dup2_of_ne {table : Fd → Option File} {src dst fd : Fd} (h : fd ≠ dst) : dup2 table src dst fd = table fd := by
  cases hsrc : table src with
  | none => simp [dup2, hsrc]
  | some file => simp [dup2, hsrc, h]

theorem dup2_self {table : Fd → Option File} {src dst : Fd} {file : File} (h : table src = some file) :
    dup2 table src dst dst = some file := by
  simp [dup2, h]

/-- The three `dup2` calls, when none of the client's descriptors is a low one. -/
theorem dup2_stdio {table : Fd → Option File} {fds : List Fd} (hlow : ∀ fd ∈ fds, 2 < fd) {n : Nat} (hn : n < 3)
    {fd : Fd} {file : File} (hfd : fds[n]? = some fd) (hfile : table fd = some file) :
    [0, 1, 2].foldl (fun table idx =>
      match fds[idx]? with
      | some fd => dup2 table fd idx
      | none => table) table n = some file := by
  -- one round leaves the high descriptors and the other low ones as they are
  have hround : ∀ (tab : Fd → Option File) (idx x : Nat), x ≠ idx →
      (match fds[idx]? with | some fd => dup2 tab fd idx | none => tab) x = tab x := by
    intro tab idx x hx
    cases fds[idx]? with
    | none => rfl
    | some y => exact dup2_of_ne hx
  have hne : ∀ idx < 3, fd ≠ idx := by
    rintro idx hidx rfl
    exact Nat.not_lt.2 (Nat.le_of_lt_succ hidx) (hlow _ (List.mem_of_getElem? hfd))
  have hcase : n = 0 ∨ n = 1 ∨ n = 2 := by omega
  simp only [List.foldl_cons, List.foldl_nil]
  rcases hcase with rfl | rfl | rfl
  · rw [hround _ 2 0 (by decide), hround _ 1 0 (by decide), hfd]
    exact dup2_self hfile
  · rw [hround _ 2 1 (by decide), hfd]
    refine dup2_self ?_
    rw [hround _ 0 fd (hne 0 (by decide)), hfile]
  · rw [hfd]
    refine dup2_self ?_
    rw [hround _ 1 fd (hne 1 (by decide)), hround _ 0 fd (hne 0 (by decide)), hfile]

theorem Delivered.of_fds {attached : List FileId} {childFds : List Fd} {controlFd : Fd} {table : Fd → Option File}
    (hfds : childFds.map table = attached.map (some ∘ File.passed))
    (hbase : ∀ fd, (table fd).isSome → fd ∉ boot.base) (hcontrol : (table controlFd).isSome) :
    Delivered boot attached childFds controlFd table := by
  have hhigh : ∀ fd, (table fd).isSome → 2 < fd := by
    intro fd h
    by_contra hlt
    exact hbase fd h (boot.stdio fd (Nat.lt_succ_of_le (Nat.not_lt.1 hlt)))
  refine ⟨hfds, fun n hn d hd => ?_⟩
  have hget : (childFds.map table)[n]? = some (some (.passed d)) := by
    rw [hfds]
    simp [hd]
  rw [List.getElem?_map, Option.map_eq_some_iff] at hget
  obtain ⟨fd, hfd, hfile⟩ := hget
  have hlow : ∀ fd ∈ childFds, 2 < fd := by
    intro x hx
    have hm : table x ∈ attached.map (some ∘ File.passed) := hfds ▸ List.mem_map_of_mem hx
    obtain ⟨d', -, hd'⟩ := List.mem_map.1 hm
    exact hhigh x (by rw [← hd']; rfl)
  have hinh : inherited boot table fd = some (.passed d) := by
    have := hbase fd (by rw [hfile]; rfl)
    simp [inherited, this, hfile]
  have hlisten : n ≠ boot.listenerFd := Nat.ne_of_lt (Nat.lt_of_lt_of_le hn boot.listener_gt)
  have hctl : n ≠ controlFd := Nat.ne_of_lt (Nat.lt_of_lt_of_le hn (hhigh controlFd hcontrol))
  unfold childMain
  rw [update_of_ne hlisten, update_of_ne hctl]
  exact dup2_stdio hlow hn hfd hinh

/-! ### Connections -/

/-- How a connection changes in a step. -/
inductive ConnChange (s : Sys) (a : Act) (t : Sys) (k : ConnId) (conn : Conn) : Conn → Prop
  | same : ConnChange s a t k conn conn
  | sent {m : Msg} (ha : a = .send k m) : ConnChange s a t k conn (conn.send m)
  | closed : ConnChange s a t k conn { conn with closed := true }
  | taken {fd : Fd} {queue : List Msg} (hfd : s.fdt fd = some (.conn k))
      (hfirst : ∀ x ∈ t.clients, x.fd = fd → x.first = false) (hq : conn.queue ≠ []) :
      ConnChange s a t k conn { conn with queue := queue }

private theorem getElem?_set_cases {α : Type*} {xs : List α} {i j : Nat} {x y z : α} (hi : xs[i]? = some x)
    (h : (xs.set i y)[j]? = some z) : (j = i ∧ z = y) ∨ xs[j]? = some z := by
  by_cases hj : i = j
  · subst hj
    rw [getElem?_set_of_get hi] at h
    cases h
    exact Or.inl ⟨rfl, rfl⟩
  · rw [List.getElem?_set_ne hj] at h
    exact Or.inr h

private theorem Effect.conn_inv (he : Effect boot alloc s a t) (ho : s.Owned boot) {k : ConnId} {conn' : Conn}
    (h : t.conns[k]? = some conn') :
    (∃ conn, s.conns[k]? = some conn ∧ ConnChange s a t k conn conn') ∨ k = s.conns.length ∧ conn' = {} := by
  have hset : ∀ {i : Nat} {c x : DaemonClient} (c' : DaemonClient), s.clients[i]? = some c → c'.first = false →
      x ∈ s.clients.set i c' → x.fd = c.fd → x.first = false := by
    intro i c x c' hc hfirst hx hfd
    rcases mem_set_or_mem_eraseIdx hc hx with rfl | hx
    · exact hfirst
    · exact absurd hfd (ho.fd_ne hc hx)
  cases he with
  | connect =>
    have h : (s.conns ++ [({} : Conn)])[k]? = some conn' := h
    by_cases hk : k < s.conns.length
    · rw [List.getElem?_append_left hk] at h
      exact Or.inl ⟨conn', h, .same⟩
    · have hlt := (List.getElem?_eq_some_iff.1 h).1
      simp only [List.length_append, List.length_singleton] at hlt
      obtain rfl : k = s.conns.length := Nat.le_antisymm (Nat.lt_succ_iff.1 hlt) (Nat.not_lt.1 hk)
      simp only [List.getElem?_concat_length, Option.some.injEq] at h
      exact Or.inr ⟨rfl, h.symm⟩
  | @send k' m conn hk =>
    rcases getElem?_set_cases hk h with ⟨rfl, rfl⟩ | h
    · exact Or.inl ⟨conn, hk, .sent rfl⟩
    · exact Or.inl ⟨conn', h, .same⟩
  | @hangup k' conn hk =>
    rcases getElem?_set_cases hk h with ⟨rfl, rfl⟩ | h
    · exact Or.inl ⟨conn, hk, .closed⟩
    · exact Or.inl ⟨conn', h, .same⟩
  | @received ans pc i c buf k' conn bytes files queue hw hfirst ht hpc =>
    have h : (s.conns.set k' { conn with queue := queue })[k]? = some conn' := h
    rcases getElem?_set_cases ht.get h with ⟨rfl, rfl⟩ | h
    · exact Or.inl ⟨conn, ht.get, .taken ht.fd
        (fun x hx hfd => hset { c with buf := buf } hw.get hfirst hx hfd) ht.nonempty⟩
    · exact Or.inl ⟨conn', h, .same⟩
  | @installed fds pc i c buf k' conn bytes files queue hw hread hfirst ht hlen hnd hfree hpc =>
    simp only [goto_conns, setClient_conns, install_conns, setQueue_conns] at h
    rcases getElem?_set_cases ht.get h with ⟨rfl, rfl⟩ | h
    · refine Or.inl ⟨conn, ht.get, .taken ht.fd (fun x hx hfd => ?_) ht.nonempty⟩
      simp only [goto_clients, setClient_clients, install_clients, setQueue_clients] at hx
      exact hset { c with buf := buf, first := false, fds := fds } hw.get rfl hx hfd
    · exact Or.inl ⟨conn', h, .same⟩
  | _ => exact Or.inl ⟨conn', by simpa [dismiss_eq, Sys.reaped] using h, .same⟩

/-! ### The files of a first message -/

/-- Nothing has been received on the connection yet, and only its first message may carry files. -/
def Conn.Unread (c : Conn) : Prop :=
  (c.talked = false ∧ c.queue = [] ∧ c.attached = []) ∨
    c.talked ∧ ∃ m rest, c.queue = m :: rest ∧ m.files = c.attached ∧ ∀ m' ∈ rest, m'.files = []

private theorem unread_init : Conn.Unread {} := Or.inl ⟨rfl, rfl, rfl⟩

theorem Conn.Unread.send {c : Conn} (h : c.Unread) {m : Msg} (hm : m.files = [] ∨ c.talked = false) :
    (c.send m).Unread := by
  rcases h with ⟨-, hq, ha⟩ | ⟨ht, m₀, rest, hq, ha, hrest⟩
  · exact Or.inr ⟨rfl, m, [], by simp [Conn.send, hq], by simp [Conn.send, ha], by simp⟩
  · have hnil : m.files = [] := by
      rcases hm with hm | hm
      · exact hm
      · rw [ht] at hm
        cases hm
    refine Or.inr ⟨rfl, m₀, rest ++ [m], by simp [Conn.send, hq], by simp [Conn.send, ha, hnil], fun m' hm' => ?_⟩
    rcases List.mem_append.1 hm' with h | h
    · exact hrest m' h
    · rw [List.mem_singleton.1 h, hnil]

private theorem glue_files_nil {queue : List Msg} (h : ∀ m ∈ queue, m.files = []) (room : Nat) :
    (glue room queue).2.1 = [] := by
  induction queue generalizing room with
  | nil => rfl
  | cons m queue ih =>
    have hm : m.files = [] := h m (List.mem_cons_self ..)
    unfold glue
    split
    · rfl
    · split
      · exact hm
      · split
        · exact hm
        · exact ih (fun m' hm' => h m' (List.mem_cons_of_mem _ hm')) _

/-- The first receive comes upon the files of the first message. -/
theorem Conn.Unread.glue_files {c : Conn} (h : c.Unread) (hq : c.queue ≠ []) :
    (glue 65536 c.queue).2.1 = c.attached := by
  rcases h with ⟨-, hnil, -⟩ | ⟨-, m, rest, hqueue, ha, hrest⟩
  · exact absurd hnil hq
  · rw [hqueue, ← ha]
    unfold glue
    split
    · contradiction
    · split
      · rfl
      · split
        · rfl
        · rename_i hnil
          rw [not_not] at hnil
          rw [hnil]
          exact glue_files_nil hrest _

/-! ### Timely descriptors -/

/-- The protocol of the clients: files come with the first message of a connection only, and the first receive on it
finds room for all of them. -/
def AttachedFirst (s : Sys) : Act → Prop
  | .send k m => m.files = [] ∨ ∀ conn ∈ s.conns[k]?, conn.talked = false
  | .daemon (.received fds) => ∀ c ∈ s.reader?, c.first → ∀ conn ∈ s.conn? c.fd, fds.length = conn.attached.length
  | _ => True

/-- No client attaches files to a message after the loop has made its first receive on the connection. -/
def BeforeFirstRead (s : Sys) : Act → Prop
  | .send k m => m.files = [] ∨ ∀ c ∈ s.clients, s.fdt c.fd = some (.conn k) → c.first
  | _ => True

instance : (s : Sys) → (a : Act) → Decidable (AttachedFirst s a)
  | s, .send k m => inferInstanceAs (Decidable (m.files = [] ∨ ∀ conn ∈ s.conns[k]?, conn.talked = false))
  | s, .daemon (.received fds) => inferInstanceAs (Decidable (∀ c ∈ s.reader?, c.first →
      ∀ conn ∈ s.conn? c.fd, fds.length = conn.attached.length))
  | _, .daemon .go | _, .daemon (.poll ..) | _, .daemon .pollInterrupted | _, .daemon .pollFailed => isTrue trivial
  | _, .daemon (.accepted _) | _, .daemon .acceptInterrupted | _, .daemon .acceptFailed => isTrue trivial
  | _, .daemon .reset | _, .daemon (.forked _) | _, .daemon .forkFailed | _, .daemon (.ended _) => isTrue trivial
  | _, .connect | _, .hangup _ | _, .exit .. | _, .signal => isTrue trivial

instance : (s : Sys) → (a : Act) → Decidable (BeforeFirstRead s a)
  | s, .send k m => inferInstanceAs (Decidable (m.files = [] ∨
      ∀ c ∈ s.clients, s.fdt c.fd = some (.conn k) → c.first))
  | _, .connect | _, .hangup _ | _, .exit .. | _, .signal | _, .daemon _ => isTrue trivial

def Timely (s : Sys) (a : Act) : Prop := AttachedFirst s a ∧ BeforeFirstRead s a

instance (s : Sys) (a : Act) : Decidable (Timely s a) := inferInstanceAs (Decidable (_ ∧ _))

/-- Where the files of the clients are: in the first message until the first receive, then in `fds` until the fork. -/
structure Sys.Ready (s : Sys) : Prop where
  talked : ∀ (k : ConnId) (conn : Conn), s.conns[k]? = some conn → conn.queue ≠ [] → conn.talked
  waiting : ∀ k ∈ s.backlog, ∀ conn, s.conns[k]? = some conn → conn.Unread
  fresh : ∀ c ∈ s.clients, c.first → ∀ (k : ConnId) (conn : Conn),
    s.fdt c.fd = some (.conn k) → s.conns[k]? = some conn → conn.Unread
  buffered : ∀ c ∈ s.clients, c.buf ≠ [] → ∀ (k : ConnId) (conn : Conn),
    s.fdt c.fd = some (.conn k) → s.conns[k]? = some conn → conn.talked
  read : s.pc.stopping = false → ∀ c ∈ s.clients, c.first = false → c.pid = none →
    ∀ (k : ConnId) (conn : Conn), s.fdt c.fd = some (.conn k) → s.conns[k]? = some conn →
      c.fds.map s.fdt = conn.attached.map (some ∘ File.passed)

private theorem ready_init : Sys.Ready {} := ⟨nofun, nofun, nofun, nofun, nofun⟩

theorem ConnChange.talked {k : ConnId} {conn conn' : Conn} (h : ConnChange s a t k conn conn') (ht : conn.talked) :
    conn'.talked := by
  cases h with
  | same | closed | taken => exact ht
  | sent => rfl

theorem ConnChange.unread {k : ConnId} {conn conn' : Conn} (h : ConnChange s a t k conn conn')
    (hk : s.conns[k]? = some conn) (hg : AttachedFirst s a) (hu : conn.Unread)
    (hnot : ∀ fd, s.fdt fd = some (.conn k) → ¬∀ x ∈ t.clients, x.fd = fd → x.first = false) : conn'.Unread := by
  cases h with
  | same => exact hu
  | sent ha =>
    subst ha
    exact hu.send (hg.imp id fun h => h conn hk)
  | closed => exact hu
  | taken hfd hfirst hq => exact absurd hfirst (hnot _ hfd)

theorem ConnChange.attached {k : ConnId} {conn conn' : Conn} (h : ConnChange s a t k conn conn')
    (hsend : ∀ m, a = .send k m → m.files = []) : conn'.attached = conn.attached := by
  cases h with
  | same | closed | taken => rfl
  | @sent m ha => simp [Conn.send, hsend m ha]

theorem BeforeFirstRead.files_nil (hg : BeforeFirstRead s a) {c : DaemonClient} (hc : c ∈ s.clients) {k : ConnId}
    (hfd : s.fdt c.fd = some (.conn k)) (hfirst : c.first = false) (m : Msg) (ha : a = .send k m) : m.files = [] := by
  subst ha
  rcases hg with hnil | hread
  · exact hnil
  · have := hread c hc hfd
    rw [hfirst] at this
    cases this

/-- The connection of an entry that was there before the step. -/
theorem Effect.entry_conn (he : Effect boot alloc s a t) (ho : s.Owned boot) {c x : DaemonClient} (hx : x ∈ t.clients)
    (hc : c ∈ s.clients) (hfd : x.fd = c.fd) {k : ConnId} {conn' : Conn} (hk : t.fdt x.fd = some (.conn k))
    (hconn : t.conns[k]? = some conn') :
    s.fdt c.fd = some (.conn k) ∧ ∃ conn, s.conns[k]? = some conn ∧ ConnChange s a t k conn conn' := by
  obtain ⟨lost, ht⟩ := (he.owned ho).covers
  have hc' : s.fdt c.fd = some (.conn k) := by
    rw [← he.held_stable ho ht (fd_mem_held hc) (hfd ▸ fd_mem_held hx), ← hfd, hk]
  rcases he.conn_inv ho hconn with hch | ⟨rfl, -⟩
  · exact ⟨hc', hch⟩
  · exact absurd (ho.bound _ _ hc') (Nat.lt_irrefl _)

private theorem Effect.ready_talked (he : Effect boot alloc s a t) (ho : s.Owned boot) (h : s.Ready) {k : ConnId}
    {conn' : Conn} (hconn : t.conns[k]? = some conn') (hq : conn'.queue ≠ []) : conn'.talked := by
  rcases he.conn_inv ho hconn with ⟨conn, hk, hch⟩ | ⟨-, rfl⟩
  · cases hch with
    | same => exact h.talked k conn' hk hq
    | closed => exact h.talked k conn hk hq
    | sent => rfl
    | taken hfd hfirst hq' => exact h.talked k conn hk hq'
  · exact absurd rfl hq

private theorem Effect.ready_waiting (he : Effect boot alloc s a t) (ho : s.Owned boot) (h : s.Ready)
    (hg : AttachedFirst s a) {k : ConnId} (hk : k ∈ t.backlog) {conn' : Conn} (hconn : t.conns[k]? = some conn') :
    conn'.Unread := by
  rcases he.conn_inv ho hconn with ⟨conn, hget, hch⟩ | ⟨-, rfl⟩
  · have hlt := (List.getElem?_eq_some_iff.1 hget).1
    rcases he.backlog_inv hk with hk | ⟨rfl, -⟩
    · exact hch.unread hget hg (h.waiting k hk conn hget) fun fd hfd => absurd hfd (ho.backlog_new k hk fd)
    · exact absurd hlt (Nat.lt_irrefl _)
  · exact unread_init

theorem Effect.ready_fresh (he : Effect boot alloc s a t) (ho : s.Owned boot) (h : s.Ready) (hg : AttachedFirst s a)
    {x : DaemonClient} (hx : x ∈ t.clients) (hfirst : x.first) {k : ConnId} {conn' : Conn}
    (hk : t.fdt x.fd = some (.conn k)) (hconn : t.conns[k]? = some conn') : conn'.Unread := by
  have hfresh := ((he.entry hx).shape ho.shape).fresh hfirst
  cases he.entry hx with
  | kept hc =>
    obtain ⟨hfd, conn, hget, hch⟩ := he.entry_conn ho hx hc rfl hk hconn
    refine hch.unread hget hg (h.fresh x hc hfirst k conn hfd hget) fun fd hfd' hnot => ?_
    have := hnot x hx (ho.inj _ _ _ hfd hfd')
    rw [hfirst] at this
    cases this
  | accepted hk' hfd =>
    rw [hfd] at hk
    cases hk
    rcases he.conn_inv ho hconn with ⟨conn, hget, hch⟩ | ⟨-, rfl⟩
    · exact hch.unread hget hg (h.waiting k hk' conn hget) fun fd hfd' => absurd hfd' (ho.backlog_new k hk' fd)
    · exact unread_init
  | answered hc hidle hbuf => exact absurd ((ho.shape _ hc).fresh hfirst).1 hbuf
  | starved => cases hfirst
  | received hc hidle hnot =>
    have hnot' : _ = true := hfirst
    rw [hnot] at hnot'
    cases hnot'
  | installed => cases hfirst
  | forked => cases hfresh.2.2
  | takenDown hc hbusy =>
    have := ((ho.shape _ hc).fresh hfirst).2.2
    rw [hbusy] at this
    cases this

theorem Effect.ready_buffered (he : Effect boot alloc s a t) (ho : s.Owned boot) (h : s.Ready) {x : DaemonClient}
    (hx : x ∈ t.clients) (hbuf : x.buf ≠ []) {k : ConnId} {conn' : Conn} (hk : t.fdt x.fd = some (.conn k))
    (hconn : t.conns[k]? = some conn') : conn'.talked := by
  have hold : ∀ c ∈ s.clients, x.fd = c.fd → c.buf ≠ [] → conn'.talked := by
    intro c hc hfd hne
    obtain ⟨hfd', conn, hget, hch⟩ := he.entry_conn ho hx hc hfd hk hconn
    exact hch.talked (h.buffered c hc hne k conn hfd' hget)
  have htakes : ∀ {c k₀ conn₀ bytes files queue}, c ∈ s.clients → x.fd = c.fd →
      s.Takes c.fd k₀ conn₀ bytes files queue → conn'.talked := by
    intro c k₀ conn₀ bytes files queue hc hfd ht
    obtain ⟨hfd', conn, hget, hch⟩ := he.entry_conn ho hx hc hfd hk hconn
    rw [ht.fd] at hfd'
    cases hfd'
    rw [ht.get] at hget
    cases hget
    exact hch.talked (h.talked k conn₀ ht.get ht.nonempty)
  cases he.entry hx with
  | kept hc => exact hold _ hc rfl hbuf
  | accepted => exact absurd rfl hbuf
  | answered hc hidle hne => exact hold _ hc rfl hne
  | starved ha hc hidle hne => exact hold _ hc rfl fun hnil => hbuf (hne hnil)
  | received hc hidle hfirst ht => exact htakes hc rfl ht
  | installed ha hc hread hidle hfirst ht => exact htakes hc rfl ht
  | forked hc hidle hne => exact hold _ hc rfl hne
  | takenDown hc => exact hold _ hc rfl hbuf

private theorem Conn.Unread.attached_nil {c : Conn} (h : c.Unread) (hq : c.queue = []) : c.attached = [] := by
  rcases h with ⟨-, -, ha⟩ | ⟨-, m, rest, hqueue, -⟩
  · exact ha
  · rw [hq] at hqueue
    cases hqueue

private theorem Effect.ready_read (he : Effect boot alloc s a t) (ho : s.Owned boot) (h : s.Ready) (hg : Timely s a)
    (hrun : t.pc.stopping = false) {x : DaemonClient} (hx : x ∈ t.clients) (hfirst : x.first = false)
    (hidle : x.pid = none) {k : ConnId} {conn' : Conn} (hk : t.fdt x.fd = some (.conn k))
    (hconn : t.conns[k]? = some conn') : x.fds.map t.fdt = conn'.attached.map (some ∘ File.passed) := by
  obtain ⟨lost, ht⟩ := (he.owned ho).covers
  have hrun' := he.running hrun
  -- an entry that had made its first receive before the step, and keeps its `fds`
  have hold : ∀ c ∈ s.clients, x.fd = c.fd → x.fds = c.fds → c.first = false → c.pid = none →
      x.fds.map t.fdt = conn'.attached.map (some ∘ File.passed) := by
    intro c hc hfd hfds hcf hcp
    obtain ⟨hfd', conn, hget, hch⟩ := he.entry_conn ho hx hc hfd hk hconn
    rw [hch.attached (hg.2.files_nil hc hfd' hcf), ← h.read hrun' c hc hcf hcp k conn hfd' hget, hfds]
    apply List.map_congr_left
    intro fd hmem
    exact he.held_stable ho ht (mem_held hc (List.mem_cons_of_mem _ hmem))
      (mem_held hx (List.mem_cons_of_mem _ (hfds ▸ hmem)))
  cases he.entry hx with
  | kept hc => exact hold _ hc rfl rfl hfirst hidle
  | accepted => cases hfirst
  | answered hc hcp => exact hold _ hc rfl rfl hfirst hcp
  | @starved ans c buf fds ha hc hcp hne hq hfds =>
    cases hcf : c.first with
    | false =>
      have hsame : fds = c.fds := by
        rcases hfds with hfds | ⟨hcf', -⟩
        · exact hfds
        · rw [hcf] at hcf'
          cases hcf'
      exact hold c hc rfl hsame hcf hcp
    | true =>
      -- nothing has come yet, so nothing was attached
      obtain ⟨hfd', conn, hget, hch⟩ := he.entry_conn ho hx hc rfl hk hconn
      have hqueue : conn.queue = [] := hq conn (by simp [Sys.conn?, hfd', hget])
      have hnil : fds = [] := by
        rcases hfds with hfds | ⟨-, hfds⟩
        · rw [hfds]
          exact ((ho.shape c hc).fresh hcf).2.1
        · exact hfds
      have hattached : conn'.attached = [] := by
        rw [hch.attached fun m hm => by rw [ha] at hm; cases hm]
        exact (h.fresh c hc hcf k conn hfd' hget).attached_nil hqueue
      rw [hattached]
      show fds.map t.fdt = []
      rw [hnil]
      rfl
  | received hc hcp hcf => exact hold _ hc rfl rfl hcf hcp
  | @installed c buf fds k₀ conn₀ bytes files queue ha hc hread hcp hcf htakes hlen hfds =>
    obtain ⟨hfd', conn, hget, hch⟩ := he.entry_conn ho hx hc rfl hk hconn
    rw [htakes.fd] at hfd'
    cases hfd'
    rw [htakes.get] at hget
    cases hget
    have hfiles : files = conn₀.attached := by
      rw [← (h.fresh c hc hcf k conn₀ htakes.fd htakes.get).glue_files htakes.nonempty, htakes.glue]
    have hall : fds.length = conn₀.attached.length := by
      have hgd := hg.1
      rw [ha] at hgd
      exact hgd c hread hcf conn₀ (by simp [Sys.conn?, htakes.fd, htakes.get])
    rw [hch.attached fun m hm => by rw [ha] at hm; cases hm]
    show fds.map t.fdt = _
    rw [hfds, hfiles, hall, List.take_length]
  | forked => cases hidle
  | takenDown hc hbusy hstop =>
    rw [hrun] at hstop
    cases hstop

theorem Effect.ready (he : Effect boot alloc s a t) (ho : s.Owned boot) (h : s.Ready) (hg : Timely s a) : t.Ready where
  talked _ _ hconn hq := he.ready_talked ho h hconn hq
  waiting _ hk _ hconn := he.ready_waiting ho h hg.1 hk hconn
  fresh _ hx hfirst _ _ hk hconn := he.ready_fresh ho h hg.1 hx hfirst hk hconn
  buffered _ hx hbuf _ _ hk hconn := he.ready_buffered ho h hx hbuf hk hconn
  read hrun _ hx hfirst hidle _ _ hk hconn := he.ready_read ho h hg hrun hx hfirst hidle hk hconn

private theorem ready_of_reach (h : Reach (step boot alloc) Timely {} s) : s.Ready :=
  effect_invariant h ready_init fun _ _ _ hreach hi hg he => he.ready (owned_of_reach hreach) hi hg

/-! ### The forks -/

/-- Every child was forked for a connection and got exactly the files attached to it. -/
def Sys.StdioDelivered (boot : Boot) (s : Sys) : Prop :=
  ∀ pid owner childFds controlFd fields table, Event.fork pid owner childFds controlFd fields table ∈ s.log →
    ∃ k conn, owner = some (.conn k) ∧ s.conns[k]? = some conn ∧ conn.talked ∧
      Delivered boot conn.attached childFds controlFd table

theorem Effect.conn_change (he : Effect boot alloc s a t) (ho : s.Owned boot) {k : ConnId} {conn : Conn}
    (hk : s.conns[k]? = some conn) : ∃ conn', t.conns[k]? = some conn' ∧ ConnChange s a t k conn conn' := by
  have hlt : k < s.conns.length := (List.getElem?_eq_some_iff.1 hk).1
  have hget : t.conns[k]? = some _ := List.getElem?_eq_getElem (Nat.lt_of_lt_of_le hlt he.conns_length)
  refine ⟨_, hget, ?_⟩
  rcases he.conn_inv ho hget with ⟨conn', hk', hch⟩ | ⟨rfl, -⟩
  · rw [hk] at hk'
    cases hk'
    exact hch
  · exact absurd hlt (Nat.lt_irrefl _)

theorem Effect.delivered (he : Effect boot alloc s a t) (ho : s.Owned boot) (hp : s.Parented) (hr : s.Ready)
    (hg : Timely s a) (h : s.StdioDelivered boot) : t.StdioDelivered boot := by
  intro pid owner childFds controlFd fields table hm
  rcases he.log_inv hp hm with hm | hnew
  · obtain ⟨k, conn, rfl, hk, htalked, hd⟩ := h _ _ _ _ _ _ hm
    obtain ⟨conn', hk', hch⟩ := he.conn_change ho hk
    refine ⟨k, conn', rfl, hk', hch.talked htalked, ?_⟩
    have hsend : ∀ m, a = .send k m → m.files = [] := by
      rintro m rfl
      rcases hg.1 with hnil | hnew
      · exact hnil
      · have := hnew conn hk
        rw [htalked] at this
        cases this
    rwa [hch.attached hsend]
  · cases hnew with
    | @fork _ c _ _ _ ha hrun hc hidle hbuf =>
      obtain ⟨k, hfd⟩ := ho.control c hc
      have hlt : k < s.conns.length := ho.bound _ _ hfd
      have hk : s.conns[k]? = some _ := List.getElem?_eq_getElem hlt
      have hfirst : c.first = false := by
        cases hf : c.first with
        | false => rfl
        | true => exact absurd ((ho.shape c hc).fresh hf).1 hbuf
      obtain ⟨conn', hk', hch⟩ := he.conn_change ho hk
      refine ⟨k, conn', hfd, hk', hch.talked (hr.buffered c hc hbuf k _ hfd hk), ?_⟩
      rw [hch.attached (hg.2.files_nil hc hfd hfirst)]
      exact .of_fds (hr.read hrun c hc hfirst hidle k _ hfd hk) ho.base (by rw [hfd]; rfl)

/-- When every client sends its descriptors before the loop first reads from it, each child gets its client's
stdio. -/
theorem stdio_delivered (h : Reach (step boot alloc) Timely {} s) : s.StdioDelivered boot := by
  refine effect_invariant h nofun fun s a t hreach hi hg he => ?_
  have ho := owned_of_reach hreach
  exact he.delivered ho (parented_of_reach hreach) (ready_of_reach hreach) hg hi

theorem stdio_delivered_run :
    ∃ s, Reach (step bareBoot fun _ => true) Timely {} s ∧ s.forks 0 = 1 ∧ s.StdioDelivered bareBoot := by
  have hrun : (exec (guarded (step bareBoot fun _ => true) Timely) {}
      (oneClient "RUN 3\r\n$0\r\n$0\r\n$0\r\n" (by decide) ++ [.daemon (.forked 50)])).any
      (fun s => s.forks 0 = 1) = true := by
    decide
  obtain ⟨s, hs, hfork⟩ := Reach.of_any_guarded hrun
  exact ⟨s, hs, of_decide_eq_true hfork, stdio_delivered hs⟩

/-- A child forked with no descriptors. -/
def Event.forkBare : Event → Bool
  | .fork _ owner [] _ _ _ => owner = some (.conn 1)
  | _ => false

/-- Two clients are accepted, the first one sends a bad head line and leaves; the second one takes its place in the
pass, is read before it has sent anything, and sends its request afterwards. -/
def shiftedRun : List Act :=
  [.connect, .connect, .send 0 ⟨utf8 "X\r\n".toList, [], by decide⟩, .daemon (.poll true []), .daemon (.accepted 4),
    .daemon (.accepted 5), .daemon .go, .daemon .go, .daemon .go, .daemon .go, .daemon .go,
    -- the tick in which the first client is polled ready and removed
    .daemon (.poll false [true, false]), .daemon .go, .daemon (.received []), .daemon .go, .daemon .go,
    .daemon (.received []), .daemon .go, .daemon .go, .daemon .go,
    .send 1 ⟨utf8 "RUN 3\r\n$0\r\n$0\r\n$0\r\n".toList, [7, 8, 9], by decide⟩,
    .daemon (.poll false [true]), .daemon .go, .daemon (.received []), .daemon (.forked 50)]

/-- The removal of one client may cost the next one its stdio. -/
theorem shifted_client_loses_stdio :
    ¬∀ s, Reach (step bareBoot fun _ => true) AttachedFirst {} s → s.StdioDelivered bareBoot := by
  intro h
  have hrun : (exec (guarded (step bareBoot fun _ => true) AttachedFirst) {} shiftedRun).any
      (fun s => s.log.any Event.forkBare ∧ (s.conns[1]?).map Conn.attached = some [7, 8, 9]) = true := by
    decide
  obtain ⟨s, hs, hp⟩ := Reach.of_any_guarded hrun
  obtain ⟨hlog, hattached⟩ := of_decide_eq_true hp
  obtain ⟨e, hmem, hbare⟩ := List.any_eq_true.1 hlog
  cases e with
  | fork pid owner childFds controlFd fields table =>
    cases childFds with
    | nil =>
      obtain ⟨k, conn, rfl, hk, -, hd⟩ := h s hs _ _ _ _ _ _ hmem
      have hone : k = 1 := by simpa [Event.forkBare] using hbare
      subst hone
      rw [hk] at hattached
      have hfds := hd.fds
      rw [Option.some.inj hattached] at hfds
      cases hfds
    | cons fd fds => cases hbare
  | _ => cases hbare

end Calisto

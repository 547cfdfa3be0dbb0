import Calisto.Daemon.Decode
import Calisto.Daemon.ExitCode

/-!
# A request from end to end

`send_run_request` sends its request with one `sendmsg`.  If the kernel queues it as one message, then whatever other
clients do and however the rounds of the loop fall, the fields that the daemon decodes before it forks for this
connection are the strings that the client had, and the client is told nothing but the status of its child, the failure
of `fork` or, if it closes its end, that the stream ended (`request_served`).
-/

namespace Calisto

open Function Handles Machine

variable {boot : Boot} {alloc : Nat → Bool} {s t : Sys} {a : Act} {k : ConnId} {m : Msg} {i : Nat} {r : Reader}
  {c : DaemonClient} {pfds : List PollFd} {ans : Answer}

/-! ### The request -/

/-- `b64`. -/
def b64 (s : Str) : Option Bytes := (b64Encode (utf8 s)).map utf8

/-- What `send_run_request` sends. -/
def sendRunRequest (op cwd envBlob subject : Str) (args : List Str) : Option Bytes :=
  ((cwd :: envBlob :: subject :: args).mapM b64).map (buildCmd op)

private theorem b64_eq (s : Str) : b64 s = some (utf8 (Base64.encode (utf8 s))) := by
  rw [b64, b64Encode_eq]
  rfl

theorem mapM_b64 (strs : List Str) : strs.mapM b64 = some (strs.map fun s => utf8 (Base64.encode (utf8 s))) := by
  induction strs with
  | nil => rfl
  | cons s strs ih => simp [b64_eq, ih]

private theorem b64Decode_encode (s : Str) : b64Decode (utf8 (Base64.encode (utf8 s))) = some s := by
  have hbytes : decodedBytes (utf8 (Base64.encode (utf8 s))) = some (utf8 s) := by
    rw [decodedBytes, fromUtf8Lossy_utf8]
    exact decodeLoop_encode (utf8 s) _ 0 [] rfl
  rw [b64Decode, hbytes, Option.map_some, fromUtf8Lossy_utf8]

private theorem decodeFields_encode (strs : List Str) :
    decodeFields (strs.map fun s => utf8 (Base64.encode (utf8 s))) = some strs := by
  unfold decodeFields
  induction strs with
  | nil => rfl
  | cons s strs ih => simp [b64Decode_encode, ih]

private theorem length_le_buildCmd (op : Str) {fields : List Bytes} {f : Bytes} (h : f ∈ fields) :
    f.length ≤ (buildCmd op fields).length := by
  obtain ⟨xs, ys, rfl⟩ := List.append_of_mem h
  rw [buildCmd, List.flatMap_append, List.flatMap_cons]
  simp only [List.length_append]
  omega

/-- A request that comes in whole is found by the reader. -/
theorem scan_sendRunRequest {op cwd envBlob subject : Str} {args : List Str} {bytes : Bytes}
    (hop : op = "RUN".toList ∨ op = "EVAL".toList) (hfits : withCapacity alloc (args.length + 3) = none)
    (h : sendRunRequest op cwd envBlob subject args = some bytes) (hlen : bytes.length ≤ 65536) :
    ∃ fields, scan alloc .head bytes = .done op fields [] ∧
      decodeFields fields = some (cwd :: envBlob :: subject :: args) := by
  rw [sendRunRequest, mapM_b64, Option.map_some, Option.some.injEq] at h
  refine ⟨_, ?_, decodeFields_encode _⟩
  have hframed : Framed alloc op ((cwd :: envBlob :: subject :: args).map fun s => utf8 (Base64.encode (utf8 s))) := by
    refine ⟨?_, ?_, ?_, fun f hf => ?_⟩
    · rcases hop with rfl | rfl <;> decide
    · rcases hop with rfl | rfl <;> decide
    · rw [List.length_map]
      exact hfits
    · have hle := length_le_buildCmd op hf
      rw [h] at hle
      have hbig : 65536 < usizeSize := by decide
      omega
  have hscan := scan_buildCmd hframed []
  rwa [h, List.append_nil] at hscan

/-! ### One message -/

/-- The client of the connection `k` sends `m` and nothing else. -/
def Only (k : ConnId) (m : Msg) (s : Sys) : Act → Prop
  | .send j m' => j = k → m' = m ∧ ∀ conn ∈ s.conns[k]?, conn.talked = false
  | _ => True

instance : (s : Sys) → (a : Act) → Decidable (Only k m s a)
  | s, .send j m' => inferInstanceAs (Decidable (j = k → m' = m ∧ ∀ conn ∈ s.conns[k]?, conn.talked = false))
  | _, .connect | _, .hangup _ | _, .exit .. | _, .signal | _, .daemon _ => isTrue trivial

/-- Nothing of `m` has been received. -/
def Conn.Untouched (conn : Conn) (m : Msg) : Prop := conn.queue = if conn.talked then [m] else []

/-- The entry `c` of the connection `k` has nothing yet, or it has all of `m` and is about to be looked at. -/
def Sys.Awaits (s : Sys) (k : ConnId) (m : Msg) (c : DaemonClient) : Prop :=
  ∃ conn, s.conns[k]? = some conn ∧
    (c.buf = [] ∧ conn.Untouched m ∨ c.buf = m.bytes ∧ conn.queue = [] ∧ conn.talked ∧ s.reader? = some c)

/-- The connection `k` carries `m`: it is in flight or in the buffer of the entry, whole, until the child is forked. -/
structure Sys.Carries (s : Sys) (k : ConnId) (m : Msg) : Prop where
  outside : s.Outside k → ∀ conn ∈ s.conns[k]?, conn.Untouched m
  entry : s.pc.stopping = false → ∀ c ∈ s.clients, s.fdt c.fd = some (.conn k) → c.pid = none → s.Awaits k m c
  head : ∀ pfds i r c, s.pc = .reading pfds i r → s.clients[i]? = some c → s.fdt c.fd = some (.conn k) → r = .head
  told : ∀ r, .reply (some (.conn k)) r ∈ s.log → r.isStatus ∨ r = .fork ∨ r = .eof ∧ s.Closed k

/-- A step that is not about the message of the connection `k`. -/
structure Sys.Away (s t : Sys) (k : ConnId) : Prop where
  outside : t.Outside k → s.Outside k
  conns : t.conns[k]? = s.conns[k]?
  entries : t.pc.stopping = false → ∀ c ∈ t.clients, t.fdt c.fd = some (.conn k) → c.pid = none →
    s.pc.stopping = false ∧ c ∈ s.clients ∧ s.fdt c.fd = some (.conn k) ∧ s.reader? ≠ some c
  head : ∀ pfds i r c, t.pc = .reading pfds i r → t.clients[i]? = some c → t.fdt c.fd = some (.conn k) → r = .head
  told : ∀ r, .reply (some (.conn k)) r ∈ t.log → .reply (some (.conn k)) r ∈ s.log ∨ r.isStatus

theorem Sys.Away.carries (h : s.Away t k) (hs : s.Carries k m) : t.Carries k m where
  outside hout conn hconn := hs.outside (h.outside hout) conn (h.conns ▸ hconn)
  entry hstop c hc hk hidle := by
    obtain ⟨hstop', hc', hk', hread⟩ := h.entries hstop c hc hk hidle
    obtain ⟨conn, hconn, hnew | ⟨-, -, -, hread'⟩⟩ := hs.entry hstop' c hc' hk' hidle
    · exact ⟨conn, h.conns.trans hconn, .inl hnew⟩
    · exact absurd hread' hread
  head := h.head
  told r hr := by
    obtain hr | hr := h.told r hr
    · refine (hs.told r hr).imp id (Or.imp id fun hclosed => ⟨hclosed.1, ?_⟩)
      rw [Sys.Closed, h.conns]
      exact hclosed.2
    · exact .inl hr

theorem reader?_of_reading (hpc : s.pc = .reading pfds i r) (hc : s.clients[i]? = some c) : s.reader? = some c := by
  rw [Sys.reader?, hpc]
  exact hc

/-- The loop is reading from a client. -/
def Pc.reads : Pc → Bool
  | .reading .. => true
  | _ => false

private theorem Pc.not_reads {pc : Pc} (h : pc.reads = false) : pc ≠ .reading pfds i r := by
  rintro rfl
  cases h

/-- No entry of the connection is being read. -/
theorem not_read (h : s.pc.reads = false) : ∀ c ∈ s.reader?, s.fdt c.fd ≠ some (.conn k) := by
  intro c hc
  unfold Sys.reader? at hc
  split at hc
  · exact absurd (by assumption) (Pc.not_reads h)
  · cases hc

def Event.isReply : Event → Bool
  | .reply .. => true
  | _ => false

private theorem reply_mem_tail {e : Event} {log : List Event} {dst : Option File} {reply : Reply}
    (h : .reply dst reply ∈ e :: log) (he : e.isReply = false) : .reply dst reply ∈ log := by
  rcases List.mem_cons.1 h with rfl | h
  · cases he
  · exact h

/-- Only the place in the code changes. -/
theorem away_goto {pc : Pc} (hstop : pc.stopping = false → s.pc.stopping = false)
    (hread : ∀ c ∈ s.reader?, s.fdt c.fd ≠ some (.conn k))
    (hhead : pc.reads = false ∨ ∃ pfds i, pc = .reading pfds i .head) : s.Away (s.goto pc) k where
  outside := id
  conns := rfl
  entries h c hc hk _ := ⟨hstop h, hc, hk, fun hr => hread c hr hk⟩
  head pfds i r _ hpc _ _ := by
    obtain hnot | ⟨pfds', i', hpc'⟩ := hhead
    · exact absurd hpc (Pc.not_reads hnot)
    · cases hpc'.symm.trans hpc
      rfl
  told _ := .inl

/-- An entry leaves. -/
theorem away_leave {fd : Fd} (hclients : t.clients = s.clients.eraseIdx i) (hfdt : t.fdt = update s.fdt fd none)
    (hconns : t.conns = s.conns) (hbacklog : t.backlog = s.backlog) (hstop : s.pc.stopping = false)
    (hread : ∀ c ∈ s.reader?, s.fdt c.fd ≠ some (.conn k)) (hpc : t.pc.reads = false)
    (htold : ∀ r, .reply (some (.conn k)) r ∈ t.log → .reply (some (.conn k)) r ∈ s.log ∨ r.isStatus) :
    s.Away t k where
  outside h := by rwa [Sys.Outside, hconns, hbacklog] at h
  conns := by rw [hconns]
  entries _ c hc hk _ := by
    rw [hfdt] at hk
    rw [hclients] at hc
    have hk' := update_none_eq_some hk
    exact ⟨hstop, List.mem_of_mem_eraseIdx hc, hk', fun hr => hread c hr hk'⟩
  head _ _ _ _ h := absurd h (Pc.not_reads hpc)
  told := htold

/-- The entry of another connection, which is being read, changes. -/
theorem away_set {d : DaemonClient} (hk : s.fdt c.fd ≠ some (.conn k)) (hread : s.reader? = some c)
    (hstop : s.pc.stopping = false) (hfd : d.fd = c.fd) (hclients : t.clients = s.clients.set i d)
    (hfdt : ∀ fd, t.fdt fd = some (.conn k) → s.fdt fd = some (.conn k)) (hconns : t.conns[k]? = s.conns[k]?)
    (hout : t.Outside k → s.Outside k) (hpc : t.pc.reads = false ∨ ∃ pfds r, t.pc = .reading pfds i r)
    (htold : ∀ r, .reply (some (.conn k)) r ∈ t.log → .reply (some (.conn k)) r ∈ s.log ∨ r.isStatus) :
    s.Away t k where
  outside := hout
  conns := hconns
  entries _ x hx hxk _ := by
    have hxk' := hfdt _ hxk
    rw [hclients] at hx
    rcases List.mem_or_eq_of_mem_set hx with hx | rfl
    · refine ⟨hstop, hx, hxk', fun hr => ?_⟩
      rw [hread] at hr
      cases hr
      exact hk hxk'
    · rw [hfd] at hxk'
      exact absurd hxk' hk
  head pfds j r x h hx hxk := by
    obtain hnot | ⟨pfds', r', hpc'⟩ := hpc
    · exact absurd h (Pc.not_reads hnot)
    · cases hpc'.symm.trans h
      rw [hclients, List.getElem?_set_self'] at hx
      obtain ⟨_, _, rfl⟩ := Option.map_eq_some_iff.1 hx
      have hxk' : s.fdt d.fd = some (.conn k) := hfdt _ hxk
      rw [hfd] at hxk'
      exact absurd hxk' hk
  told := htold

/-! ### Steps about other clients -/

theorem visit_away (hs : s.pc = .pass pfds i) (hp : s.Parented) (h : s.visit pfds i ans = some t) : s.Away t k := by
  have hstop : s.pc.stopping = false := by rw [hs]; rfl
  have hread : s.pc.reads = false := by rw [hs]; rfl
  rcases visit_cases h with ⟨-, -, rfl⟩ | ⟨p, c, -, hc, ⟨-, -, rfl⟩ | ⟨-, -, -, rfl⟩ | ⟨pid, st, -, -, hpid, -, rfl⟩⟩
  · exact away_goto (fun _ => hstop) (not_read hread) (.inl rfl)
  · exact away_goto (fun _ => hstop) (not_read hread) (.inl rfl)
  · exact away_goto (fun _ => hstop) (not_read hread) (.inr ⟨pfds, i, rfl⟩)
  · obtain ⟨kid, hkid, -⟩ := hp.owner c (List.mem_of_getElem? hc) pid hpid
    rw [killChild_of_some hkid]
    refine away_leave rfl rfl rfl rfl hstop (not_read hread) rfl fun r hr => .inl ?_
    exact reply_mem_tail (reply_mem_tail (reply_mem_tail hr rfl) rfl) rfl

theorem reapChild_away (hs : s.pc = .reap i) (hp : s.Parented) (h : s.reapChild i ans = some t) : s.Away t k := by
  have hstop : s.pc.stopping = false := by rw [hs]; rfl
  have hread : s.pc.reads = false := by rw [hs]; rfl
  obtain ⟨-, rfl | rfl | ⟨c, pid, hc, hpid, ⟨kid, status, hkid, rfl⟩ | ⟨hnone, -⟩⟩⟩ := reapChild_cases h
  · exact away_goto (fun _ => hstop) (not_read hread) (.inl rfl)
  · exact away_goto (fun _ => hstop) (not_read hread) (.inl rfl)
  · refine away_leave rfl rfl rfl rfl hstop (not_read hread) hread fun r hr => ?_
    rcases List.mem_cons.1 (reply_mem_tail hr rfl) with hr | hr
    · exact .inr ((Event.reply.inj hr).2 ▸ rfl)
    · exact .inl (reply_mem_tail hr rfl)
  · obtain ⟨kid, hkid, -⟩ := hp.owner c (List.mem_of_getElem? hc) pid hpid
    rw [hnone] at hkid
    cases hkid

/-- `daemon_shutdown` reads nothing any more, and the only lines that it sends are those of children. -/
theorem away_stopping (hout : t.Outside k → s.Outside k) (hconns : t.conns = s.conns) (hstop : t.pc.stopping)
    (htold : ∀ r, .reply (some (.conn k)) r ∈ t.log → .reply (some (.conn k)) r ∈ s.log ∨ r.isStatus) :
    s.Away t k where
  outside := hout
  conns := by rw [hconns]
  entries h := by rw [hstop] at h; cases h
  head _ _ _ _ h := by rw [h] at hstop; cases hstop
  told := htold

private theorem shutdownChild_away (hp : s.Parented) (h : s.shutdownChild i ans = some t) : s.Away t k := by
  have hgoto : ∀ pc : Pc, pc.stopping → s.Away (s.goto pc) k := fun _ h => away_stopping id rfl h fun _ => .inl
  unfold Sys.shutdownChild at h
  split at h
  · obtain ⟨-, ht⟩ := Option.ite_none_right_eq_some.1 h
    cases ht
    exact hgoto _ rfl
  · rename_i c hc
    split at h
    · obtain ⟨-, ht⟩ := Option.ite_none_right_eq_some.1 h
      cases ht
      exact hgoto _ rfl
    · rename_i pid hpid
      split at h
      · rename_i st
        obtain ⟨kid, hkid, -⟩ := hp.owner c (List.mem_of_getElem? hc) pid hpid
        have ht : t = s.takeDown i c pid st := by
          unfold Sys.takeDown
          dsimp only at h
          split at h <;> cases h <;> simp_all
        subst ht
        refine away_stopping (fun h => ?_) (takeDown_conns ..) (by rw [takeDown_pc]; rfl) fun r hr => ?_
        · rwa [Sys.Outside, takeDown_conns, takeDown_backlog] at h
        · rw [takeDown_of_some s i c st hkid] at hr
          rcases List.mem_cons.1 hr with hr | hr
          · exact .inr ((Event.reply.inj hr).2 ▸ rfl)
          · exact .inl (reply_mem_tail (reply_mem_tail hr rfl) rfl)
      · cases h

/-- A receive moves no connection in or out of the backlog. -/
theorem outside_received {k' : ConnId} {conn : Conn} {queue : List Msg} {c' : DaemonClient} {pc : Pc} :
    (((s.setQueue k' conn queue).setClient i c').goto pc).Outside k ↔ s.Outside k := by
  simp only [Sys.Outside, goto_conns, goto_backlog, setClient_conns, setClient_backlog, setQueue_conns, List.length_set]
  rfl

private theorem outside_installed {k' : ConnId} {conn : Conn} {queue : List Msg} {fds : List Fd} {files : List FileId}
    {c' : DaemonClient} {pc : Pc} :
    ((((s.setQueue k' conn queue).install fds files).setClient i c').goto pc).Outside k ↔ s.Outside k := by
  have hbacklog : ((s.setQueue k' conn queue).install fds files).backlog = s.backlog := openAll_backlog ..
  simp only [Sys.Outside, goto_conns, goto_backlog, setClient_conns, setClient_backlog, install_conns, setQueue_conns,
    List.length_set, hbacklog]

/-- The descriptors that come with a receive lead to no connection. -/
theorem file_of_install {u : Sys} {fds : List Fd} {files : List FileId} {fd : Fd}
    (h : (u.install fds files).fdt fd = some (.conn k)) : u.fdt fd = some (.conn k) := by
  rw [install_fdt] at h
  rcases openAll_eq_some h with h | hmem
  · exact h
  · obtain ⟨-, d, hd⟩ := mem_zip_passed hmem
    cases hd

private theorem reply_mem_of_install {u : Sys} {fds : List Fd} {files : List FileId} {dst : Option File} {reply : Reply}
    (h : .reply dst reply ∈ (u.install fds files).log) : .reply dst reply ∈ u.log := by
  rcases mem_openAll_log.1 h with h | ⟨x, -, h⟩
  · exact h
  · cases h

/-- What the daemon does about the client that it reads concerns no other one. -/
theorem read_away (hs : s.pc = .reading pfds i r) (hc : s.clients[i]? = some c)
    (hk : s.fdt c.fd ≠ some (.conn k)) (h : s.read boot alloc pfds i r c ans = some t) : s.Away t k := by
  have hstop : s.pc.stopping = false := by rw [hs]; rfl
  have hread : s.reader? = some c := reader?_of_reading hs hc
  have hreader : ∀ x ∈ s.reader?, s.fdt x.fd ≠ some (.conn k) := by
    rintro x hx
    rw [hread] at hx
    cases hx
    exact hk
  have hdismiss : ∀ reply pfds, s.Away ((s.dismiss i c.fd reply).goto (.pass pfds i)) k := by
    intro reply pfds
    refine away_leave rfl rfl rfl rfl hstop hreader rfl fun r hr => .inl ?_
    rcases List.mem_cons.1 (reply_mem_tail hr rfl) with hr | hr
    · exact absurd (Event.reply.inj hr).1.symm hk
    · exact hr
  cases hscan : scan alloc r c.buf with
  | bad line buf =>
    obtain ⟨-, rfl⟩ := read_bad hscan h
    exact hdismiss _ _
  | crash e =>
    obtain ⟨-, rfl⟩ := read_crash hscan h
    exact away_goto (fun _ => hstop) hreader (.inl rfl)
  | done op fields buf =>
    simp only [Sys.read, hscan] at h
    have hanswer : ∀ reply pc, Pc.reads pc = false →
        s.Away (((s.setClient i { c with buf := buf }).respond c.fd reply).goto pc) k := by
      intro reply pc hpc
      refine away_set (d := { c with buf := buf }) hk hread hstop rfl rfl (fun _ => id) rfl id
        (.inl hpc) fun r hr => .inl ?_
      rcases List.mem_cons.1 hr with hr | hr
      · exact absurd (Event.reply.inj hr).1.symm hk
      · exact hr
    rcases dispatch_cases h with ⟨-, -, rfl⟩ | ⟨-, -, rfl⟩ | ⟨reply, -, rfl⟩ | ⟨pid, -, -, -, rfl⟩
    · exact hanswer _ _ rfl
    · exact hanswer _ _ rfl
    · exact hdismiss _ _
    · refine away_set (i := i) (d := { c with buf := buf, fds := [], pid := some pid }) hk hread hstop rfl ?_
        (fun fd hfd => ?_) (congrArg (·[k]?) (fork_conns (s.setClient i _) i _ fields pid)) (fun hout => ?_) (.inl rfl)
        fun r hr => .inl ?_
      · simp only [goto_clients, fork_clients, setClient_clients, List.set_set]
      · rw [goto_fdt, fork_fdt] at hfd
        exact closeAll_eq_some hfd
      · rwa [Sys.Outside, goto_conns, goto_backlog, fork_conns, fork_backlog] at hout
      · rcases mem_closeAll_log hr with hr | ⟨fd, file, hr⟩
        · rcases List.mem_cons.1 hr with hr | hr
          · cases hr
          · exact hr
        · cases hr
  | fill site r' buf =>
    have hother : ∀ {k' : ConnId} {conn : Conn} {bytes : Bytes} {files : List FileId} {queue : List Msg},
        s.Takes c.fd k' conn bytes files queue → (s.conns.set k' { conn with queue := queue })[k]? = s.conns[k]? := by
      intro k' conn bytes files queue ht
      rw [List.getElem?_set_ne]
      rintro rfl
      exact hk ht.fd
    rcases fill_cases hscan h with ⟨rfl, -⟩ | ⟨rfl, -⟩ | ⟨-, rfl, -⟩ | ⟨k', conn, bytes, files, queue, ht, -, rfl⟩ |
      ⟨fds, k', conn, bytes, files, queue, -, ht, -, -, -, -, rfl⟩
    · exact away_set (d := { c with buf := buf, first := false }) hk hread hstop rfl rfl (fun _ => id) rfl id
        (.inl rfl) fun _ => .inl
    · exact hdismiss _ _
    · refine away_set (d := { c with buf := buf, first := false, fds := [] }) hk hread hstop rfl rfl (fun _ => id) rfl
        id (.inr ⟨pfds, r', rfl⟩) fun _ => .inl
    · refine away_set (d := { c with buf := buf ++ bytes }) hk hread hstop rfl rfl (fun _ => id) (hother ht)
        outside_received.1 (.inr ⟨pfds, r', rfl⟩) fun _ => .inl
    · refine away_set (i := i) (d := { c with buf := buf ++ bytes, first := false, fds := fds }) hk hread hstop rfl ?_
        (fun fd hfd => ?_) ?_ outside_installed.1 (.inr ⟨pfds, r', rfl⟩) fun r hr => .inl ?_
      · simp only [goto_clients, setClient_clients, install_clients, setQueue_clients]
      · exact file_of_install (u := s.setQueue k' conn queue) hfd
      · simp only [goto_conns, setClient_conns, install_conns, setQueue_conns]
        exact hother ht
      · exact reply_mem_of_install (u := s.setQueue k' conn queue) hr

/-! ### Steps about the message -/

/-- The entry of the connection changes. -/
theorem carries_set (ho : s.Owned boot) (hs : s.Carries k m) (hc : s.clients[i]? = some c)
    (hk : s.fdt c.fd = some (.conn k)) {d : DaemonClient} (hclients : t.clients = s.clients.set i d)
    (hfdt : ∀ fd, t.fdt fd = some (.conn k) → s.fdt fd = some (.conn k)) (hout : t.Outside k → s.Outside k)
    (hawait : d.pid = none → t.Awaits k m d) (hpc : t.pc.reads = false ∨ ∃ pfds j, t.pc = .reading pfds j .head)
    (hclosed : s.Closed k → t.Closed k)
    (hlog : ∀ r, .reply (some (.conn k)) r ∈ t.log → .reply (some (.conn k)) r ∈ s.log) : t.Carries k m where
  outside h := absurd (hout h) (ho.not_outside hk)
  entry _ x hx hxk hidle := by
    rw [hclients] at hx
    obtain rfl | hx := mem_set_or_mem_eraseIdx hc hx
    · exact hawait hidle
    · exact absurd (ho.inj _ _ _ (hfdt _ hxk) hk) (ho.fd_ne hc hx)
  head pfds j r _ h _ _ := by
    obtain hnot | ⟨pfds', j', hpc'⟩ := hpc
    · exact absurd h (Pc.not_reads hnot)
    · cases hpc'.symm.trans h
      rfl
  told r hr := (hs.told r (hlog r hr)).imp id (Or.imp id (And.imp id hclosed))

/-- The entry of the connection leaves, told that the stream has ended or that `fork` has failed. -/
theorem carries_dismiss (ho : s.Owned boot) (hs : s.Carries k m) (hk : s.fdt c.fd = some (.conn k)) {reply : Reply}
    (hreply : reply = .fork ∨ reply = .eof ∧ s.Closed k) (pfds : List PollFd) :
    Sys.Carries ((s.dismiss i c.fd reply).goto (.pass pfds i)) k m where
  outside h := absurd h (ho.not_outside hk)
  entry _ x hx hxk _ := by
    have hx' : x ∈ s.clients.eraseIdx i := hx
    have hxk' : update s.fdt c.fd none x.fd = some (.conn k) := hxk
    have hfd : x.fd = c.fd := ho.inj _ _ _ (update_none_eq_some hxk') hk
    rw [hfd, update_self] at hxk'
    cases hxk'
  head _ _ _ _ h := by cases h
  told r hr := by
    rcases List.mem_cons.1 (reply_mem_tail hr rfl) with hr | hr
    · obtain rfl : r = reply := (Event.reply.inj hr).2
      exact .inr hreply
    · exact hs.told r hr

/-- What comes in is `m`, whole. -/
theorem Sys.Takes.untouched {fd : Fd} {conn : Conn} {bytes : Bytes} {files : List FileId} {queue : List Msg}
    (h : s.Takes fd k conn bytes files queue) (hlen : m.bytes.length ≤ 65536) (hnew : conn.Untouched m) :
    bytes = m.bytes ∧ queue = [] ∧ conn.talked := by
  have htalked : conn.talked := by
    by_contra hno
    exact h.nonempty (by rw [hnew, if_neg hno])
  have hglue := h.glue
  rw [hnew, if_pos htalked, Calisto.glue, if_neg (by decide), dif_neg (Nat.not_lt.2 hlen)] at hglue
  split at hglue
  · cases hglue
    exact ⟨rfl, rfl, htalked⟩
  · rw [Calisto.glue] at hglue
    cases hglue
    exact ⟨List.append_nil _, rfl, htalked⟩

/-- The read of the connection itself. -/
theorem read_carries (ho : s.Owned boot) (hs : s.Carries k m) (hlen : m.bytes.length ≤ 65536) {op : Str}
    {fields : List Bytes} (hm : scan alloc .head m.bytes = .done op fields []) (hop : opOf op = .request)
    (hpc : s.pc = .reading pfds i r) (hc : s.clients[i]? = some c) (hidle : c.pid = none)
    (hk : s.fdt c.fd = some (.conn k)) (h : s.read boot alloc pfds i r c ans = some t) : t.Carries k m := by
  have hstop : s.pc.stopping = false := by rw [hpc]; rfl
  obtain rfl := hs.head pfds i r c hpc hc hk
  obtain ⟨conn, hconn, ⟨hbuf, hnew⟩ | ⟨hbuf, -, -, -⟩⟩ := hs.entry hstop c (List.mem_of_getElem? hc) hk hidle
  · -- nothing of the message has come yet
    have hscan : scan alloc .head c.buf = .fill .head .head [] := by rw [hbuf]; rfl
    have htaken : ∀ {k' : ConnId} {conn' : Conn} {bytes : Bytes} {files : List FileId} {queue : List Msg},
        s.Takes c.fd k' conn' bytes files queue →
          k' = k ∧ conn' = conn ∧ bytes = m.bytes ∧ queue = [] ∧ conn.talked := by
      intro k' conn' bytes files queue ht
      obtain rfl : k' = k := by simpa using ht.fd.symm.trans hk
      obtain rfl : conn' = conn := Option.some.inj (ht.get.symm.trans hconn)
      exact ⟨rfl, rfl, ht.untouched hlen hnew⟩
    have hset : ∀ queue, (s.conns.set k { conn with queue := queue })[k]? = some { conn with queue := queue } :=
      fun queue => getElem?_set_of_get hconn _
    have hstays : ∀ {u : Sys}, u.conns = s.conns.set k { conn with queue := [] } → s.Closed k → u.Closed k := by
      rintro u hu ⟨x, hx, hclosed⟩
      obtain rfl : conn = x := Option.some.inj (hconn.symm.trans hx)
      rw [Sys.Closed, hu]
      exact ⟨_, hset [], hclosed⟩
    rcases fill_cases hscan h with ⟨rfl, -⟩ | ⟨rfl, -, hclosed⟩ | ⟨-, rfl, -⟩ |
      ⟨k', conn', bytes, files, queue, ht, -, rfl⟩ | ⟨fds, k', conn', bytes, files, queue, -, ht, -, -, -, -, rfl⟩
    · exact carries_set ho hs hc hk (d := { c with buf := [], first := false }) rfl (fun _ => id) id
        (fun _ => ⟨conn, hconn, .inl ⟨rfl, hnew⟩⟩) (.inl rfl) id fun _ => id
    · have hget : s.conn? c.fd = some conn := by
        rw [Sys.conn?, hk]
        exact hconn
      exact carries_dismiss ho hs hk (.inr ⟨rfl, conn, hconn, hclosed conn hget⟩) pfds
    · refine carries_set ho hs hc hk (d := { c with buf := [], first := false, fds := [] }) rfl (fun _ => id) id
        (fun _ => ⟨conn, hconn, .inl ⟨rfl, hnew⟩⟩) (.inr ⟨pfds, i, rfl⟩) id fun _ => id
    · obtain ⟨rfl, rfl, rfl, rfl, htalked⟩ := htaken ht
      refine carries_set ho hs hc hk (d := { c with buf := [] ++ m.bytes }) rfl (fun _ => id) outside_received.1
        (fun _ => ⟨_, hset [], .inr ⟨rfl, rfl, htalked, ?_⟩⟩) (.inr ⟨pfds, i, rfl⟩) (hstays rfl) fun _ => id
      exact getElem?_set_of_get hc _
    · obtain ⟨rfl, rfl, rfl, rfl, htalked⟩ := htaken ht
      refine carries_set ho hs hc hk (d := { c with buf := [] ++ m.bytes, first := false, fds := fds }) ?_
        (fun fd hfd => ?_) outside_installed.1 (fun _ => ⟨{ conn' with queue := [] }, ?_, .inr ⟨rfl, rfl, htalked, ?_⟩⟩)
        (.inr ⟨pfds, i, rfl⟩) (hstays ?_) fun r hr => ?_
      · simp only [goto_clients, setClient_clients, install_clients, setQueue_clients]
      · exact file_of_install (u := s.setQueue k' conn' []) hfd
      · simp only [goto_conns, setClient_conns, install_conns, setQueue_conns]
        exact hset []
      · refine reader?_of_reading rfl ?_
        simp only [goto_clients, setClient_clients, install_clients, setQueue_clients]
        exact getElem?_set_of_get hc _
      · simp only [goto_conns, setClient_conns, install_conns, setQueue_conns]
      · exact reply_mem_of_install (u := s.setQueue k' conn' []) hr
  · -- the message is there, and it is a request
    rw [← hbuf] at hm
    simp only [Sys.read, hm] at h
    rcases dispatch_cases h with ⟨hping, -⟩ | ⟨hstop, -⟩ | ⟨reply, ⟨-, -, rfl⟩ | ⟨hother, -⟩, rfl⟩ | ⟨pid, -, -, -, rfl⟩
    · rw [hop] at hping
      cases hping
    · rw [hop] at hstop
      cases hstop
    · exact carries_dismiss ho hs hk (.inl rfl) pfds
    · rw [hop] at hother
      cases hother
    · refine carries_set ho hs hc hk (d := { c with buf := [], fds := [], pid := some pid }) ?_ (fun fd hfd => ?_)
        (fun hout => ?_) (fun h => by cases h) (.inl rfl) (fun hclosed => ?_) fun r hr => ?_
      · simp only [goto_clients, fork_clients, setClient_clients, List.set_set]
      · rw [goto_fdt, fork_fdt] at hfd
        exact closeAll_eq_some hfd
      · rwa [Sys.Outside, goto_conns, goto_backlog, fork_conns, fork_backlog] at hout
      · rwa [Sys.Closed, goto_conns, fork_conns]
      · rcases mem_closeAll_log hr with hr | ⟨fd, file, hr⟩
        · exact reply_mem_tail hr rfl
        · cases hr

/-- `accept` gives the connection an entry, or another one. -/
theorem accept_carries (ho : s.Owned boot) (hs : s.Carries k m) (hpc : s.pc = .accepting pfds)
    (h : s.accept boot pfds ans = some t) : t.Carries k m := by
  have hread : s.pc.reads = false := by rw [hpc]; rfl
  have hstop : s.pc.stopping = false := by rw [hpc]; rfl
  rcases accept_cases h with ⟨fd, k', rest, -, hb, hfree, rfl⟩ | ⟨-, rfl⟩ | ⟨-, rfl⟩
  · have hout : (s.welcome fd k' rest).Outside k → s.Outside k :=
      Or.imp (fun h => hb ▸ List.mem_cons_of_mem _ h) id
    have hnot : ∀ pfds i r, (s.welcome fd k' rest).pc ≠ .reading pfds i r := fun _ _ _ => Pc.not_reads hread
    have hlog : ∀ r, .reply (some (.conn k)) r ∈ (s.welcome fd k' rest).log → .reply (some (.conn k)) r ∈ s.log :=
      fun r hr => reply_mem_tail hr rfl
    by_cases hk : k' = k
    · subst hk
      have hmem : s.Outside k' := .inl (by rw [hb]; exact List.mem_cons_self ..)
      refine ⟨fun h => hs.outside (hout h), fun _ c hc hck _ => ?_, fun _ _ _ _ h => absurd h (hnot _ _ _),
        fun r hr => hs.told r (hlog r hr)⟩
      rcases List.mem_append.1 hc with hc | hc
      · -- an entry of before leads to another connection
        have hne : c.fd ≠ fd := by
          intro hfd
          obtain ⟨j, hj⟩ := ho.control c hc
          rw [hfd, hfree.1] at hj
          cases hj
        have hck' : s.fdt c.fd = some (.conn k') := (update_of_ne hne _ _).symm.trans hck
        exact absurd hmem (ho.not_outside hck')
      · obtain rfl := List.mem_singleton.1 hc
        have hlen : k' < s.conns.length := ho.backlog_bound k' (by rw [hb]; exact List.mem_cons_self ..)
        obtain ⟨conn, hconn⟩ : ∃ conn, s.conns[k']? = some conn := ⟨_, List.getElem?_eq_getElem hlen⟩
        exact ⟨conn, hconn, .inl ⟨rfl, hs.outside hmem conn hconn⟩⟩
    · have haway : s.Away (s.welcome fd k' rest) k := by
        refine ⟨hout, rfl, fun _ c hc hck _ => ?_, fun _ _ _ _ h => absurd h (hnot _ _ _), fun r hr => .inl (hlog r hr)⟩
        have hne : c.fd ≠ fd := by
          intro hfd
          have hck' : update s.fdt fd (some (.conn k')) c.fd = some (.conn k) := hck
          rw [hfd, update_self] at hck'
          exact hk (by simpa using hck')
        have hck' : s.fdt c.fd = some (.conn k) := (update_of_ne hne _ _).symm.trans hck
        refine ⟨hstop, (List.mem_append.1 hc).resolve_right fun hc => ?_, hck', fun h => not_read hread c h hck'⟩
        obtain rfl := List.mem_singleton.1 hc
        exact hne rfl
      exact haway.carries hs
  · exact hs
  · exact (away_goto (fun _ => hstop) (not_read hread) (.inl rfl)).carries hs

/-- What happens outside the daemon leaves the message whole. -/
theorem carries_quiet (hs : s.Carries k m) (hclients : t.clients = s.clients) (hfdt : t.fdt = s.fdt)
    (hpc : t.pc = s.pc) (hlog : t.log = s.log) (hout : t.Outside k → ∀ conn ∈ t.conns[k]?, conn.Untouched m)
    (hconn : ∀ conn, s.conns[k]? = some conn → ∃ conn', t.conns[k]? = some conn' ∧
      (conn.Untouched m → conn'.Untouched m) ∧ (conn.queue = [] ∧ conn.talked → conn'.queue = [] ∧ conn'.talked) ∧
      (conn.closed → conn'.closed)) :
    t.Carries k m where
  outside := hout
  entry hstop c hc hk hidle := by
    rw [hpc] at hstop
    rw [hclients] at hc
    rw [hfdt] at hk
    obtain ⟨conn, hget, hcases⟩ := hs.entry hstop c hc hk hidle
    obtain ⟨conn', hget', hnew, hdone, -⟩ := hconn conn hget
    refine ⟨conn', hget', hcases.imp (fun h => ⟨h.1, hnew h.2⟩) fun ⟨hbuf, hqueue, htalked, hread⟩ => ?_⟩
    obtain ⟨hqueue', htalked'⟩ := hdone ⟨hqueue, htalked⟩
    refine ⟨hbuf, hqueue', htalked', ?_⟩
    rwa [Sys.reader?, hpc, hclients]
  head pfds i r c h hc hk := hs.head pfds i r c (hpc ▸ h) (hclients ▸ hc) (hfdt ▸ hk)
  told r hr := by
    refine (hs.told r (hlog ▸ hr)).imp id (Or.imp id (And.imp id fun hclosed => ?_))
    obtain ⟨conn, hget, hclosed⟩ := hclosed
    obtain ⟨conn', hget', -, -, hstays⟩ := hconn conn hget
    exact ⟨conn', hget', hstays hclosed⟩

/-- A connection changes, and what it has in flight and has said stays. -/
theorem carries_setConn (hs : s.Carries k m) {j : ConnId} {conn conn' : Conn} (hj : s.conns[j]? = some conn)
    (hnew : j = k → conn.Untouched m → conn'.Untouched m)
    (hdone : j = k → conn.queue = [] ∧ conn.talked → conn'.queue = [] ∧ conn'.talked)
    (hclosed : conn.closed → conn'.closed) :
    Sys.Carries { s with conns := s.conns.set j conn' } k m := by
  have hget : ∀ x, s.conns[k]? = some x → ∃ x', (s.conns.set j conn')[k]? = some x' ∧
      (x.Untouched m → x'.Untouched m) ∧ (x.queue = [] ∧ x.talked → x'.queue = [] ∧ x'.talked) ∧
      (x.closed → x'.closed) := by
    intro x hx
    by_cases hjk : j = k
    · subst hjk
      obtain rfl : conn = x := Option.some.inj (hj.symm.trans hx)
      exact ⟨conn', getElem?_set_of_get hj _, hnew rfl, hdone rfl, hclosed⟩
    · exact ⟨x, by rw [List.getElem?_set_ne hjk, hx], id, id, id⟩
  refine carries_quiet hs rfl rfl rfl rfl (fun hout x' hx' => ?_) hget
  have hlt : k < s.conns.length := by
    obtain ⟨hlt, -⟩ := List.getElem?_eq_some_iff.1 hx'
    rwa [List.length_set] at hlt
  obtain ⟨x, hx⟩ : ∃ x, s.conns[k]? = some x := ⟨_, List.getElem?_eq_getElem hlt⟩
  obtain ⟨x'', hx'', hkeep, -⟩ := hget x hx
  obtain rfl : x'' = x' := Option.some.inj (hx''.symm.trans hx')
  exact hkeep (hs.outside (by simpa only [Sys.Outside, List.length_set] using hout) x hx)

private theorem step_carries (hr : s.ReadsWaiting) (ho : s.Owned boot) (hp : s.Parented) (hs : s.Carries k m)
    (hlen : m.bytes.length ≤ 65536) {op : Str} {fields : List Bytes}
    (hm : scan alloc .head m.bytes = .done op fields []) (hop : opOf op = .request) (hg : Only k m s a)
    (h : step boot alloc s a = some t) : t.Carries k m := by
  cases a with
  | connect =>
    cases h
    refine carries_quiet hs rfl rfl rfl rfl (fun hout conn hconn => ?_) fun conn hconn => ⟨conn, ?_, id, id, id⟩
    · rw [Option.mem_def, List.getElem?_append] at hconn
      split at hconn
      · rename_i hlt
        refine hs.outside ?_ conn hconn
        rcases hout with hout | hout
        · rcases List.mem_append.1 hout with hout | hout
          · exact .inl hout
          · exact absurd (List.mem_singleton.1 hout) (Nat.ne_of_lt hlt)
        · rw [List.length_append, List.length_singleton] at hout
          exact absurd hlt (Nat.not_lt.2 (Nat.le_of_succ_le hout))
      · rw [List.getElem?_singleton] at hconn
        split at hconn <;> cases hconn
        rfl
    · exact List.getElem?_append_left (List.getElem?_eq_some_iff.1 hconn).1 ▸ hconn
  | signal =>
    cases h
    exact carries_quiet hs rfl rfl rfl rfl hs.outside fun conn hconn => ⟨conn, hconn, id, id, id⟩
  | send j m' =>
    simp only [step] at h
    split at h
    · cases h
    · rename_i conn hj
      split at h <;> cases h
      refine carries_setConn hs hj (fun hjk hnew => ?_) (fun hjk hdone => ?_) id
      · obtain ⟨rfl, hsilent⟩ := hg hjk
        have htalked := hsilent conn (hjk ▸ hj)
        rw [Conn.Untouched, htalked] at hnew
        rw [Conn.Untouched, Conn.send, hnew]
        rfl
      · have htalked := (hg hjk).2 conn (hjk ▸ hj)
        rw [hdone.2] at htalked
        cases htalked
  | hangup j =>
    simp only [step] at h
    split at h <;> cases h
    rename_i conn hj
    exact carries_setConn hs hj (fun _ => id) (fun _ => id) fun _ => rfl
  | exit pid status =>
    simp only [step] at h
    split at h
    · cases h
    · obtain ⟨-, ht⟩ := Option.ite_none_right_eq_some.1 h
      cases ht
      exact carries_quiet hs rfl rfl rfl rfl hs.outside fun conn hconn => ⟨conn, hconn, id, id, id⟩
  | daemon ans =>
    have hd : s.daemonStep boot alloc ans = some t := h
    unfold Sys.daemonStep at hd
    rcases hpc : s.pc with _ | pfds | ⟨pfds, i⟩ | ⟨pfds, i, r⟩ | i | i | _ | _ | e <;> simp only [hpc] at hd
    · have hread : s.pc.reads = false := by rw [hpc]; rfl
      have hgoto : ∀ pc, Pc.reads pc = false → Sys.Carries (s.goto pc) k m := fun pc hnot =>
        (away_goto (fun _ => by rw [hpc]; rfl) (not_read hread) (.inl hnot)).carries hs
      rcases tick_cases hd with ⟨-, -, rfl⟩ | ⟨listener, revents, -, -, rfl⟩ | ⟨-, rfl⟩ | ⟨-, rfl⟩
      · exact hgoto _ rfl
      · refine hgoto _ ?_
        split <;> rfl
      · exact hs
      · exact hgoto _ rfl
    · exact accept_carries ho hs hpc hd
    · exact (visit_away hpc hp hd).carries hs
    · obtain ⟨-, c, hc, hidle⟩ := hr pfds i r hpc
      simp only [hc] at hd
      by_cases hk : s.fdt c.fd = some (.conn k)
      · exact read_carries ho hs hlen hm hop hpc hc hidle hk hd
      · exact (read_away hpc hc hk hd).carries hs
    · exact (reapChild_away hpc hp hd).carries hs
    · exact (shutdownChild_away hp hd).carries hs
    all_goals cases hd

/-! ### Every run -/

theorem opOf_request {op : Str} (hop : op = "RUN".toList ∨ op = "EVAL".toList) : opOf op = .request := by
  rcases hop with rfl | rfl <;> rfl

theorem carries_of_reach (hlen : m.bytes.length ≤ 65536) {op : Str} {fields : List Bytes}
    (hm : scan alloc .head m.bytes = .done op fields []) (hop : opOf op = .request)
    (h : Reach (step boot alloc) (Only k m) {} s) : s.Carries k m := by
  refine h.invariant (I := fun s => s.Carries k m) ?_ fun s a t hreach hi hg hstep => ?_
  · exact ⟨fun _ _ h => (by cases h), nofun, nofun, nofun⟩
  · exact step_carries (readsWaiting_of_reach hreach) (owned_of_reach hreach) (parented_of_reach hreach) hi hlen hm hop
      hg hstep

/-- A read of the connection finds nothing, or what is in the message. -/
theorem Sys.Carries.finds (hs : s.Carries k m) (hr : s.ReadsWaiting) {res : Scan} (h : s.Finds alloc c res)
    (hk : s.fdt c.fd = some (.conn k)) : res = .fill .head .head [] ∨ res = scan alloc .head m.bytes := by
  obtain ⟨pfds, i, r, hpc, hc, rfl⟩ := h
  obtain ⟨-, c', hc', hidle⟩ := hr pfds i r hpc
  obtain rfl : c' = c := Option.some.inj (hc'.symm.trans hc)
  obtain rfl := hs.head pfds i r c' hpc hc hk
  obtain ⟨conn, -, ⟨hbuf, -⟩ | ⟨hbuf, -⟩⟩ := hs.entry (by rw [hpc]; rfl) c' (List.mem_of_getElem? hc) hk hidle
  · left
    rw [hbuf]
    rfl
  · exact .inr (hbuf ▸ rfl)

/-- A client sends nothing but its request, which is queued as one message.  Whenever the daemon reads from it, it finds
nothing yet, or the command with the strings that the client had; and all that the client is told is the status of its
child, or that there is none because `fork` failed or it has closed its end. -/
theorem request_served {op cwd envBlob subject : Str} {args : List Str} (hop : op = "RUN".toList ∨ op = "EVAL".toList)
    (hsend : sendRunRequest op cwd envBlob subject args = some m.bytes) (hlen : m.bytes.length ≤ packetSize)
    (hfits : withCapacity alloc (args.length + 3) = none) (h : Reach (step boot alloc) (Only k m) {} s) :
    (∀ c res, s.Finds alloc c res → s.fdt c.fd = some (.conn k) →
      res = .fill .head .head [] ∨ ∃ fields, res = .done op fields [] ∧
        decodeFields fields = some (cwd :: envBlob :: subject :: args)) ∧
      ∀ reply ∈ s.replies k, reply.isStatus ∨ reply = .fork ∨ reply = .eof ∧ s.Closed k := by
  have hlen : m.bytes.length ≤ 65536 := hlen.trans (by decide)
  obtain ⟨fields, hscan, hfields⟩ := scan_sendRunRequest hop hfits hsend hlen
  have hcarries := carries_of_reach hlen hscan (opOf_request hop) h
  refine ⟨fun c res hfinds hk => ?_, fun reply hreply => hcarries.told reply (mem_replies.1 hreply)⟩
  refine (hcarries.finds (readsWaiting_of_reach h) hfinds hk).imp id ?_
  rintro rfl
  exact ⟨fields, hscan, hfields⟩

/-- The request that is decoded next is what the read has come to. -/
theorem finds_of_decoding {fields : List Bytes} (h : s.decoding alloc = some fields) :
    ∃ c op buf, s.Finds alloc c (.done op fields buf) ∧ s.reader? = some c := by
  unfold Sys.decoding at h
  split at h
  · rename_i pfds i r hpc
    split at h
    · cases h
    · rename_i c hc
      split at h
      · rename_i op fields' buf hscan
        obtain ⟨-, hfields⟩ := Option.ite_none_right_eq_some.1 h
        cases hfields
        exact ⟨c, op, buf, ⟨pfds, i, r, hpc, hc, hscan⟩, reader?_of_reading hpc hc⟩
      · cases h
  · cases h

/-- What `calisto run app.rb -v` sends in `/`, with its stdio. -/
def smallRequest : Msg :=
  ⟨utf8 "RUN 4\r\n$4\r\nLw==$0\r\n$8\r\nYXBwLnJi$4\r\nLXY=".toList, [7, 8, 9], by decide⟩

/-- The daemon has read it. -/
theorem request_served_run :
    ∃ s c fields, Reach (step bareBoot fun _ => true) (Only 0 smallRequest) {} s ∧
      s.Finds (fun _ => true) c (.done "RUN".toList fields []) ∧
      decodeFields fields = some ["/".toList, [], "app.rb".toList, "-v".toList] := by
  have hrun : (exec (guarded (step bareBoot fun _ => true) (Only 0 smallRequest)) {}
      (oneClient "RUN 4\r\n$4\r\nLw==$0\r\n$8\r\nYXBwLnJi$4\r\nLXY=" smallRequest.nonempty)).any (fun s =>
        (s.decoding fun _ => true).isSome ∧ s.reader?.any fun c => s.fdt c.fd = some (.conn 0)) = true := by
    decide
  obtain ⟨s, hs, hstat⟩ := Reach.of_any_guarded hrun
  obtain ⟨hdecoding, hreader⟩ := of_decide_eq_true hstat
  obtain ⟨fields, hfields⟩ := Option.isSome_iff_exists.1 hdecoding
  obtain ⟨c, op, buf, hfinds, hread⟩ := finds_of_decoding hfields
  rw [hread] at hreader
  have hsend : sendRunRequest "RUN".toList "/".toList [] "app.rb".toList ["-v".toList] = some smallRequest.bytes := by
    rw [sendRunRequest, mapM_b64]
    decide +kernel
  obtain ⟨hreads, -⟩ := request_served (.inl rfl) hsend (by decide) rfl hs
  rcases hreads c _ hfinds (of_decide_eq_true hreader) with hfill | ⟨fields', hdone, hdecoded⟩
  · cases hfill
  · rw [hdone] at hfinds
    exact ⟨s, c, fields', hs, hfinds, hdecoded⟩

end Calisto

import Calisto.Daemon.Loop
import Calisto.Lib.Entries

/-!
# What a step can do

`Effect` lists what a step of the system changes, with the conditions under which it does so, and `step_effect` reads
it off the code once.  The invariants of the loop are proved by cases on `Effect` and never unfold a step.
-/

namespace Calisto

open Function

/-! ### Fields of the primitives -/

section Fields

variable (s : Sys) (i : Nat) (c : DaemonClient) (fd : Fd) (r : Reply) (pc : Pc)

@[simp] theorem goto_clients : (s.goto pc).clients = s.clients := rfl
@[simp] theorem goto_fdt : (s.goto pc).fdt = s.fdt := rfl
@[simp] theorem goto_kids : (s.goto pc).kids = s.kids := rfl
@[simp] theorem goto_conns : (s.goto pc).conns = s.conns := rfl
@[simp] theorem goto_backlog : (s.goto pc).backlog = s.backlog := rfl
@[simp] theorem goto_pc : (s.goto pc).pc = pc := rfl

@[simp] theorem respond_conns : (s.respond fd r).conns = s.conns := rfl
@[simp] theorem respond_backlog : (s.respond fd r).backlog = s.backlog := rfl
@[simp] theorem respond_log : (s.respond fd r).log = .reply (s.fdt fd) r :: s.log := rfl

@[simp] theorem setClient_clients : (s.setClient i c).clients = s.clients.set i c := rfl
@[simp] theorem setClient_fdt : (s.setClient i c).fdt = s.fdt := rfl
@[simp] theorem setClient_kids : (s.setClient i c).kids = s.kids := rfl
@[simp] theorem setClient_conns : (s.setClient i c).conns = s.conns := rfl
@[simp] theorem setClient_backlog : (s.setClient i c).backlog = s.backlog := rfl

/-- `close` and `remove`: how an entry leaves. -/
def Sys.leave (s : Sys) (i : Nat) (fd : Fd) : Sys := (s.close fd).removeClient i

@[simp] theorem leave_clients : (s.leave i fd).clients = s.clients.eraseIdx i := rfl
@[simp] theorem leave_fdt : (s.leave i fd).fdt = update s.fdt fd none := rfl
@[simp] theorem leave_kids : (s.leave i fd).kids = s.kids := rfl
@[simp] theorem leave_conns : (s.leave i fd).conns = s.conns := rfl
@[simp] theorem leave_backlog : (s.leave i fd).backlog = s.backlog := rfl
@[simp] theorem leave_log : (s.leave i fd).log = .closed fd (s.fdt fd) :: s.log := rfl

theorem dismiss_eq : s.dismiss i fd r = (s.respond fd r).leave i fd := rfl

private theorem dismiss_setClient : (s.setClient i c).dismiss i fd r = s.dismiss i fd r := by
  simp [Sys.dismiss, Sys.respond, Sys.close, Sys.removeClient, Sys.setClient, List.eraseIdx_set_eq]

end Fields

/-- A child is reaped. -/
def Sys.reaped (s : Sys) (pid : Pid) (kid : Kid) (st : Status) : Sys :=
  { s with kids := update s.kids pid none, log := .reap pid kid st :: s.log }

/-- A live child is signalled. -/
def Sys.signalled (s : Sys) (pid : Pid) (kid : Kid) : Sys := { s with log := .kill pid (some kid) :: s.log }

theorem killChild_of_some {s : Sys} {pid : Pid} {kid : Kid} (h : s.kids pid = some kid) (st : Status) :
    s.killChild pid st = ((s.signalled pid kid).reaped pid kid (kid.status.getD st), some (kid.status.getD st)) := by
  simp [Sys.killChild, Sys.signalled, Sys.reaped, h]

/-! ### Opening and closing several descriptors -/

theorem openAll_cons (s : Sys) (x : Fd × File) (new : List (Fd × File)) :
    s.openAll (x :: new) = (s.openFd x.1 x.2).openAll new := rfl

theorem closeAll_cons (s : Sys) (fd : Fd) (fds : List Fd) : s.closeAll (fd :: fds) = (s.close fd).closeAll fds := rfl

/-- What opening one descriptor leaves as it is, opening several does. -/
theorem openAll_frame {β : Sort*} {f : Sys → β} (h : ∀ s fd file, f (s.openFd fd file) = f s) (s : Sys)
    (new : List (Fd × File)) : f (s.openAll new) = f s := by
  induction new generalizing s with
  | nil => rfl
  | cons x new ih => rw [openAll_cons, ih, h]

theorem closeAll_frame {β : Sort*} {f : Sys → β} (h : ∀ s fd, f (s.close fd) = f s) (s : Sys) (fds : List Fd) :
    f (s.closeAll fds) = f s := by
  induction fds generalizing s with
  | nil => rfl
  | cons fd fds ih => rw [closeAll_cons, ih, h]

section Fields

variable (s : Sys) (fds : List Fd) (new : List (Fd × File))

@[simp] theorem openAll_clients : (s.openAll new).clients = s.clients := openAll_frame (fun _ _ _ => rfl) s new
@[simp] theorem openAll_kids : (s.openAll new).kids = s.kids := openAll_frame (fun _ _ _ => rfl) s new
@[simp] theorem openAll_conns : (s.openAll new).conns = s.conns := openAll_frame (fun _ _ _ => rfl) s new
@[simp] theorem openAll_backlog : (s.openAll new).backlog = s.backlog := openAll_frame (fun _ _ _ => rfl) s new

@[simp] theorem openAll_fdt : (s.openAll new).fdt = Handles.openAll s.fdt new := by
  induction new generalizing s with
  | nil => rfl
  | cons x new ih => rw [openAll_cons, ih]; rfl

@[simp] theorem closeAll_clients : (s.closeAll fds).clients = s.clients := closeAll_frame (fun _ _ => rfl) s fds
@[simp] theorem closeAll_kids : (s.closeAll fds).kids = s.kids := closeAll_frame (fun _ _ => rfl) s fds
@[simp] theorem closeAll_conns : (s.closeAll fds).conns = s.conns := closeAll_frame (fun _ _ => rfl) s fds
@[simp] theorem closeAll_backlog : (s.closeAll fds).backlog = s.backlog := closeAll_frame (fun _ _ => rfl) s fds

@[simp] theorem closeAll_fdt : (s.closeAll fds).fdt = Handles.closeAll s.fdt fds := by
  induction fds generalizing s with
  | nil => rfl
  | cons fd fds ih => rw [closeAll_cons, ih]; rfl

end Fields

/-! ### Fields of the composed ones -/

section Fields

variable (s : Sys) (i : Nat) (c : DaemonClient) (fields : List Bytes) (pid : Pid) (st : Status)

@[simp] theorem fork_clients :
    (s.fork i c fields pid).clients = s.clients.set i { c with fds := [], pid := some pid } := by
  simp [Sys.fork]
@[simp] theorem fork_fdt : (s.fork i c fields pid).fdt = Handles.closeAll s.fdt c.fds := by simp [Sys.fork]
@[simp] theorem fork_kids :
    (s.fork i c fields pid).kids = update s.kids pid (some { owner := s.fdt c.fd }) := by
  simp [Sys.fork]
@[simp] theorem fork_conns : (s.fork i c fields pid).conns = s.conns := by simp [Sys.fork]
@[simp] theorem fork_backlog : (s.fork i c fields pid).backlog = s.backlog := by simp [Sys.fork]

/-- `kill_child` changes nothing but the table of the children, and the log. -/
theorem killChild_eq : ∃ log, (s.killChild pid st).1 = { s with kids := update s.kids pid none, log := log } := by
  cases h : s.kids pid with
  | none =>
    have hkids : update s.kids pid none = s.kids := by rw [← h, update_eq_self]
    rw [hkids]
    exact ⟨.kill pid none :: s.log, by simp [Sys.killChild, h]⟩
  | some kid =>
    rw [killChild_of_some h]
    exact ⟨_, rfl⟩

@[simp] theorem killChild_clients : (s.killChild pid st).1.clients = s.clients := by
  obtain ⟨log, h⟩ := killChild_eq s pid st
  rw [h]
@[simp] theorem killChild_fdt : (s.killChild pid st).1.fdt = s.fdt := by
  obtain ⟨log, h⟩ := killChild_eq s pid st
  rw [h]
@[simp] theorem killChild_conns : (s.killChild pid st).1.conns = s.conns := by
  obtain ⟨log, h⟩ := killChild_eq s pid st
  rw [h]
@[simp] theorem killChild_backlog : (s.killChild pid st).1.backlog = s.backlog := by
  obtain ⟨log, h⟩ := killChild_eq s pid st
  rw [h]

theorem killChild_kids : (s.killChild pid st).1.kids = update s.kids pid none := by
  obtain ⟨log, h⟩ := killChild_eq s pid st
  rw [h]

/-- A round of `daemon_shutdown` on a client with a child. -/
def Sys.takeDown (s : Sys) (i : Nat) (c : DaemonClient) (pid : Pid) (st : Status) : Sys :=
  match (s.setClient i { c with pid := none }).killChild pid st with
  | (s, some status) => (s.respond c.fd (.status (waitStatusCode status))).goto (.shutdown (i + 1))
  | (s, none) => s.goto (.shutdown (i + 1))

variable {pid} in
theorem takeDown_of_some {kid : Kid} (h : s.kids pid = some kid) :
    s.takeDown i c pid st =
      (((((s.setClient i { c with pid := none }).signalled pid kid).reaped pid kid (kid.status.getD st)).respond c.fd
        (.status (waitStatusCode (kid.status.getD st)))).goto (.shutdown (i + 1))) := by
  have hset : (s.setClient i { c with pid := none }).kids pid = some kid := h
  unfold Sys.takeDown
  rw [killChild_of_some hset]

variable {pid} in
theorem takeDown_of_none (h : s.kids pid = none) :
    s.takeDown i c pid st =
      { s.setClient i { c with pid := none } with log := .kill pid none :: s.log, pc := .shutdown (i + 1) } := by
  simp [Sys.takeDown, Sys.killChild, h, Sys.goto, Sys.setClient]

/-- A round of `daemon_shutdown` changes nothing but the client, the table of the children, and the log. -/
theorem takeDown_eq :
    ∃ log, s.takeDown i c pid st = { s with
      clients := s.clients.set i { c with pid := none }
      kids := update s.kids pid none
      pc := .shutdown (i + 1)
      log := log } := by
  cases h : s.kids pid with
  | none =>
    have hkids : update s.kids pid none = s.kids := by rw [← h, update_eq_self]
    rw [takeDown_of_none s i c st h, hkids]
    exact ⟨_, rfl⟩
  | some kid =>
    rw [takeDown_of_some s i c st h]
    exact ⟨_, rfl⟩

theorem takeDown_pc : (s.takeDown i c pid st).pc = .shutdown (i + 1) := by
  obtain ⟨log, h⟩ := takeDown_eq s i c pid st
  rw [h]
@[simp] theorem takeDown_clients :
    (s.takeDown i c pid st).clients = s.clients.set i { c with pid := none } := by
  obtain ⟨log, h⟩ := takeDown_eq s i c pid st
  rw [h]
theorem takeDown_kids : (s.takeDown i c pid st).kids = update s.kids pid none := by
  obtain ⟨log, h⟩ := takeDown_eq s i c pid st
  rw [h]
@[simp] theorem takeDown_fdt : (s.takeDown i c pid st).fdt = s.fdt := by
  obtain ⟨log, h⟩ := takeDown_eq s i c pid st
  rw [h]
@[simp] theorem takeDown_conns : (s.takeDown i c pid st).conns = s.conns := by
  obtain ⟨log, h⟩ := takeDown_eq s i c pid st
  rw [h]
@[simp] theorem takeDown_backlog : (s.takeDown i c pid st).backlog = s.backlog := by
  obtain ⟨log, h⟩ := takeDown_eq s i c pid st
  rw [h]

@[simp] theorem install_clients (fds : List Fd) (files : List FileId) : (s.install fds files).clients = s.clients := by
  simp [Sys.install]
@[simp] theorem install_fdt (fds : List Fd) (files : List FileId) :
    (s.install fds files).fdt = Handles.openAll s.fdt (fds.zip (files.map File.passed)) := by
  simp [Sys.install]
@[simp] theorem install_kids (fds : List Fd) (files : List FileId) : (s.install fds files).kids = s.kids := by
  simp [Sys.install]
@[simp] theorem install_conns (fds : List Fd) (files : List FileId) : (s.install fds files).conns = s.conns := by
  simp [Sys.install]

@[simp] theorem setQueue_clients (k : ConnId) (conn : Conn) (queue : List Msg) :
    (s.setQueue k conn queue).clients = s.clients := rfl
@[simp] theorem setQueue_fdt (k : ConnId) (conn : Conn) (queue : List Msg) :
    (s.setQueue k conn queue).fdt = s.fdt := rfl
@[simp] theorem setQueue_kids (k : ConnId) (conn : Conn) (queue : List Msg) :
    (s.setQueue k conn queue).kids = s.kids := rfl
@[simp] theorem setQueue_conns (k : ConnId) (conn : Conn) (queue : List Msg) :
    (s.setQueue k conn queue).conns = s.conns.set k { conn with queue := queue } := rfl

@[simp] theorem welcome_conns (fd : Fd) (k : ConnId) (rest : List ConnId) : (s.welcome fd k rest).conns = s.conns := rfl

end Fields

/-! ### Effects -/

/-- `daemon_shutdown` has begun. -/
def Pc.stopping : Pc → Bool
  | .shutdown _ | .returned => true
  | _ => false

variable (boot : Boot) (alloc : Nat → Bool)

/-- The receive of `client_fill` ends the connection: an error, or the end of the stream on a plain `recv`. -/
def Sys.hungUp (s : Sys) (c : DaemonClient) (ans : Answer) : Bool :=
  match s.conn? c.fd with
  | some conn => ans = .reset || (!c.first && conn.queue = [] && conn.closed)
  | none => true

/-- The client that the loop is reading. -/
def Sys.reader? (s : Sys) : Option DaemonClient :=
  match s.pc with
  | .reading _ i _ => s.clients[i]?
  | _ => none

/-- The client whose entry the loop is about to remove because of `Bad`, `Eof`, an unknown command or a failed
`fork`. -/
def Sys.rejected (s : Sys) (ans : Answer) : Option DaemonClient :=
  match s.pc with
  | .reading _ i r => (s.clients[i]?).filter fun c =>
    match scan alloc r c.buf with
    | .bad _ _ => true
    | .done op _ _ => match opOf op with
      | .ping | .stop => false
      | .request => ans = .forkFailed
      | .other => true
    | .fill _ _ _ => s.hungUp c ans
    | .crash _ => false
  | _ => none

/-- The loop is not in `daemon_shutdown`, and the client at `i` is `c`, without a child. -/
structure Sys.Waiting (s : Sys) (i : Nat) (c : DaemonClient) : Prop where
  running : s.pc.stopping = false
  get : s.clients[i]? = some c
  idle : c.pid = none

/-- The loop is not in `daemon_shutdown`, and the client at `i` is `c`, with the child `pid`. -/
structure Sys.Served (s : Sys) (i : Nat) (c : DaemonClient) (pid : Pid) : Prop where
  running : s.pc.stopping = false
  get : s.clients[i]? = some c
  busy : c.pid = some pid

/-- A receive on `fd` takes `bytes` with the attachments `files` and leaves `queue`. -/
structure Sys.Takes (s : Sys) (fd : Fd) (k : ConnId) (conn : Conn) (bytes : Bytes) (files : List FileId)
    (queue : List Msg) : Prop where
  fd : s.fdt fd = some (.conn k)
  get : s.conns[k]? = some conn
  nonempty : conn.queue ≠ []
  glue : glue 65536 conn.queue = (bytes, files, queue)

/-- The locals of a read that has not ended: some field is still to be read. -/
def Reader.live : Reader → Prop
  | .head => True
  | .fields _ _ todo _ => 0 < todo

/-- The loop goes on with the next client or with the same one. -/
def Pc.passes (pc : Pc) : Prop := ∃ pfds i, pc = .pass pfds i

/-- The loop goes on, or with the read from the client at `i`. -/
def Pc.goesOn (pc : Pc) (i : Nat) : Prop := pc.passes ∨ ∃ pfds r, pc = .reading pfds i r ∧ r.live

theorem Pc.goesOn.not_stopping {pc : Pc} {i : Nat} (h : pc.goesOn i) : pc.stopping = false := by
  rcases h with ⟨pfds, j, rfl⟩ | ⟨pfds, r, rfl, -⟩ <;> rfl

/-- The loop is reading from `c`, and the code up to its next receive comes to `res`. -/
def Sys.Finds (s : Sys) (c : DaemonClient) (res : Scan) : Prop :=
  ∃ pfds i r, s.pc = .reading pfds i r ∧ s.clients[i]? = some c ∧ scan alloc r c.buf = res

/-- What a step changes. -/
inductive Effect (s : Sys) : Act → Sys → Prop
  | connect : Effect s .connect { s with conns := s.conns ++ [{}], backlog := s.backlog ++ [s.conns.length] }
  | send {k : ConnId} {m : Msg} {conn : Conn} (hk : s.conns[k]? = some conn) :
      Effect s (.send k m) { s with conns := s.conns.set k (conn.send m) }
  | hangup {k : ConnId} {conn : Conn} (hk : s.conns[k]? = some conn) :
      Effect s (.hangup k) { s with conns := s.conns.set k { conn with closed := true } }
  | exit {pid : Pid} {kid : Kid} {st : Status} (hkid : s.kids pid = some kid) :
      Effect s (.exit pid st) { s with kids := update s.kids pid (some { kid with status := some st }) }
  | signal : Effect s .signal { s with term := true }
  -- only the place in the code
  | quiet {ans : Answer} {pc : Pc} (hs : s.pc.stopping = false) (hpc : pc.stopping → pc = .shutdown 0)
      (hread : ∀ pfds i r, pc = .reading pfds i r → r.live ∧ ∃ c, s.Waiting i c)
      (hcrash : ∀ e, pc = .crashed e → ∃ c, s.Finds alloc c (.crash e)) :
      Effect s (.daemon ans) (s.goto pc)
  | accepted {fd : Fd} {k : ConnId} {rest : List ConnId} (hs : s.pc.stopping = false) (hb : s.backlog = k :: rest)
      (hf : s.FreshFd boot fd) :
      Effect s (.daemon (.accepted fd)) (s.welcome fd k rest)
  -- PING and STOP
  | answered {ans : Answer} {pc : Pc} {i : Nat} {c : DaemonClient} {buf : Bytes} {r : Reply} (hw : s.Waiting i c)
      (hbuf : c.buf ≠ []) (hr : r.isStatus = false) (hpc : pc.passes ∨ pc = .shutdown 0) :
      Effect s (.daemon ans) (((s.setClient i { c with buf := buf }).respond c.fd r).goto pc)
  -- a receive that finds nothing, or the end of the stream on the first one
  | starved {ans : Answer} {pc : Pc} {i : Nat} {c : DaemonClient} {buf : Bytes} {fds : List Fd} (hw : s.Waiting i c)
      (hbuf : c.buf = [] → buf = []) (hq : ∀ conn ∈ s.conn? c.fd, conn.queue = [])
      (hfds : fds = c.fds ∨ c.first ∧ fds = []) (hpc : pc.goesOn i) :
      Effect s (.daemon ans) ((s.setClient i { c with buf := buf, first := false, fds := fds }).goto pc)
  -- a later receive, which loses what is attached
  | received {ans : Answer} {pc : Pc} {i : Nat} {c : DaemonClient} {buf : Bytes} {k : ConnId} {conn : Conn}
      {bytes : Bytes} {files : List FileId} {queue : List Msg} (hw : s.Waiting i c) (hfirst : c.first = false)
      (ht : s.Takes c.fd k conn bytes files queue) (hpc : pc.goesOn i) :
      Effect s (.daemon ans) (((s.setQueue k conn queue).setClient i { c with buf := buf }).goto pc)
  -- the first receive
  | installed {fds : List Fd} {pc : Pc} {i : Nat} {c : DaemonClient} {buf : Bytes} {k : ConnId} {conn : Conn}
      {bytes : Bytes} {files : List FileId} {queue : List Msg} (hw : s.Waiting i c) (hread : s.reader? = some c)
      (hfirst : c.first) (ht : s.Takes c.fd k conn bytes files queue) (hlen : fds.length ≤ files.length)
      (hnd : fds.Nodup) (hfree : ∀ fd ∈ fds, s.FreshFd boot fd) (hpc : pc.goesOn i) :
      Effect s (.daemon (.received fds))
        ((((s.setQueue k conn queue).install fds files).setClient i
          { c with buf := buf, first := false, fds := fds }).goto pc)
  -- `Bad`, `Eof`, an unknown command or a failed `fork`
  | rejected {ans : Answer} {pc : Pc} {i : Nat} {c : DaemonClient} {r : Reply} (hw : s.Waiting i c)
      (hr : r.isStatus = false) (hrej : s.rejected alloc ans = some c) (hpc : pc.passes) :
      Effect s (.daemon ans) ((s.dismiss i c.fd r).goto pc)
  | forked {pc : Pc} {i : Nat} {c : DaemonClient} {buf : Bytes} {fields : List Bytes} {pid : Pid} (hw : s.Waiting i c)
      (hbuf : c.buf ≠ []) (hreq : ∃ op, s.Finds alloc c (.done op fields buf) ∧ opOf op = .request)
      (hpid : s.kids pid = none) (hpc : pc.passes) :
      Effect s (.daemon (.forked pid))
        (((s.setClient i { c with buf := buf }).fork i { c with buf := buf } fields pid).goto pc)
  -- the client is dead
  | buried {ans : Answer} {pc : Pc} {i : Nat} {c : DaemonClient} {pid : Pid} {st : Status} (hw : s.Served i c pid)
      (hpc : pc.passes) :
      Effect s (.daemon ans) (((s.killChild pid st).1.leave i c.fd).goto pc)
  -- the child has ended
  | reaped {ans : Answer} {i : Nat} {c : DaemonClient} {pid : Pid} {kid : Kid} {st : Status} (hs : s.pc = .reap i)
      (hw : s.Served i c pid) (hkid : s.kids pid = some kid) :
      Effect s (.daemon ans) ((s.reaped pid kid st).dismiss i c.fd (.status (waitStatusCode st)))
  -- the defensive branch
  | lost {ans : Answer} {i : Nat} {c : DaemonClient} {pid : Pid} (hs : s.pc = .reap i) (hw : s.Served i c pid)
      (hkid : s.kids pid = none) :
      Effect s (.daemon ans) (s.dismiss i c.fd (.status 0))
  -- `daemon_shutdown` on a client without a child, on one with a child, and after its loop
  | passedBy {ans : Answer} {i : Nat} {c : DaemonClient} (hs : s.pc = .shutdown i) (hc : s.clients[i]? = some c)
      (hp : c.pid = none) :
      Effect s (.daemon ans) (s.goto (.shutdown (i + 1)))
  | takenDown {ans : Answer} {i : Nat} {c : DaemonClient} {pid : Pid} {st : Status} (hs : s.pc = .shutdown i)
      (hc : s.clients[i]? = some c) (hp : c.pid = some pid) :
      Effect s (.daemon ans) (s.takeDown i c pid st)
  | returned {ans : Answer} {i : Nat} (hs : s.pc = .shutdown i) (hc : s.clients[i]? = none) :
      Effect s (.daemon ans) (s.goto .returned)

/-! ### Where the loop reads -/

private theorem scanFields_fill_live {head op : Str} {todo : Nat} {got : List Bytes} {buf buf' : Bytes} {site : Site}
    {r : Reader} (h : scanFields head op todo got buf = .fill site r buf') : r.live := by
  induction todo generalizing got buf with
  | zero => cases h
  | succ todo ih =>
    unfold scanFields at h
    split at h
    · cases h; exact Nat.succ_pos _
    · split at h
      · simp at h
      · split at h
        · cases h; exact Nat.succ_pos _
        · exact ih h

private theorem scan_fill_live {alloc : Nat → Bool} {r r' : Reader} {buf buf' : Bytes} {site : Site}
    (h : scan alloc r buf = .fill site r' buf') : r'.live := by
  cases r with
  | head =>
    simp only [scan] at h
    split at h
    · cases h; trivial
    · split at h
      · simp at h
      · split at h
        · simp at h
        · exact scanFields_fill_live h
  | fields head op todo got => exact scanFields_fill_live h

private theorem scan_nil {r : Reader} (h : r.live) : ∃ site, scan alloc r [] = .fill site r [] := by
  cases r with
  | head => exact ⟨.head, rfl⟩
  | fields head op todo got =>
    obtain ⟨n, rfl⟩ : ∃ n, todo = n + 1 := ⟨todo - 1, by simp only [Reader.live] at h; omega⟩
    exact ⟨.line, rfl⟩

private theorem buf_ne_nil_of_done {alloc : Nat → Bool} {r : Reader} {buf rest : Bytes} {op : Str} {fields : List Bytes}
    (hl : r.live) (h : scan alloc r buf = .done op fields rest) : buf ≠ [] := by
  rintro rfl
  obtain ⟨site, hs⟩ := scan_nil alloc hl
  rw [hs] at h
  cases h

/-! ### From the code -/

/-- A read is made for a client without a child. -/
def Sys.ReadsWaiting (s : Sys) : Prop :=
  ∀ pfds i r, s.pc = .reading pfds i r → r.live ∧ ∃ c, s.clients[i]? = some c ∧ c.pid = none

section Code

variable {boot alloc} {s t s' : Sys} {pfds : List PollFd} {i : Nat} {c : DaemonClient} {ans : Answer}

/-- The top of the loop: a signal ends it, `poll` fills `pfds`, is interrupted or fails. -/
theorem tick_cases (h : s.tick ans = some t) :
    (s.term ∧ ans = .go ∧ t = s.goto (.shutdown 0)) ∨
    (∃ listener revents, ans = .poll listener revents ∧ revents.length = s.clients.length ∧
      let pfds := List.zipWith (fun c rev => { fd := c.fd, revents := rev }) s.clients revents
      t = s.goto (if listener then .accepting pfds else .pass pfds 0)) ∨
    (ans = .pollInterrupted ∧ t = s) ∨
    (ans = .pollFailed ∧ t = s.goto .pollFailed) := by
  unfold Sys.tick at h
  split at h
  · rename_i hterm
    obtain ⟨hgo, ht⟩ := Option.ite_none_right_eq_some.1 h
    exact .inl ⟨hterm, hgo, (Option.some.inj ht).symm⟩
  · split at h
    · rename_i listener revents
      obtain ⟨⟨hlen, -⟩, ht⟩ := Option.ite_none_right_eq_some.1 h
      exact .inr (.inl ⟨listener, revents, rfl, hlen, (Option.some.inj ht).symm⟩)
    · exact .inr (.inr (.inl ⟨rfl, (Option.some.inj h).symm⟩))
    · exact .inr (.inr (.inr ⟨rfl, (Option.some.inj h).symm⟩))
    · cases h

/-- `accept` gives a connection of the backlog, is interrupted, or ends its loop. -/
theorem accept_cases (h : s.accept boot pfds ans = some t) :
    (∃ fd k rest, ans = .accepted fd ∧ s.backlog = k :: rest ∧ s.FreshFd boot fd ∧ t = s.welcome fd k rest) ∨
    (ans = .acceptInterrupted ∧ t = s) ∨
    ((ans = .acceptFailed ∨ ans = .go) ∧ t = s.goto (.pass pfds 0)) := by
  unfold Sys.accept at h
  split at h
  · rename_i fd
    split at h
    · cases h
    · rename_i k rest hbacklog
      obtain ⟨hfresh, ht⟩ := Option.ite_none_right_eq_some.1 h
      exact .inl ⟨fd, k, rest, rfl, hbacklog, hfresh, (Option.some.inj ht).symm⟩
  · exact .inr (.inl ⟨rfl, (Option.some.inj h).symm⟩)
  · exact .inr (.inr ⟨.inl rfl, (Option.some.inj h).symm⟩)
  · obtain ⟨-, ht⟩ := Option.ite_none_right_eq_some.1 h
    exact .inr (.inr ⟨.inr rfl, (Option.some.inj ht).symm⟩)
  · cases h

private theorem tick_effect (hs : s.pc = .top) (h : s.tick ans = some t) : Effect boot alloc s (.daemon ans) t := by
  have hstop : s.pc.stopping = false := by rw [hs]; rfl
  have hstay : s.goto .top = s := by rw [← hs]; rfl
  rcases tick_cases h with ⟨-, -, rfl⟩ | ⟨listener, revents, -, -, rfl⟩ | ⟨-, ht⟩ | ⟨-, rfl⟩
  · exact .quiet hstop (fun _ => rfl) nofun nofun
  · refine .quiet hstop (fun hp => ?_) (fun pfds i r hp => ?_) fun e hp => ?_ <;> split at hp <;> cases hp
  · have hq : Effect boot alloc s (.daemon ans) (s.goto .top) := .quiet hstop nofun nofun nofun
    rw [ht]
    rwa [hstay] at hq
  · exact .quiet hstop nofun nofun nofun

private theorem accept_effect (hs : s.pc = .accepting pfds) (h : s.accept boot pfds ans = some t) :
    Effect boot alloc s (.daemon ans) t := by
  have hstop : s.pc.stopping = false := by rw [hs]; rfl
  have hstay : s.goto (.accepting pfds) = s := by rw [← hs]; rfl
  rcases accept_cases h with ⟨fd, k, rest, rfl, hbacklog, hfresh, rfl⟩ | ⟨-, ht⟩ | ⟨-, rfl⟩
  · exact .accepted hstop hbacklog hfresh
  · have hq : Effect boot alloc s (.daemon ans) (s.goto (.accepting pfds)) := .quiet hstop nofun nofun nofun
    rw [ht]
    rwa [hstay] at hq
  · exact .quiet hstop nofun nofun nofun

/-- The receives of `client_fill`: nothing there, the end of the connection, an error, a message on a later one or on
the first one. -/
theorem receive_cases {ret : RecvRet} (h : s.receive boot c ans = some (ret, s')) :
    (s' = s ∧ ret = .wouldBlock ∧ ∃ conn, s.conn? c.fd = some conn ∧ conn.queue = [] ∧ conn.closed = false) ∨
    (s' = s ∧ ret = .data [] [] ∧ ∃ conn, s.conn? c.fd = some conn ∧ conn.queue = [] ∧ conn.closed) ∨
    (s' = s ∧ ret = .failed ∧ s.hungUp c ans ∧ ∀ conn ∈ s.conn? c.fd, conn.closed) ∨
    (∃ k conn bytes files queue, s.Takes c.fd k conn bytes files queue ∧ c.first = false ∧ bytes ≠ [] ∧
      s' = s.setQueue k conn queue ∧ ret = .data bytes []) ∨
    (∃ fds k conn bytes files queue, ans = .received fds ∧ s.Takes c.fd k conn bytes files queue ∧ c.first ∧
      fds.length ≤ files.length ∧ fds.Nodup ∧ (∀ fd ∈ fds, s.FreshFd boot fd) ∧
      s' = (s.setQueue k conn queue).install fds files ∧ ret = .data bytes fds) := by
  unfold Sys.receive at h
  split at h
  · rename_i fds
    split at h
    · rename_i k hfd
      split at h
      · simp at h
      · rename_i conn hconn
        have hq : s.conn? c.fd = some conn := by simp [Sys.conn?, hfd, hconn]
        split at h
        · rename_i hqueue
          split at h
          · simp at h
          · split at h
            · rename_i hclosed
              cases h
              exact Or.inr (Or.inl ⟨rfl, rfl, conn, hq, hqueue, hclosed⟩)
            · rename_i hopen
              cases h
              exact Or.inl ⟨rfl, rfl, conn, hq, hqueue, by simpa using hopen⟩
        · rename_i hqueue
          split at h
          rename_i bytes files queue hglue
          have ht : s.Takes c.fd k conn bytes files queue := ⟨hfd, hconn, hqueue, hglue⟩
          have hne : bytes ≠ [] := by
            have hroom := glue_ne_nil (show 0 < 65536 by decide) hqueue
            rwa [hglue] at hroom
          split at h
          · rename_i hfirst
            split at h
            · rename_i hok
              cases h
              obtain ⟨hlen, -, hnd, hfree⟩ := hok
              exact Or.inr (Or.inr (Or.inr (Or.inr
                ⟨fds, k, conn, bytes, files, queue, rfl, ht, hfirst, hlen, hnd, hfree, rfl, rfl⟩)))
            · simp at h
          · rename_i hfirst
            split at h
            · cases h
              exact Or.inr (Or.inr (Or.inr (Or.inl
                ⟨k, conn, bytes, files, queue, ht, by simpa using hfirst, hne, rfl, rfl⟩)))
            · simp at h
    · rename_i hfd
      split at h
      · cases h
        have hq : s.conn? c.fd = none := by
          unfold Sys.conn?
          split
          · rename_i k hk; exact absurd hk (hfd k)
          · rfl
        exact Or.inr (Or.inr (Or.inl ⟨rfl, rfl, by simp [Sys.hungUp, hq], by simp [hq]⟩))
      · simp at h
  · split at h
    · rename_i conn hq
      split at h
      · rename_i hclosed
        cases h
        exact Or.inr (Or.inr (Or.inl ⟨rfl, rfl, by simp [Sys.hungUp, hq], by simp [hq, hclosed.2]⟩))
      · simp at h
    · simp at h
  · simp at h

/-- The arms of the `match` on `op`: PING, STOP, a reply that ends the connection, a request. -/
theorem dispatch_cases {op : Str} {fields : List Bytes} (h : s.dispatch pfds i c op fields ans = some t) :
    (opOf op = .ping ∧ ans = .go ∧ t = ((s.setClient i c).respond c.fd .ok).goto (.pass pfds (i + 1))) ∨
    (opOf op = .stop ∧ ans = .go ∧ t = ((s.setClient i c).respond c.fd .bye).goto (.shutdown 0)) ∨
    (∃ reply, (opOf op = .request ∧ ans = .forkFailed ∧ reply = .fork ∨
        opOf op = .other ∧ ans = .go ∧ reply = .unknownCommand op) ∧
      t = (s.dismiss i c.fd reply).goto (.pass pfds i)) ∨
    (∃ pid, opOf op = .request ∧ ans = .forked pid ∧ s.kids pid = none ∧
      t = ((s.setClient i c).fork i c fields pid).goto (.pass pfds (i + 1))) := by
  unfold Sys.dispatch at h
  dsimp only at h
  split at h
  · rename_i hop
    exact .inl ⟨hop, rfl, (Option.some.inj h).symm⟩
  · rename_i hop
    exact .inr (.inl ⟨hop, rfl, (Option.some.inj h).symm⟩)
  · rename_i hop
    rw [dismiss_setClient] at h
    exact .inr (.inr (.inl ⟨_, .inl ⟨hop, rfl, rfl⟩, (Option.some.inj h).symm⟩))
  · rename_i pid hop
    obtain ⟨hfree, ht⟩ := Option.ite_none_right_eq_some.1 h
    exact .inr (.inr (.inr ⟨pid, hop, rfl, hfree, (Option.some.inj ht).symm⟩))
  · rename_i hop
    rw [dismiss_setClient] at h
    exact .inr (.inr (.inl ⟨_, .inr ⟨hop, rfl, rfl⟩, (Option.some.inj h).symm⟩))
  · cases h

theorem read_bad {r : Reader} {line : Str} {buf : Bytes} (hscan : scan alloc r c.buf = .bad line buf)
    (h : s.read boot alloc pfds i r c ans = some t) :
    ans = .go ∧ t = (s.dismiss i c.fd (.bad line)).goto (.pass pfds i) := by
  simp only [Sys.read, hscan] at h
  obtain ⟨hgo, ht⟩ := Option.ite_none_right_eq_some.1 h
  simp only [Sys.failRead, dismiss_setClient] at ht
  exact ⟨hgo, (Option.some.inj ht).symm⟩

theorem read_crash {r : Reader} {e : Crash} (hscan : scan alloc r c.buf = .crash e)
    (h : s.read boot alloc pfds i r c ans = some t) : ans = .go ∧ t = s.goto (.crashed e) := by
  simp only [Sys.read, hscan] at h
  obtain ⟨hgo, ht⟩ := Option.ite_none_right_eq_some.1 h
  exact ⟨hgo, (Option.some.inj ht).symm⟩

/-- A read that asks for more: nothing is there (`Partial`), the connection is over (`Eof`), or the read goes on, with
the end of the stream taken for an empty message if it is the first receive. -/
theorem fill_cases {r r' : Reader} {site : Site} {buf : Bytes} (hscan : scan alloc r c.buf = .fill site r' buf)
    (h : s.read boot alloc pfds i r c ans = some t) :
    (t = (s.setClient i { c with buf := buf, first := false }).goto (.pass pfds (i + 1)) ∧
      ∃ conn, s.conn? c.fd = some conn ∧ conn.queue = [] ∧ conn.closed = false) ∨
    (t = (s.dismiss i c.fd .eof).goto (.pass pfds i) ∧ s.hungUp c ans ∧ ∀ conn ∈ s.conn? c.fd, conn.closed) ∨
    (c.first ∧ t = (s.setClient i { c with buf := buf, first := false, fds := [] }).goto (.reading pfds i r') ∧
      ∃ conn, s.conn? c.fd = some conn ∧ conn.queue = [] ∧ conn.closed) ∨
    (∃ k conn bytes files queue, s.Takes c.fd k conn bytes files queue ∧ c.first = false ∧
      t = ((s.setQueue k conn queue).setClient i { c with buf := buf ++ bytes }).goto (.reading pfds i r')) ∨
    (∃ fds k conn bytes files queue, ans = .received fds ∧ s.Takes c.fd k conn bytes files queue ∧ c.first ∧
      fds.length ≤ files.length ∧ fds.Nodup ∧ (∀ fd ∈ fds, s.FreshFd boot fd) ∧
      t = (((s.setQueue k conn queue).install fds files).setClient i
        { c with buf := buf ++ bytes, first := false, fds := fds }).goto (.reading pfds i r')) := by
  simp only [Sys.read, hscan] at h
  split at h
  · cases h
  · rename_i ret s' hret
    rcases receive_cases hret with ⟨rfl, rfl, hconn⟩ | ⟨rfl, rfl, conn, hconn, hqueue, hclosed⟩ |
      ⟨rfl, rfl, hhung, hclosed⟩ |
      ⟨k, conn, bytes, files, queue, ht, hfirst, hne, rfl, rfl⟩ |
      ⟨fds, k, conn, bytes, files, queue, rfl, ht, hfirst, hlen, hnd, hfree, rfl, rfl⟩
    · left
      have hfill : clientFill { c with buf := buf } .wouldBlock =
          ({ c with buf := buf, first := false }, some .partialCmd) := by
        cases hf : c.first <;> simp [clientFill]
      rw [hfill] at h
      exact ⟨(Option.some.inj h).symm, hconn⟩
    · cases hf : c.first with
      | false =>
        have hfill : clientFill { c with buf := buf } (.data [] []) = ({ c with buf := buf }, some .eof) := by
          simp [clientFill, hf]
        simp only [hfill, Sys.failRead, dismiss_setClient, Option.some.injEq] at h
        refine .inr (.inl ⟨h.symm, ?_, by simp [hconn, hclosed]⟩)
        simp [Sys.hungUp, hconn, hf, hqueue, hclosed]
      | true =>
        have hfill : clientFill { c with buf := buf } (.data [] []) =
            ({ c with buf := buf, first := false, fds := [] }, none) := by
          simp [clientFill, hf]
        rw [hfill] at h
        exact .inr (.inr (.inl ⟨rfl, (Option.some.inj h).symm, conn, hconn, hqueue, hclosed⟩))
    · have hfill : ∃ c', clientFill { c with buf := buf } .failed = (c', some .eof) ∧ c'.fd = c.fd := by
        cases hf : c.first <;> simp [clientFill]
      obtain ⟨c', hfill, hfd⟩ := hfill
      simp only [hfill, Sys.failRead, dismiss_setClient, hfd, Option.some.injEq] at h
      exact .inr (.inl ⟨h.symm, hhung, hclosed⟩)
    · have hf : c.first = false := hfirst
      have hfill : clientFill { c with buf := buf } (.data bytes []) = ({ c with buf := buf ++ bytes }, none) := by
        simp [clientFill, hf, hne]
      rw [hfill] at h
      exact .inr (.inr (.inr (.inl ⟨k, conn, bytes, files, queue, ht, hf, (Option.some.inj h).symm⟩)))
    · have hf : c.first = true := hfirst
      have hfill : clientFill { c with buf := buf } (.data bytes fds) =
          ({ c with buf := buf ++ bytes, first := false, fds := fds }, none) := by
        simp [clientFill, hf]
      rw [hfill] at h
      exact .inr (.inr (.inr (.inr
        ⟨fds, k, conn, bytes, files, queue, rfl, ht, hf, hlen, hnd, hfree, (Option.some.inj h).symm⟩)))

theorem dispatch_effect {r : Reader} {op : Str} {fields : List Bytes} {buf : Bytes} (hs : s.pc = .reading pfds i r)
    (hw : s.Waiting i c) (hl : r.live) (hscan : scan alloc r c.buf = .done op fields buf)
    (h : s.dispatch pfds i { c with buf := buf } op fields ans = some t) : Effect boot alloc s (.daemon ans) t := by
  have hbuf : c.buf ≠ [] := buf_ne_nil_of_done hl hscan
  rcases dispatch_cases h with ⟨-, -, rfl⟩ | ⟨-, -, rfl⟩ | ⟨reply, hop, rfl⟩ | ⟨pid, hop, rfl, hpid, rfl⟩
  · exact .answered hw hbuf rfl (Or.inl ⟨_, _, rfl⟩)
  · exact .answered hw hbuf rfl (Or.inr rfl)
  · have hrej : s.rejected alloc ans = some c := by
      rcases hop with ⟨hop, rfl, -⟩ | ⟨hop, rfl, -⟩ <;> simp [Sys.rejected, hs, hw.get, hscan, hop, Option.filter]
    have hreply : reply.isStatus = false := by
      rcases hop with ⟨-, -, rfl⟩ | ⟨-, -, rfl⟩ <;> rfl
    exact .rejected (c := c) hw hreply hrej ⟨_, _, rfl⟩
  · exact .forked hw hbuf ⟨op, ⟨pfds, i, r, hs, hw.get, hscan⟩, hop⟩ hpid ⟨_, _, rfl⟩

theorem fill_effect {r r' : Reader} {site : Site} {buf : Bytes} (hs : s.pc = .reading pfds i r) (hw : s.Waiting i c)
    (hl : r.live) (hscan : scan alloc r c.buf = .fill site r' buf) (h : s.read boot alloc pfds i r c ans = some t) :
    Effect boot alloc s (.daemon ans) t := by
  have hlive : r'.live := scan_fill_live hscan
  have hbuf : c.buf = [] → buf = [] := by
    intro hnil
    obtain ⟨site', hs'⟩ := scan_nil alloc hl
    rw [hnil, hs'] at hscan
    cases hscan
    rfl
  rcases fill_cases hscan h with ⟨rfl, conn, hconn, hqueue, -⟩ | ⟨rfl, hhung, -⟩ |
    ⟨hfirst, rfl, conn, hconn, hqueue, -⟩ | ⟨k, conn, bytes, files, queue, ht, hfirst, rfl⟩ |
    ⟨fds, k, conn, bytes, files, queue, rfl, ht, hfirst, hlen, hnd, hfree, rfl⟩
  · exact .starved hw hbuf (by simp [hconn, hqueue]) (Or.inl rfl) (Or.inl ⟨_, _, rfl⟩)
  · have hrej : s.rejected alloc ans = some c := by
      simp [Sys.rejected, hs, hw.get, hscan, Option.filter, hhung]
    exact .rejected hw rfl hrej ⟨_, _, rfl⟩
  · exact .starved hw hbuf (by simp [hconn, hqueue]) (Or.inr ⟨hfirst, rfl⟩) (Or.inr ⟨_, _, rfl, hlive⟩)
  · exact .received hw hfirst ht (Or.inr ⟨_, _, rfl, hlive⟩)
  · have hreader : s.reader? = some c := by simp [Sys.reader?, hs, hw.get]
    exact .installed hw hreader hfirst ht hlen hnd hfree (Or.inr ⟨_, _, rfl, hlive⟩)

private theorem read_effect {r : Reader} (hs : s.pc = .reading pfds i r) (hw : s.Waiting i c) (hl : r.live)
    (h : s.read boot alloc pfds i r c ans = some t) : Effect boot alloc s (.daemon ans) t := by
  cases hscan : scan alloc r c.buf with
  | done op fields buf =>
    simp only [Sys.read, hscan] at h
    exact dispatch_effect hs hw hl hscan h
  | bad line buf =>
    obtain ⟨-, rfl⟩ := read_bad hscan h
    have hrej : s.rejected alloc ans = some c := by simp [Sys.rejected, hs, hw.get, hscan, Option.filter]
    exact .rejected hw rfl hrej ⟨_, _, rfl⟩
  | crash e =>
    obtain ⟨-, rfl⟩ := read_crash hscan h
    refine .quiet hw.running nofun nofun fun e' he => ?_
    cases he
    exact ⟨c, pfds, i, r, hs, hw.get, hscan⟩
  | fill site r' buf => exact fill_effect hs hw hl hscan h

/-- A round of the loop over the polled clients: the loop ends, passes the client, begins to read from it, or buries
it. -/
theorem visit_cases (h : s.visit pfds i ans = some t) :
    (ans = .go ∧ (pfds.length ≤ i ∨ s.clients.length ≤ i) ∧ t = s.goto (.reap 0)) ∨
    ∃ p c, pfds[i]? = some p ∧ s.clients[i]? = some c ∧
      ((ans = .go ∧ (p.revents → c.pid ≠ none ∧ s.peekDead c.fd = false) ∧ t = s.goto (.pass pfds (i + 1))) ∨
        (ans = .go ∧ p.revents ∧ c.pid = none ∧ t = s.goto (.reading pfds i .head)) ∨
        ∃ pid st, ans = .ended st ∧ p.revents ∧ c.pid = some pid ∧ s.peekDead c.fd ∧
          t = ((s.killChild pid st).1.leave i c.fd).goto (.pass pfds i)) := by
  unfold Sys.visit at h
  split at h
  · rename_i p c hp hc
    refine .inr ⟨p, c, hp, hc, ?_⟩
    split at h
    · rename_i hready
      split at h
      · rename_i pid hpid
        split at h
        · rename_i hdead
          split at h
          · rename_i st
            exact .inr (.inr ⟨pid, st, rfl, hready, hpid, hdead, (Option.some.inj h).symm⟩)
          · cases h
        · rename_i halive
          obtain ⟨hgo, ht⟩ := Option.ite_none_right_eq_some.1 h
          refine .inl ⟨hgo, fun _ => ⟨?_, by simpa using halive⟩, (Option.some.inj ht).symm⟩
          rw [hpid]
          nofun
      · rename_i hidle
        obtain ⟨hgo, ht⟩ := Option.ite_none_right_eq_some.1 h
        exact .inr (.inl ⟨hgo, hready, hidle, (Option.some.inj ht).symm⟩)
    · rename_i hunready
      obtain ⟨hgo, ht⟩ := Option.ite_none_right_eq_some.1 h
      exact .inl ⟨hgo, fun hready => absurd hready hunready, (Option.some.inj ht).symm⟩
  · rename_i hnone
    obtain ⟨hgo, ht⟩ := Option.ite_none_right_eq_some.1 h
    refine .inl ⟨hgo, ?_, (Option.some.inj ht).symm⟩
    by_contra hlt
    simp only [not_or, Nat.not_le] at hlt
    exact hnone _ _ (List.getElem?_eq_getElem hlt.1) (List.getElem?_eq_getElem hlt.2)

/-- A round of the loop over the children: the loop ends, passes the client, or answers it because its child has ended
or is not there. -/
theorem reapChild_cases (h : s.reapChild i ans = some t) :
    ans = .go ∧ (t = s.goto .top ∨ t = s.goto (.reap (i + 1)) ∨
      ∃ c pid, s.clients[i]? = some c ∧ c.pid = some pid ∧
        ((∃ kid status, s.kids pid = some kid ∧ t = { s with
            kids := update s.kids pid none
            log := .reap pid kid status :: s.log }.dismiss i c.fd (.status (waitStatusCode status))) ∨
          s.kids pid = none ∧ t = s.dismiss i c.fd (.status 0))) := by
  unfold Sys.reapChild at h
  split at h
  · cases h
  · rename_i hgo
    refine ⟨not_not.1 hgo, ?_⟩
    split at h
    · exact .inl (Option.some.inj h).symm
    · rename_i c hc
      split at h
      · exact .inr (.inl (Option.some.inj h).symm)
      · rename_i pid hpid
        split at h
        · exact .inr (.inl (Option.some.inj h).symm)
        · rename_i kid status hwait
          refine .inr (.inr ⟨c, pid, hc, hpid, .inl ⟨kid, status, ?_, (Option.some.inj h).symm⟩⟩)
          unfold Sys.waitpid at hwait
          split at hwait
          · cases hwait
          · split at hwait
            · cases hwait
            · cases hwait
              assumption
        · rename_i hwait
          refine .inr (.inr ⟨c, pid, hc, hpid, .inr ⟨?_, (Option.some.inj h).symm⟩⟩)
          unfold Sys.waitpid at hwait
          split at hwait
          · assumption
          · split at hwait <;> cases hwait

private theorem visit_effect (hs : s.pc = .pass pfds i) (h : s.visit pfds i ans = some t) :
    Effect boot alloc s (.daemon ans) t := by
  have hstop : s.pc.stopping = false := by rw [hs]; rfl
  rcases visit_cases h with ⟨-, -, rfl⟩ |
    ⟨p, c, -, hc, ⟨-, -, rfl⟩ | ⟨-, -, hidle, rfl⟩ | ⟨pid, st, rfl, -, hpid, -, rfl⟩⟩
  · exact .quiet hstop nofun nofun nofun
  · exact .quiet hstop nofun nofun nofun
  · refine .quiet hstop nofun (fun pfds j r hpc => ?_) nofun
    cases hpc
    exact ⟨trivial, c, hstop, hc, hidle⟩
  · exact .buried ⟨hstop, hc, hpid⟩ ⟨_, _, rfl⟩

private theorem reapChild_effect (hs : s.pc = .reap i) (h : s.reapChild i ans = some t) :
    Effect boot alloc s (.daemon ans) t := by
  have hstop : s.pc.stopping = false := by rw [hs]; rfl
  obtain ⟨rfl, rfl | rfl | ⟨c, pid, hc, hpid, ⟨kid, status, hkid, rfl⟩ | ⟨hkid, rfl⟩⟩⟩ := reapChild_cases h
  · exact .quiet hstop nofun nofun nofun
  · exact .quiet hstop nofun nofun nofun
  · exact .reaped hs ⟨hstop, hc, hpid⟩ hkid
  · exact .lost hs ⟨hstop, hc, hpid⟩ hkid

private theorem shutdownChild_effect (hs : s.pc = .shutdown i) (h : s.shutdownChild i ans = some t) :
    Effect boot alloc s (.daemon ans) t := by
  unfold Sys.shutdownChild at h
  split at h
  · split at h
    · cases h
      exact .returned hs (by assumption)
    · simp at h
  · rename_i c hc
    split at h
    · rename_i hp
      split at h
      · cases h
        exact .passedBy hs hc hp
      · simp at h
    · rename_i pid hp
      split at h
      · rename_i st
        have ht : t = s.takeDown i c pid st := by
          unfold Sys.takeDown
          dsimp only at h
          split at h <;> cases h <;> simp_all
        rw [ht]
        exact .takenDown hs hc hp
      · simp at h

private theorem Pc.goesOn.readsWaiting {pc : Pc} (h : pc.goesOn i) (hpc : t.pc = pc) {c' : DaemonClient}
    (hc : t.clients[i]? = some c') (hidle : c'.pid = none) : t.ReadsWaiting := by
  intro pfds j r hp
  rw [hpc] at hp
  rcases h with ⟨_, _, rfl⟩ | ⟨_, _, rfl, hl⟩
  · simp at hp
  · cases hp
    exact ⟨hl, c', hc, hidle⟩

theorem Effect.readsWaiting {a : Act} (he : Effect boot alloc s a t) (hr : s.ReadsWaiting) : t.ReadsWaiting := by
  cases he with
  | connect | send | hangup | exit | signal => exact hr
  | quiet hs hpc hread =>
    intro pfds i r hp
    obtain ⟨hl, c, hw⟩ := hread pfds i r hp
    exact ⟨hl, c, hw.get, hw.idle⟩
  | accepted hs hb hf =>
    intro pfds i r hp
    obtain ⟨hl, c, hc, hidle⟩ := hr pfds i r hp
    refine ⟨hl, c, ?_, hidle⟩
    exact getElem?_push_of_get hc _
  | answered hw hbuf hr' hpc =>
    rcases hpc with ⟨_, _, rfl⟩ | rfl <;> intro _ _ _ hp <;> cases hp
  | starved hw hbuf hq hfds hpc =>
    exact hpc.readsWaiting rfl (getElem?_set_of_get hw.get _) hw.idle
  | received hw hfirst ht hpc =>
    exact hpc.readsWaiting rfl (getElem?_set_of_get hw.get _) hw.idle
  | @installed fds pc i c buf k conn bytes files queue hw hread hfirst ht hlen hnd hfree hpc =>
    refine @Pc.goesOn.readsWaiting _ i pc hpc rfl { c with buf := buf, first := false, fds := fds } ?_ hw.idle
    simp only [goto_clients, setClient_clients, install_clients, setQueue_clients]
    exact getElem?_set_of_get hw.get _
  | rejected hw hr' hrej hpc => obtain ⟨_, _, rfl⟩ := hpc; intro _ _ _ hp; cases hp
  | forked hw hbuf hreq hpid hpc => obtain ⟨_, _, rfl⟩ := hpc; intro _ _ _ hp; cases hp
  | buried hw hpc => obtain ⟨_, _, rfl⟩ := hpc; intro _ _ _ hp; cases hp
  | reaped hs hw hkid =>
    intro _ _ _ hp
    have : (Pc.reap _) = _ := hs.symm.trans hp
    cases this
  | lost hs hw hkid =>
    intro _ _ _ hp
    have : (Pc.reap _) = _ := hs.symm.trans hp
    cases this
  | passedBy hs hc hp => intro _ _ _ h; cases h
  | takenDown hs hc hp => intro _ _ _ h; rw [takeDown_pc] at h; cases h
  | returned hs hc => intro _ _ _ h; cases h

/-- Every step has an effect. -/
theorem step_effect {a : Act} (hr : s.ReadsWaiting) (h : step boot alloc s a = some t) : Effect boot alloc s a t := by
  cases a with
  | connect => cases h; exact .connect
  | send k m =>
    simp only [step] at h
    split at h
    · simp at h
    · rename_i hk
      split at h
      · simp at h
      · cases h
        exact .send hk
  | hangup k =>
    simp only [step] at h
    split at h
    · simp at h
    · rename_i hk
      cases h
      exact .hangup hk
  | exit pid status =>
    simp only [step] at h
    split at h
    · simp at h
    · rename_i hkid
      split at h
      · cases h
        exact .exit hkid
      · simp at h
  | signal => cases h; exact .signal
  | daemon ans =>
    simp only [step, Sys.daemonStep] at h
    cases hpc : s.pc with
    | top => rw [hpc] at h; exact tick_effect hpc h
    | accepting pfds => rw [hpc] at h; exact accept_effect hpc h
    | pass pfds i => rw [hpc] at h; exact visit_effect hpc h
    | reading pfds i r =>
      obtain ⟨hl, c, hc, hidle⟩ := hr pfds i r hpc
      rw [hpc] at h
      simp only [hc] at h
      exact read_effect hpc ⟨by rw [hpc]; rfl, hc, hidle⟩ hl h
    | reap i => rw [hpc] at h; exact reapChild_effect hpc h
    | shutdown i => rw [hpc] at h; exact shutdownChild_effect hpc h
    | returned => rw [hpc] at h; cases h
    | pollFailed => rw [hpc] at h; cases h
    | crashed e => rw [hpc] at h; cases h

theorem Effect.running {a : Act} (he : Effect boot alloc s a t) (h : t.pc.stopping = false) :
    s.pc.stopping = false := by
  cases he with
  | connect | send | hangup | exit | signal => exact h
  | quiet hs | accepted hs => exact hs
  | answered hw | starved hw | received hw | installed hw | rejected hw | forked hw | buried hw => exact hw.running
  | reaped hs hw | lost hs hw => exact hw.running
  | passedBy | returned => cases h
  | takenDown =>
    rw [takeDown_pc] at h
    cases h

/-- A property of the state that every effect keeps holds in every state of every run. -/
theorem effect_invariant {G : Sys → Act → Prop} {I : Sys → Prop} (h : Machine.Reach (step boot alloc) G {} s)
    (init : I {})
    (next : ∀ s a t, Machine.Reach (step boot alloc) G {} s → I s → G s a → Effect boot alloc s a t → I t) : I s := by
  have hboth : s.ReadsWaiting ∧ I s := by
    refine h.invariant (I := fun s => s.ReadsWaiting ∧ I s) ⟨nofun, init⟩ fun s a t hreach hi hg hs => ?_
    have he := step_effect hi.1 hs
    exact ⟨he.readsWaiting hi.1, next s a t hreach hi.2 hg he⟩
  exact hboth.2

theorem readsWaiting_of_reach {G : Sys → Act → Prop} (h : Machine.Reach (step boot alloc) G {} s) :
    s.ReadsWaiting :=
  effect_invariant h nofun fun _ _ _ _ hi _ he => he.readsWaiting hi

end Code

end Calisto

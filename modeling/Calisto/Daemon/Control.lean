import Calisto.Daemon.Loop
import Calisto.Lib.Checked

/-!
# Descriptors in control messages

A client passes its standard streams beside the bytes of its request: `send_with_fds` writes their numbers into one
control message, and `recv_with_fds` walks the messages that the kernel has put into its buffer, each of them a header
with the length of the message, the data and zeros up to a multiple of eight.  For every sequence of messages the walk
stays inside what the kernel has written, ends, and gives the descriptors in their order (`control_roundtrip`).
-/

namespace Calisto

open Checked

/-! ### The code -/

/-- `align8`; `!7` clears the three lowest bits. -/
def align8 (n : Nat) : Run Nat := do
  let m ← add n 7
  pure (m / 8 * 8)

/-- The size of a `Cmsghdr`: eight bytes of length, four of level, four of type. -/
def cmsghdrSize : Nat := 16

def solSocket : Int32 := 1

def scmRights : Int32 := 1

/-- The four bytes of an `i32`. -/
def bytesOfI32 (x : Int32) : Bytes := digits 4 x.toUInt32.toNat

def i32OfBytes (bs : Bytes) : Int32 := (UInt32.ofNat (number bs)).toInt32

/-- The header of a control message, as it stands in memory. -/
def bytesOfCmsghdr (len : Nat) (level type : Int32) : Bytes := digits 8 len ++ bytesOfI32 level ++ bytesOfI32 type

/-- The control buffer of `send_with_fds`; a write outside it counts as a panic. -/
def sendControl (fds : List Int32) : Run Bytes := do
  let dataOff ← align8 cmsghdrSize
  let size ← mul fds.length 4
  let cmsgLen ← add dataOff size
  let controlLen ← align8 cmsgLen
  let control ← store (List.replicate controlLen 0) 0 (bytesOfCmsghdr cmsgLen solSocket scmRights)
  store control dataOff (fds.flatMap bytesOfI32)

/-- The inner loop of `recv_with_fds`: `n` descriptors from `off` on.  A read outside the buffer counts as a panic. -/
def readFds (control : Bytes) (off : Nat) : Nat → Run (List Int32)
  | 0 => pure []
  | n + 1 => do
    let p ← index control off (off + 4)
    let fds ← readFds control (off + 4) n
    pure (i32OfBytes p :: fds)

/-- A round of the outer loop, with the message at `off`: the next place and the descriptors of the message. -/
def readCmsg (control : Bytes) (off : Nat) : Run (Nat × List Int32) := do
  let len ← index control off (off + 8)
  let level ← index control (off + 8) (off + 12)
  let type ← index control (off + 12) (off + 16)
  let cmsgLen := number len
  let fds ←
    if i32OfBytes level = solSocket ∧ i32OfBytes type = scmRights then do
      let dataOff ← align8 cmsghdrSize
      -- `cmsg_len - data_off`
      if cmsgLen < dataOff then throw .panic
      readFds control (off + dataOff) ((cmsgLen - dataOff) / 4)
    else pure []
  let size ← align8 cmsgLen
  let off ← add off size
  pure (off, fds)

/-- The loop of `recv_with_fds` from `off` on; nothing if `fuel` rounds do not end it. -/
def recvLoop (control : Bytes) (controllen : Nat) : Nat → Nat → Option (Run (List Int32))
  | 0, _ => none
  | fuel + 1, off =>
    if off + cmsghdrSize ≤ controllen then
      match readCmsg control off with
      | .error e => some (.error e)
      | .ok (next, fds) => (recvLoop control controllen fuel next).map fun r => r.map (fds ++ ·)
    else some (.ok [])

/-- The control buffer of `recv_with_fds`. -/
def controlSize : Nat := 128

/-! ### Control messages -/

/-- A message that the kernel may deliver. -/
inductive Cmsg
  | rights (fds : List Int32)
  | other (level type : Int32) (data : Bytes) (h : ¬(level = solSocket ∧ type = scmRights))

def Cmsg.level : Cmsg → Int32
  | rights _ => solSocket
  | other level _ _ _ => level

def Cmsg.type : Cmsg → Int32
  | rights _ => scmRights
  | other _ type _ _ => type

def Cmsg.data : Cmsg → Bytes
  | rights fds => fds.flatMap bytesOfI32
  | other _ _ data _ => data

/-- The descriptors that a message carries. -/
def Cmsg.fds : Cmsg → List Int32
  | rights fds => fds
  | other _ _ _ _ => []

/-- `CMSG_LEN`. -/
def Cmsg.len (m : Cmsg) : Nat := 16 + m.data.length

/-- The zeros behind the data. -/
def Cmsg.padding (m : Cmsg) : Nat := (m.len + 7) / 8 * 8 - m.len

/-- A message as it stands in a control buffer. -/
def Cmsg.encode (m : Cmsg) : Bytes :=
  bytesOfCmsghdr m.len m.level m.type ++ m.data ++ List.replicate m.padding 0

/-! ### Numbers -/

@[simp] theorem length_bytesOfI32 (x : Int32) : (bytesOfI32 x).length = 4 := length_digits ..

@[simp] theorem length_bytesOfCmsghdr (len : Nat) (level type : Int32) :
    (bytesOfCmsghdr len level type).length = 16 := by
  simp [bytesOfCmsghdr]

private theorem i32OfBytes_bytesOfI32 (x : Int32) : i32OfBytes (bytesOfI32 x) = x := by
  rw [i32OfBytes, bytesOfI32, number_digits x.toUInt32.toNat_lt, UInt32.ofNat_toNat, Int32.toInt32_toUInt32]

private theorem length_flatMap_bytesOfI32 (fds : List Int32) : (fds.flatMap bytesOfI32).length = 4 * fds.length := by
  induction fds with
  | nil => rfl
  | cons fd fds ih =>
    rw [List.flatMap_cons, List.length_append, ih, length_bytesOfI32, List.length_cons]
    omega

private theorem align8_eq {n : Nat} (h : n + 7 < 18446744073709551616) : align8 n = .ok ((n + 7) / 8 * 8) := by
  rw [align8, add, if_pos h]
  rfl

@[simp] theorem align8_cmsghdrSize : align8 cmsghdrSize = .ok 16 := by decide

private theorem Cmsg.length_encode (m : Cmsg) : m.encode.length = (m.len + 7) / 8 * 8 := by
  rw [encode, List.length_append, List.length_append, length_bytesOfCmsghdr, List.length_replicate, padding]
  change m.len + _ = _
  omega

/-! ### Writing -/

/-- The buffer of `send_with_fds` is one message with the descriptors. -/
theorem sendControl_eq {fds : List Int32} (h : 4 * fds.length < 9223372036854775808) :
    sendControl fds = .ok (Cmsg.rights fds).encode := by
  have hdata := length_flatMap_bytesOfI32 fds
  have hlen : (Cmsg.rights fds).len = 16 + fds.length * 4 := by
    change 16 + (fds.flatMap bytesOfI32).length = _
    omega
  have hmul : mul fds.length 4 = .ok (fds.length * 4) := if_pos (by omega)
  have hadd : add 16 (fds.length * 4) = .ok (16 + fds.length * 4) := if_pos (by omega)
  have hzeros : List.replicate ((16 + fds.length * 4 + 7) / 8 * 8) (0 : UInt8) =
      List.replicate 16 0 ++ List.replicate (fds.length * 4) 0 ++ List.replicate (Cmsg.rights fds).padding 0 := by
    rw [List.replicate_append_replicate, List.replicate_append_replicate, Cmsg.padding, hlen]
    congr 1
    omega
  have hheader := store_append [] (List.replicate 16 0)
    (List.replicate (fds.length * 4) 0 ++ List.replicate (Cmsg.rights fds).padding 0)
    (bytesOfCmsghdr (16 + fds.length * 4) solSocket scmRights)
    (by rw [length_bytesOfCmsghdr, List.length_replicate])
  have hfds := store_append (bytesOfCmsghdr (16 + fds.length * 4) solSocket scmRights)
    (List.replicate (fds.length * 4) 0) (List.replicate (Cmsg.rights fds).padding 0) (fds.flatMap bytesOfI32)
    (by rw [hdata, List.length_replicate, Nat.mul_comm])
  rw [List.nil_append, ← List.append_assoc, ← hzeros, List.length_nil, List.nil_append, ← List.append_assoc] at hheader
  rw [length_bytesOfCmsghdr] at hfds
  unfold sendControl
  rw [align8_cmsghdrSize, Cmsg.encode, hlen]
  simp only [hmul, hadd, align8_eq (show 16 + fds.length * 4 + 7 < 18446744073709551616 by omega), bind, Except.bind,
    hheader]
  exact hfds

/-! ### Reading -/

/-- Descriptors are read back wherever they stand. -/
theorem readFds_flatMap (pre : Bytes) (fds : List Int32) (post : Bytes) :
    readFds (pre ++ fds.flatMap bytesOfI32 ++ post) pre.length fds.length = .ok fds := by
  induction fds generalizing pre with
  | nil => rfl
  | cons fd fds ih =>
    have hread := index_append pre (bytesOfI32 fd) (fds.flatMap bytesOfI32 ++ post) rfl rfl
    have hrest := ih (pre ++ bytesOfI32 fd)
    rw [List.length_append, length_bytesOfI32] at hrest
    rw [length_bytesOfI32] at hread
    rw [List.flatMap_cons, List.length_cons, readFds]
    simp only [List.append_assoc] at hread hrest ⊢
    rw [hread]
    simp only [bind, Except.bind, hrest, i32OfBytes_bytesOfI32]
    rfl

/-- A header is read back wherever it stands. -/
theorem readHeader (pre : Bytes) {len : Nat} (level type : Int32) (post : Bytes) (h : len < 18446744073709551616) :
    ∃ l t, index (pre ++ bytesOfCmsghdr len level type ++ post) pre.length (pre.length + 8) = .ok (digits 8 len) ∧
      index (pre ++ bytesOfCmsghdr len level type ++ post) (pre.length + 8) (pre.length + 12) = .ok l ∧
      index (pre ++ bytesOfCmsghdr len level type ++ post) (pre.length + 12) (pre.length + 16) = .ok t ∧
      number (digits 8 len) = len ∧ i32OfBytes l = level ∧ i32OfBytes t = type := by
  have hlen := index_append pre (digits 8 len) (bytesOfI32 level ++ bytesOfI32 type ++ post) rfl rfl
  have hlevel := index_append (pre ++ digits 8 len) (bytesOfI32 level) (bytesOfI32 type ++ post) rfl rfl
  have htype := index_append (pre ++ digits 8 len ++ bytesOfI32 level) (bytesOfI32 type) post rfl rfl
  simp only [List.append_assoc, List.length_append, length_digits, length_bytesOfI32, Nat.add_assoc,
    Nat.reduceAdd] at hlen hlevel htype
  simp only [bytesOfCmsghdr, List.append_assoc]
  exact ⟨_, _, hlen, hlevel, htype, number_digits h, i32OfBytes_bytesOfI32 level, i32OfBytes_bytesOfI32 type⟩

/-- A round reads the message at its place and goes to the end of its padding. -/
theorem readCmsg_encode (pre : Bytes) (m : Cmsg) (post : Bytes)
    (h : (pre ++ m.encode ++ post).length < 9223372036854775808) :
    readCmsg (pre ++ m.encode ++ post) pre.length = .ok (pre.length + m.encode.length, m.fds) := by
  have hsize := m.length_encode
  simp only [List.length_append] at h
  have hbuffer : pre ++ m.encode ++ post =
      pre ++ bytesOfCmsghdr m.len m.level m.type ++ (m.data ++ (List.replicate m.padding 0 ++ post)) := by
    simp only [Cmsg.encode, List.append_assoc]
  obtain ⟨l, t, hlen, hlevel, htype, hnumber, hl, ht⟩ := readHeader pre m.level m.type
    (m.data ++ (List.replicate m.padding 0 ++ post)) (show m.len < 18446744073709551616 by omega)
  have halign : align8 m.len = .ok m.encode.length := by rw [hsize, align8_eq (by omega)]
  have hadd : add pre.length m.encode.length = .ok (pre.length + m.encode.length) := if_pos (by omega)
  unfold readCmsg
  rw [hbuffer, hlen, hlevel, htype]
  simp only [bind, Except.bind, hnumber, hl, ht, halign, align8_cmsghdrSize, hadd]
  cases m with
  | rights fds =>
    have hfds := readFds_flatMap (pre ++ bytesOfCmsghdr (Cmsg.rights fds).len solSocket scmRights) fds
      (List.replicate (Cmsg.rights fds).padding 0 ++ post)
    have hcount : ((Cmsg.rights fds).len - 16) / 4 = fds.length := by
      have hdata := length_flatMap_bytesOfI32 fds
      change (16 + (fds.flatMap bytesOfI32).length - 16) / 4 = _
      omega
    have hle : ¬(Cmsg.rights fds).len < 16 := Nat.not_lt.2 (Nat.le_add_right ..)
    rw [List.length_append, length_bytesOfCmsghdr, List.append_assoc _ (fds.flatMap bytesOfI32)] at hfds
    simp only [Cmsg.level, Cmsg.type, Cmsg.data, and_self, if_true, if_neg hle, hcount, hfds]
    rfl
  | other level type data hother =>
    split
    · rename_i hrights
      exact absurd hrights hother
    · rfl

/-- The messages of a buffer are read one after the other. -/
theorem recvLoop_encode (msgs : List Cmsg) (pre post : Bytes)
    (h : (pre ++ msgs.flatMap Cmsg.encode ++ post).length < 9223372036854775808) :
    recvLoop (pre ++ msgs.flatMap Cmsg.encode ++ post) (pre.length + (msgs.flatMap Cmsg.encode).length)
      (msgs.length + 1) pre.length = some (.ok (msgs.flatMap Cmsg.fds)) := by
  induction msgs generalizing pre with
  | nil =>
    rw [recvLoop, if_neg (by simp [cmsghdrSize])]
    rfl
  | cons m msgs ih =>
    have hsize : cmsghdrSize ≤ m.encode.length := by
      have hlen : 16 ≤ m.len := Nat.le_add_right ..
      have := m.length_encode
      unfold cmsghdrSize
      omega
    have hregroup : pre ++ (m :: msgs).flatMap Cmsg.encode ++ post =
        pre ++ m.encode ++ (msgs.flatMap Cmsg.encode ++ post) := by
      simp only [List.flatMap_cons, List.append_assoc]
    have hround := readCmsg_encode pre m (msgs.flatMap Cmsg.encode ++ post) (hregroup ▸ h)
    have hrest := ih (pre ++ m.encode) (by rw [List.append_assoc _ _ post, ← hregroup]; exact h)
    rw [List.length_append, List.append_assoc _ _ post] at hrest
    rw [hregroup, List.length_cons, recvLoop, List.flatMap_cons, List.length_append, if_pos (by omega), hround,
      ← Nat.add_assoc]
    dsimp only
    rw [hrest, List.flatMap_cons]
    rfl

/-- What `send_with_fds` writes for any descriptors fits into the buffer of `recv_with_fds` exactly if they are at most
28, and comes out of it as it went in, whatever messages stand before and behind it. -/
theorem control_roundtrip {fds : List Int32} (h : 4 * fds.length < 9223372036854775808) :
    ∃ control, sendControl fds = .ok control ∧ (control.length ≤ controlSize ↔ fds.length ≤ maxPassed) ∧
      ∀ (before after : List Cmsg) (rest : Bytes),
        (before.flatMap Cmsg.encode ++ control ++ after.flatMap Cmsg.encode ++ rest).length = controlSize →
        recvLoop (before.flatMap Cmsg.encode ++ control ++ after.flatMap Cmsg.encode ++ rest)
          (before.flatMap Cmsg.encode ++ control ++ after.flatMap Cmsg.encode).length
          (before.length + after.length + 2) 0 =
          some (.ok (before.flatMap Cmsg.fds ++ fds ++ after.flatMap Cmsg.fds)) := by
  refine ⟨_, sendControl_eq h, ?_, fun before after rest hlen => ?_⟩
  · have hsize := (Cmsg.rights fds).length_encode
    have hdata := length_flatMap_bytesOfI32 fds
    have hmsg : (Cmsg.rights fds).len = 16 + (fds.flatMap bytesOfI32).length := rfl
    unfold controlSize maxPassed
    omega
  · have hmsgs : (before ++ Cmsg.rights fds :: after).flatMap Cmsg.encode =
        before.flatMap Cmsg.encode ++ (Cmsg.rights fds).encode ++ after.flatMap Cmsg.encode := by
      simp only [List.flatMap_append, List.flatMap_cons, List.append_assoc]
    have hloop := recvLoop_encode (before ++ Cmsg.rights fds :: after) [] rest
      (by rw [List.nil_append, hmsgs, hlen]; decide)
    have hfuel : (before ++ Cmsg.rights fds :: after).length + 1 = before.length + after.length + 2 := by
      rw [List.length_append, List.length_cons]
      omega
    rw [List.nil_append, hmsgs, List.length_nil, Nat.zero_add, hfuel] at hloop
    rw [hloop]
    simp only [List.flatMap_append, List.flatMap_cons, List.append_assoc]
    rfl

/-- The credentials of a sender, `SCM_CREDENTIALS`. -/
def credentials : Cmsg := .other 1 2 (List.replicate 12 7) (by decide)

/-- Three streams behind the credentials of the sender. -/
theorem control_roundtrip_stdio : ∃ control, sendControl [0, 1, 2] = .ok control ∧
    recvLoop (credentials.encode ++ control ++ List.replicate 64 255) (credentials.encode ++ control).length 3 0 =
      some (.ok [0, 1, 2]) := by
  have hlen : 4 * ([0, 1, 2] : List Int32).length < 9223372036854775808 := by decide
  obtain ⟨control, hsend, -, hrecv⟩ := control_roundtrip hlen
  have hcontrol : sendControl [0, 1, 2] =
      .ok (bytesOfCmsghdr 28 1 1 ++ [0, 0, 0, 0, 1, 0, 0, 0, 2, 0, 0, 0] ++ [0, 0, 0, 0]) := by decide
  have hread := hrecv [credentials] [] (List.replicate 64 255)
  rw [← Except.ok.inj (hcontrol.symm.trans hsend)] at hread
  refine ⟨_, hcontrol, hread ?_⟩
  simp [Cmsg.length_encode, credentials, Cmsg.len, Cmsg.data, controlSize]

end Calisto

import Calisto.Wire.Framing

/-!
# Commands cut into receives

A client's bytes reach `client_read_command` cut into chunks, with would-block results in between.  `drive` calls it
on the same client, again after each command and after each `Partial`, until the receives are used up or the
connection ends.  The result is that of the uncut stream exactly as long as every receive finds the parser at a
place where its locals, or nothing, hold what has been drained (`fragmentation_invariant_iff`): a head line that is
not complete, or, when the receive gives bytes, a length line that is not complete.
-/

namespace Calisto

variable {alloc : Nat → Bool}

/-! ### Calls -/

/-- All bytes of the receives. -/
def stream (rets : List RecvRet) : Bytes := rets.flatMap RecvRet.bytes

@[simp] theorem stream_nil : stream [] = [] := rfl

@[simp] theorem stream_cons (ret : RecvRet) (rets : List RecvRet) :
    stream (ret :: rets) = ret.bytes ++ stream rets := rfl

@[simp] theorem stream_append (rets rets' : List RecvRet) :
    stream (rets ++ rets') = stream rets ++ stream rets' := List.flatMap_append

/-- The results of at most `n` calls of `client_read_command`: the commands, and the `Bad`, `Eof` or crash that
ends them. -/
def drive (alloc : Nat → Bool) : Nat → DaemonClient → List RecvRet → List ReadRet
  | 0, _, _ => []
  | n + 1, c, rets =>
    match clientReadCommand alloc c rets with
    | (.ok op fields, c', rets') => .ok op fields :: drive alloc n c' rets'
    | (.err .partialCmd, c', rets') => drive alloc n c' rets'
    | (.starved, _, _) => []
    | (ret, _, _) => [ret]

/-- Every call but the last takes a byte or a receive result, so that there are no more calls than this. -/
def calls (c : DaemonClient) (rets : List RecvRet) : Nat :=
  c.buf.length + (stream rets).length + rets.length + 1

/-- The results of calling `client_read_command` until the receives are used up. -/
def results (alloc : Nat → Bool) (c : DaemonClient) (rets : List RecvRet) : List ReadRet :=
  drive alloc (calls c rets) c rets

/-! ### Bytes lost

For every receive of a call, the bytes drained since the call began and the locals with which the parser goes on
after the receive: those of the call, or none (`Reader.head`) when the call returns. -/

def readDrains (alloc : Nat → Bool) (whole : Bytes) (r : Reader) (c : DaemonClient) (rets : List RecvRet) :
    List (Bytes × Reader) :=
  match scan alloc r c.buf with
  | .fill _ r' buf =>
    match rets with
    | [] => []
    | ret :: rets =>
      let drained := whole.take (whole.length - buf.length)
      match clientFill { c with buf := buf } ret with
      | (_, some _) => [(drained, .head)]
      | (c', none) => (drained, r') :: readDrains alloc (whole ++ ret.bytes) r' c' rets
  | _ => []

def driveDrains (alloc : Nat → Bool) : Nat → DaemonClient → List RecvRet → List (Bytes × Reader)
  | 0, _, _ => []
  | n + 1, c, rets =>
    readDrains alloc c.buf .head c rets ++
      match clientReadCommand alloc c rets with
      | (.ok _ _, c', rets') => driveDrains alloc n c' rets'
      | (.err .partialCmd, c', rets') => driveDrains alloc n c' rets'
      | _ => []

/-- No receive finds a byte drained that the locals do not hold. -/
def NothingLost (alloc : Nat → Bool) (c : DaemonClient) (rets : List RecvRet) : Prop :=
  ∀ p ∈ driveDrains alloc (calls c rets) c rets, Parsed alloc p.1 p.2

/-! ### Harmless cuts -/

def placeIn (alloc : Nat → Bool) : Nat → Bytes → Option Site
  | 0, _ => none
  | n + 1, buf =>
    match scan alloc .head buf with
    | .done _ _ rest => placeIn alloc n rest
    | .fill site _ _ => some site
    | _ => none

/-- What a stream that begins with these bytes lacks next: the rest of a head line, of a length line or of the data
of a field; `none` when a `Bad` or a crash has ended it. -/
def place (alloc : Nat → Bool) (buf : Bytes) : Option Site := placeIn alloc (buf.length + 1) buf

/-- Receives that do no harm at a place: any while a head line is incomplete, one that gives bytes while a length
line is, none while the data of a field is. -/
def harmlessAt : Option Site → RecvRet → Bool
  | some .line, .data _ _ => true
  | some .line, _ => false
  | some .data, _ => false
  | _, _ => true

/-- Every receive is harmless at the place that the bytes before it, `sofar` at the start, lead to. -/
def Harmless (alloc : Nat → Bool) : Bytes → List RecvRet → Prop
  | _, [] => True
  | sofar, ret :: rets => harmlessAt (place alloc sofar) ret ∧ Harmless alloc (sofar ++ ret.bytes) rets

instance instDecidableHarmless (alloc : Nat → Bool) :
    ∀ (sofar : Bytes) (rets : List RecvRet), Decidable (Harmless alloc sofar rets)
  | _, [] => .isTrue trivial
  | sofar, ret :: rets =>
    have := instDecidableHarmless alloc (sofar ++ ret.bytes) rets
    inferInstanceAs (Decidable (_ ∧ _))

/-- A non-empty chunk of at most 65536 bytes or a would-block result. -/
def RecvRet.isChunk : RecvRet → Bool
  | .data bytes _ => bytes ≠ [] ∧ bytes.length ≤ 65536
  | .wouldBlock => true
  | _ => false

def Chunks (rets : List RecvRet) : Prop := ∀ ret ∈ rets, ret.isChunk

instance (rets : List RecvRet) : Decidable (Chunks rets) := inferInstanceAs (Decidable (∀ ret ∈ rets, ret.isChunk))

/-! ### Whole streams -/

private theorem scanFields_done_length {head op op' : Str} {todo : Nat} {got fields : List Bytes} {buf rest : Bytes}
    (h : scanFields head op todo got buf = .done op' fields rest) : rest.length ≤ buf.length := by
  induction todo generalizing got buf with
  | zero => cases h; exact Nat.le_refl _
  | succ todo ih =>
    cases hpos : findCrlf buf with
    | none => simp [scanFields, hpos] at h
    | some pos =>
      obtain ⟨line, tail, rfl, -, hline⟩ := findCrlf_split hpos
      rw [scanFields_line hline] at h
      cases hlen : parseLen line with
      | none => simp [hlen] at h
      | some len =>
        simp only [hlen] at h
        by_cases hshort : tail.length < len
        · simp [hshort] at h
        · rw [if_neg hshort] at h
          have := ih h
          simp only [List.length_drop, List.length_append] at this ⊢
          omega

/-- A command takes at least its head line. -/
theorem scan_done_length {op : Str} {fields : List Bytes} {buf rest : Bytes}
    (h : scan alloc .head buf = .done op fields rest) : rest.length < buf.length := by
  cases hpos : findCrlf buf with
  | none => simp [scan, hpos] at h
  | some pos =>
    obtain ⟨line, tail, rfl, -, hline⟩ := findCrlf_split hpos
    rw [scan_line hline] at h
    cases hhead : parseHead line with
    | error e => simp [hhead] at h
    | ok p =>
      cases hcap : withCapacity alloc p.2 with
      | some c => simp [hhead, hcap] at h
      | none =>
        simp only [hhead, hcap] at h
        have := scanFields_done_length h
        simp only [List.length_append, crlf, List.length_cons]
        omega

/-- The results of reading a stream that is all in the buffer. -/
def commands (alloc : Nat → Bool) : Nat → Bytes → List ReadRet
  | 0, _ => []
  | n + 1, buf =>
    match scan alloc .head buf with
    | .done op fields rest => .ok op fields :: commands alloc n rest
    | .bad head _ => [.err (.bad head)]
    | .crash e => [.crash e]
    | .fill _ _ _ => []

private theorem drive_nil (n : Nat) (c : DaemonClient) : drive alloc n c [] = commands alloc n c.buf := by
  induction n generalizing c with
  | zero => rfl
  | succ n ih =>
    unfold drive clientReadCommand readLoop commands
    cases scan alloc .head c.buf <;> simp [ih]

private theorem placeIn_congr {n m : Nat} {buf : Bytes} (hn : buf.length < n) (hm : buf.length < m) :
    placeIn alloc n buf = placeIn alloc m buf := by
  induction n generalizing m buf with
  | zero => omega
  | succ n ih =>
    cases m with
    | zero => omega
    | succ m =>
      unfold placeIn
      cases hscan : scan alloc .head buf with
      | done op fields rest =>
        have := scan_done_length hscan
        simp only [@ih m rest (by omega) (by omega)]
      | bad head rest => rfl
      | crash e => rfl
      | fill site r buf => rfl

private theorem place_of_done {op : Str} {fields : List Bytes} {buf rest : Bytes}
    (h : scan alloc .head buf = .done op fields rest) (x : Bytes) :
    place alloc (buf ++ x) = place alloc (rest ++ x) := by
  have happ := @scan_append alloc .head buf x (by rw [h]; exact id)
  rw [h] at happ
  have hlen := scan_done_length h
  show placeIn alloc ((buf ++ x).length + 1) (buf ++ x) = _
  rw [placeIn, happ]
  exact placeIn_congr (by simp; omega) (by simp)

theorem place_of_fill {site : Site} {r : Reader} {buf rest : Bytes} (h : scan alloc .head buf = .fill site r rest) :
    place alloc buf = some site := by
  show placeIn alloc (buf.length + 1) buf = _
  rw [placeIn, h]

def Scan.IsOver : Scan → Prop
  | .bad _ _ | .crash _ => True
  | _ => False

private theorem scan_append_over {buf : Bytes} (h : (scan alloc .head buf).IsOver) (x : Bytes) :
    (scan alloc .head (buf ++ x)).IsOver := by
  have hfill : ¬(scan alloc .head buf).IsFill := by
    cases hs : scan alloc .head buf <;> simp_all [Scan.IsOver, Scan.IsFill]
  rw [scan_append _ _ _ hfill]
  cases hs : scan alloc .head buf <;> simp_all [Scan.IsOver, Scan.append]

/-- After a `Bad` or a crash no receive does harm. -/
theorem harmless_of_over {buf : Bytes} (h : (scan alloc .head buf).IsOver) (rets : List RecvRet) :
    Harmless alloc buf rets := by
  induction rets generalizing buf with
  | nil => trivial
  | cons ret rets ih =>
    refine ⟨?_, ih (scan_append_over h _)⟩
    have hplace : place alloc buf = none := by
      show placeIn alloc (buf.length + 1) buf = _
      rw [placeIn]
      cases hs : scan alloc .head buf <;> simp_all [Scan.IsOver]
    rw [hplace]
    rfl

private theorem harmless_of_done {op : Str} {fields : List Bytes} {buf rest : Bytes}
    (h : scan alloc .head buf = .done op fields rest) (x : Bytes) (rets : List RecvRet) :
    Harmless alloc (buf ++ x) rets ↔ Harmless alloc (rest ++ x) rets := by
  induction rets generalizing x with
  | nil => exact Iff.rfl
  | cons ret rets ih =>
    have := ih (x ++ ret.bytes)
    simp only [Harmless, place_of_done h, List.append_assoc, this]

/-! ### One call -/

private theorem clientFill_wouldBlock (c : DaemonClient) :
    ∃ c', clientFill c .wouldBlock = (c', some .partialCmd) ∧ c'.buf = c.buf := by
  unfold clientFill
  split <;> exact ⟨_, rfl, rfl⟩

private theorem clientFill_data (c : DaemonClient) {bytes : Bytes} (h : bytes ≠ []) (fds : List Fd) :
    ∃ c', clientFill c (.data bytes fds) = (c', none) ∧ c'.buf = c.buf ++ bytes := by
  unfold clientFill
  split
  · exact ⟨_, rfl, rfl⟩
  · simp only [h, ↓reduceIte]
    exact ⟨_, rfl, rfl⟩

private theorem RecvRet.isChunk_cases {ret : RecvRet} (h : ret.isChunk) :
    ret = .wouldBlock ∨ ∃ bytes fds, ret = .data bytes fds ∧ bytes ≠ [] := by
  cases ret with
  | data bytes fds =>
    simp only [RecvRet.isChunk, decide_eq_true_eq] at h
    exact Or.inr ⟨bytes, fds, rfl, h.1⟩
  | wouldBlock => exact Or.inl rfl
  | interrupted => cases h
  | failed => cases h

theorem FillAt.drained {d buf whole : Bytes} {site : Site} {r : Reader} (h : FillAt alloc d site r buf whole) :
    ∃ d', whole = d' ++ buf ∧ whole.take (whole.length - buf.length) = d' := by
  have hsplit : ∃ d', whole = d' ++ buf := by
    by_cases hsite : site = .data
    · obtain ⟨line, len, -, -, -, hw, -, -⟩ := h.dropped hsite
      exact ⟨_, hw⟩
    · exact ⟨_, (h.held hsite).1⟩
  obtain ⟨d', rfl⟩ := hsplit
  exact ⟨d', rfl, by simp⟩

/-- A receive that gives bytes loses nothing unless it is one for the data of a field. -/
theorem FillAt.parsed_data {d buf whole : Bytes} {site : Site} {r : Reader}
    (h : FillAt alloc d site r buf whole) :
    Parsed alloc (whole.take (whole.length - buf.length)) r ↔ site ≠ .data := by
  obtain ⟨d', hw, hd'⟩ := h.drained
  rw [hd']
  by_cases hsite : site = .data
  · obtain ⟨line, len, hline, hlen, hshort, hw', hd, hr⟩ := h.dropped hsite
    have : d' = d ++ line ++ crlf := List.append_cancel_right (hw.symm.trans hw')
    simp only [this, hsite, ne_eq, not_true_eq_false, iff_false]
    exact not_parsed_dropped hd hr hline hlen (by omega)
  · obtain ⟨hw', hd⟩ := h.held hsite
    have : d' = d := List.append_cancel_right (hw.symm.trans hw')
    simpa [this, hsite] using hd

/-- A receive with which the call returns loses nothing only when nothing was drained. -/
theorem FillAt.parsed_return {d buf whole : Bytes} {site : Site} {r : Reader}
    (h : FillAt alloc d site r buf whole) :
    Parsed alloc (whole.take (whole.length - buf.length)) .head ↔ site = .head := by
  obtain ⟨d', hw, hd'⟩ := h.drained
  rw [hd']
  constructor
  · intro hp
    cases hp.of_head
    by_cases hsite : site = .data
    · obtain ⟨line, len, -, -, -, hw', -, -⟩ := h.dropped hsite
      have : [] = d ++ line ++ crlf := List.append_cancel_right (hw.symm.trans hw')
      simp [crlf] at this
    · obtain ⟨hw', hd⟩ := h.held hsite
      have : [] = d := List.append_cancel_right (hw.symm.trans hw')
      subst this
      cases hr : r with
      | head => exact h.head.2 hr
      | fields head op todo got => rw [hr] at hd; exact absurd rfl hd.ne_nil
  · intro hsite
    obtain ⟨hw', hd⟩ := h.held (by rw [hsite]; simp)
    have : d' = d := List.append_cancel_right (hw.symm.trans hw')
    rw [h.head.1 hsite] at hd
    rw [this]
    exact hd

/-- What a call does with the receives `used` when nothing is lost: it reads the stream from its first byte on. -/
def ReadSpec (alloc : Nat → Bool) (whole : Bytes) (used : List RecvRet) (c' : DaemonClient) : ReadRet → Prop
  | .ok op fields => scan alloc .head (whole ++ stream used) = .done op fields c'.buf
  | .err .partialCmd => used ≠ [] ∧ c'.buf = whole ++ stream used
  | .err (.bad head) => ∃ rest, scan alloc .head (whole ++ stream used) = .bad head rest
  | .err .eof => False
  | .crash e => scan alloc .head (whole ++ stream used) = .crash e
  | .starved => (scan alloc .head (whole ++ stream used)).IsFill

/-- A call whose receives `used` lose nothing. -/
structure GoodCall (alloc : Nat → Bool) (whole : Bytes) (rets used rets' : List RecvRet) (c' : DaemonClient)
    (ret : ReadRet) : Prop where
  split : rets = used ++ rets'
  harmless : Harmless alloc whole rets ↔ Harmless alloc (whole ++ stream used) rets'
  starved : ret = .starved → rets' = []
  spec : ReadSpec alloc whole used c' ret

theorem GoodCall.cons {whole : Bytes} {ret : RecvRet} {rets used rets' : List RecvRet} {c' : DaemonClient}
    {res : ReadRet} (h : GoodCall alloc (whole ++ ret.bytes) rets used rets' c' res)
    (hret : harmlessAt (place alloc whole) ret) :
    GoodCall alloc whole (ret :: rets) (ret :: used) rets' c' res := by
  refine ⟨by rw [h.split]; rfl, ?_, h.starved, ?_⟩
  · simp only [Harmless, hret, true_and, h.harmless, stream_cons, List.append_assoc]
  · have hs := h.spec
    cases res with
    | ok op fields => simpa [ReadSpec] using hs
    | crash e => simpa [ReadSpec] using hs
    | starved => simpa [ReadSpec] using hs
    | err e =>
      cases e with
      | partialCmd => exact ⟨by simp, by simpa using hs.2⟩
      | eof => exact hs
      | bad head => simpa [ReadSpec] using hs

/-- A call that has no receive to make. -/
theorem goodCall_of_scan {d : Bytes} {r : Reader} (c : DaemonClient) (rets : List RecvRet) (hd : Parsed alloc d r)
    (h : ¬(scan alloc r c.buf).IsFill ∨ rets = []) :
    readDrains alloc (d ++ c.buf) r c rets = [] ∧
      GoodCall alloc (d ++ c.buf) rets [] (readLoop alloc r c rets).2.2 (readLoop alloc r c rets).2.1
        (readLoop alloc r c rets).1 := by
  have hres := hd.resume c.buf
  cases hscan : scan alloc r c.buf with
  | done op fields buf =>
    rw [hscan] at hres
    cases rets <;> simp only [readDrains, readLoop, hscan] <;>
      exact ⟨trivial, rfl, by simp, by simp, by simpa [ReadSpec] using hres⟩
  | bad head buf =>
    rw [hscan] at hres
    cases rets <;> simp only [readDrains, readLoop, hscan] <;>
      exact ⟨trivial, rfl, by simp, by simp, by simpa [ReadSpec] using ⟨_, hres⟩⟩
  | crash e =>
    rw [hscan] at hres
    cases rets <;> simp only [readDrains, readLoop, hscan] <;>
      exact ⟨trivial, rfl, by simp, by simp, by simpa [ReadSpec] using hres⟩
  | fill site r' buf =>
    rcases h with h | rfl
    · exact absurd (by rw [hscan]; trivial) h
    · rw [hscan] at hres
      simp only [readDrains, readLoop, hscan]
      exact ⟨trivial, rfl, by simp, fun _ => rfl, by simp [ReadSpec, hres, Scan.IsFill]⟩

private theorem Scan.IsFill.exists {res : Scan} (h : res.IsFill) : ∃ site r buf, res = .fill site r buf := by
  cases res with
  | fill site r buf => exact ⟨site, r, buf, rfl⟩
  | done => exact h.elim
  | bad => exact h.elim
  | crash => exact h.elim

/-- Either no receive of a call loses a byte and the call reads the stream as if it were uncut, or a receive does
and is not harmless. -/
def CallOutcome (alloc : Nat → Bool) (whole : Bytes) (r : Reader) (c : DaemonClient) (rets : List RecvRet) : Prop :=
  ((∀ p ∈ readDrains alloc whole r c rets, Parsed alloc p.1 p.2) ∧
    ∃ used, GoodCall alloc whole rets used (readLoop alloc r c rets).2.2 (readLoop alloc r c rets).2.1
      (readLoop alloc r c rets).1) ∨
  ((∃ p ∈ readDrains alloc whole r c rets, ¬Parsed alloc p.1 p.2) ∧ ¬Harmless alloc whole rets)

/-- A would-block, with which the call returns. -/
theorem callOutcome_wouldBlock {d whole : Bytes} {site : Site} {r r' : Reader} {c : DaemonClient} {buf : Bytes}
    (rets : List RecvRet) (hscan : scan alloc r c.buf = .fill site r' buf) (hfill : FillAt alloc d site r' buf whole)
    (hplace : place alloc whole = some site) : CallOutcome alloc whole r c (.wouldBlock :: rets) := by
  obtain ⟨c', hcf, hbuf⟩ := clientFill_wouldBlock { c with buf := buf }
  unfold CallOutcome
  rw [readLoop, readDrains, hscan]
  simp only [hcf, List.mem_singleton]
  by_cases hsite : site = .head
  · left
    obtain ⟨hw, hd⟩ := hfill.held (by simp [hsite])
    rw [hfill.head.1 hsite] at hd
    rw [hd.of_head, List.nil_append] at hw
    refine ⟨fun p hp => by rw [hp]; exact hfill.parsed_return.2 hsite, [.wouldBlock], rfl, ?_, by simp, ?_⟩
    · simp [Harmless, hplace, hsite, harmlessAt, RecvRet.bytes]
    · exact ⟨by simp, by simp [hbuf, hw, RecvRet.bytes]⟩
  · right
    refine ⟨⟨_, rfl, fun h => hsite (hfill.parsed_return.1 h)⟩, fun h => ?_⟩
    have hret := h.1
    rw [hplace] at hret
    cases site <;> simp_all [harmlessAt]

/-- A chunk, after which the call goes on with the locals `r'`. -/
theorem callOutcome_data {d whole bytes : Bytes} {fds : List Fd} {site : Site} {r r' : Reader} {c : DaemonClient}
    {buf : Bytes} {rets : List RecvRet} (hscan : scan alloc r c.buf = .fill site r' buf)
    (hfill : FillAt alloc d site r' buf whole) (hplace : place alloc whole = some site) (hne : bytes ≠ [])
    (hrest : ∀ c' : DaemonClient, Parsed alloc d r' → CallOutcome alloc (d ++ c'.buf) r' c' rets) :
    CallOutcome alloc whole r c (.data bytes fds :: rets) := by
  obtain ⟨c', hcf, hbuf⟩ := clientFill_data { c with buf := buf } hne fds
  unfold CallOutcome
  rw [readLoop, readDrains, hscan]
  simp only [hcf]
  by_cases hsite : site = .data
  · right
    refine ⟨⟨_, List.mem_cons_self .., fun h => hfill.parsed_data.1 h hsite⟩, fun h => ?_⟩
    have hret := h.1
    rw [hplace, hsite] at hret
    simp [harmlessAt] at hret
  · obtain ⟨hw, hd⟩ := hfill.held hsite
    have hret : harmlessAt (place alloc whole) (.data bytes fds) := by
      rw [hplace]
      cases site <;> simp_all [harmlessAt]
    have hwhole : d ++ c'.buf = whole ++ (RecvRet.data bytes fds).bytes := by
      rw [hbuf, hw]
      simp [RecvRet.bytes]
    have hrec := hrest c' hd
    rw [hwhole] at hrec
    rcases hrec with ⟨h1, used, h2⟩ | ⟨⟨p, hp, hlost⟩, h2⟩
    · left
      refine ⟨?_, _, h2.cons hret⟩
      intro p hp
      rcases List.mem_cons.1 hp with rfl | hp
      · exact hfill.parsed_data.2 hsite
      · exact h1 p hp
    · right
      exact ⟨⟨p, List.mem_cons_of_mem _ hp, hlost⟩, fun h => h2 h.2⟩

private theorem callOutcome {rets : List RecvRet} (hc : Chunks rets) {d : Bytes} {r : Reader} {c : DaemonClient}
    (hd : Parsed alloc d r) : CallOutcome alloc (d ++ c.buf) r c rets := by
  induction rets generalizing d r c with
  | nil =>
    obtain ⟨h1, h2⟩ := goodCall_of_scan c [] hd (Or.inr rfl)
    exact Or.inl ⟨by rw [h1]; nofun, _, h2⟩
  | cons ret rets ih =>
    by_cases hfill : (scan alloc r c.buf).IsFill
    · obtain ⟨site, r', buf, hscan⟩ := hfill.exists
      obtain ⟨d', hat⟩ := scan_fill hd hscan
      have hplace : place alloc (d ++ c.buf) = some site := place_of_fill ((hd.resume c.buf).trans hscan)
      rcases RecvRet.isChunk_cases (hc ret (List.mem_cons_self ..)) with rfl | ⟨bytes, fds, rfl, hne⟩
      · exact callOutcome_wouldBlock rets hscan hat hplace
      · have hc' : Chunks rets := fun x hx => hc x (List.mem_cons_of_mem _ hx)
        exact callOutcome_data hscan hat hplace hne fun c' hd' => ih hc' hd'
    · obtain ⟨h1, h2⟩ := goodCall_of_scan c (ret :: rets) hd (Or.inl hfill)
      exact Or.inl ⟨by rw [h1]; nofun, _, h2⟩

/-! ### All calls -/

theorem Chunks.suffix {used rets' : List RecvRet} (h : Chunks (used ++ rets')) : Chunks rets' :=
  fun ret hret => h ret (List.mem_append_right _ hret)

/-- A stream whose first command is complete. -/
theorem commands_of_done {op : Str} {fields : List Bytes} {buf rest : Bytes}
    (h : scan alloc .head buf = .done op fields rest) (n : Nat) (x : Bytes) :
    commands alloc (n + 1) (buf ++ x) = .ok op fields :: commands alloc n (rest ++ x) := by
  have happ := @scan_append alloc .head buf x (by rw [h]; exact id)
  rw [h] at happ
  rw [commands, happ]
  rfl

private theorem commands_of_bad {head : Str} {buf rest : Bytes} (h : scan alloc .head buf = .bad head rest) (n : Nat)
    (x : Bytes) : commands alloc (n + 1) (buf ++ x) = [.err (.bad head)] := by
  have happ := @scan_append alloc .head buf x (by rw [h]; exact id)
  rw [h] at happ
  rw [commands, happ]
  rfl

theorem commands_of_crash {e : Crash} {buf : Bytes} (h : scan alloc .head buf = .crash e) (n : Nat) (x : Bytes) :
    commands alloc (n + 1) (buf ++ x) = [.crash e] := by
  have happ := @scan_append alloc .head buf x (by rw [h]; exact id)
  rw [h] at happ
  rw [commands, happ]
  rfl

/-- Either no receive of any call loses a byte, and the calls give the results of the uncut stream, or one does and
is not harmless. -/
def Outcome (alloc : Nat → Bool) (n : Nat) (c : DaemonClient) (rets : List RecvRet) : Prop :=
  ((∀ p ∈ driveDrains alloc n c rets, Parsed alloc p.1 p.2) ∧ Harmless alloc c.buf rets ∧
    ∀ m, (c.buf ++ stream rets).length < m → drive alloc n c rets = commands alloc m (c.buf ++ stream rets)) ∨
  ((∃ p ∈ driveDrains alloc n c rets, ¬Parsed alloc p.1 p.2) ∧ ¬Harmless alloc c.buf rets)

section Outcome

variable {n : Nat} {c c' : DaemonClient} {rets rets' used : List RecvRet}

/-- A call that loses nothing and after which `client_read_command` is called again. -/
theorem Outcome.next (h : Outcome alloc n c' rets')
    (hdrains : driveDrains alloc (n + 1) c rets =
      readDrains alloc c.buf .head c rets ++ driveDrains alloc n c' rets')
    (hpar : ∀ p ∈ readDrains alloc c.buf .head c rets, Parsed alloc p.1 p.2)
    (hiff : Harmless alloc c.buf rets ↔ Harmless alloc c'.buf rets')
    (hsame : (∀ m, (c'.buf ++ stream rets').length < m →
        drive alloc n c' rets' = commands alloc m (c'.buf ++ stream rets')) →
      ∀ m, (c.buf ++ stream rets).length < m →
        drive alloc (n + 1) c rets = commands alloc m (c.buf ++ stream rets)) :
    Outcome alloc (n + 1) c rets := by
  unfold Outcome
  rw [hdrains]
  rcases h with ⟨h1, h2, h3⟩ | ⟨⟨p, hp, hlost⟩, h2⟩
  · left
    refine ⟨?_, hiff.2 h2, hsame h3⟩
    intro p hp
    rcases List.mem_append.1 hp with hp | hp
    · exact hpar p hp
    · exact h1 p hp
  · right
    exact ⟨⟨p, List.mem_append_right _ hp, hlost⟩, fun h => h2 (hiff.1 h)⟩

private theorem outcome_ok {op : Str} {fields : List Bytes} (hn : calls c (used ++ rets') ≤ n + 1)
    (hread : clientReadCommand alloc c (used ++ rets') = (.ok op fields, c', rets'))
    (hpar : ∀ p ∈ readDrains alloc c.buf .head c (used ++ rets'), Parsed alloc p.1 p.2)
    (hharm : Harmless alloc c.buf (used ++ rets') ↔ Harmless alloc (c.buf ++ stream used) rets')
    (hscan : scan alloc .head (c.buf ++ stream used) = .done op fields c'.buf)
    (hrest : calls c' rets' ≤ n → Outcome alloc n c' rets') : Outcome alloc (n + 1) c (used ++ rets') := by
  have hlen := scan_done_length hscan
  simp only [List.length_append] at hlen
  have hcalls : calls c' rets' ≤ n := by
    simp only [calls, stream_append, List.length_append] at hn ⊢
    omega
  have hiff : Harmless alloc c.buf (used ++ rets') ↔ Harmless alloc c'.buf rets' := by
    rw [hharm]
    simpa using harmless_of_done hscan [] rets'
  refine (hrest hcalls).next (by rw [driveDrains, hread]) hpar hiff fun hsame m hm => ?_
  simp only [stream_append, List.length_append] at hm
  obtain ⟨m, rfl⟩ : ∃ k, m = k + 1 := ⟨m - 1, by omega⟩
  have hlong : (c'.buf ++ stream rets').length < m := by
    rw [List.length_append]
    omega
  rw [drive, hread, stream_append, ← List.append_assoc, commands_of_done hscan, ← hsame m hlong]

private theorem outcome_partial (hn : calls c (used ++ rets') ≤ n + 1)
    (hread : clientReadCommand alloc c (used ++ rets') = (.err .partialCmd, c', rets'))
    (hpar : ∀ p ∈ readDrains alloc c.buf .head c (used ++ rets'), Parsed alloc p.1 p.2)
    (hharm : Harmless alloc c.buf (used ++ rets') ↔ Harmless alloc (c.buf ++ stream used) rets')
    (hused : used ≠ []) (hbuf : c'.buf = c.buf ++ stream used)
    (hrest : calls c' rets' ≤ n → Outcome alloc n c' rets') : Outcome alloc (n + 1) c (used ++ rets') := by
  have hpos : 0 < used.length := List.length_pos_iff.2 hused
  have hcalls : calls c' rets' ≤ n := by
    simp only [calls, hbuf, stream_append, List.length_append] at hn ⊢
    omega
  have hiff : Harmless alloc c.buf (used ++ rets') ↔ Harmless alloc c'.buf rets' := by rw [hharm, hbuf]
  refine (hrest hcalls).next (by rw [driveDrains, hread]) hpar hiff fun hsame m hm => ?_
  rw [drive, hread, stream_append, ← List.append_assoc, ← hbuf]
  apply hsame
  rw [hbuf, List.append_assoc, ← stream_append]
  exact hm

/-- A call that loses nothing and is the last one, with the results `last`. -/
theorem outcome_last {last : List ReadRet} (hdrains : driveDrains alloc (n + 1) c (used ++ rets') =
      readDrains alloc c.buf .head c (used ++ rets') ++ [])
    (hdrive : drive alloc (n + 1) c (used ++ rets') = last)
    (hpar : ∀ p ∈ readDrains alloc c.buf .head c (used ++ rets'), Parsed alloc p.1 p.2)
    (hharm : Harmless alloc c.buf (used ++ rets'))
    (hlast : ∀ m, commands alloc (m + 1) (c.buf ++ stream used ++ stream rets') = last) :
    Outcome alloc (n + 1) c (used ++ rets') := by
  left
  rw [hdrains, List.append_nil]
  refine ⟨hpar, hharm, fun m hm => ?_⟩
  obtain ⟨m, rfl⟩ : ∃ k, m = k + 1 := ⟨m - 1, by omega⟩
  rw [hdrive, stream_append, ← List.append_assoc, hlast]

end Outcome

theorem outcome {n : Nat} {c : DaemonClient} {rets : List RecvRet} (hc : Chunks rets) (hn : calls c rets ≤ n) :
    Outcome alloc n c rets := by
  induction n generalizing c rets with
  | zero => simp [calls] at hn
  | succ n ih =>
    rcases callOutcome hc (c := c) (@Parsed.start alloc) with ⟨hpar, used, hgood⟩ | ⟨⟨p, hp, hlost⟩, hharm⟩
    · rw [List.nil_append] at hpar hgood
      obtain ⟨hsplit, hharm, hstarved, hspec⟩ := hgood
      rcases hread : clientReadCommand alloc c rets with ⟨ret, c', rets'⟩
      rw [show readLoop alloc .head c rets = (ret, c', rets') from hread] at hsplit hharm hstarved hspec
      simp only at hsplit hharm hstarved hspec
      subst hsplit
      cases ret with
      | ok op fields => exact outcome_ok hn hread hpar hharm hspec (ih hc.suffix)
      | crash e =>
        have hover : Harmless alloc (c.buf ++ stream used) rets' := harmless_of_over (by rw [hspec]; trivial) _
        exact outcome_last (by rw [driveDrains, hread]) (by rw [drive, hread]) hpar (hharm.2 hover) fun m =>
          commands_of_crash hspec m _
      | starved =>
        obtain rfl : rets' = [] := hstarved rfl
        refine outcome_last (by rw [driveDrains, hread]) (by rw [drive, hread]) hpar (hharm.2 trivial) fun m => ?_
        obtain ⟨site, r, buf, hscan⟩ := Scan.IsFill.exists hspec
        rw [stream_nil, List.append_nil, commands, hscan]
      | err e =>
        cases e with
        | eof => exact hspec.elim
        | bad head =>
          obtain ⟨rest, hscan⟩ := hspec
          have hover : Harmless alloc (c.buf ++ stream used) rets' := harmless_of_over (by rw [hscan]; trivial) _
          exact outcome_last (by rw [driveDrains, hread]) (by rw [drive, hread]) hpar (hharm.2 hover) fun m =>
            commands_of_bad hscan m _
        | partialCmd => exact outcome_partial hn hread hpar hharm hspec.1 hspec.2 (ih hc.suffix)
    · rw [List.nil_append] at hp hharm
      right
      rw [driveDrains]
      exact ⟨⟨p, List.mem_append_left _ hp, hlost⟩, hharm⟩

/-- Cutting the stream changes nothing: the results are those of the uncut stream in `c.buf`, no receive finds a
byte drained and not held, and a built command is read back. -/
structure FragmentationInvariant (alloc : Nat → Bool) (c : DaemonClient) (rets : List RecvRet) : Prop where
  same : results alloc c rets = results alloc { c with buf := c.buf ++ stream rets } []
  nothingLost : NothingLost alloc c rets
  readBack : ∀ op fields, Framed alloc op fields → c.buf ++ stream rets = buildCmd op fields →
    results alloc c rets = [.ok op fields]

private theorem results_nil (c : DaemonClient) : results alloc c [] = commands alloc (c.buf.length + 1) c.buf := by
  rw [results, drive_nil]
  simp [calls]

private theorem results_buildCmd {op : Str} {fields : List Bytes} (h : Framed alloc op fields) {c : DaemonClient}
    (hc : c.buf = buildCmd op fields) : results alloc c [] = [.ok op fields] := by
  have hscan := scan_buildCmd h []
  rw [results_nil, hc]
  have := commands_of_done hscan (buildCmd op fields).length []
  simp only [List.append_nil] at this hscan
  rw [this]
  have hempty : scan alloc .head [] = .fill .head .head [] := rfl
  cases (buildCmd op fields).length <;> simp [commands, hempty]

/-- A stream cut into chunks is read as the uncut one exactly when no receive comes while the data of a field is
incomplete and no would-block comes between the head line and the end of a command. -/
theorem fragmentation_invariant_iff (alloc : Nat → Bool) (c : DaemonClient) (rets : List RecvRet) (hc : Chunks rets) :
    FragmentationInvariant alloc c rets ↔ Harmless alloc c.buf rets := by
  constructor
  · intro h
    rcases outcome hc (Nat.le_refl (calls c rets)) with ⟨-, h2, -⟩ | ⟨⟨p, hp, hlost⟩, -⟩
    · exact h2
    · exact absurd (h.nothingLost p hp) hlost
  · intro h
    rcases outcome hc (Nat.le_refl (calls c rets)) with ⟨h1, -, h3⟩ | ⟨-, h2⟩
    · have hsame : results alloc c rets = results alloc { c with buf := c.buf ++ stream rets } [] := by
        rw [results_nil]
        exact h3 _ (Nat.lt_succ_self _)
      refine ⟨hsame, h1, fun op fields hf heq => ?_⟩
      rw [hsame]
      exact results_buildCmd hf heq
    · exact absurd h h2

/-- A PING cut inside its head line, with a would-block in between. -/
theorem fragmentation_invariant_ping :
    FragmentationInvariant (fun _ => true) { fd := 5 }
      [.data [80, 73] [], .wouldBlock, .data [78, 71, 32, 48, 13, 10] []] :=
  (fragmentation_invariant_iff _ _ _ (by decide)).2 (by decide)

/-- A RUN whose head line arrives in a receive of its own, before a would-block: the head line is lost and the rest
is answered as a bad command. -/
theorem cut_run_not_invariant :
    Chunks [.data [82, 85, 78, 32, 49, 13, 10] [7, 8, 9], .wouldBlock, .data [36, 49, 13, 10, 65] []] ∧
    ¬FragmentationInvariant (fun _ => true) { fd := 5 }
      [.data [82, 85, 78, 32, 49, 13, 10] [7, 8, 9], .wouldBlock, .data [36, 49, 13, 10, 65] []] := by
  refine ⟨by decide, fun h => ?_⟩
  have hsame := h.same
  revert hsame
  decide

end Calisto

import Calisto.Ext.Sqlite
import Calisto.Lib.Entries
import Calisto.Lib.Handles

/-!
# The handles of `Calisto::SQLite`

A statement that is not finalized is owned by one object or by one `db_execute` on the stack, and a connection that is
not closed by one object.  Two things break that: a `Statement#close` that raises because `sqlite3_finalize` reports the
error of the last step keeps the finalized handle, and a conversion that closes the database or the statement of the
method that runs it leaves that method with a handle that is gone.
-/

namespace Calisto

namespace Sqlite

/-- No call received a destroyed handle, no statement is finalized twice and no connection closed twice. -/
structure Lib.Sound (l : Lib) : Prop where
  intact : l.ledger.Sound
  finalized : ∀ q, l.ledger.destructions (.stmt q) ≤ 1
  closed : ∀ d, l.closes.count d ≤ 1

/-! ### The library -/

/-- What holds of the library as long as it is called with handles that are there. -/
structure Lib.Ok (l : Lib) : Prop where
  ledger : l.ledger.Ok
  fresh : ∀ q, l.stmts.length ≤ q → l.ledger.gone (.stmt q) = false
  /-- A connection is destroyed only after it was closed. -/
  openDb : ∀ d, d ∉ l.closes → l.ledger.gone (.db d) = false
  /-- A connection outlives its statements. -/
  stmtDb : ∀ q info, l.stmts[q]? = some info → l.ledger.gone (.stmt q) = false → l.ledger.gone (.db info.db) = false
  nodup : l.closes.Nodup
  lt : ∀ d ∈ l.closes, d < l.conns

theorem Lib.ok_start : Lib.Ok {} :=
  ⟨Ledger.ok_empty, by simp, by simp, by simp, by simp, by simp⟩

theorem Lib.Ok.sound {l : Lib} (h : l.Ok) : l.Sound :=
  ⟨h.ledger.sound, fun q => h.ledger.once (.stmt q), fun _ => List.nodup_iff_count_le_one.1 h.nodup _⟩

section Library

variable {l : Lib} {d q : Nat} {stmt : Option Nat}

theorem Lib.Ok.useDb (h : l.Ok) (hd : l.ledger.gone (.db d) = false) : (l.useDb d).Ok :=
  ⟨h.ledger.use hd, h.fresh, h.openDb, h.stmtDb, h.nodup, h.lt⟩

theorem Lib.Ok.useStmt (h : l.Ok) (hq : ∀ q ∈ stmt, l.ledger.gone (.stmt q) = false) : (l.useStmt stmt).Ok := by
  rcases stmt with _ | q
  · exact h
  · exact ⟨h.ledger.use (hq q rfl), h.fresh, h.openDb, h.stmtDb, h.nodup, h.lt⟩

theorem Lib.Ok.openV2 (h : l.Ok) : l.openV2.Ok :=
  ⟨h.ledger, h.fresh, h.openDb, h.stmtDb, h.nodup, fun d hd => Nat.lt_succ_of_lt (h.lt d hd)⟩

theorem Lib.Ok.newStmt (h : l.Ok) (hd : l.ledger.gone (.db d) = false) : (l.newStmt d).Ok := by
  refine ⟨h.ledger, fun q hq => ?_, h.openDb, fun q info hq hgone => ?_, h.nodup, h.lt⟩
  · apply h.fresh q
    simp only [Lib.newStmt, List.length_append, List.length_cons, List.length_nil] at hq
    omega
  · simp only [Lib.newStmt] at hq hgone ⊢
    rcases getElem?_push_eq_some hq with hq | ⟨-, rfl⟩
    · exact h.stmtDb q info hq hgone
    · exact hd

/-- The connection of a statement is not what a step changes. -/
theorem Lib.setErr_db (l : Lib) (stmt : Option Nat) (err : Bool) (q : Nat) :
    ((l.setErr stmt err).stmts[q]?).map StmtInfo.db = (l.stmts[q]?).map StmtInfo.db := by
  rcases stmt with _ | p
  · rfl
  · simp only [Lib.setErr, List.getElem?_modify]
    rcases l.stmts[q]? with _ | info
    · rfl
    · by_cases hp : p = q <;> simp [hp]

private theorem Lib.setErr_length (l : Lib) (stmt : Option Nat) (err : Bool) :
    (l.setErr stmt err).stmts.length = l.stmts.length := by
  rcases stmt with _ | p
  · rfl
  · simp [Lib.setErr]

theorem Lib.setErr_ledger (l : Lib) (stmt : Option Nat) (err : Bool) : (l.setErr stmt err).ledger = l.ledger := by
  rcases stmt with _ | p <;> rfl

theorem Lib.setErr_closes (l : Lib) (stmt : Option Nat) (err : Bool) : (l.setErr stmt err).closes = l.closes := by
  rcases stmt with _ | p <;> rfl

private theorem Lib.setErr_conns (l : Lib) (stmt : Option Nat) (err : Bool) : (l.setErr stmt err).conns = l.conns := by
  rcases stmt with _ | p <;> rfl

theorem Lib.Ok.setErr (h : l.Ok) (stmt : Option Nat) (err : Bool) : (l.setErr stmt err).Ok := by
  refine ⟨?_, fun q hq => ?_, ?_, fun q info hq hgone => ?_, ?_, ?_⟩
  · rw [l.setErr_ledger]
    exact h.ledger
  · rw [l.setErr_length] at hq
    rw [l.setErr_ledger]
    exact h.fresh q hq
  · rw [l.setErr_closes, l.setErr_ledger]
    exact h.openDb
  · rw [l.setErr_ledger] at hgone ⊢
    have hdb := l.setErr_db stmt err q
    rw [hq, Option.map_some] at hdb
    obtain ⟨info', hinfo', he⟩ := Option.map_eq_some_iff.1 hdb.symm
    rw [← he]
    exact h.stmtDb q info' hinfo' hgone
  · rw [l.setErr_closes]
    exact h.nodup
  · rw [l.setErr_closes, l.setErr_conns]
    exact h.lt

/-- No statement of the connection is there. -/
theorem Lib.hasStmts_eq_false (h : l.hasStmts d = false) {info : StmtInfo} (hq : l.stmts[q]? = some info)
    (hgone : l.ledger.gone (.stmt q) = false) : info.db ≠ d := by
  intro he
  have hlt := (List.getElem?_eq_some_iff.1 hq).1
  unfold Lib.hasStmts at h
  rw [List.any_eq_false] at h
  have := h q (List.mem_range.2 hlt)
  simp [hq, he, hgone] at this

/-- A connection that is destroyed has no statements. -/
theorem Lib.Ok.reap (h : l.Ok) (d : Nat) : (l.reap d).Ok := by
  unfold Lib.reap
  split
  · rename_i hd
    refine ⟨h.ledger.free, fun q hq => ?_, fun d' hd' => ?_, fun q info hq hgone => ?_, h.nodup, h.lt⟩
    · exact (Ledger.free_gone_ne (by simp)).trans (h.fresh q hq)
    · have hne : d' ≠ d := fun he => hd' (he ▸ hd.1)
      exact (Ledger.free_gone_ne (by simpa using hne)).trans (h.openDb d' hd')
    · have hq' : l.ledger.gone (.stmt q) = false := (Ledger.free_gone_ne (by simp)).symm.trans hgone
      have hne := Lib.hasStmts_eq_false hd.2 hq hq'
      exact (Ledger.free_gone_ne (by simpa using hne)).trans (h.stmtDb q info hq hq')
  · exact h

private theorem Lib.reap_stmts (l : Lib) (d : Nat) : (l.reap d).stmts = l.stmts := by
  unfold Lib.reap
  split <;> rfl

private theorem Lib.reap_closes (l : Lib) (d : Nat) : (l.reap d).closes = l.closes := by
  unfold Lib.reap
  split <;> rfl

private theorem Lib.reap_conns (l : Lib) (d : Nat) : (l.reap d).conns = l.conns := by
  unfold Lib.reap
  split <;> rfl

private theorem Lib.reap_gone (l : Lib) (d q : Nat) : (l.reap d).ledger.gone (.stmt q) = l.ledger.gone (.stmt q) := by
  unfold Lib.reap
  split
  · exact Ledger.free_gone_ne (by simp)
  · rfl

theorem Lib.Ok.closeV2 (h : l.Ok) (hd : d ∉ l.closes) (hlt : d < l.conns) : (l.closeV2 d).Ok := by
  apply Lib.Ok.reap
  have hu := h.useDb (h.openDb d hd)
  refine ⟨hu.ledger, hu.fresh, fun d' hd' => ?_, hu.stmtDb, List.nodup_cons.2 ⟨hd, h.nodup⟩, fun d' hd' => ?_⟩
  · exact hu.openDb d' fun hm => hd' (List.mem_cons_of_mem d hm)
  · rcases List.mem_cons.1 hd' with rfl | hm
    · exact hlt
    · exact h.lt d' hm

/-- A statement that is finalized leaves its connection to be reaped. -/
theorem Lib.Ok.finalize (h : l.Ok) (hq : ∀ q ∈ stmt, q < l.stmts.length ∧ l.ledger.gone (.stmt q) = false) :
    (l.finalize stmt).Ok := by
  rcases stmt with _ | q
  · exact h
  · obtain ⟨hlt, hgone⟩ := hq q rfl
    have hd : Lib.Ok { l with ledger := l.ledger.destroy (.stmt q) } := by
      refine ⟨h.ledger.destroy hgone, fun q' hq' => ?_, fun d hd => ?_, fun q' info hq' hgone' => ?_, h.nodup, h.lt⟩
      · have hne : q' ≠ q := by
          rintro rfl
          exact absurd hlt (Nat.not_lt.2 hq')
        exact (Ledger.free_gone_ne (by simpa using hne)).trans (h.fresh q' hq')
      · have hne : Handle.db d ≠ .stmt q := by simp
        exact (Ledger.free_gone_ne hne).trans (h.openDb d hd)
      · by_cases hqq : q' = q
        · subst hqq
          simp at hgone'
        · have hq'' : l.ledger.gone (.stmt q') = false :=
            (Ledger.free_gone_ne (by simpa using hqq)).symm.trans hgone'
          have hne : Handle.db info.db ≠ .stmt q := by simp
          exact (Ledger.free_gone_ne hne).trans (h.stmtDb q' info hq' hq'')
    unfold Lib.finalize
    dsimp only
    split
    · exact hd.reap _
    · exact hd

private theorem Lib.finalize_stmts (l : Lib) (stmt : Option Nat) : (l.finalize stmt).stmts = l.stmts := by
  rcases stmt with _ | q
  · rfl
  · unfold Lib.finalize
    dsimp only
    split
    · exact Lib.reap_stmts _ _
    · rfl

private theorem Lib.finalize_closes (l : Lib) (stmt : Option Nat) : (l.finalize stmt).closes = l.closes := by
  rcases stmt with _ | q
  · rfl
  · unfold Lib.finalize
    dsimp only
    split
    · exact Lib.reap_closes _ _
    · rfl

private theorem Lib.finalize_conns (l : Lib) (stmt : Option Nat) : (l.finalize stmt).conns = l.conns := by
  rcases stmt with _ | q
  · rfl
  · unfold Lib.finalize
    dsimp only
    split
    · exact Lib.reap_conns _ _
    · rfl

/-- Whether a statement is there after another one, or it itself, was finalized. -/
theorem Lib.finalize_gone (l : Lib) (stmt : Option Nat) (q : Nat) :
    (l.finalize stmt).ledger.gone (.stmt q) = if stmt = some q then true else l.ledger.gone (.stmt q) := by
  rcases stmt with _ | p
  · rfl
  · have hd : (l.ledger.destroy (.stmt p)).gone (.stmt q) =
        if some p = some q then true else l.ledger.gone (.stmt q) := by
      by_cases hp : p = q
      · simp [hp]
      · have hne : Handle.stmt q ≠ .stmt p := by simpa using Ne.symm hp
        rw [if_neg (by simpa using hp)]
        exact Ledger.free_gone_ne hne
    unfold Lib.finalize
    dsimp only
    split
    · exact (Lib.reap_gone _ _ q).trans hd
    · exact hd

end Library

/-! ### Owners -/

/-- The statements that an object owns. -/
def Obj.stmts : Obj → List Nat
  | statement (some q) _ => [q]
  | _ => []

/-- The connections that an object owns. -/
def Obj.dbs : Obj → List Nat
  | database (some d) => [d]
  | _ => []

/-- The statement of a `db_execute`, which owns it. -/
def Frame.stmts : Frame → List Nat
  | call .dbExecute _ _ (some q) _ => [q]
  | _ => []

def St.stmts (s : St) : List Nat := s.objs.flatMap Obj.stmts ++ s.stack.flatMap Frame.stmts

def St.dbs (s : St) : List Nat := s.objs.flatMap Obj.dbs

/-- What a frame relies on. -/
def Frame.Ok (l : Lib) (objs : List Obj) : Frame → Prop
  | opening => True
  | call .dbExecute self db none _ => objs[self]? = some (.database (some db))
  | call .dbExecute _ db (some q) phase => phase ≠ .sql ∧ (l.stmts[q]?).map StmtInfo.db = some db
  | call .dbPrepare self db stmt _ => stmt = none ∧ objs[self]? = some (.database (some db))
  | call .stmtExecute self db stmt phase =>
    phase ≠ .sql ∧ ∃ q, stmt = some q ∧ objs[self]? = some (.statement (some q) db)

/-- The library has the statement of each object, for the connection that the object remembers. -/
def Lib.Knows (l : Lib) (objs : List Obj) : Prop :=
  ∀ o q d : Nat, objs[o]? = some (.statement (some q) d) → (l.stmts[q]?).map StmtInfo.db = some d

structure St.Inv (s : St) : Prop where
  lib : s.lib.Ok
  there : ∀ q ∈ s.stmts, q < s.lib.stmts.length ∧ s.lib.ledger.gone (.stmt q) = false
  stmtsNodup : s.stmts.Nodup
  opened : ∀ d ∈ s.dbs, d < s.lib.conns ∧ d ∉ s.lib.closes
  dbsNodup : s.dbs.Nodup
  stmtDb : s.lib.Knows s.objs
  frames : ∀ f ∈ s.stack, f.Ok s.lib s.objs

/-- The condition on a step: no `Statement#close` whose `sqlite3_finalize` reports an error or whose statement a method
is executing, and no `Database#close` of a connection that a method uses without a statement of its own. -/
def St.careful (s : St) : Act → Bool
  | .stmtClose o => match s.objs[o]? with
    | some (.statement (some q) _) => !s.lib.lastErr q && !s.stack.any fun f => decide (f.self? = some o)
    | _ => true
  | .dbClose o => !s.stack.any fun
    | .call _ self _ none _ => self = o
    | _ => false
  | _ => true


/-! ### What keeps the owners -/

/-- A change of the library that neither closes a connection nor finalizes a statement that was there. -/
structure Lib.Quiet (l l' : Lib) : Prop where
  ok : l'.Ok
  closes : l'.closes = l.closes
  conns : l.conns ≤ l'.conns
  length : l.stmts.length ≤ l'.stmts.length
  db : ∀ q < l.stmts.length, (l'.stmts[q]?).map StmtInfo.db = (l.stmts[q]?).map StmtInfo.db
  gone : ∀ q < l.stmts.length, l'.ledger.gone (.stmt q) = l.ledger.gone (.stmt q)

section Owners

variable {s t : St} {l l' l'' : Lib} {f : Frame} {rest : List Frame} {objs : List Obj} {o d q : Nat}
  {stmt : Option Nat} {x : Obj}

theorem Lib.Quiet.trans (h : l.Quiet l') (h' : l'.Quiet l'') : l.Quiet l'' := by
  refine ⟨h'.ok, h'.closes.trans h.closes, Nat.le_trans h.conns h'.conns, Nat.le_trans h.length h'.length,
    fun q hq => ?_, fun q hq => ?_⟩
  · exact (h'.db q (Nat.lt_of_lt_of_le hq h.length)).trans (h.db q hq)
  · exact (h'.gone q (Nat.lt_of_lt_of_le hq h.length)).trans (h.gone q hq)

theorem Lib.Quiet.refl (h : l.Ok) : l.Quiet l :=
  ⟨h, rfl, Nat.le_refl _, Nat.le_refl _, fun _ _ => rfl, fun _ _ => rfl⟩

theorem Lib.Quiet.useDb (h : l.Quiet l') (hd : l'.ledger.gone (.db d) = false) : l.Quiet (l'.useDb d) :=
  h.trans ⟨h.ok.useDb hd, rfl, Nat.le_refl _, Nat.le_refl _, fun _ _ => rfl, fun _ _ => rfl⟩

theorem Lib.Quiet.useStmt (h : l.Quiet l') (hq : ∀ q ∈ stmt, l'.ledger.gone (.stmt q) = false) :
    l.Quiet (l'.useStmt stmt) := by
  refine h.trans ⟨h.ok.useStmt hq, ?_, ?_, ?_, fun _ _ => ?_, fun _ _ => ?_⟩ <;> rcases stmt with _ | q <;>
    simp [Lib.useStmt]

theorem Lib.Quiet.setErr (h : l.Quiet l') (stmt : Option Nat) (err : Bool) : l.Quiet (l'.setErr stmt err) := by
  refine h.trans ⟨h.ok.setErr stmt err, l'.setErr_closes stmt err, ?_, ?_, fun q _ => l'.setErr_db stmt err q,
    fun q _ => ?_⟩
  · exact Nat.le_of_eq (l'.setErr_conns stmt err).symm
  · exact Nat.le_of_eq (l'.setErr_length stmt err).symm
  · rw [l'.setErr_ledger]

theorem Lib.Quiet.openV2 (h : l.Quiet l') : l.Quiet l'.openV2 :=
  h.trans ⟨h.ok.openV2, rfl, Nat.le_succ _, Nat.le_refl _, fun _ _ => rfl, fun _ _ => rfl⟩

theorem Lib.Quiet.newStmt (h : l.Quiet l') (hd : l'.ledger.gone (.db d) = false) : l.Quiet (l'.newStmt d) := by
  refine h.trans ⟨h.ok.newStmt hd, rfl, Nat.le_refl _, ?_, fun q hq => ?_, fun _ _ => rfl⟩
  · simp [Lib.newStmt]
  · simp [Lib.newStmt, List.getElem?_append_left hq]

private theorem lt_of_map_eq_some (h : (l.stmts[q]?).map StmtInfo.db = some d) : q < l.stmts.length := by
  obtain ⟨info, hinfo, -⟩ := Option.map_eq_some_iff.1 h
  exact (List.getElem?_eq_some_iff.1 hinfo).1

/-- A frame relies on the library only for the connection of its statement. -/
theorem Frame.Ok.of_db (h : f.Ok l objs)
    (hdb : ∀ q < l.stmts.length, (l'.stmts[q]?).map StmtInfo.db = (l.stmts[q]?).map StmtInfo.db) : f.Ok l' objs := by
  rcases f with _ | ⟨fn, self, db, stmt, phase⟩
  · trivial
  · cases fn with
    | dbExecute =>
      rcases stmt with _ | q
      · exact h
      · exact ⟨h.1, (hdb q (lt_of_map_eq_some h.2)).trans h.2⟩
    | dbPrepare => exact h
    | stmtExecute => exact h

theorem Frame.Ok.append (h : f.Ok l objs) (x : Obj) : f.Ok l (objs ++ [x]) := by
  rcases f with _ | ⟨fn, self, db, stmt, phase⟩
  · trivial
  · cases fn with
    | dbExecute =>
      rcases stmt with _ | q
      · exact getElem?_push_of_get h x
      · exact h
    | dbPrepare => exact ⟨h.1, getElem?_push_of_get h.2 x⟩
    | stmtExecute =>
      obtain ⟨hphase, q, hq, hobj⟩ := h
      exact ⟨hphase, q, hq, getElem?_push_of_get hobj x⟩

theorem St.Inv.of_quiet (h : s.Inv) (hl : s.lib.Quiet l) : St.Inv { s with lib := l } := by
  refine ⟨hl.ok, fun q hq => ?_, h.stmtsNodup, fun d hd => ?_, h.dbsNodup, fun o q d ho => ?_, fun f hf => ?_⟩
  · obtain ⟨hlt, hgone⟩ := h.there q hq
    exact ⟨Nat.lt_of_lt_of_le hlt hl.length, (hl.gone q hlt).trans hgone⟩
  · obtain ⟨hlt, hclosed⟩ := h.opened d hd
    refine ⟨Nat.lt_of_lt_of_le hlt hl.conns, ?_⟩
    show d ∉ l.closes
    rw [hl.closes]
    exact hclosed
  · have hdb := h.stmtDb o q d ho
    exact (hl.db q (lt_of_map_eq_some hdb)).trans hdb
  · exact (h.frames f hf).of_db hl.db

/-- The statements of the owners and of the frame on top. -/
theorem St.stmts_cons (hs : s.stack = f :: rest) :
    s.stmts.Perm (f.stmts ++ St.stmts { s with stack := rest }) := by
  simp only [St.stmts, hs, List.flatMap_cons]
  exact List.perm_append_comm_assoc _ _ _

theorem St.Inv.pop (h : s.Inv) (hs : s.stack = f :: rest) : St.Inv { s with stack := rest } := by
  have hperm := St.stmts_cons hs
  refine ⟨h.lib, fun q hq => ?_, ?_, h.opened, h.dbsNodup, h.stmtDb, fun g hg => ?_⟩
  · exact h.there q (hperm.mem_iff.2 (List.mem_append_right _ hq))
  · exact (List.nodup_append.1 (hperm.nodup_iff.1 h.stmtsNodup)).2.1
  · exact h.frames g (hs ▸ List.mem_cons_of_mem f hg)

/-- A method that is called, with a statement that nobody else owns or without one. -/
theorem St.Inv.push (h : s.Inv)
    (hf : ∀ q ∈ f.stmts, q < s.lib.stmts.length ∧ s.lib.ledger.gone (.stmt q) = false ∧ q ∉ s.stmts)
    (hnodup : f.stmts.Nodup) (hok : f.Ok s.lib s.objs) : St.Inv { s with stack := f :: s.stack } := by
  have hperm : (St.stmts { s with stack := f :: s.stack }).Perm (f.stmts ++ s.stmts) := St.stmts_cons rfl
  refine ⟨h.lib, fun q hq => ?_, hperm.nodup_iff.2 ?_, h.opened, h.dbsNodup, h.stmtDb, fun g hg => ?_⟩
  · rcases List.mem_append.1 (hperm.mem_iff.1 hq) with hq | hq
    · obtain ⟨hlt, hgone, -⟩ := hf q hq
      exact ⟨hlt, hgone⟩
    · exact h.there q hq
  · refine List.nodup_append.2 ⟨hnodup, h.stmtsNodup, fun q hq q' hq' he => ?_⟩
    exact (hf q hq).2.2 (he ▸ hq')
  · rcases List.mem_cons.1 hg with rfl | hg
    · exact hok
    · exact h.frames g hg

/-- A frame replaced by one with the same statement. -/
theorem St.Inv.swap (h : s.Inv) {g : Frame} (hs : s.stack = f :: rest) (hg : g.stmts = f.stmts)
    (hok : g.Ok s.lib s.objs) : St.Inv { s with stack := g :: rest } := by
  have hst : St.stmts { s with stack := g :: rest } = s.stmts := by
    simp [St.stmts, hs, hg]
  refine ⟨h.lib, fun q hq => h.there q (hst ▸ hq), hst ▸ h.stmtsNodup, h.opened, h.dbsNodup, h.stmtDb, fun k hk => ?_⟩
  rcases List.mem_cons.1 hk with rfl | hk
  · exact hok
  · exact h.frames k (hs ▸ List.mem_cons_of_mem f hk)

/-- A statement finalized that nobody owns any more. -/
theorem St.Inv.finalize (h : s.Inv) (hstmt : ∀ q ∈ stmt, q < s.lib.stmts.length ∧ s.lib.ledger.gone (.stmt q) = false)
    (hlib : t.lib = s.lib.finalize stmt) (hsub : ∀ q ∈ t.stmts, q ∈ s.stmts ∧ stmt ≠ some q) (hnodup : t.stmts.Nodup)
    (hdbs : t.dbs.Perm s.dbs)
    (hstmtDb : s.lib.Knows t.objs) (hframes : ∀ f ∈ t.stack, f.Ok s.lib t.objs) : t.Inv := by
  have hdb : ∀ q < s.lib.stmts.length, (t.lib.stmts[q]?).map StmtInfo.db = (s.lib.stmts[q]?).map StmtInfo.db := by
    intro q _
    rw [hlib, Lib.finalize_stmts]
  refine ⟨?_, fun q hq => ?_, hnodup, fun d hd => ?_, hdbs.nodup_iff.2 h.dbsNodup, fun o q d ho => ?_, fun f hf => ?_⟩
  · rw [hlib]
    exact h.lib.finalize hstmt
  · obtain ⟨hq, hne⟩ := hsub q hq
    rw [hlib, Lib.finalize_stmts, Lib.finalize_gone, if_neg hne]
    exact h.there q hq
  · rw [hlib, Lib.finalize_conns, Lib.finalize_closes]
    exact h.opened d (hdbs.mem_iff.1 hd)
  · have hq := hstmtDb o q d ho
    exact (hdb q (lt_of_map_eq_some hq)).trans hq
  · exact (hframes f hf).of_db hdb

/-- A statement finalized together with its owner. -/
theorem St.Inv.finalize_owner (h : s.Inv) (hperm : s.stmts.Perm (stmt.toList ++ t.stmts))
    (hlib : t.lib = s.lib.finalize stmt) (hdbs : t.dbs.Perm s.dbs)
    (hstmtDb : s.lib.Knows t.objs) (hframes : ∀ f ∈ t.stack, f.Ok s.lib t.objs) : t.Inv := by
  have hnodup := List.nodup_append.1 (hperm.nodup_iff.1 h.stmtsNodup)
  refine h.finalize (fun q hq => ?_) hlib (fun q hq => ⟨?_, ?_⟩) hnodup.2.1 hdbs hstmtDb hframes
  · exact h.there q (hperm.mem_iff.2 (List.mem_append_left _ (Option.mem_toList.2 hq)))
  · exact hperm.mem_iff.2 (List.mem_append_right _ hq)
  · rintro rfl
    exact hnodup.2.2 q (by simp) q hq rfl

/-- A connection closed that nobody owns any more. -/
theorem St.Inv.close (h : s.Inv) (hd : d < s.lib.conns ∧ d ∉ s.lib.closes) (hlib : t.lib = s.lib.closeV2 d)
    (hsub : ∀ d' ∈ t.dbs, d' ∈ s.dbs ∧ d' ≠ d) (hnodup : t.dbs.Nodup) (hstmts : t.stmts.Perm s.stmts)
    (hstmtDb : s.lib.Knows t.objs) (hframes : ∀ f ∈ t.stack, f.Ok s.lib t.objs) : t.Inv := by
  have hst : t.lib.stmts = s.lib.stmts := by
    rw [hlib]
    exact Lib.reap_stmts _ _
  have hcl : t.lib.closes = d :: s.lib.closes := by
    rw [hlib]
    exact Lib.reap_closes _ _
  have hco : t.lib.conns = s.lib.conns := by
    rw [hlib]
    exact Lib.reap_conns _ _
  refine ⟨?_, fun q hq => ?_, hstmts.nodup_iff.2 h.stmtsNodup, fun d' hd' => ?_, hnodup, fun o q d' ho => ?_,
    fun f hf => ?_⟩
  · rw [hlib]
    exact h.lib.closeV2 hd.2 hd.1
  · obtain ⟨hq', hgone⟩ := h.there q (hstmts.mem_iff.1 hq)
    rw [hst, hlib]
    exact ⟨hq', (Lib.reap_gone _ _ _).trans hgone⟩
  · obtain ⟨hmem, hne⟩ := hsub d' hd'
    obtain ⟨hlt', hopen'⟩ := h.opened d' hmem
    rw [hco, hcl]
    exact ⟨hlt', fun hm => hopen' ((List.mem_cons.1 hm).resolve_left hne)⟩
  · rw [hst]
    exact hstmtDb o q d' ho
  · exact (hframes f hf).of_db fun q _ => by rw [hst]

/-- A connection closed together with its owner. -/
theorem St.Inv.close_owner (h : s.Inv) (hperm : s.dbs.Perm (d :: t.dbs)) (hlib : t.lib = s.lib.closeV2 d)
    (hstmts : t.stmts.Perm s.stmts)
    (hstmtDb : s.lib.Knows t.objs) (hframes : ∀ f ∈ t.stack, f.Ok s.lib t.objs) : t.Inv := by
  obtain ⟨hd, hnodup⟩ := List.nodup_cons.1 (hperm.nodup_iff.1 h.dbsNodup)
  refine h.close (h.opened d (hperm.mem_iff.2 List.mem_cons_self)) hlib (fun d' hd' => ⟨?_, ?_⟩) hnodup hstmts hstmtDb
    hframes
  · exact hperm.mem_iff.2 (List.mem_cons_of_mem d hd')
  · rintro rfl
    exact hd hd'

private theorem St.Inv.gone_db (h : s.Inv) (ho : s.objs[o]? = some (.database (some d))) :
    s.lib.ledger.gone (.db d) = false := by
  have hd : d ∈ s.dbs := List.mem_flatMap.2 ⟨_, List.mem_of_getElem? ho, List.mem_singleton.2 rfl⟩
  exact h.lib.openDb d (h.opened d hd).2

private theorem St.Inv.mem_stmts (ho : s.objs[o]? = some (.statement (some q) d)) : q ∈ s.stmts :=
  List.mem_append_left _ (List.mem_flatMap.2 ⟨_, List.mem_of_getElem? ho, List.mem_singleton.2 rfl⟩)

private theorem St.Inv.gone_stmtDb (h : s.Inv) (hq : s.lib.ledger.gone (.stmt q) = false)
    (hdb : (s.lib.stmts[q]?).map StmtInfo.db = some d) : s.lib.ledger.gone (.db d) = false := by
  obtain ⟨info, hinfo, rfl⟩ := Option.map_eq_some_iff.1 hdb
  exact h.lib.stmtDb q info hinfo hq

/-- The handles of the method on top are there. -/
theorem St.Inv.gone_call {fn : Fn} {self : Nat} {phase : Phase} (h : s.Inv)
    (hs : s.stack = .call fn self d stmt phase :: rest) :
    s.lib.ledger.gone (.db d) = false ∧ ∀ q ∈ stmt, s.lib.ledger.gone (.stmt q) = false := by
  have hok := h.frames _ (hs ▸ List.mem_cons_self)
  cases fn with
  | dbExecute =>
    rcases stmt with _ | q
    · exact ⟨h.gone_db hok, by simp⟩
    · have hmem : q ∈ s.stmts := by simp [St.stmts, hs, Frame.stmts]
      have hq := (h.there q hmem).2
      refine ⟨h.gone_stmtDb hq hok.2, fun q' hq' => ?_⟩
      rw [Option.mem_some.1 hq'] at hq
      exact hq
  | dbPrepare =>
    obtain ⟨rfl, hobj⟩ := hok
    exact ⟨h.gone_db hobj, by simp⟩
  | stmtExecute =>
    obtain ⟨-, q, rfl, hobj⟩ := hok
    have hq := (h.there q (St.Inv.mem_stmts hobj)).2
    refine ⟨h.gone_stmtDb hq (h.stmtDb self q d hobj), fun q' hq' => ?_⟩
    rw [Option.mem_some.1 hq'] at hq
    exact hq

/-- An object that is made last, with a statement of its own or without one. -/
theorem St.Inv.append (h : s.Inv) (hx : ∀ q d, x = .statement (some q) d →
      q < s.lib.stmts.length ∧ s.lib.ledger.gone (.stmt q) = false ∧ (s.lib.stmts[q]?).map StmtInfo.db = some d ∧
        q ∉ s.stmts)
    (hd : ∀ d, x = .database (some d) → d < s.lib.conns ∧ d ∉ s.lib.closes ∧ d ∉ s.dbs) :
    St.Inv { s with objs := s.objs ++ [x] } := by
  have hstmts : (St.stmts { s with objs := s.objs ++ [x] }).Perm (x.stmts ++ s.stmts) := by
    simp only [St.stmts, List.flatMap_append, List.flatMap_singleton, List.append_assoc]
    exact List.perm_append_comm_assoc _ _ _
  have hdbs : (St.dbs { s with objs := s.objs ++ [x] }).Perm (x.dbs ++ s.dbs) := by
    simp only [St.dbs, List.flatMap_append, List.flatMap_singleton]
    exact List.perm_append_comm
  refine ⟨h.lib, fun q hq => ?_, hstmts.nodup_iff.2 ?_, fun d hm => ?_, hdbs.nodup_iff.2 ?_, fun o q d ho => ?_,
    fun f hf => (h.frames f hf).append x⟩
  · rcases List.mem_append.1 (hstmts.mem_iff.1 hq) with hq | hq
    · rcases x with _ | _ | ⟨_ | p, d⟩ | _ <;> simp [Obj.stmts] at hq
      subst hq
      obtain ⟨hlt, hgone, -⟩ := hx q d rfl
      exact ⟨hlt, hgone⟩
    · exact h.there q hq
  · rcases x with _ | _ | ⟨_ | p, d⟩ | _
    case statement.some =>
      obtain ⟨-, -, -, hnew⟩ := hx p d rfl
      exact List.nodup_cons.2 ⟨hnew, h.stmtsNodup⟩
    all_goals exact h.stmtsNodup
  · rcases List.mem_append.1 (hdbs.mem_iff.1 hm) with hm | hm
    · rcases x with _ | ⟨_ | p⟩ | _ | _ <;> simp [Obj.dbs] at hm
      subst hm
      obtain ⟨hlt, hopen, -⟩ := hd d rfl
      exact ⟨hlt, hopen⟩
    · exact h.opened d hm
  · rcases x with _ | ⟨_ | p⟩ | _ | _
    case database.some =>
      obtain ⟨-, -, hnew⟩ := hd p rfl
      exact List.nodup_cons.2 ⟨hnew, h.dbsNodup⟩
    all_goals exact h.dbsNodup
  · rcases getElem?_push_eq_some ho with ho | ⟨-, he⟩
    · exact h.stmtDb o q d ho
    · obtain ⟨-, -, hdb, -⟩ := hx q d he.symm
      exact hdb

/-! ### The methods keep the owners -/

variable {fn : Fn} {self : Nat} {phase : Phase}

theorem sqliteOpen_inv (h : s.Inv) (hs : s.stack = .opening :: rest) (r : Opened) : (sqliteOpen s rest r).Inv := by
  have hpop := h.pop hs
  have hopen : St.Inv { s with lib := s.lib.openV2, stack := rest } := hpop.of_quiet (Lib.Quiet.refl h.lib).openV2
  have hnew : s.lib.conns ∉ s.lib.closes := fun hm => absurd (h.lib.lt _ hm) (Nat.lt_irrefl _)
  have hmem : ∀ d ∈ s.dbs, d ≠ s.lib.conns := fun d hd => Nat.ne_of_lt (h.opened d hd).1
  rcases r with _ | _ | _
  · apply hopen.append
    · simp
    · intro d hd
      obtain rfl : s.lib.conns = d := by simpa using hd
      exact ⟨Nat.lt_succ_self _, hnew, fun hm => hmem _ hm rfl⟩
  · exact hpop
  · refine hopen.close ⟨Nat.lt_succ_self _, hnew⟩ rfl (fun d hd => ⟨hd, hmem d hd⟩) h.dbsNodup (.refl _) h.stmtDb ?_
    exact hpop.frames

/-- A method that leaves with the library in another state. -/
theorem leave_inv (h : s.Inv) (hl : s.lib.Quiet l) (hs : s.stack = .call fn self d stmt phase :: rest) :
    (leave s l fn stmt rest).Inv := by
  have hu := h.of_quiet hl
  cases fn with
  | dbExecute =>
    have hperm := St.stmts_cons (s := { s with lib := l }) hs
    have hf : Frame.stmts (.call .dbExecute self d stmt phase) = stmt.toList := by rcases stmt with _ | q <;> rfl
    rw [hf] at hperm
    exact hu.finalize_owner (t := leave s l .dbExecute stmt rest) hperm rfl (.refl _) hu.stmtDb (hu.pop hs).frames
  | dbPrepare => exact hu.pop hs
  | stmtExecute => exact hu.pop hs

private theorem prepare_inv (h : s.Inv) (hs : s.stack = .call fn self d stmt .sql :: rest) (r : Prepared) :
    (prepare s fn self d rest r).Inv := by
  have hd := (h.gone_call hs).1
  have hok := h.frames _ (hs ▸ List.mem_cons_self)
  have hpop := h.pop hs
  have hused := (Lib.Quiet.refl h.lib).useDb hd
  rcases r with _ | ⟨hasStmt, tail⟩
  · exact hpop.of_quiet (hused.useDb hd)
  · -- the new statement, if there is one, is nobody's so far
    let stmt' := if hasStmt then some s.lib.stmts.length else none
    let l := if hasStmt then (s.lib.useDb d).newStmt d else s.lib.useDb d
    have hl : s.lib.Quiet l := by
      by_cases hst : hasStmt
      · simpa [l, hst] using hused.newStmt hd
      · simpa [l, hst] using hused
    have hq : ∀ q ∈ stmt', q < l.stmts.length ∧ l.ledger.gone (.stmt q) = false ∧
        (l.stmts[q]?).map StmtInfo.db = some d ∧ q ∉ s.stmts := by
      intro q hq
      by_cases hst : hasStmt
      · simp only [stmt', hst, if_true, Option.mem_some] at hq
        subst hq
        simp only [l, hst, if_true]
        refine ⟨by simp [Lib.newStmt, Lib.useDb], h.lib.fresh _ (Nat.le_refl _), by simp [Lib.newStmt, Lib.useDb], ?_⟩
        exact fun hm => absurd (h.there _ hm).1 (Nat.lt_irrefl _)
      · simp [stmt', hst] at hq
    have hinv : St.Inv { s with lib := l, stack := rest } := hpop.of_quiet hl
    have hsub : ∀ q ∈ St.stmts { s with lib := l, stack := rest }, q ∈ s.stmts := fun q hm =>
      (St.stmts_cons hs).mem_iff.2 (List.mem_append_right _ hm)
    show St.Inv (if tail then { s with lib := l.finalize stmt', stack := rest } else _)
    split
    · refine hinv.finalize (fun q hm => ⟨(hq q hm).1, (hq q hm).2.1⟩) rfl (fun q hm => ⟨hm, fun he => ?_⟩)
        hinv.stmtsNodup (.refl _) hinv.stmtDb hinv.frames
      exact (hq q he).2.2.2 (hsub q hm)
    · cases fn with
      | dbExecute =>
        apply hinv.push (f := .call .dbExecute self d stmt' .bind)
        · intro q hm
          have hm' : q ∈ stmt' := by
            revert hm
            rcases stmt' with _ | p <;> simp [Frame.stmts, eq_comm]
          exact ⟨(hq q hm').1, (hq q hm').2.1, fun hin => (hq q hm').2.2.2 (hsub q hin)⟩
        · rcases stmt' with _ | p <;> simp [Frame.stmts]
        · have hobj : s.objs[self]? = some (.database (some d)) := by
            rcases stmt with _ | p
            · exact hok
            · exact absurd rfl hok.1
          rcases hst : stmt' with _ | p
          · exact hobj
          · exact ⟨by simp, (hq p hst).2.2.1⟩
      | dbPrepare =>
        apply hinv.append
        · intro q d' he
          rw [Obj.statement.injEq] at he
          obtain ⟨hst, rfl⟩ := he
          obtain ⟨hlt, hgone, hdb, hnew⟩ := hq q hst
          exact ⟨hlt, hgone, hdb, fun hin => hnew (hsub q hin)⟩
        · simp
      | stmtExecute => exact absurd rfl hok.1

private theorem bindParam_inv (h : s.Inv) (hs : s.stack = .call fn self d stmt phase :: rest) (r : Bound) :
    (bindParam s fn self d stmt rest r).Inv := by
  obtain ⟨hd, hq⟩ := h.gone_call hs
  have hok := h.frames _ (hs ▸ List.mem_cons_self)
  have hquiet := Lib.Quiet.refl h.lib
  cases r with
  | ok =>
    have hu := h.of_quiet (hquiet.useStmt hq)
    apply hu.swap hs
    · cases fn <;> rcases stmt with _ | q <;> rfl
    · apply Frame.Ok.of_db _ (hquiet.useStmt hq).db
      cases fn with
      | dbExecute =>
        rcases stmt with _ | q
        · exact hok
        · exact ⟨by simp, hok.2⟩
      | dbPrepare => exact hok
      | stmtExecute => exact ⟨by simp, hok.2⟩
  | type => exact leave_inv h hquiet hs
  | failed =>
    apply leave_inv h _ hs
    apply (hquiet.useStmt hq).useDb
    rcases stmt with _ | q <;> exact hd

private theorem useStmt_gone (l : Lib) (stmt : Option Nat) : (l.useStmt stmt).ledger.gone = l.ledger.gone := by
  rcases stmt with _ | q <;> rfl

/-- A step of a statement and what it comes to. -/
theorem Lib.Quiet.stepped (hl : l.Ok) (hq : ∀ q ∈ stmt, l.ledger.gone (.stmt q) = false) (err : Bool) :
    l.Quiet ((l.useStmt stmt).setErr stmt err) := ((Lib.Quiet.refl hl).useStmt hq).setErr stmt err

private theorem stepped_gone (l : Lib) (stmt : Option Nat) (err : Bool) :
    ((l.useStmt stmt).setErr stmt err).ledger.gone = l.ledger.gone := by
  rw [Lib.setErr_ledger, useStmt_gone]

theorem stmtExecute_inv (h : s.Inv) (ho : s.objs[o]? = some (.statement (some q) d)) : (stmtExecute s o q d).Inv := by
  have hgone : ∀ q' ∈ some q, s.lib.ledger.gone (.stmt q') = false := fun q' hq' => by
    rw [← Option.mem_some.1 hq']
    exact (h.there q (St.Inv.mem_stmts ho)).2
  have hl := (Lib.Quiet.stepped h.lib hgone false).useStmt fun q' hq' => by
    rw [stepped_gone]
    exact hgone q' hq'
  apply (h.of_quiet hl).push
  · simp [Frame.stmts]
  · simp [Frame.stmts]
  · exact ⟨by simp, q, rfl, ho⟩

/-- A frame that relies on no change of an object. -/
theorem Frame.Ok.set (h : f.Ok l objs) (hne : f.self? ≠ some o) (x : Obj) : f.Ok l (objs.set o x) := by
  rcases f with _ | ⟨fn, self, db, stmt, phase⟩
  · trivial
  · have hget : (objs.set o x)[self]? = objs[self]? := List.getElem?_set_ne fun he => hne (congrArg some he.symm)
    cases fn with
    | dbExecute =>
      rcases stmt with _ | q
      · exact hget.trans h
      · exact h
    | dbPrepare => exact ⟨h.1, hget.trans h.2⟩
    | stmtExecute =>
      obtain ⟨hphase, q, hq, hobj⟩ := h
      exact ⟨hphase, q, hq, hget.trans hobj⟩

private theorem knows_set (h : s.Inv) {y : Obj} (hy : ∀ q d, y ≠ .statement (some q) d) (p : Nat) :
    s.lib.Knows (s.objs.set p y) := by
  intro o q d ho
  rw [List.getElem?_set] at ho
  split at ho
  · split at ho
    · exact absurd (Option.some.inj ho) (hy q d)
    · simp at ho
  · exact h.stmtDb o q d ho

theorem stmtClose_inv (h : s.Inv) (ho : s.objs[o]? = some (.statement (some q) d)) (herr : s.lib.lastErr q = false)
    (hself : ∀ f ∈ s.stack, f.self? ≠ some o) : (stmtClose s o q d).Inv := by
  unfold stmtClose
  rw [if_neg (by simp [herr])]
  have hold := Handles.flatMap_perm_of_getElem? ho Obj.stmts
  have hnew := Handles.flatMap_set_perm ho (.statement none d) Obj.stmts
  apply h.finalize_owner _ (show _ = s.lib.finalize (some q) from rfl)
  · exact Handles.flatMap_set_eq ho rfl
  · exact knows_set h (by simp) o
  · intro f hf
    exact (h.frames f hf).set (hself f hf) _
  · exact (hold.append_right _).trans (((List.Perm.refl _).append hnew.symm).append_right _)

private theorem dbClose_inv (h : s.Inv) (ho : s.objs[o]? = some (.database (some d)))
    (hself : ∀ f ∈ s.stack, ∀ fn' d' phase', f ≠ .call fn' o d' none phase') : (dbClose s o d).Inv := by
  have hold := Handles.flatMap_perm_of_getElem? ho Obj.dbs
  have hnew := Handles.flatMap_set_perm ho (.database none) Obj.dbs
  apply h.close_owner (d := d) _ rfl
  · have hst : ((s.objs.set o (.database none)).flatMap Obj.stmts).Perm (s.objs.flatMap Obj.stmts) :=
      Handles.flatMap_set_eq ho rfl
    exact hst.append_right _
  · exact knows_set h (by simp) o
  · intro f hf
    have hok := h.frames f hf
    rcases f with _ | ⟨fn', self', d', stmt', phase'⟩
    · trivial
    · by_cases hso : self' = o
      · subst hso
        -- the methods that rely on the object are those without a statement
        cases fn' with
        | dbExecute =>
          rcases stmt' with _ | q'
          · exact absurd rfl (hself _ hf _ _ _)
          · exact hok
        | dbPrepare =>
          obtain ⟨rfl, -⟩ := hok
          exact absurd rfl (hself _ hf _ _ _)
        | stmtExecute =>
          obtain ⟨-, q', -, hobj⟩ := hok
          rw [ho] at hobj
          simp at hobj
      · exact hok.set (fun he => hso (Option.some.inj he)) _
  · exact hold.trans ((List.Perm.refl [d]).append hnew.symm)

theorem dfree_inv (h : s.Inv) (ho : s.objs[o]? = some x) (hself : ∀ f ∈ s.stack, f.self? ≠ some o) :
    (dfree s o x).Inv := by
  have hstmts := Handles.flatMap_perm_of_getElem? ho Obj.stmts
  have hstmts' := Handles.flatMap_set_perm ho .freed Obj.stmts
  have hdbs := Handles.flatMap_perm_of_getElem? ho Obj.dbs
  have hdbs' := Handles.flatMap_set_perm ho .freed Obj.dbs
  have hframes : ∀ f ∈ s.stack, f.Ok s.lib (s.objs.set o .freed) := fun f hf => (h.frames f hf).set (hself f hf) _
  have hstmtDb : s.lib.Knows (s.objs.set o .freed) := knows_set h (by simp) o
  -- an object that owns nothing is only forgotten
  have hquiet : x.stmts = [] → x.dbs = [] → St.Inv { s with objs := s.objs.set o .freed } := by
    intro hq hd
    rw [hq] at hstmts
    rw [hd] at hdbs
    have hs : (St.stmts { s with objs := s.objs.set o .freed }).Perm s.stmts :=
      (hstmts'.trans hstmts.symm).append_right _
    have hb : (St.dbs { s with objs := s.objs.set o .freed }).Perm s.dbs := hdbs'.trans hdbs.symm
    exact ⟨h.lib, fun q hq => h.there q (hs.mem_iff.1 hq), hs.nodup_iff.2 h.stmtsNodup,
      fun d hd => h.opened d (hb.mem_iff.1 hd), hb.nodup_iff.2 h.dbsNodup, hstmtDb, hframes⟩
  rcases x with _ | ⟨_ | d⟩ | ⟨_ | q, d⟩ | _
  · exact hquiet rfl rfl
  · exact hquiet rfl rfl
  · refine h.close_owner (t := dfree s o (.database (some d))) ?_ rfl ?_ hstmtDb hframes
    · exact hdbs.trans ((List.Perm.refl [d]).append hdbs'.symm)
    · exact (hstmts'.trans hstmts.symm).append_right _
  · exact hquiet rfl rfl
  · refine h.finalize_owner (t := dfree s o (.statement (some q) d)) ?_ (show _ = s.lib.finalize (some q) from rfl) ?_
      hstmtDb hframes
    · exact (hstmts.append_right _).trans (((List.Perm.refl _).append hstmts'.symm).append_right _)
    · exact hdbs'.trans hdbs.symm
  · exact hquiet rfl rfl

private theorem onDb_inv {k : Nat → St} (h : s.Inv) (hs : onDb s o k = some t)
    (hk : ∀ d, s.objs[o]? = some (.database (some d)) → (k d).Inv) : t.Inv := by
  unfold onDb at hs
  split at hs
  · split at hs
    · rename_i d ho
      rw [Option.some.injEq] at hs
      exact hs ▸ hk d ho
    · simp at hs
    · rw [Option.some.injEq] at hs
      exact hs ▸ h
    · simp at hs
  · simp at hs

private theorem onStmt_inv {k : Nat → Nat → St} (h : s.Inv) (hs : onStmt s o k = some t)
    (hk : ∀ q d, s.objs[o]? = some (.statement (some q) d) → (k q d).Inv) : t.Inv := by
  unfold onStmt at hs
  split at hs
  · split at hs
    · rename_i q d ho
      rw [Option.some.injEq] at hs
      exact hs ▸ hk q d ho
    · simp at hs
    · rw [Option.some.injEq] at hs
      exact hs ▸ h
    · simp at hs
  · simp at hs

private theorem stepRow_inv (h : s.Inv) (hs : s.stack = .call fn self d stmt phase :: rest) : (stepRow s stmt).Inv := by
  obtain ⟨-, hq⟩ := h.gone_call hs
  apply h.of_quiet
  apply (Lib.Quiet.stepped h.lib hq false).useStmt
  rw [stepped_gone]
  exact hq

private theorem stepDone_inv (h : s.Inv) (hs : s.stack = .call fn self d stmt phase :: rest) :
    (stepDone s fn stmt rest).Inv := leave_inv h (Lib.Quiet.stepped h.lib (h.gone_call hs).2 false) hs

private theorem stepFailed_inv (h : s.Inv) (hs : s.stack = .call fn self d stmt phase :: rest) :
    (stepFailed s fn d stmt rest).Inv := by
  obtain ⟨hd, hq⟩ := h.gone_call hs
  apply leave_inv h _ hs
  apply (Lib.Quiet.stepped h.lib hq true).useDb
  rw [stepped_gone]
  exact hd

/-- The frame of a method in another phase, which is not that of the SQL. -/
theorem phase_inv {phase' : Phase} (h : s.Inv) (hs : s.stack = .call fn self d stmt phase :: rest)
    (hphase : phase' ≠ .sql) : St.Inv { s with stack := .call fn self d stmt phase' :: rest } := by
  have hok := h.frames _ (hs ▸ List.mem_cons_self)
  apply h.swap hs
  · cases fn <;> rcases stmt with _ | q <;> rfl
  · cases fn with
    | dbExecute =>
      rcases stmt with _ | q
      · exact hok
      · exact ⟨hphase, hok.2⟩
    | dbPrepare => exact hok
    | stmtExecute => exact ⟨hphase, hok.2⟩

theorem step_inv {a : Act} (h : s.Inv) (hG : s.careful a = true) (hs : step s a = some t) : t.Inv := by
  cases a with
  | openDb =>
    obtain ⟨-, ht⟩ := Option.ite_none_right_eq_some.1 hs
    rw [← Option.some.inj ht]
    exact h.push (by simp [Frame.stmts]) (by simp [Frame.stmts]) trivial
  | opened r =>
    simp only [step] at hs
    split at hs
    · rename_i rest hst
      rw [← Option.some.inj hs]
      exact sqliteOpen_inv h hst r
    · simp at hs
  | new =>
    obtain ⟨-, ht⟩ := Option.ite_none_right_eq_some.1 hs
    rw [← Option.some.inj ht]
    exact h.append (by simp) (by simp)
  | dbExecute o =>
    apply onDb_inv h hs
    intro d ho
    exact h.push (by simp [Frame.stmts]) (by simp [Frame.stmts]) ho
  | dbPrepare o =>
    apply onDb_inv h hs
    intro d ho
    exact h.push (by simp [Frame.stmts]) (by simp [Frame.stmts]) ⟨rfl, ho⟩
  | prepared r =>
    simp only [step] at hs
    split at hs
    · rename_i hst
      obtain ⟨-, ht⟩ := Option.ite_none_left_eq_some.1 hs
      rw [← Option.some.inj ht]
      exact prepare_inv h hst r
    · simp at hs
  | stmtExecute o => exact onStmt_inv h hs fun q d ho => stmtExecute_inv h ho
  | convert =>
    simp only [step] at hs
    split at hs
    · rename_i hst
      rw [← Option.some.inj hs]
      exact phase_inv h hst (by simp)
    · simp at hs
  | bind r =>
    simp only [step] at hs
    split at hs
    · rename_i hst
      rw [← Option.some.inj hs]
      exact bindParam_inv h hst r
    · rename_i hst
      rw [← Option.some.inj hs]
      exact bindParam_inv h hst r
    · simp at hs
  | run =>
    simp only [step] at hs
    split at hs
    · rename_i fn self d stmt rest hst
      rw [← Option.some.inj hs]
      have hu := h.of_quiet ((Lib.Quiet.refl h.lib).useStmt (h.gone_call hst).2)
      exact phase_inv (s := { s with lib := s.lib.useStmt stmt }) hu hst (by simp)
    · simp at hs
  | row =>
    simp only [step] at hs
    split at hs
    · rename_i hst
      rw [← Option.some.inj hs]
      exact stepRow_inv h hst
    · simp at hs
  | done =>
    simp only [step] at hs
    split at hs
    · rename_i hst
      rw [← Option.some.inj hs]
      exact stepDone_inv h hst
    · simp at hs
  | failed =>
    simp only [step] at hs
    split at hs
    · rename_i hst
      rw [← Option.some.inj hs]
      exact stepFailed_inv h hst
    · simp at hs
  | stmtColumns o =>
    apply onStmt_inv h hs
    intro q d ho
    apply h.of_quiet
    apply (Lib.Quiet.refl h.lib).useStmt
    intro q' hq'
    rw [← Option.some.inj hq']
    exact (h.there q (St.Inv.mem_stmts ho)).2
  | dbRead o =>
    apply onDb_inv h hs
    intro d ho
    exact h.of_quiet ((Lib.Quiet.refl h.lib).useDb (h.gone_db ho))
  | dbClose o =>
    apply onDb_inv h hs
    intro d ho
    apply dbClose_inv h ho
    intro f hf fn' d' phase' he
    subst he
    simp only [St.careful, Bool.not_eq_true', List.any_eq_false] at hG
    exact hG _ hf (by simp)
  | stmtClose o =>
    apply onStmt_inv h hs
    intro q d ho
    simp only [St.careful, ho, Bool.and_eq_true, Bool.not_eq_true', List.any_eq_false, decide_eq_true_eq] at hG
    exact stmtClose_inv h ho hG.1 hG.2
  | raise =>
    obtain ⟨-, ht⟩ := Option.ite_none_right_eq_some.1 hs
    rw [← Option.some.inj ht]
    obtain ⟨lib, objs, stack⟩ := s
    cases stack with
    | nil => exact h
    | cons f rest => exact h.pop rfl
  | gc o =>
    obtain ⟨hself, ht⟩ := Option.ite_none_left_eq_some.1 hs
    simp only [List.any_eq_true, decide_eq_true_eq, not_exists, not_and] at hself
    split at ht
    · simp at ht
    · rename_i x hx
      rw [← Option.some.inj ht]
      exact dfree_inv h hx hself
    · simp at ht

theorem inv_of_reach (h : Machine.Reach step (fun s a => s.careful a = true) {} s) : s.Inv := by
  refine h.invariant (I := St.Inv) ?_ fun _ _ _ _ hI hG hs => step_inv hI hG hs
  have hknows : Lib.Knows {} [] := fun o q d ho => by simp at ho
  exact ⟨Lib.ok_start, by simp [St.stmts], by simp [St.stmts], by simp [St.dbs], by simp [St.dbs], hknows, by simp⟩

end Owners

/-! ### What a careless step leads to -/

section Careless

variable {l : Lib} {s : St} {o d q : Nat} {rest : List Frame}

private theorem Lib.finalize_entries (l : Lib) (q : Nat) :
    (l.finalize (some q)).ledger.entries = (l.ledger.destroy (.stmt q)).entries := by
  unfold Lib.finalize
  dsimp only
  split
  · unfold Lib.reap
    split <;> rfl
  · rfl

private theorem Lib.not_sound_finalize (h : l.ledger.gone (.stmt q) = true) : ¬(l.finalize (some q)).Sound := by
  intro hs
  apply Ledger.not_sound_destroy_gone h
  intro e he
  apply hs.intact e
  rw [l.finalize_entries]
  exact he

/-- A `Statement#close` that raises leaves the object with the finalized handle, and the object is freed some day. -/
theorem close_err_finalizes_twice (hcode : s.atCode = true) (ho : s.objs[o]? = some (.statement (some q) d))
    (hself : (s.stack.any fun f => f.self? = some o) = false) (herr : s.lib.lastErr q = true) :
    ∃ t, Machine.exec step s [.stmtClose o, .gc o] = some t ∧ ¬t.lib.Sound := by
  let u : St := { s with lib := (s.lib.finalize (some q)).useDb d }
  have hclose : step s (.stmtClose o) = some u := by
    simp [step, onStmt, hcode, ho, stmtClose, herr, u]
  have hgc : step u (.gc o) = some (dfree u o (.statement (some q) d)) := by
    simp only [step, u, hself, ho]
    rfl
  refine ⟨dfree u o (.statement (some q) d), by simp only [Machine.exec, hclose, hgc], ?_⟩
  apply Lib.not_sound_finalize
  show (s.lib.finalize (some q)).ledger.gone (.stmt q) = true
  rw [Lib.finalize_gone, if_pos rfl]

/-- The `to_str` of the SQL closes the database: `sqlite3_prepare_v2` receives the connection that it destroyed. -/
theorem close_in_sql_uses_gone {fn : Fn} (hs : s.stack = .call fn o d none .sql :: rest)
    (ho : s.objs[o]? = some (.database (some d))) (hstmts : s.lib.hasStmts d = false) :
    ∃ t, Machine.exec step s [.dbClose o, .prepared .failed] = some t ∧ ¬t.lib.Sound := by
  have hclose : step s (.dbClose o) = some (dbClose s o d) := by
    simp [step, onDb, St.atCode, hs, Frame.atCode, ho]
  have hprep : step (dbClose s o d) (.prepared .failed) = some (prepare (dbClose s o d) fn o d rest .failed) := by
    simp [step, dbClose, hs]
  refine ⟨prepare (dbClose s o d) fn o d rest .failed, by simp only [Machine.exec, hclose, hprep], ?_⟩
  intro hsound
  have hgone : (s.lib.closeV2 d).ledger.gone (.db d) = true := by
    have hreap : d ∈ d :: s.lib.closes ∧ Lib.hasStmts { s.lib.useDb d with closes := d :: s.lib.closes } d = false :=
      ⟨List.mem_cons_self, hstmts⟩
    unfold Lib.closeV2 Lib.reap
    rw [if_pos hreap]
    exact Ledger.free_gone_self
  exact Ledger.not_sound_use (Ledger.not_sound_use_gone hgone) hsound.intact

/-- The conversion of a bind closes the statement that is being executed: the bind receives the finalized handle. -/
theorem close_in_bind_uses_gone (hs : s.stack = .call .stmtExecute o d (some q) .conv :: rest)
    (ho : s.objs[o]? = some (.statement (some q) d)) (herr : s.lib.lastErr q = false) :
    ∃ t, Machine.exec step s [.stmtClose o, .bind .ok] = some t ∧ ¬t.lib.Sound := by
  let u : St := { s with lib := s.lib.finalize (some q), objs := s.objs.set o (.statement none d) }
  have hclose : step s (.stmtClose o) = some u := by
    simp [step, onStmt, St.atCode, hs, Frame.atCode, ho, stmtClose, herr, u]
  have hbind : step u (.bind .ok) = some (bindParam u .stmtExecute o d (some q) rest .ok) := by
    simp [step, u, hs]
  refine ⟨bindParam u .stmtExecute o d (some q) rest .ok, by simp only [Machine.exec, hclose, hbind], ?_⟩
  intro hsound
  have hgone : (s.lib.finalize (some q)).ledger.gone (.stmt q) = true := by
    rw [Lib.finalize_gone, if_pos rfl]
  exact Ledger.not_sound_use_gone hgone hsound.intact

end Careless

/-- Every statement is finalized at most once, every connection closed at most once and no function receives a destroyed
handle, in every run in which no `Statement#close` finds its last step failed and no conversion closes what the method
that runs it works on.  The three ways out of the condition all lead to a call with a handle that is gone. -/
theorem handles_live (s : St) :
    (Machine.Reach step (fun s a => s.careful a = true) {} s → s.lib.Sound) ∧
    (∀ o q d : Nat, s.atCode = true → s.objs[o]? = some (.statement (some q) d) →
      (s.stack.any fun f => f.self? = some o) = false → s.lib.lastErr q = true →
      ∃ t, Machine.exec step s [.stmtClose o, .gc o] = some t ∧ ¬t.lib.Sound) ∧
    (∀ (o d : Nat) (fn : Fn) (rest : List Frame), s.stack = .call fn o d none .sql :: rest →
      s.objs[o]? = some (.database (some d)) → s.lib.hasStmts d = false →
      ∃ t, Machine.exec step s [.dbClose o, .prepared .failed] = some t ∧ ¬t.lib.Sound) ∧
    ∀ (o q d : Nat) (rest : List Frame), s.stack = .call .stmtExecute o d (some q) .conv :: rest →
      s.objs[o]? = some (.statement (some q) d) → s.lib.lastErr q = false →
      ∃ t, Machine.exec step s [.stmtClose o, .bind .ok] = some t ∧ ¬t.lib.Sound := by
  refine ⟨fun h => (inv_of_reach h).lib.sound, ?_, ?_, ?_⟩
  · intro o q d hcode ho hself herr
    exact close_err_finalizes_twice hcode ho hself herr
  · intro o d fn rest hs ho hstmts
    exact close_in_sql_uses_gone hs ho hstmts
  · intro o q d rest hs ho herr
    exact close_in_bind_uses_gone hs ho herr

/-- A statement outlives its database, whose object is freed first; the connection goes with the statement. -/
theorem handles_live_deferred :
    ∃ s : St, s.lib.Sound ∧ s.lib.closes = [0] ∧ s.lib.ledger.gone (.stmt 0) = true ∧
      s.lib.ledger.gone (.db 0) = true := by
  have hrun : (Machine.exec (Machine.guarded step fun s a => s.careful a = true) {}
      [.openDb, .opened .ok, .dbPrepare 0, .prepared (.ok true false), .gc 0, .stmtExecute 1, .convert, .stmtColumns 1,
        .bind .ok, .run, .row, .done, .stmtClose 1, .gc 1]).any
      (fun s => s.lib.closes = [0] ∧ s.lib.ledger.gone (.stmt 0) ∧ s.lib.ledger.gone (.db 0)) = true := by
    decide
  obtain ⟨s, hs, hp⟩ := Machine.Reach.of_any_guarded hrun
  exact ⟨s, (handles_live s).1 hs, by simpa using hp⟩

/-- A statement whose step fails is closed and freed; a database is closed by the `to_str` of the SQL that it is to
prepare. -/
theorem destroyed_handle_received :
    (∃ s, Machine.exec step {} [.openDb, .opened .ok, .dbPrepare 0, .prepared (.ok true false), .stmtExecute 1, .run,
      .failed, .stmtClose 1, .gc 1] = some s ∧ ¬s.lib.Sound) ∧
    ∃ s, Machine.exec step {} [.openDb, .opened .ok, .dbPrepare 0, .dbClose 0, .prepared .failed] = some s ∧
      ¬s.lib.Sound := by
  constructor
  · refine ⟨_, rfl, fun hsound => Ledger.not_sound_of_any ?_ hsound.intact⟩
    decide
  · refine ⟨_, rfl, fun hsound => Ledger.not_sound_of_any ?_ hsound.intact⟩
    decide

end Sqlite

end Calisto

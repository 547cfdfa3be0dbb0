import Calisto.Ext.Pg
import Calisto.Lib.Entries
import Calisto.Lib.Handles

/-!
# The handles of `PG::Connection` and `PG::Result`

A handle that is not destroyed is owned by one object at most, and the handle that a method holds while its arguments
are converted is the one of its receiver.  The second breaks when the conversion finishes the connection of the method,
or clears its result: what was fetched before the conversion is passed to libpq after it.
-/

namespace Calisto

namespace Pg

/-- No function received a destroyed handle, and none was destroyed twice. -/
structure Lib.Sound (l : Lib) : Prop where
  intact : l.ledger.Sound
  once : ∀ k, l.ledger.destructions k ≤ 1

/-! ### The library -/

/-- The handles that libpq has returned so far. -/
def Lib.Made (l : Lib) : Handle → Prop
  | .conn c => c < l.conns
  | .res q => q < l.results

/-- The handles that may be passed to libpq. -/
def Lib.Live (l : Lib) (k : Handle) : Prop := l.Made k ∧ l.ledger.gone k = false

/-- What holds of the library as long as it is called with handles that are there. -/
structure Lib.Ok (l : Lib) : Prop where
  ledger : l.ledger.Ok
  fresh : ∀ k, ¬l.Made k → l.ledger.gone k = false

/-- A change of the library that destroys no handle that was there. -/
structure Lib.Quiet (l l' : Lib) : Prop where
  ok : l'.Ok
  live : ∀ k, l.Live k → l'.Live k

section Library

variable {l l' : Lib} {k : Handle} {n : Nat}

theorem Lib.ok_start : Lib.Ok {} := ⟨Ledger.ok_empty, by simp⟩

theorem Lib.Ok.sound (h : l.Ok) : l.Sound := ⟨h.ledger.sound, h.ledger.once⟩

@[simp] theorem Lib.use_gone (l : Lib) (k : Handle) (n : Nat) : (l.use k n).ledger.gone = l.ledger.gone := by
  induction n generalizing l with
  | zero => rfl
  | succ n ih => exact ih _

@[simp] theorem Lib.use_conns (l : Lib) (k : Handle) (n : Nat) : (l.use k n).conns = l.conns := by
  induction n generalizing l with
  | zero => rfl
  | succ n ih => exact ih _

@[simp] theorem Lib.use_results (l : Lib) (k : Handle) (n : Nat) : (l.use k n).results = l.results := by
  induction n generalizing l with
  | zero => rfl
  | succ n ih => exact ih _

private theorem Lib.use_made (l : Lib) (k : Handle) (n : Nat) (k' : Handle) : (l.use k n).Made k' ↔ l.Made k' := by
  rcases k' with c | q <;> simp [Lib.Made]

theorem Lib.Ok.use (h : l.Ok) (hk : l.ledger.gone k = false) : (l.use k n).Ok := by
  induction n generalizing l with
  | zero => exact h
  | succ n ih =>
    apply ih
    · exact ⟨h.ledger.use hk, h.fresh⟩
    · exact hk

theorem Lib.Quiet.refl (h : l.Ok) : l.Quiet l := ⟨h, fun _ hk => hk⟩

theorem Lib.Quiet.use (h : l.Quiet l') (hk : l'.ledger.gone k = false) : l.Quiet (l'.use k n) := by
  refine ⟨h.ok.use hk, fun k' hk' => ?_⟩
  obtain ⟨hmade, hgone⟩ := h.live k' hk'
  exact ⟨(l'.use_made k n k').2 hmade, by rwa [Lib.use_gone]⟩

theorem Lib.Quiet.newConn (h : l.Quiet l') : l.Quiet l'.newConn := by
  have hmade : ∀ k, l'.Made k → l'.newConn.Made k := by
    intro k hk
    rcases k with c | q
    · exact Nat.lt_succ_of_lt hk
    · exact hk
  refine ⟨⟨h.ok.ledger, fun k hk => h.ok.fresh k fun hm => hk (hmade k hm)⟩, fun k hk => ?_⟩
  obtain ⟨hm, hgone⟩ := h.live k hk
  exact ⟨hmade k hm, hgone⟩

theorem Lib.Quiet.newRes (h : l.Quiet l') : l.Quiet l'.newRes := by
  have hmade : ∀ k, l'.Made k → l'.newRes.Made k := by
    intro k hk
    rcases k with c | q
    · exact hk
    · exact Nat.lt_succ_of_lt hk
  refine ⟨⟨h.ok.ledger, fun k hk => h.ok.fresh k fun hm => hk (hmade k hm)⟩, fun k hk => ?_⟩
  obtain ⟨hm, hgone⟩ := h.live k hk
  exact ⟨hmade k hm, hgone⟩

theorem Lib.Live.destroy (h : l.Live k) {k' : Handle} (hne : k ≠ k') : (l.destroy k').Live k :=
  ⟨h.1, (Ledger.free_gone_ne hne).trans h.2⟩

theorem Lib.Ok.destroy (h : l.Ok) (hk : l.Live k) : (l.destroy k).Ok := by
  refine ⟨h.ledger.destroy hk.2, fun k' hk' => ?_⟩
  have hne : k' ≠ k := by
    rintro rfl
    exact hk' hk.1
  exact (Ledger.free_gone_ne hne).trans (h.fresh k' hk')

/-- A handle destroyed that was made in between. -/
theorem Lib.Quiet.destroy (h : l.Quiet l') (hk : l'.Live k) (hnew : ¬l.Made k) : l.Quiet (l'.destroy k) := by
  refine ⟨h.ok.destroy hk, fun k' hk' => (h.live k' hk').destroy ?_⟩
  rintro rfl
  exact hnew hk'.1

end Library

/-! ### Owners -/

/-- The handles that an object owns. -/
def Obj.handles : Obj → List Handle
  | conn (some c) => [.conn c]
  | res (some q) => [.res q]
  | _ => []

def St.owned (s : St) : List Handle := s.objs.flatMap Obj.handles

/-- A method holds the handle of its receiver. -/
def Frame.Ok (objs : List Obj) : Frame → Prop
  | connecting self => ∃ c, objs[self]? = some (.conn c)
  | conn _ self c => objs[self]? = some (.conn (some c))
  | res _ self q => objs[self]? = some (.res (some q))

structure St.Inv (s : St) : Prop where
  lib : s.lib.Ok
  live : ∀ k ∈ s.owned, s.lib.Live k
  nodup : s.owned.Nodup
  frames : ∀ f ∈ s.stack, f.Ok s.objs
  /-- No method that called a `conn_initialize` holds the connection that it replaces. -/
  nested : s.stack.Pairwise fun f g => f.handle? = none → g.self = f.self → g.handle? = none

/-- The condition on a step: no connection is closed or initialized again, and no result cleared, while a method holds
its handle. -/
def St.careful (s : St) : Act → Bool
  | .connInitialize o | .connClose o | .resClear o => !s.stack.any fun f => f.self = o ∧ f.handle?.isSome
  | _ => true

section Owners

variable {s : St} {l : Lib} {f : Frame} {rest : List Frame} {objs : List Obj} {o c q : Nat} {k : Handle} {x y : Obj}

theorem inv_start : St.Inv {} := ⟨Lib.ok_start, by simp [St.owned], by simp [St.owned], by simp, by simp⟩

private theorem Obj.handles_nodup (x : Obj) : x.handles.Nodup := by
  rcases x with (_ | c) | (_ | q) | _ <;> simp [Obj.handles]

theorem Frame.Ok.append (h : f.Ok objs) (x : Obj) : f.Ok (objs ++ [x]) := by
  cases f with
  | connecting self =>
    obtain ⟨c, hc⟩ := h
    exact ⟨c, getElem?_push_of_get hc x⟩
  | conn fn self c => exact getElem?_push_of_get h x
  | res fn self q => exact getElem?_push_of_get h x

/-- Another object than the receiver is replaced. -/
theorem Frame.Ok.set_ne (h : f.Ok objs) (hne : f.self ≠ o) (y : Obj) : f.Ok (objs.set o y) := by
  have hget : (objs.set o y)[f.self]? = objs[f.self]? := List.getElem?_set_ne hne.symm
  cases f with
  | connecting self =>
    obtain ⟨c, hc⟩ := h
    exact ⟨c, hget.trans hc⟩
  | conn fn self c => exact hget.trans h
  | res fn self q => exact hget.trans h

/-- A connection is replaced whose methods hold no handle. -/
theorem Frame.Ok.set_conn {c : Option Nat} (h : f.Ok objs) (ho : objs[o]? = some (.conn c))
    (hhold : f.self = o → f.handle? = none) (c' : Option Nat) : f.Ok (objs.set o (.conn c')) := by
  by_cases hself : f.self = o
  · have hnone := hhold hself
    cases f with
    | connecting self =>
      have hlt := (List.getElem?_eq_some_iff.1 ho).1
      rw [Frame.self] at hself
      subst hself
      exact ⟨c', by simp [hlt]⟩
    | conn fn self c => simp [Frame.handle?] at hnone
    | res fn self q => simp [Frame.handle?] at hnone
  · exact h.set_ne hself _

/-- A result is replaced whose methods hold no handle. -/
theorem Frame.Ok.set_res {r : Option Nat} (h : f.Ok objs) (ho : objs[o]? = some (.res r))
    (hhold : f.self = o → f.handle? = none) (y : Obj) : f.Ok (objs.set o y) := by
  apply h.set_ne
  intro hself
  have hnone := hhold hself
  cases f with
  | connecting self =>
    obtain ⟨c, hc⟩ := h
    rw [Frame.self] at hself
    rw [hself, ho] at hc
    simp at hc
  | conn fn self c => simp [Frame.handle?] at hnone
  | res fn self q => simp [Frame.handle?] at hnone

private theorem careful_iff : (!s.stack.any fun f => f.self = o ∧ f.handle?.isSome) = true ↔
    ∀ f ∈ s.stack, f.self = o → f.handle? = none := by
  simp only [Bool.not_eq_true', List.any_eq_false, decide_eq_true_eq, not_and, Bool.not_eq_true,
    Option.isSome_eq_false_iff, Option.isNone_iff_eq_none]

private theorem St.mem_owned (ho : s.objs[o]? = some x) (hk : k ∈ x.handles) : k ∈ s.owned :=
  List.mem_flatMap.2 ⟨x, List.mem_of_getElem? ho, hk⟩

private theorem St.Inv.live_conn (h : s.Inv) (ho : s.objs[o]? = some (.conn (some c))) : s.lib.Live (.conn c) :=
  h.live _ (St.mem_owned ho List.mem_cons_self)

private theorem St.Inv.live_res (h : s.Inv) (ho : s.objs[o]? = some (.res (some q))) : s.lib.Live (.res q) :=
  h.live _ (St.mem_owned ho List.mem_cons_self)

theorem St.Inv.of_quiet (h : s.Inv) (hl : s.lib.Quiet l) : St.Inv { s with lib := l } :=
  ⟨hl.ok, fun k hk => hl.live k (h.live k hk), h.nodup, h.frames, h.nested⟩

theorem St.Inv.pop (h : s.Inv) (hs : s.stack = f :: rest) : St.Inv { s with stack := rest } := by
  have hnested := h.nested
  rw [hs] at hnested
  exact ⟨h.lib, h.live, h.nodup, fun g hg => h.frames g (hs ▸ List.mem_cons_of_mem f hg), hnested.of_cons⟩

theorem St.Inv.push (h : s.Inv) (hok : f.Ok s.objs)
    (hhold : f.handle? = none → ∀ g ∈ s.stack, g.self = f.self → g.handle? = none) :
    St.Inv { s with stack := f :: s.stack } := by
  refine ⟨h.lib, h.live, h.nodup, fun g hg => ?_, List.pairwise_cons.2 ⟨fun g hg hf => hhold hf g hg, h.nested⟩⟩
  rcases List.mem_cons.1 hg with rfl | hg
  · exact hok
  · exact h.frames g hg

/-- An object that is made last, whose handle nobody owns. -/
theorem St.Inv.append (h : s.Inv) (hx : ∀ k ∈ x.handles, s.lib.Live k ∧ k ∉ s.owned) :
    St.Inv { s with objs := s.objs ++ [x] } := by
  have howned : St.owned { s with objs := s.objs ++ [x] } = s.owned ++ x.handles := by
    simp [St.owned]
  refine ⟨h.lib, fun k hk => ?_, ?_, fun f hf => (h.frames f hf).append x, h.nested⟩
  · rw [howned] at hk
    rcases List.mem_append.1 hk with hk | hk
    · exact h.live k hk
    · exact (hx k hk).1
  · rw [howned]
    refine List.nodup_append.2 ⟨h.nodup, x.handles_nodup, fun k hk k' hk' he => ?_⟩
    exact (hx k' hk').2 (he ▸ hk)

/-- An object is replaced, and what it owned may be gone. -/
theorem St.Inv.replace (h : s.Inv) (ho : s.objs[o]? = some x) (hl : l.Ok)
    (hlive : ∀ k ∈ s.owned, k ∉ x.handles → l.Live k) (hy : ∀ k ∈ y.handles, l.Live k ∧ k ∉ s.owned)
    (hframes : ∀ f ∈ s.stack, f.Ok (s.objs.set o y)) : St.Inv { s with lib := l, objs := s.objs.set o y } := by
  have hold := Handles.flatMap_perm_of_getElem? ho Obj.handles
  have hnew := Handles.flatMap_set_perm ho y Obj.handles
  obtain ⟨-, hrest, hdisj⟩ := List.nodup_append.1 (hold.nodup_iff.1 h.nodup)
  have hmem : ∀ k ∈ (s.objs.eraseIdx o).flatMap Obj.handles, k ∈ s.owned := fun k hk =>
    hold.mem_iff.2 (List.mem_append_right _ hk)
  refine ⟨hl, fun k hk => ?_, hnew.nodup_iff.2 (List.nodup_append.2 ⟨y.handles_nodup, hrest, fun k hk k' hk' he => ?_⟩),
    hframes, h.nested⟩
  · rcases List.mem_append.1 (hnew.mem_iff.1 hk) with hk | hk
    · exact (hy k hk).1
    · exact hlive k (hmem k hk) fun hx => hdisj k hx k hk rfl
  · exact (hy k hk).2 (he ▸ hmem k' hk')

/-- An object loses its handle, which is destroyed. -/
theorem St.Inv.lose (h : s.Inv) (ho : s.objs[o]? = some x) (hx : x.handles = [k]) (hy : y.handles = [])
    (hframes : ∀ f ∈ s.stack, f.Ok (s.objs.set o y)) :
    St.Inv { s with lib := s.lib.destroy k, objs := s.objs.set o y } := by
  have hk : s.lib.Live k := h.live k (St.mem_owned ho (by simp [hx]))
  apply h.replace ho (h.lib.destroy hk)
  · intro k' hk' hne
    apply (h.live k' hk').destroy
    rintro rfl
    exact hne (by simp [hx])
  · simp [hy]
  · exact hframes

end Owners

/-! ### The methods keep the owners -/

section Methods

variable {s t : St} {l : Lib} {rest : List Frame} {o c q : Nat} {x : Obj}

private theorem connInitialize_inv {c : Option Nat} (h : s.Inv) (ho : s.objs[o]? = some (.conn c))
    (hhold : ∀ f ∈ s.stack, f.self = o → f.handle? = none) : (connInitialize s o c).Inv := by
  rcases c with _ | old
  · exact h.push (f := .connecting o) ⟨none, ho⟩ fun _ => hhold
  · have hlt := (List.getElem?_eq_some_iff.1 ho).1
    have hlose := h.lose (y := .conn none) ho rfl rfl fun f hf => (h.frames f hf).set_conn ho (hhold f hf) none
    exact hlose.push (f := .connecting o) ⟨none, by simp [hlt]⟩ fun _ => hhold

/-- The connection that `PQconnectdb` returned is the receiver's. -/
theorem connected_inv (h : s.Inv) (hs : s.stack = .connecting o :: rest) (n : Nat) :
    St.Inv { s with
      lib := s.lib.newConn.use (.conn s.lib.conns) n
      objs := s.objs.set o (.conn (some s.lib.conns))
      stack := rest } := by
  obtain ⟨c, ho⟩ := h.frames _ (hs ▸ List.mem_cons_self)
  have hnew : ¬s.lib.Made (.conn s.lib.conns) := Nat.lt_irrefl _
  have hgone : s.lib.newConn.ledger.gone (.conn s.lib.conns) = false := h.lib.fresh _ hnew
  have hl := ((Lib.Quiet.refl h.lib).newConn).use (n := n) hgone
  have hpop := h.pop hs
  apply hpop.replace ho hl.ok
  · intro k hk _
    exact hl.live k (h.live k hk)
  · intro k hk
    rw [List.mem_singleton.1 hk]
    refine ⟨⟨?_, ?_⟩, fun hm => hnew (h.live _ hm).1⟩
    · rw [Lib.use_made]
      exact Nat.lt_succ_self _
    · rw [Lib.use_gone]
      exact hgone
  · -- the methods below that hold a connection have another receiver
    intro f hf
    have hnested := h.nested
    rw [hs] at hnested
    exact (hpop.frames f hf).set_conn ho ((List.pairwise_cons.1 hnested).1 f hf rfl) _

private theorem connConnect_inv (h : s.Inv) (hs : s.stack = .connecting o :: rest) (r : Reply) :
    (connConnect s o rest r).Inv := by
  cases r with
  | null => exact h.pop hs
  | failed => exact connected_inv h hs 2
  | ok => exact connected_inv h hs 1

/-- A call that makes a result, and what is read from the result. -/
theorem Lib.Quiet.result (h : l.Ok) (hc : l.ledger.gone (.conn c) = false) (n : Nat) :
    l.Quiet ((l.use (.conn c) 1).newRes.use (.res l.results) n) := by
  apply ((Lib.Quiet.refl h).use hc).newRes.use
  show (l.use (.conn c) 1).ledger.gone (.res l.results) = false
  rw [Lib.use_gone]
  exact h.fresh _ (Nat.lt_irrefl _)

private theorem Lib.live_result (h : l.Ok) (c n : Nat) :
    ((l.use (.conn c) 1).newRes.use (.res l.results) n).Live (.res l.results) := by
  constructor
  · rw [Lib.use_made]
    show l.results < (l.use (.conn c) 1).results + 1
    rw [Lib.use_results]
    exact Nat.lt_succ_self _
  · rw [Lib.use_gone]
    show (l.use (.conn c) 1).ledger.gone (.res l.results) = false
    rw [Lib.use_gone]
    exact h.fresh _ (Nat.lt_irrefl _)

private theorem query_inv {wrap : Bool} (h : St.Inv { s with stack := rest }) (hc : s.lib.Live (.conn c)) (r : Reply) :
    (query s c wrap rest r).Inv := by
  have hnew : ¬s.lib.Made (.res s.lib.results) := Nat.lt_irrefl _
  have hresult := fun n => Lib.Quiet.result h.lib hc.2 n
  have hcleared := fun n => (hresult n).destroy (Lib.live_result h.lib c n) hnew
  cases r with
  | null => exact h.of_quiet ((Lib.Quiet.refl h.lib).use hc.2)
  | failed => exact h.of_quiet (hcleared 2)
  | ok =>
    unfold query
    dsimp only
    split
    · apply (h.of_quiet (hresult 1)).append
      intro k hk
      rw [List.mem_singleton.1 hk]
      exact ⟨Lib.live_result h.lib c 1, fun hm => hnew (h.live _ hm).1⟩
    · exact h.of_quiet (hcleared 1)

private theorem connCall_inv {fn : ConnFn} (h : s.Inv) (hs : s.stack = .conn fn o c :: rest) (r : Reply) :
    (connCall s fn c rest r).Inv := by
  have hpop := h.pop hs
  have hok : Frame.Ok s.objs (.conn fn o c) := h.frames _ (hs ▸ List.mem_cons_self)
  have hc : s.lib.Live (.conn c) := h.live_conn hok
  have huse := fun n => hpop.of_quiet ((Lib.Quiet.refl h.lib).use (n := n) hc.2)
  cases fn with
  | exec | execParams | execPrepared | prepare => exact query_inv hpop hc r
  | escape | setClientEncoding | escapeLiteral | escapeIdentifier | parameterStatus => exact huse _

private theorem connClose_inv {c : Option Nat} (h : s.Inv) (ho : s.objs[o]? = some (.conn c))
    (hhold : ∀ f ∈ s.stack, f.self = o → f.handle? = none) : (connClose s o c).Inv := by
  rcases c with _ | c
  · exact h
  · exact h.lose (y := .conn none) ho rfl rfl fun f hf => (h.frames f hf).set_conn ho (hhold f hf) none

private theorem resClear_inv {r : Option Nat} (h : s.Inv) (ho : s.objs[o]? = some (.res r))
    (hhold : ∀ f ∈ s.stack, f.self = o → f.handle? = none) : (resClear s o r).Inv := by
  rcases r with _ | q
  · exact h
  · exact h.lose (y := .res none) ho rfl rfl fun f hf => (h.frames f hf).set_res ho (hhold f hf) _

theorem dfree_inv (h : s.Inv) (ho : s.objs[o]? = some x) (hself : ∀ f ∈ s.stack, f.self ≠ o) : (dfree s o x).Inv := by
  have hframes : ∀ f ∈ s.stack, f.Ok (s.objs.set o .freed) := fun f hf => (h.frames f hf).set_ne (hself f hf) _
  have hquiet : St.Inv { s with objs := s.objs.set o .freed } :=
    h.replace ho h.lib (fun k hk _ => h.live k hk) (by simp [Obj.handles]) hframes
  rcases x with (_ | c) | (_ | q) | _
  · exact hquiet
  · exact h.lose ho rfl rfl hframes
  · exact hquiet
  · exact h.lose ho rfl rfl hframes
  · exact hquiet

private theorem onConn_inv {k : Nat → St} (h : s.Inv) (hs : onConn s o k = some t)
    (hk : ∀ c, s.objs[o]? = some (.conn (some c)) → (k c).Inv) : t.Inv := by
  unfold onConn at hs
  split at hs
  · rename_i c ho
    rw [Option.some.injEq] at hs
    exact hs ▸ hk c ho
  · rw [Option.some.injEq] at hs
    exact hs ▸ h
  · simp at hs

private theorem onRes_inv {k : Nat → St} (h : s.Inv) (hs : onRes s o k = some t)
    (hk : ∀ q, s.objs[o]? = some (.res (some q)) → (k q).Inv) : t.Inv := by
  unfold onRes at hs
  split at hs
  · rename_i q ho
    rw [Option.some.injEq] at hs
    exact hs ▸ hk q ho
  · rw [Option.some.injEq] at hs
    exact hs ▸ h
  · simp at hs

theorem step_inv {a : Act} (h : s.Inv) (hG : s.careful a = true) (hs : step s a = some t) : t.Inv := by
  cases a with
  | alloc conn =>
    rw [← Option.some.inj hs]
    apply h.append
    rcases conn <;> simp [Obj.handles]
  | connInitialize o =>
    simp only [step] at hs
    split at hs
    · rename_i c ho
      rw [← Option.some.inj hs]
      exact connInitialize_inv h ho (careful_iff.1 hG)
    · simp at hs
  | connected r =>
    simp only [step] at hs
    split at hs
    · rename_i hst
      rw [← Option.some.inj hs]
      exact connConnect_inv h hst r
    · simp at hs
  | connCall fn o =>
    apply onConn_inv h hs
    intro c ho
    exact h.push ho (by simp [Frame.handle?])
  | replied r =>
    simp only [step] at hs
    split at hs
    · rename_i hst
      rw [← Option.some.inj hs]
      exact connCall_inv h hst r
    · simp at hs
  | connRead o n =>
    apply onConn_inv h hs
    intro c ho
    exact h.of_quiet ((Lib.Quiet.refl h.lib).use (h.live_conn ho).2)
  | getLastResult o r =>
    apply onConn_inv h hs
    intro c ho
    exact query_inv h (h.live_conn ho) r
  | connClose o =>
    simp only [step] at hs
    split at hs
    · rename_i c ho
      rw [← Option.some.inj hs]
      exact connClose_inv h ho (careful_iff.1 hG)
    · simp at hs
  | resCall fn o =>
    apply onRes_inv h hs
    intro q ho
    exact h.push ho (by simp [Frame.handle?])
  | indexed n =>
    simp only [step] at hs
    split at hs
    · rename_i fn o q rest hst
      have hok : Frame.Ok s.objs (.res fn o q) := h.frames _ (hst ▸ List.mem_cons_self)
      rw [← Option.some.inj hs]
      exact (h.pop hst).of_quiet ((Lib.Quiet.refl h.lib).use (h.live_res hok).2)
    · simp at hs
  | resRead o n =>
    apply onRes_inv h hs
    intro q ho
    exact h.of_quiet ((Lib.Quiet.refl h.lib).use (h.live_res ho).2)
  | resClear o =>
    simp only [step] at hs
    split at hs
    · rename_i r ho
      rw [← Option.some.inj hs]
      exact resClear_inv h ho (careful_iff.1 hG)
    · simp at hs
  | raise =>
    rw [← Option.some.inj hs]
    rcases hst : s.stack with _ | ⟨f, rest⟩
    · have hsame : { s with stack := s.stack.tail } = s := by rw [hst, List.tail_nil, ← hst]
      rw [← hst, hsame]
      exact h
    · exact h.pop hst
  | gc o =>
    obtain ⟨hany, ht⟩ := Option.ite_none_left_eq_some.1 hs
    split at ht
    · simp at ht
    · rename_i x hx ho
      rw [← Option.some.inj ht]
      apply dfree_inv h ho
      intro f hf he
      exact hany (List.any_eq_true.2 ⟨f, hf, by simp [he]⟩)
    · simp at ht

theorem inv_of_reach (h : Machine.Reach step (fun s a => s.careful a = true) {} s) : s.Inv :=
  h.invariant inv_start fun _ _ _ _ hs hG hst => step_inv hs hG hst

end Methods

/-! ### A conversion that destroys the handle -/

section Careless

variable {s : St} {l : Lib} {rest : List Frame} {fn : ConnFn} {fn' : ResFn} {o c q : Nat} {k : Handle} {r : Reply}

theorem Lib.not_sound_use (h : ¬l.ledger.Sound) (n : Nat) : ¬(l.use k n).ledger.Sound := by
  induction n generalizing l with
  | zero => exact h
  | succ n ih => exact ih (Ledger.not_sound_use h)

theorem Lib.not_sound_use_gone (hk : l.ledger.gone k = true) (n : Nat) : ¬(l.use k (n + 1)).ledger.Sound :=
  Lib.not_sound_use (Ledger.not_sound_use_gone hk) n

private theorem query_not_sound {wrap : Bool} (hc : s.lib.ledger.gone (.conn c) = true) :
    ¬(query s c wrap rest r).lib.ledger.Sound := by
  have hexec : ¬(s.lib.use (.conn c) 1).newRes.ledger.Sound := Lib.not_sound_use_gone hc 0
  have hread : ∀ n, ¬((s.lib.use (.conn c) 1).newRes.use (.res s.lib.results) n).ledger.Sound := Lib.not_sound_use hexec
  cases r with
  | null => exact hexec
  | failed => exact Ledger.not_sound_destroy (hread 2)
  | ok =>
    unfold query
    dsimp only
    split
    · exact hread 1
    · exact Ledger.not_sound_destroy (hread 1)

/-- Every method of a connection that converted an argument goes on to pass the connection. -/
theorem connCall_not_sound (hc : s.lib.ledger.gone (.conn c) = true) :
    ¬(connCall s fn c rest r).lib.ledger.Sound := by
  have huse : ∀ n, ¬(s.lib.use (.conn c) (n + 1)).ledger.Sound := Lib.not_sound_use_gone hc
  cases fn with
  | exec | execParams | execPrepared | prepare => exact query_not_sound hc
  | escape | setClientEncoding =>
    unfold connCall
    dsimp only
    split
    · exact huse 1
    · exact huse 0
  | escapeLiteral | escapeIdentifier | parameterStatus => exact huse 0

theorem Lib.destroy_gone (l : Lib) (k : Handle) : (l.destroy k).ledger.gone k = true := Ledger.free_gone_self

private theorem connConnect_stack (s : St) (o : Nat) (rest : List Frame) (r : Reply) :
    (connConnect s o rest r).stack = rest := by
  cases r <;> rfl

private theorem connConnect_gone (s : St) (o : Nat) (rest : List Frame) (r : Reply) :
    (connConnect s o rest r).lib.ledger.gone = s.lib.ledger.gone := by
  cases r with
  | null => rfl
  | failed => exact Lib.use_gone _ _ 2
  | ok => exact Lib.use_gone _ _ 1

private theorem close_in_argument (hs : s.stack = .conn fn o c :: rest) (ho : s.objs[o]? = some (.conn (some c))) :
    ∃ t, Machine.exec step s [.connClose o, .replied r] = some t ∧ ¬t.lib.Sound := by
  have hclose : step s (.connClose o) = some (connClose s o (some c)) := by
    simp [step, ho]
  have hreply : step (connClose s o (some c)) (.replied r) =
      some (connCall (connClose s o (some c)) fn c rest r) := by
    simp [step, connClose, hs]
  refine ⟨connCall (connClose s o (some c)) fn c rest r, by simp only [Machine.exec, hclose, hreply], fun hsound => ?_⟩
  exact connCall_not_sound (s.lib.destroy_gone (.conn c)) hsound.intact

private theorem initialize_in_argument {r' : Reply} (hs : s.stack = .conn fn o c :: rest)
    (ho : s.objs[o]? = some (.conn (some c))) :
    ∃ t, Machine.exec step s [.connInitialize o, .connected r', .replied r] = some t ∧ ¬t.lib.Sound := by
  let u := connInitialize s o (some c)
  let v := connConnect u o (.conn fn o c :: rest) r'
  have hinit : step s (.connInitialize o) = some u := by
    simp [step, ho, u]
  have hconnect : step u (.connected r') = some v := by
    simp [step, u, v, connInitialize, hs]
  have hreply : step v (.replied r) = some (connCall v fn c rest r) := by
    simp only [step, v, connConnect_stack]
  refine ⟨connCall v fn c rest r, by simp only [Machine.exec, hinit, hconnect, hreply], fun hsound => ?_⟩
  have hgone : v.lib.ledger.gone (.conn c) = true := by
    rw [connConnect_gone]
    exact s.lib.destroy_gone (.conn c)
  exact connCall_not_sound hgone hsound.intact

theorem clear_in_index (hs : s.stack = .res fn' o q :: rest) (ho : s.objs[o]? = some (.res (some q))) (n : Nat) :
    ∃ t, Machine.exec step s [.resClear o, .indexed (n + 1)] = some t ∧ ¬t.lib.Sound := by
  let u := resClear s o (some q)
  let v : St := { u with lib := u.lib.use (.res q) (n + 1), stack := rest }
  have hclear : step s (.resClear o) = some u := by
    simp [step, ho, u]
  have hindex : step u (.indexed (n + 1)) = some v := by
    simp [step, u, v, resClear, hs]
  refine ⟨v, by simp only [Machine.exec, hclear, hindex], fun hsound => ?_⟩
  exact Lib.not_sound_use_gone (s.lib.destroy_gone (.res q)) n hsound.intact

end Careless

/-- Every connection is finished and every result cleared at most once, and no function receives a destroyed handle, in
every run in which nothing closes or initializes again a connection, or clears a result, while a method holds its
handle.  Otherwise the method passes the handle that is gone. -/
theorem pg_handles_live (s : St) :
    (Machine.Reach step (fun s a => s.careful a = true) {} s → s.lib.Sound) ∧
    (∀ (fn : ConnFn) (o c : Nat) (rest : List Frame) (r : Reply), s.stack = .conn fn o c :: rest →
      s.objs[o]? = some (.conn (some c)) →
      (∃ t, Machine.exec step s [.connClose o, .replied r] = some t ∧ ¬t.lib.Sound) ∧
      ∀ r', ∃ t, Machine.exec step s [.connInitialize o, .connected r', .replied r] = some t ∧ ¬t.lib.Sound) ∧
    ∀ (fn : ResFn) (o q : Nat) (rest : List Frame) (n : Nat), s.stack = .res fn o q :: rest →
      s.objs[o]? = some (.res (some q)) →
      ∃ t, Machine.exec step s [.resClear o, .indexed (n + 1)] = some t ∧ ¬t.lib.Sound := by
  refine ⟨fun h => (inv_of_reach h).lib.sound, ?_, ?_⟩
  · intro fn o c rest r hs ho
    exact ⟨close_in_argument hs ho, fun r' => initialize_in_argument hs ho⟩
  · intro fn o q rest n hs ho
    exact clear_in_index hs ho n

/-- A result outlives its connection, which is closed, initialized again and freed; each of the two connections and the
result is destroyed. -/
theorem pg_handles_live_outlives :
    ∃ s : St, s.lib.Sound ∧ s.lib.ledger.gone (.conn 0) = true ∧ s.lib.ledger.gone (.conn 1) = true ∧
      s.lib.ledger.gone (.res 0) = true := by
  have hrun : (Machine.exec (Machine.guarded step fun s a => s.careful a = true) {}
      [.alloc true, .connInitialize 0, .connected .ok, .connCall .exec 0, .connRead 0 1, .replied .ok, .connClose 0,
        .connInitialize 0, .connected .failed, .gc 0, .resCall .get 1, .resRead 1 2, .indexed 3, .resClear 1,
        .resClear 1, .gc 1]).any
      (fun s => s.lib.ledger.gone (.conn 0) ∧ s.lib.ledger.gone (.conn 1) ∧ s.lib.ledger.gone (.res 0)) = true := by
    decide
  obtain ⟨s, hs, hp⟩ := Machine.Reach.of_any_guarded hrun
  exact ⟨s, (pg_handles_live s).1 hs, by simpa using hp⟩

/-- The `to_str` of the SQL closes the connection that is to execute it, and the `to_int` of an index clears the result
that is indexed. -/
theorem destroyed_pg_handle_received :
    (∃ s, Machine.exec step {} [.alloc true, .connInitialize 0, .connected .ok, .connCall .exec 0, .connClose 0,
      .replied .ok] = some s ∧ ¬s.lib.Sound) ∧
    ∃ s, Machine.exec step {} [.alloc true, .connInitialize 0, .connected .ok, .connCall .exec 0, .replied .ok,
      .resCall .get 1, .resClear 1, .indexed 1] = some s ∧ ¬s.lib.Sound := by
  constructor
  · refine ⟨_, rfl, fun hsound => Ledger.not_sound_of_any ?_ hsound.intact⟩
    decide
  · refine ⟨_, rfl, fun hsound => Ledger.not_sound_of_any ?_ hsound.intact⟩
    decide

end Pg

end Calisto

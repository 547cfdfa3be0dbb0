import Calisto.Daemon.Loop
import Calisto.Wire.Base64

/-!
# Decoding the fields of a request

The arm of `RUN` and `EVAL` decodes the fields in the daemon itself, before the fork.  The machine of the loop has the
fields as they come; here the decoding is put before its steps, and a panic of it ends the process.
-/

namespace Calisto

open Machine

variable {boot : Boot} {alloc : Nat → Bool} {s t : Sys}

/-- `fields.iter().map(|f| b64_decode(f)).collect()`. -/
def decodeFields (fields : List Bytes) : Option (List Str) := fields.mapM b64Decode

/-- The fields that the daemon's step decodes: those of a request that the read at hand completes. -/
def Sys.decoding (alloc : Nat → Bool) (s : Sys) : Option (List Bytes) :=
  match s.pc with
  | .reading _ i r =>
    match s.clients[i]? with
    | none => none
    | some c => match scan alloc r c.buf with
      | .done op fields _ => if opOf op = .request then some fields else none
      | _ => none
  | _ => none

/-- The decoding of the request at hand panics. -/
def Sys.overruns (alloc : Nat → Bool) (s : Sys) : Bool :=
  (s.decoding alloc).any fun fields => (decodeFields fields).isNone

/-- The process of the daemon, with the clients and the children around it. -/
inductive Process
  | up (s : Sys)
  | panicked

/-- One step, the decoding of a request included. -/
def serve (boot : Boot) (alloc : Nat → Bool) : Process → Act → Option Process
  | .panicked, _ => none
  | .up s, .daemon ans =>
    if s.overruns alloc then
      if ans = .go then some .panicked else none
    else (step boot alloc s (.daemon ans)).map .up
  | .up s, a => (step boot alloc s a).map .up

/-! ### Panics -/

private theorem decodeFields_eq_none_iff (fields : List Bytes) :
    decodeFields fields = none ↔ ∃ f ∈ fields, Ragged (utf8 (fromUtf8Lossy f)) := by
  unfold decodeFields
  induction fields with
  | nil => simp
  | cons f fields ih =>
    rw [List.mapM_cons, List.exists_mem_cons_iff, ← b64Decode_eq_none_iff, ← ih]
    cases b64Decode f with
    | none => simp
    | some x => cases fields.mapM b64Decode <;> simp

/-- The fields that the process decodes next. -/
def Process.decoding (alloc : Nat → Bool) : Process → Option (List Bytes)
  | .up s => s.decoding alloc
  | .panicked => none

/-- Some of them is ragged. -/
def Process.HasRagged (alloc : Nat → Bool) (p : Process) : Prop :=
  ∃ fields ∈ p.decoding alloc, ∃ f ∈ fields, Ragged (utf8 (fromUtf8Lossy f))

private theorem overruns_iff : s.overruns alloc ↔ (Process.up s).HasRagged alloc := by
  unfold Sys.overruns Process.HasRagged
  rw [Option.any_eq_true]
  constructor
  · rintro ⟨fields, hfields, hnone⟩
    exact ⟨fields, hfields, (decodeFields_eq_none_iff fields).1 (by simpa using hnone)⟩
  · rintro ⟨fields, hfields, hragged⟩
    exact ⟨fields, hfields, by simpa using (decodeFields_eq_none_iff fields).2 hragged⟩

private theorem serve_panics_iff (p : Process) : (∃ a, serve boot alloc p a = some .panicked) ↔ p.HasRagged alloc := by
  cases p with
  | panicked => simp [serve, Process.HasRagged, Process.decoding]
  | up s =>
    rw [← overruns_iff]
    constructor
    · rintro ⟨a, ha⟩
      by_contra hno
      cases a with
      | daemon ans => simp [serve, hno] at ha
      | _ => simp [serve] at ha
    · intro hover
      exact ⟨.daemon .go, by simp [serve, hover]⟩

/-- The index of `b64_decode` leaves the bytes exactly on what is ragged; the daemon panics there exactly when a field
of the request at hand is, and in no run without such a field. -/
theorem b64_decode_safe_iff (boot : Boot) (alloc : Nat → Bool) :
    (∀ bytes, (∃ s, b64Decode bytes = some s) ↔ ¬Ragged (utf8 (fromUtf8Lossy bytes))) ∧
    (∀ p, Reach (serve boot alloc) Free (.up {}) p →
      ((∃ a, serve boot alloc p a = some .panicked) ↔ p.HasRagged alloc)) ∧
    ∀ p, Reach (serve boot alloc) (fun p _ => ¬p.HasRagged alloc) (.up {}) p → p ≠ .panicked := by
  refine ⟨fun bytes => ?_, fun p _ => serve_panics_iff p, fun p h => ?_⟩
  · rw [← b64Decode_eq_none_iff]
    cases b64Decode bytes <;> simp
  · refine h.invariant (I := (· ≠ .panicked)) (by simp) fun p a q _ _ hg hstep heq => ?_
    subst heq
    exact hg ((serve_panics_iff p).1 ⟨a, hstep⟩)

private theorem utf8_raggedRequest_ne_nil : utf8 "RUN 1\r\n$2\r\nQQ".toList ≠ [] := by decide

/-- A client sends a `RUN` with the field `QQ`, two characters of the alphabet, and the daemon panics. -/
theorem ragged_field_panics :
    ¬((∀ bytes, ∃ s, b64Decode bytes = some s) ∧
      ∀ p, Reach (serve bareBoot fun _ => true) Free (.up {}) p → p ≠ .panicked) := by
  rintro ⟨-, h⟩
  have hrun : (exec (serve bareBoot fun _ => true) (.up {})
      (oneClient "RUN 1\r\n$2\r\nQQ" utf8_raggedRequest_ne_nil)).any (fun p =>
        p.decoding (fun _ => true) = some [utf8 "QQ".toList]) = true := by
    decide
  obtain ⟨p, hp, hfields⟩ := Reach.of_any hrun
  have hragged : p.HasRagged fun _ => true := by
    refine ⟨[utf8 "QQ".toList], of_decide_eq_true hfields, utf8 "QQ".toList, List.mem_singleton_self _, ?_⟩
    rw [fromUtf8Lossy_utf8]
    decide +kernel
  have hpanic : ∃ a, serve bareBoot (fun _ => true) p a = some .panicked := (serve_panics_iff p).2 hragged
  obtain ⟨a, ha⟩ := hpanic
  exact h .panicked (.tail hp trivial ha) rfl

end Calisto

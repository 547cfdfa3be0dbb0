import Calisto.Bundle.Native
import Calisto.Lib.Entries

/-!
# The extracted extensions

A run extracts exactly the bytes that its bundle has embedded.  What it requires are these bytes, as long as it trusts
no file of other bytes and no other run writes the file between the look at it and the `require`.
-/

namespace Calisto

namespace Native

/-! ### `b64decode` gives back what was encoded -/

theorem b64decodeFrom_pad {c : Char} (h : c = '=' ∨ c = '\n') (s : Str) (out : Bytes) (buf bits : Nat) :
    b64decodeFrom (c :: s) out buf bits = b64decodeFrom s out buf bits := by
  rw [b64decodeFrom, if_pos h]

/-- The bits of one more digit. -/
def shiftIn (buf v : Nat) : Nat := (buf * 64 + v) % 1073741824

theorem shiftIn_eq {v : Nat} (h : v < 64) (buf : Nat) : ((buf <<< 6) ||| v) &&& 0x3fffffff = shiftIn buf v := by
  rw [← Nat.shiftLeft_add_eq_or_of_lt (i := 6) h, Nat.shiftLeft_eq]
  exact Nat.and_two_pow_sub_one_eq_mod _ 30

/-- A digit that completes no byte. -/
theorem b64decodeFrom_first {v : Nat} (h : v < 64) (s : Str) (out : Bytes) (buf : Nat) :
    b64decodeFrom (Base64.char v :: s) out buf 0 = b64decodeFrom s out (shiftIn buf v) 6 := by
  obtain ⟨hpad, hnl⟩ := Base64.char_ne v h
  rw [b64decodeFrom, if_neg (by simp [hpad, hnl]), Base64.value_char v h]
  simp only [shiftIn_eq h]
  rfl

/-- The byte that is emitted. -/
theorem byte_of_bits (buf n : Nat) : UInt8.ofNat ((buf >>> n) &&& 0xff) = UInt8.ofNat (buf / 2 ^ n) := by
  apply UInt8.toNat_inj.1
  rw [Nat.shiftRight_eq_div_pow, show (0xff : Nat) = 2 ^ 8 - 1 by decide, Nat.and_two_pow_sub_one_eq_mod]
  simp only [UInt8.toNat_ofNat']
  omega

/-- A digit that completes a byte. -/
theorem b64decodeFrom_next {v bits : Nat} (h : v < 64) (hbits : 2 ≤ bits) (s : Str) (out : Bytes) (buf : Nat) :
    b64decodeFrom (Base64.char v :: s) out buf bits =
      b64decodeFrom s (out ++ [UInt8.ofNat (shiftIn buf v / 2 ^ (bits - 2))]) (shiftIn buf v) (bits - 2) := by
  obtain ⟨hpad, hnl⟩ := Base64.char_ne v h
  rw [b64decodeFrom, if_neg (by simp [hpad, hnl]), Base64.value_char v h]
  have hge : bits + 6 ≥ 8 := by omega
  have hsub : bits + 6 - 8 = bits - 2 := by omega
  simp only [shiftIn_eq h, if_pos hge, hsub, byte_of_bits]

/-- The first two digits of a group give its first byte. -/
theorem b64decodeFrom_two (a b : UInt8) (s : Str) (out : Bytes) (buf : Nat) :
    ∃ buf', b64decodeFrom (Base64.char (a.toNat / 4) :: Base64.char (a.toNat % 4 * 16 + b.toNat / 16) :: s) out buf 0 =
      b64decodeFrom s (out ++ [a]) buf' 4 ∧ buf' % 16 = b.toNat / 16 := by
  have ha := a.toNat_lt
  have hb := b.toNat_lt
  refine ⟨shiftIn (shiftIn buf (a.toNat / 4)) (a.toNat % 4 * 16 + b.toNat / 16), ?_, ?_⟩
  · rw [b64decodeFrom_first (by omega), b64decodeFrom_next (by omega) (by omega)]
    congr 3
    apply UInt8.toNat_inj.1
    simp only [shiftIn, UInt8.toNat_ofNat']
    omega
  · simp only [shiftIn]
    omega

/-- The third digit gives the second byte. -/
theorem b64decodeFrom_three {buf : Nat} (b c : UInt8) (hbuf : buf % 16 = b.toNat / 16) (s : Str) (out : Bytes) :
    ∃ buf', b64decodeFrom (Base64.char (b.toNat % 16 * 4 + c.toNat / 64) :: s) out buf 4 =
      b64decodeFrom s (out ++ [b]) buf' 2 ∧ buf' % 4 = c.toNat / 64 := by
  have hb := b.toNat_lt
  have hc := c.toNat_lt
  refine ⟨shiftIn buf (b.toNat % 16 * 4 + c.toNat / 64), ?_, ?_⟩
  · rw [b64decodeFrom_next (by omega) (by omega)]
    congr 3
    apply UInt8.toNat_inj.1
    simp only [shiftIn, UInt8.toNat_ofNat']
    omega
  · simp only [shiftIn]
    omega

/-- The fourth digit gives the third byte. -/
theorem b64decodeFrom_four {buf : Nat} (c : UInt8) (hbuf : buf % 4 = c.toNat / 64) (s : Str) (out : Bytes) :
    ∃ buf', b64decodeFrom (Base64.char (c.toNat % 64) :: s) out buf 2 = b64decodeFrom s (out ++ [c]) buf' 0 := by
  have hc := c.toNat_lt
  refine ⟨shiftIn buf (c.toNat % 64), ?_⟩
  rw [b64decodeFrom_next (by omega) (by omega)]
  congr 3
  apply UInt8.toNat_inj.1
  simp only [shiftIn, UInt8.toNat_ofNat']
  omega

private theorem b64decodeFrom_encode (data : Bytes) (out : Bytes) (buf : Nat) :
    b64decodeFrom (Base64.encode data) out buf 0 = some (out ++ data) := by
  induction data using Base64.encode.induct generalizing out buf with
  | case1 => simp [Base64.encode, b64decodeFrom]
  | case2 a =>
    obtain ⟨buf', h, -⟩ := b64decodeFrom_two a 0 ['=', '='] out buf
    apply Eq.trans h
    rw [b64decodeFrom_pad (.inl rfl), b64decodeFrom_pad (.inl rfl), b64decodeFrom]
  | case3 a b =>
    obtain ⟨buf', h, hbuf⟩ :=
      b64decodeFrom_two a b (Base64.char (b.toNat % 16 * 4 + (0 : UInt8).toNat / 64) :: ['=']) out buf
    obtain ⟨buf'', h', -⟩ := b64decodeFrom_three b 0 hbuf ['='] (out ++ [a])
    apply (h.trans h').trans
    rw [b64decodeFrom_pad (.inl rfl), b64decodeFrom, List.append_assoc]
    rfl
  | case4 a b c rest ih =>
    obtain ⟨buf1, h1, hbuf1⟩ := b64decodeFrom_two a b (Base64.char (b.toNat % 16 * 4 + c.toNat / 64) ::
      Base64.char (c.toNat % 64) :: Base64.encode rest) out buf
    obtain ⟨buf2, h2, hbuf2⟩ := b64decodeFrom_three b c hbuf1 (Base64.char (c.toNat % 64) :: Base64.encode rest)
      (out ++ [a])
    obtain ⟨buf3, h3⟩ := b64decodeFrom_four c hbuf2 (Base64.encode rest) (out ++ [a] ++ [b])
    apply ((h1.trans h2).trans h3).trans
    rw [ih, List.append_assoc, List.append_assoc, List.append_assoc]
    rfl

theorem b64decode_encode (data : Bytes) : b64decode (Base64.encode data) = some data := by
  rw [b64decode, b64decodeFrom_encode, List.nil_append]

/-! ### What is required -/

/-- Every `require out` so far found the bytes that its bundle has embedded. -/
def St.Sound (s : St) : Prop := ∀ e ∈ s.required, ∃ data, e.embedded = some data ∧ e.file = some data

/-- The path of a run between the look at the file and the `require`. -/
def Pc.path : Pc → Option Str
  | .openOut abs | .write abs _ _ | .require abs => some abs
  | .user | .check _ | .gone => none

/-- The file of a run between the look at it and the `require`. -/
def Run.window (tmpEnv : Option Str) (r : Run) : Option Str := r.pc.path.map (cachePath tmpEnv)

/-- No other run is between its look and its `require` at the file of the run `i`. -/
def St.Alone (tmpEnv : Option Str) (s : St) (i : Nat) : Prop :=
  ∀ j < s.runs.length, j ≠ i → ∀ r ∈ s.runs[i]?, ∀ r' ∈ s.runs[j]?, r'.window tmpEnv = r.window tmpEnv →
    r.window tmpEnv = none

/-- If the run `i` finds a file, it holds what the bundle has embedded. -/
def Run.Trusts (tmpEnv : Option Str) (files : Str → Option Bytes) (r : Run) : Prop :=
  match r.pc with
  | .check abs => files (cachePath tmpEnv abs) = none ∨ files (cachePath tmpEnv abs) = r.embedded abs
  | _ => True

instance (tmpEnv : Option Str) (files : Str → Option Bytes) (r : Run) : Decidable (r.Trusts tmpEnv files) :=
  match h : r.pc with
  | .check abs => decidable_of_iff
      (files (cachePath tmpEnv abs) = none ∨ files (cachePath tmpEnv abs) = r.embedded abs) (by simp [Run.Trusts, h])
  | .user => isTrue (by simp [Run.Trusts, h])
  | .openOut _ => isTrue (by simp [Run.Trusts, h])
  | .write _ _ _ => isTrue (by simp [Run.Trusts, h])
  | .require _ => isTrue (by simp [Run.Trusts, h])
  | .gone => isTrue (by simp [Run.Trusts, h])

/-- The steps that trust no file of other bytes and change no file that another run is about to require. -/
def Undisturbed (tmpEnv : Option Str) (s : St) : Act → Prop
  | .check i => ∀ r ∈ s.runs[i]?, r.Trusts tmpEnv s.files
  | .openOut i | .write i _ => s.Alone tmpEnv i
  | .start _ | .exit _ | .load _ _ | .close _ | .require _ | .fail _ => True

/-- What is known of a run from where it is. -/
def Run.Ok (tmpEnv : Option Str) (files : Str → Option Bytes) (r : Run) : Prop :=
  match r.pc with
  | .user | .gone => True
  | .check abs | .openOut abs => (r.embedded abs).isSome
  | .write abs data off =>
    r.embedded abs = some data ∧ off ≤ data.length ∧ files (cachePath tmpEnv abs) = some (data.take off)
  | .require abs => ∃ data, r.embedded abs = some data ∧ files (cachePath tmpEnv abs) = some data

structure St.Inv (tmpEnv : Option Str) (s : St) : Prop where
  runs : ∀ (i : Nat) (r : Run), s.runs[i]? = some r → r.Ok tmpEnv s.files
  sound : s.Sound

section Steps

variable {tmpEnv : Option Str} {s t : St} {i n : Nat} {r : Run} {abs : Str}

/-- A file that is not the one of a run changes nothing for that run. -/
theorem Run.Ok.update {files : Str → Option Bytes} (h : r.Ok tmpEnv files) {path : Str}
    (hw : r.window tmpEnv ≠ some path) (file : Option Bytes) : r.Ok tmpEnv (Function.update files path file) := by
  unfold Run.Ok Run.window at *
  split at h
  · trivial
  · trivial
  · exact h
  · exact h
  · rename_i abs data off hpc
    rw [hpc] at hw
    rw [Function.update_of_ne fun he => hw (congrArg some he)]
    exact h
  · rename_i abs hpc
    rw [hpc] at hw
    rw [Function.update_of_ne fun he => hw (congrArg some he)]
    exact h

theorem St.Inv.setPc (h : s.Inv tmpEnv) {pc : Pc} (hok : Run.Ok tmpEnv s.files { r with pc := pc }) :
    (s.setPc i r pc).Inv tmpEnv := by
  refine ⟨fun j r' hj => ?_, h.sound⟩
  simp only [St.setPc, List.getElem?_set] at hj
  split at hj
  · split at hj
    · rw [Option.some.injEq] at hj
      subst hj
      exact hok
    · simp at hj
  · exact h.runs j r' hj

/-- A step on the file of a run that is alone there. -/
theorem St.Inv.setFile (h : s.Inv tmpEnv) (hi : s.runs[i]? = some r)
    (hw : r.window tmpEnv = some (cachePath tmpEnv abs)) (halone : s.Alone tmpEnv i) {bytes : Bytes} {pc : Pc}
    (hok : Run.Ok tmpEnv (Function.update s.files (cachePath tmpEnv abs) (some bytes)) { r with pc := pc }) :
    ((s.setFile (cachePath tmpEnv abs) bytes).setPc i r pc).Inv tmpEnv := by
  refine ⟨fun j r' hj => ?_, h.sound⟩
  simp only [St.setPc, St.setFile, List.getElem?_set] at hj
  split at hj
  · split at hj
    · rw [Option.some.injEq] at hj
      subst hj
      exact hok
    · simp at hj
  · rename_i hji
    have hlt : j < s.runs.length := (List.getElem?_eq_some_iff.1 hj).1
    apply (h.runs j r' hj).update
    intro hw'
    have := halone j hlt (Ne.symm hji) r (by simp [hi]) r' (by simp [hj]) (hw'.trans hw.symm)
    rw [hw] at this
    simp at this

private theorem pwrite_take (data : Bytes) {off : Nat} (h : off ≤ data.length) :
    pwrite (data.take off) off ((data.drop off).take n) = data.take (off + ((data.drop off).take n).length) := by
  have hlen : (data.take off).length = off := by
    rw [List.length_take]
    omega
  have hchunk : (data.drop off).take ((data.drop off).take n).length = (data.drop off).take n := by
    rw [List.length_take, ← List.take_eq_take_min]
  have hrest : (data.take off).drop (off + ((data.drop off).take n).length) = [] :=
    List.drop_eq_nil_of_le (hlen.trans_le (Nat.le_add_right _ _))
  rw [List.take_add, hchunk, pwrite, hlen, hrest, Nat.sub_self, List.replicate_zero, List.append_nil, List.append_nil,
    List.take_take, Nat.min_self]

private theorem native_decode (r : Run) (abs : Str) : (r.native abs).bind b64decode = r.embedded abs := by
  unfold Run.native
  rcases r.embedded abs with _ | data
  · rfl
  · exact b64decode_encode data

private theorem runStep_inv {a : Act} (hrun : a.run? = some i) (h : s.Inv tmpEnv) (hi : s.runs[i]? = some r)
    (hG : Undisturbed tmpEnv s a) (hs : runStep tmpEnv s i r a = some t) : t.Inv tmpEnv := by
  have hok := h.runs i r hi
  cases a with
  | start embedded => simp [runStep] at hs
  | exit j =>
    simp only [runStep, Option.some.injEq] at hs
    subst hs
    exact h.setPc trivial
  | load j abs =>
    simp only [runStep, Option.ite_none_right_eq_some, Option.some.injEq] at hs
    obtain ⟨⟨-, hsome⟩, rfl⟩ := hs
    apply h.setPc
    simpa [Run.Ok, Run.native] using hsome
  | check j =>
    simp only [Act.run?, Option.some.injEq] at hrun
    subst hrun
    have htrust : r.Trusts tmpEnv s.files := hG r (by simp [hi])
    simp only [runStep] at hs
    split at hs
    · rename_i abs hpc
      simp only [Run.Ok, hpc] at hok
      simp only [Run.Trusts, hpc] at htrust
      split at hs
      · rename_i hfile
        rw [Option.some.injEq] at hs
        subst hs
        apply h.setPc
        obtain ⟨data, hdata⟩ := Option.isSome_iff_exists.1 hok
        rcases htrust with hnone | heq
        · simp [hnone] at hfile
        · exact ⟨data, hdata, heq.trans hdata⟩
      · rw [Option.some.injEq] at hs
        subst hs
        exact h.setPc hok
    · simp at hs
  | openOut j =>
    simp only [Act.run?, Option.some.injEq] at hrun
    subst hrun
    simp only [runStep] at hs
    split at hs
    · rename_i abs hpc
      have hw : r.window tmpEnv = some (cachePath tmpEnv abs) := by simp [Run.window, hpc, Pc.path]
      split at hs
      · rename_i data hdata
        rw [native_decode] at hdata
        rw [Option.some.injEq] at hs
        subst hs
        apply h.setFile hi hw hG
        refine ⟨hdata, Nat.zero_le _, ?_⟩
        rw [Function.update_self, List.take_zero]
      · rw [Option.some.injEq] at hs
        subst hs
        exact h.setPc trivial
    · simp at hs
  | write j n =>
    simp only [Act.run?, Option.some.injEq] at hrun
    subst hrun
    simp only [runStep] at hs
    split at hs
    · rename_i abs data off hpc
      have hw : r.window tmpEnv = some (cachePath tmpEnv abs) := by simp [Run.window, hpc, Pc.path]
      simp only [Run.Ok, hpc] at hok
      obtain ⟨hdata, hoff, hfile⟩ := hok
      rw [Option.some.injEq] at hs
      subst hs
      apply h.setFile hi hw hG
      refine ⟨hdata, ?_, ?_⟩
      · rw [List.length_take, List.length_drop]
        omega
      · rw [Function.update_self, hfile, Option.getD_some, pwrite_take data hoff]
    · simp at hs
  | close j =>
    simp only [runStep] at hs
    split at hs
    · rename_i abs data off hpc
      simp only [Run.Ok, hpc] at hok
      obtain ⟨hdata, -, hfile⟩ := hok
      obtain ⟨hend, ht⟩ := Option.ite_none_right_eq_some.1 hs
      rw [Option.some.injEq] at ht
      subst ht
      rw [hend, List.take_length] at hfile
      exact h.setPc ⟨data, hdata, hfile⟩
    · simp at hs
  | require j =>
    simp only [runStep] at hs
    split at hs
    · rename_i abs hpc
      simp only [Run.Ok, hpc] at hok
      rw [Option.some.injEq] at hs
      subst hs
      have hset : (s.setPc i r .user).Inv tmpEnv := h.setPc trivial
      refine ⟨hset.runs, ?_⟩
      intro e he
      rcases List.mem_cons.1 he with rfl | he
      · exact hok
      · exact h.sound e he
    · simp at hs
  | fail j =>
    simp only [runStep] at hs
    split at hs
    · simp at hs
    · rw [Option.some.injEq] at hs
      subst hs
      exact h.setPc trivial

/-- A step is the start of a run or the step of one. -/
theorem step_cases {a : Act} (hs : step tmpEnv s a = some t) :
    (∃ embedded, a = .start embedded ∧ t = { s with runs := s.runs ++ [{ embedded := embedded }] }) ∨
    ∃ i r, a.run? = some i ∧ s.runs[i]? = some r ∧ runStep tmpEnv s i r a = some t := by
  unfold step at hs
  split at hs
  · rename_i embedded
    exact .inl ⟨embedded, rfl, (Option.some.inj hs).symm⟩
  · obtain ⟨i, hi, hs⟩ := Option.bind_eq_some_iff.1 hs
    obtain ⟨r, hr, hs⟩ := Option.bind_eq_some_iff.1 hs
    exact .inr ⟨i, r, hi, hr, hs⟩

theorem step_inv {a : Act} (h : s.Inv tmpEnv) (hG : Undisturbed tmpEnv s a) (hs : step tmpEnv s a = some t) :
    t.Inv tmpEnv := by
  rcases step_cases hs with ⟨embedded, rfl, rfl⟩ | ⟨i, r, hrun, hi, hs⟩
  · refine ⟨fun j r hj => ?_, h.sound⟩
    rcases getElem?_push_eq_some hj with hj | ⟨-, rfl⟩
    · exact h.runs j r hj
    · trivial
  · exact runStep_inv hrun h hi hG hs

theorem sound_of_reach (h : Machine.Reach (step tmpEnv) (Undisturbed tmpEnv) {} s) : s.Sound := by
  have hinv : s.Inv tmpEnv := by
    refine h.invariant (I := fun s => s.Inv tmpEnv) ?_ fun _ _ _ _ hI hG hs => step_inv hI hG hs
    exact ⟨fun i r hi => by simp at hi, fun e he => by simp at he⟩
  exact hinv.sound

/-! ### What a disturbed step leads to -/

/-- A run that is about to require a file of other bytes requires it. -/
theorem require_wrong (hi : s.runs[i]? = some r) (hpc : r.pc = .require abs)
    (hfile : ∀ data, r.embedded abs = some data → s.files (cachePath tmpEnv abs) ≠ some data) :
    ∃ t, step tmpEnv s (.require i) = some t ∧ ¬t.Sound := by
  refine ⟨_, by simp [step, Act.run?, hi, runStep, hpc]; rfl, ?_⟩
  intro hsound
  obtain ⟨data, hdata, hwas⟩ := hsound _ List.mem_cons_self
  exact hfile data hdata hwas

/-- Trusting a file of other bytes ends in requiring it. -/
theorem trust_wrong (hi : s.runs[i]? = some r) (hpc : r.pc = .check abs) (htrust : ¬r.Trusts tmpEnv s.files) :
    ∃ t, Machine.exec (step tmpEnv) s [.check i, .require i] = some t ∧ ¬t.Sound := by
  simp only [Run.Trusts, hpc, not_or] at htrust
  have hsome := Option.isSome_iff_ne_none.2 htrust.1
  have hlt := (List.getElem?_eq_some_iff.1 hi).1
  have hcheck : step tmpEnv s (.check i) = some (s.setPc i r (.require abs)) := by
    simp [step, Act.run?, hi, runStep, hpc, hsome]
  have hget : (s.setPc i r (.require abs)).runs[i]? = some { r with pc := .require abs } := by
    simp [St.setPc, hlt]
  have hfile : ∀ data, r.embedded abs = some data → s.files (cachePath tmpEnv abs) ≠ some data :=
    fun data hdata he => htrust.2 (he.trans hdata.symm)
  obtain ⟨t, ht, hwrong⟩ := require_wrong hget rfl hfile
  refine ⟨t, ?_, hwrong⟩
  simp only [Machine.exec, hcheck, ht]

/-- A run that empties the file that another one is about to require makes it require nothing. -/
theorem open_wrong {j : Nat} {r' : Run} {abs' : Str} {data data' : Bytes} (hij : j ≠ i) (hi : s.runs[i]? = some r)
    (hpc : r.pc = .openOut abs) (hdata : r.embedded abs = some data) (hj : s.runs[j]? = some r')
    (hpc' : r'.pc = .require abs') (hdata' : r'.embedded abs' = some data') (hne : data' ≠ [])
    (hpath : cachePath tmpEnv abs' = cachePath tmpEnv abs) :
    ∃ t, Machine.exec (step tmpEnv) s [.openOut i, .require j] = some t ∧ ¬t.Sound := by
  let u := (s.setFile (cachePath tmpEnv abs) []).setPc i r (.write abs data 0)
  have hopen : step tmpEnv s (.openOut i) = some u := by
    simp [step, Act.run?, hi, runStep, hpc, native_decode, hdata, u]
  have hget : u.runs[j]? = some r' := by
    simp [u, St.setPc, St.setFile, List.getElem?_set_ne (Ne.symm hij), hj]
  have hfile : ∀ d, r'.embedded abs' = some d → u.files (cachePath tmpEnv abs') ≠ some d := by
    intro d hd he
    rw [hdata', Option.some.injEq] at hd
    simp only [u, St.setPc, St.setFile, hpath, Function.update_self, Option.some.injEq] at he
    exact hne (hd.trans he.symm)
  obtain ⟨t, ht, hwrong⟩ := require_wrong hget hpc' hfile
  refine ⟨t, ?_, hwrong⟩
  simp only [Machine.exec, hopen, ht]

end Steps

/-- What every run requires is what its bundle has embedded, as long as a file that `load_native` finds holds that
already and nobody else opens or writes it between the look and the `require`.  A foreign file that is found is
required, and so is one that another run has just emptied. -/
theorem native_embedded (tmpEnv : Option Str) :
    (∀ s, Machine.Reach (step tmpEnv) (Undisturbed tmpEnv) {} s → s.Sound) ∧
    (∀ (s : St) (i : Nat) (r : Run) (abs : Str), s.runs[i]? = some r → r.pc = .check abs → ¬r.Trusts tmpEnv s.files →
      ∃ t, Machine.exec (step tmpEnv) s [.check i, .require i] = some t ∧ ¬t.Sound) ∧
    ∀ (s : St) (i j : Nat) (r r' : Run) (abs abs' : Str) (data data' : Bytes), j ≠ i → s.runs[i]? = some r →
      r.pc = .openOut abs → r.embedded abs = some data → s.runs[j]? = some r' → r'.pc = .require abs' →
      r'.embedded abs' = some data' → data' ≠ [] → cachePath tmpEnv abs' = cachePath tmpEnv abs →
      ∃ t, Machine.exec (step tmpEnv) s [.openOut i, .require j] = some t ∧ ¬t.Sound := by
  refine ⟨fun s h => sound_of_reach h, fun s i r abs hi hpc htrust => trust_wrong hi hpc htrust, ?_⟩
  intro s i j r r' abs abs' data data' hij hi hpc hdata hj hpc' hdata' hne hpath
  exact open_wrong hij hi hpc hdata hj hpc' hdata' hne hpath

instance (tmpEnv : Option Str) (s : St) (i : Nat) : Decidable (s.Alone tmpEnv i) :=
  inferInstanceAs (Decidable (∀ j < s.runs.length, j ≠ i → ∀ r ∈ s.runs[i]?, ∀ r' ∈ s.runs[j]?,
    r'.window tmpEnv = r.window tmpEnv → r.window tmpEnv = none))

instance (tmpEnv : Option Str) (s : St) : (a : Act) → Decidable (Undisturbed tmpEnv s a)
  | .check i => inferInstanceAs (Decidable (∀ r ∈ s.runs[i]?, r.Trusts tmpEnv s.files))
  | .openOut i => inferInstanceAs (Decidable (s.Alone tmpEnv i))
  | .write i _ => inferInstanceAs (Decidable (s.Alone tmpEnv i))
  | .start _ => isTrue trivial
  | .exit _ => isTrue trivial
  | .load _ _ => isTrue trivial
  | .close _ => isTrue trivial
  | .require _ => isTrue trivial
  | .fail _ => isTrue trivial

/-- The bytes of one path. -/
def only (path : String) (bytes : Bytes) : Str → Option Bytes := fun abs =>
  if abs = path.toList then some bytes else none

/-- The run `i` extracts a file of one byte and requires it. -/
def extract (i : Nat) (path : String) : List Act :=
  [.load i path.toList, .check i, .openOut i, .write i 1, .close i, .require i]

/-- The run `i` finds a file and requires it. -/
def find (i : Nat) (path : String) : List Act := [.load i path.toList, .check i, .require i]

/-- Two runs of one bundle, the second after the first. -/
theorem native_embedded_twice : ∃ s : St, s.Sound ∧ s.required.length = 2 := by
  have hrun : (Machine.exec (Machine.guarded (step none) (Undisturbed none)) {}
      (.start (only "/g/x.so" [1]) :: extract 0 "/g/x.so" ++ .start (only "/g/x.so" [1]) :: find 1 "/g/x.so")).any
      (fun s => s.required.length = 2) = true := by
    decide
  obtain ⟨s, hs, hp⟩ := Machine.Reach.of_any_guarded hrun
  exact ⟨s, (native_embedded none).1 s hs, by simpa using hp⟩

/-- A run evaluated to a state in which a file of other bytes was required. -/
theorem wrong_of_any {as : List Act} (h : (Machine.exec (step none) {} as).any
    (fun s => s.required.any fun e => e.file ≠ e.embedded) = true) :
    ∃ s, Machine.exec (step none) {} as = some s ∧ ¬s.Sound := by
  obtain ⟨s, hs, hp⟩ := (Option.any_eq_true _ _).1 h
  refine ⟨s, hs, fun hsound => ?_⟩
  obtain ⟨e, he, hne⟩ := List.any_eq_true.1 hp
  obtain ⟨data, hdata, hfile⟩ := hsound e he
  simp [hdata, hfile] at hne

/-- Two paths of one bundle have one name in the cache, the second of two builds finds the file of the first one, and a
run finds a file that another one has just created. -/
theorem foreign_extension_required :
    (∃ s, Machine.exec (step none) {} (.start (fun abs => if abs = "/g/a.b/x.so".toList then some [1]
      else if abs = "/g/a_b/x.so".toList then some [2] else none) :: extract 0 "/g/a.b/x.so" ++
      find 0 "/g/a_b/x.so") = some s ∧ ¬s.Sound) ∧
    (∃ s, Machine.exec (step none) {} (.start (only "/g/x.so" [1]) :: extract 0 "/g/x.so" ++
      .start (only "/g/x.so" [2]) :: find 1 "/g/x.so") = some s ∧ ¬s.Sound) ∧
    ∃ s, Machine.exec (step none) {} (.start (only "/g/x.so" [1]) :: .start (only "/g/x.so" [1]) ::
      [.load 0 "/g/x.so".toList, .check 0, .openOut 0] ++ find 1 "/g/x.so") = some s ∧ ¬s.Sound := by
  refine ⟨wrong_of_any ?_, wrong_of_any ?_, wrong_of_any ?_⟩ <;> decide +kernel

end Native

end Calisto

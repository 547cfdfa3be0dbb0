import Calisto.Lib.Bindings
import Calisto.Run.Args

/-!
# The environment and the flags of a request

`send_run_request` joins the variables of the client, the extra pairs and the flags to one text, with U+001E between
the pairs; `child_main` splits it and calls `setenv` on every piece.  Nothing is escaped on the way.  `Delivered` says
that the child ends up with the environment and the flags that were meant.

It takes clean pairs that are also unambiguous, and this is necessary except for hidden pairs: those that the intended
environment does not show, because a later pair has the same name or because it is the client's own
`CALISTO_RUN_FLAGS` (`env_flags_delivered`).
-/

namespace Calisto.Run

open Function

/-- U+001E, between the pairs. -/
def recordSep : Char := Char.ofNat 0x1e

def nul : Char := Char.ofNat 0

def runFlagsVar : Str := "CALISTO_RUN_FLAGS".toList

/-- The variables of the client that are not sent. -/
def filteredVars : List Str :=
  ["CALISTO_RUNTIME_DIR".toList, "CALISTO_SOCKET".toList, "CALISTO_PIDFILE".toList, "CALISTO_PRELOAD".toList,
    "CALISTO_COMPACT".toList, "CALISTO_YJIT".toList, "CALISTO_WARMUP".toList, "CALISTO_RUBY".toList]

/-- The `{k}={v}` of a pair. -/
def pairText (p : Str × Str) : Str := p.1 ++ '=' :: p.2

/-! ### The client -/

/-- The pairs that `send_run_request` sends: the variables, `extra` and the flags. -/
def sentPairs (vars extra : List (Str × Str)) (flags : RunFlags) : List (Str × Str) :=
  (vars.filter fun p => p.1 ∉ filteredVars) ++ extra ++ if flags.any then [(runFlagsVar, flags.blob)] else []

def envBlob (vars extra : List (Str × Str)) (flags : RunFlags) : Str :=
  [recordSep].intercalate ((sentPairs vars extra flags).map pairText)

/-! ### The child -/

abbrev Env := Str → Option Str

/-- `CString::new(s).unwrap_or_default()`. -/
def cString (s : Str) : Str := if nul ∈ s then [] else s

/-- `setenv(3)`, which refuses an empty name and a name with `=`. -/
def setenv (env : Env) (k v : Str) : Env := if k = [] ∨ '=' ∈ k then env else update env k (some v)

def setPiece (env : Env) (piece : Str) : Env :=
  match splitOnce '=' piece with
  | some (k, v) => setenv env (cString k) (cString v)
  | none => env

/-- After `clearenv` and the loop over the pieces. -/
def splitEnv (blob : Str) : Env := (blob.splitOn recordSep).foldl setPiece fun _ => none

def childFlags (blob : Str) : RunFlags := RunFlags.parse ((splitEnv blob runFlagsVar).getD [])

/-- After the removal of `CALISTO_RUN_FLAGS`. -/
def childEnv (blob : Str) : Env := update (splitEnv blob) runFlagsVar none

/-! ### What is meant -/

/-- The client's environment without the filtered variables and without `CALISTO_RUN_FLAGS`, overlaid by `extra`. -/
def intendedEnv (vars extra : List (Str × Str)) : Env := fun k =>
  (bindAll (fun _ => none) extra k).or
    (if k ∈ filteredVars ∨ k = runFlagsVar then none else bindAll (fun _ => none) vars k)

def Delivered (vars extra : List (Str × Str)) (flags : RunFlags) : Prop :=
  childEnv (envBlob vars extra flags) = intendedEnv vars extra ∧ childFlags (envBlob vars extra flags) = flags

/-- A name and a value that an environment can hold. -/
def Environ (p : Str × Str) : Prop := p.1 ≠ [] ∧ '=' ∉ p.1 ∧ nul ∉ p.1 ∧ nul ∉ p.2

/-- ... and that do not contain the separator of the pairs. -/
def Clean (p : Str × Str) : Prop := Environ p ∧ recordSep ∉ p.1 ∧ recordSep ∉ p.2

instance (p : Str × Str) : Decidable (Environ p) := inferInstanceAs (Decidable (_ ∧ _))

instance (p : Str × Str) : Decidable (Clean p) := inferInstanceAs (Decidable (_ ∧ _))

/-! ### Splitting what was joined -/

private theorem cString_of_not_mem {s : Str} (h : nul ∉ s) : cString s = s := if_neg h

private theorem setPiece_pairText {p : Str × Str} (hp : Environ p) (env : Env) :
    setPiece env (pairText p) = update env p.1 (some p.2) := by
  obtain ⟨hne, heq, hk, hv⟩ := hp
  unfold setPiece pairText
  rw [splitOnce_append heq]
  simp [cString_of_not_mem hk, cString_of_not_mem hv, setenv, hne, heq]

private theorem foldl_setPiece {l : List (Str × Str)} (h : ∀ p ∈ l, Environ p) (env : Env) :
    (l.map pairText).foldl setPiece env = bindAll env l := by
  induction l generalizing env with
  | nil => rfl
  | cons p l ih =>
    rw [List.map_cons, List.foldl_cons, setPiece_pairText (h p List.mem_cons_self), bindAll_cons]
    exact ih (fun q hq => h q (List.mem_cons_of_mem p hq)) _

/-- Clean pairs arrive as they were sent. -/
theorem splitEnv_envBlob {vars extra : List (Str × Str)} {flags : RunFlags}
    (h : ∀ p ∈ sentPairs vars extra flags, Clean p) :
    splitEnv (envBlob vars extra flags) = bindAll (fun _ => none) (sentPairs vars extra flags) := by
  unfold splitEnv envBlob
  by_cases hnil : sentPairs vars extra flags = []
  · rw [hnil]
    rfl
  · have hsep : ∀ text ∈ (sentPairs vars extra flags).map pairText, recordSep ∉ text := by
      intro text htext
      obtain ⟨p, hp, rfl⟩ := List.mem_map.1 htext
      obtain ⟨-, hk, hv⟩ := h p hp
      have hne : recordSep ≠ '=' := by decide
      simp [pairText, hk, hv, hne]
    rw [List.splitOn_intercalate recordSep hsep (by simpa using hnil)]
    exact foldl_setPiece (fun p hp => (h p hp).1) _

private theorem runFlagsVar_not_filtered : runFlagsVar ∉ filteredVars := by decide

private theorem clean_runFlagsVar : Clean (runFlagsVar, []) := by decide

/-- Outside of `CALISTO_RUN_FLAGS`, the sent pairs make up the intended environment. -/
theorem bindAll_sentPairs {vars extra : List (Str × Str)} {flags : RunFlags} {k : Str} (hk : k ≠ runFlagsVar) :
    bindAll (fun _ => none) (sentPairs vars extra flags) k = intendedEnv vars extra k := by
  have hlast : ∀ env : Env, bindAll env (if flags.any then [(runFlagsVar, flags.blob)] else []) k = env k := by
    intro env
    cases flags.any with
    | false => rfl
    | true => exact update_of_ne hk _ _
  unfold sentPairs intendedEnv
  rw [bindAll_append, hlast, bindAll_append, bindAll_eq_or,
    bindAll_filter (p := fun name : Str => decide (name ∉ filteredVars))]
  by_cases hf : k ∈ filteredVars
  · simp [hf]
  · simp [hf, hk]

private theorem bindAll_sentPairs_flags {vars extra : List (Str × Str)} {flags : RunFlags} :
    bindAll (fun _ => none) (sentPairs vars extra flags) runFlagsVar =
      if flags.any then some flags.blob
      else (bindAll (fun _ => none) extra runFlagsVar).or (bindAll (fun _ => none) vars runFlagsVar) := by
  unfold sentPairs
  rw [bindAll_append]
  cases flags.any with
  | true => simp
  | false =>
    simp only [Bool.false_eq_true, ↓reduceIte, bindAll_nil]
    rw [bindAll_append, bindAll_eq_or, bindAll_filter (p := fun name : Str => decide (name ∉ filteredVars))]
    simp [runFlagsVar_not_filtered]

private theorem intendedEnv_flags (vars : List (Str × Str)) {extra : List (Str × Str)} :
    intendedEnv vars extra runFlagsVar = none ↔ ∀ p ∈ extra, p.1 ≠ runFlagsVar := by
  unfold intendedEnv
  rw [if_pos (.inr rfl), Option.or_none, bindAll_eq_none]

/-! ### What the child can see -/

private theorem cString_mem {s : Str} {c : Char} (h : c ∈ cString s) : c ∈ s ∧ nul ∉ s := by
  unfold cString at h
  split at h
  · simp at h
  · rename_i hs
    exact ⟨h, hs⟩

private theorem nul_not_mem_cString (s : Str) : nul ∉ cString s := fun h => (cString_mem h).2 (cString_mem h).1

private theorem clean_setPiece {env : Env} {piece : Str} (henv : ∀ k v, env k = some v → Clean (k, v))
    (hpiece : recordSep ∉ piece) : ∀ k v, setPiece env piece k = some v → Clean (k, v) := by
  intro k v h
  unfold setPiece at h
  cases hsplit : splitOnce '=' piece with
  | none =>
    rw [hsplit] at h
    exact henv k v h
  | some pair =>
    obtain ⟨name, value⟩ := pair
    rw [hsplit] at h
    obtain ⟨rfl, hname⟩ := splitOnce_eq_some hsplit
    simp only [List.mem_append, List.mem_cons, not_or] at hpiece
    simp only [setenv] at h
    by_cases hbad : cString name = [] ∨ '=' ∈ cString name
    · rw [if_pos hbad] at h
      exact henv k v h
    · rw [if_neg hbad] at h
      have hok := not_or.1 hbad
      by_cases hk : k = cString name
      · subst hk
        rw [update_self, Option.some.injEq] at h
        subst h
        refine ⟨⟨hok.1, hok.2, nul_not_mem_cString name, nul_not_mem_cString value⟩, ?_, ?_⟩
        · exact fun hmem => hpiece.1 (cString_mem hmem).1
        · exact fun hmem => hpiece.2.2 (cString_mem hmem).1
      · rw [update_of_ne hk] at h
        exact henv k v h

/-- Whatever is sent, the child's variables are clean. -/
theorem clean_splitEnv (blob k v : Str) (h : splitEnv blob k = some v) : Clean (k, v) := by
  have hfold : ∀ (pieces : List Str) (env : Env), (∀ piece ∈ pieces, recordSep ∉ piece) →
      (∀ k v, env k = some v → Clean (k, v)) → ∀ k v, pieces.foldl setPiece env k = some v → Clean (k, v) := by
    intro pieces
    induction pieces with
    | nil => exact fun env _ henv => henv
    | cons piece pieces ih =>
      intro env hpieces henv
      apply ih
      · exact fun q hq => hpieces q (List.mem_cons_of_mem piece hq)
      · exact clean_setPiece henv (hpieces piece List.mem_cons_self)
  exact hfold _ _ (fun piece hpiece => not_mem_of_mem_splitOn hpiece) (fun k v h => by cases h) k v h

/-- Whatever is sent, the strings of the child's flags contain none of the separators. -/
theorem clean_childFlags {blob v : Str} (h : v ∈ (childFlags blob).values) :
    nul ∉ v ∧ recordSep ∉ v ∧ unitSep ∉ v := by
  obtain ⟨hunit, hsub⟩ := mem_values_parse h
  cases hflags : splitEnv blob runFlagsVar with
  | none =>
    rw [hflags] at hsub
    exact ⟨fun hmem => List.not_mem_nil (hsub _ hmem), fun hmem => List.not_mem_nil (hsub _ hmem), hunit⟩
  | some value =>
    rw [hflags] at hsub
    obtain ⟨⟨-, -, -, hnul⟩, -, hrec⟩ := clean_splitEnv blob runFlagsVar value hflags
    exact ⟨fun hmem => hnul (hsub _ hmem), fun hmem => hrec (hsub _ hmem), hunit⟩

/-! ### Delivery -/

/-- What it takes to deliver clean pairs: `extra` does not set `CALISTO_RUN_FLAGS`, no value of a flag contains the
separator of the flags, and if no flags are sent the client's own `CALISTO_RUN_FLAGS` means none either. -/
def Unambiguous (vars extra : List (Str × Str)) (flags : RunFlags) : Prop :=
  (∀ p ∈ extra, p.1 ≠ runFlagsVar) ∧ (∀ v ∈ flags.values, unitSep ∉ v) ∧
    (flags.any ∨ RunFlags.parse ((bindAll (fun _ => none) vars runFlagsVar).getD []) = .default)

private theorem delivered_of_unambiguous {vars extra : List (Str × Str)} {flags : RunFlags} (hf : flags.Built)
    (hclean : ∀ p ∈ sentPairs vars extra flags, Clean p) (h : Unambiguous vars extra flags) :
    Delivered vars extra flags := by
  obtain ⟨hextra, hunit, hown⟩ := h
  constructor
  · funext k
    unfold childEnv
    rw [splitEnv_envBlob hclean]
    by_cases hk : k = runFlagsVar
    · rw [hk, update_self, (intendedEnv_flags vars).2 hextra]
    · rw [update_of_ne hk, bindAll_sentPairs hk]
  · unfold childFlags
    rw [splitEnv_envBlob hclean, bindAll_sentPairs_flags]
    by_cases hany : flags.any
    · rw [if_pos hany]
      exact (parse_blob_iff hf).2 hunit
    · rw [if_neg hany, bindAll_eq_none.2 hextra, Option.none_or, hown.resolve_left hany,
        eq_default_of_not_any (f := flags) (by simpa using hany)]

private theorem unambiguous_of_delivered {vars extra : List (Str × Str)} {flags : RunFlags}
    (hclean : ∀ p ∈ sentPairs vars extra flags, Clean p) (h : Delivered vars extra flags) :
    Unambiguous vars extra flags := by
  obtain ⟨henv, hflags⟩ := h
  have hextra : ∀ p ∈ extra, p.1 ≠ runFlagsVar := by
    rw [← intendedEnv_flags vars, ← henv]
    exact update_self _ _ _
  refine ⟨hextra, ?_, ?_⟩
  · intro v hv
    rw [← hflags] at hv
    exact (clean_childFlags hv).2.2
  · by_cases hany : flags.any
    · exact .inl hany
    · right
      unfold childFlags at hflags
      rw [splitEnv_envBlob hclean, bindAll_sentPairs_flags, if_neg hany, bindAll_eq_none.2 hextra,
        Option.none_or] at hflags
      rw [hflags, eq_default_of_not_any (f := flags) (by simpa using hany)]

/-- The intended environment does not show the pair, and it is not the one with the flags. -/
def Hidden (vars extra : List (Str × Str)) (flags : RunFlags) (p : Str × Str) : Prop :=
  intendedEnv vars extra p.1 ≠ some p.2 ∧ p ≠ (runFlagsVar, flags.blob)

private theorem clean_of_delivered {vars extra : List (Str × Str)} {flags : RunFlags} (hf : flags.Built)
    (h : Delivered vars extra flags) {p : Str × Str} (hp : ¬ Hidden vars extra flags p) : Clean p := by
  obtain ⟨henv, hflags⟩ := h
  by_cases hshown : intendedEnv vars extra p.1 = some p.2
  · rw [← henv] at hshown
    unfold childEnv at hshown
    by_cases hk : p.1 = runFlagsVar
    · rw [hk, update_self] at hshown
      cases hshown
    · rw [update_of_ne hk] at hshown
      exact clean_splitEnv _ p.1 p.2 hshown
  · have hpair : p = (runFlagsVar, flags.blob) := by
      by_contra hne
      exact hp ⟨hshown, hne⟩
    subst hpair
    have hvalues : ∀ v ∈ flags.values, nul ∉ v ∧ recordSep ∉ v := by
      intro v hv
      rw [← hflags] at hv
      exact ⟨(clean_childFlags hv).1, (clean_childFlags hv).2.1⟩
    obtain ⟨⟨hne, heq, hnul, -⟩, hrec, -⟩ := clean_runFlagsVar
    refine ⟨⟨hne, heq, hnul, ?_⟩, hrec, ?_⟩
    · exact not_mem_blob hf (by decide) fun v hv => (hvalues v hv).1
    · exact not_mem_blob hf (by decide) fun v hv => (hvalues v hv).2

/-- For the flags that `cmd_run` builds from its arguments: environment and flags are delivered if all pairs that are
sent are clean and they are unambiguous; and if they are delivered, all pairs are clean except for hidden ones, and
unambiguous if all are clean. -/
theorem env_flags_delivered {args rest : List Str} {o : RunOpts} (h : cmdRunLoop .empty args = .done o rest)
    (vars extra : List (Str × Str)) :
    ((∀ p ∈ sentPairs vars extra o.flags, Clean p) ∧ Unambiguous vars extra o.flags →
      Delivered vars extra o.flags) ∧
    (Delivered vars extra o.flags →
      (∀ p ∈ sentPairs vars extra o.flags, Clean p ∨ Hidden vars extra o.flags p) ∧
        ((∀ p ∈ sentPairs vars extra o.flags, Clean p) → Unambiguous vars extra o.flags)) := by
  have hbuilt : o.flags.Built := built_of_cmdRunLoop h nofun
  constructor
  · rintro ⟨hclean, hun⟩
    exact delivered_of_unambiguous hbuilt hclean hun
  · intro hdel
    refine ⟨fun p _ => ?_, fun hclean => unambiguous_of_delivered hclean hdel⟩
    by_cases hp : Hidden vars extra o.flags p
    · exact .inr hp
    · exact .inl (clean_of_delivered hbuilt hdel hp)

theorem env_flags_delivered_run : ∃ o rest,
    cmdRunLoop .empty ["-w".toList, "-Ilib".toList, "a.rb".toList] = .done o rest ∧
    o.flags.verbose = some (-1) ∧ Delivered [("A".toList, "b".toList)] [("C".toList, "d".toList)] o.flags ∧
      ∀ p ∈ sentPairs [("A".toList, "b".toList)] [("C".toList, "d".toList)] o.flags,
        Clean p ∨ Hidden [("A".toList, "b".toList)] [("C".toList, "d".toList)] o.flags p := by
  refine ⟨_, _, rfl, rfl, ?_⟩
  have hloop : cmdRunLoop .empty ["-w".toList, "-Ilib".toList, "a.rb".toList] = .done _ _ := rfl
  obtain ⟨henough, hneeded⟩ := env_flags_delivered hloop [("A".toList, "b".toList)] [("C".toList, "d".toList)]
  have hdel := henough ⟨by decide, by decide, by decide, by decide⟩
  exact ⟨hdel, (hneeded hdel).1⟩

/-- A variable whose value contains U+001E arrives cut off, without any flags or extra pairs. -/
theorem separator_in_value_cut :
    cmdRunLoop .empty ["a.rb".toList] = .done .empty ["a.rb".toList] ∧
      ¬ Delivered [("A".toList, ['b', recordSep, 'c'])] [] RunOpts.empty.flags := by
  refine ⟨rfl, fun h => ?_⟩
  have hA := congrFun h.1 "A".toList
  exact absurd hA (by decide)

end Calisto.Run

import Calisto.Run.Args

/-!
# The cold run and the command line of ruby

The argument vectors of `run_cold` and `run_cold_eval`, and how ruby reads an argument vector, as far as it decides what
is executed: options are consumed up to the first argument that is none (a lone `-` is none) or up to a `--`; `-I`,
`-r`, `-E` and `-e` take an operand, attached or as the next argument; with `-e` all that remains is ARGV, otherwise
its first entry is the script.

`run_cold` ends its own options with the script itself and `run_cold_eval` with the code, without a `--`.  So ruby goes
on reading options where `cmd_run` had stopped at a `--`, and this is the only way in which the cold and the warm run
differ (`cold_warm_agree_iff`).
-/

namespace Calisto.Run

/-! ### The argument vectors -/

/-- The options that both cold runs pass before the script or the code. -/
def coldOptions (shims : Str) (gemfile : Bool) (f : RunFlags) : List Str :=
  (match f.verbose with
    | some n => if n = -1 then ["-w".toList] else ["-W".toList ++ displayI8 n]
    | none => []) ++
    ["-I".toList, shims] ++
    (if gemfile then ["-rbundler/setup".toList] else []) ++
    (match f.encoding with
      | some enc => ["-E".toList, enc]
      | none => []) ++
    f.loadPaths.flatMap (fun d => ["-I".toList, d]) ++
    f.requires.flatMap (fun l => ["-r".toList, l]) ++
    if f.syntaxCheck then ["-c".toList] else []

/-- `shims` is `native_shims_dir`, `gemfile` the result of `has_gemfile_from` for the working directory. -/
def runCold (shims : Str) (gemfile : Bool) (script : Str) (args : List Str) (f : RunFlags) : List Str :=
  coldOptions shims gemfile f ++ script :: args

def runColdEval (shims : Str) (gemfile : Bool) (code : Str) (args : List Str) (f : RunFlags) : List Str :=
  coldOptions shims gemfile f ++ "-e".toList :: code :: args

def coldArgv (shims : Str) (gemfile : Bool) (f : RunFlags) : Subject → List Str → List Str
  | .script s, args => runCold shims gemfile s args f
  | .code c, args => runColdEval shims gemfile c args f

/-! ### Ruby's side -/

def isOption (a : Str) : Bool := startsWithDash a && a ≠ "-".toList

/-- The letter of an option with an operand, and what is attached to it. -/
def operandLetter : Str → Option (Char × Str)
  | _ :: c :: v => if c = 'I' ∨ c = 'r' ∨ c = 'E' ∨ c = 'e' then some (c, v) else none
  | _ => none

def addCode (codes : List Str) (c : Char) (v : Str) : List Str := if c = 'e' then codes ++ [v] else codes

/-- Ruby's option loop: the codes of the `-e` options and the rest, unless an operand is missing. -/
def rubyOptions (codes : List Str) : List Str → Option (List Str × List Str)
  | [] => some (codes, [])
  | a :: args =>
    if !isOption a then some (codes, a :: args)
    else if a = "--".toList then some (codes, args)
    else match operandLetter a with
      | none => rubyOptions codes args
      | some (c, v) =>
        if v ≠ [] then rubyOptions (addCode codes c v) args
        else match args with
          | v :: args => rubyOptions (addCode codes c v) args
          | [] => none

/-- What ruby executes, and its ARGV. -/
def rubySelects (argv : List Str) : Option (Subject × List Str) :=
  match rubyOptions [] argv with
  | some ([], s :: rest) => some (.script s, rest)
  | some ([], []) => none
  | some (codes, rest) => some (.code (joinCode codes), rest)
  | none => none

/-! ### Reading options -/

private theorem rubyOptions_operand {a : Str} {c : Char} (ha : isOption a) (hl : operandLetter a = some (c, []))
    (codes : List Str) (v : Str) (rest : List Str) :
    rubyOptions codes (a :: v :: rest) = rubyOptions (addCode codes c v) rest := by
  have hne : a ≠ "--".toList := by
    rintro rfl
    have hnone : operandLetter "--".toList = none := by decide
    rw [hnone] at hl
    cases hl
  rw [rubyOptions, if_neg (by rw [ha]; nofun), if_neg hne, hl]
  simp

private theorem rubyOptions_word {a : Str} (ha : isOption a) (hne : a ≠ "--".toList) (hl : operandLetter a = none)
    (codes rest : List Str) : rubyOptions codes (a :: rest) = rubyOptions codes rest := by
  rw [rubyOptions, if_neg (by rw [ha]; nofun), if_neg hne, hl]

private theorem rubyOptions_flatMap {a : Str} {c : Char} (ha : isOption a) (hl : operandLetter a = some (c, []))
    (hc : c ≠ 'e') (vs codes rest : List Str) :
    rubyOptions codes (vs.flatMap (fun v => [a, v]) ++ rest) = rubyOptions codes rest := by
  induction vs with
  | nil => rfl
  | cons v vs ih =>
    show rubyOptions codes (a :: v :: (vs.flatMap (fun v => [a, v]) ++ rest)) = _
    rw [rubyOptions_operand ha hl, addCode, if_neg hc, ih]

private theorem rubyOptions_verbose (verbose : Option Int) (codes rest : List Str) :
    rubyOptions codes ((match verbose with
      | some n => if n = -1 then ["-w".toList] else ["-W".toList ++ displayI8 n]
      | none => []) ++ rest) = rubyOptions codes rest := by
  cases verbose with
  | none => rfl
  | some n =>
    by_cases hn : n = -1
    · simp only [hn, ↓reduceIte]
      exact rubyOptions_word (by decide) (by decide) (by decide) codes rest
    · simp only [hn, ↓reduceIte]
      refine rubyOptions_word ?_ ?_ ?_ codes rest
      · simp [isOption, startsWithDash]
      · simp
      · simp [operandLetter]

private theorem rubyOptions_encoding (encoding : Option Str) (codes rest : List Str) :
    rubyOptions codes ((match encoding with
      | some enc => ["-E".toList, enc]
      | none => []) ++ rest) = rubyOptions codes rest := by
  cases encoding with
  | none => rfl
  | some enc => exact rubyOptions_operand (c := 'E') (by decide) (by decide) codes enc rest

/-- The options of the cold runs contain no code, and ruby reads on after them. -/
theorem rubyOptions_coldOptions (shims : Str) (gemfile : Bool) (f : RunFlags) (codes rest : List Str) :
    rubyOptions codes (coldOptions shims gemfile f ++ rest) = rubyOptions codes rest := by
  have hgem : ∀ rest, rubyOptions codes ((if gemfile then ["-rbundler/setup".toList] else []) ++ rest) =
      rubyOptions codes rest := by
    intro rest
    cases gemfile with
    | false => rfl
    | true =>
      show rubyOptions codes ("-rbundler/setup".toList :: rest) = _
      rw [rubyOptions, if_neg (by decide), if_neg (by decide)]
      rfl
  have hcheck : ∀ rest, rubyOptions codes ((if f.syntaxCheck then ["-c".toList] else []) ++ rest) =
      rubyOptions codes rest := by
    intro rest
    cases f.syntaxCheck with
    | false => rfl
    | true => exact rubyOptions_word (by decide) (by decide) (by decide) codes rest
  unfold coldOptions
  simp only [List.append_assoc]
  rw [rubyOptions_verbose, List.cons_append, List.cons_append, List.nil_append,
    rubyOptions_operand (c := 'I') (by decide) (by decide), addCode, if_neg (by decide), hgem, rubyOptions_encoding,
    rubyOptions_flatMap (c := 'I') (by decide) (by decide) (by decide),
    rubyOptions_flatMap (c := 'r') (by decide) (by decide) (by decide), hcheck]

/-- Ruby never gives back more than it was given, and less if it begins with an option. -/
theorem rubyOptions_length {codes codes' args rest : List Str} (h : rubyOptions codes args = some (codes', rest)) :
    rest.length ≤ args.length ∧ ∀ a ∈ args.head?, isOption a → rest.length < args.length := by
  fun_induction rubyOptions codes args with
  | case1 => cases h; exact ⟨Nat.le_refl _, nofun⟩
  | case2 codes a args hno =>
    cases h
    refine ⟨Nat.le_refl _, ?_⟩
    rintro b hb hopt
    cases hb
    rw [hopt] at hno
    cases hno
  | case3 => cases h; simp
  | case4 codes a args hopt hne hl ih =>
    have := (ih h).1
    simp only [List.length_cons]
    exact ⟨by omega, fun _ _ _ => by omega⟩
  | case5 codes a args hopt hne c v hl hv ih =>
    have := (ih h).1
    simp only [List.length_cons]
    exact ⟨by omega, fun _ _ _ => by omega⟩
  | case6 codes a hopt hne c v hl hv w args ih =>
    have := (ih h).1
    simp only [List.length_cons]
    exact ⟨by omega, fun _ _ _ => by omega⟩
  | case7 => cases h

/-! ### The two runs -/

private theorem rubySelects_script {s : Str} (hs : isOption s = false) (shims : Str) (gemfile : Bool) (args : List Str)
    (f : RunFlags) : rubySelects (runCold shims gemfile s args f) = some (.script s, args) := by
  unfold rubySelects runCold
  rw [rubyOptions_coldOptions, rubyOptions, if_pos (by rw [hs]; rfl)]

private theorem rubySelects_code {args : List Str} (hargs : ∀ a ∈ args.head?, isOption a = false) (shims : Str)
    (gemfile : Bool) (code : Str) (f : RunFlags) :
    rubySelects (runColdEval shims gemfile code args f) = some (.code code, args) := by
  have hrest : rubyOptions [code] args = some ([code], args) := by
    cases args with
    | nil => rfl
    | cons a args => rw [rubyOptions, if_pos (by rw [hargs a rfl]; rfl)]
  unfold rubySelects runColdEval
  rw [rubyOptions_coldOptions, rubyOptions_operand (c := 'e') (by decide) (by decide)]
  show (match rubyOptions [code] args with
    | some ([], s :: rest) => some (Subject.script s, rest)
    | some ([], []) => none
    | some (codes, rest) => some (.code (joinCode codes), rest)
    | none => none) = _
  rw [hrest]
  simp [joinCode]

/-- A script with the name of an option is consumed as one. -/
theorem rubySelects_script_ne {s : Str} (hs : isOption s) (shims : Str) (gemfile : Bool) (args : List Str)
    (f : RunFlags) : rubySelects (runCold shims gemfile s args f) ≠ some (.script s, args) := by
  unfold rubySelects runCold
  rw [rubyOptions_coldOptions]
  intro h
  split at h
  · rename_i s' rest heq
    have := (rubyOptions_length heq).2 s rfl hs
    simp only [Option.some.injEq, Prod.mk.injEq] at h
    rw [h.2] at this
    simp at this
  · simp at h
  · simp at h
  · simp at h

/-- An option after the code is consumed as one. -/
theorem rubySelects_code_ne {a : Str} (ha : isOption a) (shims : Str) (gemfile : Bool) (code : Str) (post : List Str)
    (f : RunFlags) : rubySelects (runColdEval shims gemfile code (a :: post) f) ≠ some (.code code, a :: post) := by
  unfold rubySelects runColdEval
  rw [rubyOptions_coldOptions, rubyOptions_operand (c := 'e') (by decide) (by decide)]
  intro h
  split at h
  · simp at h
  · simp at h
  · rename_i codes rest hne heq
    have := (rubyOptions_length heq).2 a rfl ha
    simp only [Option.some.injEq, Prod.mk.injEq] at h
    rw [h.2] at this
    omega
  · simp at h

/-- What an accepted list stands for. -/
theorem cmdRun_run {isFile : Str → Bool} {args argv : List Str} {o : RunOpts} {subject : Subject}
    (h : cmdRun isFile args = .run o subject argv) : ∃ rest, cmdRunLoop .empty args = .done o rest ∧
      (subject = .code (joinCode o.evalParts) ∧ rest = argv ∨ ∃ s, subject = .script s ∧ rest = s :: argv) := by
  unfold cmdRun at h
  split at h
  · simp at h
  · simp at h
  · rename_i o' rest hloop
    split at h
    · cases h
      exact ⟨_, hloop, .inl ⟨rfl, rfl⟩⟩
    · split at h
      · split at h
        · cases h
          exact ⟨_, hloop, .inr ⟨_, rfl, rfl⟩⟩
        · simp at h
      · simp at h

/-- The rest begins with an option exactly when it follows a `--`. -/
theorem rest_option_iff {o o' : RunOpts} {args rest : List Str} (h : cmdRunLoop o args = .done o' rest) :
    (∃ a ∈ rest.head?, isOption a) ↔
      ∃ ws a post, FlagWords ws ∧ args = ws ++ "--".toList :: a :: post ∧ isOption a := by
  constructor
  · rintro ⟨a, ha, hopt⟩
    obtain ⟨ws, hws, hargs | ⟨-, hdash⟩⟩ := cmdRunLoop_split h
    · cases rest with
      | nil => cases ha
      | cons b post => cases ha; exact ⟨ws, a, post, hws, hargs, hopt⟩
    · have := hdash a ha
      simp [isOption, this] at hopt
  · rintro ⟨ws, a, post, hws, rfl, hopt⟩
    obtain ⟨o1, h1⟩ := cmdRunLoop_append hws o
    rw [h1, cmdRunLoop, if_neg (by decide), if_pos rfl] at h
    cases h
    exact ⟨a, rfl, hopt⟩

/-- The cold run executes the script or the code of the warm run with the same ARGV, unless the arguments have, after
their flags, a `--` with an argument behind it that begins with a dash and is more than the dash. -/
theorem cold_warm_agree_iff {isFile : Str → Bool} {args argv : List Str} {o : RunOpts} {subject : Subject}
    (h : cmdRun isFile args = .run o subject argv) (shims : Str) (gemfile : Bool) :
    rubySelects (coldArgv shims gemfile o.flags subject argv) = some (subject, argv) ↔
      ¬ ∃ ws a post, FlagWords ws ∧ args = ws ++ "--".toList :: a :: post ∧ isOption a := by
  obtain ⟨rest, hloop, hrest⟩ := cmdRun_run h
  rw [← rest_option_iff hloop]
  rcases hrest with ⟨rfl, rfl⟩ | ⟨s, rfl, rfl⟩
  · by_cases hopt : ∃ a ∈ rest.head?, isOption a
    · refine iff_of_false ?_ (not_not_intro hopt)
      obtain ⟨a, ha, hopt⟩ := hopt
      cases rest with
      | nil => cases ha
      | cons b post => cases ha; exact rubySelects_code_ne hopt shims gemfile _ post o.flags
    · refine iff_of_true ?_ hopt
      refine rubySelects_code ?_ shims gemfile _ o.flags
      intro a ha
      by_contra hno
      exact hopt ⟨a, ha, by simpa using hno⟩
  · by_cases hopt : isOption s
    · exact iff_of_false (rubySelects_script_ne hopt shims gemfile argv o.flags) fun hno => hno ⟨s, rfl, hopt⟩
    · refine iff_of_true (rubySelects_script (by simpa using hopt) shims gemfile argv o.flags) ?_
      rintro ⟨a, ha, h⟩
      cases ha
      exact hopt h

theorem cold_warm_agree_script :
    rubySelects (coldArgv [] false .default (.script "a.rb".toList) ["-x".toList]) =
        some (.script "a.rb".toList, ["-x".toList]) ∧
      ¬ ∃ ws a post, FlagWords ws ∧ ["a.rb".toList, "-x".toList] = ws ++ "--".toList :: a :: post ∧ isOption a := by
  have h : cmdRun (fun s => s = "a.rb".toList) ["a.rb".toList, "-x".toList] =
      .run .empty (.script "a.rb".toList) ["-x".toList] := rfl
  have hagree : rubySelects (coldArgv [] false .default (.script "a.rb".toList) ["-x".toList]) =
      some (.script "a.rb".toList, ["-x".toList]) := by decide
  exact ⟨hagree, (cold_warm_agree_iff h [] false).1 hagree⟩

/-- `calisto run -e 'p ARGV' -- -x`: the warm run passes `-x` in ARGV, in the cold run it is an option of ruby. -/
theorem cold_consumes_dash_argument : ∃ (args argv : List Str) (o : RunOpts) (subject : Subject),
    cmdRun (fun _ => false) args = .run o subject argv ∧
      rubySelects (coldArgv [] false o.flags subject argv) ≠ some (subject, argv) := by
  refine ⟨["-e".toList, "p ARGV".toList, "--".toList, "-x".toList], ["-x".toList], _, _, rfl, ?_⟩
  decide

end Calisto.Run

import Calisto.Run.Flags

/-!
# The arguments of `calisto run`

The loop of `cmd_run` over its arguments, with every flag, its operand or attached form and its error text, and what
the rest of the arguments stands for: with `-e` all of it is ARGV, otherwise its first entry is the script.  Only runs
without a script of the `calisto.toml` are modelled, so a script must be a file.

`FlagWords` describes the argument lists that consist of flags and their operands.  The loop takes such a list off the
front, whatever follows (`cmdRunLoop_append`), and an accepted list is one followed by the rest, with or without a `--`
in between (`cmdRunLoop_split`).
-/

namespace Calisto.Run

/-- What the loop collects. -/
structure RunOpts where
  cold : Bool
  showTime : Bool
  preloadOpt : Option Str
  evalParts : List Str
  flags : RunFlags

def RunOpts.empty : RunOpts :=
  { cold := false, showTime := false, preloadOpt := none, evalParts := [], flags := .default }

inductive Parse
  /-- the error is printed, and the exit status is 1 -/
  | usage (msg : Str)
  /-- `cmd_run_version` -/
  | version
  | done (o : RunOpts) (rest : List Str)

def startsWithDash : Str → Bool
  | c :: _ => c = '-'
  | [] => false

/-- The attached forms: `-Ilib`, `-rlib`, `-W0` to `-W2`, `-Eutf-8`. -/
def attached (f : RunFlags) (a : Str) : Option RunFlags :=
  match stripPrefix "-I".toList a with
  | some v => if v ≠ [] then some { f with loadPaths := f.loadPaths ++ [v] } else none
  | none => match stripPrefix "-r".toList a with
    | some v => if v ≠ [] then some { f with requires := f.requires ++ [v] } else none
    | none => match stripPrefix "-W".toList a with
      | some v => match parseI8 v with
        | some n => if 0 ≤ n ∧ n ≤ 2 then some { f with verbose := some n } else none
        | none => none
      | none => match stripPrefix "-E".toList a with
        | some v => if v ≠ [] then some { f with encoding := some v } else none
        | none => none

/-- The flags that take no operand. -/
def bareFlag (o : RunOpts) (a : Str) : Option RunOpts :=
  if a = "--cold".toList then some { o with cold := true }
  else if a = "--time".toList then some { o with showTime := true }
  else if a = "-w".toList then some { o with flags := { o.flags with verbose := some (-1) } }
  else if a = "-c".toList then some { o with flags := { o.flags with syntaxCheck := true } }
  else none

/-- The flags that take the next argument as their operand: what they do with it, and the error without one. -/
def operandFlag (o : RunOpts) (a : Str) : Option ((Str → RunOpts) × Str) :=
  if a = "-e".toList ∨ a = "--eval".toList then
    some (fun code => { o with evalParts := o.evalParts ++ [code] }, "calisto: -e needs code".toList)
  else if a = "--preload".toList then
    some (fun v => { o with preloadOpt := some v }, "calisto: --preload needs a value".toList)
  else if a = "-I".toList then
    some (fun v => { o with flags := { o.flags with loadPaths := o.flags.loadPaths ++ [v] } },
      "calisto: -I needs a directory".toList)
  else if a = "-r".toList then
    some (fun v => { o with flags := { o.flags with requires := o.flags.requires ++ [v] } },
      "calisto: -r needs a library name".toList)
  else if a = "-E".toList then
    some (fun v => { o with flags := { o.flags with encoding := some v } },
      "calisto: -E needs an encoding name".toList)
  else none

/-- The loop of `cmd_run`. -/
def cmdRunLoop (o : RunOpts) : List Str → Parse
  | [] => .done o []
  | a :: args =>
    if !startsWithDash a then .done o (a :: args)
    else if a = "--".toList then .done o args
    else match bareFlag o a with
      | some o' => cmdRunLoop o' args
      | none => match operandFlag o a with
        | some (set, needs) => match args with
          | v :: args => cmdRunLoop (set v) args
          | [] => .usage needs
        | none =>
          if a = "-v".toList ∨ a = "--version".toList then .version
          else match attached o.flags a with
            | some f => cmdRunLoop { o with flags := f } args
            | none => .usage ("calisto: unknown flag '".toList ++ a ++ "'".toList)

/-! ### The run -/

/-- What a run executes: the path of a script, or code.  The warm run sends it as it is, with ARGV, in a RUN or an EVAL
request (`run_request`, `eval_request`). -/
inductive Subject
  | script (path : Str)
  | code (text : Str)
  deriving DecidableEq

inductive Outcome
  | usage (msg : Str)
  | version
  | run (o : RunOpts) (subject : Subject) (argv : List Str)

/-- The pieces of `-e`, as one program. -/
def joinCode (parts : List Str) : Str := ['\n'].intercalate parts

/-- `cmd_run` up to the choice between the cold and the warm run, when no `calisto.toml` gives scripts. -/
def cmdRun (isFile : Str → Bool) (args : List Str) : Outcome :=
  match cmdRunLoop .empty args with
  | .usage msg => .usage msg
  | .version => .version
  | .done o rest =>
    if o.evalParts ≠ [] then .run o (.code (joinCode o.evalParts)) rest
    else match rest with
      | s :: scriptArgs =>
        if isFile s then .run o (.script s) scriptArgs
        else .usage ("calisto: cannot open ".toList ++ s ++ ": no such file (e sem [scripts.".toList ++ s ++
          "] no calisto.toml)".toList)
      | [] =>
        .usage "calisto: run needs a script or -e: calisto run [flags] [-e 'code' | script.rb] [args...]".toList

/-! ### The words of the flags -/

def bareFlags : List Str := ["--cold".toList, "--time".toList, "-w".toList, "-c".toList]

def operandFlags : List Str :=
  ["-e".toList, "--eval".toList, "--preload".toList, "-I".toList, "-r".toList, "-E".toList]

/-- The argument lists made of flags and their operands. -/
inductive FlagWords : List Str → Prop
  | nil : FlagWords []
  | bare {a : Str} {ws : List Str} : a ∈ bareFlags → FlagWords ws → FlagWords (a :: ws)
  | operand {a v : Str} {ws : List Str} : a ∈ operandFlags → FlagWords ws → FlagWords (a :: v :: ws)
  | attached {a : Str} {ws : List Str} : (attached .default a).isSome → FlagWords ws → FlagWords (a :: ws)

private theorem mem_bareFlags {o : RunOpts} {a : Str} : a ∈ bareFlags ↔ (bareFlag o a).isSome := by
  unfold bareFlag
  constructor
  · intro h
    simp only [bareFlags, List.mem_cons, List.not_mem_nil, or_false] at h
    rcases h with rfl | rfl | rfl | rfl <;> rfl
  · intro h
    split at h
    · rename_i ha; simp [ha, bareFlags]
    · split at h
      · rename_i ha; simp [ha, bareFlags]
      · split at h
        · rename_i ha; simp [ha, bareFlags]
        · split at h
          · rename_i ha; simp [ha, bareFlags]
          · simp at h

private theorem mem_operandFlags {o : RunOpts} {a : Str} : a ∈ operandFlags ↔ (operandFlag o a).isSome := by
  unfold operandFlag
  constructor
  · intro h
    simp only [operandFlags, List.mem_cons, List.not_mem_nil, or_false] at h
    rcases h with rfl | rfl | rfl | rfl | rfl | rfl <;> rfl
  · intro h
    split at h
    · rename_i ha; rcases ha with ha | ha <;> simp [ha, operandFlags]
    · split at h
      · rename_i ha; simp [ha, operandFlags]
      · split at h
        · rename_i ha; simp [ha, operandFlags]
        · split at h
          · rename_i ha; simp [ha, operandFlags]
          · split at h
            · rename_i ha; simp [ha, operandFlags]
            · simp at h

/-- Whether the attached form is accepted does not depend on the flags so far. -/
theorem attached_isSome (f g : RunFlags) (a : Str) : (attached f a).isSome = (attached g a).isSome := by
  unfold attached
  split
  · split <;> rfl
  · split
    · split <;> rfl
    · split
      · split
        · split <;> rfl
        · rfl
      · split
        · split <;> rfl
        · rfl

private theorem startsWithDash_of_stripPrefix {c : Char} {a v : Str} (h : stripPrefix ['-', c] a = some v) :
    startsWithDash a := by
  rw [stripPrefix_eq_some h]
  rfl

private theorem startsWithDash_of_attached {f : RunFlags} {a : Str} (h : (attached f a).isSome) : startsWithDash a := by
  unfold attached at h
  split at h
  · rename_i hv; exact startsWithDash_of_stripPrefix hv
  · split at h
    · rename_i hv; exact startsWithDash_of_stripPrefix hv
    · split at h
      · rename_i hv; exact startsWithDash_of_stripPrefix hv
      · split at h
        · rename_i hv; exact startsWithDash_of_stripPrefix hv
        · simp at h

/-- The other words that the loop knows. -/
def otherWords : List Str := ["--".toList, "-v".toList, "--version".toList]

theorem attached_of_known : ∀ a ∈ otherWords ++ bareFlags ++ operandFlags, (attached .default a).isSome = false := by
  decide

private theorem bareFlags_words : ∀ a ∈ bareFlags, startsWithDash a ∧ a ≠ "--".toList := by decide

private theorem operandFlags_words : ∀ a ∈ operandFlags, startsWithDash a ∧ a ≠ "--".toList ∧ a ∉ bareFlags := by decide

private theorem bareFlag_eq_none {o : RunOpts} {a : Str} (h : a ∉ bareFlags) : bareFlag o a = none := by
  rwa [← Option.not_isSome_iff_eq_none, ← mem_bareFlags]

private theorem operandFlag_eq_none {o : RunOpts} {a : Str} (h : a ∉ operandFlags) : operandFlag o a = none := by
  rwa [← Option.not_isSome_iff_eq_none, ← mem_operandFlags]

/-! ### One turn of the loop -/

private theorem loop_bare {a : Str} (h : a ∈ bareFlags) (o : RunOpts) :
    ∃ o', bareFlag o a = some o' ∧ ∀ args, cmdRunLoop o (a :: args) = cmdRunLoop o' args := by
  obtain ⟨o', ho'⟩ := Option.isSome_iff_exists.1 (mem_bareFlags.1 h)
  obtain ⟨hdash, hne⟩ := bareFlags_words a h
  refine ⟨o', ho', fun args => ?_⟩
  rw [cmdRunLoop, if_neg (by rw [hdash]; nofun), if_neg hne, ho']

theorem loop_operand {a : Str} (h : a ∈ operandFlags) (o : RunOpts) : ∃ set needs, operandFlag o a = some (set, needs) ∧
    ∀ v args, cmdRunLoop o (a :: v :: args) = cmdRunLoop (set v) args := by
  obtain ⟨⟨set, needs⟩, hset⟩ := Option.isSome_iff_exists.1 (mem_operandFlags.1 h)
  obtain ⟨hdash, hne, hbare⟩ := operandFlags_words a h
  refine ⟨set, needs, hset, fun v args => ?_⟩
  rw [cmdRunLoop, if_neg (by rw [hdash]; nofun), if_neg hne, bareFlag_eq_none hbare, hset]

private theorem loop_attached {a : Str} (h : (attached .default a).isSome) (o : RunOpts) :
    ∃ f, attached o.flags a = some f ∧ ∀ args, cmdRunLoop o (a :: args) = cmdRunLoop { o with flags := f } args := by
  obtain ⟨f, hf⟩ := Option.isSome_iff_exists.1 ((attached_isSome o.flags .default a).trans h)
  have hnew : a ∉ otherWords ++ bareFlags ++ operandFlags := by
    intro hmem
    rw [attached_of_known a hmem] at h
    cases h
  simp only [List.mem_append, not_or] at hnew
  obtain ⟨⟨hother, hbare⟩, hoper⟩ := hnew
  have hne : a ≠ "--".toList := fun ha => hother (by rw [ha]; decide)
  have hver : ¬ (a = "-v".toList ∨ a = "--version".toList) := by
    rintro (ha | ha) <;> exact hother (by rw [ha]; decide)
  refine ⟨f, hf, fun args => ?_⟩
  rw [cmdRunLoop, if_neg (by rw [startsWithDash_of_attached h]; nofun), if_neg hne, bareFlag_eq_none hbare,
    operandFlag_eq_none hoper]
  simp only [hver, ↓reduceIte, hf]

/-! ### The whole loop -/

/-- Flag words in front are taken, whatever follows. -/
theorem cmdRunLoop_append {ws : List Str} (h : FlagWords ws) (o : RunOpts) :
    ∃ o', ∀ rest, cmdRunLoop o (ws ++ rest) = cmdRunLoop o' rest := by
  induction h generalizing o with
  | nil => exact ⟨o, fun rest => rfl⟩
  | bare ha _ ih =>
    obtain ⟨o1, -, h1⟩ := loop_bare ha o
    obtain ⟨o2, h2⟩ := ih o1
    exact ⟨o2, fun rest => by rw [List.cons_append, h1, h2]⟩
  | operand ha _ ih =>
    obtain ⟨set, -, -, h1⟩ := loop_operand ha o
    obtain ⟨o2, h2⟩ := ih (set _)
    exact ⟨o2, fun rest => by rw [List.cons_append, List.cons_append, h1, h2]⟩
  | attached ha _ ih =>
    obtain ⟨f, -, h1⟩ := loop_attached ha o
    obtain ⟨o2, h2⟩ := ih { o with flags := f }
    exact ⟨o2, fun rest => by rw [List.cons_append, h1, h2]⟩

/-- An accepted list consists of flag words and the rest, which follows a `--` or does not begin with a dash. -/
theorem cmdRunLoop_split {o o' : RunOpts} {args rest : List Str} (h : cmdRunLoop o args = .done o' rest) :
    ∃ ws, FlagWords ws ∧
      (args = ws ++ "--".toList :: rest ∨ args = ws ++ rest ∧ ∀ a ∈ rest.head?, startsWithDash a = false) := by
  fun_induction cmdRunLoop o args with
  | case1 o => cases h; exact ⟨[], .nil, .inr ⟨rfl, nofun⟩⟩
  | case2 o a args hdash =>
    cases h
    refine ⟨[], .nil, .inr ⟨rfl, ?_⟩⟩
    rintro b hb
    cases hb
    simpa using hdash
  | case3 o args => cases h; exact ⟨[], .nil, .inl rfl⟩
  | case4 o a args hdash hne o1 ho1 ih =>
    obtain ⟨ws, hws, hargs⟩ := ih h
    refine ⟨a :: ws, .bare (mem_bareFlags.2 (by rw [ho1]; rfl)) hws, ?_⟩
    exact hargs.imp (fun hargs => by rw [hargs]; rfl) fun ⟨hargs, hrest⟩ => ⟨by rw [hargs]; rfl, hrest⟩
  | case5 o a hdash hne hbare set needs hset v args ih =>
    obtain ⟨ws, hws, hargs⟩ := ih h
    refine ⟨a :: v :: ws, .operand (mem_operandFlags.2 (by rw [hset]; rfl)) hws, ?_⟩
    exact hargs.imp (fun hargs => by rw [hargs]; rfl) fun ⟨hargs, hrest⟩ => ⟨by rw [hargs]; rfl, hrest⟩
  | case6 => cases h
  | case7 => cases h
  | case8 o a args hdash hne hbare hoper hver f hf ih =>
    obtain ⟨ws, hws, hargs⟩ := ih h
    have ha : (attached .default a).isSome := by rw [attached_isSome .default o.flags, hf]; rfl
    refine ⟨a :: ws, .attached ha hws, ?_⟩
    exact hargs.imp (fun hargs => by rw [hargs]; rfl) fun ⟨hargs, hrest⟩ => ⟨by rw [hargs]; rfl, hrest⟩
  | case9 => cases h

/-! ### The flags that can be built -/

private theorem built_bareFlag {o o' : RunOpts} {a : Str} (h : bareFlag o a = some o') (ho : o.flags.Built) :
    o'.flags.Built := by
  unfold bareFlag at h
  split at h
  · cases h; exact ho
  · split at h
    · cases h; exact ho
    · split at h
      · cases h
        intro n hn
        cases hn
        omega
      · split at h
        · cases h; exact ho
        · simp at h

private theorem built_operandFlag {o : RunOpts} {a v needs : Str} {set : Str → RunOpts}
    (h : operandFlag o a = some (set, needs)) (ho : o.flags.Built) : (set v).flags.Built := by
  unfold operandFlag at h
  split at h
  · cases h; exact ho
  · split at h
    · cases h; exact ho
    · split at h
      · cases h; exact ho
      · split at h
        · cases h; exact ho
        · split at h
          · cases h; exact ho
          · simp at h

private theorem built_attached {f g : RunFlags} {a : Str} (h : attached f a = some g) (hf : f.Built) : g.Built := by
  unfold attached at h
  split at h
  · split at h
    · cases h; exact hf
    · simp at h
  · split at h
    · split at h
      · cases h; exact hf
      · simp at h
    · split at h
      · split at h
        · split at h
          · cases h
            intro m hm
            cases hm
            omega
          · simp at h
        · simp at h
      · split at h
        · split at h
          · cases h; exact hf
          · simp at h
        · simp at h

/-- The `verbose` of the flags that `cmd_run` builds is in the range of its flags. -/
theorem built_of_cmdRunLoop {o o' : RunOpts} {args rest : List Str} (h : cmdRunLoop o args = .done o' rest)
    (ho : o.flags.Built) : o'.flags.Built := by
  fun_induction cmdRunLoop o args with
  | case1 => cases h; exact ho
  | case2 => cases h; exact ho
  | case3 => cases h; exact ho
  | case4 o a args hdash hne o1 ho1 ih => exact ih h (built_bareFlag ho1 ho)
  | case5 o a hdash hne hbare set needs hset v args ih => exact ih h (built_operandFlag hset ho)
  | case6 => cases h
  | case7 => cases h
  | case8 o a args hdash hne hbare hoper hver f hf ih => exact ih h (built_attached hf ho)
  | case9 => cases h

end Calisto.Run

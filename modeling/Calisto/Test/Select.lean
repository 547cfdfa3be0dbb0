import Calisto.Lib.SortBy
import Calisto.Lib.UnixPath
import Calisto.Wire.Text
import Mathlib.Data.List.Lex

/-!
# Which tests `calisto test` runs

`cmd_test` walks over the test directory below the root and lets the filters choose.  A filter is looked up as a file
from the working directory, but taken from the root afterwards, and a relative one is compared with the whole path below
the root, so that it never stands for a directory.  `Understood` are the filters that choose what they mean all the same
(`cmd_test_selects`).
-/

namespace Calisto.Test

open UnixPath

/-! ### The files -/

inductive TestFramework
  | minitest
  | rspec
  deriving DecidableEq

def TestFramework.dir : TestFramework → Str
  | .minitest => "test".toList
  | .rspec => "spec".toList

def TestFramework.suffix : TestFramework → Str
  | .minitest => "_test.rb".toList
  | .rspec => "_spec.rb".toList

/- A file, or a directory with what `read_dir` lists. -/
mutual

inductive Node
  | file
  | dir (entries : Entries)

inductive Entries
  | nil
  | cons (name : { name : Bytes // IsName name }) (node : Node) (rest : Entries)

end

mutual

/-- `walk_files` on a directory; what cannot be listed has no files. -/
def walkFiles (suffix : Str) (dir : PathBuf) : Node → List PathBuf
  | .file => []
  | .dir entries => walkEntries suffix dir entries

/-- Its loop over the entries. -/
def walkEntries (suffix : Str) (dir : PathBuf) : Entries → List PathBuf
  | .nil => []
  | .cons name .file rest =>
    if suffix.isSuffixOf (fromUtf8Lossy name.1) then join dir name.1 :: walkEntries suffix dir rest
    else walkEntries suffix dir rest
  | .cons name (.dir entries) rest =>
    walkEntries suffix (join dir name.1) entries ++ walkEntries suffix dir rest

end

/-- `detect_framework`, from the existence of `.rspec` and what is in `spec`. -/
def detectFramework (root : PathBuf) (dotRspec : Bool) (spec : Node) : TestFramework :=
  if dotRspec then .rspec
  else if walkFiles TestFramework.rspec.suffix (join root (utf8 TestFramework.rspec.dir)) spec ≠ [] then .rspec
  else .minitest

/-! ### The filters -/

/-- An absolute path without `..`. -/
structure Straight (p : PathBuf) : Prop where
  abs : isAbsolute p
  dots : .parentDir ∉ components p

/-- A call of `calisto test` as far as its files depend on it.  The working directory comes from `getcwd`, which gives
no `..`, and the root is that directory or one above it. -/
structure TestRun where
  root : PathBuf
  cwd : PathBuf
  /-- what `walk_files` finds -/
  files : List PathBuf
  filters : List Str
  /-- is the absolute path a file? -/
  isFile : PathBuf → Bool
  root_abs : isAbsolute root
  cwd_straight : Straight cwd
  inside : components root <+: components cwd
  cwd_dir : isFile (join cwd []) = false
  files_straight : ∀ f ∈ files, Straight f

theorem Straight.join {dir name : PathBuf} (hdir : Straight dir) (hname : IsName name) :
    Straight (UnixPath.join dir name) where
  abs := isAbsolute_join hdir.abs name
  dots h := by
    rw [components_join_name dir hname] at h
    rcases List.mem_append.1 h with h | h
    · exact hdir.dots h
    · simp at h

mutual

private theorem straight_walkFiles {suffix : Str} {dir : PathBuf} (hdir : Straight dir) (node : Node) :
    ∀ f ∈ walkFiles suffix dir node, Straight f := by
  cases node with
  | file =>
    intro f hf
    cases hf
  | dir entries =>
    intro f hf
    exact straight_walkEntries hdir entries f (by simpa only [walkFiles] using hf)

private theorem straight_walkEntries {suffix : Str} {dir : PathBuf} (hdir : Straight dir) (entries : Entries) :
    ∀ f ∈ walkEntries suffix dir entries, Straight f := by
  intro f hf
  cases entries with
  | nil => cases hf
  | cons name node rest =>
    have hrest : f ∈ walkEntries suffix dir rest → Straight f := straight_walkEntries hdir rest f
    cases node with
    | file =>
      rw [walkEntries] at hf
      split at hf
      · rcases List.mem_cons.1 hf with rfl | hf
        · exact hdir.join name.2
        · exact hrest hf
      · exact hrest hf
    | dir entries =>
      rw [walkEntries] at hf
      rcases List.mem_append.1 hf with hf | hf
      · exact straight_walkEntries (hdir.join name.2) entries f hf
      · exact hrest hf

end

private theorem TestFramework.isName_dir (framework : TestFramework) : IsName (utf8 framework.dir) := by
  cases framework <;> constructor <;> decide

/-- The call in a project with the directories `test` and `spec`; one that is not there is a `file`. -/
def cmdTest (root cwd : PathBuf) (dotRspec : Bool) (test spec : Node) (filters : List Str) (isFile : PathBuf → Bool)
    (hroot : Straight root) (hcwd : Straight cwd) (hinside : components root <+: components cwd)
    (hdir : isFile (join cwd []) = false) : TestRun :=
  let framework := detectFramework root dotRspec spec
  let tree := match framework with
    | .minitest => test
    | .rspec => spec
  { root := root
    cwd := cwd
    files := walkFiles framework.suffix (join root (utf8 framework.dir)) tree
    filters := filters
    isFile := isFile
    root_abs := hroot.abs
    cwd_straight := hcwd
    inside := hinside
    cwd_dir := hdir
    files_straight := straight_walkFiles (hroot.join framework.isName_dir) tree }

variable (r : TestRun)

/-- The closure of `retain` on one filter. -/
def matchesFilter (root f p : PathBuf) : Bool :=
  components f = components p || startsWith f p || UnixPath.stripPrefix f root = some (components p)

/-- A path that is named explicitly. -/
def TestRun.explicit (p : PathBuf) : PathBuf := if isAbsolute p then p else join r.root p

/-- The body of the loop over the filters; a relative path is looked up from the working directory. -/
def TestRun.addExplicit (files : List PathBuf) (pat : Str) : List PathBuf :=
  if r.isFile (join r.cwd (utf8 pat)) then
    if files.any fun f => components f = components (r.explicit (utf8 pat)) then files
    else files ++ [r.explicit (utf8 pat)]
  else files

/-- The files that `cmd_test` runs. -/
def TestRun.selected : List PathBuf :=
  let files :=
    if r.filters = [] then r.files
    else r.filters.foldl r.addExplicit
      (r.files.filter fun f => r.filters.any fun pat => matchesFilter r.root f (utf8 pat))
  SortBy.dedup key (SortBy.sort key files)

/-! ### What is selected -/

private theorem mem_foldl_addExplicit (pats : List Str) (files : List PathBuf) (cs : List Component) :
    (∃ f ∈ pats.foldl r.addExplicit files, components f = cs) ↔
      (∃ f ∈ files, components f = cs) ∨
        ∃ pat ∈ pats, r.isFile (join r.cwd (utf8 pat)) ∧ components (r.explicit (utf8 pat)) = cs := by
  induction pats generalizing files with
  | nil => simp
  | cons pat pats ih =>
    have hone : (∃ f ∈ r.addExplicit files pat, components f = cs) ↔ (∃ f ∈ files, components f = cs) ∨
        r.isFile (join r.cwd (utf8 pat)) ∧ components (r.explicit (utf8 pat)) = cs := by
      unfold TestRun.addExplicit
      split
      · rename_i hfile
        split
        · rename_i hany
          obtain ⟨f, hf, heq⟩ := List.any_eq_true.1 hany
          constructor
          · exact .inl
          · rintro (h | ⟨-, h⟩)
            · exact h
            · exact ⟨f, hf, (of_decide_eq_true heq).trans h⟩
        · simp only [List.mem_append, List.mem_singleton, hfile, true_and]
          constructor
          · rintro ⟨f, hf | rfl, h⟩
            · exact .inl ⟨f, hf, h⟩
            · exact .inr h
          · rintro (⟨f, hf, h⟩ | h)
            · exact ⟨f, .inl hf, h⟩
            · exact ⟨_, .inr rfl, h⟩
      · rename_i hfile
        simp [hfile]
    rw [List.foldl_cons, ih, hone, List.exists_mem_cons_iff, or_assoc]

/-- Sorting and removing what is there twice keep the paths. -/
theorem mem_dedup_sort (files : List PathBuf) (cs : List Component) :
    (∃ f ∈ SortBy.dedup key (SortBy.sort key files), components f = cs) ↔ ∃ f ∈ files, components f = cs := by
  have hkey : ∀ xs : List PathBuf, (∃ f ∈ xs, components f = cs) ↔ cs.map Component.key ∈ xs.map key := by
    intro xs
    rw [List.mem_map]
    refine exists_congr fun f => and_congr_right fun _ => ?_
    exact (List.map_injective_iff.2 Component.key_injective).eq_iff.symm
  rw [hkey, hkey, SortBy.mem_map_dedup, ((SortBy.sort_perm key files).map key).mem_iff]

private theorem mem_selected (hne : r.filters ≠ []) (cs : List Component) :
    (∃ f ∈ r.selected, components f = cs) ↔
      (∃ f ∈ r.files, components f = cs ∧ ∃ pat ∈ r.filters, matchesFilter r.root f (utf8 pat)) ∨
        ∃ pat ∈ r.filters, r.isFile (join r.cwd (utf8 pat)) ∧ components (r.explicit (utf8 pat)) = cs := by
  unfold TestRun.selected
  dsimp only
  rw [if_neg hne, mem_dedup_sort, mem_foldl_addExplicit]
  refine or_congr_left (exists_congr fun f => ?_)
  rw [List.mem_filter, List.any_eq_true, and_assoc, and_comm (a := components f = cs)]

/-- The paths are in order and different. -/
theorem selected_sorted : (r.selected.map key).Pairwise (· < ·) := SortBy.pairwise_dedup_sort key _

/-! ### What the filters mean -/

/-- What a filter chooses when it is read from the working directory: the discovered files that it names or contains,
and the file that it names.  For a filter without `..` these are told by the components. -/
def TestRun.Meant (pat : Str) (cs : List Component) : Prop :=
  (∃ f ∈ r.files, components f = cs ∧ startsWith f (join r.cwd (utf8 pat))) ∨
    r.isFile (join r.cwd (utf8 pat)) ∧ components (join r.cwd (utf8 pat)) = cs

/-- The list that `cmd_test` runs is sorted, without duplicates, and has what the filters mean. -/
def TestRun.Right : Prop :=
  (r.selected.map key).Pairwise (· < ·) ∧
    ∀ cs, (∃ f ∈ r.selected, components f = cs) ↔ ∃ pat ∈ r.filters, r.Meant pat cs

/-- The filters, without `..`, that choose what they mean: absolute ones; the empty one, if all tests are below the
working directory; in the root, one that names no directory with tests in it (nor a test behind a `.` that is no
regular file); in a subdirectory, one that names nothing there and spells out no test below the root. -/
inductive TestRun.Understood (pat : Str) : Prop
  | absolute (abs : isAbsolute (utf8 pat))
  | empty (nil : pat = []) (below : ∀ f ∈ r.files, startsWith f r.cwd)
  | inRoot (rel : isAbsolute (utf8 pat) = false) (ne_nil : pat ≠ []) (root : components r.cwd = components r.root)
      (file : ∀ f ∈ r.files, startsWith f (join r.cwd (utf8 pat)) →
        components f = components (join r.cwd (utf8 pat)) ∧
          (anchor (utf8 pat) = [] ∨ r.isFile (join r.cwd (utf8 pat))))
  | inSubdirectory (rel : isAbsolute (utf8 pat) = false) (ne_nil : pat ≠ [])
      (sub : components r.cwd ≠ components r.root) (no_file : r.isFile (join r.cwd (utf8 pat)) = false)
      (no_test : ∀ f ∈ r.files, ¬startsWith f (join r.cwd (utf8 pat)))
      (not_spelled : ∀ f ∈ r.files, components f ≠ components r.root ++ components (utf8 pat))

/-- What a relative filter spells out below the root: a discovered file, or any path if there is such a file in the
working directory; the empty filter spells out every discovered file. -/
def TestRun.Spelled (pat : Str) (cs : List Component) : Prop :=
  (∃ f ∈ r.files, components f = cs ∧ (pat = [] ∨ cs = components r.root ++ components (utf8 pat))) ∨
    r.isFile (join r.cwd (utf8 pat)) ∧ components (join r.root (utf8 pat)) = cs

/-- What the code makes of a filter. -/
def TestRun.Chosen (pat : Str) (cs : List Component) : Prop :=
  (∃ f ∈ r.files, components f = cs ∧ matchesFilter r.root f (utf8 pat)) ∨
    r.isFile (join r.cwd (utf8 pat)) ∧ components (r.explicit (utf8 pat)) = cs

private theorem mem_selected_iff (hne : r.filters ≠ []) (cs : List Component) :
    (∃ f ∈ r.selected, components f = cs) ↔ ∃ pat ∈ r.filters, r.Chosen pat cs := by
  rw [mem_selected r hne]
  constructor
  · rintro (⟨f, hf, hcs, pat, hpat, hm⟩ | ⟨pat, hpat, h⟩)
    · exact ⟨pat, hpat, .inl ⟨f, hf, hcs, hm⟩⟩
    · exact ⟨pat, hpat, .inr h⟩
  · rintro ⟨pat, hpat, ⟨f, hf, hcs, hm⟩ | h⟩
    · exact .inl ⟨f, hf, hcs, pat, hpat, hm⟩
    · exact .inr ⟨pat, hpat, h⟩

/-- An absolute filter matches itself and what is below it. -/
theorem matchesFilter_of_isAbsolute {f p : PathBuf} (hf : isAbsolute f) (hp : isAbsolute p) :
    matchesFilter r.root f p = startsWith f p := by
  have hstrip : UnixPath.stripPrefix f r.root ≠ some (components p) := by
    intro h
    rw [stripPrefix_eq_some_iff, components_of_isAbsolute hf, components_of_isAbsolute r.root_abs,
      components_of_isAbsolute hp, List.cons_append] at h
    have hnames : names f = names r.root ++ .rootDir :: names p := (List.cons.inj h).2
    have hmem : Component.rootDir ∈ names f := by
      rw [hnames]
      exact List.mem_append_right _ List.mem_cons_self
    exact rootDir_not_mem_names f hmem
  have heq : components f = components p → startsWith f p = true := by
    intro h
    rw [startsWith, h, List.isPrefixOf_iff_prefix]
  unfold matchesFilter
  by_cases h : components f = components p
  · simp [h, heq h]
  · simp [h, hstrip]

/-- A relative filter matches the path that it spells out below the root; the empty one matches everything. -/
theorem matchesFilter_of_relative {f p : PathBuf} (hf : isAbsolute f) (hp : isAbsolute p = false) :
    matchesFilter r.root f p ↔ p = [] ∨ components f = components r.root ++ components p := by
  have hroot : Component.rootDir ∈ components f := by
    rw [components_of_isAbsolute hf]
    exact List.mem_cons_self
  have hne : components f ≠ components p := fun h => rootDir_not_mem hp (h ▸ hroot)
  have hstart : startsWith f p ↔ p = [] := by
    unfold startsWith
    rw [List.isPrefixOf_iff_prefix]
    constructor
    · intro h
      rw [← components_eq_nil_iff]
      by_contra hcs
      obtain ⟨c, cs, hc⟩ := List.exists_cons_of_ne_nil hcs
      rw [hc, components_of_isAbsolute hf, List.cons_prefix_cons] at h
      refine rootDir_not_mem hp ?_
      rw [hc, h.1]
      exact List.mem_cons_self
    · rintro rfl
      exact List.nil_prefix
  unfold matchesFilter
  simp only [Bool.or_eq_true, decide_eq_true_eq, hne, false_or, hstart, stripPrefix_eq_some_iff]

/-- An absolute filter is understood. -/
theorem chosen_of_isAbsolute {pat : Str} (h : isAbsolute (utf8 pat)) (cs : List Component) :
    r.Chosen pat cs ↔ r.Meant pat cs := by
  unfold TestRun.Chosen TestRun.Meant TestRun.explicit
  rw [if_pos h, join_of_isAbsolute h]
  refine or_congr_left (exists_congr fun f => and_congr_right fun hf => ?_)
  rw [matchesFilter_of_isAbsolute r ((r.files_straight f hf).abs) h]

/-- A relative filter is taken as what it spells out below the root. -/
theorem chosen_of_relative {pat : Str} (h : isAbsolute (utf8 pat) = false) (cs : List Component) :
    r.Chosen pat cs ↔ r.Spelled pat cs := by
  unfold TestRun.Chosen TestRun.Spelled TestRun.explicit
  rw [if_neg (by simp [h])]
  refine or_congr_left (exists_congr fun f => and_congr_right fun hf => and_congr_right fun hcs => ?_)
  rw [matchesFilter_of_relative r ((r.files_straight f hf).abs) h, hcs, utf8_eq_nil_iff]

/-! ### The selection -/

/-- What the code makes of a filter, for a relative one in terms of its names. -/
theorem spelled_iff {pat : Str} (hne : pat ≠ []) (cs : List Component) :
    r.Spelled pat cs ↔
      (∃ f ∈ r.files, components f = cs ∧ cs = components r.root ++ components (utf8 pat)) ∨
        r.isFile (join r.cwd (utf8 pat)) ∧ components (join r.root (utf8 pat)) = cs := by
  unfold TestRun.Spelled
  simp only [hne, false_or]

private theorem ne_nil_of_isAbsolute {p : PathBuf} (h : isAbsolute p) : p ≠ [] := by
  rintro rfl
  cases h

private theorem components_cwd {pat : Str} (h : isAbsolute (utf8 pat) = false) :
    components (join r.cwd (utf8 pat)) = components r.cwd ++ names (utf8 pat) :=
  components_join (ne_nil_of_isAbsolute r.cwd_straight.abs) h

private theorem components_root {pat : Str} (h : isAbsolute (utf8 pat) = false) :
    components (join r.root (utf8 pat)) = components r.root ++ names (utf8 pat) :=
  components_join (ne_nil_of_isAbsolute r.root_abs) h

/-- A test that is spelled out by a filter without a `.` in front is where the filter points from the root. -/
theorem anchor_of_spelled {pat : Str} (hrel : isAbsolute (utf8 pat) = false) {f : PathBuf} (hf : f ∈ r.files)
    (h : components f = components r.root ++ components (utf8 pat)) :
    anchor (utf8 pat) = [] ∧ components f = components (join r.root (utf8 pat)) := by
  have hanchor : anchor (utf8 pat) = [] := by
    by_contra hne
    have hcur : anchor (utf8 pat) = [.curDir] := by
      unfold anchor at hne ⊢
      rw [if_neg (by simp [hrel])] at hne ⊢
      split
      · rfl
      · rename_i hno
        exact absurd (if_neg hno) hne
    have hmem : Component.curDir ∈ names f := by
      rw [components_of_isAbsolute (r.files_straight f hf).abs, components_of_isAbsolute r.root_abs, components.eq_def
        (utf8 pat), hcur] at h
      rw [(List.cons.inj h).2]
      simp
    exact curDir_not_mem_names f hmem
  refine ⟨hanchor, ?_⟩
  rw [h, components_root r hrel, components.eq_def (utf8 pat), hanchor, List.nil_append]

/-- In a subdirectory, what a filter points at from the root is not below what it points at from there. -/
theorem not_prefix_of_sub {pat : Str} (hrel : isAbsolute (utf8 pat) = false)
    (hsub : components r.cwd ≠ components r.root) :
    ¬components (join r.cwd (utf8 pat)) <+: components (join r.root (utf8 pat)) := by
  intro h
  rw [components_cwd r hrel, components_root r hrel] at h
  have hlen := h.length_le
  have hroot := r.inside.length_le
  rw [List.length_append, List.length_append] at hlen
  exact hsub (r.inside.eq_of_length (by omega)).symm

private theorem startsWith_iff (f p : PathBuf) : startsWith f p ↔ components p <+: components f := by
  rw [startsWith, List.isPrefixOf_iff_prefix]

private theorem chosen_of_understood {pat : Str} (h : r.Understood pat) (cs : List Component) :
    r.Chosen pat cs ↔ r.Meant pat cs := by
  cases h with
  | absolute abs => exact chosen_of_isAbsolute r abs cs
  | empty nil below =>
    subst nil
    rw [chosen_of_relative r (by decide), TestRun.Spelled, TestRun.Meant]
    have hcwd : components (join r.cwd (utf8 [])) = components r.cwd := by
      rw [components_cwd r (by decide)]
      exact List.append_nil _
    refine or_congr (exists_congr fun f => and_congr_right fun hf => and_congr_right fun _ => ?_) ?_
    · refine iff_of_true (.inl rfl) ?_
      rw [startsWith_iff, hcwd, ← startsWith_iff]
      exact below f hf
    · have hno : r.isFile (join r.cwd (utf8 [])) = false := r.cwd_dir
      simp [hno]
  | inRoot rel ne_nil root file =>
    have hsame : components (join r.root (utf8 pat)) = components (join r.cwd (utf8 pat)) := by
      rw [components_root r rel, components_cwd r rel, root]
    rw [chosen_of_relative r rel, spelled_iff r ne_nil, TestRun.Meant]
    constructor
    · rintro (⟨f, hf, rfl, hspelled⟩ | ⟨hfile, rfl⟩)
      · refine .inl ⟨f, hf, rfl, ?_⟩
        rw [startsWith_iff, ← hsame, (anchor_of_spelled r rel hf hspelled).2]
      · exact .inr ⟨hfile, hsame.symm⟩
    · rintro (⟨f, hf, rfl, hstart⟩ | ⟨hfile, rfl⟩)
      · obtain ⟨heq, hanchor | hfile⟩ := file f hf hstart
        · refine .inl ⟨f, hf, rfl, ?_⟩
          rw [heq, ← hsame, components_root r rel, components.eq_def (utf8 pat), hanchor, List.nil_append]
        · exact .inr ⟨hfile, hsame.trans heq.symm⟩
      · exact .inr ⟨hfile, hsame⟩
  | inSubdirectory rel ne_nil sub no_file no_test not_spelled =>
    rw [chosen_of_relative r rel, spelled_iff r ne_nil, TestRun.Meant]
    refine iff_of_false ?_ ?_
    · rintro (⟨f, hf, rfl, hspelled⟩ | ⟨hfile, -⟩)
      · exact not_spelled f hf hspelled
      · rw [no_file] at hfile
        cases hfile
    · rintro (⟨f, hf, -, hstart⟩ | ⟨hfile, -⟩)
      · exact no_test f hf hstart
      · rw [no_file] at hfile
        cases hfile

/-- A filter that chooses what it means is one of those. -/
theorem understood_of_chosen {pat : Str} (h : ∀ cs, r.Chosen pat cs ↔ r.Meant pat cs) : r.Understood pat := by
  by_cases habs : isAbsolute (utf8 pat)
  · exact .absolute habs
  have hrel : isAbsolute (utf8 pat) = false := by simpa using habs
  by_cases hnil : pat = []
  · subst hnil
    refine .empty rfl fun f hf => ?_
    have hmeant := (h (components f)).1 ((chosen_of_relative r hrel _).2 (.inl ⟨f, hf, rfl, .inl rfl⟩))
    rcases hmeant with ⟨g, -, hg, hstart⟩ | ⟨hfile, -⟩
    · rw [startsWith_iff, components_cwd r hrel, hg] at hstart
      rw [startsWith_iff]
      exact (List.prefix_append _ _).trans hstart
    · have hno : r.isFile (join r.cwd (utf8 [])) = false := r.cwd_dir
      rw [hno] at hfile
      cases hfile
  have hiff : ∀ cs, _ ↔ r.Meant pat cs := fun cs =>
    ((spelled_iff r hnil cs).symm.trans (chosen_of_relative r hrel cs).symm).trans (h cs)
  by_cases hroot : components r.cwd = components r.root
  · refine .inRoot hrel hnil hroot fun f hf hstart => ?_
    have hsame : components (join r.root (utf8 pat)) = components (join r.cwd (utf8 pat)) := by
      rw [components_root r hrel, components_cwd r hrel, hroot]
    rcases (hiff (components f)).2 (.inl ⟨f, hf, rfl, hstart⟩) with ⟨g, hg, hgf, hspelled⟩ | ⟨hfile, heq⟩
    · obtain ⟨hanchor, heq⟩ := anchor_of_spelled r hrel hf hspelled
      exact ⟨heq.trans hsame, .inl hanchor⟩
    · exact ⟨heq.symm.trans hsame, .inr hfile⟩
  · -- nothing that the filter spells out is meant
    have hnot := not_prefix_of_sub r hrel hroot
    have hfile : r.isFile (join r.cwd (utf8 pat)) = false := by
      by_contra hfile
      rcases (hiff (components (join r.root (utf8 pat)))).1 (.inr ⟨by simpa using hfile, rfl⟩) with
        ⟨g, -, hg, hstart⟩ | ⟨-, heq⟩
      · rw [startsWith_iff, hg] at hstart
        exact hnot hstart
      · exact hnot (heq ▸ List.prefix_rfl)
    have hspelled : ∀ f ∈ r.files, components f ≠ components r.root ++ components (utf8 pat) := by
      intro f hf hspelled
      rcases (hiff (components f)).1 (.inl ⟨f, hf, rfl, hspelled⟩) with ⟨g, -, hg, hstart⟩ | ⟨hfile', -⟩
      · rw [startsWith_iff, hg, (anchor_of_spelled r hrel hf hspelled).2] at hstart
        exact hnot hstart
      · rw [hfile] at hfile'
        cases hfile'
    refine .inSubdirectory hrel hnil hroot hfile (fun f hf hstart => ?_) hspelled
    rcases (hiff (components f)).2 (.inl ⟨f, hf, rfl, hstart⟩) with ⟨g, -, -, hspell⟩ | ⟨hfile', -⟩
    · exact hspelled f hf hspell
    · rw [hfile] at hfile'
      cases hfile'

/-- A filter with a `..` in it matches no test. -/
theorem matchesFilter_of_dots {f p : PathBuf} (hf : f ∈ r.files) (hp : .parentDir ∈ components p) :
    matchesFilter r.root f p = false := by
  have hdots := (r.files_straight f hf).dots
  rw [Bool.eq_false_iff]
  intro hm
  unfold matchesFilter at hm
  simp only [Bool.or_eq_true, decide_eq_true_eq, stripPrefix_eq_some_iff, startsWith_iff] at hm
  rcases hm with (heq | hstart) | hstrip
  · exact hdots (heq ▸ hp)
  · exact hdots (hstart.subset hp)
  · exact hdots (hstrip ▸ List.mem_append_right _ hp)

/-- With one filter, the right files run if it chooses what it means. -/
theorem right_singleton_iff (pat : Str) :
    { r with filters := [pat] }.Right ↔ ∀ cs, r.Chosen pat cs ↔ r.Meant pat cs := by
  have hselected : ∀ cs, (∃ f ∈ { r with filters := [pat] }.selected, components f = cs) ↔ r.Chosen pat cs := by
    intro cs
    rw [mem_selected_iff { r with filters := [pat] } (List.cons_ne_nil pat [])]
    simp only [List.mem_singleton, exists_eq_left]
    rfl
  unfold TestRun.Right
  simp only [hselected, selected_sorted, true_and, List.mem_singleton, exists_eq_left]
  rfl

/-- If all filters are understood the right files run.  A single filter without `..` has to be understood for that, and
one with a `..` in it matches none of the tests. -/
theorem cmd_test_selects (hne : r.filters ≠ []) :
    ((∀ pat ∈ r.filters, .parentDir ∉ components (utf8 pat) ∧ r.Understood pat) → r.Right) ∧
      (∀ pat, .parentDir ∉ components (utf8 pat) → ({ r with filters := [pat] }.Right ↔ r.Understood pat)) ∧
      ∀ pat, .parentDir ∈ components (utf8 pat) → ∀ f ∈ r.files, matchesFilter r.root f (utf8 pat) = false := by
  refine ⟨fun h => ⟨selected_sorted r, fun cs => ?_⟩, fun pat _ => ?_, fun pat hdots f hf =>
    matchesFilter_of_dots r hf hdots⟩
  · rw [mem_selected_iff r hne]
    exact exists_congr fun pat => and_congr_right fun hpat => chosen_of_understood r (h pat hpat).2 cs
  · rw [right_singleton_iff]
    exact ⟨fun h => understood_of_chosen r h, fun h => chosen_of_understood r h⟩

/-! ### A project with one test -/

def oneTest : PathBuf := utf8 "/r/test/a_test.rb".toList

/-- `calisto test` in the root `/r`. -/
def oneTestRun (filters : List Str) : TestRun :=
  cmdTest (utf8 "/r".toList) (utf8 "/r".toList) false
    (.dir (.cons ⟨utf8 "a_test.rb".toList, by constructor <;> decide⟩ .file .nil)) .file filters
    (fun p => p = oneTest) ⟨by decide, by decide +kernel⟩ ⟨by decide, by decide +kernel⟩ List.prefix_rfl (by decide)

theorem cmd_test_selects_absolute : (oneTestRun ["/r/test".toList, "test/a_test.rb".toList]).Right := by
  refine (cmd_test_selects (oneTestRun ["/r/test".toList, "test/a_test.rb".toList]) (by decide)).1 fun pat hpat => ?_
  have hfiles : (oneTestRun ["/r/test".toList, "test/a_test.rb".toList]).files = [oneTest] := by decide +kernel
  rcases List.mem_cons.1 hpat with rfl | hpat
  · exact ⟨by decide +kernel, .absolute (by decide)⟩
  · obtain rfl := List.mem_singleton.1 hpat
    refine ⟨by decide +kernel, .inRoot (by decide) (by decide) rfl fun f hf _ => ?_⟩
    rw [hfiles, List.mem_singleton] at hf
    subst hf
    exact ⟨by decide +kernel, .inl (by decide +kernel)⟩

/-- `calisto test test` finds no test. -/
theorem cmd_test_misses_directory : ¬∀ r : TestRun, r.filters ≠ [] → r.Right := by
  intro h
  have hfiles : (oneTestRun ["test".toList]).files = [oneTest] := by decide +kernel
  have hunderstood := ((cmd_test_selects (oneTestRun ["test".toList]) (by decide)).2.1 "test".toList
    (by decide +kernel)).1 (h (oneTestRun ["test".toList]) (by decide))
  have hstart : startsWith oneTest (join (oneTestRun ["test".toList]).cwd (utf8 "test".toList)) := by decide +kernel
  cases hunderstood with
  | absolute abs => exact absurd abs (by decide)
  | empty nil => cases nil
  | inRoot _ _ _ file =>
    have hnot : components oneTest ≠ components (join (oneTestRun ["test".toList]).cwd (utf8 "test".toList)) := by
      decide +kernel
    exact hnot (file oneTest (by rw [hfiles]; exact List.mem_singleton_self _) hstart).1
  | inSubdirectory _ _ sub => exact sub rfl

end Calisto.Test

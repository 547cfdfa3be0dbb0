import Calisto.Lib.Split
import Mathlib.Data.List.Infix

/-!
# Unix paths

A path is a string of bytes, and what it means is the list of its components: slashes that repeat or end it and `.`
inside it make no difference.  Paths are compared, searched for prefixes and taken apart by components, and put
together as bytes.
-/

namespace UnixPath

/-- A path as it is written. -/
abbrev PathBuf := List UInt8

def slash : UInt8 := 47

def dot : UInt8 := 46

inductive Component
  | rootDir
  | curDir
  | parentDir
  | normal (name : List UInt8)
  deriving DecidableEq

/-- What stands between two slashes. -/
def component (name : List UInt8) : Option Component :=
  if name = [] ∨ name = [dot] then none
  else if name = [dot, dot] then some .parentDir
  else some (.normal name)

/-- The components without the beginning of the path. -/
def names (p : PathBuf) : List Component := (p.splitOn slash).filterMap component

def isAbsolute (p : PathBuf) : Bool := p.head? = some slash

/-- The beginning of the path, if it is a component: the root, or a `.`. -/
def anchor (p : PathBuf) : List Component :=
  if isAbsolute p then [.rootDir] else if (p.splitOn slash).head? = some [dot] then [.curDir] else []

def components (p : PathBuf) : List Component := anchor p ++ names p

/-- `q` below `p`, or `q` itself if it is absolute. -/
def join (p q : PathBuf) : PathBuf :=
  if isAbsolute q then q
  else if p = [] ∨ p.getLast? = some slash then p ++ q
  else p ++ slash :: q

/-- The components of the parent. -/
def parent (cs : List Component) : Option (List Component) :=
  match cs.getLast? with
  | none | some .rootDir => none
  | some _ => some cs.dropLast

/-- The last component, if it is a name. -/
def fileName (cs : List Component) : Option (List UInt8) :=
  match cs.getLast? with
  | some (.normal name) => some name
  | _ => none

/-- Is `p` the path `base` or something below it? -/
def startsWith (p base : PathBuf) : Bool := (components base).isPrefixOf (components p)

def Component.text : Component → List UInt8
  | rootDir => [slash]
  | curDir => [dot]
  | parentDir => [dot, dot]
  | normal name => name

/-- The path with these components. -/
def write (cs : List Component) : PathBuf := cs.foldl (fun p c => join p c.text) []

/-- What is left of `p` below `base`. -/
def stripPrefix (p base : PathBuf) : Option (List Component) :=
  if startsWith p base then some ((components p).drop (components base).length) else none

/-- Components in their order: the root, `.`, `..`, and the names by their bytes. -/
def Component.key : Component → List Nat
  | .rootDir => [0]
  | .curDir => [1]
  | .parentDir => [2]
  | .normal name => 3 :: name.map UInt8.toNat

/-- What paths are sorted by. -/
def key (p : PathBuf) : List (List Nat) := (components p).map Component.key

theorem Component.key_injective : Function.Injective Component.key := by
  intro a b h
  cases a <;> cases b <;> simp_all [Component.key]
  exact List.map_injective_iff.2 (fun _ _ => UInt8.toNat_inj.1) h

/-! ### Joining -/

theorem names_append_slash (p q : PathBuf) : names (p ++ slash :: q) = names p ++ names q := by
  unfold names
  rw [List.splitOn_append_cons_self, List.filterMap_append]

/-- The beginning stays when something is put behind a slash. -/
theorem anchor_append_slash {p : PathBuf} (h : p ≠ []) (q : PathBuf) : anchor (p ++ slash :: q) = anchor p := by
  obtain ⟨b, p, rfl⟩ := List.exists_cons_of_ne_nil h
  have hhead : ((b :: p ++ slash :: q).splitOn slash).head? = ((b :: p).splitOn slash).head? := by
    obtain ⟨w, ws, hw⟩ := List.exists_cons_of_ne_nil (List.splitOn_ne_nil slash (b :: p))
    rw [List.splitOn_append_cons_self, hw]
    rfl
  unfold anchor isAbsolute
  rw [hhead]
  rfl

theorem names_nil : names [] = [] := by decide

/-- A relative path goes below the one that it is joined to. -/
theorem components_join {p q : PathBuf} (hp : p ≠ []) (hq : isAbsolute q = false) :
    components (join p q) = components p ++ names q := by
  unfold join
  rw [hq]
  by_cases hlast : p.getLast? = some slash
  · obtain ⟨front, rfl⟩ := List.getLast?_eq_some_iff.1 hlast
    have hanchor : anchor (front ++ slash :: q) = anchor (front ++ [slash]) := by
      by_cases hfront : front = []
      · subst hfront
        rfl
      · rw [anchor_append_slash hfront, anchor_append_slash hfront]
    simp only [Bool.false_eq_true, hlast, or_true, ↓reduceIte]
    unfold components
    rw [List.append_assoc, List.singleton_append, hanchor, names_append_slash, names_append_slash, names_nil,
      List.append_nil, List.append_assoc]
  · simp only [Bool.false_eq_true, hp, hlast, or_self, ↓reduceIte]
    unfold components
    rw [anchor_append_slash hp, names_append_slash, List.append_assoc]

theorem isAbsolute_join {p : PathBuf} (h : isAbsolute p) (q : PathBuf) : isAbsolute (join p q) := by
  obtain ⟨rest, rfl⟩ := List.head?_eq_some_iff.1 (of_decide_eq_true h)
  unfold join
  split
  · assumption
  · split <;> rfl

/-- The root is the first component of an absolute path, and of no other, and no later one. -/
theorem components_of_isAbsolute {p : PathBuf} (h : isAbsolute p) : components p = .rootDir :: names p := by
  rw [components, anchor, if_pos h]
  rfl

theorem rootDir_not_mem_names (p : PathBuf) : .rootDir ∉ names p := by
  intro h
  obtain ⟨piece, -, hcomp⟩ := List.mem_filterMap.1 h
  unfold component at hcomp
  split at hcomp
  · cases hcomp
  · split at hcomp <;> cases hcomp

theorem curDir_not_mem_names (p : PathBuf) : .curDir ∉ names p := by
  intro h
  obtain ⟨piece, -, hcomp⟩ := List.mem_filterMap.1 h
  unfold component at hcomp
  split at hcomp
  · cases hcomp
  · split at hcomp <;> cases hcomp

theorem rootDir_not_mem {p : PathBuf} (h : isAbsolute p = false) : .rootDir ∉ components p := by
  intro hmem
  rcases List.mem_append.1 hmem with hmem | hmem
  · unfold anchor at hmem
    rw [if_neg (by simp [h])] at hmem
    split at hmem <;> simp at hmem
  · exact rootDir_not_mem_names p hmem

/-- Only the empty path has no component. -/
theorem components_eq_nil_iff (p : PathBuf) : components p = [] ↔ p = [] := by
  constructor
  · intro h
    by_contra hne
    obtain ⟨b, rest, rfl⟩ := List.exists_cons_of_ne_nil hne
    by_cases habs : isAbsolute (b :: rest)
    · rw [components_of_isAbsolute habs] at h
      cases h
    · have hb : (b == slash) = false := by simpa [isAbsolute] using habs
      obtain ⟨w, ws, hw⟩ := List.exists_cons_of_ne_nil (List.splitOn_ne_nil slash rest)
      have hsplit : (b :: rest).splitOn slash = (b :: w) :: ws := by
        rw [List.splitOn_cons_eq_if_modifyHead, hb, hw]
        rfl
      unfold components anchor names component at h
      rw [if_neg habs, hsplit] at h
      by_cases hdot : b :: w = [dot]
      · simp [hdot] at h
      · by_cases hdots : b :: w = [dot, dot]
        · simp [hdots, dot] at h
        · simp [hdot, hdots] at h
  · rintro rfl
    decide

theorem stripPrefix_eq_some_iff (p base : PathBuf) (cs : List Component) :
    stripPrefix p base = some cs ↔ components p = components base ++ cs := by
  unfold stripPrefix startsWith
  constructor
  · intro h
    split at h
    · rename_i hbase
      obtain ⟨rest, hrest⟩ := List.isPrefixOf_iff_prefix.1 hbase
      rw [← hrest, List.drop_left] at h
      rw [← hrest, Option.some.inj h]
    · cases h
  · intro h
    have hbase : (components base).isPrefixOf (components p) := by
      rw [List.isPrefixOf_iff_prefix, h]
      exact List.prefix_append _ _
    rw [if_pos hbase, h, List.drop_left]

theorem join_of_isAbsolute {p q : PathBuf} (hq : isAbsolute q) : join p q = q := if_pos hq

/-- A name is one component. -/
structure IsName (name : List UInt8) : Prop where
  no_slash : slash ∉ name
  ne_nil : name ≠ []
  ne_dot : name ≠ [dot]
  ne_dots : name ≠ [dot, dot]

theorem names_of_isName {name : List UInt8} (h : IsName name) : names name = [.normal name] := by
  unfold names component
  rw [List.splitOn_eq_singleton h.no_slash]
  simp [h.ne_nil, h.ne_dot, h.ne_dots]

theorem isAbsolute_of_isName {name : List UInt8} (h : IsName name) : isAbsolute name = false := by
  unfold isAbsolute
  refine decide_eq_false fun hhead => ?_
  obtain ⟨rest, rfl⟩ := List.head?_eq_some_iff.1 hhead
  exact h.no_slash List.mem_cons_self

/-- Below any path, a name is one more component. -/
theorem components_join_name (p : PathBuf) {name : List UInt8} (h : IsName name) :
    components (join p name) = components p ++ [.normal name] := by
  by_cases hp : p = []
  · subst hp
    have hjoin : join [] name = name := by simp [join, isAbsolute_of_isName h]
    have hanchor : anchor name = [] := by
      simp [anchor, isAbsolute_of_isName h, List.splitOn_eq_singleton h.no_slash, h.ne_dot]
    have hnil : components [] = [] := by decide
    rw [hjoin, components, hanchor, names_of_isName h, hnil]
  · rw [components_join hp (isAbsolute_of_isName h), names_of_isName h]

/-- A path that begins with a name, below any path. -/
theorem components_join_append (p : PathBuf) {name : List UInt8} (h : IsName name) (rest : PathBuf) :
    components (join p (name ++ slash :: rest)) = components p ++ .normal name :: names rest := by
  obtain ⟨b, bs, hname⟩ := List.exists_cons_of_ne_nil h.ne_nil
  have habs : isAbsolute (name ++ slash :: rest) = isAbsolute name := by
    rw [hname]
    rfl
  have hjoin : join p (name ++ slash :: rest) = join p name ++ slash :: rest := by
    unfold join
    rw [habs, isAbsolute_of_isName h]
    split
    · contradiction
    · split <;> simp
  have hne : join p name ≠ [] := by
    intro hnil
    have hcomponents := components_join_name p h
    rw [hnil, (components_eq_nil_iff []).2 rfl] at hcomponents
    simp at hcomponents
  have hsplit : components (join p name ++ slash :: rest) = components (join p name) ++ names rest := by
    unfold components
    rw [anchor_append_slash hne, names_append_slash, List.append_assoc]
  rw [hjoin, hsplit, components_join_name p h, List.append_assoc, List.singleton_append]

/-- The name of a path has no slash in it. -/
theorem no_slash_of_mem_components {p : PathBuf} {name : List UInt8} (h : .normal name ∈ components p) :
    slash ∉ name := by
  rcases List.mem_append.1 h with h | h
  · unfold anchor at h
    split at h
    · simp at h
    · split at h <;> simp at h
  · obtain ⟨piece, hpiece, hcomp⟩ := List.mem_filterMap.1 h
    unfold component at hcomp
    split at hcomp
    · cases hcomp
    · split at hcomp <;> cases hcomp
      exact not_mem_of_mem_splitOn hpiece

end UnixPath

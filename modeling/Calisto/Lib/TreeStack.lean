import Mathlib.Tactic.Basic
import Mathlib.Algebra.Order.Group.Nat
import Mathlib.Algebra.Group.Nat.Defs

/-!
# Trees of leaves, built with a stack

The tree over `count` leaves has on its left the largest power of two of leaves smaller than `count` (`tree`).  An
inner node is made of the values `cv` of its two sides.  The same tree is built from left to right with a stack of the
values of the complete subtrees so far, one for each binary digit 1 of the number of leaves, the smallest on top
(`peaks`): a new value is merged with the top while the number of leaves is even (`merge`), and at the end the stack is
folded onto the last leaf (`fold`).
-/

namespace TreeStack

variable {O V : Type*} (cv : O → V) (node : V → V → O) (leaf : Nat → O)

/-- The largest power of two smaller than `count`. -/
def leftCount (count : Nat) : Nat := 2 ^ (count - 1).log2

theorem leftCount_pos (count : Nat) : 0 < leftCount count := Nat.two_pow_pos _

theorem leftCount_lt {count : Nat} (h : 1 < count) : leftCount count < count := by
  have : leftCount count ≤ count - 1 := Nat.log2_self_le (by omega)
  omega

theorem leftCount_eq {k r : Nat} (hr : 0 < r) (hle : r ≤ 2 ^ k) : leftCount (2 ^ k + r) = 2 ^ k := by
  have hpow : 0 < 2 ^ k := Nat.two_pow_pos k
  unfold leftCount
  congr 1
  rw [Nat.log2_eq_iff (by omega), Nat.pow_succ]
  omega

/-- The tree over the leaves from `start` on. -/
def tree (start count : Nat) : O :=
  if 1 < count then
    node (cv (tree start (leftCount count))) (cv (tree (start + leftCount count) (count - leftCount count)))
  else leaf start
termination_by count
decreasing_by
  · exact leftCount_lt (by assumption)
  · have := leftCount_pos count
    omega

theorem tree_one (start : Nat) : tree cv node leaf start 1 = leaf start := by
  rw [tree, if_neg (by omega)]

theorem tree_add {k r : Nat} (hr : 0 < r) (hle : r ≤ 2 ^ k) (start : Nat) :
    tree cv node leaf start (2 ^ k + r) =
      node (cv (tree cv node leaf start (2 ^ k))) (cv (tree cv node leaf (start + 2 ^ k) r)) := by
  have hpow : 0 < 2 ^ k := Nat.two_pow_pos k
  rw [tree, if_pos (by omega), leftCount_eq hr hle, Nat.add_sub_cancel_left]

variable {leaf} in
/-- The tree depends on its leaves only. -/
theorem tree_congr {leaf' : Nat → O} {start count : Nat} (hpos : 0 < count)
    (h : ∀ i, start ≤ i → i < start + count → leaf i = leaf' i) :
    tree cv node leaf start count = tree cv node leaf' start count := by
  induction start, count using tree.induct with
  | case1 start count hlt ihl ihr =>
    have hl := leftCount_lt hlt
    have hp := leftCount_pos count
    rw [tree.eq_def, if_pos hlt, tree.eq_def cv node leaf', if_pos hlt]
    rw [ihl hp fun i h1 h2 => h i h1 (by omega), ihr (by omega) fun i h1 h2 => h i (by omega) (by omega)]
  | case2 start count hle =>
    rw [tree.eq_def, if_neg hle, tree.eq_def cv node leaf', if_neg hle]
    exact h start (Nat.le_refl _) (by omega)

/-! ### The stack -/

/-- The values of the complete subtrees over the first `n * 2 ^ k` leaves that have `2 ^ k` of them at least, the last
one first. -/
def peaks (k n : Nat) : List V :=
  if n = 0 then []
  else if n % 2 = 0 then peaks (k + 1) (n / 2)
  else cv (tree cv node leaf ((n - 1) * 2 ^ k) (2 ^ k)) :: peaks (k + 1) (n / 2)
termination_by n
decreasing_by all_goals omega

/-- While the number of leaves is even, the top of the stack and the new value make a larger subtree; `none` if there
is no top. -/
def merge : List V → Nat → V → Option (List V)
  | [], total, new => if total % 2 = 0 then none else some [new]
  | left :: rest, total, new =>
    if total % 2 = 0 then merge rest (total / 2) (cv (node left new)) else some (new :: left :: rest)

theorem merge_odd {total : Nat} (h : total % 2 ≠ 0) (stack : List V) (new : V) :
    merge cv node stack total new = some (new :: stack) := by
  cases stack with
  | nil => rw [merge, if_neg h]
  | cons left rest => rw [merge, if_neg h]

/-- The stack folded onto the tree of the leaves behind it. -/
def fold (out : O) (stack : List V) : O := stack.foldl (fun out left => node left (cv out)) out

/-- Two neighbouring subtrees of the same size make one. -/
theorem tree_double (m k : Nat) :
    tree cv node leaf (m * 2 ^ (k + 1)) (2 ^ (k + 1)) =
      node (cv (tree cv node leaf (2 * m * 2 ^ k) (2 ^ k))) (cv (tree cv node leaf ((2 * m + 1) * 2 ^ k) (2 ^ k))) := by
  have hsize : 2 ^ (k + 1) = 2 ^ k + 2 ^ k := by rw [Nat.pow_succ]; omega
  have hstart : m * 2 ^ (k + 1) = 2 * m * 2 ^ k := by rw [Nat.pow_succ, Nat.mul_comm 2 m, Nat.mul_assoc, Nat.mul_comm 2]
  have hnext : (2 * m + 1) * 2 ^ k = 2 * m * 2 ^ k + 2 ^ k := by rw [Nat.add_mul, Nat.one_mul]
  rw [hstart, hsize, tree_add cv node leaf (Nat.two_pow_pos k) (Nat.le_refl _), hnext]

/-- The next subtree goes on the stack, and the merge never misses a top. -/
theorem merge_peaks (k n : Nat) :
    merge cv node (peaks cv node leaf k n) (n + 1) (cv (tree cv node leaf (n * 2 ^ k) (2 ^ k))) =
      some (peaks cv node leaf k (n + 1)) := by
  induction n using Nat.strong_induction_on generalizing k with
  | _ n ih =>
    rcases Nat.mod_two_eq_zero_or_one n with heven | hodd
    · -- the new value stays as it is
      have hpeaks : peaks cv node leaf k n = peaks cv node leaf (k + 1) (n / 2) := by
        by_cases hn : n = 0
        · subst hn
          rw [peaks, if_pos rfl, peaks, if_pos (by omega)]
        · rw [peaks, if_neg hn, if_pos heven]
      rw [peaks.eq_def cv node leaf k (n + 1), if_neg (by omega), if_neg (by omega), hpeaks,
        merge_odd cv node (by omega), Nat.add_sub_cancel, show (n + 1) / 2 = n / 2 by omega]
    · -- it is merged with the top, and the rest is the stack of half as many subtrees of twice the size
      obtain ⟨m, rfl⟩ : ∃ m, n = 2 * m + 1 := ⟨n / 2, by omega⟩
      have hhalf : (2 * m + 1) / 2 = m := by omega
      rw [peaks, if_neg (by omega), if_neg (by omega), merge, if_pos (by omega), hhalf, Nat.add_sub_cancel,
        ← tree_double cv node leaf, show (2 * m + 1 + 1) / 2 = m + 1 by omega, ih m (by omega),
        peaks.eq_def cv node leaf k (2 * m + 1 + 1), if_neg (by omega), if_pos (by omega),
        show (2 * m + 1 + 1) / 2 = m + 1 by omega]

/-- The right edge: the stack folded onto at most `2 ^ k` leaves more is the whole tree. -/
theorem fold_peaks (k n : Nat) {r : Nat} (hr : 0 < r) (hle : r ≤ 2 ^ k) :
    fold cv node (tree cv node leaf (n * 2 ^ k) r) (peaks cv node leaf k n) = tree cv node leaf 0 (n * 2 ^ k + r) := by
  induction n using Nat.strong_induction_on generalizing k r with
  | _ n ih =>
    have hdouble : ∀ m, m * 2 ^ (k + 1) = 2 * m * 2 ^ k := by
      intro m
      rw [Nat.pow_succ, Nat.mul_comm 2 m, Nat.mul_assoc, Nat.mul_comm 2]
    rcases Nat.mod_two_eq_zero_or_one n with heven | hodd
    · by_cases hn : n = 0
      · subst hn
        rw [peaks, if_pos rfl, Nat.zero_mul, Nat.zero_add]
        rfl
      · obtain ⟨m, rfl⟩ : ∃ m, n = 2 * m := ⟨n / 2, by omega⟩
        have hle' : r ≤ 2 ^ (k + 1) := by rw [Nat.pow_succ]; omega
        have := ih m (by omega) (k + 1) hr hle'
        rw [hdouble] at this
        rw [peaks, if_neg hn, if_pos heven, show 2 * m / 2 = m by omega, this]
    · obtain ⟨m, rfl⟩ : ∃ m, n = 2 * m + 1 := ⟨n / 2, by omega⟩
      have hle' : 2 ^ k + r ≤ 2 ^ (k + 1) := by rw [Nat.pow_succ]; omega
      have := ih m (by omega) (k + 1) (by omega) hle'
      rw [hdouble, tree_add cv node leaf hr hle] at this
      have hnext : (2 * m + 1) * 2 ^ k = 2 * m * 2 ^ k + 2 ^ k := by rw [Nat.add_mul, Nat.one_mul]
      rw [peaks, if_neg (by omega), if_neg (by omega), show (2 * m + 1) / 2 = m by omega, Nat.add_sub_cancel, fold,
        List.foldl_cons, hnext, Nat.add_assoc, ← this]
      rfl

end TreeStack

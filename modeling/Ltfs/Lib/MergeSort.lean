import Mathlib.Data.List.Basic

/-!
# Merge sort from the bottom up

The sort of linked lists: each pass merges neighbouring blocks of a size, and the size
doubles until one merge covers the list. It is stable, and the comparison function
need not be an order for it to end.

* `mergePass`, `mergePasses`, `hashSort` — the sort.
* `hashSort_perm` — nothing is lost.
* `hashSort_pairwise` — with a total, transitive comparison the result is sorted.
* `map_hashSort` — the result depends on the comparisons between the elements only.
-/

namespace Ltfs.Lib

variable {α β : Type}

/-- The merge of `x :: xs`, where `rest` merges `xs`. -/
def mergeCons (le : α → α → Bool) (x : α) (xs : List α) (rest : List α → List α) :
    List α → List α
  | [] => x :: xs
  | y :: ys => if le x y then x :: rest (y :: ys) else y :: mergeCons le x xs rest ys

/-- `List.merge`, by structural recursion so that it can be evaluated. -/
def merge (le : α → α → Bool) : List α → List α → List α
  | [], ys => ys
  | x :: xs, ys => mergeCons le x xs (merge le xs) ys

/-- One pass: neighbouring blocks of size `n` are merged. There are at most `rounds`
merges. -/
def mergePass (le : α → α → Bool) (n : ℕ) : (rounds : ℕ) → List α → List α
  | 0, l => l
  | rounds + 1, l =>
    if l = [] then []
    else merge le (l.take n) ((l.drop n).take n) ++ mergePass le n rounds (l.drop (2 * n))

/-- Passes with doubled block sizes, up to the one that makes a single merge. -/
def mergePasses (le : α → α → Bool) : (rounds n : ℕ) → List α → List α
  | 0, _, l => l
  | rounds + 1, n, l =>
    let l' := mergePass le n l.length l
    if l.length ≤ 2 * n then l' else mergePasses le rounds (2 * n) l'

/-- `HASH_SORT` of uthash, for a comparison function that gives a number at most zero
where `le` holds. -/
def hashSort (le : α → α → Bool) (l : List α) : List α := mergePasses le (l.length + 1) 1 l

theorem merge_eq (le : α → α → Bool) (xs ys : List α) : merge le xs ys = List.merge xs ys le := by
  induction xs generalizing ys with
  | nil => simp [merge]
  | cons x xs ih =>
    unfold merge
    induction ys with
    | nil => simp [mergeCons]
    | cons y ys ihy =>
      rw [mergeCons, List.cons_merge_cons]
      split
      · rw [ih]
      · rw [ihy]

/-! ## Elements -/

theorem take_drop_two (n : ℕ) (l : List α) :
    l.take n ++ ((l.drop n).take n ++ l.drop (2 * n)) = l := by
  have hdrop : l.drop (2 * n) = (l.drop n).drop n := by
    rw [List.drop_drop]
    congr 1
    omega
  rw [hdrop, List.take_append_drop, List.take_append_drop]

theorem mergePass_perm (le : α → α → Bool) (n rounds : ℕ) (l : List α) :
    (mergePass le n rounds l).Perm l := by
  induction rounds generalizing l with
  | zero => exact List.Perm.refl l
  | succ rounds ih =>
    unfold mergePass
    rw [merge_eq]
    split
    · next h => rw [h]
    · have hmerge : (List.merge (l.take n) ((l.drop n).take n) le).Perm
          (l.take n ++ (l.drop n).take n) := List.merge_perm_append le
      have hall := hmerge.append (ih (l.drop (2 * n)))
      rw [List.append_assoc, take_drop_two] at hall
      exact hall

theorem mergePasses_perm (le : α → α → Bool) (rounds n : ℕ) (l : List α) :
    (mergePasses le rounds n l).Perm l := by
  induction rounds generalizing n l with
  | zero => exact List.Perm.refl l
  | succ rounds ih =>
    unfold mergePasses
    dsimp only
    split
    · exact mergePass_perm le n _ l
    · exact (ih (2 * n) _).trans (mergePass_perm le n _ l)

theorem hashSort_perm (le : α → α → Bool) (l : List α) : (hashSort le l).Perm l :=
  mergePasses_perm le _ 1 l

theorem mem_hashSort {le : α → α → Bool} {l : List α} {a : α} : a ∈ hashSort le l ↔ a ∈ l :=
  (hashSort_perm le l).mem_iff

/-! ## Order -/

section Order

variable {le : α → α → Bool} (htrans : ∀ a b c, le a b → le b c → le a c)
  (htotal : ∀ a b, le a b || le b a)

/-- Every block of size `n` is sorted. -/
def BlocksSorted (le : α → α → Bool) (n : ℕ) (l : List α) : Prop :=
  ∀ k, ((l.drop (k * n)).take n).Pairwise fun a b => le a b

theorem blocksSorted_one (le : α → α → Bool) (l : List α) : BlocksSorted le 1 l := by
  intro k
  rcases hl : (l.drop (k * 1)).take 1 with - | ⟨a, - | ⟨b, t⟩⟩
  · exact List.Pairwise.nil
  · exact List.pairwise_singleton _ a
  · have hlen := congrArg List.length hl
    rw [List.length_take] at hlen
    simp only [List.length_cons] at hlen
    omega

theorem BlocksSorted.drop {n : ℕ} {l : List α} (h : BlocksSorted le n l) (j : ℕ) :
    BlocksSorted le n (l.drop (j * n)) := by
  intro k
  have hk := h (j + k)
  rw [Nat.add_mul, ← List.drop_drop] at hk
  exact hk

include htrans htotal

/-- A pass makes sorted blocks of twice the size. -/
theorem mergePass_blocks {n : ℕ} (hn : 0 < n) (rounds : ℕ) {l : List α}
    (hrounds : l.length ≤ rounds) (h : BlocksSorted le n l) :
    BlocksSorted le (2 * n) (mergePass le n rounds l) := by
  induction rounds generalizing l with
  | zero =>
    have hnil := List.length_eq_zero_iff.mp (Nat.le_zero.mp hrounds)
    intro k
    rw [hnil]
    simp [mergePass]
  | succ rounds ih =>
    unfold mergePass
    rw [merge_eq]
    split
    · intro k
      simp
    · next hne =>
      have hpos : 0 < l.length := List.length_pos_iff.mpr hne
      have hfirst := h 0
      have hsecond := h 1
      rw [Nat.zero_mul, List.drop_zero] at hfirst
      rw [Nat.one_mul] at hsecond
      have hsorted := List.pairwise_merge htrans htotal _ _ hfirst hsecond
      have hrest : BlocksSorted le (2 * n) (mergePass le n rounds (l.drop (2 * n))) := by
        refine ih ?_ (h.drop 2)
        rw [List.length_drop]
        omega
      have hlen : (List.merge (l.take n) ((l.drop n).take n) le).length =
          min (2 * n) l.length := by
        rw [(List.merge_perm_append le).length_eq, List.length_append, List.length_take,
          List.length_take, List.length_drop]
        omega
      generalize List.merge (l.take n) ((l.drop n).take n) le = merged at hsorted hlen
      intro k
      rcases Nat.lt_or_ge l.length (2 * n) with hshort | hfull
      · -- the merge covers all that is left
        have hnil : l.drop (2 * n) = [] := List.drop_eq_nil_of_le (Nat.le_of_lt hshort)
        have hempty : mergePass le n rounds [] = [] := by
          cases rounds with
          | zero => rfl
          | succ rounds => rfl
        rw [hnil, hempty, List.append_nil]
        exact hsorted.sublist ((List.take_sublist _ _).trans (List.drop_sublist _ _))
      · have hexact : merged.length = 2 * n := by omega
        cases k with
        | zero =>
          rw [Nat.zero_mul, List.drop_zero, ← hexact, List.take_left]
          exact hsorted
        | succ k =>
          have hskip : (merged ++ mergePass le n rounds (l.drop (2 * n))).drop ((k + 1) * (2 * n)) =
              (mergePass le n rounds (l.drop (2 * n))).drop (k * (2 * n)) := by
            rw [Nat.add_mul, Nat.one_mul, Nat.add_comm, ← List.drop_drop, ← hexact,
              List.drop_left]
          rw [hskip]
          exact hrest k

theorem mergePasses_pairwise {n : ℕ} (hn : 0 < n) (rounds : ℕ) {l : List α}
    (hrounds : l.length < rounds + n) (h : BlocksSorted le n l) :
    (mergePasses le rounds n l).Pairwise fun a b => le a b := by
  induction rounds generalizing n l with
  | zero =>
    have hall := h 0
    rw [Nat.zero_mul, List.drop_zero, List.take_of_length_le (by omega)] at hall
    exact hall
  | succ rounds ih =>
    have hblocks := mergePass_blocks htrans htotal hn l.length (Nat.le_refl _) h
    have hlen := (mergePass_perm le n l.length l).length_eq
    unfold mergePasses
    dsimp only
    split
    · next hshort =>
      have hall := hblocks 0
      rw [Nat.zero_mul, List.drop_zero, List.take_of_length_le (by omega)] at hall
      exact hall
    · exact ih (by omega) (by omega) hblocks

/-- With a total, transitive comparison the result is sorted. -/
theorem hashSort_pairwise (l : List α) : (hashSort le l).Pairwise fun a b => le a b :=
  mergePasses_pairwise htrans htotal Nat.one_pos _ (by omega) (blocksSorted_one le l)

end Order

/-! ## Comparisons -/

section Map

variable {r : α → α → Bool} {s : β → β → Bool} {f : α → β}

theorem map_mergePass (n rounds : ℕ) {l : List α}
    (h : ∀ a ∈ l, ∀ b ∈ l, r a b = s (f a) (f b)) :
    (mergePass r n rounds l).map f = mergePass s n rounds (l.map f) := by
  induction rounds generalizing l with
  | zero => rfl
  | succ rounds ih =>
    unfold mergePass
    rw [merge_eq, merge_eq]
    by_cases hnil : l = []
    · rw [if_pos hnil, if_pos (by rw [hnil]; rfl)]
      rfl
    · rw [if_neg hnil, if_neg (by simpa using hnil), List.map_append, ← List.map_take,
        ← List.map_drop, ← List.map_take, ← List.map_drop]
      rw [List.map_merge fun a ha b hb => h a (List.mem_of_mem_take ha) b
        (List.mem_of_mem_drop (List.mem_of_mem_take hb))]
      rw [ih fun a ha b hb => h a (List.mem_of_mem_drop ha) b (List.mem_of_mem_drop hb)]

theorem map_mergePasses (rounds n : ℕ) {l : List α}
    (h : ∀ a ∈ l, ∀ b ∈ l, r a b = s (f a) (f b)) :
    (mergePasses r rounds n l).map f = mergePasses s rounds n (l.map f) := by
  induction rounds generalizing n l with
  | zero => rfl
  | succ rounds ih =>
    have hpass := map_mergePass n l.length h
    have hmem := fun a => (mergePass_perm r n l.length l).mem_iff (a := a)
    unfold mergePasses
    dsimp only
    rw [List.length_map, ← hpass]
    split
    · rfl
    · exact ih (2 * n) fun a ha b hb => h a ((hmem a).mp ha) b ((hmem b).mp hb)

/-- The result depends on the comparisons between the elements only. -/
theorem map_hashSort {l : List α} (h : ∀ a ∈ l, ∀ b ∈ l, r a b = s (f a) (f b)) :
    (hashSort r l).map f = hashSort s (l.map f) := by
  unfold hashSort
  rw [List.length_map]
  exact map_mergePasses _ 1 h

end Map

/-- Two elements change places unless the first is at most the second. -/
theorem hashSort_pair (le : α → α → Bool) (a b : α) :
    hashSort le [a, b] = if le a b then [a, b] else [b, a] := by
  cases hle : le a b with
  | true => simp [hashSort, mergePasses, mergePass, merge, mergeCons, hle]
  | false => simp [hashSort, mergePasses, mergePass, merge, mergeCons, hle]

end Ltfs.Lib

import Mathlib.Data.List.Nodup
import Mathlib.Logic.Function.Basic

/-!
# Doubly linked lists

Nodes in a heap, each with a link in either direction.

1. `Heap` — addresses from `fresh` on are unused; `alloc`, `modify`, `free`.
2. `Seg` — a row of linked nodes between two links; `seg_append` takes it apart, `Seg.congr` is its
   frame rule.
3. `Owns` — a list of its own; `Owns.append` and `Owns.dropLast` add and remove a node at the end.
4. `commonPrefix` — how far two lists agree.
-/

namespace Ltfs.Lib.LinkedList

open Function

variable {α : Type}

/-- A node. -/
structure Node (α : Type) where
  prev : Option ℕ
  next : Option ℕ
  val : α
deriving DecidableEq, Repr

/-- Nodes by their addresses. -/
structure Heap (α : Type) where
  cells : ℕ → Option (Node α)
  fresh : ℕ
  unused : ∀ a, fresh ≤ a → cells a = none

namespace Heap

/-- A new node at the address `fresh`. -/
def alloc (h : Heap α) (n : Node α) : Heap α where
  cells := update h.cells h.fresh (some n)
  fresh := h.fresh + 1
  unused := fun a ha => by
    rw [update_of_ne (by omega)]
    exact h.unused a (by omega)

/-- A node is changed. -/
def modify (h : Heap α) (a : ℕ) (f : Node α → Node α) : Heap α where
  cells := update h.cells a ((h.cells a).map f)
  fresh := h.fresh
  unused := fun b hb => by
    by_cases hab : b = a
    · rw [hab, update_self, ← hab, h.unused b hb, Option.map_none]
    · rw [update_of_ne hab]
      exact h.unused b hb

/-- A node is given back. -/
def free (h : Heap α) (a : ℕ) : Heap α where
  cells := update h.cells a none
  fresh := h.fresh
  unused := fun b hb => by
    by_cases hab : b = a
    · rw [hab, update_self]
    · rw [update_of_ne hab]
      exact h.unused b hb

variable {h : Heap α} {a b : ℕ} {n : Node α} {f : Node α → Node α}

@[simp] theorem alloc_cells_self : (h.alloc n).cells h.fresh = some n := update_self ..

@[simp] theorem modify_cells_self : (h.modify a f).cells a = (h.cells a).map f := update_self ..

theorem alloc_cells (hb : b ≠ h.fresh) : (h.alloc n).cells b = h.cells b := update_of_ne hb ..

theorem modify_cells (hb : b ≠ a) : (h.modify a f).cells b = h.cells b := update_of_ne hb ..

theorem free_cells (hb : b ≠ a) : (h.free a).cells b = h.cells b := update_of_ne hb ..

/-- An address in use is not the next one. -/
theorem ne_fresh (hn : h.cells a = some n) : a ≠ h.fresh := by
  rintro rfl
  rw [h.unused _ (Nat.le_refl _)] at hn
  cases hn

end Heap

/-! ## Segments -/

/-- The address of the first node of a row. -/
def first (items : List (ℕ × α)) : Option ℕ := items.head?.map Prod.fst

/-- The address of the last node of a row. -/
def last (items : List (ℕ × α)) : Option ℕ := items.getLast?.map Prod.fst

/-- A row of nodes, linked to each other, to `prev` in front of them and to `after` behind. -/
def Seg (h : Heap α) : Option ℕ → List (ℕ × α) → Option ℕ → Prop
  | _, [], _ => True
  | prev, (a, v) :: rest, after =>
    h.cells a = some ⟨prev, (first rest).or after, v⟩ ∧ Seg h (some a) rest after

variable {h h' : Heap α} {prev after : Option ℕ} {items : List (ℕ × α)}

@[simp] theorem first_nil : first ([] : List (ℕ × α)) = none := rfl

@[simp] theorem first_cons (x : ℕ × α) : first (x :: items) = some x.1 := rfl

@[simp] theorem last_concat (x : ℕ × α) : last (items ++ [x]) = some x.1 := by
  rw [last, List.getLast?_append, List.getLast?_singleton, Option.some_or, Option.map_some]

theorem first_append (xs ys : List (ℕ × α)) : first (xs ++ ys) = (first xs).or (first ys) := by
  cases xs with
  | nil => rfl
  | cons x xs => rfl

theorem last_cons (x : ℕ × α) : (last (x :: items)).or prev = (last items).or (some x.1) := by
  rw [last, last, List.getLast?_cons]
  cases items.getLast? <;> rfl

/-- A row is two rows, one behind the other. -/
theorem seg_append (xs ys : List (ℕ × α)) : ∀ {prev : Option ℕ},
    Seg h prev (xs ++ ys) after ↔
      Seg h prev xs ((first ys).or after) ∧ Seg h ((last xs).or prev) ys after := by
  induction xs with
  | nil => exact fun {prev} => ⟨fun hs => ⟨trivial, hs⟩, fun hs => hs.2⟩
  | cons x xs ih =>
    intro prev
    rw [List.cons_append, Seg, Seg, ih, first_append, Option.or_assoc, last_cons, and_assoc]

/-- Other nodes do not matter. -/
theorem Seg.congr (hcells : ∀ x ∈ items, h'.cells x.1 = h.cells x.1) (hs : Seg h prev items after) :
    Seg h' prev items after := by
  induction items generalizing prev with
  | nil => exact hs
  | cons x items ih =>
    rw [List.forall_mem_cons] at hcells
    exact ⟨hcells.1.trans hs.1, ih hcells.2 hs.2⟩

/-- The nodes of a row are there. -/
theorem Seg.exists_cell (hs : Seg h prev items after) : ∀ x ∈ items, ∃ n, h.cells x.1 = some n := by
  induction items generalizing prev with
  | nil => exact fun x hx => (nomatch hx)
  | cons x items ih =>
    rw [List.forall_mem_cons]
    exact ⟨⟨_, hs.1⟩, ih hs.2⟩

/-! ## Lists -/

/-- A whole list, with its nodes in their order. -/
structure Owns (h : Heap α) (items : List (ℕ × α)) : Prop where
  nodup : (items.map Prod.fst).Nodup
  seg : Seg h none items none

theorem Owns.nil : Owns h [] := ⟨List.nodup_nil, trivial⟩

/-- A heap that differs elsewhere only. -/
theorem Owns.congr (ho : Owns h items) (hcells : ∀ x ∈ items, h'.cells x.1 = h.cells x.1) :
    Owns h' items := ⟨ho.nodup, ho.seg.congr hcells⟩

theorem Owns.ne_fresh (ho : Owns h items) : ∀ x ∈ items, x.1 ≠ h.fresh := by
  intro x hx
  obtain ⟨n, hn⟩ := ho.seg.exists_cell x hx
  exact Heap.ne_fresh hn

theorem nodup_concat (xs : List (ℕ × α)) (x : ℕ × α) :
    ((xs ++ [x]).map Prod.fst).Nodup ↔ (xs.map Prod.fst).Nodup ∧ ∀ y ∈ xs, y.1 ≠ x.1 := by
  rw [List.map_append, List.map_singleton, ← List.concat_eq_append, List.nodup_concat, and_comm]
  simp only [List.mem_map, not_exists, not_and]

/-- The first node of a list. -/
theorem Owns.singleton (h : Heap α) (v : α) : Owns (h.alloc ⟨none, none, v⟩) [(h.fresh, v)] :=
  ⟨List.nodup_singleton _, Heap.alloc_cells_self, trivial⟩

/-- A node behind the last one. -/
theorem Owns.append {t : ℕ} {w : α} (ho : Owns h (items ++ [(t, w)])) (v : α) :
    Owns ((h.alloc ⟨some t, none, v⟩).modify t fun n => { n with next := some h.fresh })
      (items ++ [(t, w)] ++ [(h.fresh, v)]) := by
  have hfresh := ho.ne_fresh
  have ht : t ≠ h.fresh := hfresh (t, w) (List.mem_append_right _ List.mem_cons_self)
  obtain ⟨hnodup, hne⟩ := (nodup_concat items (t, w)).mp ho.nodup
  have hseg := ho.seg
  rw [seg_append] at hseg
  obtain ⟨hitems, hlast, -⟩ := hseg
  constructor
  · rw [nodup_concat]
    exact ⟨ho.nodup, hfresh⟩
  · rw [seg_append, seg_append]
    refine ⟨⟨hitems.congr fun x hx => ?_, ?_, trivial⟩, ?_, trivial⟩
    · -- in front of the last node nothing changes
      rw [Heap.modify_cells (hne x hx), Heap.alloc_cells (hfresh x (List.mem_append_left _ hx))]
    · rw [Heap.modify_cells_self, Heap.alloc_cells ht, hlast]
      rfl
    · rw [Heap.modify_cells (Ne.symm ht), Heap.alloc_cells_self, last_concat]
      rfl

/-- The last node is taken away. -/
theorem Owns.dropLast {t a : ℕ} {w v : α} (ho : Owns h (items ++ [(t, w)] ++ [(a, v)])) :
    Owns ((h.modify t fun n => { n with next := none }).free a) (items ++ [(t, w)]) := by
  obtain ⟨hnodup, hne⟩ := (nodup_concat _ (a, v)).mp ho.nodup
  obtain ⟨-, hne'⟩ := (nodup_concat items (t, w)).mp hnodup
  have hta : t ≠ a := hne (t, w) (List.mem_append_right _ List.mem_cons_self)
  have hseg := ho.seg
  rw [seg_append, seg_append] at hseg
  obtain ⟨⟨hitems, hlast, -⟩, -⟩ := hseg
  refine ⟨hnodup, ?_⟩
  rw [seg_append]
  refine ⟨hitems.congr fun x hx => ?_, ?_, trivial⟩
  · rw [Heap.free_cells (hne x (List.mem_append_left _ hx)), Heap.modify_cells (hne' x hx)]
  · rw [Heap.free_cells hta, Heap.modify_cells_self, hlast]
    rfl

/-! ## Common prefixes -/

/-- How many elements two lists begin with in common. -/
def commonPrefix [DecidableEq α] : List α → List α → ℕ
  | x :: xs, y :: ys => if x = y then commonPrefix xs ys + 1 else 0
  | _, _ => 0

theorem commonPrefix_append [DecidableEq α] (xs ys zs : List α) :
    commonPrefix (xs ++ ys) (xs ++ zs) = xs.length + commonPrefix ys zs := by
  induction xs with
  | nil => rw [List.length_nil, Nat.zero_add]; rfl
  | cons x xs ih =>
    rw [List.cons_append, List.cons_append, commonPrefix, if_pos rfl, ih, List.length_cons]
    omega

end Ltfs.Lib.LinkedList

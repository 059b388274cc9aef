import Mathlib.Data.List.Pairwise
import Mathlib.Data.Option.Basic
import Mathlib.Tactic.Linarith

/-!
# Segment lists as partial maps

A *segment* is a half-open run `[start, start + len)` of positions. A list of
segments, together with a value for every position of a segment, denotes a
partial map from positions to values: the first segment that covers a position
decides. Lists whose segments follow one another without overlap (`Ordered`)
are the normal form used by write caches and extent lists.

1. `segMap` — the denotation, with its `nil`/`cons`/`append` equations.
2. `Ordered` — sorted and pairwise disjoint; every covering segment decides.
3. `overlay` — one partial map laid over another, the meaning of "overwrite".
-/

namespace Ltfs.Lib

universe u v

/-- A half-open run of positions. -/
class Segment (σ : Type u) where
  start : σ → ℕ
  len : σ → ℕ

namespace Segment

variable {σ : Type u} [Segment σ] {β : Type v}

/-- First position after the segment. -/
def stop (s : σ) : ℕ := start s + len s

/-- The segment contains position `x`. -/
def Covers (s : σ) (x : ℕ) : Prop := start s ≤ x ∧ x < stop s

instance (s : σ) (x : ℕ) : Decidable (Covers s x) := inferInstanceAs (Decidable (_ ∧ _))

/-! ## Denotation -/

/-- The partial map a segment list denotes: the first covering segment decides. -/
def segMap (val : σ → ℕ → β) (l : List σ) (x : ℕ) : Option β :=
  (l.find? fun s => decide (Covers s x)).map fun s => val s x

@[simp] theorem segMap_nil (val : σ → ℕ → β) (x : ℕ) : segMap val [] x = none := rfl

theorem segMap_cons (val : σ → ℕ → β) (s : σ) (l : List σ) (x : ℕ) :
    segMap val (s :: l) x = if Covers s x then some (val s x) else segMap val l x := by
  by_cases h : Covers s x
  · simp [segMap, h]
  · simp [segMap, h]

theorem segMap_cons_pos {val : σ → ℕ → β} {s : σ} {l : List σ} {x : ℕ} (h : Covers s x) :
    segMap val (s :: l) x = some (val s x) := by
  rw [segMap_cons, if_pos h]

theorem segMap_cons_neg {val : σ → ℕ → β} {s : σ} {l : List σ} {x : ℕ} (h : ¬ Covers s x) :
    segMap val (s :: l) x = segMap val l x := by
  rw [segMap_cons, if_neg h]

theorem segMap_append (val : σ → ℕ → β) (l l' : List σ) (x : ℕ) :
    segMap val (l ++ l') x = (segMap val l x).or (segMap val l' x) := by
  induction l with
  | nil => simp
  | cons s l ih =>
    rw [List.cons_append, segMap_cons, segMap_cons]
    by_cases h : Covers s x
    · simp [h]
    · simp [h, ih]

theorem segMap_eq_none_iff {val : σ → ℕ → β} {l : List σ} {x : ℕ} :
    segMap val l x = none ↔ ∀ s ∈ l, ¬ Covers s x := by
  simp [segMap]

/-- A position below every segment is not mapped. -/
theorem segMap_eq_none_of_lt {val : σ → ℕ → β} {l : List σ} {x : ℕ}
    (h : ∀ s ∈ l, x < start s) : segMap val l x = none := by
  rw [segMap_eq_none_iff]
  intro s hs hc
  have := h s hs
  have := hc.1
  omega

/-- A position at or past the end of every segment is not mapped. -/
theorem segMap_eq_none_of_le {val : σ → ℕ → β} {l : List σ} {x : ℕ}
    (h : ∀ s ∈ l, stop s ≤ x) : segMap val l x = none := by
  rw [segMap_eq_none_iff]
  intro s hs hc
  have := h s hs
  have := hc.2
  omega

/-! ## Ordered lists -/

/-- Sorted by position and pairwise disjoint. -/
def Ordered (l : List σ) : Prop := l.Pairwise fun a b => stop a ≤ start b

theorem ordered_nil : Ordered ([] : List σ) := List.Pairwise.nil

theorem ordered_cons {s : σ} {l : List σ} :
    Ordered (s :: l) ↔ (∀ t ∈ l, stop s ≤ start t) ∧ Ordered l :=
  List.pairwise_cons

theorem ordered_append {l l' : List σ} :
    Ordered (l ++ l') ↔ Ordered l ∧ Ordered l' ∧ ∀ s ∈ l, ∀ t ∈ l', stop s ≤ start t :=
  List.pairwise_append

/-- In an ordered list every segment that covers a position decides its value. -/
theorem segMap_eq_some_of_mem {val : σ → ℕ → β} {l : List σ} (hl : Ordered l) {s : σ}
    (hs : s ∈ l) {x : ℕ} (hx : Covers s x) : segMap val l x = some (val s x) := by
  induction l with
  | nil => cases hs
  | cons t l ih =>
    rw [ordered_cons] at hl
    rw [segMap_cons]
    rcases List.mem_cons.mp hs with rfl | hmem
    · rw [if_pos hx]
    · -- `t` ends before `s` starts, so it cannot cover `x`
      have hts := hl.1 s hmem
      have hnot : ¬ Covers t x := by
        intro hc
        have h1 := hc.2
        have h2 := hx.1
        omega
      rw [if_neg hnot]
      exact ih hl.2 hmem

/-- A value of the denoted map comes from a segment of the list. -/
theorem exists_mem_of_segMap_eq_some {val : σ → ℕ → β} {l : List σ} {x : ℕ} {b : β}
    (h : segMap val l x = some b) : ∃ s ∈ l, Covers s x ∧ val s x = b := by
  simp only [segMap, Option.map_eq_some_iff] at h
  obtain ⟨s, hs, hb⟩ := h
  exact ⟨s, List.mem_of_find?_eq_some hs, by simpa using List.find?_some hs, hb⟩

/-! ## Overlays -/

/-- The map `g` laid over the map `f`. -/
def overlay (f g : ℕ → Option β) : ℕ → Option β := fun x => (g x).or (f x)

theorem overlay_apply (f g : ℕ → Option β) (x : ℕ) : overlay f g x = (g x).or (f x) := rfl

theorem overlay_assoc (f g h : ℕ → Option β) :
    overlay (overlay f g) h = overlay f (overlay g h) := by
  funext x
  simp [overlay, Option.or_assoc]

end Segment

end Ltfs.Lib

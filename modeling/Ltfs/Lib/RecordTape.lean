import Mathlib.Logic.Function.Basic
import Mathlib.Data.List.Basic

/-!
# A tape of records and marks

A partition is a list of data records and marks, and the tape stands in front of one of its items
or at the end. Writing at a position discards everything from there on; spacing goes over marks.

* `nthMark` — where a list has a mark with `n` marks in front of it.
* `RecordTape` — the tape, with `append`, `moveTo`, `spaceForward` and `spaceBackward`.
-/

namespace Ltfs.Lib

/-- What stands at one block of a tape. -/
inductive TapeItem (α : Type*) where
  | data (content : α)
  | mark
deriving DecidableEq, Repr

namespace TapeItem

variable {α : Type*}

def isMark : TapeItem α → Bool
  | .data _ => false
  | .mark => true

/-- The place of the mark that has `n` marks in front of it. -/
def nthMark : List (TapeItem α) → ℕ → Option ℕ
  | [], _ => none
  | .mark :: _, 0 => some 0
  | .mark :: l, n + 1 => (nthMark l n).map (· + 1)
  | .data _ :: l, n => (nthMark l n).map (· + 1)

@[simp]
theorem nthMark_nil (n : ℕ) : nthMark ([] : List (TapeItem α)) n = none := rfl

theorem nthMark_data (a : α) (l : List (TapeItem α)) (n : ℕ) :
    nthMark (.data a :: l) n = (nthMark l n).map (· + 1) := by
  cases n with
  | zero => rfl
  | succ n => rfl

theorem nthMark_lt {l : List (TapeItem α)} {n k : ℕ} (h : nthMark l n = some k) :
    k < l.length := by
  induction l generalizing n k with
  | nil => cases h
  | cons x l ih =>
    have hnext : ∀ m, (nthMark l m).map (· + 1) = some k → k < (x :: l).length := by
      intro m hm
      rcases Option.map_eq_some_iff.mp hm with ⟨j, hj, rfl⟩
      have hlt := ih hj
      simp only [List.length_cons]
      omega
    cases x with
    | data a =>
      rw [nthMark_data] at h
      exact hnext n h
    | mark =>
      cases n with
      | zero =>
        cases h
        exact Nat.succ_pos _
      | succ n => exact hnext n h

end TapeItem

/-- A tape with its head. -/
structure RecordTape (α : Type*) where
  items : ℕ → List (TapeItem α)
  partition : ℕ
  block : ℕ

namespace RecordTape

variable {α : Type*}

/-- The partition under the head. -/
def current (t : RecordTape α) : List (TapeItem α) := t.items t.partition

/-- The number of marks in front of the head. -/
def filemarks (t : RecordTape α) : ℕ := (t.current.take t.block).countP TapeItem.isMark

/-- Writing discards everything from the head on. -/
def append (t : RecordTape α) (l : List (TapeItem α)) : RecordTape α where
  items := Function.update t.items t.partition (t.current.take t.block ++ l)
  partition := t.partition
  block := t.block + l.length

/-- The head goes to a block, or to the end where there is none. -/
def moveTo (t : RecordTape α) (partition block : ℕ) : RecordTape α where
  items := t.items
  partition := partition
  block := min block (t.items partition).length

/-- Over `count` marks, to the block behind the last of them. Where there are not so many, the head
ends at the end of the data. -/
def spaceForward (t : RecordTape α) : ℕ → Bool × RecordTape α
  | 0 => (true, t)
  | n + 1 =>
    match TapeItem.nthMark (t.current.drop t.block) n with
    | some k => (true, { t with block := t.block + k + 1 })
    | none => (false, { t with block := t.current.length })

/-- Back over `count` marks, to the block of the last of them. Where there are not so many, the
head ends at the beginning. -/
def spaceBackward (t : RecordTape α) : ℕ → Bool × RecordTape α
  | 0 => (true, t)
  | n + 1 =>
    match TapeItem.nthMark (t.current.take t.block).reverse n with
    | some k => (true, { t with block := t.block - 1 - k })
    | none => (false, { t with block := 0 })

/-- The head is on the tape. -/
def Placed (t : RecordTape α) : Prop := t.block ≤ t.current.length

theorem append_current (t : RecordTape α) (l : List (TapeItem α)) :
    (t.append l).current = t.current.take t.block ++ l := Function.update_self ..

theorem append_of_ne (t : RecordTape α) (l : List (TapeItem α)) {p : ℕ} (hp : p ≠ t.partition) :
    (t.append l).items p = t.items p := Function.update_of_ne hp ..

theorem Placed.append {t : RecordTape α} (ht : t.Placed) (l : List (TapeItem α)) :
    (t.append l).Placed := by
  unfold Placed at ht ⊢
  rw [append_current, List.length_append, List.length_take, Nat.min_eq_left ht]
  exact Nat.le_refl _

/-- Writing in two steps is writing at once. -/
theorem append_append {t : RecordTape α} (ht : t.Placed) (l l' : List (TapeItem α)) :
    (t.append l).append l' = t.append (l ++ l') := by
  have hlen : (t.current.take t.block ++ l).length = t.block + l.length := by
    rw [List.length_append, List.length_take, Nat.min_eq_left ht]
  have htake : (t.append l).current.take (t.append l).block = t.current.take t.block ++ l := by
    rw [append_current]
    exact List.take_of_length_le (Nat.le_of_eq hlen)
  have hitems : Function.update (t.append l).items t.partition
      ((t.append l).current.take (t.append l).block ++ l') =
      Function.update t.items t.partition (t.current.take t.block ++ (l ++ l')) := by
    rw [htake, List.append_assoc]
    exact Function.update_idem ..
  have hblock : t.block + l.length + l'.length = t.block + (l ++ l').length := by
    rw [List.length_append, Nat.add_assoc]
  unfold append at hitems ⊢
  simp only at hitems ⊢
  rw [hitems, hblock]

theorem filemarks_append {t : RecordTape α} (ht : t.Placed) (l : List (TapeItem α)) :
    (t.append l).filemarks = t.filemarks + l.countP TapeItem.isMark := by
  have hlen : (t.current.take t.block ++ l).length = t.block + l.length := by
    rw [List.length_append, List.length_take, Nat.min_eq_left ht]
  unfold filemarks
  rw [append_current, ← List.countP_append]
  congr 1
  exact List.take_of_length_le (Nat.le_of_eq hlen)

end RecordTape

end Ltfs.Lib

import Mathlib.Data.List.Basic

/-!
# Searching an ordered list

A search goes through a list and ends with the first element it stops at, or with the last one.

* `upTo` — the elements it comes to.
* `exists_last_stop` — in an ordered list it ends with the least element to stop at.
* `exists_last_never` — with nothing to stop at it ends with the greatest element.
-/

namespace Ltfs.Lib

variable {α : Type*} (stop : α → Bool)

/-- A list up to the first element to stop at, which is included. -/
def upTo : List α → List α
  | [] => []
  | x :: l => if stop x then [x] else x :: upTo l

theorem upTo_cons_stop {x : α} (l : List α) (h : stop x = true) : upTo stop (x :: l) = [x] := by
  unfold upTo
  rw [if_pos h]

theorem upTo_cons_go {x : α} (l : List α) (h : ¬ stop x = true) :
    upTo stop (x :: l) = x :: upTo stop l := by
  rw [upTo, if_neg h]

theorem upTo_never {l : List α} (h : ∀ x ∈ l, ¬ stop x = true) : upTo stop l = l := by
  induction l with
  | nil => rfl
  | cons x l ih =>
    rw [upTo_cons_go stop l (h x (by simp)), ih fun y hy => h y (by simp [hy])]

variable {stop} {r : α → α → Prop} (hrefl : ∀ x, r x x)

include hrefl

/-- If there is an element to stop at, the search ends with the least of them. -/
theorem exists_last_stop {l : List α} (hord : l.Pairwise r) (hex : ∃ y ∈ l, stop y = true) :
    ∃ x ∈ l, (upTo stop l).getLast? = some x ∧ stop x = true ∧
      ∀ y ∈ l, stop y = true → r x y := by
  induction l with
  | nil =>
    rcases hex with ⟨y, hy, -⟩
    cases hy
  | cons x l ih =>
    rcases List.pairwise_cons.mp hord with ⟨hhead, htail⟩
    by_cases hx : stop x = true
    · -- it stops here, and everything behind is greater
      refine ⟨x, by simp, by rw [upTo_cons_stop stop l hx]; rfl, hx, ?_⟩
      intro y hy _
      rcases List.mem_cons.mp hy with rfl | hy
      · exact hrefl y
      · exact hhead y hy
    · have hex' : ∃ y ∈ l, stop y = true := by
        rcases hex with ⟨y, hy, hstop⟩
        rcases List.mem_cons.mp hy with rfl | hy
        · exact absurd hstop hx
        · exact ⟨y, hy, hstop⟩
      rcases ih htail hex' with ⟨z, hz, hlast, hstop, hleast⟩
      refine ⟨z, by simp [hz], ?_, hstop, ?_⟩
      · rw [upTo_cons_go stop l hx, List.getLast?_cons, hlast]
        rfl
      · intro y hy hy'
        rcases List.mem_cons.mp hy with rfl | hy
        · exact absurd hy' hx
        · exact hleast y hy hy'

/-- With nothing to stop at it ends with the greatest element. -/
theorem exists_last_never {l : List α} (hord : l.Pairwise r) (hne : l ≠ [])
    (hnever : ∀ y ∈ l, ¬ stop y = true) :
    ∃ x ∈ l, (upTo stop l).getLast? = some x ∧ ∀ y ∈ l, r y x := by
  rw [upTo_never stop hnever]
  clear hnever
  induction l with
  | nil => exact absurd rfl hne
  | cons x l ih =>
    rcases List.pairwise_cons.mp hord with ⟨hhead, htail⟩
    by_cases hl : l = []
    · refine ⟨x, by simp, by rw [hl]; rfl, ?_⟩
      intro y hy
      rw [hl, List.mem_singleton] at hy
      rw [hy]
      exact hrefl x
    · rcases ih htail hl with ⟨z, hz, hlast, hgreatest⟩
      refine ⟨z, by simp [hz], ?_, ?_⟩
      · rw [List.getLast?_cons, hlast]
        rfl
      · intro y hy
        rcases List.mem_cons.mp hy with rfl | hy
        · exact hhead z hz
        · exact hgreatest y hy

end Ltfs.Lib

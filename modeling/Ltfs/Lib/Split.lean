import Mathlib.Data.List.Basic

/-!
# Texts with a separator

* `split_induction` — a text is a component without the separator, or such a component, the
  separator and a text.
* `not_mem_of_mem_splitOn` — no component of `List.splitOn` holds the separator.
-/

namespace Ltfs.Lib

variable {α : Type} [DecidableEq α] {sep : α}

/-- A text without the separator, or the first component, the separator and the rest. -/
theorem exists_component (sep : α) (s : List α) :
    sep ∉ s ∨ ∃ c rest, sep ∉ c ∧ s = c ++ sep :: rest := by
  by_cases hmem : sep ∈ s
  · obtain ⟨c, rest, hs, hc⟩ := List.eq_append_cons_of_mem hmem
    exact .inr ⟨c, rest, hc, hs⟩
  · exact .inl hmem

/-- Induction over the components. -/
theorem split_induction (sep : α) {motive : List α → Prop} (last : ∀ c, sep ∉ c → motive c)
    (cons : ∀ c rest, sep ∉ c → motive rest → motive (c ++ sep :: rest)) (s : List α) :
    motive s := by
  induction hn : s.length using Nat.strongRecOn generalizing s with
  | _ n ih =>
    rcases exists_component sep s with hmem | ⟨c, rest, hc, rfl⟩
    · exact last s hmem
    · refine cons c rest hc (ih rest.length ?_ rest rfl)
      rw [← hn, List.length_append, List.length_cons]
      omega

theorem not_mem_of_mem_splitOn {s c : List α} (h : c ∈ s.splitOn sep) : sep ∉ c := by
  induction s using split_induction sep with
  | last s hs =>
    rw [List.splitOn_eq_singleton hs, List.mem_singleton] at h
    rw [h]
    exact hs
  | cons c' rest hc ih =>
    rw [List.splitOn_append_cons_self_of_not_mem hc] at h
    rcases List.mem_cons.mp h with rfl | h
    · exact hc
    · exact ih h

end Ltfs.Lib

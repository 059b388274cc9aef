import Mathlib.Algebra.BigOperators.Group.Finset.Basic
import Mathlib.Algebra.Order.BigOperators.Group.Finset
import Mathlib.Data.Multiset.UnionInter
import Mathlib.Algebra.Order.Group.Multiset

/-!
# Ledgers

A ledger says that finitely many places hold all of a stock between them: what the
places own adds up to the stock. Places may exchange what they own, and the stock may
grow; where it has no duplicates, each of its items is at one place and there only once.
-/

namespace Ltfs.Lib

variable {ι α : Type*}

/-- The places own the stock `total` between them. -/
def Ledger (own : ι → Multiset α) (total : Multiset α) : Prop :=
  ∃ s : Finset ι, (∀ i, i ∉ s → own i = 0) ∧ ∑ i ∈ s, own i = total

namespace Ledger

/-- Nobody owns anything. -/
theorem empty {own : ι → Multiset α} (h : ∀ i, own i = 0) : Ledger own 0 :=
  ⟨∅, fun i _ => h i, Finset.sum_empty⟩

variable {own own' : ι → Multiset α} {total : Multiset α}

/-- The places of `t` exchange what they own, and `new` comes in. -/
theorem post [DecidableEq ι] (h : Ledger own total) (t : Finset ι) {new : Multiset α}
    (hsame : ∀ i, i ∉ t → own' i = own i)
    (hmove : ∑ i ∈ t, own' i = ∑ i ∈ t, own i + new) : Ledger own' (total + new) := by
  rcases h with ⟨s, hzero, hsum⟩
  refine ⟨t ∪ s, ?_, ?_⟩
  · intro i hi
    rw [Finset.notMem_union] at hi
    rw [hsame i hi.1, hzero i hi.2]
  · -- outside of `t` nothing changes, and what is added to `s` owned nothing
    have hsplit : ∀ f : ι → Multiset α, ∑ i ∈ t ∪ s, f i = ∑ i ∈ t, f i + ∑ i ∈ s \ t, f i := by
      intro f
      rw [← Finset.union_sdiff_self_eq_union, Finset.sum_union Finset.disjoint_sdiff]
    have hold : ∑ i ∈ t ∪ s, own i = total := by
      rw [← hsum]
      symm
      apply Finset.sum_subset Finset.subset_union_right
      intro i _ hi
      exact hzero i hi
    have hrest : ∑ i ∈ s \ t, own' i = ∑ i ∈ s \ t, own i := by
      apply Finset.sum_congr rfl
      intro i hi
      exact hsame i (Finset.mem_sdiff.mp hi).2
    rw [hsplit, hmove, hrest, ← hold, hsplit]
    exact add_right_comm _ _ _

/-- What some places own between them belongs to the stock. -/
theorem sum_le (h : Ledger own total) (t : Finset ι) : ∑ i ∈ t, own i ≤ total := by
  classical
  rcases h with ⟨s, hzero, hsum⟩
  have hinter : ∑ i ∈ t, own i = ∑ i ∈ t ∩ s, own i := by
    symm
    apply Finset.sum_subset Finset.inter_subset_left
    intro i hi hnot
    apply hzero
    intro his
    exact hnot (Finset.mem_inter.mpr ⟨hi, his⟩)
  rw [hinter, ← hsum]
  exact Finset.sum_le_sum_of_subset Finset.inter_subset_right

theorem le_total (h : Ledger own total) (i : ι) : own i ≤ total := by
  have hle := h.sum_le {i}
  rwa [Finset.sum_singleton] at hle

/-- Two places do not own the same item of a stock without duplicates. -/
theorem notMem_of_mem [DecidableEq ι] (h : Ledger own total) (hnodup : total.Nodup) {i j : ι}
    {a : α} (hi : a ∈ own i) (hne : j ≠ i) : a ∉ own j := by
  classical
  intro hj
  have hpair := h.sum_le {i, j}
  rw [Finset.sum_pair hne.symm] at hpair
  have htwo : 2 ≤ (own i + own j).count a := by
    rw [Multiset.count_add]
    have h1 := Multiset.one_le_count_iff_mem.mpr hi
    have h2 := Multiset.one_le_count_iff_mem.mpr hj
    omega
  have hone := Multiset.nodup_iff_count_le_one.mp hnodup a
  have hle := Multiset.count_le_of_le a hpair
  omega

/-- Each item of a stock without duplicates is at one place and there only once. -/
theorem exists_owner [DecidableEq ι] [DecidableEq α] (h : Ledger own total) (hnodup : total.Nodup)
    {a : α} (ha : a ∈ total) : ∃ i, (own i).count a = 1 ∧ ∀ j, j ≠ i → a ∉ own j := by
  have hown : ∃ i, a ∈ own i := by
    rcases h with ⟨s, -, hsum⟩
    rw [← hsum, Multiset.mem_sum] at ha
    rcases ha with ⟨i, -, hi⟩
    exact ⟨i, hi⟩
  rcases hown with ⟨i, hi⟩
  refine ⟨i, ?_, fun j hne => h.notMem_of_mem hnodup hi hne⟩
  exact Multiset.count_eq_one_of_mem (Multiset.nodup_of_le (h.le_total i) hnodup) hi

end Ledger

end Ltfs.Lib

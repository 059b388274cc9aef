import Ltfs.Lib.Segment

/-!
# Building an ordered segment list

Segments that arrive in any order are put into an ordered list one by one, by a walk from its
tail; the walk fails at a segment it would have to overlap.

1. `insertBack` — one insertion; `insertBack_some` and `insertBack_none` say what it does.
2. `insertAll` — all of them; it succeeds when the segments are pairwise apart.
3. `insertAll_order_free_iff` — when the result does not depend on the order of arrival: empty
   segments at one place are the only ones that two orders can tell apart.
-/

namespace Ltfs.Lib.Segment

universe u

variable {σ : Type u} [Segment σ]

/-- Two segments that can stand in one ordered list. -/
def Apart (s t : σ) : Prop := stop s ≤ start t ∨ stop t ≤ start s

theorem Apart.symm {s t : σ} (h : Apart s t) : Apart t s := Or.symm h

theorem start_le_stop (s : σ) : start s ≤ stop s := Nat.le_add_right _ _

/-- In an ordered list no segment ends behind the last one. -/
theorem Ordered.stop_le_last {l : List σ} (h : Ordered l) {t : σ} (ht : l.getLast? = some t)
    {s : σ} (hs : s ∈ l) : stop s ≤ stop t := by
  obtain ⟨front, rfl⟩ := List.getLast?_eq_some_iff.mp ht
  rw [ordered_append] at h
  rcases List.mem_append.mp hs with hs | hs
  · exact (h.2.2 s hs t List.mem_cons_self).trans (start_le_stop t)
  · rw [List.mem_singleton.mp hs]

/-- Segments of an ordered list fit, one after the other, between two bounds of the list. -/
theorem Ordered.sum_len_le {l : List σ} : ∀ {lo hi : ℕ}, Ordered l → lo ≤ hi →
    (∀ s ∈ l, lo ≤ start s) → (∀ s ∈ l, stop s ≤ hi) → lo + (l.map len).sum ≤ hi := by
  induction l with
  | nil => exact fun _ hle _ _ => by simpa using hle
  | cons s l ih =>
    intro lo hi hord hle hlo hhi
    rw [ordered_cons] at hord
    rw [List.forall_mem_cons] at hlo hhi
    have hrest := ih hord.2 hhi.1 hord.1 hhi.2
    have hlos := hlo.1
    simp only [stop, List.map_cons, List.sum_cons] at hrest ⊢
    omega

theorem Ordered.pairwise_apart {l : List σ} (h : Ordered l) : l.Pairwise Apart :=
  h.imp Or.inl

/-! ## One insertion -/

/-- Put `s` behind the last segment that ends before it. The list is split at the cursor:
the segments still to pass, nearest first, and those already passed. -/
def insertBack (s : σ) : List σ → List σ → Option (List σ)
  | [], after => some (s :: after)
  | t :: before, after =>
    if stop t ≤ start s then some ((t :: before).reverse ++ s :: after)
    else if stop s > start t then none
    else insertBack s before (t :: after)

/-- An insertion that succeeds leaves an ordered list with one segment more. The induction
follows the segments still to pass; all others lie behind `s`. -/
theorem insertBack_some {s : σ} (before : List σ) : ∀ {after l : List σ},
    Ordered (before.reverse ++ after) → (∀ t ∈ after, stop s ≤ start t) →
    insertBack s before after = some l →
    Ordered l ∧ l.Perm (s :: (before.reverse ++ after)) := by
  induction before with
  | nil =>
    intro after l hord hafter h
    simp only [insertBack, Option.some.injEq] at h
    rw [← h]
    exact ⟨ordered_cons.mpr ⟨hafter, hord⟩, List.Perm.refl _⟩
  | cons t before ih =>
    intro after l hord hafter h
    rw [List.reverse_cons, List.append_assoc, List.singleton_append] at hord
    unfold insertBack at h
    split at h
    · -- `s` goes right behind `t`
      rename_i hle
      simp only [Option.some.injEq] at h
      rw [ordered_append, ordered_cons] at hord
      obtain ⟨hb, ⟨hta, ha⟩, hx⟩ := hord
      constructor
      · rw [← h, List.reverse_cons, List.append_assoc, List.singleton_append, ordered_append,
          ordered_cons, ordered_cons]
        refine ⟨hb, ⟨?_, hafter, ha⟩, ?_⟩
        · rintro u hu
          rcases List.mem_cons.mp hu with rfl | hu
          · exact hle
          · exact hta u hu
        · intro u hu v hv
          rcases List.mem_cons.mp hv with rfl | hv
          · exact hx u hu v List.mem_cons_self
          · rcases List.mem_cons.mp hv with rfl | hv
            · exact (hx u hu t List.mem_cons_self).trans ((start_le_stop t).trans hle)
            · exact hx u hu v (List.mem_cons_of_mem t hv)
      · rw [← h]
        exact List.perm_middle
    · split at h
      · cases h
      · -- `s` lies before `t`
        rename_i hlt hle
        have hafter' : ∀ u ∈ t :: after, stop s ≤ start u := by
          rw [List.forall_mem_cons]
          exact ⟨not_lt.mp hle, hafter⟩
        have := ih hord hafter' h
        rwa [List.reverse_cons, List.append_assoc, List.singleton_append]

/-- An insertion that fails has met a segment that overlaps. -/
theorem insertBack_none {s : σ} (before : List σ) : ∀ {after : List σ},
    insertBack s before after = none → ∃ t ∈ before, ¬ Apart s t := by
  induction before with
  | nil => exact fun h => (nomatch h)
  | cons t before ih =>
    intro after h
    unfold insertBack at h
    split at h
    · cases h
    · rename_i hlt
      split at h
      · rename_i hgt
        refine ⟨t, List.mem_cons_self, ?_⟩
        rintro (hap | hap)
        · exact absurd hap (not_le.mpr hgt)
        · exact hlt hap
      · obtain ⟨u, hu, hap⟩ := ih h
        exact ⟨u, List.mem_cons_of_mem t hu, hap⟩

/-! ## All insertions -/

/-- Insert segments one after the other. -/
def insertAll : List σ → List σ → Option (List σ)
  | acc, [] => some acc
  | acc, s :: xs => (insertBack s acc.reverse []).bind fun l => insertAll l xs

theorem insertAll_spec (xs : List σ) : ∀ {acc l : List σ}, Ordered acc →
    insertAll acc xs = some l → Ordered l ∧ l.Perm (acc ++ xs) := by
  induction xs with
  | nil =>
    intro acc l hord h
    simp only [insertAll, Option.some.injEq] at h
    rw [← h, List.append_nil]
    exact ⟨hord, List.Perm.refl _⟩
  | cons s xs ih =>
    intro acc l hord h
    simp only [insertAll, Option.bind_eq_some_iff] at h
    obtain ⟨l', hl', h⟩ := h
    obtain ⟨hord', hperm'⟩ := insertBack_some acc.reverse (by simpa using hord) (by simp) hl'
    obtain ⟨hordl, hperml⟩ := ih hord' h
    rw [List.reverse_reverse, List.append_nil] at hperm'
    refine ⟨hordl, hperml.trans ?_⟩
    -- `s` moves from the front of the accumulator to its end
    calc (l' ++ xs).Perm ((s :: acc) ++ xs) := hperm'.append_right xs
      _ |>.Perm (acc ++ s :: xs) := List.perm_middle.symm

/-- Segments that are pairwise apart can all be inserted. -/
theorem insertAll_isSome (xs : List σ) : ∀ {acc : List σ}, Ordered acc →
    (acc ++ xs).Pairwise Apart → (insertAll acc xs).isSome := by
  induction xs with
  | nil => exact fun _ _ => rfl
  | cons s xs ih =>
    intro acc hord hap
    have hsacc : ∀ t ∈ acc, Apart t s := by
      rw [List.pairwise_append] at hap
      exact fun t ht => hap.2.2 t ht s List.mem_cons_self
    unfold insertAll
    cases hs : insertBack s acc.reverse [] with
    | none =>
      obtain ⟨t, ht, hno⟩ := insertBack_none acc.reverse hs
      exact absurd (hsacc t (List.mem_reverse.mp ht)).symm hno
    | some l =>
      obtain ⟨hordl, hperm⟩ := insertBack_some acc.reverse (by simpa using hord) (by simp) hs
      rw [List.reverse_reverse, List.append_nil] at hperm
      refine ih hordl ?_
      have hmove : (acc ++ s :: xs).Perm (l ++ xs) :=
        List.perm_middle.trans (hperm.symm.append_right xs)
      exact hap.perm hmove Apart.symm

/-- Segments that arrive in order stay as they are. -/
theorem insertAll_of_ordered (xs : List σ) : ∀ {acc : List σ}, Ordered (acc ++ xs) →
    insertAll acc xs = some (acc ++ xs) := by
  induction xs with
  | nil =>
    intro acc _
    rw [insertAll, List.append_nil]
  | cons s xs ih =>
    intro acc hord
    have hback : insertBack s acc.reverse [] = some (acc ++ [s]) := by
      rw [ordered_append] at hord
      cases hrev : acc.reverse with
      | nil =>
        rw [List.reverse_eq_nil_iff] at hrev
        rw [hrev]
        rfl
      | cons t before =>
        have ht : t ∈ acc := by
          rw [← List.mem_reverse, hrev]
          exact List.mem_cons_self
        rw [insertBack, if_pos (hord.2.2 t ht s List.mem_cons_self), ← hrev,
          List.reverse_reverse]
    have hord' : Ordered ((acc ++ [s]) ++ xs) := by
      rwa [List.append_assoc, List.singleton_append]
    rw [insertAll, hback, Option.bind_some, ih hord', List.append_assoc, List.singleton_append]

/-! ## The order of arrival -/

/-- No two different segments are empty and at the same place. -/
def DistinctEmpty (xs : List σ) : Prop :=
  ∀ a ∈ xs, ∀ b ∈ xs, start a = start b → len a = 0 → len b = 0 → a = b

/-- Two ordered lists of the same segments are the same list. -/
theorem Ordered.eq_of_perm {l l' : List σ} (h : Ordered l) (h' : Ordered l') (hp : l.Perm l')
    (hd : DistinctEmpty l) : l = l' := by
  refine List.Perm.eq_of_pairwise ?_ h h' hp
  intro a b ha hb hab hba
  -- each ends before the other begins: both are empty
  simp only [stop] at hab hba
  exact hd a ha b (hp.mem_iff.mpr hb) (by omega) (by omega) (by omega)

/-- Whether a list is ordered depends on the places of its segments alone. -/
theorem Ordered.congr_places {l l' : List σ}
    (hmap : l.map (fun s => (start s, stop s)) = l'.map (fun s => (start s, stop s)))
    (h : Ordered l) : Ordered l' := by
  have hplaces : (l.map fun s => (start s, stop s)).Pairwise fun p q => p.2 ≤ q.1 :=
    List.pairwise_map.mpr h
  rw [hmap] at hplaces
  exact List.pairwise_map.mp hplaces

/-- Two empty segments at one place can change places in an ordered list. -/
theorem Ordered.swap {a b : σ} {p q r : List σ} (h : Ordered (p ++ a :: (q ++ b :: r)))
    (hstart : start a = start b) (ha : len a = 0) (hb : len b = 0) :
    Ordered (p ++ b :: (q ++ a :: r)) := by
  refine h.congr_places ?_
  simp only [List.map_append, List.map_cons, stop, hstart, ha, hb]

/-- The order of arrival does not matter if and only if empty segments at the same place are
equal. -/
theorem insertAll_order_free_iff {xs l : List σ} (h : insertAll [] xs = some l) :
    (∀ xs' : List σ, xs'.Perm xs → insertAll [] xs' = some l) ↔ DistinctEmpty xs := by
  obtain ⟨hord, hperm⟩ := insertAll_spec xs ordered_nil h
  rw [List.nil_append] at hperm
  constructor
  · intro hfree a ha b hb hstart hla hlb
    by_contra hne
    -- swap the two in the result and feed it in that order
    have key : ∀ {a b : σ} {p q r : List σ}, a ≠ b → start a = start b → len a = 0 →
        len b = 0 → l = p ++ a :: (q ++ b :: r) → False := by
      intro a b p q r hne hstart hla hlb hl
      have hswap : Ordered (p ++ b :: (q ++ a :: r)) := (hl ▸ hord).swap hstart hla hlb
      have hsame : (p ++ b :: (q ++ a :: r)).Perm l := by
        rw [hl]
        refine List.Perm.append_left p ?_
        calc (b :: (q ++ a :: r)).Perm (b :: a :: (q ++ r)) := List.Perm.cons b List.perm_middle
          _ |>.Perm (a :: b :: (q ++ r)) := List.Perm.swap a b _
          _ |>.Perm (a :: (q ++ b :: r)) := List.Perm.cons a List.perm_middle.symm
      have hstays : insertAll [] (p ++ b :: (q ++ a :: r)) = some (p ++ b :: (q ++ a :: r)) := by
        have hall := @insertAll_of_ordered σ _ (p ++ b :: (q ++ a :: r)) [] hswap
        rwa [List.nil_append] at hall
      have hfed := hfree _ (hsame.trans hperm)
      rw [hstays, Option.some.injEq, hl, List.append_cancel_left_eq, List.cons.injEq] at hfed
      exact hne hfed.1.symm
    have hal : a ∈ l := hperm.mem_iff.mpr ha
    have hbl : b ∈ l := hperm.mem_iff.mpr hb
    obtain ⟨p, rest, hl⟩ := List.append_of_mem hal
    rw [hl, List.mem_append, List.mem_cons] at hbl
    rcases hbl with hbp | hba | hbr
    · obtain ⟨p', q', hp⟩ := List.append_of_mem hbp
      refine key (Ne.symm hne) hstart.symm hlb hla (p := p') (q := q') (r := rest) ?_
      rw [hl, hp, List.append_assoc, List.cons_append]
    · exact hne hba.symm
    · obtain ⟨q', r', hr⟩ := List.append_of_mem hbr
      exact key hne hstart hla hlb (p := p) (q := q') (r := r') (by rw [hl, hr])
  · intro hd xs' hxs'
    have hap : ([] ++ xs').Pairwise Apart :=
      hord.pairwise_apart.perm (hperm.trans hxs'.symm) Apart.symm
    obtain ⟨l', hl'⟩ := Option.isSome_iff_exists.mp (insertAll_isSome xs' ordered_nil hap)
    obtain ⟨hord', hperm'⟩ := insertAll_spec xs' ordered_nil hl'
    rw [List.nil_append] at hperm'
    have hdl : DistinctEmpty l := fun a ha b hb =>
      hd a (hperm.mem_iff.mp ha) b (hperm.mem_iff.mp hb)
    rw [hl', hord.eq_of_perm hord' (hperm.trans (hperm'.trans hxs').symm) hdl]

end Ltfs.Lib.Segment

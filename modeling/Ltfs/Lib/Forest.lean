import Mathlib.Data.Finset.Card
import Mathlib.Data.List.Nodup
import Mathlib.Logic.Function.Basic
import Mathlib.Logic.Relation

/-!
# Parent pointers

A structure in which every node knows at most its parent. `Climbs parent d a`:
following parent pointers from `d` leads to `a`.

* `Climbs.reparent`, `Climbs.detach` — what stays reachable when one pointer is
  changed: a node may get a new parent that does not lie below it, and a node
  nothing points to may lose its own.
* `climbsTo` — the loop that looks for `a`, with fuel; `climbsTo_iff`: on a chain
  that ends, as much fuel as there are nodes is enough.
* `lineage` — the nodes on the way up, with fuel; more fuel than needed changes nothing.
-/

namespace Ltfs.Lib.Forest

open Function Relation

variable {α : Type*}

/-- Following parent pointers from `d` leads to `a` (in no or more steps). -/
def Climbs (parent : α → Option α) (d a : α) : Prop :=
  ReflTransGen (fun x y => parent x = some y) d a

variable {parent : α → Option α} {d a b x t root : α}

namespace Climbs

theorem refl : Climbs parent d d := ReflTransGen.refl

theorem step (h : parent d = some b) (hb : Climbs parent b a) : Climbs parent d a :=
  ReflTransGen.head h hb

theorem trans (h₁ : Climbs parent d a) (h₂ : Climbs parent a b) : Climbs parent d b :=
  ReflTransGen.trans h₁ h₂

/-- More pointers lead to no fewer nodes. -/
theorem mono {parent' : α → Option α} (h : Climbs parent d a)
    (hle : ∀ x y, parent x = some y → parent' x = some y) : Climbs parent' d a :=
  ReflTransGen.mono hle _ _ h

/-- The first step of a climb. -/
theorem cases (h : Climbs parent d a) :
    d = a ∨ ∃ b, parent d = some b ∧ Climbs parent b a :=
  ReflTransGen.cases_head h

/-- A node nothing points to is met only where the climb starts. -/
theorem eq_of_no_child (h : Climbs parent d x) (hx : ∀ c, parent c ≠ some x) : d = x := by
  rcases ReflTransGen.cases_tail h with rfl | ⟨c, -, hc⟩
  · rfl
  · exact absurd hc (hx c)

/-- A node without a parent is the end of every climb. -/
theorem eq_of_no_parent (h : Climbs parent x a) (hx : parent x = none) : x = a := by
  rcases h.cases with rfl | ⟨b, hb, -⟩
  · rfl
  · rw [hx] at hb
    cases hb

/-- Of two nodes met on the way up, one is above the other. -/
theorem total (ha : Climbs parent d a) (hb : Climbs parent d b) :
    Climbs parent a b ∨ Climbs parent b a := by
  refine ReflTransGen.total_of_right_unique (fun x y z hy hz => ?_) ha hb
  rw [hy] at hz
  exact Option.some.inj hz

variable [DecidableEq α]

/-- A climb that does not meet `x` does not depend on the parent of `x`. -/
theorem update_of_not (v : Option α) (h : Climbs parent d a) (hx : ¬ Climbs parent d x) :
    Climbs (update parent x v) d a := by
  induction h using ReflTransGen.head_induction_on with
  | refl => exact refl
  | @head d b hd hb ih =>
    have hne : d ≠ x := fun h => hx (h ▸ refl)
    refine step (b := b) ?_ (ih fun h => hx (step hd h))
    rwa [update_of_ne hne]

/-- The climb to `x` itself does not depend on the parent of `x`. -/
theorem update_to (v : Option α) (h : Climbs parent d x) : Climbs (update parent x v) d x := by
  induction h using ReflTransGen.head_induction_on with
  | refl => exact refl
  | @head d b hd hb ih =>
    by_cases hne : d = x
    · exact hne ▸ refl
    · refine step (b := b) ?_ ih
      rwa [update_of_ne hne]

/-- Giving `x` a parent `t` that does not lie below it cuts nothing off. -/
theorem reparent (h : Climbs parent d root) (ht : Climbs parent t root)
    (hx : ¬ Climbs parent t x) : Climbs (update parent x (some t)) d root := by
  by_cases hd : Climbs parent d x
  · have hxt : Climbs (update parent x (some t)) x t := by
      refine step (b := t) ?_ refl
      rw [update_self]
    exact (hd.update_to (some t)).trans (hxt.trans (ht.update_of_not _ hx))
  · exact h.update_of_not _ hd

/-- Taking the parent of a node nothing points to cuts off that node only. -/
theorem detach (h : Climbs parent d root) (hx : ∀ c, parent c ≠ some x) (hd : d ≠ x) :
    Climbs (update parent x none) d root :=
  h.update_of_not none fun h' => hd (h'.eq_of_no_child hx)

end Climbs

/-! ## The nodes on the way up -/

/-- A node, its parent, and so on, over at most `fuel` nodes. -/
def lineage (parent : α → Option α) : ℕ → α → List α
  | 0, _ => []
  | fuel + 1, d =>
    match parent d with
    | none => [d]
    | some p => d :: lineage parent fuel p

theorem lineage_top (fuel : ℕ) (h : parent d = none) : lineage parent (fuel + 1) d = [d] := by
  rw [lineage, h]

theorem lineage_up (fuel : ℕ) (h : parent d = some b) :
    lineage parent (fuel + 1) d = d :: lineage parent fuel b := by
  rw [lineage, h]

/-! ## The search with fuel -/

/-- Look for `a` on the way up from `d`, over at most `fuel` nodes. -/
def climbsTo [DecidableEq α] (parent : α → Option α) : ℕ → α → α → Bool
  | 0, _, _ => false
  | fuel + 1, a, d =>
    if d = a then true
    else
      match parent d with
      | none => false
      | some p => climbsTo parent fuel a p

/-- The number of steps from a node to the end of its chain. -/
inductive Height (parent : α → Option α) : α → ℕ → Prop
  | top {d : α} : parent d = none → Height parent d 0
  | up {d p : α} {n : ℕ} : parent d = some p → Height parent p n → Height parent d (n + 1)

theorem Height.unique {m n : ℕ} (hm : Height parent d m) (hn : Height parent d n) : m = n := by
  induction hm generalizing n with
  | top hd =>
    cases hn with
    | top _ => rfl
    | up hp _ => simp [hd] at hp
  | up hp _ ih =>
    cases hn with
    | top hd => simp [hd] at hp
    | up hq hn =>
      rw [hp] at hq
      cases hq
      rw [ih hn]

/-- What is met on the way up is no higher. -/
theorem Height.of_climbs {n : ℕ} (h : Height parent d n) (hc : Climbs parent d a) :
    ∃ k ≤ n, Height parent a k := by
  induction h with
  | top hd =>
    rw [← hc.eq_of_no_parent hd]
    exact ⟨0, le_refl 0, .top hd⟩
  | @up d p n hp hn ih =>
    rcases hc.cases with rfl | ⟨b, hb, hba⟩
    · exact ⟨n + 1, le_refl _, .up hp hn⟩
    · rw [hp] at hb
      obtain rfl := Option.some.inj hb
      obtain ⟨k, hk, hka⟩ := ih hba
      exact ⟨k, by omega, hka⟩

/-- A chain that ends has a length. -/
theorem Climbs.height (h : Climbs parent d root) (hr : parent root = none) :
    ∃ n, Height parent d n := by
  induction h using ReflTransGen.head_induction_on with
  | refl => exact ⟨0, .top hr⟩
  | head hd _ ih =>
    obtain ⟨n, hn⟩ := ih
    exact ⟨n + 1, .up hd hn⟩

/-- The nodes of a chain, all different. -/
theorem Height.chain {n : ℕ} (h : Height parent d n) :
    ∃ l : List α, l.length = n + 1 ∧ l.Nodup ∧
      ∀ y ∈ l, Climbs parent d y ∧ ∃ k ≤ n, Height parent y k := by
  induction h with
  | @top d hd =>
    refine ⟨[d], rfl, List.nodup_singleton d, ?_⟩
    intro y hy
    rw [List.mem_singleton] at hy
    exact ⟨hy ▸ Climbs.refl, 0, le_refl 0, hy ▸ .top hd⟩
  | @up d p n hp hn ih =>
    obtain ⟨l, hlen, hnd, hl⟩ := ih
    refine ⟨d :: l, by rw [List.length_cons, hlen], ?_, ?_⟩
    · refine List.nodup_cons.mpr ⟨fun hd => ?_, hnd⟩
      -- the nodes further up have smaller heights
      obtain ⟨-, k, hk, hkd⟩ := hl d hd
      have := hkd.unique (.up hp hn)
      omega
    · intro y hy
      rcases List.mem_cons.mp hy with rfl | hy
      · exact ⟨Climbs.refl, n + 1, le_refl _, .up hp hn⟩
      · obtain ⟨hc, k, hk, hky⟩ := hl y hy
        exact ⟨Climbs.step hp hc, k, by omega, hky⟩

/-- A chain inside a finite set is shorter than the set is large. -/
theorem Height.lt_card {n : ℕ} {s : Finset α} (h : Height parent d n)
    (hs : ∀ y, Climbs parent d y → y ∈ s) : n < s.card := by
  classical
  obtain ⟨l, hlen, hnd, hl⟩ := h.chain
  have hsub : l.toFinset ⊆ s := by
    intro y hy
    exact hs y (hl y (List.mem_toFinset.mp hy)).1
  have := Finset.card_le_card hsub
  rw [List.toFinset_card_of_nodup hnd, hlen] at this
  omega

variable [DecidableEq α]

theorem climbs_of_climbsTo {fuel : ℕ} (h : climbsTo parent fuel a d = true) :
    Climbs parent d a := by
  induction fuel generalizing d with
  | zero => simp [climbsTo] at h
  | succ fuel ih =>
    unfold climbsTo at h
    split at h
    · rename_i hd
      exact hd ▸ Climbs.refl
    · split at h
      · cases h
      · rename_i p hp
        exact Climbs.step hp (ih h)

theorem climbsTo_of_climbs {fuel n : ℕ} (hn : Height parent d n) (hf : n < fuel)
    (h : Climbs parent d a) : climbsTo parent fuel a d = true := by
  induction hn generalizing fuel with
  | @top d hd =>
    obtain ⟨fuel, rfl⟩ : ∃ k, fuel = k + 1 := ⟨fuel - 1, by omega⟩
    simp [climbsTo, h.eq_of_no_parent hd]
  | @up d p n hp _ ih =>
    obtain ⟨fuel, rfl⟩ : ∃ k, fuel = k + 1 := ⟨fuel - 1, by omega⟩
    unfold climbsTo
    split
    · rfl
    · rename_i hne
      rw [hp]
      apply ih (by omega)
      rcases h.cases with rfl | ⟨b, hb, hba⟩
      · exact absurd rfl hne
      · rw [hp] at hb
        cases hb
        exact hba

/-- With fuel for every node of a chain that ends, the search is exact. -/
theorem climbsTo_iff {fuel : ℕ} {s : Finset α} (h : Climbs parent d root)
    (hr : parent root = none) (hs : ∀ y, Climbs parent d y → y ∈ s) (hf : s.card ≤ fuel) :
    climbsTo parent fuel a d = true ↔ Climbs parent d a := by
  obtain ⟨n, hn⟩ := h.height hr
  constructor
  · exact climbs_of_climbsTo
  · exact climbsTo_of_climbs hn ((hn.lt_card hs).trans_le hf)

end Ltfs.Lib.Forest

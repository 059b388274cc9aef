import Ltfs.Lib.Split
import Mathlib.Data.List.Induction
import Mathlib.Tactic.Tauto

/-!
# Paths

A path is its components, each with a separator in front.

* `joinPath`, `splitOn_joinPath` — a path and its components.
* `beforeLast` — what is before the last separator.
* `resolve` — a path without `.`, `..` and empty components, by its components alone.
* `climb` — how many components of what is before it a list of names takes away.
-/

namespace Ltfs.Lib

variable {α : Type}

/-! ## Components -/

section Join

variable (sep : α)

/-- A separator in front of every component. -/
def joinPath (cs : List (List α)) : List α := cs.flatMap (sep :: ·)

@[simp] theorem joinPath_nil : joinPath sep [] = [] := rfl

theorem joinPath_cons (c : List α) (cs : List (List α)) :
    joinPath sep (c :: cs) = sep :: c ++ joinPath sep cs := rfl

theorem joinPath_append (cs ds : List (List α)) :
    joinPath sep (cs ++ ds) = joinPath sep cs ++ joinPath sep ds := List.flatMap_append

variable [DecidableEq α]

theorem splitOn_cons_sep (s : List α) : (sep :: s).splitOn sep = [] :: s.splitOn sep := by
  rw [List.splitOn_cons_eq_if_modifyHead, if_pos (by simp)]

theorem splitOn_joinPath {cs : List (List α)} (h : ∀ c ∈ cs, sep ∉ c) :
    (joinPath sep cs).splitOn sep = [] :: cs := by
  induction cs with
  | nil => exact List.splitOn_nil sep
  | cons c cs ih =>
    have hc := h c List.mem_cons_self
    have ih := ih fun d hd => h d (List.mem_cons_of_mem c hd)
    rw [joinPath_cons, List.cons_append, splitOn_cons_sep]
    cases cs with
    | nil => rw [joinPath_nil, List.append_nil, List.splitOn_eq_singleton hc]
    | cons d ds =>
      rw [joinPath_cons, List.cons_append, splitOn_cons_sep] at ih
      rw [joinPath_cons, List.cons_append, List.splitOn_append_cons_self_of_not_mem hc]
      rw [List.cons.injEq] at ih
      rw [ih.2]

theorem joinPath_injective {cs ds : List (List α)} (hcs : ∀ c ∈ cs, sep ∉ c)
    (hds : ∀ d ∈ ds, sep ∉ d) (h : joinPath sep cs = joinPath sep ds) : cs = ds := by
  have hsplit := splitOn_joinPath sep hcs
  rw [h, splitOn_joinPath sep hds] at hsplit
  exact (List.cons.inj hsplit).2.symm

/-- A text, with a separator in front. -/
theorem joinPath_splitOn (s : List α) : joinPath sep (s.splitOn sep) = sep :: s := by
  induction s using split_induction sep with
  | last s hs =>
    rw [List.splitOn_eq_singleton hs, joinPath_cons, joinPath_nil, List.append_nil]
  | cons c rest hc ih =>
    rw [List.splitOn_append_cons_self_of_not_mem hc, joinPath_cons, ih, List.cons_append]

/-- What is before the last separator. -/
def beforeLast : List α → Option (List α)
  | [] => none
  | c :: rest =>
    match beforeLast rest with
    | some before => some (c :: before)
    | none => if c = sep then some [] else none

theorem beforeLast_of_not_mem {c : List α} (hc : sep ∉ c) : beforeLast sep c = none := by
  induction c with
  | nil => rfl
  | cons b c ih =>
    rw [List.mem_cons, not_or] at hc
    rw [beforeLast, ih hc.2]
    exact if_neg (Ne.symm hc.1)

theorem beforeLast_append (s : List α) {c : List α} (hc : sep ∉ c) :
    beforeLast sep (s ++ sep :: c) = some s := by
  induction s with
  | nil =>
    rw [List.nil_append, beforeLast, beforeLast_of_not_mem sep hc]
    exact if_pos rfl
  | cons b s ih => rw [List.cons_append, beforeLast, ih]

/-- The last component is taken away. -/
theorem beforeLast_joinPath {cs : List (List α)} (h : ∀ c ∈ cs, sep ∉ c) :
    beforeLast sep (joinPath sep cs)
      = if cs = [] then none else some (joinPath sep cs.dropLast) := by
  rcases List.eq_nil_or_concat' cs with rfl | ⟨ds, d, rfl⟩
  · rfl
  · have hd : sep ∉ d := h d (by simp)
    rw [if_neg (by simp), List.dropLast_append_of_ne_nil (List.cons_ne_nil d []), joinPath_append,
      joinPath_cons, joinPath_nil, List.append_nil]
    simpa using beforeLast_append sep (joinPath sep ds) hd

end Join

/-! ## Resolving -/

section Resolve

variable [DecidableEq α] (dot : List α) (dotdot : List α)

/-- One component of a path is followed. -/
def resolveStep (cs : List (List α)) (c : List α) : List (List α) :=
  if c = [] ∨ c = dot then cs
  else if c = dotdot then cs.dropLast
  else cs ++ [c]

/-- Where a path leads, by its components alone; above the root is the root. -/
def resolve (cs : List (List α)) : List (List α) := cs.foldl (resolveStep dot dotdot) []

/-- A component that stays. -/
def Proper (c : List α) : Prop := c ≠ [] ∧ c ≠ dot ∧ c ≠ dotdot

instance (c : List α) : Decidable (Proper dot dotdot c) := inferInstanceAs (Decidable (_ ∧ _))

/-- How many components before them the names take away, and what they add. -/
def effect (names : List (List α)) : ℕ × List (List α) :=
  names.foldl (fun e c =>
    if c = [] ∨ c = dot then e
    else if c = dotdot then (if e.2 = [] then (e.1 + 1, []) else (e.1, e.2.dropLast))
    else (e.1, e.2 ++ [c])) (0, [])

/-- How many components before them the names take away. -/
def climb (names : List (List α)) : ℕ := (effect dot dotdot names).1

variable {dot dotdot}

theorem effect_concat (names : List (List α)) (c : List α) :
    effect dot dotdot (names ++ [c])
      = if c = [] ∨ c = dot then effect dot dotdot names
        else if c = dotdot then
          if (effect dot dotdot names).2 = [] then ((effect dot dotdot names).1 + 1, [])
          else ((effect dot dotdot names).1, (effect dot dotdot names).2.dropLast)
        else ((effect dot dotdot names).1, (effect dot dotdot names).2 ++ [c]) := by
  unfold effect
  rw [List.foldl_append]
  rfl

theorem effect_cons_stay {c : List α} (hc : c = [] ∨ c = dot) (names : List (List α)) :
    effect dot dotdot (c :: names) = effect dot dotdot names := by
  unfold effect
  rw [List.foldl_cons, if_pos hc]

theorem effect_cons_dotdot (hup : dotdot ≠ [] ∧ dotdot ≠ dot) (names : List (List α)) :
    effect dot dotdot (dotdot :: names)
      = ((effect dot dotdot names).1 + 1, (effect dot dotdot names).2) := by
  induction names using List.reverseRecOn with
  | nil =>
    unfold effect
    simp [hup]
  | append_singleton names c ih =>
    rw [← List.cons_append, effect_concat, effect_concat, ih]
    by_cases hstay : c = [] ∨ c = dot
    · rw [if_pos hstay, if_pos hstay]
    · rw [if_neg hstay, if_neg hstay]
      split
      · split
        · rfl
        · rfl
      · rfl

/-- A name that is added first is the first one to be taken away. -/
theorem effect_cons_proper {c : List α} (hc : Proper dot dotdot c) (names : List (List α)) :
    effect dot dotdot (c :: names)
      = if (effect dot dotdot names).1 = 0 then (0, c :: (effect dot dotdot names).2)
        else ((effect dot dotdot names).1 - 1, (effect dot dotdot names).2) := by
  obtain ⟨hne, hdot, hdotdot⟩ := hc
  induction names using List.reverseRecOn with
  | nil =>
    unfold effect
    simp [hne, hdot, hdotdot]
  | append_singleton names d ih =>
    rw [← List.cons_append, effect_concat, effect_concat, ih]
    by_cases hstay : d = [] ∨ d = dot
    · rw [if_pos hstay, if_pos hstay]
    · rw [if_neg hstay, if_neg hstay]
      generalize effect dot dotdot names = e
      rcases e with ⟨k, added⟩
      dsimp only
      by_cases hup : d = dotdot
      · rw [if_pos hup, if_pos hup]
        by_cases hzero : k = 0
        · subst hzero
          rw [if_pos rfl, if_neg (List.cons_ne_nil c added)]
          cases added with
          | nil => simp
          | cons a added => simp
        · rw [if_neg hzero]
          dsimp only
          by_cases hnil : added = []
          · rw [if_pos hnil, if_pos hnil, if_neg (by simp)]
            ext1
            · simp
              omega
            · simp
          · rw [if_neg hnil, if_neg hnil, if_neg hzero]
      · rw [if_neg hup, if_neg hup]
        dsimp only
        by_cases hzero : k = 0
        · rw [if_pos hzero, if_pos hzero]
          rfl
        · rw [if_neg hzero, if_neg hzero]

/-- Names follow what is before them. -/
theorem foldl_resolveStep (cs names : List (List α)) :
    names.foldl (resolveStep dot dotdot) cs
      = cs.take (cs.length - climb dot dotdot names) ++ (effect dot dotdot names).2 := by
  unfold climb
  induction names using List.reverseRecOn with
  | nil => simp [effect]
  | append_singleton names c ih =>
    rw [List.foldl_append, List.foldl_cons, List.foldl_nil, ih, effect_concat]
    unfold resolveStep
    by_cases hstay : c = [] ∨ c = dot
    · rw [if_pos hstay, if_pos hstay]
    · rw [if_neg hstay, if_neg hstay]
      by_cases hup : c = dotdot
      · rw [if_pos hup, if_pos hup]
        by_cases hnone : (effect dot dotdot names).2 = []
        · rw [if_pos hnone, hnone, List.append_nil, List.append_nil, List.dropLast_eq_take,
            List.take_take, List.length_take]
          congr 1
          omega
        · rw [if_neg hnone, List.dropLast_append_of_ne_nil hnone]
      · rw [if_neg hup, if_neg hup, List.append_assoc]

theorem resolve_append (cs names : List (List α)) :
    resolve dot dotdot (cs ++ names)
      = names.foldl (resolveStep dot dotdot) (resolve dot dotdot cs) := List.foldl_append

/-- Components that stay are where they lead. -/
theorem resolve_of_proper {cs : List (List α)} (h : ∀ c ∈ cs, Proper dot dotdot c) :
    resolve dot dotdot cs = cs := by
  induction cs using List.reverseRecOn with
  | nil => rfl
  | append_singleton cs c ih =>
    obtain ⟨hne, hdot, hdotdot⟩ := h c (by simp)
    rw [resolve_append, ih fun d hd => h d (List.mem_append_left _ hd), List.foldl_cons,
      List.foldl_nil, resolveStep, if_neg (by tauto), if_neg hdotdot]

theorem proper_of_mem_resolve {cs : List (List α)} : ∀ c ∈ resolve dot dotdot cs,
    Proper dot dotdot c ∧ c ∈ cs := by
  induction cs using List.reverseRecOn with
  | nil =>
    intro c hc
    cases hc
  | append_singleton cs d ih =>
    intro c hc
    rw [resolve_append, List.foldl_cons, List.foldl_nil, resolveStep] at hc
    split at hc
    · exact ⟨(ih c hc).1, List.mem_append_left _ (ih c hc).2⟩
    · rename_i hstay
      split at hc
      · have hc := ih c (List.dropLast_subset _ hc)
        exact ⟨hc.1, List.mem_append_left _ hc.2⟩
      · rename_i hup
        rcases List.mem_append.mp hc with hc | hc
        · exact ⟨(ih c hc).1, List.mem_append_left _ (ih c hc).2⟩
        · rw [List.mem_singleton] at hc
          subst hc
          exact ⟨⟨fun h => hstay (.inl h), fun h => hstay (.inr h), hup⟩, by simp⟩

/-- Resolving loses components, unless all of them stay. -/
theorem length_resolve (cs : List (List α)) : (resolve dot dotdot cs).length ≤ cs.length ∧
    ((resolve dot dotdot cs).length = cs.length → ∀ c ∈ cs, Proper dot dotdot c) := by
  induction cs using List.reverseRecOn with
  | nil => exact ⟨Nat.le_refl _, fun _ c hc => by cases hc⟩
  | append_singleton cs d ih =>
    rw [resolve_append, List.foldl_cons, List.foldl_nil, resolveStep, List.length_append,
      List.length_singleton]
    split
    · exact ⟨by omega, fun h => by omega⟩
    · rename_i hstay
      split
      · rw [List.length_dropLast]
        exact ⟨by omega, fun h => by omega⟩
      · rename_i hup
        rw [List.length_append, List.length_singleton]
        refine ⟨by omega, fun h c hc => ?_⟩
        rcases List.mem_append.mp hc with hc | hc
        · exact ih.2 (by omega) c hc
        · rw [List.mem_singleton] at hc
          subst hc
          exact ⟨fun h => hstay (.inl h), fun h => hstay (.inr h), hup⟩

end Resolve

end Ltfs.Lib

import Mathlib.Computability.Language

/-!
# Glob patterns

A pattern is a list of tokens: `one accepts` stands for one letter that `accepts`
allows, `star` for any word. `globLanguage` is its language; the lemmas below follow a
word from its front, and `star_skips` says why a matcher may forget the choices it made
for an earlier star once it has come to the next one.
-/

namespace Ltfs.Lib

variable {α : Type}

/-- A token of a glob pattern. -/
inductive GlobToken (α : Type) where
  | one (accepts : α → Prop)
  | star

namespace GlobToken

/-- The words a token stands for. -/
def language : GlobToken α → Language α
  | one accepts => {w | ∃ a, accepts a ∧ w = [a]}
  | star => ⊤

end GlobToken

open GlobToken

/-- The language of a pattern. -/
def globLanguage (p : List (GlobToken α)) : Language α := (p.map language).prod

theorem globLanguage_nil {w : List α} : w ∈ globLanguage ([] : List (GlobToken α)) ↔ w = [] :=
  Language.mem_one w

theorem globLanguage_append {p q : List (GlobToken α)} {w : List α} :
    w ∈ globLanguage (p ++ q) ↔ ∃ u ∈ globLanguage p, ∃ v ∈ globLanguage q, u ++ v = w := by
  unfold globLanguage
  rw [List.map_append, List.prod_append, Language.mem_mul]

theorem globLanguage_cons {t : GlobToken α} {p : List (GlobToken α)} {w : List α} :
    w ∈ globLanguage (t :: p) ↔ ∃ u ∈ t.language, ∃ v ∈ globLanguage p, u ++ v = w := by
  unfold globLanguage
  rw [List.map_cons, List.prod_cons, Language.mem_mul]

theorem globLanguage_one_nil {accepts : α → Prop} {p : List (GlobToken α)} :
    ([] : List α) ∉ globLanguage (one accepts :: p) := by
  rw [globLanguage_cons]
  rintro ⟨u, ⟨a, -, rfl⟩, v, -, h⟩
  cases h

theorem globLanguage_one_cons {accepts : α → Prop} {p : List (GlobToken α)} {x : α} {w : List α} :
    x :: w ∈ globLanguage (one accepts :: p) ↔ accepts x ∧ w ∈ globLanguage p := by
  rw [globLanguage_cons]
  constructor
  · rintro ⟨u, ⟨a, ha, rfl⟩, v, hv, h⟩
    cases h
    exact ⟨ha, hv⟩
  · rintro ⟨ha, hw⟩
    exact ⟨[x], ⟨x, ha, rfl⟩, w, hw, rfl⟩

/-- A star stands for any front of the word. -/
theorem globLanguage_star {p : List (GlobToken α)} {w : List α} :
    w ∈ globLanguage (star :: p) ↔ ∃ v ∈ globLanguage p, v <:+ w := by
  rw [globLanguage_cons]
  constructor
  · rintro ⟨u, -, v, hv, h⟩
    exact ⟨v, hv, u, h⟩
  · rintro ⟨v, hv, u, h⟩
    exact ⟨u, trivial, v, hv, h⟩

theorem globLanguage_star_nil {p : List (GlobToken α)} :
    ([] : List α) ∈ globLanguage (star :: p) ↔ [] ∈ globLanguage p := by
  rw [globLanguage_star]
  constructor
  · rintro ⟨v, hv, hs⟩
    rwa [List.suffix_nil.mp hs] at hv
  · exact fun h => ⟨[], h, List.suffix_refl _⟩

/-- The next letter belongs to the rest of the pattern or to the star. -/
theorem globLanguage_star_cons {p : List (GlobToken α)} {x : α} {w : List α} :
    x :: w ∈ globLanguage (star :: p) ↔ x :: w ∈ globLanguage p ∨ w ∈ globLanguage (star :: p) := by
  rw [globLanguage_star, globLanguage_star]
  constructor
  · rintro ⟨v, hv, hs⟩
    rcases List.suffix_cons_iff.mp hs with rfl | hs
    · exact Or.inl hv
    · exact Or.inr ⟨v, hv, hs⟩
  · rintro (h | ⟨v, hv, hs⟩)
    · exact ⟨x :: w, h, List.suffix_refl _⟩
    · exact ⟨v, hv, hs.trans (List.suffix_cons x w)⟩

/-- Two stars in a row are one. -/
theorem globLanguage_star_star {p : List (GlobToken α)} {w : List α} :
    w ∈ globLanguage (star :: star :: p) ↔ w ∈ globLanguage (star :: p) := by
  constructor
  · intro h
    rcases globLanguage_star.mp h with ⟨u, hu, hs⟩
    rcases globLanguage_star.mp hu with ⟨v, hv, hs'⟩
    exact globLanguage_star.mpr ⟨v, hv, hs'.trans hs⟩
  · exact fun h => globLanguage_star.mpr ⟨w, h, List.suffix_refl _⟩

/-- A pattern without stars has words of its own length. -/
theorem length_of_globLanguage {p : List (GlobToken α)} (hp : ∀ t ∈ p, t ≠ star) {w : List α}
    (h : w ∈ globLanguage p) : w.length = p.length := by
  induction p generalizing w with
  | nil => rw [globLanguage_nil.mp h]; rfl
  | cons t p ih =>
    cases t with
    | star => exact absurd rfl (hp star (by simp))
    | one accepts =>
      cases w with
      | nil => exact absurd h globLanguage_one_nil
      | cons x w =>
        have hw := ih (fun t ht => hp t (by simp [ht])) (globLanguage_one_cons.mp h).2
        simp [hw]

/-- A later place for the letters between two stars leaves less of the word for the second
star, so nothing is lost by taking the first place. -/
theorem star_skips {segment p : List (GlobToken α)} (hseg : ∀ t ∈ segment, t ≠ star)
    {front rest : List α} (hlen : front.length = segment.length) {w : List α}
    (hw : w <:+ front ++ rest) (h : w ∈ globLanguage (star :: (segment ++ star :: p))) :
    rest ∈ globLanguage (star :: p) := by
  rcases globLanguage_star.mp h with ⟨u, hu, hus⟩
  rcases globLanguage_append.mp hu with ⟨v, hv, y, hy, rfl⟩
  have hvlen := length_of_globLanguage hseg hv
  have hy_front : y <:+ front ++ rest := ((List.suffix_append v y).trans hus).trans hw
  have hle := (hus.trans hw).length_le
  simp only [List.length_append] at hle
  have hy_rest : y <:+ rest :=
    List.suffix_of_suffix_length_le hy_front (List.suffix_append front rest) (by omega)
  exact globLanguage_star_star.mp (globLanguage_star.mpr ⟨y, hy, hy_rest⟩)

end Ltfs.Lib

import Ltfs.Lib.Glob

/-!
# Matching file names against the index partition criteria

`index_criteria.c` matches a file name with a glob pattern, by grapheme clusters.
`matchesNameCriteriaCaseless` models `_matches_name_criteria_caseless`: a search that
pushes a choice point whenever an asterisk gives a letter back. The stack holds at most
two of them, since `_push_ustack` hangs every later element below the base.

* `round` — one round of the matching loop, from the asterisks at the cursor to the next
  letter or the next choice point.
* `MatchInv` — what the search has settled so far; `round_spec` is its step lemma.
* `glob_match` — the search ends, with the right answer.

The break iterators, the normalisation and the case folding are ICU's. Pattern and name
are lists of graphemes here, each a list of UTF-16 code units; `fold` prepares one
grapheme for caseless matching.
-/

namespace Ltfs

open Lib GlobToken

/-- The code units between two boundaries of a break iterator. -/
abbrev Grapheme : Type := List UInt16

def asterisk : Grapheme := [0x2a]

def questionMark : Grapheme := [0x3f]

/-- `filename_ustack_t`: the rests of pattern and name at a letter that an asterisk gave
back. -/
structure Choice where
  criteria : List Grapheme
  filename : List Grapheme
deriving DecidableEq, Repr

/-- The variables of the matching loop; both strings from the cursor on. The bottom of the
stack comes first. -/
structure MatchState where
  criteria : List Grapheme
  filename : List Grapheme
  haveAsterisk : Bool
  stack : List Choice
  /-- Results of the coming `calloc` calls; an exhausted script succeeds. -/
  mem : List Bool
deriving DecidableEq, Repr

/-- What a round of the loop decides. -/
inductive Round where
  | out (isMatch : Bool)
  | next (s : MatchState)
deriving DecidableEq, Repr

/-- `_push_ustack`: the element comes right after the base. -/
def pushUstack (stack : List Choice) (element : Choice) : List Choice :=
  match stack with
  | [] => [element]
  | base :: _ => [base, element]

/-- "Pop an element off the stack": the asterisk takes the letter of that place as well. -/
def popUstack (s : MatchState) : Round :=
  match s.stack.getLast? with
  | none => .out false
  | some element => .next { s with
      criteria := element.criteria
      filename := element.filename.tail
      haveAsterisk := true
      stack := s.stack.dropLast }

/-- "Consume sequential asterisks"; `none` if the pattern ends with one. -/
def consumeAsterisks : List Grapheme → Bool → Option (List Grapheme × Bool)
  | [], haveAsterisk => some ([], haveAsterisk)
  | c :: rest, haveAsterisk =>
    if c = asterisk then
      if rest = [] then none else consumeAsterisks rest true
    else
      some (c :: rest, haveAsterisk)

/-- `_char_compare`, and the question mark. -/
def acceptsChar (c x : Grapheme) : Bool := decide (c = questionMark ∨ c = x)

/-- "Try to consume a file name character". -/
def consumeChar (s : MatchState) (c : Grapheme) (criteria : List Grapheme) (x : Grapheme)
    (filename : List Grapheme) : Round :=
  if s.haveAsterisk then
    if acceptsChar c x then
      if s.mem.headD true then
        .next { criteria := criteria
                filename := filename
                haveAsterisk := false
                stack := pushUstack s.stack ⟨c :: criteria, x :: filename⟩
                mem := s.mem.tail }
      else
        .out false
    else
      -- this character must be subsumed by the asterisk
      .next { s with filename := filename }
  else if acceptsChar c x then
    .next { s with criteria := criteria, filename := filename }
  else
    popUstack s

/-- One round of the matching loop. -/
def round (s : MatchState) : Round :=
  if s.criteria = [] then
    if s.filename = [] then .out true else popUstack s
  else
    match consumeAsterisks s.criteria s.haveAsterisk with
    | none => .out true
    | some (criteria, haveAsterisk) =>
      let s := { s with criteria := criteria, haveAsterisk := haveAsterisk }
      match s.criteria, s.filename with
      | c :: criteria, x :: filename => consumeChar s c criteria x filename
      | _, _ => popUstack s

/-- The matching loop; the first argument bounds the number of rounds. -/
def matchLoop : ℕ → MatchState → Option Bool
  | 0, _ => none
  | n + 1, s =>
    match round s with
    | .out isMatch => some isMatch
    | .next s => matchLoop n s

/-- `_matches_name_criteria_caseless`, on prepared strings. -/
def matchesNameCriteriaCaseless (fuel : ℕ) (criteria filename : List Grapheme)
    (mem : List Bool) : Option Bool :=
  if criteria = [] then
    some (decide (filename = []))
  else
    matchLoop fuel ⟨criteria, filename, false, [], mem⟩

/-! ## What the search has settled -/

/-- A grapheme of a prepared pattern, as a token. -/
def token (c : Grapheme) : GlobToken Grapheme :=
  if c = asterisk then star else one fun x => acceptsChar c x = true

theorem token_asterisk : token asterisk = star := if_pos rfl

theorem token_ne {c : Grapheme} (h : c ≠ asterisk) :
    token c = one fun x => acceptsChar c x = true := if_neg h

theorem token_ne_star {c : Grapheme} (h : c ≠ asterisk) : token c ≠ star := by
  rw [token_ne h]
  simp

/-- The names a prepared pattern stands for. -/
def criteriaLanguage (criteria : List Grapheme) : Language Grapheme :=
  globLanguage (criteria.map token)

/-- The rest of the name matches the rest of the pattern. -/
def MatchState.Accepts (s : MatchState) : Prop :=
  s.filename ∈ globLanguage (if s.haveAsterisk then star :: s.criteria.map token
    else s.criteria.map token)

/-- So it does if the asterisk takes the letter at the choice point as well. -/
def Choice.Accepts (e : Choice) : Prop :=
  e.filename.tail ∈ globLanguage (star :: e.criteria.map token)

/-- The search at the beginning of a round, for a name that matches if `T`. The elements of
the stack promise nothing wrong, and without an asterisk at hand the last one has what the
cursor misses. -/
structure MatchInv (T : Prop) (s : MatchState) : Prop where
  sound : s.Accepts → T
  stack_sound : ∀ e ∈ s.stack, e.Accepts → T
  complete : T → s.Accepts ∨
    s.haveAsterisk = false ∧ ∃ e, s.stack.getLast? = some e ∧ e.Accepts
  pattern : s.haveAsterisk = true → s.criteria ≠ []
  stack_pattern : ∀ e ∈ s.stack, e.criteria ≠ [] ∧ e.filename ≠ []
  /-- Since the last choice point, letters were matched one by one. -/
  plain : s.haveAsterisk = false → ∀ e, s.stack.getLast? = some e →
    ∃ segment front, e.criteria = segment ++ s.criteria ∧ e.filename = front ++ s.filename ∧
      front.length = segment.length ∧ segment ≠ [] ∧ ∀ c ∈ segment, c ≠ asterisk
  /-- With two elements on the stack, the cursor is behind the upper one. -/
  behind : ∀ base top, s.stack = [base, top] → s.filename.length < top.filename.length
  depth : s.stack.length ≤ 2

/-- The search goes down in this order: the place of the base of the stack, of the upper
element, of the cursor. -/
def MatchState.measure (s : MatchState) : ℕ × ℕ × ℕ :=
  match s.stack with
  | [] => (s.filename.length, s.filename.length, s.filename.length)
  | [base] => (base.filename.length, s.filename.length, s.filename.length)
  | base :: top :: _ => (base.filename.length, top.filename.length, s.filename.length)

/-- The order of the measures. -/
def Below : ℕ × ℕ × ℕ → ℕ × ℕ × ℕ → Prop :=
  Prod.Lex (· < ·) (Prod.Lex (· < ·) (· < ·))

theorem below_wf : WellFounded Below :=
  WellFounded.prod_lex Nat.lt_wfRel.wf (WellFounded.prod_lex Nat.lt_wfRel.wf Nat.lt_wfRel.wf)

/-- What a round does to the search. -/
def RoundPost (T : Prop) (s : MatchState) : Round → Prop
  | .out isMatch => (isMatch = true → T) ∧ ((∀ a ∈ s.mem, a = true) → T → isMatch = true)
  | .next s' => MatchInv T s' ∧ Below s'.measure s.measure ∧ ∀ a ∈ s'.mem, a ∈ s.mem

theorem consumeAsterisks_cons_ne {c : Grapheme} (h : c ≠ asterisk) (rest : List Grapheme)
    (b : Bool) : consumeAsterisks (c :: rest) b = some (c :: rest, b) := by
  rw [consumeAsterisks, if_neg h]

/-- What is left after the asterisks at the cursor. -/
theorem consumeAsterisks_spec (criteria : List Grapheme) : ∀ {haveAsterisk : Bool},
    criteria ≠ [] →
    (consumeAsterisks criteria haveAsterisk = none ∧ ∀ w, w ∈ criteriaLanguage criteria) ∨
    ∃ c rest, c ≠ asterisk ∧
      (criteria = c :: rest ∧ consumeAsterisks criteria haveAsterisk = some (c :: rest, haveAsterisk) ∨
        consumeAsterisks criteria haveAsterisk = some (c :: rest, true) ∧
        criteria.head? = some asterisk ∧
        ∀ w, w ∈ criteriaLanguage criteria ↔ w ∈ globLanguage (star :: (c :: rest).map token)) := by
  induction criteria with
  | nil => exact fun h => absurd rfl h
  | cons c rest ih =>
    intro haveAsterisk _
    by_cases hc : c = asterisk
    · subst hc
      have hlang : ∀ w, w ∈ criteriaLanguage (asterisk :: rest)
          ↔ w ∈ globLanguage (star :: rest.map token) := by
        intro w
        rw [criteriaLanguage, List.map_cons, token_asterisk]
      rw [consumeAsterisks, if_pos rfl]
      by_cases hrest : rest = []
      · -- the pattern ends here
        rw [if_pos hrest]
        refine Or.inl ⟨rfl, fun w => ?_⟩
        rw [hlang, hrest, globLanguage_star]
        exact ⟨[], globLanguage_nil.mpr rfl, List.nil_suffix⟩
      · rw [if_neg hrest]
        rcases @ih true hrest with ⟨hnone, hall⟩ | ⟨c, l, hc, hcase⟩
        · refine Or.inl ⟨hnone, fun w => ?_⟩
          rw [hlang, globLanguage_star]
          exact ⟨w, hall w, List.suffix_refl _⟩
        · refine Or.inr ⟨c, l, hc, Or.inr ⟨?_, rfl, fun w => ?_⟩⟩
          · rcases hcase with ⟨-, h⟩ | ⟨h, -⟩
            · exact h
            · exact h
          · rw [hlang]
            rcases hcase with ⟨rfl, -⟩ | ⟨-, -, h⟩
            · rfl
            · -- one asterisk more says nothing new
              constructor
              · intro hw
                rcases globLanguage_star.mp hw with ⟨v, hv, hs⟩
                exact globLanguage_star_star.mp (globLanguage_star.mpr ⟨v, (h v).mp hv, hs⟩)
              · intro hw
                exact globLanguage_star.mpr ⟨w, (h w).mpr hw, List.suffix_refl _⟩
    · exact Or.inr ⟨c, rest, hc, Or.inl ⟨rfl, consumeAsterisks_cons_ne hc rest haveAsterisk⟩⟩

/-- If the cursor fails, the last choice point has the answer. -/
theorem popUstack_spec {T : Prop} {s : MatchState} (h : MatchInv T s) (hfail : ¬ s.Accepts) :
    RoundPost T s (popUstack s) := by
  unfold popUstack
  cases hlast : s.stack.getLast? with
  | none =>
    refine ⟨fun hf => absurd hf (by decide), fun _ hT => ?_⟩
    rcases h.complete hT with hacc | ⟨-, e, he, -⟩
    · exact absurd hacc hfail
    · rw [hlast] at he
      cases he
  | some e =>
    have hmem : e ∈ s.stack := List.mem_of_getLast? hlast
    rcases h.stack_pattern e hmem with ⟨hcriteria, hfilename⟩
    have hsub : ∀ e' ∈ s.stack.dropLast, e' ∈ s.stack := fun e' he' =>
      (List.dropLast_sublist s.stack).subset he'
    have hpos : e.filename.tail.length < e.filename.length := by
      rw [List.length_tail]
      have := List.length_pos_iff.mpr hfilename
      omega
    refine ⟨⟨h.stack_sound e hmem, fun e' he' => h.stack_sound e' (hsub e' he'), ?_,
      fun _ => hcriteria, fun e' he' => h.stack_pattern e' (hsub e' he'), fun hf => (nomatch hf),
      ?_, ?_⟩, ?_, fun a ha => ha⟩
    · intro hT
      rcases h.complete hT with hacc | ⟨-, e', he', hacc⟩
      · exact absurd hacc hfail
      · rw [hlast] at he'
        cases he'
        exact Or.inl hacc
    · -- one element is left at most
      intro base top hstack
      have hlen := congrArg List.length hstack
      have hdepth := h.depth
      simp only [List.length_dropLast, List.length_cons, List.length_nil] at hlen
      omega
    · have hdepth := h.depth
      simp only [List.length_dropLast]
      omega
    · have hdepth := h.depth
      rcases hs : s.stack with _ | ⟨base, _ | ⟨top, _ | ⟨x, l⟩⟩⟩
      · simp [hs] at hlast
      · simp only [hs, List.getLast?_singleton, Option.some.injEq] at hlast
        subst hlast
        simp only [MatchState.measure, hs, List.dropLast_singleton]
        exact Prod.Lex.left _ _ hpos
      · simp only [hs, List.getLast?_cons_cons, List.getLast?_singleton, Option.some.injEq] at hlast
        subst hlast
        simp only [MatchState.measure, hs, List.dropLast_cons_cons, List.dropLast_singleton]
        exact Prod.Lex.right _ (Prod.Lex.left _ _ hpos)
      · rw [hs] at hdepth
        simp at hdepth

/-- With the asterisks consumed, the cursor still has the answer: what an earlier choice
point could give, the asterisk at hand can give as well. -/
theorem MatchInv.atAsterisk {T : Prop} {s : MatchState} (h : MatchInv T s) {c : Grapheme}
    {rest : List Grapheme} (hstar : s.criteria.head? = some asterisk)
    (hlang : ∀ w, w ∈ criteriaLanguage s.criteria ↔ w ∈ globLanguage (star :: (c :: rest).map token)) :
    MatchInv T { s with criteria := c :: rest, haveAsterisk := true } := by
  have hacc : s.Accepts ↔ MatchState.Accepts { s with criteria := c :: rest, haveAsterisk := true } := by
    show s.filename ∈ globLanguage (if s.haveAsterisk then _ else _) ↔ s.filename ∈ globLanguage _
    split
    · -- there was an asterisk already
      constructor
      · intro hw
        rcases globLanguage_star.mp hw with ⟨v, hv, hs⟩
        exact globLanguage_star_star.mp (globLanguage_star.mpr ⟨v, (hlang v).mp hv, hs⟩)
      · intro hw
        exact globLanguage_star.mpr ⟨_, (hlang _).mpr hw, List.suffix_refl _⟩
    · exact hlang s.filename
  refine ⟨fun ha => h.sound (hacc.mpr ha), h.stack_sound, ?_, fun _ => by simp, h.stack_pattern,
    fun hf => (nomatch hf), h.behind, h.depth⟩
  intro hT
  refine Or.inl (hacc.mp ?_)
  rcases h.complete hT with ha | ⟨hplain, e, he, ha⟩
  · exact ha
  · -- the first place of the letters in between is the best one
    rcases h.plain hplain e he with ⟨segment, front, hcriteria, hfilename, hlen, -, hseg⟩
    have hrest : ∃ l, s.criteria = asterisk :: l := by
      cases hc : s.criteria with
      | nil => simp [hc] at hstar
      | cons a l =>
        rw [hc, List.head?_cons, Option.some.injEq] at hstar
        exact ⟨l, by rw [hstar]⟩
    rcases hrest with ⟨l, hl⟩
    unfold Choice.Accepts at ha
    rw [hcriteria, hfilename, hl, List.map_append, List.map_cons, token_asterisk] at ha
    have hskip := star_skips (fun t ht => by
        rcases List.mem_map.mp ht with ⟨g, hg, rfl⟩
        exact token_ne_star (hseg g hg))
      (by rw [List.length_map]; exact hlen) (List.tail_suffix _) ha
    show s.filename ∈ globLanguage (if s.haveAsterisk then _ else _)
    rw [hplain, if_neg (by decide), hl, List.map_cons, token_asterisk]
    exact hskip

/-- "Try to consume a file name character", behind all asterisks. -/
theorem consumeChar_spec {T : Prop} {s : MatchState} (h : MatchInv T s) {c x : Grapheme}
    {criteria filename : List Grapheme} (hc : c ≠ asterisk) (hcriteria : s.criteria = c :: criteria)
    (hfilename : s.filename = x :: filename) :
    RoundPost T s (consumeChar s c criteria x filename) := by
  have hone : ∀ w p, x :: w ∈ globLanguage (token c :: p) ↔
      acceptsChar c x = true ∧ w ∈ globLanguage p := by
    intro w p
    rw [token_ne hc]
    exact globLanguage_one_cons
  -- the cursor moves forward, and the stack stays
  have hforward : ∀ s' : MatchState, s'.stack = s.stack → s'.filename = filename →
      Below s'.measure s.measure := by
    intro s' hstack hf
    rcases hs : s.stack with _ | ⟨base, _ | ⟨top, l⟩⟩
    · simp only [MatchState.measure, hstack, hs, hf, hfilename, List.length_cons]
      exact Prod.Lex.left _ _ (Nat.lt_succ_self _)
    · simp only [MatchState.measure, hstack, hs, hf, hfilename, List.length_cons]
      exact Prod.Lex.right _ (Prod.Lex.left _ _ (Nat.lt_succ_self _))
    · simp only [MatchState.measure, hstack, hs, hf, hfilename, List.length_cons]
      exact Prod.Lex.right _ (Prod.Lex.right _ (Nat.lt_succ_self _))
  have hbehind : ∀ base top, s.stack = [base, top] → filename.length < top.filename.length := by
    intro base top hs
    have hlt := h.behind base top hs
    rw [hfilename, List.length_cons] at hlt
    omega
  unfold consumeChar
  by_cases hstar : s.haveAsterisk = true
  · have hacc : s.Accepts ↔ x :: filename ∈ globLanguage (star :: token c :: criteria.map token) := by
      unfold MatchState.Accepts
      rw [hstar, hcriteria, hfilename]
      rfl
    rw [if_pos hstar]
    by_cases hmatch : acceptsChar c x = true
    · rw [if_pos hmatch]
      split
      · -- a choice point: the letter is for the pattern, or for the asterisk
        set e : Choice := ⟨c :: criteria, x :: filename⟩
        have hsplit : s.Accepts ↔ filename ∈ globLanguage (criteria.map token) ∨ e.Accepts := by
          rw [hacc, globLanguage_star_cons, hone]
          constructor
          · rintro (⟨-, hw⟩ | hw)
            · exact Or.inl hw
            · exact Or.inr hw
          · rintro (hw | hw)
            · exact Or.inl ⟨hmatch, hw⟩
            · exact Or.inr hw
        have hmem : ∀ e' ∈ pushUstack s.stack e, e' ∈ s.stack ∨ e' = e := by
          intro e' he'
          unfold pushUstack at he'
          cases hs : s.stack with
          | nil =>
            rw [hs] at he'
            exact Or.inr (by simpa using he')
          | cons base l =>
            rw [hs] at he'
            simp only [List.mem_cons, List.not_mem_nil, or_false] at he' ⊢
            rcases he' with he' | he'
            · exact Or.inl (Or.inl he')
            · exact Or.inr he'
        have hlast : (pushUstack s.stack e).getLast? = some e := by
          unfold pushUstack
          cases s.stack <;> rfl
        refine ⟨⟨fun ha => h.sound (hsplit.mpr (Or.inl ha)), ?_, ?_, fun hf => (nomatch hf), ?_, ?_,
          ?_, ?_⟩, ?_, fun a ha => List.mem_of_mem_tail ha⟩
        · intro e' he' ha
          rcases hmem e' he' with he' | rfl
          · exact h.stack_sound e' he' ha
          · exact h.sound (hsplit.mpr (Or.inr ha))
        · intro hT
          rcases h.complete hT with ha | ⟨hf, -⟩
          · rcases hsplit.mp ha with hw | he
            · exact Or.inl hw
            · exact Or.inr ⟨rfl, e, hlast, he⟩
          · rw [hstar] at hf
            cases hf
        · intro e' he'
          rcases hmem e' he' with he' | rfl
          · exact h.stack_pattern e' he'
          · exact ⟨by simp [e], by simp [e]⟩
        · intro _ e' he'
          have heq : e' = e := Option.some.inj (he'.symm.trans hlast)
          subst heq
          refine ⟨[c], [x], rfl, rfl, rfl, by simp, ?_⟩
          intro g hg
          rw [List.mem_singleton.mp hg]
          exact hc
        · intro base top hs
          have hs' : pushUstack s.stack e = [base, top] := hs
          rw [hs', List.getLast?_cons_cons, List.getLast?_singleton, Option.some.injEq] at hlast
          rw [hlast]
          show filename.length < (x :: filename).length
          simp
        · show (pushUstack s.stack e).length ≤ 2
          unfold pushUstack
          cases s.stack <;> simp
        · rcases hs : s.stack with _ | ⟨base, _ | ⟨top, l⟩⟩
          · simp only [MatchState.measure, hs, pushUstack, hfilename, e, List.length_cons]
            exact Prod.Lex.right _ (Prod.Lex.left _ _ (Nat.lt_succ_self _))
          · simp only [MatchState.measure, hs, pushUstack, hfilename, e, List.length_cons]
            exact Prod.Lex.right _ (Prod.Lex.right _ (Nat.lt_succ_self _))
          · have hdepth := h.depth
            rw [hs] at hdepth
            have hl : l = [] := by
              cases l with
              | nil => rfl
              | cons y l => simp at hdepth
            subst hl
            have hlt := h.behind base top hs
            rw [hfilename] at hlt
            simp only [MatchState.measure, hs, pushUstack, e]
            exact Prod.Lex.right _ (Prod.Lex.left _ _ hlt)
      · -- no memory for the choice point
        rename_i hmem
        refine ⟨fun hf => absurd hf (by decide), fun hall _ => ?_⟩
        cases hm : s.mem with
        | nil => simp [hm] at hmem
        | cons a l =>
          rw [hm, List.headD_cons] at hmem
          exact absurd (hall a (by simp [hm])) hmem
    · -- the asterisk takes the letter
      rw [if_neg hmatch]
      have hacc' : s.Accepts ↔ filename ∈ globLanguage (star :: s.criteria.map token) := by
        rw [hacc, globLanguage_star_cons, hone, hcriteria, List.map_cons]
        constructor
        · rintro (⟨hm, -⟩ | hw)
          · exact absurd hm hmatch
          · exact hw
        · exact Or.inr
      have hnext : MatchState.Accepts { s with filename := filename } ↔ s.Accepts := by
        rw [hacc']
        unfold MatchState.Accepts
        simp only [hstar, if_true]
      refine ⟨⟨fun ha => h.sound (hnext.mp ha), h.stack_sound, ?_, h.pattern, h.stack_pattern,
        fun hf => absurd (hstar.symm.trans hf) (by decide), hbehind, h.depth⟩,
        hforward _ rfl rfl, fun a ha => ha⟩
      intro hT
      rcases h.complete hT with ha | ⟨hf, -⟩
      · exact Or.inl (hnext.mpr ha)
      · rw [hstar] at hf
        cases hf
  · rw [if_neg hstar]
    rw [Bool.not_eq_true] at hstar
    have hacc : s.Accepts ↔
        acceptsChar c x = true ∧ filename ∈ globLanguage (criteria.map token) := by
      unfold MatchState.Accepts
      rw [hstar, if_neg (by decide), hcriteria, hfilename, List.map_cons]
      exact hone filename _
    by_cases hmatch : acceptsChar c x = true
    · rw [if_pos hmatch]
      have hnext : MatchState.Accepts { s with criteria := criteria, filename := filename }
          ↔ s.Accepts := by
        rw [hacc]
        unfold MatchState.Accepts
        simp only [hstar, Bool.false_eq_true, if_false, hmatch, true_and]
      refine ⟨⟨fun ha => h.sound (hnext.mp ha), h.stack_sound, ?_,
        fun hf => absurd (hstar.symm.trans hf) (by decide), h.stack_pattern, ?_, hbehind, h.depth⟩,
        hforward _ rfl rfl, fun a ha => ha⟩
      · intro hT
        rcases h.complete hT with ha | hlater
        · exact Or.inl (hnext.mpr ha)
        · exact Or.inr hlater
      · intro _ e he
        rcases h.plain hstar e he with ⟨segment, front, h1, h2, h3, -, h5⟩
        refine ⟨segment ++ [c], front ++ [x], ?_, ?_, ?_, by simp, ?_⟩
        · rw [h1, hcriteria, List.append_assoc]
          rfl
        · rw [h2, hfilename, List.append_assoc]
          rfl
        · simp [h3]
        · intro g hg
          rcases List.mem_append.mp hg with hg | hg
          · exact h5 g hg
          · rw [List.mem_singleton.mp hg]
            exact hc
    · rw [if_neg hmatch]
      exact popUstack_spec h fun ha => hmatch (hacc.mp ha).1

/-- Consuming the asterisks changes nothing but the cursor. -/
theorem RoundPost.mono {T : Prop} {s s' : MatchState} (hstack : s'.stack = s.stack)
    (hfilename : s'.filename = s.filename) (hmem : s'.mem = s.mem) {r : Round}
    (h : RoundPost T s' r) : RoundPost T s r := by
  have hmeasure : s'.measure = s.measure := by
    unfold MatchState.measure
    rw [hstack, hfilename]
  cases r with
  | out isMatch =>
    unfold RoundPost at h ⊢
    rwa [hmem] at h
  | next s'' =>
    unfold RoundPost at h ⊢
    rwa [hmem, hmeasure] at h

/-- One round keeps what the search has settled and brings it forward. -/
theorem round_spec {T : Prop} {s : MatchState} (h : MatchInv T s) : RoundPost T s (round s) := by
  unfold round
  by_cases hend : s.criteria = []
  · rw [if_pos hend]
    have hplain : s.haveAsterisk = false := by
      cases hstar : s.haveAsterisk with
      | false => rfl
      | true => exact absurd hend (h.pattern hstar)
    have hacc : s.Accepts ↔ s.filename = [] := by
      unfold MatchState.Accepts
      rw [hplain, if_neg (by decide), hend]
      exact globLanguage_nil
    by_cases hname : s.filename = []
    · -- pattern and name end together
      rw [if_pos hname]
      exact ⟨fun _ => h.sound (hacc.mpr hname), fun _ _ => rfl⟩
    · rw [if_neg hname]
      exact popUstack_spec h fun ha => hname (hacc.mp ha)
  · rw [if_neg hend]
    -- the rest of the round, with the cursor behind the asterisks
    have hrest : ∀ {s' : MatchState} {c : Grapheme} {rest : List Grapheme}, MatchInv T s' →
        c ≠ asterisk → s'.criteria = c :: rest →
        RoundPost T s' (match s'.criteria, s'.filename with
          | c :: criteria, x :: filename => consumeChar s' c criteria x filename
          | _, _ => popUstack s') := by
      intro s' c rest h' hc hcriteria
      cases hname : s'.filename with
      | nil =>
        rw [hcriteria]
        apply popUstack_spec h'
        intro ha
        -- the name is over, but the pattern wants a letter
        have hempty : ([] : List Grapheme) ∉ globLanguage (token c :: rest.map token) := by
          rw [token_ne hc]
          exact globLanguage_one_nil
        unfold MatchState.Accepts at ha
        rw [hname, hcriteria, List.map_cons] at ha
        split at ha
        · exact hempty (globLanguage_star_nil.mp ha)
        · exact hempty ha
      | cons x filename =>
        rw [hcriteria]
        exact consumeChar_spec h' hc hcriteria hname
    rcases @consumeAsterisks_spec s.criteria s.haveAsterisk hend with
      ⟨hnone, hall⟩ | ⟨c, rest, hc, ⟨hcriteria, hsome⟩ | ⟨hsome, hstar, hlang⟩⟩
    · -- the pattern ends with an asterisk
      rw [hnone]
      refine ⟨fun _ => h.sound ?_, fun _ _ => rfl⟩
      unfold MatchState.Accepts
      split
      · exact globLanguage_star.mpr ⟨_, hall s.filename, List.suffix_refl _⟩
      · exact hall s.filename
    · rw [hsome]
      have hsame : { s with criteria := c :: rest, haveAsterisk := s.haveAsterisk } = s := by
        rw [← hcriteria]
      have hpost := hrest h hc hcriteria
      rw [← hsame] at hpost
      exact hpost.mono rfl rfl rfl
    · rw [hsome]
      have hpost := hrest (h.atAsterisk hstar hlang) hc rfl
      exact hpost.mono rfl rfl rfl

/-! ## The search -/

/-- Running the loop to its end. -/
theorem matchLoop_spec {T : Prop} (m : ℕ × ℕ × ℕ) : ∀ s : MatchState, s.measure = m →
    MatchInv T s → ∃ n, ∀ fuel, n ≤ fuel → ∃ b, matchLoop fuel s = some b ∧ (b = true → T) ∧
      ((∀ a ∈ s.mem, a = true) → T → b = true) := by
  induction m using below_wf.induction with
  | _ m ih =>
    intro s hm h
    have hround := round_spec h
    cases hr : round s with
    | out isMatch =>
      rw [hr] at hround
      refine ⟨1, fun fuel hfuel => ⟨isMatch, ?_, hround⟩⟩
      cases fuel with
      | zero => omega
      | succ fuel => rw [matchLoop, hr]
    | next s' =>
      rw [hr] at hround
      rcases hround with ⟨h', hbelow, hmem⟩
      rw [hm] at hbelow
      rcases ih s'.measure hbelow s' rfl h' with ⟨n, hn⟩
      refine ⟨n + 1, fun fuel hfuel => ?_⟩
      cases fuel with
      | zero => omega
      | succ fuel =>
        rcases hn fuel (by omega) with ⟨b, hb, hsound, hcomplete⟩
        refine ⟨b, ?_, hsound, fun hall => hcomplete fun a ha => hall a (hmem a ha)⟩
        rw [matchLoop, hr]
        exact hb

theorem acceptsChar_fold {fold : Grapheme → Grapheme}
    (hany : ∀ g, fold g = questionMark ↔ g = questionMark) (c x : Grapheme) :
    acceptsChar (fold c) (fold x) = true ↔ c = questionMark ∨ fold c = fold x := by
  simp [acceptsChar, hany]

/-- What a pattern grapheme stands for, before names are prepared for caseless matching. -/
def caselessToken (fold : Grapheme → Grapheme) (c : Grapheme) : GlobToken Grapheme :=
  if c = asterisk then star
  else if c = questionMark then one fun _ => True
  else one fun x => fold c = fold x

/-- Preparing the name and the pattern amounts to comparing the letters caselessly. -/
theorem criteriaLanguage_fold {fold : Grapheme → Grapheme}
    (hstar : ∀ g, fold g = asterisk ↔ g = asterisk)
    (hany : ∀ g, fold g = questionMark ↔ g = questionMark) (criteria : List Grapheme) :
    ∀ filename : List Grapheme, filename.map fold ∈ criteriaLanguage (criteria.map fold) ↔
      filename ∈ globLanguage (criteria.map (caselessToken fold)) := by
  induction criteria with
  | nil =>
    intro filename
    show _ ∈ globLanguage [] ↔ _ ∈ globLanguage []
    rw [globLanguage_nil, globLanguage_nil, List.map_eq_nil_iff]
  | cons c rest ih =>
    intro filename
    show _ ∈ globLanguage (token (fold c) :: _) ↔ _ ∈ globLanguage (caselessToken fold c :: _)
    by_cases hc : c = asterisk
    · have htok : token (fold c) = star := by
        rw [(hstar c).mpr hc]
        exact token_asterisk
      have htok' : caselessToken fold c = star := if_pos hc
      rw [htok, htok']
      induction filename with
      | nil =>
        rw [List.map_nil, globLanguage_star_nil, globLanguage_star_nil]
        exact ih []
      | cons x filename ihf =>
        rw [List.map_cons, globLanguage_star_cons, globLanguage_star_cons]
        exact or_congr (ih (x :: filename)) ihf
    · have hcf : fold c ≠ asterisk := fun h => hc ((hstar c).mp h)
      have htok' : caselessToken fold c = one fun x => c = questionMark ∨ fold c = fold x := by
        unfold caselessToken
        rw [if_neg hc]
        split
        · rename_i hq
          simp [hq]
        · rename_i hq
          simp [hq]
      rw [token_ne hcf, htok']
      cases filename with
      | nil => exact iff_of_false globLanguage_one_nil globLanguage_one_nil
      | cons x filename =>
        rw [List.map_cons, globLanguage_one_cons, globLanguage_one_cons, acceptsChar_fold hany]
        exact and_congr Iff.rfl (ih filename)

/-- For every pattern and name, the search ends. It never accepts a name outside the language
of the pattern, and it accepts every name inside unless an allocation failed. -/
theorem glob_match (fold : Grapheme → Grapheme) (hstar : ∀ g, fold g = asterisk ↔ g = asterisk)
    (hany : ∀ g, fold g = questionMark ↔ g = questionMark) (criteria filename : List Grapheme)
    (mem : List Bool) :
    ∃ n, ∀ fuel, n ≤ fuel → ∃ b,
      matchesNameCriteriaCaseless fuel (criteria.map fold) (filename.map fold) mem = some b ∧
      (b = true → filename ∈ globLanguage (criteria.map (caselessToken fold))) ∧
      ((∀ a ∈ mem, a = true) →
        (b = true ↔ filename ∈ globLanguage (criteria.map (caselessToken fold)))) := by
  rw [← criteriaLanguage_fold hstar hany]
  unfold matchesNameCriteriaCaseless
  by_cases hnil : criteria.map fold = []
  · -- the empty pattern
    refine ⟨0, fun fuel _ => ⟨decide (filename.map fold = []), if_pos hnil, ?_⟩⟩
    have hlang : filename.map fold ∈ criteriaLanguage (criteria.map fold)
        ↔ filename.map fold = [] := by
      rw [hnil]
      exact globLanguage_nil
    rw [hlang, decide_eq_true_eq]
    exact ⟨id, fun _ => Iff.rfl⟩
  · simp only [if_neg hnil]
    set s : MatchState := ⟨criteria.map fold, filename.map fold, false, [], mem⟩
    have hstart : MatchInv (filename.map fold ∈ criteriaLanguage (criteria.map fold)) s := by
      refine ⟨id, fun e he => absurd he List.not_mem_nil, fun hT => Or.inl hT,
        fun hf => (nomatch hf), fun e he => absurd he List.not_mem_nil, fun _ e he => (nomatch he),
        fun base top hs => (nomatch hs), Nat.zero_le _⟩
    rcases matchLoop_spec s.measure s rfl hstart with ⟨n, hn⟩
    refine ⟨n, fun fuel hfuel => ?_⟩
    rcases hn fuel hfuel with ⟨b, hb, hsound, hcomplete⟩
    exact ⟨b, hb, hsound, fun hall => ⟨hsound, hcomplete hall⟩⟩

/-- Case folding of the ASCII letters. -/
def asciiFold (g : Grapheme) : Grapheme :=
  g.map fun c => if 0x41 ≤ c ∧ c ≤ 0x5A then c + 0x20 else c

theorem asciiFold_eq_iff {k : UInt16} (hk : k < 0x41) (g : Grapheme) :
    asciiFold g = [k] ↔ g = [k] := by
  have hunit : ∀ c : UInt16, (if 0x41 ≤ c ∧ c ≤ 0x5A then c + 0x20 else c) = k ↔ c = k := by
    intro c
    split
    · rename_i hc
      rw [UInt16.le_iff_toNat_le, UInt16.le_iff_toNat_le] at hc
      rw [UInt16.lt_iff_toNat_lt] at hk
      rw [← UInt16.toNat_inj, ← UInt16.toNat_inj, UInt16.toNat_add]
      have h1 : (0x41 : UInt16).toNat = 0x41 := rfl
      have h2 : (0x5A : UInt16).toNat = 0x5A := rfl
      have h3 : (0x20 : UInt16).toNat = 0x20 := rfl
      omega
    · rfl
  unfold asciiFold
  constructor
  · intro h
    rcases List.map_eq_singleton_iff.mp h with ⟨c, rfl, hc⟩
    rw [(hunit c).mp hc]
  · rintro rfl
    rw [List.map_singleton, (hunit k).mpr rfl]

/-- `*.T?t` matches `a.t.tXT`: the first dot is the wrong one. -/
theorem glob_match_backtracks :
    ∃ n, ∀ fuel, n ≤ fuel → ∃ b,
      matchesNameCriteriaCaseless fuel
        (List.map asciiFold [[0x2a], [0x2e], [0x54], [0x3f], [0x74]])
        (List.map asciiFold [[0x61], [0x2e], [0x74], [0x2e], [0x74], [0x58], [0x54]]) [] = some b ∧
      (b = true → [[0x61], [0x2e], [0x74], [0x2e], [0x74], [0x58], [0x54]] ∈
        globLanguage ([[0x2a], [0x2e], [0x54], [0x3f], [0x74]].map (caselessToken asciiFold))) ∧
      ((∀ a ∈ ([] : List Bool), a = true) →
        (b = true ↔ [[0x61], [0x2e], [0x74], [0x2e], [0x74], [0x58], [0x54]] ∈
          globLanguage ([[0x2a], [0x2e], [0x54], [0x3f], [0x74]].map (caselessToken asciiFold)))) :=
  glob_match asciiFold (asciiFold_eq_iff (by decide)) (asciiFold_eq_iff (by decide))
    [[0x2a], [0x2e], [0x54], [0x3f], [0x74]]
    [[0x61], [0x2e], [0x74], [0x2e], [0x74], [0x58], [0x54]] []

example : matchesNameCriteriaCaseless 20
    (List.map asciiFold [[0x2a], [0x2e], [0x54], [0x3f], [0x74]])
    (List.map asciiFold [[0x61], [0x2e], [0x74], [0x2e], [0x74], [0x58], [0x54]]) []
      = some true := by
  decide

end Ltfs

import Ltfs.CriteriaRule
import Ltfs.Lib.Split

/-!
# Which data placement rules are accepted

* `wellFormed` — what a rule should be: options between slashes, one size that fits in 64 bits, and
  at most one list of names.
* `findOption_eq` — an option is found where it is given an odd number of times.
* `Misread` — the rules of which the parser makes something else.
* `parse_rule_iff` — every other rule is accepted for what it says, or rejected.
-/

namespace Ltfs.CriteriaRule

open Lib NameCodec

/-! ## Options -/

/-- Whether an option begins here does not depend on what is behind the next slash. -/
theorem RuleOption.begins_append (o : RuleOption) (c rest : Text) :
    o.begins (c ++ slash :: rest) = o.begins c := by
  by_cases hlen : 5 ≤ c.length
  · unfold begins
    rw [List.take_append_of_le_length hlen]
  · -- a slash is in the way
    have htake : ∀ s : Text, (slash ∈ s.take 5 ∨ s.length < 5) → o.begins s = false := by
      intro s hs
      unfold begins
      rw [beq_eq_false_iff_ne]
      intro heq
      rcases hs with hmem | hshort
      · have htext : tolower slash ∈ o.text := heq ▸ List.mem_map_of_mem hmem
        cases o <;> exact absurd htext (by decide)
      · have hlength := congrArg List.length heq
        rw [List.length_map, List.length_take] at hlength
        cases o <;> simp [text] at hlength <;> omega
    rw [htake c (.inr (by omega)), htake _ (.inl ?_)]
    rw [List.take_append, List.mem_append]
    right
    obtain ⟨k, hk⟩ : ∃ k, 5 - c.length = k + 1 := ⟨4 - c.length, by omega⟩
    rw [hk, List.take_succ_cons]
    exact List.mem_cons_self

theorem beginsOption_append (c rest : Text) :
    beginsOption (c ++ slash :: rest) = beginsOption c := by
  unfold beginsOption
  simp only [RuleOption.begins_append]

theorem RuleOption.length_of_begins {o : RuleOption} {s : Text} (h : o.begins s = true) :
    5 ≤ s.length := by
  unfold begins at h
  have hlength := congrArg List.length (beq_iff_eq.mp h)
  rw [List.length_map, List.length_take] at hlength
  cases o <;> simp [text] at hlength <;> omega

theorem beginsOption_iff {s : Text} :
    beginsOption s = true ↔ RuleOption.begins .name s = true ∨ RuleOption.begins .size s = true := by
  simp [beginsOption]

theorem invalidAfterSlash_component {c : Text} (hc : slash ∉ c) : invalidAfterSlash c = false := by
  induction c with
  | nil => rfl
  | cons b c ih =>
    rw [List.mem_cons, not_or] at hc
    have hb : (b == slash) = false := beq_eq_false_iff_ne.mpr (Ne.symm hc.1)
    rw [invalidAfterSlash, hb, Bool.false_and, Bool.false_or]
    exact ih hc.2

theorem invalidAfterSlash_append {c : Text} (hc : slash ∉ c) (rest : Text) :
    invalidAfterSlash (c ++ slash :: rest) = (! beginsOption rest || invalidAfterSlash rest) := by
  induction c with
  | nil => simp [invalidAfterSlash]
  | cons b c ih =>
    rw [List.mem_cons, not_or] at hc
    have hb : (b == slash) = false := beq_eq_false_iff_ne.mpr (Ne.symm hc.1)
    rw [List.cons_append, invalidAfterSlash, hb, Bool.false_and, Bool.false_or]
    exact ih hc.2

/-- An option begins the text, and behind each slash. -/
theorem options_iff (s : Text) : (beginsOption s = true ∧ invalidAfterSlash s = false) ↔
    ∀ c ∈ s.splitOn slash, beginsOption c = true := by
  induction s using split_induction slash with
  | last s hs =>
    rw [invalidAfterSlash_component hs, List.splitOn_eq_singleton hs]
    simp
  | cons c rest hc ih =>
    rw [invalidAfterSlash_append hc, beginsOption_append,
      List.splitOn_append_cons_self_of_not_mem hc, List.forall_mem_cons, ← ih]
    simp

theorem containsInvalidOptions_eq_false (s : Text) :
    containsInvalidOptions s = false ↔ ∀ c ∈ s.splitOn slash, beginsOption c = true := by
  rw [← options_iff]
  unfold containsInvalidOptions
  constructor
  · intro h
    split at h
    · cases h
    · split at h
      · cases h
      · rename_i hbegin
        have hbegin' : beginsOption s = true := by simpa using hbegin
        refine ⟨hbegin', ?_⟩
        -- the first byte is no slash
        obtain ⟨o, ho⟩ : ∃ o : RuleOption, o.begins s = true := by
          rcases beginsOption_iff.mp hbegin' with ho | ho
          · exact ⟨_, ho⟩
          · exact ⟨_, ho⟩
        obtain ⟨c, rest, rfl, hc⟩ := RuleOption.begins_cons ho
        have hc' : (c == slash) = false := beq_eq_false_iff_ne.mpr hc
        rw [invalidAfterSlash, hc', Bool.false_and, Bool.false_or]
        exact h
  · rintro ⟨hbegin, hvalid⟩
    obtain ⟨o, ho⟩ : ∃ o : RuleOption, o.begins s = true := by
      rcases beginsOption_iff.mp hbegin with ho | ho
      · exact ⟨_, ho⟩
      · exact ⟨_, ho⟩
    have hlen := RuleOption.length_of_begins ho
    rw [if_neg (by omega), if_neg (by simp [hbegin])]
    cases s with
    | nil => rfl
    | cons c rest =>
      rw [invalidAfterSlash, Bool.or_eq_false_iff] at hvalid
      exact hvalid.2

/-! ## Finding an option -/

/-- The texts of an option, in order. -/
def entries (o : RuleOption) (rule : Text) : List Text := (rule.splitOn slash).filter o.begins

theorem searchOption_component {o : RuleOption} {c : Text} (hc : slash ∉ c) {prev : UInt8}
    (hprev : prev ≠ slash) : searchOption o prev c = none := by
  induction c generalizing prev with
  | nil => rfl
  | cons b c ih =>
    rw [List.mem_cons, not_or] at hc
    rw [searchOption, if_neg (by simp [hprev])]
    exact ih hc.2 (Ne.symm hc.1)

theorem searchOption_slash (o : RuleOption) (rest : Text) :
    searchOption o slash rest = startOfOption o rest := by
  cases rest with
  | nil => rfl
  | cons c rest =>
    rw [searchOption, startOfOption]
    simp

theorem searchOption_append {o : RuleOption} {c : Text} (hc : slash ∉ c) {prev : UInt8}
    (hprev : prev ≠ slash) (rest : Text) :
    searchOption o prev (c ++ slash :: rest) = startOfOption o rest := by
  induction c generalizing prev with
  | nil =>
    rw [List.nil_append, searchOption, if_neg (by simp [hprev])]
    exact searchOption_slash o rest
  | cons b c ih =>
    rw [List.mem_cons, not_or] at hc
    rw [List.cons_append, searchOption, if_neg (by simp [hprev])]
    exact ih hc.2 (Ne.symm hc.1)

theorem startOfOption_component {o : RuleOption} {c : Text} (hc : slash ∉ c) :
    startOfOption o c = if o.begins c then some c else none := by
  cases c with
  | nil => cases o <;> rfl
  | cons b c =>
    rw [List.mem_cons, not_or] at hc
    rw [startOfOption, searchOption_component hc.2 (Ne.symm hc.1)]

theorem startOfOption_append {o : RuleOption} {c : Text} (hc : slash ∉ c) (rest : Text) :
    startOfOption o (c ++ slash :: rest)
      = if o.begins c then some (c ++ slash :: rest) else startOfOption o rest := by
  rw [← RuleOption.begins_append o c rest]
  cases c with
  | nil =>
    rw [List.nil_append, startOfOption, searchOption_slash]
  | cons b c =>
    rw [List.mem_cons, not_or] at hc
    rw [List.cons_append, startOfOption, searchOption_append hc.2 (Ne.symm hc.1)]

/-- The first option and those behind it. -/
theorem startOfOption_entries (o : RuleOption) (s : Text) :
    entries o s = match startOfOption o s with
      | none => []
      | some start => start.takeWhile (· != slash) :: entries o (start.dropWhile (· != slash)) := by
  have hne : ∀ {c : Text}, slash ∉ c → ∀ b ∈ c, (b != slash) = true := by
    intro c hc b hb
    rw [bne_iff_ne]
    rintro rfl
    exact hc hb
  unfold entries
  induction s using split_induction slash with
  | last s hs =>
    rw [startOfOption_component hs, List.splitOn_eq_singleton hs]
    by_cases hbegin : o.begins s = true
    · rw [if_pos hbegin]
      have htake : s.takeWhile (· != slash) = s := List.takeWhile_eq_self_iff.mpr (hne hs)
      have hdrop : s.dropWhile (· != slash) = [] := List.dropWhile_eq_nil_iff.mpr (hne hs)
      dsimp only
      rw [htake, hdrop, List.splitOn_nil, List.filter_cons_of_pos hbegin]
      cases o <;> rfl
    · rw [if_neg hbegin]
      simp [hbegin]
  | cons c rest hc ih =>
    rw [startOfOption_append hc, List.splitOn_append_cons_self_of_not_mem hc]
    by_cases hbegin : o.begins c = true
    · have htake : (c ++ slash :: rest).takeWhile (· != slash) = c := by
        rw [List.takeWhile_append_of_pos (hne hc)]
        simp
      have hdrop : (c ++ slash :: rest).dropWhile (· != slash) = slash :: rest := by
        rw [List.dropWhile_append_of_pos (hne hc)]
        simp
      rw [if_pos hbegin, List.filter_cons_of_pos hbegin]
      dsimp only
      have hempty : (slash :: rest).splitOn slash = [] :: rest.splitOn slash := by
        rw [List.splitOn_cons_eq_if_modifyHead, if_pos (by simp)]
      have hnil : ¬ o.begins [] = true := by cases o <;> decide
      rw [htake, hdrop, hempty, List.filter_cons_of_neg hnil]
    · rw [if_neg hbegin, List.filter_cons_of_neg hbegin]
      exact ih

/-- What is found among the texts of an option. -/
def picked : List Text → Found
  | [] => .absent
  | e :: es => if (picked es).isFound then .repeated else .found e

theorem picked_isFound (es : List Text) : (picked es).isFound = true ↔ Odd es.length := by
  induction es with
  | nil => simp [picked, Found.isFound]
  | cons e es ih =>
    rw [picked, List.length_cons, Nat.odd_add_one, ← ih]
    by_cases hfound : (picked es).isFound = true
    · rw [if_pos hfound]
      exact iff_of_false Bool.false_ne_true (not_not_intro hfound)
    · rw [if_neg hfound]
      exact iff_of_true rfl hfound

/-- Options that are given more than once are told apart by parity. -/
theorem findOption_eq (o : RuleOption) (s : Text) : findOption o s = picked (entries o s) := by
  induction hn : s.length using Nat.strongRecOn generalizing s with
  | _ n ih =>
    rw [findOption, startOfOption_entries]
    by_cases hshort : s.length < 5
    · rw [if_pos hshort]
      -- there is no room for an option
      cases hstart : startOfOption o s with
      | none => rfl
      | some start =>
        obtain ⟨hsuffix, hbegin⟩ := startOfOption_suffix hstart
        have hlen := RuleOption.length_of_begins hbegin
        have hle := hsuffix.length_le
        omega
    · rw [if_neg hshort]
      split
      · rename_i hstart
        rw [hstart]
        rfl
      · rename_i start hstart
        rw [hstart]
        dsimp only
        rw [picked, ih _ (hn ▸ dropWhile_start_lt hstart) _ rfl]

/-! ## The size -/

/-- The decimal number a value begins with. -/
def leadingNumber (value : Text) : ℕ := Radix.value .dec ((value.takeWhile isdigit).map char)

/-- What a size should be: a decimal number with at most one suffix, that fits in 64 bits. -/
def sizeOf (value : Text) : Option ℕ :=
  let scale := match value.dropWhile isdigit with
    | [] => some 1
    | [c] => multiplierOf c
    | _ => none
  match scale with
  | none => none
  | some scale =>
    if value.takeWhile isdigit ≠ [] ∧ leadingNumber value * scale < 2 ^ 64 then
      some (leadingNumber value * scale)
    else none

/-- The factor for the last byte of a value. -/
def scaleOf (value : Text) : Option ℕ :=
  match value.getLast? with
  | none => none
  | some last => if isalpha last then multiplierOf last else some 1

/-- What is checked of a size: it begins with a digit, no two letters are adjacent, and a letter at
the end is a suffix. -/
structure SizeTaken (value : Text) (scale : ℕ) : Prop where
  digit : ∃ c rest, value = c :: rest ∧ isdigit c = true
  letters : adjacentLetters value = false
  scale : scaleOf value = some scale

theorem isalpha_of_isdigit {b : UInt8} (h : isdigit b = true) : isalpha b = false := by
  unfold isdigit Char.isDigit at h
  unfold isalpha Char.isAlpha Char.isUpper Char.isLower
  simp only [Bool.and_eq_true, decide_eq_true_eq, UInt32.le_iff_toNat_le, ge_iff_le] at h
  simp only [Bool.or_eq_false_iff, Bool.and_eq_false_iff, decide_eq_false_iff_not, ge_iff_le,
    UInt32.le_iff_toNat_le]
  constructor
  · simp at h ⊢
    omega
  · simp at h ⊢
    omega

theorem isalpha_of_multiplierOf {b : UInt8} {scale : ℕ} (h : multiplierOf b = some scale) :
    isalpha b = true := by
  have hletter : b = 0x6B ∨ b = 0x4B ∨ b = 0x6D ∨ b = 0x4D ∨ b = 0x67 ∨ b = 0x47 := by
    unfold multiplierOf at h
    split at h
    · tauto
    · split at h
      · tauto
      · split at h
        · tauto
        · cases h
  rcases hletter with rfl | rfl | rfl | rfl | rfl | rfl <;> decide

theorem strtoull_digits {c : UInt8} (hc : isdigit c = true) (rest : Text) :
    (strtoull .dec ((c :: rest).map char)).1 = toUllong (leadingNumber (c :: rest)) := by
  obtain ⟨hspace, hminus, hplus, -, -⟩ := Radix.isDigit_spec (r := .dec) hc
  have htake : ((c :: rest).map char).takeWhile (Radix.isDigit .dec)
      = ((c :: rest).takeWhile isdigit).map char := List.takeWhile_map
  have hne : ((c :: rest).takeWhile isdigit).map char ≠ [] := by
    rw [List.takeWhile_cons_of_pos hc]
    exact List.cons_ne_nil _ _
  have hdrop : ((c :: rest).map char).dropWhile Time.isspace = (c :: rest).map char := by
    rw [List.map_cons, List.dropWhile_cons_of_neg (by simp [hspace])]
  have hsign : Time.scanSign ((c :: rest).map char) = (false, 0) := scanSign_of_ne hminus hplus _
  unfold strtoull scanNumber
  dsimp only
  rw [hdrop, hsign]
  dsimp only
  have hnone : Radix.prefixLen .dec (((c :: rest).map char).drop 0) = 0 := rfl
  rw [hnone, List.drop_zero, List.drop_zero, htake, if_neg hne]
  rfl

/-- A letter at the end does not belong to the number. -/
theorem leadingNumber_dropLast {value : Text} {last : UInt8} (hlast : value.getLast? = some last)
    (halpha : isalpha last = true) : leadingNumber value.dropLast = leadingNumber value := by
  have hvalue : value.dropLast ++ [last] = value := List.dropLast_append_getLast? last hlast
  have hdigit : ¬ isdigit last = true := by
    intro h
    rw [isalpha_of_isdigit h] at halpha
    cases halpha
  unfold leadingNumber
  conv_rhs => rw [← hvalue]
  rw [List.takeWhile_append]
  split
  · rename_i hall
    rw [List.takeWhile_cons_of_neg hdigit, List.append_nil, List.IsPrefix.eq_of_length
      (List.takeWhile_prefix _) hall]
  · rfl

theorem parseSize_empty {criteria : Text} (hlen : 5 ≤ criteria.length)
    (hempty : criteria.drop 5 = []) (ic : Criteria) : parseSize criteria ic = none := by
  unfold parseSize
  rw [if_neg (by omega), hempty]
  rfl

/-- The size of a value that passes the checks. -/
theorem parseSize_taken {criteria : Text} (hlen : 5 ≤ criteria.length) {scale : ℕ}
    (h : SizeTaken (criteria.drop 5) scale) (ic : Criteria) :
    parseSize criteria ic = some (0, { ic with
      maxFilesizeCriteria := toUllong (leadingNumber (criteria.drop 5)) * scale % 2 ^ 64 }) := by
  obtain ⟨⟨c, rest, hvalue, hc⟩, hletters, hscale⟩ := h
  unfold parseSize
  rw [if_neg (by omega)]
  dsimp only
  rw [if_neg (by simp [hletters])]
  unfold scaleOf at hscale
  cases hlast : (criteria.drop 5).getLast? with
  | none =>
    rw [hlast] at hscale
    cases hscale
  | some last =>
    rw [hlast] at hscale
    dsimp only at hscale ⊢
    by_cases halpha : isalpha last = true
    · rw [if_pos halpha] at hscale ⊢
      rw [hscale]
      dsimp only
      rw [← leadingNumber_dropLast hlast halpha]
      -- the first byte is a digit, so that it stays
      have hcons : ∃ rest', (criteria.drop 5).dropLast = c :: rest' := by
        rw [hvalue] at hlast ⊢
        cases rest with
        | nil =>
          cases hlast
          exact absurd halpha (by simp [isalpha_of_isdigit hc])
        | cons d rest => exact ⟨_, rfl⟩
      obtain ⟨rest', hcons⟩ := hcons
      rw [hcons, ← strtoull_digits hc]
      simp [convertSize, hc]
    · rw [if_neg halpha] at hscale ⊢
      cases hscale
      rw [hvalue, ← strtoull_digits hc]
      simp [convertSize, hc]

/-- Every other value is rejected. -/
theorem parseSize_rejected {criteria : Text} (hlen : 5 ≤ criteria.length)
    (hne : criteria.drop 5 ≠ []) (h : ∀ scale, ¬ SizeTaken (criteria.drop 5) scale)
    (ic : Criteria) : parseSize criteria ic = some (-ltfsPolicyInvalid, ic) := by
  unfold parseSize
  rw [if_neg (by omega)]
  dsimp only
  by_cases hletters : adjacentLetters (criteria.drop 5) = true
  · rw [if_pos hletters]
  · rw [if_neg hletters]
    cases hlast : (criteria.drop 5).getLast? with
    | none => exact absurd (List.getLast?_eq_none_iff.mp hlast) hne
    | some last =>
      have hrejected : ∀ scale, scaleOf (criteria.drop 5) = some scale → ∀ c rest,
          criteria.drop 5 = c :: rest → isdigit c = false := by
        intro scale hscale c rest hvalue
        by_contra hdigit
        exact h scale ⟨⟨c, rest, hvalue, by simpa using hdigit⟩, by simpa using hletters, hscale⟩
      unfold scaleOf at hrejected
      rw [hlast] at hrejected
      dsimp only at hrejected ⊢
      have hconvert : ∀ scale rule, (∀ c rest, rule = c :: rest → isdigit c = false) →
          convertSize scale rule ic = (-ltfsPolicyInvalid, ic) := by
        intro scale rule hrule
        cases rule with
        | nil => rfl
        | cons c rest => simp [convertSize, hrule c rest rfl]
      by_cases halpha : isalpha last = true
      · rw [if_pos halpha] at hrejected ⊢
        cases hscale : multiplierOf last with
        | none => rfl
        | some scale =>
          dsimp only
          rw [hconvert]
          intro c rest hdropLast
          have hvalue := List.dropLast_append_getLast? last hlast
          rw [hdropLast] at hvalue
          exact hrejected scale hscale c _ hvalue.symm
      · rw [if_neg halpha] at hrejected ⊢
        rw [hconvert]
        exact hrejected 1 rfl

theorem adjacentLetters_digits {digits rest : Text} (hdigits : ∀ b ∈ digits, isdigit b = true)
    (hrest : rest.length ≤ 1) : adjacentLetters (digits ++ rest) = false := by
  induction digits with
  | nil =>
    cases rest with
    | nil => rfl
    | cons c rest =>
      rw [List.length_cons] at hrest
      rw [List.eq_nil_of_length_eq_zero (by omega : rest.length = 0)]
      rfl
  | cons d digits ih =>
    have ih := ih fun b hb => hdigits b (List.mem_cons_of_mem d hb)
    rw [List.cons_append]
    cases htail : digits ++ rest with
    | nil => rfl
    | cons b tail =>
      rw [htail] at ih
      rw [adjacentLetters, isalpha_of_isdigit (hdigits d List.mem_cons_self), ih]
      rfl

/-- A size that is well formed is read for what it is. -/
theorem sizeOf_taken {value : Text} {n : ℕ} (h : sizeOf value = some n) :
    ∃ scale, SizeTaken value scale ∧ toUllong (leadingNumber value) * scale % 2 ^ 64 = n := by
  have hsplit : value.takeWhile isdigit ++ value.dropWhile isdigit = value :=
    List.takeWhile_append_dropWhile
  have hdigits : ∀ b ∈ value.takeWhile isdigit, isdigit b = true := fun b hb =>
    List.mem_takeWhile_imp hb
  -- what is behind the digits, and its factor
  have hscale : ∃ scale, (value.dropWhile isdigit).length ≤ 1 ∧ 0 < scale ∧
      (value.takeWhile isdigit ≠ [] → scaleOf value = some scale) ∧
      value.takeWhile isdigit ≠ [] ∧ leadingNumber value * scale < 2 ^ 64 ∧
      n = leadingNumber value * scale := by
    unfold sizeOf at h
    dsimp only at h
    split at h
    · cases h
    · rename_i scale hsome
      split at h
      · rename_i hfits
        cases h
        split at hsome
        · rename_i hnil
          cases hsome
          refine ⟨1, by simp [hnil], one_pos, ?_, hfits.1, hfits.2, rfl⟩
          intro hne
          rw [hnil, List.append_nil] at hsplit
          rw [hsplit] at hdigits hne
          unfold scaleOf
          rw [List.getLast?_eq_getLast_of_ne_nil hne]
          dsimp only
          rw [if_neg]
          simp [isalpha_of_isdigit (hdigits _ (List.getLast_mem hne))]
        · rename_i c hc
          refine ⟨scale, by simp [hc], ?_, ?_, hfits.1, hfits.2, rfl⟩
          · unfold multiplierOf at hsome
            split at hsome
            · cases hsome
              decide
            · split at hsome
              · cases hsome
                decide
              · split at hsome
                · cases hsome
                  decide
                · cases hsome
          · intro _
            unfold scaleOf
            rw [← hsplit, hc, List.getLast?_append]
            simp [isalpha_of_multiplierOf hsome, hsome]
        · cases hsome
      · cases h
  obtain ⟨scale, hlen, hpos, hscaleOf, hne, hfits, rfl⟩ := hscale
  obtain ⟨c, rest, hcons⟩ := List.exists_cons_of_ne_nil hne
  refine ⟨scale, ⟨⟨c, rest ++ value.dropWhile isdigit, ?_, ?_⟩, ?_, hscaleOf hne⟩, ?_⟩
  · rw [← List.cons_append, ← hcons]
    exact hsplit.symm
  · exact hdigits c (by rw [hcons]; exact List.mem_cons_self)
  · have hletters := adjacentLetters_digits hdigits hlen
    rwa [hsplit] at hletters
  · have hsmall : leadingNumber value < 2 ^ 64 :=
      lt_of_le_of_lt (Nat.le_mul_of_pos_right _ hpos) hfits
    rw [toUllong_natCast hsmall, Nat.mod_eq_of_lt hfits]

/-! ## The names -/

/-- What the names should be: between colons, none of them empty, all of them valid. -/
def namesOf (value : Text) : Option (List Text) :=
  if ∀ name ∈ value.splitOn colon, name ≠ [] ∧ pathnameValidateFile name = 0 then
    some (value.splitOn colon)
  else none

theorem splitOn_cons_colon (rest : Text) :
    (colon :: rest).splitOn colon = [] :: rest.splitOn colon := by
  rw [List.splitOn_cons_eq_if_modifyHead, if_pos (by simp)]

theorem splitOn_cons_of_ne {c : UInt8} (hc : c ≠ colon) (rest : Text) :
    ∃ name names, rest.splitOn colon = name :: names ∧
      (c :: rest).splitOn colon = (c :: name) :: names := by
  obtain ⟨name, names, hsplit⟩ := List.exists_cons_of_ne_nil (List.splitOn_ne_nil colon rest)
  refine ⟨name, names, hsplit, ?_⟩
  rw [List.splitOn_cons_eq_if_modifyHead, if_neg (by simpa using hc), hsplit]
  rfl

/-- The check for empty names, from the byte behind `prev` on. -/
theorem namesNonempty_iff (rest : Text) : ∀ prev : UInt8, namesNonempty prev rest = true ↔
    (prev = colon → rest = [] ∨ ∀ name ∈ (rest.splitOn colon).head?, name ≠ []) ∧
    ∀ name ∈ (rest.splitOn colon).tail, name ≠ [] := by
  induction rest with
  | nil =>
    intro prev
    simp [namesNonempty]
  | cons c rest ih =>
    intro prev
    by_cases hc : c = colon
    · subst hc
      rw [namesNonempty, if_pos (by simp), Bool.and_eq_true, ih, splitOn_cons_colon]
      obtain ⟨name, names, hsplit⟩ := List.exists_cons_of_ne_nil (List.splitOn_ne_nil colon rest)
      rw [hsplit]
      cases rest with
      | nil =>
        rw [List.splitOn_nil] at hsplit
        cases hsplit
        simp
      | cons d rest =>
        simp only [List.isEmpty_cons, Bool.or_false, Bool.not_eq_true', beq_eq_false_iff_ne,
          List.head?_cons, Option.mem_def, Option.some.injEq, forall_eq', List.tail_cons,
          List.mem_cons, forall_eq_or_imp, reduceCtorEq, false_or, forall_const]
        simp only [not_true_eq_false, imp_false, ne_eq]
    · obtain ⟨name, names, hsplit, hcons⟩ := splitOn_cons_of_ne hc rest
      rw [namesNonempty, if_neg (by simpa using hc), ih, hcons, hsplit]
      simp [hc]

/-- The names that are counted are stored. -/
theorem assignRules_eq (rest : Text) : ∀ (prev : UInt8) (rule : Text), rest ≠ [] → slash ∉ rest →
    namesNonempty prev rest = true → ∀ name names, rest.splitOn colon = name :: names →
    assignRules rule false rest = ltfsName (rule ++ name) :: names.map ltfsName := by
  induction rest with
  | nil =>
    intro prev rule hne
    exact absurd rfl hne
  | cons c rest ih =>
    intro prev rule _ hslash hnames name names hsplit
    rw [List.mem_cons, not_or] at hslash
    have hnoslash : (c == slash) = false := beq_eq_false_iff_ne.mpr (Ne.symm hslash.1)
    by_cases hc : c = colon
    · -- a name ends here, and there is another one
      subst hc
      rw [namesNonempty, if_pos (by simp), Bool.and_eq_true] at hnames
      have hrest : rest ≠ [] := by
        rintro rfl
        simp at hnames
      rw [splitOn_cons_colon] at hsplit
      cases hsplit
      obtain ⟨name, names, hsplit⟩ := List.exists_cons_of_ne_nil (List.splitOn_ne_nil colon rest)
      rw [assignRules, if_pos (by simp), ih colon [] hrest hslash.2 hnames.2 name names hsplit,
        hsplit, List.append_nil, List.nil_append, List.map_cons]
    · obtain ⟨name', names', hsplit', hcons⟩ := splitOn_cons_of_ne hc rest
      rw [hcons] at hsplit
      cases hsplit
      rw [namesNonempty, if_neg (by simpa using hc)] at hnames
      rw [assignRules, if_neg (by simpa using hc), hnoslash, if_neg Bool.false_ne_true]
      dsimp only
      rw [if_neg Bool.false_ne_true]
      cases rest with
      | nil =>
        rw [List.splitOn_nil] at hsplit'
        cases hsplit'
        rfl
      | cons d rest =>
        rw [if_neg (by simp), ih c (rule ++ [c]) (List.cons_ne_nil d rest) hslash.2 hnames name'
          names hsplit', List.append_assoc, List.singleton_append]

theorem pathnameValidate_le (allowSlash : Bool) (name : Text) :
    pathnameValidate allowSlash name ≤ 0 := by
  fun_induction pathnameValidate allowSlash name with
  | case1 => exact le_rfl
  | case2 => decide
  | case3 => decide
  | case4 _ _ _ _ _ _ ih => exact ih

theorem pathnameValidateFile_le (name : Text) : pathnameValidateFile name ≤ 0 := by
  unfold pathnameValidateFile
  split
  · decide
  · exact pathnameValidate_le false name

theorem validateRules_spec (names : List Text) : validateRules (names.map ltfsName) ≤ 0 ∧
    (validateRules (names.map ltfsName) = 0 ↔ ∀ name ∈ names, pathnameValidateFile name = 0) := by
  induction names with
  | nil => simp [validateRules]
  | cons name names ih =>
    rw [List.map_cons, validateRules, List.forall_mem_cons]
    by_cases hzero : pathnameValidateFile (ltfsName name).name = 0
    · rw [if_pos hzero]
      refine ⟨ih.1, ?_⟩
      rw [ih.2]
      exact (and_iff_right hzero).symm
    · rw [if_neg hzero]
      exact ⟨pathnameValidateFile_le name, iff_of_false hzero fun h => hzero h.1⟩

theorem parseName_empty {criteria : Text} (hempty : criteria.drop 5 = []) (ic : Criteria) :
    parseName criteria ic = none := by
  unfold parseName
  rw [hempty]

/-- A value that is not empty is read for the names it holds, or rejected. -/
theorem parseName_spec {criteria : Text} (hslash : slash ∉ criteria)
    (hne : criteria.drop 5 ≠ []) (ic : Criteria) :
    match namesOf (criteria.drop 5) with
    | some names =>
      parseName criteria ic = some (0, { ic with globPatterns := names.map ltfsName })
    | none => ∃ ret ic', ret < 0 ∧ parseName criteria ic = some (ret, ic') := by
  obtain ⟨c, rest, hvalue⟩ := List.exists_cons_of_ne_nil hne
  have hslash' : slash ∉ c :: rest := by
    rw [← hvalue]
    exact fun hmem => hslash (List.mem_of_mem_drop hmem)
  obtain ⟨name, names, hsplit⟩ :=
    List.exists_cons_of_ne_nil (List.splitOn_ne_nil colon (c :: rest))
  have hnonempty := namesNonempty_iff rest c
  have hempty : (∀ w ∈ (c :: rest).splitOn colon, w ≠ []) ↔
      c ≠ colon ∧ namesNonempty c rest = true := by
    by_cases hc : c = colon
    · subst hc
      rw [splitOn_cons_colon]
      simp
    · obtain ⟨name', names', hsplit', hcons⟩ := splitOn_cons_of_ne hc rest
      rw [hnonempty, hcons, hsplit']
      simp [hc]
  unfold namesOf parseName
  rw [hvalue]
  dsimp only
  by_cases hc : c = colon
  · rw [if_neg, if_pos (by simpa using hc)]
    · exact ⟨_, _, by decide, rfl⟩
    · intro hall
      exact (hempty.mp fun w hw => (hall w hw).1).1 hc
  · rw [if_neg (by simpa using hc : ¬ (c == colon) = true)]
    by_cases hnames : namesNonempty c rest = true
    · -- all names are stored
      have hassign := assignRules_eq (c :: rest) c [] (List.cons_ne_nil c rest) hslash' (by
        rw [namesNonempty, if_neg (by simpa using hc)]
        exact hnames) name names hsplit
      rw [List.nil_append] at hassign
      have hpatterns : assignRules [] false (c :: rest)
          = ((c :: rest).splitOn colon).map ltfsName := by
        rw [hassign, hsplit, List.map_cons]
      obtain ⟨hle, hzero⟩ := validateRules_spec ((c :: rest).splitOn colon)
      have hall := hempty.mpr ⟨hc, hnames⟩
      have hstored : ¬ (assignRules [] false (c :: rest)).isEmpty = true := by
        rw [hassign]
        simp
      rw [if_neg (by simp [hnames] : ¬ (! namesNonempty c rest) = true), if_neg hstored, hpatterns]
      by_cases hvalid : ∀ w ∈ (c :: rest).splitOn colon, pathnameValidateFile w = 0
      · rw [if_pos fun w hw => ⟨hall w hw, hvalid w hw⟩, hzero.mpr hvalid]
      · rw [if_neg fun h => hvalid fun w hw => (h w hw).2]
        exact ⟨_, _, lt_of_le_of_ne hle fun h => hvalid (hzero.mp h), rfl⟩
    · rw [if_neg fun h => hnames (hempty.mp fun w hw => (h w hw).1).2, if_pos (by simp [hnames])]
      exact ⟨_, _, by decide, rfl⟩

/-! ## The rule -/

/-- The values of an option, in order. -/
def values (o : RuleOption) (rule : Text) : List Text := (entries o rule).map (List.drop 5)

/-- The size and the names of a rule that is as it should be. -/
def wellFormed (rule : Text) : Option (ℕ × List Text) :=
  if ∀ c ∈ rule.splitOn slash, beginsOption c = true then
    match values .name rule, values .size rule with
    | [], [size] => (sizeOf size).map fun n => (n, [])
    | [names], [size] => (namesOf names).bind fun names => (sizeOf size).map fun n => (n, names)
    | _, _ => none
  else none

/-- What should come of a rule: it is accepted for what it says, or rejected. -/
def Reads (rule : Text) (out : Option (ℤ × Criteria)) : Prop :=
  match wellFormed rule with
  | some (size, names) => out = some (0, ⟨true, size, names.map ltfsName⟩)
  | none => ∃ ret ic, ret < 0 ∧ out = some (ret, ic)

/-- There are no names, or they are taken from the first of an odd number of lists. -/
def NamesTaken (names : List Text) : Prop :=
  names = [] ∨ Odd names.length ∧ ∃ value ∈ names.head?, (namesOf value).isSome = true

/-- The size is taken from the first of an odd number of values, and it is empty, or it passes the
checks where the rule is not well formed. -/
def SizeMisread (names sizes : List Text) : Prop :=
  Odd sizes.length ∧ ∃ value ∈ sizes.head?, value = [] ∨
    (∃ scale, SizeTaken value scale) ∧
      (1 < names.length ∨ 1 < sizes.length ∨ sizeOf value = none)

/-- The rules of which something else is made. -/
structure Misread (rule : Text) : Prop where
  options : ∀ c ∈ rule.splitOn slash, beginsOption c = true
  misread : (Odd (values .name rule).length ∧ (values .name rule).head? = some []) ∨
    NamesTaken (values .name rule) ∧ SizeMisread (values .name rule) (values .size rule)

theorem entries_spec {o : RuleOption} {rule e : Text} (h : e ∈ entries o rule) :
    5 ≤ e.length ∧ slash ∉ e := by
  unfold entries at h
  rw [List.mem_filter] at h
  exact ⟨RuleOption.length_of_begins h.2, not_mem_of_mem_splitOn h.1⟩

/-- What comes of looking for an option. -/
theorem findOption_cases (o : RuleOption) (rule : Text) :
    (values o rule = [] ∧ findOption o rule = .absent) ∨
    (values o rule ≠ [] ∧ ¬ Odd (values o rule).length ∧ findOption o rule = .repeated) ∨
    ∃ e, findOption o rule = .found e ∧ 5 ≤ e.length ∧ slash ∉ e ∧
      Odd (values o rule).length ∧ (values o rule).head? = some (e.drop 5) := by
  rw [findOption_eq]
  unfold values
  rw [List.length_map]
  cases hentries : entries o rule with
  | nil => exact .inl ⟨rfl, rfl⟩
  | cons e es =>
    right
    have hodd := picked_isFound (e :: es)
    rw [picked] at hodd ⊢
    by_cases hfound : (picked es).isFound = true
    · rw [if_pos hfound] at hodd ⊢
      exact .inl ⟨by simp, fun h => Bool.false_ne_true (hodd.mpr h), rfl⟩
    · rw [if_neg hfound] at hodd ⊢
      obtain ⟨hlen, hslash⟩ := entries_spec (hentries ▸ List.mem_cons_self : e ∈ entries o rule)
      exact .inr ⟨e, rfl, hlen, hslash, hodd.mp rfl, rfl⟩

/-- A rule that holds no option is no rule. -/
theorem values_ne_nil {rule : Text} (h : ∀ c ∈ rule.splitOn slash, beginsOption c = true) :
    values .name rule ≠ [] ∨ values .size rule ≠ [] := by
  obtain ⟨c, cs, hsplit⟩ := List.exists_cons_of_ne_nil (List.splitOn_ne_nil slash rule)
  have hc : c ∈ rule.splitOn slash := by
    rw [hsplit]
    exact List.mem_cons_self
  have hne : ∀ o : RuleOption, o.begins c = true → values o rule ≠ [] := by
    intro o ho hnil
    have hmem : c ∈ entries o rule := List.mem_filter.mpr ⟨hc, ho⟩
    rw [List.map_eq_nil_iff.mp hnil] at hmem
    exact List.not_mem_nil hmem
  rcases beginsOption_iff.mp (h c hc) with ho | ho
  · exact .inl (hne _ ho)
  · exact .inr (hne _ ho)

theorem wellFormed_eq_none {rule : Text}
    (h : 1 < (values .name rule).length ∨ (values .size rule).length ≠ 1 ∨
      ∃ value ∈ (values .size rule).head?, sizeOf value = none) : wellFormed rule = none := by
  unfold wellFormed
  split
  · split
    · rename_i value hnames hsizes
      rw [hnames, hsizes] at h
      obtain h | h | ⟨value', hvalue, hnone⟩ := h
      · simp at h
      · simp at h
      · cases hvalue
        rw [hnone]
        rfl
    · rename_i value value' hnames hsizes
      rw [hnames, hsizes] at h
      obtain h | h | ⟨value', hvalue, hnone⟩ := h
      · simp at h
      · simp at h
      · cases hvalue
        rw [hnone]
        cases namesOf value with
        | none => rfl
        | some names => rfl
    · rfl
  · rfl

/-- How the names were taken. -/
def NamesAre (rule : Text) (hasName : Bool) (names : List Text) : Prop :=
  (values .name rule = [] ∧ names = [] ∧ hasName = false) ∨
  (hasName = true ∧ ∃ value ∈ (values .name rule).head?, namesOf value = some names)

/-- From the size on. -/
theorem processSize_iff {rule : Text} {ic : Criteria} {hasName : Bool} {names : List Text}
    (hoptions : ∀ c ∈ rule.splitOn slash, beginsOption c = true) (hic : ic.haveCriteria = true)
    (hpatterns : ic.globPatterns = names.map ltfsName) (hnames : NamesAre rule hasName names) :
    Reads rule (processSize hasName rule ic) ↔
      ¬ SizeMisread (values .name rule) (values .size rule) := by
  unfold processSize
  dsimp only
  rcases findOption_cases .size rule with ⟨hnil, hfind⟩ | ⟨hne, heven, hfind⟩ |
    ⟨e, hfind, hlen, hslash, hodd, hhead⟩
  · -- there are names, and no size
    have hhas : hasName = true := by
      rcases hnames with ⟨hnil', -, -⟩ | ⟨hhas, -⟩
      · exact absurd hnil ((values_ne_nil hoptions).resolve_left (not_not_intro hnil'))
      · exact hhas
    rw [hfind, hnil, hhas]
    unfold Reads
    rw [wellFormed_eq_none (.inr (.inl (by simp [hnil])))]
    refine iff_of_true ⟨_, _, by decide, rfl⟩ ?_
    rintro ⟨hodd, -⟩
    simp at hodd
  · rw [hfind]
    unfold Reads
    rw [wellFormed_eq_none (.inr (.inl fun hone => heven (by rw [hone]; exact odd_one)))]
    exact iff_of_true ⟨_, _, by decide, rfl⟩ fun h => heven h.1
  · rw [hfind]
    dsimp only
    generalize hvalue : e.drop 5 = value at hhead
    by_cases hempty : value = []
    · -- the byte before the buffer is read
      rw [parseSize_empty hlen (hvalue.trans hempty)]
      refine iff_of_false ?_ (not_not_intro ⟨hodd, value, hhead, .inl hempty⟩)
      unfold Reads
      cases wellFormed rule with
      | none =>
        rintro ⟨ret, ic', -, h⟩
        cases h
      | some read =>
        intro h
        cases h
    · by_cases htaken : ∃ scale, SizeTaken value scale
      · obtain ⟨scale, htaken⟩ := htaken
        rw [parseSize_taken hlen (hvalue ▸ htaken)]
        by_cases hodd' : 1 < (values .name rule).length ∨ 1 < (values .size rule).length ∨
            sizeOf value = none
        · -- accepted, but not well formed
          refine iff_of_false ?_ (not_not_intro ⟨hodd, value, hhead, .inr ⟨⟨scale, htaken⟩, hodd'⟩⟩)
          unfold Reads
          rw [wellFormed_eq_none]
          · rintro ⟨ret, ic', hneg, h⟩
            cases h
            exact lt_irrefl 0 hneg
          · rcases hodd' with h | h | h
            · exact .inl h
            · exact .inr (.inl (by omega))
            · exact .inr (.inr ⟨value, hhead, h⟩)
        · refine iff_of_true ?_ ?_
          · rw [not_or, not_or, not_lt, not_lt] at hodd'
            obtain ⟨hnamesLe, hsizesLe, hsize⟩ := hodd'
            obtain ⟨n, hn⟩ := Option.ne_none_iff_exists'.mp hsize
            obtain ⟨scale', htaken', hnum⟩ := sizeOf_taken hn
            have hscale := htaken.scale.symm.trans htaken'.scale
            cases hscale
            have hsizes : values .size rule = [value] := by
              cases hlist : values .size rule with
              | nil =>
                rw [hlist] at hhead
                cases hhead
              | cons v vs =>
                rw [hlist] at hhead hsizesLe
                cases hhead
                rw [List.length_cons] at hsizesLe
                rw [List.eq_nil_of_length_eq_zero (by omega : vs.length = 0)]
            have hformed : wellFormed rule = some (n, names) := by
              unfold wellFormed
              rw [if_pos hoptions, hsizes]
              rcases hnames with ⟨hnil, rfl, -⟩ | ⟨-, value', hvalue', hnamesOf⟩
              · rw [hnil]
                dsimp only
                rw [hn]
                rfl
              · cases hlist : values .name rule with
                | nil =>
                  rw [hlist] at hvalue'
                  cases hvalue'
                | cons v vs =>
                  rw [hlist] at hvalue' hnamesLe
                  cases hvalue'
                  rw [List.length_cons] at hnamesLe
                  rw [List.eq_nil_of_length_eq_zero (by omega : vs.length = 0)]
                  dsimp only
                  rw [hnamesOf, hn]
                  rfl
            unfold Reads
            rw [hformed]
            dsimp only
            rw [hvalue, hnum, hic, hpatterns]
          · rintro ⟨-, value', hhead', h⟩
            rw [hhead] at hhead'
            cases hhead'
            rcases h with h | ⟨-, h⟩
            · exact hempty h
            · exact hodd' h
      · -- rejected, and not well formed
        have hrejected := fun scale htaken' => htaken ⟨scale, htaken'⟩
        rw [parseSize_rejected hlen (hvalue ▸ hempty) (hvalue ▸ hrejected)]
        refine iff_of_true ?_ ?_
        · unfold Reads
          rw [wellFormed_eq_none]
          · exact ⟨_, _, by decide, rfl⟩
          · refine .inr (.inr ⟨value, hhead, ?_⟩)
            by_contra hsome
            obtain ⟨n, hn⟩ := Option.ne_none_iff_exists'.mp hsome
            obtain ⟨scale, htaken', -⟩ := sizeOf_taken hn
            exact hrejected scale htaken'
        · rintro ⟨-, value', hhead', h⟩
          rw [hhead] at hhead'
          cases hhead'
          rcases h with h | ⟨h, -⟩
          · exact hempty h
          · exact htaken h

/-- A rule is read rightly in exactly the cases described. -/
theorem parse_rule_iff (rule : Text) {ic : Criteria}
    (hic : ic.haveCriteria = false → ic.globPatterns = []) :
    Reads rule (indexCriteriaParse (some rule) ic) ↔ ¬ Misread rule := by
  have hfreed : (if ic.haveCriteria then [] else ic.globPatterns) = [] := by
    cases hhave : ic.haveCriteria with
    | false => exact hic hhave
    | true => rfl
  unfold indexCriteriaParse
  dsimp only
  rw [hfreed]
  by_cases hinvalid : containsInvalidOptions rule = true
  · have hoptions : ¬ ∀ c ∈ rule.splitOn slash, beginsOption c = true := by
      rw [← containsInvalidOptions_eq_false, hinvalid]
      exact Bool.noConfusion
    rw [if_pos hinvalid]
    refine iff_of_true ?_ fun h => hoptions h.options
    unfold Reads wellFormed
    rw [if_neg hoptions]
    exact ⟨_, _, by decide, rfl⟩
  · have hoptions := (containsInvalidOptions_eq_false rule).mp (by simpa using hinvalid)
    rw [if_neg hinvalid]
    rcases findOption_cases .name rule with ⟨hnil, hfind⟩ | ⟨hne, heven, hfind⟩ |
      ⟨e, hfind, hlen, hslash, hodd, hhead⟩
    · -- no names
      rw [hfind]
      dsimp only
      rw [processSize_iff hoptions rfl (List.map_nil).symm (.inl ⟨hnil, rfl, rfl⟩)]
      constructor
      · rintro hsize ⟨-, ⟨hodd, -⟩ | ⟨-, h⟩⟩
        · rw [hnil] at hodd
          simp at hodd
        · exact hsize h
      · exact fun hread hsize => hread ⟨hoptions, .inr ⟨.inl hnil, hsize⟩⟩
    · rw [hfind]
      refine iff_of_true ?_ ?_
      · unfold Reads
        rw [wellFormed_eq_none]
        · exact ⟨_, _, by decide, rfl⟩
        · left
          have hlen := List.length_pos_iff.mpr hne
          by_contra hle
          exact heven (by rw [(by omega : (values .name rule).length = 1)]; exact odd_one)
      · rintro ⟨-, ⟨hodd, -⟩ | ⟨hnil | ⟨hodd, -⟩, -⟩⟩
        · exact heven hodd
        · exact hne hnil
        · exact heven hodd
    · rw [hfind]
      dsimp only
      generalize hvalue : e.drop 5 = value at hhead
      by_cases hempty : value = []
      · -- bytes behind the text are read
        rw [parseName_empty (hvalue.trans hempty)]
        refine iff_of_false ?_ (not_not_intro ⟨hoptions, .inl ⟨hodd, hempty ▸ hhead⟩⟩)
        unfold Reads
        cases wellFormed rule with
        | none =>
          rintro ⟨ret, ic', -, h⟩
          cases h
        | some read =>
          intro h
          cases h
      · have hparse := parseName_spec hslash (hvalue ▸ hempty)
          (⟨true, if ic.haveCriteria then 0 else ic.maxFilesizeCriteria, []⟩ : Criteria)
        rw [hvalue] at hparse
        have hfirst : (values .name rule).head? ≠ some [] := by
          rw [hhead]
          exact fun h => hempty (Option.some.inj h)
        cases hnames : namesOf value with
        | some names =>
          rw [hnames] at hparse
          rw [hparse]
          dsimp only
          rw [if_neg (lt_irrefl 0),
            processSize_iff hoptions rfl rfl (.inr ⟨rfl, value, hhead, hnames⟩)]
          constructor
          · rintro hsize ⟨-, ⟨-, h⟩ | ⟨-, h⟩⟩
            · exact hfirst h
            · exact hsize h
          · intro hread hsize
            exact hread ⟨hoptions, .inr ⟨.inr ⟨hodd, value, hhead, by rw [hnames]; rfl⟩, hsize⟩⟩
        | none =>
          rw [hnames] at hparse
          obtain ⟨ret, ic', hneg, hparse⟩ := hparse
          rw [hparse]
          dsimp only
          rw [if_pos hneg]
          refine iff_of_true ?_ ?_
          · unfold Reads
            have hformed : wellFormed rule = none := by
              unfold wellFormed
              rw [if_pos hoptions]
              split
              · rename_i hnil _
                rw [hnil] at hhead
                cases hhead
              · rename_i hlist _
                rw [hlist] at hhead
                cases hhead
                rw [hnames]
                rfl
              · rfl
            rw [hformed]
            exact ⟨_, _, hneg, rfl⟩
          · rintro ⟨-, ⟨-, h⟩ | ⟨hnil | ⟨-, value', hhead', hsome⟩, -⟩⟩
            · exact hfirst h
            · rw [hnil] at hhead
              cases hhead
            · rw [hhead] at hhead'
              cases hhead'
              rw [hnames] at hsome
              cases hsome


/-- `size=1M/name=*.txt` -/
def sizeAndName : Text :=
  [0x73, 0x69, 0x7A, 0x65, 0x3D, 0x31, 0x4D, slash, 0x6E, 0x61, 0x6D, 0x65, 0x3D, 0x2A, 0x2E, 0x74,
    0x78, 0x74]

theorem sizeAndName_read :
    Reads sizeAndName (indexCriteriaParse (some sizeAndName) ⟨false, 0, []⟩) ↔
      ¬ Misread sizeAndName :=
  parse_rule_iff sizeAndName fun _ => rfl

/-- `size=1x2` is no size, and is accepted for 1. -/
theorem junk_accepted : ¬ Reads [0x73, 0x69, 0x7A, 0x65, 0x3D, 0x31, 0x78, 0x32]
    (indexCriteriaParse (some [0x73, 0x69, 0x7A, 0x65, 0x3D, 0x31, 0x78, 0x32]) ⟨false, 0, []⟩) := by
  have hparse : indexCriteriaParse (some [0x73, 0x69, 0x7A, 0x65, 0x3D, 0x31, 0x78, 0x32])
      ⟨false, 0, []⟩ = some (0, ⟨true, 1, []⟩) := by
    decide +kernel
  have hformed : wellFormed [0x73, 0x69, 0x7A, 0x65, 0x3D, 0x31, 0x78, 0x32] = none := by
    decide +kernel
  unfold Reads
  rw [hparse, hformed]
  rintro ⟨ret, ic, hneg, h⟩
  cases h
  exact lt_irrefl 0 hneg


end Ltfs.CriteriaRule

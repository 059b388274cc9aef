import Ltfs.NameCodec
import Ltfs.Strtoull

/-!
# Data placement rules

`index_criteria_parse` takes a rule such as `size=1M/name=*.txt:*.xml` apart and keeps it in the
index. A rule is the list of its bytes; every option is copied to a buffer of its own.

* `findOption` — the option between two slashes that begins with a name.
* `parseName`, `parseSize` — what is made of an option. The result is `none` where bytes outside
  of the copied text are read.
* `indexCriteriaParse` — the whole rule.

Allocation failures and the cache of the patterns are left out.
-/

namespace Ltfs.CriteriaRule

open NameCodec

abbrev Text : Type := List UInt8

def slash : UInt8 := 0x2F

def colon : UInt8 := 0x3A

/-! ## Characters -/

def char (b : UInt8) : Char := Char.ofNat b.toNat

def isalpha (b : UInt8) : Bool := (char b).isAlpha

def isdigit (b : UInt8) : Bool := (char b).isDigit

def tolower (b : UInt8) : UInt8 := if 0x41 ≤ b && b ≤ 0x5A then b + 0x20 else b

/-! ## Options -/

inductive RuleOption where
  | name
  | size
deriving DecidableEq, Repr

/-- `name=` or `size=`. -/
def RuleOption.text : RuleOption → Text
  | .name => [0x6E, 0x61, 0x6D, 0x65, 0x3D]
  | .size => [0x73, 0x69, 0x7A, 0x65, 0x3D]

/-- `! strncasecmp(option, str, strlen(option))`. -/
def RuleOption.begins (o : RuleOption) (str : Text) : Bool := (str.take 5).map tolower == o.text

/-- One of the options begins here. -/
def beginsOption (str : Text) : Bool := [RuleOption.name, .size].any fun o => o.begins str

/-- "Check which options come after each separator". -/
def invalidAfterSlash : Text → Bool
  | [] => false
  | c :: rest => (c == slash && ! beginsOption rest) || invalidAfterSlash rest

/-- `index_criteria_contains_invalid_options`. -/
def containsInvalidOptions (str : Text) : Bool :=
  if str.length < 5 then true
  else if ! beginsOption str then true
  else invalidAfterSlash (str.drop 1)

/-- "Need to walk the string to find the first valid match": the first one behind a slash; `prev` is
the byte before `str`. -/
def searchOption (o : RuleOption) : UInt8 → Text → Option Text
  | _, [] => none
  | prev, c :: rest =>
    if o.begins (c :: rest) && prev == slash then some (c :: rest) else searchOption o c rest

def startOfOption (o : RuleOption) : Text → Option Text
  | [] => none
  | c :: rest => if o.begins (c :: rest) then some (c :: rest) else searchOption o c rest

/-- What `index_criteria_find_option` returns, with its flag for an error. -/
inductive Found where
  | absent
  | repeated
  | found (text : Text)
deriving DecidableEq, Repr

/-- Whether an option is found. -/
def Found.isFound : Found → Bool
  | .found _ => true
  | _ => false

theorem searchOption_suffix {o : RuleOption} {start : Text} : ∀ {prev : UInt8} {str : Text},
    searchOption o prev str = some start → start <:+ str ∧ o.begins start = true := by
  intro prev str
  induction str generalizing prev with
  | nil =>
    intro h
    cases h
  | cons c rest ih =>
    intro h
    unfold searchOption at h
    split at h
    · rename_i hbegin
      cases h
      simp only [Bool.and_eq_true] at hbegin
      exact ⟨List.suffix_rfl, hbegin.1⟩
    · obtain ⟨hsuffix, hbegin⟩ := ih h
      exact ⟨hsuffix.trans (List.suffix_cons c rest), hbegin⟩

theorem startOfOption_suffix {o : RuleOption} {start str : Text}
    (h : startOfOption o str = some start) : start <:+ str ∧ o.begins start = true := by
  cases str with
  | nil => cases h
  | cons c rest =>
    simp only [startOfOption] at h
    split at h
    · rename_i hbegin
      cases h
      exact ⟨List.suffix_rfl, hbegin⟩
    · obtain ⟨hsuffix, hbegin⟩ := searchOption_suffix h
      exact ⟨hsuffix.trans (List.suffix_cons c rest), hbegin⟩

/-- No option begins with a slash. -/
theorem RuleOption.begins_cons {o : RuleOption} {str : Text} (h : o.begins str = true) :
    ∃ c rest, str = c :: rest ∧ c ≠ slash := by
  cases str with
  | nil => cases o <;> cases h
  | cons c rest =>
    refine ⟨c, rest, rfl, ?_⟩
    rintro rfl
    cases o <;> simp [begins, text, slash, tolower] at h

theorem dropWhile_start_lt {o : RuleOption} {start str : Text}
    (h : startOfOption o str = some start) :
    (start.dropWhile (· != slash)).length < str.length := by
  obtain ⟨hsuffix, hbegin⟩ := startOfOption_suffix h
  obtain ⟨c, rest, rfl, hc⟩ := RuleOption.begins_cons hbegin
  have hdrop : ((c :: rest).dropWhile (· != slash)).length ≤ rest.length := by
    rw [List.dropWhile_cons_of_pos (by simpa using hc)]
    exact (List.dropWhile_suffix _).length_le
  have hle := hsuffix.length_le
  rw [List.length_cons] at hle
  omega

/-- `index_criteria_find_option`. The flag of the search behind the option is not looked at. -/
def findOption (o : RuleOption) (str : Text) : Found :=
  if str.length < 5 then .absent
  else
    match _h : startOfOption o str with
    | none => .absent
    | some start =>
      if (findOption o (start.dropWhile (· != slash))).isFound then .repeated
      else .found (start.takeWhile (· != slash))
termination_by str.length
decreasing_by exact dropWhile_start_lt _h

/-! ## Criteria -/

/-- `struct ltfs_name`. -/
structure LtfsName where
  percentEncode : Bool
  name : Text
deriving DecidableEq, Repr

/-- `struct index_criteria`. -/
structure Criteria where
  haveCriteria : Bool
  maxFilesizeCriteria : ℕ
  globPatterns : List LtfsName
deriving DecidableEq, Repr

/-! ## The size -/

/-- Two letters stand next to each other. -/
def adjacentLetters : Text → Bool
  | a :: b :: rest => (isalpha a && isalpha b) || adjacentLetters (b :: rest)
  | _ => false

def multiplierOf (last : UInt8) : Option ℕ :=
  if last = 0x6B ∨ last = 0x4B then some 1024
  else if last = 0x6D ∨ last = 0x4D then some (1024 * 1024)
  else if last = 0x67 ∨ last = 0x47 then some (1024 * 1024 * 1024)
  else none

/-- From the check for an empty rule on. -/
def convertSize (multiplier : ℕ) (rule : Text) (ic : Criteria) : ℤ × Criteria :=
  match rule with
  | [] => (-ltfsPolicyInvalid, ic)
  | c :: _ =>
    if ! isdigit c then (-ltfsPolicyInvalid, ic)
    else
      let n := (strtoull .dec (rule.map char)).1
      (0, { ic with maxFilesizeCriteria := n * multiplier % 2 ^ 64 })

/-- `index_criteria_parse_size`. -/
def parseSize (criteria : Text) (ic : Criteria) : Option (ℤ × Criteria) :=
  if criteria.length + 1 ≤ 5 then some (-ltfsPolicyInvalid, ic)
  else
    let rule := criteria.drop 5
    if adjacentLetters rule then some (-ltfsPolicyInvalid, ic)
    else
      match rule.getLast? with
      -- `rule[strlen(rule) - 1]`
      | none => none
      | some last =>
        if isalpha last then
          match multiplierOf last with
          | none => some (-ltfsPolicyInvalid, ic)
          | some multiplier => some (convertSize multiplier rule.dropLast ic)
        else some (convertSize 1 rule ic)

/-! ## The names -/

/-- "Count the rules and check for empty ones", behind the first byte of the value: no name is
empty. -/
def namesNonempty : UInt8 → Text → Bool
  | _, [] => true
  | prev, c :: rest =>
    if c == colon then ! (prev == colon || rest.isEmpty) && namesNonempty c rest
    else namesNonempty c rest

def ltfsName (rule : Text) : LtfsName := ⟨fsIsPercentEncodeRequired rule, rule⟩

/-- "Assign rules to the glob_patterns[] array": `rule` is what there is of the current name, to
which a slash puts an end. -/
def assignRules : Text → Bool → Text → List LtfsName
  | _, _, [] => []
  | rule, ended, c :: rest =>
    if c == colon then ltfsName rule :: assignRules [] false rest
    else if c == slash then ltfsName rule :: assignRules rule true rest
    else
      let rule := if ended then rule else rule ++ [c]
      if rest.isEmpty then [ltfsName rule] else assignRules rule ended rest

/-- "Validate rules". -/
def validateRules : List LtfsName → ℤ
  | [] => 0
  | rule :: rest =>
    let ret := pathnameValidateFile rule.name
    if ret = 0 then validateRules rest else ret

/-- `index_criteria_parse_name`. -/
def parseName (criteria : Text) (ic : Criteria) : Option (ℤ × Criteria) :=
  match criteria.drop 5 with
  -- the loop over the names begins behind the end of the text
  | [] => none
  | c :: rest =>
    if c == colon then some (-ltfsPolicyEmptyRule, ic)
    else if ! namesNonempty c rest then some (-ltfsPolicyEmptyRule, ic)
    else
      let assigned := assignRules [] false (c :: rest)
      let patterns := if assigned.isEmpty then [ltfsName (c :: rest)] else assigned
      some (validateRules patterns, { ic with globPatterns := patterns })

/-! ## The rule -/

/-- "Process size= criteria". -/
def processSize (hasName : Bool) (filterrules : Text) (ic : Criteria) : Option (ℤ × Criteria) :=
  let ic := { ic with maxFilesizeCriteria := 0 }
  match findOption .size filterrules with
  | .found criteria => parseSize criteria ic
  | .repeated => some (-ltfsPolicyInvalid, ic)
  | .absent => some (if hasName then -ltfsPolicyInvalid else 0, ic)

/-- `index_criteria_parse`. -/
def indexCriteriaParse (filterrules : Option Text) (ic : Criteria) : Option (ℤ × Criteria) :=
  match filterrules with
  | none => some (0, { ic with haveCriteria := false })
  | some rules =>
    -- what `index_criteria_free` leaves
    let ic : Criteria := ⟨true, if ic.haveCriteria then 0 else ic.maxFilesizeCriteria,
      if ic.haveCriteria then [] else ic.globPatterns⟩
    if containsInvalidOptions rules then some (-ltfsPolicyInvalid, ic)
    else
      match findOption .name rules with
      | .found criteria =>
        match parseName criteria ic with
        | none => none
        | some (ret, ic) => if ret < 0 then some (ret, ic) else processSize true rules ic
      | .repeated => some (-ltfsPolicyInvalid, ic)
      | .absent => processSize false rules ic

end Ltfs.CriteriaRule

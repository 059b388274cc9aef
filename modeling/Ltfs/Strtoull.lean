import Ltfs.TimeText

/-!
# strtoull

* `scanNumber` — the number a text begins with, in base 10 or 16.
* `strtoull` — what is made of it in 64 bits, and the text behind it.
* `exactNumber` — the canonical reading: digits only, and no more than 64 bits.
* `Spelling` — everything `strtoull` takes for a number.
-/

namespace Ltfs

open Time

/-! ## Digits -/

/-- The base of a conversion. -/
inductive Radix where
  | dec
  | hex
deriving DecidableEq, Repr

def Radix.base : Radix → ℕ
  | .dec => 10
  | .hex => 16

/-- `isxdigit` in the C locale. -/
def isxdigit (c : Char) : Bool :=
  c.isDigit || (97 ≤ c.toNat && c.toNat ≤ 102) || (65 ≤ c.toNat && c.toNat ≤ 70)

def Radix.isDigit : Radix → Char → Bool
  | .dec => Char.isDigit
  | .hex => isxdigit

def xdigitValue (c : Char) : ℕ :=
  if c.isDigit then c.toNat - 48 else if c.toNat < 97 then c.toNat - 55 else c.toNat - 87

/-- The number that digits stand for. -/
def Radix.value (r : Radix) (digits : List Char) : ℕ :=
  digits.foldl (fun n c => r.base * n + xdigitValue c) 0

/-- More digits make no smaller number. -/
theorem Radix.value_le_append (r : Radix) (digits more : List Char) :
    r.value digits ≤ r.value (digits ++ more) := by
  have hgrows : ∀ (more : List Char) (n : ℕ),
      n ≤ more.foldl (fun n c => r.base * n + xdigitValue c) n := by
    intro more
    induction more with
    | nil => exact fun n => le_refl n
    | cons c more ih =>
      intro n
      have hbase : 1 ≤ r.base := by cases r <;> decide
      calc n ≤ r.base * n + xdigitValue c := (Nat.le_mul_of_pos_left n hbase).trans (Nat.le_add_right _ _)
        _ ≤ _ := ih _
  unfold Radix.value
  rw [List.foldl_append]
  exact hgrows more _

/-! ## Conversion -/

/-- The length of a `0x` with a digit behind it. -/
def Radix.prefixLen : Radix → List Char → ℕ
  | .hex, '0' :: x :: c :: _ => if (x = 'x' || x = 'X') && isxdigit c then 2 else 0
  | _, _ => 0

/-- The number behind spaces, a sign and the prefix of the base, and what follows it. -/
def scanNumber (r : Radix) (s : List Char) : Option (ℤ × List Char) :=
  let s := s.dropWhile isspace
  let (neg, signs) := scanSign s
  let body := s.drop signs
  let body := body.drop (r.prefixLen body)
  let digits := body.takeWhile r.isDigit
  if digits = [] then none
  else
    let n : ℤ := r.value digits
    some (if neg then -n else n, body.drop digits.length)

/-- `strtoull` returns this for a number that is out of range. -/
def ullongMax : ℕ := 2 ^ 64 - 1

/-- What `strtoull` makes of a number: a negative one wraps, one out of range saturates. -/
def toUllong (n : ℤ) : ℕ :=
  if n.natAbs ≤ ullongMax then (n % 2 ^ 64).toNat else ullongMax

/-- `strtoull`, and the text that `endptr` points to. -/
def strtoull (r : Radix) (s : List Char) : ℕ × List Char :=
  match scanNumber r s with
  | some (n, rest) => (toUllong n, rest)
  | none => (0, s)

theorem toUllong_lt (n : ℤ) : toUllong n < 2 ^ 64 := by
  unfold toUllong ullongMax
  split <;> omega

/-- Kept in `k < 64` bits, what `strtoull` returns is the number itself if and only if the
number fits. -/
theorem toUllong_mod_eq_iff {k : ℕ} (hk : 2 ^ k ∣ 2 ^ 64) (n : ℤ) :
    ((toUllong n % 2 ^ k : ℕ) : ℤ) = n ↔ 0 ≤ n ∧ n < 2 ^ k := by
  have hlt : toUllong n % 2 ^ k < 2 ^ k := Nat.mod_lt _ (Nat.two_pow_pos k)
  constructor
  · intro h
    constructor
    · omega
    · rw [← h]
      exact_mod_cast hlt
  · rintro ⟨h0, hn⟩
    obtain ⟨m, rfl⟩ := Int.eq_ofNat_of_zero_le h0
    have hm : m < 2 ^ k := by exact_mod_cast hn
    have hm64 : m < 2 ^ 64 := hm.trans_le (Nat.le_of_dvd (by norm_num) hk)
    have hull : toUllong (m : ℤ) = m := by
      unfold toUllong ullongMax
      rw [if_pos (by simp only [Int.natAbs_natCast]; omega)]
      omega
    rw [hull, Nat.mod_eq_of_lt hm]

theorem toUllong_natCast {n : ℕ} (hn : n < 2 ^ 64) : toUllong n = n := by
  have h := (toUllong_mod_eq_iff (k := 64) dvd_rfl (n : ℤ)).mpr ⟨by omega, by exact_mod_cast hn⟩
  have hlt := toUllong_lt (n : ℤ)
  rw [Nat.mod_eq_of_lt hlt] at h
  exact_mod_cast h

/-! ## Base 10 -/

/-- In base 10 this is the conversion of `scanf`. -/
theorem scanNumber_dec (s : List Char) : scanNumber .dec s = scanInt none s := by
  have hvalue : ∀ digits : List Char, (∀ c ∈ digits, c.isDigit = true) → ∀ n,
      digits.foldl (fun n c => 10 * n + xdigitValue c) n = Nat.ofDigitChars 10 digits n := by
    intro digits
    induction digits with
    | nil =>
      intro _ n
      simp
    | cons c digits ih =>
      intro hdigits n
      have hc : c.isDigit = true := hdigits c List.mem_cons_self
      have hdigit : xdigitValue c = c.toNat - '0'.toNat := by
        unfold xdigitValue
        rw [if_pos hc]
        rfl
      rw [List.foldl_cons, Nat.ofDigitChars_cons, hdigit]
      exact ih (fun c' hc' => hdigits c' (List.mem_cons_of_mem c hc')) _
  unfold scanNumber scanInt scanField
  dsimp only
  generalize s.dropWhile isspace = t
  rcases scanSign t with ⟨neg, signs⟩
  have hnone : Radix.prefixLen .dec (t.drop signs) = 0 := rfl
  dsimp only
  rw [hnone, List.drop_zero]
  have hdigits : ∀ c ∈ (t.drop signs).takeWhile Char.isDigit, c.isDigit = true := fun c hc =>
    List.mem_takeWhile_imp hc
  have hsame : Radix.value .dec ((t.drop signs).takeWhile Char.isDigit)
      = Nat.ofDigitChars 10 ((t.drop signs).takeWhile Char.isDigit) 0 := hvalue _ hdigits 0
  rw [List.drop_drop]
  unfold Radix.isDigit
  dsimp only
  rw [hsame]

/-! ## Spellings -/

/-- Everything that is taken for a number: spaces, a sign, the prefix of the base, and digits. -/
structure Spelling (r : Radix) (blank sign pre digits : List Char) : Prop where
  spaces : ∀ c ∈ blank, isspace c = true
  isSign : sign = [] ∨ sign = ['-'] ∨ sign = ['+']
  isPrefix : pre = [] ∨ r = .hex ∧ (pre = ['0', 'x'] ∨ pre = ['0', 'X'])
  isDigit : ∀ c ∈ digits, r.isDigit c = true
  nonempty : digits ≠ []

/-- No digit is part of what may stand before the digits. -/
theorem Radix.isDigit_spec {r : Radix} {c : Char} (hc : r.isDigit c = true) :
    isspace c = false ∧ c ≠ '-' ∧ c ≠ '+' ∧ c ≠ 'x' ∧ c ≠ 'X' := by
  have hrange : (48 ≤ c.toNat ∧ c.toNat ≤ 57) ∨ (97 ≤ c.toNat ∧ c.toNat ≤ 102) ∨
      (65 ≤ c.toNat ∧ c.toNat ≤ 70) := by
    have hdec : c.isDigit = true → 48 ≤ c.toNat ∧ c.toNat ≤ 57 := by
      intro hdigit
      simp only [Char.isDigit, Bool.and_eq_true, decide_eq_true_eq, UInt32.le_iff_toNat_le,
        ge_iff_le] at hdigit
      exact hdigit
    cases r with
    | dec => exact .inl (hdec hc)
    | hex =>
      simp only [Radix.isDigit, isxdigit, Bool.or_eq_true, Bool.and_eq_true,
        decide_eq_true_eq] at hc
      rcases hc with (hc | hc) | hc
      · exact .inl (hdec hc)
      · exact .inr (.inl hc)
      · exact .inr (.inr hc)
  have hne : ∀ d : Char, (d.toNat < 48 ∨ 57 < d.toNat ∧ d.toNat < 65 ∨ 70 < d.toNat ∧ d.toNat < 97 ∨
      102 < d.toNat) → c ≠ d := by
    rintro d hd rfl
    omega
  refine ⟨?_, hne _ (by decide), hne _ (by decide), hne _ (by decide), hne _ (by decide)⟩
  have hblank : c ≠ ' ' := hne _ (by decide)
  simp [isspace, hblank]
  omega

theorem scanSign_of_ne {c : Char} (hminus : c ≠ '-') (hplus : c ≠ '+') (s : List Char) :
    scanSign (c :: s) = (false, 0) := by
  unfold scanSign
  split
  · simp_all
  · simp_all
  · rfl

section Spelling

variable {r : Radix} {blank sign pre digits : List Char}

/-- What stands first behind the sign. -/
theorem Spelling.body_head (h : Spelling r blank sign pre digits) :
    ∃ c rest, pre ++ digits = c :: rest ∧ r.isDigit c = true := by
  rcases h.isPrefix with rfl | ⟨rfl, rfl | rfl⟩
  · obtain ⟨c, rest, rfl⟩ := List.exists_cons_of_ne_nil h.nonempty
    exact ⟨c, rest, rfl, h.isDigit c List.mem_cons_self⟩
  · exact ⟨'0', _, rfl, rfl⟩
  · exact ⟨'0', _, rfl, rfl⟩

theorem Spelling.scanSign (h : Spelling r blank sign pre digits) :
    Time.scanSign (sign ++ (pre ++ digits)) = (decide (sign = ['-']), sign.length) := by
  rcases h.isSign with rfl | rfl | rfl
  · obtain ⟨c, rest, hbody, hc⟩ := h.body_head
    obtain ⟨-, hminus, hplus, -⟩ := Radix.isDigit_spec hc
    rw [hbody]
    exact scanSign_of_ne hminus hplus rest
  · rfl
  · rfl

theorem Spelling.dropWhile (h : Spelling r blank sign pre digits) :
    (blank ++ (sign ++ (pre ++ digits))).dropWhile isspace = sign ++ (pre ++ digits) := by
  rw [List.dropWhile_append_of_pos h.spaces]
  -- neither a sign nor a digit is a space
  have hhead : ∀ c rest, isspace c = false →
      (c :: rest : List Char).dropWhile isspace = c :: rest := by
    intro c rest hc
    rw [List.dropWhile_cons_of_neg (by simp [hc])]
  rcases h.isSign with rfl | rfl | rfl
  · obtain ⟨c, rest, hbody, hc⟩ := h.body_head
    rw [List.nil_append, hbody]
    exact hhead c rest (Radix.isDigit_spec hc).1
  · exact hhead _ _ rfl
  · exact hhead _ _ rfl

theorem Spelling.prefixLen (h : Spelling r blank sign pre digits) :
    r.prefixLen (pre ++ digits) = pre.length := by
  obtain ⟨d, rest, hcons⟩ := List.exists_cons_of_ne_nil h.nonempty
  have hd : r.isDigit d = true := h.isDigit d (by rw [hcons]; exact List.mem_cons_self)
  rcases h.isPrefix with rfl | ⟨rfl, rfl | rfl⟩
  · -- an `x` is no digit
    rw [List.nil_append]
    unfold Radix.prefixLen
    split
    · rename_i x c rest
      have hx := Radix.isDigit_spec (h.isDigit x (by simp))
      rw [if_neg (by simp [hx])]
      rfl
    · rfl
  · rw [hcons]
    have hx : isxdigit d = true := hd
    simp [Radix.prefixLen, hx]
  · rw [hcons]
    have hx : isxdigit d = true := hd
    simp [Radix.prefixLen, hx]

/-- All of it is read. -/
theorem Spelling.scanNumber (h : Spelling r blank sign pre digits) :
    Ltfs.scanNumber r (blank ++ sign ++ pre ++ digits)
      = some (if sign = ['-'] then -(r.value digits : ℤ) else r.value digits, []) := by
  have hassoc : blank ++ sign ++ pre ++ digits = blank ++ (sign ++ (pre ++ digits)) := by
    simp only [List.append_assoc]
  have htake : digits.takeWhile r.isDigit = digits := List.takeWhile_eq_self_iff.mpr h.isDigit
  unfold Ltfs.scanNumber
  dsimp only
  rw [hassoc, h.dropWhile, h.scanSign]
  dsimp only
  rw [List.drop_left, h.prefixLen, List.drop_left, htake, if_neg h.nonempty, List.drop_length]
  simp only [decide_eq_true_eq]

end Spelling

/-- Nothing else is read to its end. -/
theorem exists_spelling {r : Radix} {s : List Char} {n : ℤ}
    (h : scanNumber r s = some (n, [])) : ∃ blank sign pre digits,
      Spelling r blank sign pre digits ∧ s = blank ++ sign ++ pre ++ digits := by
  have hsplit : s.takeWhile isspace ++ s.dropWhile isspace = s := List.takeWhile_append_dropWhile
  have hblank : ∀ c ∈ s.takeWhile isspace, isspace c = true := fun c hc => List.mem_takeWhile_imp hc
  unfold scanNumber at h
  dsimp only at h
  generalize s.takeWhile isspace = blank at hsplit hblank
  generalize s.dropWhile isspace = t at h hsplit
  have hsign : ∃ sign body, t = sign ++ body ∧ (sign = [] ∨ sign = ['-'] ∨ sign = ['+']) ∧
      (scanSign t).2 = sign.length := by
    unfold scanSign
    split
    · exact ⟨['-'], _, rfl, .inr (.inl rfl), rfl⟩
    · exact ⟨['+'], _, rfl, .inr (.inr rfl), rfl⟩
    · exact ⟨[], _, rfl, .inl rfl, rfl⟩
  obtain ⟨sign, body, rfl, hsign, hlen⟩ := hsign
  rw [hlen, List.drop_left] at h
  have hpre : ∃ pre rest, body = pre ++ rest ∧
      (pre = [] ∨ r = .hex ∧ (pre = ['0', 'x'] ∨ pre = ['0', 'X'])) ∧
      r.prefixLen body = pre.length := by
    unfold Radix.prefixLen
    split
    · rename_i x c rest
      split
      · rename_i hx
        simp only [Bool.and_eq_true, Bool.or_eq_true, decide_eq_true_eq] at hx
        rcases hx.1 with rfl | rfl
        · exact ⟨['0', 'x'], _, rfl, .inr ⟨rfl, .inl rfl⟩, rfl⟩
        · exact ⟨['0', 'X'], _, rfl, .inr ⟨rfl, .inr rfl⟩, rfl⟩
      · exact ⟨[], _, rfl, .inl rfl, rfl⟩
    · exact ⟨[], _, rfl, .inl rfl, rfl⟩
  obtain ⟨pre, rest, rfl, hpre, hlen'⟩ := hpre
  rw [hlen', List.drop_left] at h
  have hdigits : ∀ c ∈ rest.takeWhile r.isDigit, r.isDigit c = true := fun c hc =>
    List.mem_takeWhile_imp hc
  split at h
  · cases h
  · rename_i hne
    simp only [Option.some.injEq, Prod.mk.injEq] at h
    -- nothing is left behind the digits
    have hall : rest = rest.takeWhile r.isDigit := by
      have hrest := List.takeWhile_append_dropWhile (p := r.isDigit) (l := rest)
      have hdrop := congrArg (List.drop (rest.takeWhile r.isDigit).length) hrest
      rw [List.drop_left, h.2] at hdrop
      rw [hdrop, List.append_nil] at hrest
      exact hrest.symm
    refine ⟨blank, sign, pre, rest, ⟨hblank, hsign, hpre, ?_, ?_⟩, ?_⟩
    · rw [hall]
      exact hdigits
    · rw [hall]
      exact hne
    · rw [← hsplit]
      simp only [List.append_assoc]

/-- What stands behind a decimal number, when all of it is one, is more digits. -/
theorem Spelling.of_append {blank sign pre digits more blank' sign' pre' digits' : List Char}
    (h : Spelling .dec blank sign pre digits) (h' : Spelling .dec blank' sign' pre' digits')
    (heq : blank ++ sign ++ pre ++ digits ++ more = blank' ++ sign' ++ pre' ++ digits') :
    Spelling .dec blank sign pre (digits ++ more) := by
  have hpre' : pre' = [] := h'.isPrefix.resolve_right (fun hhex => by cases hhex.1)
  have hmore : ∀ c ∈ more, Radix.isDigit .dec c = true := by
    subst hpre'
    rw [List.append_assoc, List.append_nil, List.append_eq_append_iff] at heq
    rcases heq with ⟨l, hl, hdigits⟩ | ⟨l, -, hdigits⟩
    · -- the second number has no digits before the first one ends
      obtain ⟨d, rest, rfl⟩ := List.exists_cons_of_ne_nil h.nonempty
      cases l with
      | nil =>
        intro c hc
        exact h'.isDigit c (by rw [← List.nil_append digits', ← hdigits]; simp [hc])
      | cons x l =>
        obtain ⟨rfl, -⟩ := List.cons.inj hdigits
        have hd := Radix.isDigit_spec (h.isDigit d List.mem_cons_self)
        have hmem : d ∈ blank' ++ sign' := by rw [hl]; simp
        rcases List.mem_append.mp hmem with hblank | hsign
        · rw [h'.spaces d hblank] at hd
          exact absurd hd.1 (by simp)
        · rcases h'.isSign with rfl | rfl | rfl
          · cases hsign
          · exact absurd (List.mem_singleton.mp hsign) hd.2.1
          · exact absurd (List.mem_singleton.mp hsign) hd.2.2.1
    · intro c hc
      exact h'.isDigit c (by rw [hdigits]; simp [hc])
  refine ⟨h.spaces, h.isSign, h.isPrefix, ?_, by simp [h.nonempty]⟩
  intro c hc
  rcases List.mem_append.mp hc with hc | hc
  · exact h.isDigit c hc
  · exact hmore c hc

/-! ## Exact numbers -/

/-- The whole text, if it is a number. -/
def wholeNumber (r : Radix) (s : List Char) : Option ℕ :=
  if s = [] then none
  else
    let n := strtoull r s
    if n.2 = [] then some n.1 else none

/-- The canonical reading. -/
def exactNumber (r : Radix) (s : List Char) : Option ℕ :=
  if s ≠ [] ∧ s.all r.isDigit = true ∧ r.value s < 2 ^ 64 then some (r.value s) else none

/-- The text is taken for a number and has more than digits, or is out of range. -/
def Misspelt (r : Radix) (s : List Char) : Prop :=
  ∃ blank sign pre digits, Spelling r blank sign pre digits ∧
    s = blank ++ sign ++ pre ++ digits ∧
    (blank ++ sign ++ pre ≠ [] ∨ 2 ^ 64 ≤ r.value digits)

theorem wholeNumber_eq_some {r : Radix} {s : List Char} {u : ℕ} (h : wholeNumber r s = some u) :
    ∃ n, scanNumber r s = some (n, []) ∧ u = toUllong n := by
  unfold wholeNumber strtoull at h
  split at h
  · cases h
  · rename_i hne
    cases hscan : scanNumber r s with
    | none =>
      rw [hscan] at h
      simp [hne] at h
    | some read =>
      rw [hscan] at h
      dsimp only at h
      split at h
      · rename_i hrest
        cases h
        exact ⟨read.1, by rw [← hrest], rfl⟩
      · cases h

theorem Spelling.wholeNumber {r : Radix} {blank sign pre digits : List Char}
    (h : Spelling r blank sign pre digits) :
    Ltfs.wholeNumber r (blank ++ sign ++ pre ++ digits)
      = some (toUllong (if sign = ['-'] then -(r.value digits : ℤ) else r.value digits)) := by
  unfold Ltfs.wholeNumber strtoull
  rw [if_neg (by simp [h.nonempty]), h.scanNumber]
  rfl

/-- A text of digits is spelt in one way. -/
theorem Spelling.eq_nil {r : Radix} {blank sign pre digits : List Char}
    (h : Spelling r blank sign pre digits)
    (hall : ∀ c ∈ blank ++ sign ++ pre ++ digits, r.isDigit c = true) :
    blank ++ sign ++ pre = [] := by
  have hblank : blank = [] := by
    rw [List.eq_nil_iff_forall_not_mem]
    intro c hc
    have hdigit := Radix.isDigit_spec (hall c (by simp [hc]))
    rw [h.spaces c hc] at hdigit
    exact absurd hdigit.1 (by simp)
  have hsign : sign = [] := by
    rcases h.isSign with rfl | rfl | rfl
    · rfl
    · exact absurd rfl (Radix.isDigit_spec (hall '-' (by simp))).2.1
    · exact absurd rfl (Radix.isDigit_spec (hall '+' (by simp))).2.2.1
  have hpre : pre = [] := by
    rcases h.isPrefix with rfl | ⟨-, rfl | rfl⟩
    · rfl
    · exact absurd rfl (Radix.isDigit_spec (hall 'x' (by simp))).2.2.2.1
    · exact absurd rfl (Radix.isDigit_spec (hall 'X' (by simp))).2.2.2.2
  rw [hblank, hsign, hpre]
  rfl

theorem exactNumber_eq_some {r : Radix} {s : List Char} {n : ℕ} (h : exactNumber r s = some n) :
    wholeNumber r s = some n ∧ n = r.value s := by
  unfold exactNumber at h
  split at h
  · rename_i hexact
    cases h
    have hspell : Spelling r [] [] [] s := ⟨by simp, .inl rfl, .inl rfl,
      List.all_eq_true.mp hexact.2.1, hexact.1⟩
    have hread := hspell.wholeNumber
    rw [if_neg (by simp), toUllong_natCast hexact.2.2] at hread
    exact ⟨hread, rfl⟩
  · cases h

theorem wholeNumber_exact_iff (r : Radix) (s : List Char) :
    wholeNumber r s = exactNumber r s ↔ ¬ Misspelt r s := by
  constructor
  · rintro hsame ⟨blank, sign, pre, digits, hspell, rfl, hodd⟩
    rw [hspell.wholeNumber] at hsame
    have hexact : exactNumber r (blank ++ sign ++ pre ++ digits) ≠ none := by
      rw [← hsame]
      exact Option.some_ne_none _
    unfold exactNumber at hexact
    rw [ne_eq, ite_eq_right_iff, not_forall] at hexact
    obtain ⟨⟨-, hall, hlt⟩, -⟩ := hexact
    have hnil := hspell.eq_nil (List.all_eq_true.mp hall)
    rw [hnil, List.nil_append] at hlt
    rcases hodd with hne | hge
    · exact hne hnil
    · omega
  · intro hspelt
    cases hwhole : wholeNumber r s with
    | some u =>
      obtain ⟨n, hscan, rfl⟩ := wholeNumber_eq_some hwhole
      obtain ⟨blank, sign, pre, digits, hspell, rfl⟩ := exists_spelling hscan
      -- it is spelt in digits, and in range
      have hexact : blank ++ sign ++ pre = [] ∧ r.value digits < 2 ^ 64 := by
        by_contra hodd
        refine hspelt ⟨blank, sign, pre, digits, hspell, rfl, ?_⟩
        by_cases hnil : blank ++ sign ++ pre = []
        · exact .inr (not_lt.mp fun hlt => hodd ⟨hnil, hlt⟩)
        · exact .inl hnil
      have hsign : sign = [] := by
        have := hexact.1
        simp only [List.append_eq_nil_iff] at this
        exact this.1.2
      have hvalue := hspell.wholeNumber
      rw [hwhole, if_neg (by simp [hsign]), toUllong_natCast hexact.2] at hvalue
      unfold exactNumber
      rw [hexact.1, List.nil_append, if_pos ⟨hspell.nonempty, List.all_eq_true.mpr hspell.isDigit, hexact.2⟩]
      exact hvalue
    | none =>
      cases hexact : exactNumber r s with
      | none => rfl
      | some n =>
        rw [(exactNumber_eq_some hexact).1] at hwhole
        cases hwhole

end Ltfs

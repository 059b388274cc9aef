import Mathlib.Data.Nat.Notation

/-!
# Base64 text

The base64 encoding of a byte string, as groups of four characters, and the groups put into lines.

1. `digit`, `digitValue` — the alphabet; `digitValue_digit`.
2. `groups` — three bytes in four characters; padding fills up the last group.
3. `lines` — the groups with line breaks before them.
4. `Spells` — a text that stands for a byte string, up to the bits that its padding leaves over;
   `spells_encode` is the text that leaves none.
-/

namespace Ltfs.Lib.Base64

/-- The alphabet, in the order of its digits. -/
def alphabet : List UInt8 :=
  "ABCDEFGHIJKLMNOPQRSTUVWXYZabcdefghijklmnopqrstuvwxyz0123456789+/".toList.map
    fun c => UInt8.ofNat c.toNat

/-- The character of a digit. -/
def digit (n : ℕ) : UInt8 := alphabet.getD n 0

/-- The digit of a character, if it is one. -/
def digitValue (c : UInt8) : Option ℕ := alphabet.idxOf? c

/-- `=` -/
def pad : UInt8 := 0x3D

/-- The characters of the alphabet, as numbers. -/
theorem alphabet_toNat : alphabet.map UInt8.toNat
    = List.range' 65 26 ++ List.range' 97 26 ++ List.range' 48 10 ++ [43, 47] := by
  unfold alphabet
  simp
  rfl

theorem digitValue_toNat (c : UInt8) :
    digitValue c = (alphabet.map UInt8.toNat).idxOf? c.toNat := by
  unfold digitValue List.idxOf?
  rw [List.findIdx?_map]
  congr 1
  funext d
  rw [Bool.eq_iff_iff]
  simp [UInt8.toNat_inj]

theorem digitValue_isSome (c : UInt8) : (digitValue c).isSome = true ↔
    c.toNat ∈ List.range' 65 26 ++ List.range' 97 26 ++ List.range' 48 10 ++ [43, 47] := by
  unfold digitValue
  rw [List.isSome_idxOf?, ← alphabet_toNat, List.mem_map]
  constructor
  · exact fun hmem => ⟨c, hmem, rfl⟩
  · rintro ⟨d, hmem, hd⟩
    rwa [← UInt8.toNat_inj.mp hd]

theorem digitValue_digit : ∀ n < 64, digitValue (digit n) = some n := by
  intro n hn
  have hdigit : (digit n).toNat = (alphabet.map UInt8.toNat).getD n 0 := by
    unfold digit
    rw [List.getD_eq_getElem?_getD, List.getD_eq_getElem?_getD, List.getElem?_map]
    cases alphabet[n]? <;> rfl
  rw [digitValue_toNat, hdigit, alphabet_toNat]
  revert n
  decide +kernel

theorem digitValue_pad : digitValue pad = none := by
  rw [digitValue_toNat, alphabet_toNat]
  rfl

/-- A character of the alphabet is no padding. -/
theorem ne_pad_of_digitValue {c : UInt8} {n : ℕ} (h : digitValue c = some n) : c ≠ pad := by
  rintro rfl
  rw [digitValue_pad] at h
  cases h

/-- The four characters of up to three bytes. -/
def groups : List UInt8 → List (List UInt8)
  | [] => []
  | [a] => [[digit (a.toNat / 4), digit (a.toNat % 4 * 16), pad, pad]]
  | [a, b] =>
    [[digit (a.toNat / 4), digit (a.toNat % 4 * 16 + b.toNat / 16), digit (b.toNat % 16 * 4), pad]]
  | a :: b :: c :: rest =>
    [digit (a.toNat / 4), digit (a.toNat % 4 * 16 + b.toNat / 16),
      digit (b.toNat % 16 * 4 + c.toNat / 64), digit (c.toNat % 64)] :: groups rest

/-- Groups one after the other, each behind its line break. -/
def lines : List (List UInt8) → List (List UInt8) → List UInt8
  | _, [] => []
  | breaks, g :: gs => breaks.headD [] ++ (g ++ lines breaks.tail gs)

/-- How many characters fill up the last group. -/
def padding : List UInt8 → ℕ
  | [] => 0
  | [_] => 2
  | [_, _] => 1
  | _ :: _ :: _ :: rest => padding rest

/-- A digit of a character is the digit of no other one. -/
theorem digit_of_digitValue {c : UInt8} {n : ℕ} (h : digitValue c = some n) :
    n < 64 ∧ digit n = c := by
  obtain ⟨hlt, hget, -⟩ := List.idxOf?_eq_some_iff.mp h
  refine ⟨hlt, ?_⟩
  rw [digit, List.getD_eq_getElem?_getD, List.getElem?_eq_getElem hlt, hget, Option.getD_some]

/-- The text of a byte string. -/
def encode (bytes : List UInt8) : List UInt8 := (groups bytes).flatten

/-- A text in base64 and its bytes. In front of padding, the last digit has bits that belong to
no byte. -/
inductive Spells : List UInt8 → List UInt8 → Prop
  | nil : Spells [] []
  | one (a : UInt8) {r : ℕ} (hr : r < 16) :
    Spells [digit (a.toNat / 4), digit (a.toNat % 4 * 16 + r), pad, pad] [a]
  | two (a b : UInt8) {r : ℕ} (hr : r < 4) :
    Spells [digit (a.toNat / 4), digit (a.toNat % 4 * 16 + b.toNat / 16),
      digit (b.toNat % 16 * 4 + r), pad] [a, b]
  | three (a b c : UInt8) {text bytes : List UInt8} (h : Spells text bytes) :
    Spells (digit (a.toNat / 4) :: digit (a.toNat % 4 * 16 + b.toNat / 16) ::
      digit (b.toNat % 16 * 4 + c.toNat / 64) :: digit (c.toNat % 64) :: text)
      (a :: b :: c :: bytes)

theorem spells_encode (bytes : List UInt8) : Spells (encode bytes) bytes := by
  induction bytes using groups.induct with
  | case1 => exact .nil
  | case2 a => exact .one a (r := 0) (by omega)
  | case3 a b => exact .two a b (r := 0) (by omega)
  | case4 a b c rest ih => exact .three a b c ih

/-- The bounds of the four digits of three bytes. -/
theorem digits_lt (a b c : UInt8) :
    a.toNat / 4 < 64 ∧ a.toNat % 4 * 16 + b.toNat / 16 < 64 ∧
    b.toNat % 16 * 4 + c.toNat / 64 < 64 ∧ c.toNat % 64 < 64 := by
  have ha := a.toNat_lt
  have hb := b.toNat_lt
  have hc := c.toNat_lt
  omega

/-- Such a text is a row of digits with the padding behind it. -/
theorem Spells.digits {text bytes : List UInt8} (h : Spells text bytes) :
    ∃ digits, text = digits ++ List.replicate (padding bytes) pad ∧
      ∀ c ∈ digits, ∃ n < 64, c = digit n := by
  induction h with
  | nil => exact ⟨[], rfl, by simp⟩
  | one a hr =>
    obtain ⟨h0, -, -, -⟩ := digits_lt a 0 0
    refine ⟨[_, _], rfl, ?_⟩
    rw [List.forall_mem_cons, List.forall_mem_singleton]
    exact ⟨⟨_, h0, rfl⟩, _, by omega, rfl⟩
  | two a b hr =>
    obtain ⟨h0, h1, -, -⟩ := digits_lt a b 0
    refine ⟨[_, _, _], rfl, ?_⟩
    rw [List.forall_mem_cons, List.forall_mem_cons, List.forall_mem_singleton]
    exact ⟨⟨_, h0, rfl⟩, ⟨_, h1, rfl⟩, _, by omega, rfl⟩
  | three a b c _ ih =>
    obtain ⟨h0, h1, h2, h3⟩ := digits_lt a b c
    obtain ⟨digits, rfl, hdigits⟩ := ih
    refine ⟨_ :: _ :: _ :: _ :: digits, rfl, ?_⟩
    simp only [List.forall_mem_cons]
    exact ⟨⟨_, h0, rfl⟩, ⟨_, h1, rfl⟩, ⟨_, h2, rfl⟩, ⟨_, h3, rfl⟩, hdigits⟩

/-- Its length. -/
theorem Spells.length {text bytes : List UInt8} (h : Spells text bytes) :
    ∃ m, text.length = 4 * m ∧ 3 * m = bytes.length + padding bytes := by
  induction h with
  | nil => exact ⟨0, rfl, rfl⟩
  | one a hr => exact ⟨1, rfl, rfl⟩
  | two a b hr => exact ⟨1, rfl, rfl⟩
  | three a b c _ ih =>
    obtain ⟨m, htext, hbytes⟩ := ih
    refine ⟨m + 1, ?_, ?_⟩
    · simp only [List.length_cons]
      omega
    · simp only [List.length_cons, padding]
      omega

theorem padding_le (bytes : List UInt8) : padding bytes ≤ 2 := by
  induction bytes using padding.induct with
  | case1 => decide
  | case2 => exact Nat.le_refl 2
  | case3 => exact Nat.le_succ 1
  | case4 _ _ _ rest ih => exact ih

/-- Four digits are those of three bytes. -/
theorem exists_three {n₀ n₁ n₂ n₃ : ℕ} (h₀ : n₀ < 64) (h₁ : n₁ < 64) (h₂ : n₂ < 64)
    (h₃ : n₃ < 64) :
    ∃ a b c : UInt8, a.toNat / 4 = n₀ ∧ a.toNat % 4 * 16 + b.toNat / 16 = n₁ ∧
      b.toNat % 16 * 4 + c.toNat / 64 = n₂ ∧ c.toNat % 64 = n₃ := by
  have ha : (UInt8.ofNat (n₀ * 4 + n₁ / 16)).toNat = n₀ * 4 + n₁ / 16 :=
    UInt8.toNat_ofNat_of_lt' (show _ < 256 by omega)
  have hb : (UInt8.ofNat (n₁ % 16 * 16 + n₂ / 4)).toNat = n₁ % 16 * 16 + n₂ / 4 :=
    UInt8.toNat_ofNat_of_lt' (show _ < 256 by omega)
  have hc : (UInt8.ofNat (n₂ % 4 * 64 + n₃)).toNat = n₂ % 4 * 64 + n₃ :=
    UInt8.toNat_ofNat_of_lt' (show _ < 256 by omega)
  refine ⟨.ofNat (n₀ * 4 + n₁ / 16), .ofNat (n₁ % 16 * 16 + n₂ / 4), .ofNat (n₂ % 4 * 64 + n₃),
    ?_, ?_, ?_, ?_⟩
  · rw [ha]
    omega
  · rw [ha, hb]
    omega
  · rw [hb, hc]
    omega
  · rw [hc]
    omega

/-- Digits and padding, in groups of four, spell a byte string. The induction is on the number of
groups; padding stands in the last one only. -/
theorem exists_spells (m : ℕ) : ∀ {digits : List UInt8} {k : ℕ},
    (∀ c ∈ digits, ∃ n < 64, c = digit n) → k ≤ 2 → digits.length + k = 4 * m →
    ∃ bytes, Spells (digits ++ List.replicate k pad) bytes ∧ padding bytes = k := by
  induction m with
  | zero =>
    intro digits k _ _ hlen
    have hnil : digits = [] := List.length_eq_zero_iff.mp (by omega)
    have hk : k = 0 := by omega
    rw [hnil, hk]
    exact ⟨[], .nil, rfl⟩
  | succ m ih =>
    intro digits k hdigits hk hlen
    rcases digits with _ | ⟨w, _ | ⟨x, _ | ⟨y, _ | ⟨z, rest⟩⟩⟩⟩
    · simp only [List.length_nil] at hlen
      omega
    · simp only [List.length_cons, List.length_nil] at hlen
      omega
    · -- the last group, with two padding characters
      simp only [List.length_cons, List.length_nil] at hlen
      have hk2 : k = 2 := by omega
      simp only [List.forall_mem_cons] at hdigits
      obtain ⟨⟨n₀, h₀, rfl⟩, ⟨n₁, h₁, rfl⟩, -⟩ := hdigits
      obtain ⟨a, b, c, e₀, e₁, -, -⟩ := @exists_three n₀ n₁ 0 0 h₀ h₁ (by omega) (by omega)
      have hb := b.toNat_lt
      rw [hk2, ← e₀, ← e₁]
      exact ⟨[a], .one a (by omega), rfl⟩
    · -- the last group, with one
      simp only [List.length_cons, List.length_nil] at hlen
      have hk1 : k = 1 := by omega
      simp only [List.forall_mem_cons] at hdigits
      obtain ⟨⟨n₀, h₀, rfl⟩, ⟨n₁, h₁, rfl⟩, ⟨n₂, h₂, rfl⟩, -⟩ := hdigits
      obtain ⟨a, b, c, e₀, e₁, e₂, -⟩ := @exists_three n₀ n₁ n₂ 0 h₀ h₁ h₂ (by omega)
      have hc := c.toNat_lt
      rw [hk1, ← e₀, ← e₁, ← e₂]
      exact ⟨[a, b], .two a b (by omega), rfl⟩
    · simp only [List.length_cons] at hlen
      simp only [List.forall_mem_cons] at hdigits
      obtain ⟨⟨n₀, h₀, rfl⟩, ⟨n₁, h₁, rfl⟩, ⟨n₂, h₂, rfl⟩, ⟨n₃, h₃, rfl⟩, hrest⟩ := hdigits
      obtain ⟨a, b, c, e₀, e₁, e₂, e₃⟩ := exists_three h₀ h₁ h₂ h₃
      obtain ⟨bytes, hspells, hpadding⟩ := ih hrest hk (by omega)
      rw [← e₀, ← e₁, ← e₂, ← e₃]
      exact ⟨a :: b :: c :: bytes, .three a b c hspells, hpadding⟩

end Ltfs.Lib.Base64

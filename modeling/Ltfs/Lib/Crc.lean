import Mathlib.Logic.Function.Iterate

/-!
# Cyclic redundancy checks, least significant bit first

The register holds the remainder of a polynomial division, the coefficient of the
highest power in bit 0; `poly` is the generator in the same order.

* `step`, `steps` — one bit of the division, and several.
* `steps_xor` — the division is linear.
* `steps_split` — what a table of remainders rests on: the low bits decide what is
  added to the rest.
* `byteStep` — the division by one byte of the message.
-/

namespace Ltfs.Lib.Crc

variable {w : ℕ} (poly : BitVec w)

/-- One bit of the division. -/
def step (r : BitVec w) : BitVec w := if r.getLsbD 0 then (r >>> 1) ^^^ poly else r >>> 1

def steps (n : ℕ) (r : BitVec w) : BitVec w := (step poly)^[n] r

/-- One byte of the message. -/
def byteStep (r : BitVec w) (c : UInt8) : BitVec w := steps poly 8 (r ^^^ c.toBitVec.setWidth w)

variable {poly}

theorem xor_xor_cancel (a b p : BitVec w) : (a ^^^ p) ^^^ (b ^^^ p) = a ^^^ b := by
  rw [BitVec.xor_comm b p, BitVec.xor_assoc, ← BitVec.xor_assoc p p b, BitVec.xor_self,
    BitVec.zero_xor]

theorem step_xor (a b : BitVec w) : step poly (a ^^^ b) = step poly a ^^^ step poly b := by
  unfold step
  rw [BitVec.getLsbD_xor, BitVec.ushiftRight_xor_distrib]
  -- the generator is added for one of the two, or twice
  cases a.getLsbD 0 with
  | false =>
    cases b.getLsbD 0 with
    | false => rfl
    | true => exact BitVec.xor_assoc _ _ _
  | true =>
    cases b.getLsbD 0 with
    | false =>
      simp only [Bool.xor_false, if_true, Bool.false_eq_true, if_false]
      rw [BitVec.xor_assoc, BitVec.xor_comm (b >>> 1), BitVec.xor_assoc]
    | true => exact (xor_xor_cancel _ _ _).symm

theorem steps_xor (n : ℕ) (a b : BitVec w) :
    steps poly n (a ^^^ b) = steps poly n a ^^^ steps poly n b := by
  induction n generalizing a b with
  | zero => rfl
  | succ n ih =>
    have hstep := ih (step poly a) (step poly b)
    rw [← step_xor] at hstep
    exact hstep

/-- As long as the low bits are clear the register only moves. -/
theorem steps_of_clear {n : ℕ} {r : BitVec w} (h : ∀ i < n, r.getLsbD i = false) :
    steps poly n r = r >>> n := by
  induction n generalizing r with
  | zero => exact (BitVec.ushiftRight_zero r).symm
  | succ n ih =>
    have hmove : step poly r = r >>> 1 := by
      unfold step
      rw [h 0 (Nat.succ_pos n)]
      rfl
    have hclear : ∀ i < n, (step poly r).getLsbD i = false := by
      intro i hi
      rw [hmove, BitVec.getLsbD_ushiftRight]
      exact h (1 + i) (by omega)
    calc steps poly (n + 1) r = steps poly n (step poly r) := rfl
      _ = (step poly r) >>> n := ih hclear
      _ = r >>> (n + 1) := by rw [hmove, ← BitVec.shiftRight_add, Nat.add_comm]

/-- A register is its high bits and its low ones. -/
theorem split_low (n : ℕ) (r : BitVec w) :
    r = ((r >>> n) <<< n) ^^^ (r.setWidth n).setWidth w := by
  refine BitVec.eq_of_getLsbD_eq fun i hi => ?_
  simp only [BitVec.getLsbD_xor, BitVec.getLsbD_shiftLeft, BitVec.getLsbD_ushiftRight,
    BitVec.getLsbD_setWidth, hi, decide_true, Bool.true_and]
  by_cases hlow : i < n
  · simp [hlow]
  · have hpos : n + (i - n) = i := by omega
    simp [hlow, hpos]

/-- The low bits of the register decide what is added to the rest. -/
theorem steps_split (n : ℕ) (r : BitVec w) :
    steps poly n r = (r >>> n) ^^^ steps poly n ((r.setWidth n).setWidth w) := by
  have hclear : ∀ i < n, ((r >>> n) <<< n).getLsbD i = false := by
    intro i hi
    rw [BitVec.getLsbD_shiftLeft]
    simp [hi]
  have hmove : ((r >>> n) <<< n) >>> n = r >>> n := by
    refine BitVec.eq_of_getLsbD_eq fun i hi => ?_
    simp only [BitVec.getLsbD_shiftLeft, BitVec.getLsbD_ushiftRight]
    by_cases hin : n + i < w
    · simp [hin]
    · simp [hin, BitVec.getLsbD_of_ge r (n + i) (Nat.le_of_not_lt hin)]
  calc steps poly n r
      = steps poly n (((r >>> n) <<< n) ^^^ (r.setWidth n).setWidth w) := by
        rw [← split_low n r]
    _ = (r >>> n) ^^^ steps poly n ((r.setWidth n).setWidth w) := by
        rw [steps_xor, steps_of_clear hclear, hmove]

/-- A byte of the message by way of a table: the entry for the low byte of register
and message is added to the register, which moves by eight bits. -/
theorem byteStep_eq (hw : 8 ≤ w) (r : BitVec w) (c : UInt8) :
    byteStep poly r c =
      (r >>> 8) ^^^ steps poly 8 ((c.toBitVec ^^^ r.setWidth 8).setWidth w) := by
  have hhigh : (r ^^^ c.toBitVec.setWidth w) >>> 8 = r >>> 8 := by
    refine BitVec.eq_of_getLsbD_eq fun i hi => ?_
    simp only [BitVec.getLsbD_ushiftRight, BitVec.getLsbD_xor, BitVec.getLsbD_setWidth]
    rw [BitVec.getLsbD_of_ge c.toBitVec (8 + i) (by omega)]
    simp
  have hlow : (r ^^^ c.toBitVec.setWidth w).setWidth 8 = c.toBitVec ^^^ r.setWidth 8 := by
    rw [BitVec.setWidth_xor, BitVec.setWidth_setWidth_of_le _ hw, BitVec.setWidth_eq,
      BitVec.xor_comm]
  unfold byteStep
  rw [steps_split, hhigh, hlow]

end Ltfs.Lib.Crc

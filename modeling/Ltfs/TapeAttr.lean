import Mathlib.Data.List.TakeWhile
import Ltfs.Error

/-!
# Attributes in the cartridge memory

The volume keeps a copy of some attributes of the cartridge memory: the medium
label, the barcode, the volume lock and the media pool. `update_tape_attribute`
changes the copy first and writes it to the cartridge memory afterwards.

* `CString` — a text in a character array of fixed size.
* `updateTapeAttribute` — the update, with the part taken back on failure.
* `updateTapeAttribute_kept` — which attributes a failed update leaves alone.
-/

namespace Ltfs

/-! ## Texts in character arrays -/

/-- The text up to the first NUL. -/
def cstr (l : List UInt8) : List UInt8 := l.takeWhile (· ≠ 0)

/-- The content of a `char[n + 1]` which ends with a NUL. -/
structure CString (n : ℕ) where
  bytes : List UInt8
  noNul : 0 ∉ bytes
  length_le : bytes.length ≤ n
deriving DecidableEq

theorem CString.ext {n : ℕ} {s t : CString n} (h : s.bytes = t.bytes) : s = t := by
  cases s
  cases t
  cases h
  rfl

theorem cstr_noNul (l : List UInt8) : 0 ∉ cstr l := by
  intro h
  have := List.mem_takeWhile_imp h
  simp at this

theorem cstr_of_noNul {l : List UInt8} (h : 0 ∉ l) : cstr l = l := by
  refine List.takeWhile_eq_self_iff.mpr fun c hc => ?_
  have hne : c ≠ 0 := fun h0 => h (h0 ▸ hc)
  simpa using hne

theorem cstr_eq_self_iff {l : List UInt8} : cstr l = l ↔ 0 ∉ l :=
  ⟨fun h => h ▸ cstr_noNul l, cstr_of_noNul⟩

/-- `strncpy` of `size` bytes into an array filled with NUL. -/
def CString.strncpy (n : ℕ) (src : List UInt8) (size : ℕ) : CString n where
  bytes := (cstr (src.take size)).take n
  noNul := fun h => cstr_noNul _ (List.mem_of_mem_take h)
  length_le := List.length_take_le n _

theorem CString.strncpy_bytes {n : ℕ} {src : List UInt8} (hnul : 0 ∉ src) (hlen : src.length ≤ n) :
    (CString.strncpy n src src.length).bytes = src := by
  unfold CString.strncpy
  simp only [List.take_length, cstr_of_noNul hnul]
  exact List.take_of_length_le hlen

/-- `parse_vol` behind `strncpy`: blanks from the end of the source text on, as far as
the array goes. Where the copy ends before the source does, they stand behind a NUL
and do not count. -/
def CString.parseVol {n : ℕ} (s : CString n) (startLen : ℕ) : CString n where
  bytes := if startLen ≤ s.bytes.length then
      (s.bytes.take startLen ++ List.replicate (n - startLen) 32).take n
    else s.bytes
  noNul := by
    split
    · intro h
      rcases List.mem_append.mp (List.mem_of_mem_take h) with h | h
      · exact s.noNul (List.mem_of_mem_take h)
      · exact absurd (List.eq_of_mem_replicate h) (by decide)
    · exact s.noNul
  length_le := by
    split
    · exact List.length_take_le n _
    · exact s.length_le

/-! ## Updating an attribute -/

/-- `struct tape_attr`, the attributes that may be updated later. -/
structure TapeAttr where
  mediumLabel : CString 160
  barcode : CString 32
  vollock : UInt8
  mediaPool : CString 160
deriving DecidableEq

/-- The attributes `update_tape_attribute` accepts. -/
inductive AttrType where
  | userMediumLabel
  | barcode
  | lockedMam
  | mediaPool
deriving DecidableEq, Repr

/-- What the surroundings of one update answer: `write_attribute` of the backend, the
allocations, and the truncation of the volume name by ICU, which declines a text
that is not UTF-8. -/
structure AttrEnv where
  writeAttribute : ℤ
  strdupOk : Bool
  callocOk : Bool
  asprintfOk : Bool
  truncateSize : List UInt8 → ℕ → Option ℕ

/-- `update_tape_attribute`. `newValue` is the memory the caller's pointer refers to;
`volumeName` is the name in the index, by which a long label is cut. -/
def updateTapeAttribute (env : AttrEnv) (volumeName : List UInt8) (newValue : Option (List UInt8))
    (type : AttrType) (size : ℕ) (t : TapeAttr) : ℤ × TapeAttr :=
  match type with
  | .userMediumLabel =>
    let size := if size > 159 then (env.truncateSize volumeName size).getD 159 else size
    if ! env.strdupOk then (-enomem, t)
    else
      let t' := { t with mediumLabel := CString.strncpy 160 (newValue.getD []) size }
      if env.writeAttribute < 0 then
        (env.writeAttribute, { t' with mediumLabel := t.mediumLabel })
      else (env.writeAttribute, t')
  | .barcode =>
    if size > 32 then (-ltfsLargeXattr, t)
    else if ! env.strdupOk then (-enomem, t)
    else
      let value := newValue.getD []
      let t' := { t with
        barcode := (CString.strncpy 32 value size).parseVol (cstr value).length }
      if env.writeAttribute < 0 then (env.writeAttribute, { t' with barcode := t.barcode })
      else (env.writeAttribute, t')
  | .lockedMam =>
    if size > 1 then (-ltfsLargeXattr, t)
    else (env.writeAttribute, { t with vollock := (newValue.bind List.head?).getD t.vollock })
  | .mediaPool =>
    if size > 160 then (-ltfsLargeXattr, t)
    else (env.writeAttribute, { t with
      mediaPool := CString.strncpy 160 (newValue.getD []) size })

/-- The label and the barcode are taken back when the update fails. -/
theorem updateTapeAttribute_kept {env : AttrEnv} {volumeName : List UInt8}
    {newValue : Option (List UInt8)} {type : AttrType} {size : ℕ} {t : TapeAttr}
    (htype : type = .userMediumLabel ∨ type = .barcode)
    (hret : (updateTapeAttribute env volumeName newValue type size t).1 < 0) :
    (updateTapeAttribute env volumeName newValue type size t).2 = t := by
  rcases htype with rfl | rfl
  · unfold updateTapeAttribute at hret ⊢
    dsimp only at hret ⊢
    by_cases hdup : (! env.strdupOk) = true
    · rw [if_pos hdup]
    · rw [if_neg hdup] at hret ⊢
      by_cases hcm : env.writeAttribute < 0
      · rw [if_pos hcm]
      · rw [if_neg hcm] at hret
        exact absurd hret hcm
  · unfold updateTapeAttribute at hret ⊢
    dsimp only at hret ⊢
    by_cases hsize : size > 32
    · rw [if_pos hsize]
    · rw [if_neg hsize] at hret ⊢
      by_cases hdup : (! env.strdupOk) = true
      · rw [if_pos hdup]
      · rw [if_neg hdup] at hret ⊢
        by_cases hcm : env.writeAttribute < 0
        · rw [if_pos hcm]
        · rw [if_neg hcm] at hret
          exact absurd hret hcm

end Ltfs

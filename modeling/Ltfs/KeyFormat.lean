import Ltfs.Error
import Ltfs.Fs.Base64Decode
import Ltfs.Strtoull
import Mathlib.Data.List.FinRange

/-!
# The key list of the key manager

`key_format_ltfs.c`: data keys and their identifiers come as one text, `DK:DKi` pairs with slashes
between them. The text is checked by one walk over it and decoded by another.

* `getNumOfKeys` — the check; `convertKeys` — the decoding; a pointer into the text is the rest of
  the text.
* `KeyText` — a well-formed pair; `keyListText` — the text of a list of pairs.
* `pairLoop_result` — the walk always ends, and what it has walked over is such a list.
* `setDkList_meets_iff` — the list that is set is the one in the text, except that a short text is
  taken for a list without pairs and that positions have 32 bits.
* `runRequests_ready` — no request leaves keys behind.

The module's message texts, and what happens when memory runs out, are left out.
-/

namespace Ltfs.Kmi

open Fs Lib.Base64

/-! ## Sizes -/

def dkLength : ℕ := 32
def dkiLength : ℕ := 12
def dkiAsciiLength : ℕ := 3
def separatorLength : ℕ := 1

/-- The characters of a data key in base64, without the padding. -/
def dkDigits : ℕ := (dkLength * 8 + 5) / 6

/-- `key_length` -/
def keyLength : ℕ := (dkDigits + 3) / 4 * 4

/-- `keyalias_length` -/
def keyaliasLength : ℕ := dkiAsciiLength + (dkiLength - dkiAsciiLength) * 2

/-! ## The check -/

/-- A byte as a character of the C locale. -/
def chr (c : UInt8) : Char := Char.ofNat c.toNat

/-- `isalnum` -/
def isalnum (c : UInt8) : Bool :=
  (0x30 ≤ c && c ≤ 0x39) || (0x41 ≤ c && c ≤ 0x5A) || (0x61 ≤ c && c ≤ 0x7A)

/-- `isprint` -/
def isprint (c : UInt8) : Bool := 0x20 ≤ c && c ≤ 0x7E

/-- What a pointer and an index read; behind the text stands its terminator. -/
def byteAt (p : List UInt8) (i : ℕ) : UInt8 := p.getD i 0

/-- `is_key`, without its messages. -/
def isKey (key : List UInt8) : Bool :=
  ((List.range dkDigits).all fun i =>
    isalnum (byteAt key i) || byteAt key i == 0x2B || byteAt key i == 0x2F) &&
  (List.range' dkDigits (keyLength - dkDigits)).all fun i => byteAt key i == pad

/-- `is_keyalias`, without its messages. -/
def isKeyalias (keyalias : List UInt8) : Bool :=
  ((List.range dkiAsciiLength).all fun i => isprint (byteAt keyalias i)) &&
  (List.range' dkiAsciiLength ((dkiLength - dkiAsciiLength) * 2)).all fun i =>
    isxdigit (chr (byteAt keyalias i))

/-- An `unsigned int`. -/
def uint (n : ℕ) : ℕ := n % 2 ^ 32

/-- One round of the loop of `get_num_of_keys`: the position behind the pair. -/
def checkPair (dkList : List UInt8) (i numOfKeys : ℕ) : Except ℤ ℕ :=
  -- skip the separator between pairs
  let i := if numOfKeys = 0 then i else uint (i + separatorLength)
  if isKey (dkList.drop i) = false then .error (-ltfsBadArg)
  else
    let i := uint (i + keyLength)
    if byteAt dkList i ≠ 0x3A then .error (-ltfsBadArg)
    else
      let i := uint (i + separatorLength)
      if isKeyalias (dkList.drop i) = false then .error (-ltfsBadArg)
      else .ok (uint (i + keyaliasLength))

/-- The condition of the loop. -/
def morePairs (dkList : List UInt8) (i : ℕ) : Bool :=
  uint (i + separatorLength) + keyLength + separatorLength + keyaliasLength ≤ dkList.length &&
    byteAt dkList i == 0x2F

/-- The loop of `get_num_of_keys`, for a number of rounds: the position where it ends and the number
of pairs. -/
def pairLoop (dkList : List UInt8) : ℕ → ℕ → ℕ → Option (Except ℤ (ℕ × ℕ))
  | 0, _, _ => none
  | rounds + 1, i, numOfKeys =>
    match checkPair dkList i numOfKeys with
    | .error code => some (.error code)
    | .ok i =>
      if morePairs dkList i then pairLoop dkList rounds i (numOfKeys + 1)
      else some (.ok (i, numOfKeys + 1))

/-- `get_num_of_keys`. -/
def getNumOfKeys (dkList : List UInt8) : Option (Except ℤ ℕ) :=
  if keyLength + separatorLength + keyaliasLength ≤ dkList.length then
    (pairLoop dkList (2 ^ 32) 0 0).map fun r => r.bind fun (i, numOfKeys) =>
      if i ≠ dkList.length then .error (-ltfsBadArg) else .ok numOfKeys
  else some (.ok 0)

/-! ## The decoding -/

/-- `struct key` -/
structure Key where
  dk : Vector UInt8 dkLength
  dki : Vector UInt8 dkiLength
deriving DecidableEq, Repr

/-- `convert_key`. A key that does not decode to the right length leaves the zeros in the array. -/
def convertKey (enc : List UInt8) : Vector UInt8 dkLength :=
  match base64Decode (enc.take keyLength) with
  | .ok (size, dec) =>
    if size = dkLength then Vector.ofFn fun i => byteAt dec i else Vector.replicate dkLength 0
  | .error _ => Vector.replicate dkLength 0

/-- Two characters through `strtoul`. -/
def hexByte (c d : UInt8) : UInt8 := UInt8.ofNat (strtoull .hex [chr c, chr d]).1

/-- `convert_keyalias`. -/
def convertKeyalias (asciiAndHex : List UInt8) : Vector UInt8 dkiLength :=
  Vector.ofFn fun i =>
    if i < dkiAsciiLength then byteAt asciiAndHex i
    else
      let j := i - dkiAsciiLength
      hexByte (byteAt asciiAndHex (dkiAsciiLength + j * 2))
        (byteAt asciiAndHex (dkiAsciiLength + j * 2 + 1))

/-- The loop of `set_dk_list`, from an offset on. -/
def convertKeys (dkList : List UInt8) : ℕ → ℕ → List Key
  | 0, _ => []
  | n + 1, offset =>
    let offset' := uint (offset + (keyLength + 1))
    { dk := convertKey (dkList.drop offset), dki := convertKeyalias (dkList.drop offset') } ::
      convertKeys dkList n (uint (offset' + (keyaliasLength + 1)))

/-! ## The interface -/

/-- `enum kfl_state` -/
inductive KflState where
  | uninitialized
  | initialized
  | set
  | cleared
  | destroyed
deriving DecidableEq, Repr

/-- The state of the module and the pairs of `struct key_format_ltfs`. -/
structure KeyFormat where
  state : KflState
  dkList : List Key
deriving DecidableEq, Repr

/-- A list may be set now. -/
def KeyFormat.Ready (s : KeyFormat) : Prop :=
  (s.state = .initialized ∨ s.state = .cleared) ∧ s.dkList = []

/-- `set_dk_list`; without a text there are no pairs. -/
def setDkList (dkList : Option (List UInt8)) (s : KeyFormat) : Option (ℤ × KeyFormat) :=
  if s.state ≠ .initialized ∧ s.state ≠ .cleared then some (-ltfsInvalidSequence, s)
  else
    match dkList with
    | none => some (0, { s with state := .set })
    | some text =>
      (getNumOfKeys text).map fun
        | .error code => (code, s)
        | .ok 0 => (0, { s with state := .set })
        | .ok numOfKeys => (0, { state := .set, dkList := convertKeys text numOfKeys 0 })

/-- What `get_key` leaves behind: the key alias and the key. -/
structure KeyResult where
  ret : ℤ
  keyalias : Option (Vector UInt8 dkiLength)
  key : Option (Vector UInt8 dkLength)
deriving DecidableEq, Repr

/-- The loop of `get_key`. -/
def findKey (keyalias : Vector UInt8 dkiLength) : List Key → Option (Vector UInt8 dkLength)
  | [] => none
  | k :: rest => if keyalias = k.dki then some k.dk else findKey keyalias rest

/-- `get_key`. Without a key alias, the one for formatting is taken, if there is any. -/
def getKey (keyalias : Option (Vector UInt8 dkiLength)) (s : KeyFormat)
    (dkiForFormat : Option (List UInt8)) : KeyResult :=
  match keyalias.or (dkiForFormat.map convertKeyalias) with
  | none => { ret := 0, keyalias := none, key := none }
  | some keyalias =>
    match findKey keyalias s.dkList with
    | none => { ret := -ltfsKeyNotFound, keyalias := some keyalias, key := none }
    | some key => { ret := 0, keyalias := some keyalias, key := some key }

/-- `clear` -/
def clear (s : KeyFormat) : KeyFormat :=
  { state := if s.state = .set then .cleared else s.state, dkList := [] }

/-- `key_format_ltfs_get_key`: the list is set, searched and cleared again. -/
def keyFormatLtfsGetKey (keyalias : Option (Vector UInt8 dkiLength)) (dkList : Option (List UInt8))
    (dkiForFormat : Option (List UInt8)) (s : KeyFormat) : Option (KeyResult × KeyFormat) :=
  (setDkList dkList s).map fun (ret, s) =>
    if ret < 0 then ({ ret, keyalias, key := none }, s)
    else (getKey keyalias s dkiForFormat, clear s)

/-! ## Well-formed lists -/

/-- The text of a data key: a row of digits and one padding character. -/
structure IsDk (text : List UInt8) : Prop where
  length : text.length = keyLength
  digits : ∀ c ∈ text.take dkDigits, (digitValue c).isSome
  padding : text.drop dkDigits = [pad]

/-- The text of an identifier: a printable prefix and a hexadecimal tail. -/
structure IsDki (text : List UInt8) : Prop where
  length : text.length = keyaliasLength
  ascii : ∀ c ∈ text.take dkiAsciiLength, isprint c = true
  binary : ∀ c ∈ text.drop dkiAsciiLength, isxdigit (chr c) = true

/-- A pair in a list. -/
structure KeyText where
  dk : List UInt8
  dki : List UInt8
  isDk : IsDk dk
  isDki : IsDki dki

/-- `DK:DKi` -/
def KeyText.text (p : KeyText) : List UInt8 := p.dk ++ 0x3A :: p.dki

/-- The pairs with slashes between them. -/
def keyListText : List KeyText → List UInt8
  | [] => []
  | [p] => p.text
  | p :: q :: rest => p.text ++ 0x2F :: keyListText (q :: rest)

/-- The bytes of a hexadecimal text. -/
def hexBytes : List UInt8 → List UInt8
  | c :: d :: rest => UInt8.ofNat (xdigitValue (chr c) * 16 + xdigitValue (chr d)) :: hexBytes rest
  | _ => []

/-- The key that a pair stands for. -/
def Denotes (p : KeyText) (k : Key) : Prop :=
  Spells p.dk k.dk.toList ∧
    k.dki.toList = p.dki.take dkiAsciiLength ++ hexBytes (p.dki.drop dkiAsciiLength)

/-! ## Sizes and positions -/

theorem dkDigits_eq : dkDigits = 43 := rfl
theorem keyLength_eq : keyLength = 44 := rfl
theorem keyaliasLength_eq : keyaliasLength = 21 := rfl
theorem dkiAsciiLength_eq : dkiAsciiLength = 3 := rfl
theorem separatorLength_eq : separatorLength = 1 := rfl

theorem KeyText.length_text (p : KeyText) : p.text.length = 66 := by
  rw [KeyText.text, List.length_append, List.length_cons, p.isDk.length, p.isDki.length]
  rfl

theorem length_keyListText (p : KeyText) (rest : List KeyText) :
    (keyListText (p :: rest)).length = 67 * rest.length + 66 := by
  induction rest generalizing p with
  | nil => exact p.length_text
  | cons q rest ih =>
    rw [keyListText, List.length_append, p.length_text, List.length_cons, List.length_cons, ih]
    omega

/-- The bytes that a loop reads one after the other. -/
theorem map_byteAt (text : List UInt8) (m : ℕ) : ∀ n, n + m ≤ text.length →
    (List.range' n m).map (byteAt text) = (text.drop n).take m := by
  induction m with
  | zero => exact fun _ _ => by rw [List.range'_zero, List.map_nil, List.take_zero]
  | succ m ih =>
    intro n h
    have hlt : n < text.length := by omega
    have hread : byteAt text n = text[n] := by
      rw [byteAt, List.getD_eq_getElem?_getD, List.getElem?_eq_getElem hlt, Option.getD_some]
    rw [List.range'_succ, List.map_cons, ih (n + 1) (by omega), List.drop_eq_getElem_cons hlt,
      List.take_succ_cons, hread]

theorem all_byteAt (p : UInt8 → Bool) {text : List UInt8} {n m : ℕ} (h : n + m ≤ text.length) :
    ((List.range' n m).all fun i => p (byteAt text i)) = true ↔
      ∀ c ∈ (text.drop n).take m, p c = true := by
  rw [← map_byteAt text m n h, ← List.all_eq_true, List.all_map]
  rfl

/-! ## The pairs of a text -/

/-- The characters that `is_key` looks for are the digits of base64. -/
theorem isalnum_or_iff (c : UInt8) :
    (isalnum c || c == 0x2B || c == 0x2F) = (digitValue c).isSome := by
  rw [Bool.eq_iff_iff, digitValue_isSome]
  unfold isalnum
  simp only [Bool.or_eq_true, Bool.and_eq_true, decide_eq_true_eq, beq_iff_eq, UInt8.le_iff_toNat_le,
    ← UInt8.toNat_inj, List.mem_append, List.mem_range'_1, List.mem_cons, List.not_mem_nil, or_false,
    UInt8.reduceToNat]
  omega

theorem isKey_iff {text : List UInt8} (h : keyLength ≤ text.length) :
    isKey text = true ↔ IsDk (text.take keyLength) := by
  rw [keyLength_eq] at h
  have hdigits := all_byteAt (fun c => (digitValue c).isSome) (n := 0) (m := dkDigits)
    (show 0 + 43 ≤ text.length by omega)
  have hpadding := all_byteAt (fun c => c == pad) (n := dkDigits) (m := keyLength - dkDigits)
    (show 43 + 1 ≤ text.length by omega)
  have htake : (text.drop dkDigits).take (keyLength - dkDigits)
      = (text.take keyLength).drop dkDigits := by
    rw [List.drop_take]
  have hlast : ((text.take keyLength).drop dkDigits).length = 1 := by
    rw [List.length_drop, List.length_take, keyLength_eq, dkDigits_eq]
    omega
  obtain ⟨last, hlast⟩ := List.length_eq_one_iff.mp hlast
  simp only [isKey, isalnum_or_iff, List.range_eq_range', Bool.and_eq_true, hdigits, hpadding, htake,
    hlast, List.mem_singleton, forall_eq, beq_iff_eq, List.drop_zero]
  constructor
  · rintro ⟨hd, hp⟩
    refine ⟨by rw [List.length_take, keyLength_eq]; omega, ?_, by rw [hlast, hp]⟩
    rw [List.take_take]
    exact hd
  · rintro ⟨-, hd, hp⟩
    rw [List.take_take] at hd
    rw [hlast] at hp
    exact ⟨hd, List.singleton_inj.mp hp⟩

theorem isKeyalias_iff {text : List UInt8} (h : keyaliasLength ≤ text.length) :
    isKeyalias text = true ↔ IsDki (text.take keyaliasLength) := by
  rw [keyaliasLength_eq] at h
  have hascii := all_byteAt isprint (n := 0) (m := dkiAsciiLength)
    (show 0 + 3 ≤ text.length by omega)
  have hbinary := all_byteAt (fun c => isxdigit (chr c)) (n := dkiAsciiLength)
    (m := (dkiLength - dkiAsciiLength) * 2) (show 3 + 18 ≤ text.length by omega)
  have htake : (text.drop dkiAsciiLength).take ((dkiLength - dkiAsciiLength) * 2)
      = (text.take keyaliasLength).drop dkiAsciiLength := by
    rw [List.drop_take]
    rfl
  simp only [isKeyalias, List.range_eq_range', Bool.and_eq_true, hascii, hbinary, htake,
    List.drop_zero]
  constructor
  · rintro ⟨ha, hb⟩
    refine ⟨by rw [List.length_take, keyaliasLength_eq]; omega, ?_, hb⟩
    rw [List.take_take]
    exact ha
  · rintro ⟨-, ha, hb⟩
    rw [List.take_take] at ha
    exact ⟨ha, hb⟩


/-! ## The walk -/

/-- Where the next pair is looked for. -/
def pairStart (i numOfKeys : ℕ) : ℕ := if numOfKeys = 0 then i else uint (i + separatorLength)

theorem uint_of_lt {n : ℕ} (h : n < 2 ^ 32) : uint n = n := Nat.mod_eq_of_lt h

theorem uint_lt (n : ℕ) : uint n < 2 ^ 32 := Nat.mod_lt _ (by decide)

theorem uint_uint_add (n k : ℕ) : uint (uint n + k) = uint (n + k) := Nat.mod_add_mod _ _ _

/-- What a round looks at. -/
theorem checkPair_eq (dkList : List UInt8) (i numOfKeys : ℕ) :
    checkPair dkList i numOfKeys =
      if isKey (dkList.drop (pairStart i numOfKeys)) = true ∧
          byteAt dkList (uint (pairStart i numOfKeys + 44)) = 0x3A ∧
          isKeyalias (dkList.drop (uint (pairStart i numOfKeys + 45))) = true then
        .ok (uint (pairStart i numOfKeys + 66))
      else .error (-ltfsBadArg) := by
  unfold checkPair
  rw [← pairStart]
  dsimp only
  simp only [uint_uint_add, keyLength_eq, separatorLength_eq, keyaliasLength_eq, Nat.add_assoc,
    Nat.reduceAdd]
  cases isKey (dkList.drop (pairStart i numOfKeys)) with
  | false => simp
  | true =>
    by_cases hcolon : byteAt dkList (uint (pairStart i numOfKeys + 44)) = 0x3A
    · cases isKeyalias (dkList.drop (uint (pairStart i numOfKeys + 45))) with
      | false => simp
      | true => simp [hcolon]
    · simp [hcolon]

theorem byteAt_drop (text : List UInt8) (n i : ℕ) : byteAt (text.drop n) i = byteAt text (n + i) := by
  simp only [byteAt, List.getD_eq_getElem?_getD, List.getElem?_drop]

/-- A text that starts with a pair. -/
theorem startsWithPair_iff {text : List UInt8} (h : 66 ≤ text.length) :
    (isKey text = true ∧ byteAt text 44 = 0x3A ∧ isKeyalias (text.drop 45) = true) ↔
      ∃ p : KeyText, text = p.text ++ text.drop 66 := by
  rw [isKey_iff (by rw [keyLength_eq]; omega),
    isKeyalias_iff (by rw [keyaliasLength_eq, List.length_drop]; omega), keyLength_eq,
    keyaliasLength_eq]
  have hlt : 44 < text.length := by omega
  have hcolon : text.drop 44 = byteAt text 44 :: text.drop 45 := by
    rw [List.drop_eq_getElem_cons hlt, byteAt, List.getD_eq_getElem?_getD,
      List.getElem?_eq_getElem hlt, Option.getD_some]
  have halias : text.drop 45 = (text.drop 45).take 21 ++ text.drop 66 := by
    conv_lhs => rw [← List.take_append_drop 21 (text.drop 45), List.drop_drop]
  constructor
  · rintro ⟨hdk, hc, hdki⟩
    refine ⟨⟨text.take 44, (text.drop 45).take 21, hdk, hdki⟩, ?_⟩
    rw [KeyText.text, List.append_assoc, List.cons_append, ← halias, ← hc, ← hcolon,
      List.take_append_drop]
  · rintro ⟨p, hp⟩
    rw [KeyText.text, List.append_assoc, List.cons_append] at hp
    have hdk := p.isDk.length
    have hdki := p.isDki.length
    rw [keyLength_eq] at hdk
    rw [keyaliasLength_eq] at hdki
    have htake : text.take 44 = p.dk := by
      rw [hp, List.take_append_of_le_length (by omega), List.take_of_length_le (by omega)]
    have hdrop : text.drop 44 = 0x3A :: (p.dki ++ text.drop 66) := by
      conv_lhs => rw [hp, List.drop_append_of_le_length (by omega), List.drop_of_length_le (by omega)]
      rfl
    rw [hcolon, List.cons.injEq] at hdrop
    refine ⟨htake ▸ p.isDk, hdrop.1, ?_⟩
    rw [hdrop.2, List.take_append_of_le_length (by omega), List.take_of_length_le (by omega)]
    exact p.isDki

/-- A round takes exactly the pairs. -/
theorem checkPair_eq_of_lt {dkList : List UInt8} {i numOfKeys : ℕ}
    (hend : pairStart i numOfKeys + 66 ≤ dkList.length) (hlen : dkList.length < 2 ^ 32) :
    (checkPair dkList i numOfKeys = .error (-ltfsBadArg) ∧
      ¬ ∃ p : KeyText, dkList.drop (pairStart i numOfKeys)
        = p.text ++ dkList.drop (pairStart i numOfKeys + 66)) ∨
    (checkPair dkList i numOfKeys = .ok (pairStart i numOfKeys + 66) ∧
      ∃ p : KeyText, dkList.drop (pairStart i numOfKeys)
        = p.text ++ dkList.drop (pairStart i numOfKeys + 66)) := by
  have hpair := @startsWithPair_iff (dkList.drop (pairStart i numOfKeys))
    (by rw [List.length_drop]; omega)
  rw [byteAt_drop, List.drop_drop, List.drop_drop] at hpair
  rw [checkPair_eq, uint_of_lt (show _ + 44 < _ by omega), uint_of_lt (show _ + 45 < _ by omega),
    uint_of_lt (show _ + 66 < _ by omega)]
  by_cases h : ∃ p : KeyText, dkList.drop (pairStart i numOfKeys)
      = p.text ++ dkList.drop (pairStart i numOfKeys + 66)
  · rw [if_pos (hpair.mpr h)]
    exact .inr ⟨rfl, h⟩
  · rw [if_neg (fun hc => h (hpair.mp hc))]
    exact .inl ⟨rfl, h⟩

/-- A round of the walk. -/
theorem pairLoop_succ (dkList : List UInt8) (rounds i numOfKeys : ℕ) :
    pairLoop dkList (rounds + 1) i numOfKeys = match checkPair dkList i numOfKeys with
      | .error code => some (.error code)
      | .ok i =>
        if morePairs dkList i then pairLoop dkList rounds i (numOfKeys + 1)
        else some (.ok (i, numOfKeys + 1)) := rfl

/-- If the loop has not ended, it has found a slash behind every pair. The induction is on the
rounds. -/
theorem pairLoop_none {dkList : List UInt8} (rounds : ℕ) : ∀ {i numOfKeys : ℕ},
    pairLoop dkList rounds i numOfKeys = none →
    ∀ r < rounds, byteAt dkList (uint (pairStart i numOfKeys + 66 + 67 * r)) = 0x2F := by
  induction rounds with
  | zero => exact fun _ r hr => absurd hr (Nat.not_lt_zero r)
  | succ rounds ih =>
    intro i numOfKeys h r hr
    rw [pairLoop_succ, checkPair_eq] at h
    split at h
    · cases h
    · rename_i j hj
      split at hj
      · rw [Except.ok.injEq] at hj
        split at h
        · rename_i hmore
          rw [morePairs, Bool.and_eq_true, beq_iff_eq] at hmore
          cases r with
          | zero => rw [Nat.mul_zero, Nat.add_zero, hj, hmore.2]
          | succ r =>
            have hrest := ih h r (by omega)
            rw [pairStart, if_neg (Nat.succ_ne_zero _), ← hj, uint_uint_add, separatorLength_eq,
              Nat.add_assoc (uint _), uint_uint_add] at hrest
            rw [← hrest]
            congr 2
            omega
        · cases h
      · cases hj

/-- The walk ends: it would come to the colon of the first pair in the end. -/
theorem pairLoop_ends (dkList : List UInt8) : ∃ r, pairLoop dkList (2 ^ 32) 0 0 = some r := by
  rw [← Option.isSome_iff_exists, ← Option.ne_none_iff_isSome]
  intro h
  have hslash := pairLoop_none (2 ^ 32) h 1474391758 (by decide)
  have hfirst := h
  rw [show 2 ^ 32 = 4294967295 + 1 from rfl, pairLoop_succ, checkPair_eq] at hfirst
  split at hfirst
  · cases hfirst
  · rename_i j hj
    split at hj
    · rename_i hpair
      have hcolon := hpair.2.1
      rw [show uint (pairStart 0 0 + 66 + 67 * 1474391758) = uint (pairStart 0 0 + 44) from rfl,
        hcolon] at hslash
      exact absurd hslash (by decide)
    · cases hj


theorem pairLoop_error {dkList : List UInt8} (rounds : ℕ) : ∀ {i numOfKeys : ℕ} {code : ℤ},
    pairLoop dkList rounds i numOfKeys = some (.error code) → code = -ltfsBadArg := by
  induction rounds with
  | zero => exact fun h => (nomatch h)
  | succ rounds ih =>
    intro i numOfKeys code h
    rw [pairLoop_succ, checkPair_eq] at h
    split at h
    · rename_i hj
      split at hj
      · cases hj
      · rw [Option.some.injEq, Except.error.injEq] at h
        rw [Except.error.injEq] at hj
        rw [← h, ← hj]
    · split at h
      · exact ih h
      · cases h

/-- The position in a text of 2^32 bytes and more is never its end. -/
theorem pairLoop_lt {dkList : List UInt8} (rounds : ℕ) : ∀ {i numOfKeys j n : ℕ},
    pairLoop dkList rounds i numOfKeys = some (.ok (j, n)) → j < 2 ^ 32 := by
  induction rounds with
  | zero => exact fun h => (nomatch h)
  | succ rounds ih =>
    intro i numOfKeys j n h
    rw [pairLoop_succ, checkPair_eq] at h
    split at h
    · cases h
    · rename_i k hk
      split at hk
      · split at h
        · exact ih h
        · rw [Except.ok.injEq] at hk
          simp only [Option.some.injEq, Except.ok.injEq, Prod.mk.injEq] at h
          rw [← h.1, ← hk]
          exact uint_lt _
      · cases hk

theorem morePairs_iff {dkList : List UInt8} {i : ℕ} (hlen : dkList.length < 2 ^ 32) :
    morePairs dkList i = true ↔ i + 67 ≤ dkList.length ∧ byteAt dkList i = 0x2F := by
  have hcond : uint (i + 1) + 44 + 1 + 21 ≤ dkList.length ∧ byteAt dkList i = 0x2F ↔
      i + 67 ≤ dkList.length ∧ byteAt dkList i = 0x2F := by
    by_cases hend : i + 1 < 2 ^ 32
    · rw [uint_of_lt hend, Nat.add_assoc, Nat.add_assoc, Nat.add_assoc]
    · -- the text ends here
      have hbyte : byteAt dkList i = 0 := by
        rw [byteAt, List.getD_eq_default _ _ (by omega)]
      rw [hbyte]
      exact iff_of_false (fun h => absurd h.2 (by decide)) (fun h => absurd h.2 (by decide))
  rw [morePairs, Bool.and_eq_true, decide_eq_true_eq, beq_iff_eq, keyLength_eq, separatorLength_eq,
    keyaliasLength_eq]
  exact hcond

/-- What the loop has walked over is a list of pairs. -/
theorem pairLoop_sound {dkList : List UInt8} (hlen : dkList.length < 2 ^ 32) (rounds : ℕ) :
    ∀ {i numOfKeys j n : ℕ}, pairStart i numOfKeys + 66 ≤ dkList.length →
    pairLoop dkList rounds i numOfKeys = some (.ok (j, n)) →
    ∃ p rest, dkList.drop (pairStart i numOfKeys) = keyListText (p :: rest) ++ dkList.drop j ∧
      n = numOfKeys + rest.length + 1 ∧ j ≤ dkList.length := by
  induction rounds with
  | zero => exact fun _ h => (nomatch h)
  | succ rounds ih =>
    intro i numOfKeys j n hend h
    rw [pairLoop_succ] at h
    rcases checkPair_eq_of_lt hend hlen with ⟨hcheck, -⟩ | ⟨hcheck, p, hp⟩
    · rw [hcheck] at h
      cases h
    · rw [hcheck] at h
      dsimp only at h
      split at h
      · rename_i hmore
        rw [morePairs_iff hlen] at hmore
        obtain ⟨hfit, hslash⟩ := hmore
        have hstart : pairStart (pairStart i numOfKeys + 66) (numOfKeys + 1)
            = pairStart i numOfKeys + 67 := by
          rw [pairStart, if_neg (Nat.succ_ne_zero _), separatorLength_eq, uint_of_lt (by omega)]
        obtain ⟨q, rest, hrest, hn, hj⟩ := ih (by rw [hstart]; omega) h
        refine ⟨p, q :: rest, ?_, by rw [List.length_cons]; omega, hj⟩
        -- the slash stands between the pair and the rest
        have hlt : pairStart i numOfKeys + 66 < dkList.length := by omega
        have hdrop : dkList.drop (pairStart i numOfKeys + 66)
            = 0x2F :: dkList.drop (pairStart i numOfKeys + 67) := by
          rw [List.drop_eq_getElem_cons hlt, ← hslash, byteAt, List.getD_eq_getElem?_getD,
            List.getElem?_eq_getElem hlt, Option.getD_some]
        rw [hp, hdrop, ← hstart, hrest, keyListText, List.append_assoc, List.cons_append]
      · simp only [Option.some.injEq, Except.ok.injEq, Prod.mk.injEq] at h
        obtain ⟨rfl, rfl⟩ := h
        exact ⟨p, [], hp, rfl, hend⟩

/-- And it walks over all pairs of a list. The induction is on the pairs. -/
theorem pairLoop_complete {dkList : List UInt8} (hlen : dkList.length < 2 ^ 32)
    (rest : List KeyText) : ∀ {p : KeyText} {rounds i numOfKeys : ℕ}, rest.length < rounds →
    dkList.drop (pairStart i numOfKeys) = keyListText (p :: rest) →
    pairLoop dkList rounds i numOfKeys
      = some (.ok (dkList.length, numOfKeys + rest.length + 1)) := by
  induction rest with
  | nil =>
    intro p rounds i numOfKeys hrounds h
    obtain ⟨rounds, rfl⟩ := Nat.exists_eq_add_one_of_ne_zero (Nat.ne_of_gt hrounds)
    have hl := congrArg List.length h
    rw [List.length_drop, length_keyListText, List.length_nil] at hl
    have hend : dkList.drop (pairStart i numOfKeys + 66) = [] :=
      List.drop_eq_nil_iff.mpr (by omega)
    rcases @checkPair_eq_of_lt dkList i numOfKeys (by omega) hlen
      with ⟨-, hno⟩ | ⟨hcheck, -⟩
    · refine absurd ⟨p, ?_⟩ hno
      rw [hend, List.append_nil, h]
      rfl
    · have hmore : ¬ morePairs dkList (pairStart i numOfKeys + 66) = true := by
        rw [morePairs_iff hlen]
        omega
      rw [pairLoop_succ, hcheck]
      dsimp only
      rw [if_neg hmore, List.length_nil]
      congr 3
      omega
  | cons q rest ih =>
    intro p rounds i numOfKeys hrounds h
    obtain ⟨rounds, rfl⟩ := Nat.exists_eq_add_one_of_ne_zero (Nat.ne_of_gt (Nat.zero_lt_of_lt hrounds))
    have hl := congrArg List.length h
    rw [List.length_drop, length_keyListText, List.length_cons] at hl
    rw [List.length_cons] at hrounds
    rw [keyListText] at h
    have hslash : dkList.drop (pairStart i numOfKeys + 66) = 0x2F :: keyListText (q :: rest) := by
      rw [← List.drop_drop, h, List.drop_append_of_le_length (by rw [p.length_text]),
        List.drop_of_length_le (by rw [p.length_text]), List.nil_append]
    have hstart : pairStart (pairStart i numOfKeys + 66) (numOfKeys + 1)
        = pairStart i numOfKeys + 67 := by
      rw [pairStart, if_neg (Nat.succ_ne_zero _), separatorLength_eq, uint_of_lt (by omega)]
    have hnext : dkList.drop (pairStart i numOfKeys + 67) = keyListText (q :: rest) := by
      rw [show pairStart i numOfKeys + 67 = pairStart i numOfKeys + 66 + 1 from rfl,
        ← List.drop_drop, hslash]
      rfl
    rcases @checkPair_eq_of_lt dkList i numOfKeys (by omega) hlen
      with ⟨-, hno⟩ | ⟨hcheck, -⟩
    · refine absurd ⟨p, ?_⟩ hno
      rw [hslash, h]
    · have hmore : morePairs dkList (pairStart i numOfKeys + 66) = true := by
        rw [morePairs_iff hlen]
        refine ⟨by omega, ?_⟩
        have hbyte := byteAt_drop dkList (pairStart i numOfKeys + 66) 0
        rw [hslash, Nat.add_zero] at hbyte
        exact hbyte.symm
      rw [pairLoop_succ, hcheck]
      dsimp only
      rw [if_pos hmore, ih (by omega) (by rw [hstart]; exact hnext), List.length_cons]
      congr 3
      omega


/-- What the check makes of a text: a short one has no pairs, and of the others exactly the lists
are taken, as far as positions go. -/
theorem getNumOfKeys_cases (dkList : List UInt8) :
    (dkList.length < 66 ∧ getNumOfKeys dkList = some (.ok 0)) ∨
    (66 ≤ dkList.length ∧ getNumOfKeys dkList = some (.error (-ltfsBadArg)) ∧
      (dkList.length < 2 ^ 32 → ∀ p rest, keyListText (p :: rest) ≠ dkList)) ∨
    (dkList.length < 2 ^ 32 ∧ ∃ p rest, keyListText (p :: rest) = dkList ∧
      getNumOfKeys dkList = some (.ok (rest.length + 1))) := by
  unfold getNumOfKeys
  rw [keyLength_eq, separatorLength_eq, keyaliasLength_eq]
  by_cases hshort : dkList.length < 66
  · rw [if_neg (by omega)]
    exact .inl ⟨hshort, rfl⟩
  · obtain ⟨r, hr⟩ := pairLoop_ends dkList
    rw [if_pos (by omega), hr, Option.map_some]
    right
    -- a list would have been walked over to its end
    have hlist : dkList.length < 2 ^ 32 → ∀ p rest, keyListText (p :: rest) = dkList →
        r = .ok (dkList.length, rest.length + 1) := by
      rintro hlen p rest rfl
      have hlength := length_keyListText p rest
      have hwalk := @pairLoop_complete _ hlen rest p (2 ^ 32) 0 0
        (show rest.length < 2 ^ 32 by omega) rfl
      rw [hr, Option.some.injEq] at hwalk
      rw [hwalk, Nat.zero_add]
    rcases r with code | ⟨j, n⟩
    · rw [pairLoop_error _ hr] at hlist ⊢
      refine .inl ⟨by omega, rfl, fun hlen p rest hp => ?_⟩
      exact nomatch hlist hlen p rest hp
    · by_cases hj : j = dkList.length
      · have hlen : dkList.length < 2 ^ 32 := hj ▸ pairLoop_lt _ hr
        have hend : pairStart 0 0 + 66 ≤ dkList.length := by
          rw [pairStart, if_pos rfl]
          omega
        obtain ⟨p, rest, hrest, hn, -⟩ := pairLoop_sound hlen _ hend hr
        rw [hj, List.drop_length, List.append_nil] at hrest
        refine .inr ⟨hlen, p, rest, hrest.symm, ?_⟩
        simp only [Except.bind, hj, ne_eq, not_true_eq_false, if_false, hn, Nat.zero_add]
      · refine .inl ⟨by omega, ?_, fun hlen p rest hp => ?_⟩
        · simp only [Except.bind, ne_eq, hj, not_false_eq_true, if_true]
        · have hwalk := hlist hlen p rest hp
          rw [Except.ok.injEq, Prod.mk.injEq] at hwalk
          exact hj hwalk.1

/-! ## The keys -/

/-- Two hexadecimal digits. -/
theorem hexByte_eq {c d : UInt8} (hc : isxdigit (chr c) = true) (hd : isxdigit (chr d) = true) :
    hexByte c d = UInt8.ofNat (xdigitValue (chr c) * 16 + xdigitValue (chr d)) := by
  have hspelling : Spelling .hex [] [] [] [chr c, chr d] := by
    refine ⟨fun c hc => (nomatch hc), .inl rfl, .inl rfl, ?_, List.cons_ne_nil _ _⟩
    rw [List.forall_mem_cons, List.forall_mem_singleton]
    exact ⟨hc, hd⟩
  have hscan := hspelling.scanNumber
  have hvalue : Radix.hex.value [chr c, chr d] = xdigitValue (chr c) * 16 + xdigitValue (chr d) := by
    simp only [Radix.value, List.foldl_cons, List.foldl_nil, Radix.base]
    omega
  have hlt : ∀ n < 256, xdigitValue (Char.ofNat n) < 256 := by decide +kernel
  have h1 := hlt c.toNat c.toNat_lt
  have h2 := hlt d.toNat d.toNat_lt
  rw [if_neg (by simp), hvalue] at hscan
  rw [hexByte, strtoull]
  simp only [List.nil_append] at hscan
  rw [hscan]
  dsimp only
  rw [toUllong_natCast]
  rw [chr, chr]
  omega


theorem ofFn_val {α : Type} (f : ℕ → α) (n : ℕ) :
    (List.ofFn fun i : Fin n => f i) = (List.range n).map f := by
  rw [List.ofFn_eq_map, ← List.map_coe_finRange_eq_range, List.map_map]
  rfl

/-- Reading a row of bytes gives the row. -/
theorem toList_ofFn_byteAt {n : ℕ} {bytes : List UInt8} (h : bytes.length = n) :
    (Vector.ofFn fun i : Fin n => byteAt bytes i).toList = bytes := by
  have hmap := map_byteAt bytes n 0 (by omega)
  rw [List.drop_zero, List.take_of_length_le (by omega), ← List.range_eq_range'] at hmap
  rw [Vector.toList_ofFn, ofFn_val, hmap]

/-- The text of a data key decodes to a key. -/
theorem spells_convertKey {text : List UInt8} (h : IsDk text) (tail : List UInt8) :
    Spells text (convertKey (text ++ tail)).toList := by
  have hlen := h.length
  have hdk : text = text.take dkDigits ++ List.replicate 1 pad := by
    conv_lhs => rw [← List.take_append_drop dkDigits text, h.padding]
    rfl
  have hdigits : ∀ c ∈ text.take dkDigits, ∃ n < 64, c = digit n := by
    intro c hc
    obtain ⟨n, hn⟩ := Option.isSome_iff_exists.mp (h.digits c hc)
    obtain ⟨hlt, hd⟩ := digit_of_digitValue hn
    exact ⟨n, hlt, hd.symm⟩
  have hcount : (text.take dkDigits).length + 1 = 4 * 11 := by
    rw [List.length_take, hlen]
    rfl
  obtain ⟨bytes, hspells, hpadding⟩ := exists_spells 11 hdigits (by omega) hcount
  rw [← hdk] at hspells
  obtain ⟨m, hm, hbytes⟩ := hspells.length
  have hsize : bytes.length = dkLength := by
    rw [keyLength_eq] at hlen
    rw [hpadding] at hbytes
    show _ = 32
    omega
  -- there are no blanks in the text
  have hplain : Plain (text.take dkDigits) := fun c hc => .inr (hdigits c hc)
  have hblank : ∀ c ∈ text, base64Blank c = false := by
    intro c hc
    rw [hdk, List.mem_append] at hc
    rcases hc with hc | hc
    · obtain ⟨n, hn, rfl⟩ := hdigits c hc
      exact base64Blank_digit n hn
    · rw [List.eq_of_mem_replicate hc, base64Blank_pad]
  have hdecode : base64Decode text = .ok (dkLength, bytes) := by
    rw [base64Decode_eq_ok_iff, significant_eq_self hblank]
    refine ⟨?_, fun c hc => hblank c ((List.dropWhile_sublist _).mem hc), hspells, hsize.symm⟩
    rintro rfl
    cases hlen
  have hkey : convertKey (text ++ tail) = Vector.ofFn fun i : Fin dkLength => byteAt bytes i := by
    rw [convertKey, List.take_append_of_le_length (by rw [hlen]),
      List.take_of_length_le (by rw [hlen]), hdecode]
    exact if_pos rfl
  rw [hkey, toList_ofFn_byteAt hsize]
  exact hspells

/-- The bytes of a hexadecimal text are those that its pairs of characters are converted to. -/
theorem hexBytes_eq (k : ℕ) : ∀ {text : List UInt8}, text.length = k * 2 →
    (∀ c ∈ text, isxdigit (chr c) = true) →
    hexBytes text
      = (List.range k).map fun j => hexByte (byteAt text (j * 2)) (byteAt text (j * 2 + 1)) := by
  induction k with
  | zero =>
    intro text hlen _
    rw [List.length_eq_zero_iff.mp (show text.length = 0 by omega)]
    rfl
  | succ k ih =>
    intro text hlen hhex
    rcases text with _ | ⟨c, _ | ⟨d, rest⟩⟩
    · simp only [List.length_nil] at hlen
      omega
    · simp only [List.length_cons, List.length_nil] at hlen
      omega
    · simp only [List.length_cons] at hlen
      rw [List.forall_mem_cons, List.forall_mem_cons] at hhex
      rw [hexBytes, List.range_succ_eq_map, List.map_cons, List.map_map, ih (by omega) hhex.2.2,
        ← hexByte_eq hhex.1 hhex.2.1]
      have hshift : ∀ j, byteAt (c :: d :: rest) (j.succ * 2) = byteAt rest (j * 2) ∧
          byteAt (c :: d :: rest) (j.succ * 2 + 1) = byteAt rest (j * 2 + 1) := by
        intro j
        rw [Nat.succ_mul]
        exact ⟨rfl, rfl⟩
      congr 1
      refine List.map_congr_left fun j _ => ?_
      rw [Function.comp, (hshift j).1, (hshift j).2]

theorem byteAt_append {text tail : List UInt8} {i : ℕ} (h : i < text.length) :
    byteAt (text ++ tail) i = byteAt text i := by
  rw [byteAt, byteAt, List.getD_append _ _ _ _ h]

/-- The text of an identifier is converted to its prefix and the bytes of its tail. -/
theorem toList_convertKeyalias {text : List UInt8} (h : IsDki text) (tail : List UInt8) :
    (convertKeyalias (text ++ tail)).toList
      = text.take dkiAsciiLength ++ hexBytes (text.drop dkiAsciiLength) := by
  have hlen := h.length
  rw [keyaliasLength_eq] at hlen
  have hprefix := map_byteAt text dkiAsciiLength 0 (show 0 + 3 ≤ text.length by omega)
  have htail := @hexBytes_eq 9 (text.drop dkiAsciiLength)
    (by rw [List.length_drop, hlen]; rfl) h.binary
  rw [List.drop_zero, ← List.range_eq_range'] at hprefix
  simp only [byteAt_drop] at htail
  have hread : ∀ i < 21, byteAt (text ++ tail) i = byteAt text i :=
    fun i hi => byteAt_append (by omega)
  rw [← hprefix, htail, convertKeyalias, Vector.toList_ofFn,
    ofFn_val (fun i => if i < dkiAsciiLength then byteAt (text ++ tail) i
      else hexByte (byteAt (text ++ tail) (dkiAsciiLength + (i - dkiAsciiLength) * 2))
        (byteAt (text ++ tail) (dkiAsciiLength + (i - dkiAsciiLength) * 2 + 1))),
    show dkiLength = dkiAsciiLength + 9 from rfl, List.range_add, List.map_append, List.map_map]
  congr 1
  · refine List.map_congr_left fun i hi => ?_
    rw [List.mem_range] at hi
    rw [if_pos hi, hread i (by rw [dkiAsciiLength_eq] at hi; omega)]
  · refine List.map_congr_left fun j hj => ?_
    rw [List.mem_range] at hj
    rw [Function.comp, if_neg (by omega), Nat.add_sub_cancel_left, dkiAsciiLength_eq,
      hread _ (by omega), hread _ (by omega)]
    rfl


/-- The text of a pair becomes the key that the pair stands for. -/
theorem denotes_convert (p : KeyText) (tail : List UInt8) :
    Denotes p ⟨convertKey (p.text ++ tail),
      convertKeyalias ((p.text ++ tail).drop (keyLength + 1))⟩ := by
  have hdrop : (p.text ++ tail).drop (keyLength + 1) = p.dki ++ tail := by
    rw [KeyText.text, List.append_assoc, ← p.isDk.length, List.drop_length_add_append]
    rfl
  constructor
  · dsimp only
    rw [KeyText.text, List.append_assoc]
    exact spells_convertKey p.isDk _
  · dsimp only
    rw [hdrop]
    exact toList_convertKeyalias p.isDki tail

/-- The decoding walks over the pairs that the check has counted. -/
theorem convertKeys_denotes {dkList : List UInt8} (hlen : dkList.length < 2 ^ 32)
    (rest : List KeyText) : ∀ {p : KeyText} {offset : ℕ},
    dkList.drop offset = keyListText (p :: rest) →
    List.Forall₂ Denotes (p :: rest) (convertKeys dkList (rest.length + 1) offset) := by
  induction rest with
  | nil =>
    intro p offset h
    have hl := congrArg List.length h
    rw [List.length_drop, length_keyListText, List.length_nil] at hl
    have hkey := denotes_convert p []
    rw [List.append_nil, ← show keyListText [p] = p.text from rfl, ← h, List.drop_drop] at hkey
    rw [List.length_nil, convertKeys, uint_of_lt (by rw [keyLength_eq]; omega)]
    exact .cons hkey .nil
  | cons q rest ih =>
    intro p offset h
    have hl := congrArg List.length h
    rw [List.length_drop, length_keyListText, List.length_cons] at hl
    have hkey := denotes_convert p (0x2F :: keyListText (q :: rest))
    rw [← show keyListText (p :: q :: rest) = p.text ++ 0x2F :: keyListText (q :: rest) from rfl,
      ← h, List.drop_drop] at hkey
    have hnext : dkList.drop (offset + (keyLength + 1) + (keyaliasLength + 1))
        = keyListText (q :: rest) := by
      rw [Nat.add_assoc, ← List.drop_drop, h, keyListText, List.drop_append, p.length_text,
        List.drop_of_length_le (by rw [p.length_text]; decide)]
      rfl
    rw [List.length_cons, convertKeys, uint_of_lt (by rw [keyLength_eq]; omega)]
    refine .cons hkey ?_
    rw [uint_of_lt (by rw [keyLength_eq, keyaliasLength_eq]; omega)]
    exact ih hnext

/-- The first pair with an alias is found. -/
theorem findKey_append {before after : List Key} {k : Key} (h : ∀ k' ∈ before, k'.dki ≠ k.dki) :
    findKey k.dki (before ++ k :: after) = some k.dk := by
  induction before with
  | nil => exact if_pos rfl
  | cons k' before ih =>
    rw [List.forall_mem_cons] at h
    rw [List.cons_append, findKey, if_neg (Ne.symm h.1), ih h.2]

theorem findKey_eq_none {keyalias : Vector UInt8 dkiLength} {keys : List Key}
    (h : ∀ k ∈ keys, k.dki ≠ keyalias) : findKey keyalias keys = none := by
  induction keys with
  | nil => rfl
  | cons k keys ih =>
    rw [List.forall_mem_cons] at h
    rw [findKey, if_neg (Ne.symm h.1), ih h.2]

/-- `get_key` returns the key of the first pair whose alias matches, and fails if there is none. -/
structure GetsFirst (s : KeyFormat) : Prop where
  found : ∀ before k after dkiForFormat, s.dkList = before ++ k :: after →
    (∀ k' ∈ before, k'.dki ≠ k.dki) →
    getKey (some k.dki) s dkiForFormat = { ret := 0, keyalias := some k.dki, key := some k.dk }
  missing : ∀ keyalias dkiForFormat, (∀ k ∈ s.dkList, k.dki ≠ keyalias) →
    getKey (some keyalias) s dkiForFormat
      = { ret := -ltfsKeyNotFound, keyalias := some keyalias, key := none }

theorem getsFirst (s : KeyFormat) : GetsFirst s := by
  constructor
  · intro before k after dkiForFormat hs hbefore
    rw [getKey, Option.some_or]
    dsimp only
    rw [hs, findKey_append hbefore]
  · intro keyalias dkiForFormat hs
    rw [getKey, Option.some_or]
    dsimp only
    rw [findKey_eq_none hs]

/-- What a key list is to mean: the pairs of a well-formed text, in their order; and every other text
is rejected. -/
structure SetsExactly (text : List UInt8) (s : KeyFormat) : Prop where
  accepts : ∀ p rest, keyListText (p :: rest) = text →
    ∃ keys, setDkList (some text) s = some (0, { state := .set, dkList := keys }) ∧
      List.Forall₂ Denotes (p :: rest) keys ∧ GetsFirst { state := .set, dkList := keys }
  rejects : (∀ p rest, keyListText (p :: rest) ≠ text) →
    ∃ code < 0, setDkList (some text) s = some (code, s)

/-- The list that is set is the one in the text, unless the text is too short for a pair, which is
taken for a list without pairs, or is a list of 2^32 bytes or more, whose positions are not
counted. -/
theorem setDkList_meets_iff (text : List UInt8) (s : KeyFormat) (hready : s.Ready) :
    SetsExactly text s ↔
      66 ≤ text.length ∧ (text.length < 2 ^ 32 ∨ ∀ p rest, keyListText (p :: rest) ≠ text) := by
  have hstate : ¬ (s.state ≠ .initialized ∧ s.state ≠ .cleared) := by
    rintro ⟨hinit, hcleared⟩
    rcases hready.1 with h | h
    · exact hinit h
    · exact hcleared h
  have hneg : -ltfsBadArg < 0 := by decide
  rcases getNumOfKeys_cases text with ⟨hshort, hnum⟩ | ⟨hlong, hnum, hno⟩ | ⟨hlen, p, rest, hp, hnum⟩
  · -- too short: accepted without pairs
    refine iff_of_false ?_ (by omega)
    intro hmeets
    obtain ⟨code, hcode, hset⟩ := hmeets.rejects fun p rest hp => by
      have hlength := length_keyListText p rest
      rw [hp] at hlength
      omega
    rw [setDkList, if_neg hstate, hnum] at hset
    simp only [Option.map_some, Option.some.injEq, Prod.mk.injEq] at hset
    omega
  · have hset : setDkList (some text) s = some (-ltfsBadArg, s) := by
      rw [setDkList, if_neg hstate, hnum]
      rfl
    constructor
    · intro hmeets
      refine ⟨hlong, ?_⟩
      -- a list that is rejected is no list that the text should have been
      refine .inr fun p rest hp => ?_
      obtain ⟨keys, haccept, -⟩ := hmeets.accepts p rest hp
      rw [hset] at haccept
      simp only [Option.some.injEq, Prod.mk.injEq] at haccept
      exact absurd haccept.1 (by decide)
    · rintro ⟨-, hwell⟩
      have hnone : ∀ p rest, keyListText (p :: rest) ≠ text := by
        rcases hwell with hlen | hnone
        · exact hno hlen
        · exact hnone
      exact ⟨fun p rest hp => absurd hp (hnone p rest), fun _ => ⟨_, hneg, hset⟩⟩
  · have hlength := length_keyListText p rest
    rw [hp] at hlength
    refine iff_of_true ?_ ⟨by omega, .inl hlen⟩
    have hset : setDkList (some text) s
        = some (0, { state := .set, dkList := convertKeys text (rest.length + 1) 0 }) := by
      rw [setDkList, if_neg hstate, hnum]
      rfl
    refine ⟨fun q rest' hq => ?_, fun hnone => absurd hp (hnone p rest)⟩
    have hsame := length_keyListText q rest'
    have hcount : rest'.length = rest.length := by
      rw [hq] at hsame
      omega
    refine ⟨_, hset, ?_, getsFirst _⟩
    rw [← hcount]
    exact convertKeys_denotes hlen rest' hq.symm


/-- `setDkList_meets_iff` for a list of one pair. -/
theorem setDkList_meets_pair :
    SetsExactly (List.replicate 43 0x41 ++ 0x3D :: 0x3A :: (List.replicate 3 0x61 ++
      List.replicate 18 0x30)) { state := .initialized, dkList := [] } :=
  (setDkList_meets_iff _ _ ⟨.inl rfl, rfl⟩).mpr ⟨by decide, .inl (by decide)⟩

/-- The text "A" is accepted, although it holds no pair. -/
theorem setDkList_short :
    ¬ ∀ (text : List UInt8) (s : KeyFormat), text ≠ [] → s.Ready → SetsExactly text s := by
  intro h
  have hmeets := h [0x41] { state := .initialized, dkList := [] } (by decide) ⟨.inl rfl, rfl⟩
  obtain ⟨code, hcode, hset⟩ := hmeets.rejects fun p rest hp => by
    have hlength := length_keyListText p rest
    rw [hp, List.length_singleton] at hlength
    omega
  have haccept : setDkList (some [0x41]) { state := .initialized, dkList := [] }
      = some (0, { state := .set, dkList := [] }) := by decide +kernel
  rw [haccept] at hset
  simp only [Option.some.injEq, Prod.mk.injEq] at hset
  omega

/-! ## Requests -/

/-- What `set_dk_list` leaves behind when a list may be set. -/
theorem setDkList_ready {s : KeyFormat} (h : s.Ready) (dkList : Option (List UInt8)) :
    ∃ ret s', setDkList dkList s = some (ret, s') ∧
      (ret < 0 ∧ s' = s ∨ ret = 0 ∧ s'.state = .set) := by
  have hstate : ¬ (s.state ≠ .initialized ∧ s.state ≠ .cleared) := by
    rintro ⟨hinit, hcleared⟩
    rcases h.1 with h | h
    · exact hinit h
    · exact hcleared h
  unfold setDkList
  rw [if_neg hstate]
  cases dkList with
  | none => exact ⟨_, _, rfl, .inr ⟨rfl, rfl⟩⟩
  | some text =>
    dsimp only
    rcases getNumOfKeys_cases text with ⟨-, hnum⟩ | ⟨-, hnum, -⟩ | ⟨-, p, rest, -, hnum⟩
    · rw [hnum]
      exact ⟨_, _, rfl, .inr ⟨rfl, rfl⟩⟩
    · rw [hnum]
      exact ⟨_, _, rfl, .inl ⟨by decide, rfl⟩⟩
    · rw [hnum]
      exact ⟨_, _, rfl, .inr ⟨rfl, rfl⟩⟩

/-- Whatever a request asks for, it returns, and the next one finds no keys of it. -/
theorem keyFormatLtfsGetKey_ready {s : KeyFormat} (h : s.Ready)
    (keyalias : Option (Vector UInt8 dkiLength)) (dkList dkiForFormat : Option (List UInt8)) :
    ∃ r s', keyFormatLtfsGetKey keyalias dkList dkiForFormat s = some (r, s') ∧ s'.Ready := by
  obtain ⟨ret, s', hset, ⟨hret, rfl⟩ | ⟨rfl, hs'⟩⟩ := setDkList_ready h dkList
  · rw [keyFormatLtfsGetKey, hset, Option.map_some]
    dsimp only
    rw [if_pos hret]
    exact ⟨_, _, rfl, h⟩
  · rw [keyFormatLtfsGetKey, hset, Option.map_some]
    dsimp only
    rw [if_neg (lt_irrefl 0)]
    exact ⟨_, _, rfl, .inr (if_pos hs'), rfl⟩

/-- The arguments of `key_format_ltfs_get_key`. -/
structure Request where
  keyalias : Option (Vector UInt8 dkiLength)
  dkList : Option (List UInt8)
  dkiForFormat : Option (List UInt8)

/-- One request after the other. -/
def runRequests : List Request → KeyFormat → Option (List KeyResult × KeyFormat)
  | [], s => some ([], s)
  | q :: rest, s =>
    (keyFormatLtfsGetKey q.keyalias q.dkList q.dkiForFormat s).bind fun (r, s) =>
      (runRequests rest s).map fun (rs, s) => (r :: rs, s)

/-- All requests of a run return, and none of them leaves keys behind. -/
theorem runRequests_ready (requests : List Request) : ∀ {s : KeyFormat}, s.Ready →
    ∃ rs s', runRequests requests s = some (rs, s') ∧ rs.length = requests.length ∧ s'.Ready := by
  induction requests with
  | nil => exact fun {s} h => ⟨[], s, rfl, rfl, h⟩
  | cons q rest ih =>
    intro s h
    obtain ⟨r, s₁, hkey, hs₁⟩ := keyFormatLtfsGetKey_ready h q.keyalias q.dkList q.dkiForFormat
    obtain ⟨rs, s₂, hrun, hlen, hs₂⟩ := ih hs₁
    refine ⟨r :: rs, s₂, ?_, by rw [List.length_cons, hlen, List.length_cons], hs₂⟩
    rw [runRequests, hkey, Option.bind_some]
    dsimp only
    rw [hrun]
    rfl

end Ltfs.Kmi

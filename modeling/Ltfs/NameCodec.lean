import Mathlib.Data.List.Basic
import Mathlib.Tactic.Tauto
import Ltfs.Error
import Ltfs.Lib.Utf8

/-!
# Names in the index

An index stores every name, symbolic link target and attribute key as a
*nametype* element: the bytes as they are, or percent-encoded under the
attribute `percentencoded`. `xml_writer_libltfs.c` encodes, `xml_reader_libltfs.c`
decodes, and `pathname.c` decides what a name may contain.

* `encodeEntryName`, `decodeEntryName` — the two directions of the codec.
* `writeNametype`, `parseNametype` — an element written and read back.
* `entry_name_round_trip` — a valid file name survives, and two names never
  share a written form.
* `nametype_round_trip_iff` — which link targets and attribute keys survive.

A C string is the list of its bytes before the terminator. libxml2 is taken to
return the text of an element as it was written.
-/

namespace Ltfs.NameCodec

open Ltfs.Lib

/-! ## Encoder -/

/-- The characters `encode_entry_name` copies as they are: printable ASCII
without space, `%` and `:`. -/
def plainChars : List UInt8 :=
  ("!\"#$&`'()*+,-./0123456789;<=>?@ABCDEFGHIJKLMNOPQRSTUVWXYZ" ++
    "[\\]^_`abcdefghijklmnopqrstuvwxyz\x7b|\x7d~").toList.map fun c => UInt8.ofNat c.toNat

/-- One upper-case hexadecimal digit, as `%X` prints it. -/
def hexDigit (n : UInt8) : UInt8 := if n < 10 then 0x30 + n else 0x37 + n

/-- `%` and the two digits of `%02X`. -/
def percentHex (b : UInt8) : List UInt8 := [0x25, hexDigit (b / 16), hexDigit (b % 16)]

/-- `encode_entry_name`. -/
def encodeEntryName : List UInt8 → Except ℤ (List UInt8)
  | [] => .ok []
  | b :: rest =>
    match Utf8.next (b :: rest) with
    | none => .error (-ltfsIcuError)
    | some (_, n) => do
      let encoded ← encodeEntryName (rest.drop (n - 1))
      if b ∈ plainChars then
        -- encode is not needed
        return b :: encoded
      else
        return ((b :: rest).take n).flatMap percentHex ++ encoded
termination_by name => name.length
decreasing_by simp only [List.length_drop, List.length_cons]; omega

/-! ## Decoder -/

/-- The value of a digit in base 16. -/
def digitValue (c : UInt8) : Option ℕ :=
  if 0x30 ≤ c && c ≤ 0x39 then some (c.toNat - 0x30)
  else if 0x41 ≤ c && c ≤ 0x46 then some (c.toNat - 0x37)
  else if 0x61 ≤ c && c ≤ 0x66 then some (c.toNat - 0x57)
  else none

/-- The number in front of the first byte that is no digit. -/
def hexValue (acc : ℕ) : List UInt8 → ℕ
  | [] => acc
  | c :: rest =>
    match digitValue c with
    | some d => hexValue (16 * acc + d) rest
    | none => acc

/-- `strtol(buf, NULL, 16)` on a buffer of two characters: white space, a sign,
digits. There is no room for a `0x` in front of a digit. -/
def strtol16 (buf : List UInt8) : ℤ :=
  match buf.dropWhile fun c => c == 0x20 || (0x09 ≤ c && c ≤ 0x0D) with
  | 0x2D :: digits => -hexValue 0 digits
  | 0x2B :: digits => hexValue 0 digits
  | digits => hexValue 0 digits

/-- Allow '/' and US (0x1f) but replace to '_' for supporting bad manner writer. -/
def replaced (c : UInt8) : UInt8 := if c == 0x2F || c == 0x1F then 0x5F else c

/-- The bytes two characters behind a `%` decode to. '/', US and NUL are
reverted to the percent encoded string. -/
def decodedPair (c c1 : UInt8) : List UInt8 :=
  let v := UInt8.ofInt (strtol16 [c, c1])
  if v == 0x2F || v == 0x1F || v == 0x00 then [0x25, c, replaced c1] else [replaced v]

/-- The loop of `decode_entry_name`; `encoded` is its flag. -/
def decodeLoop : Bool → List UInt8 → List UInt8
  | _, [] => []
  -- the flag is set with two bytes to go, so it is clear at the last one
  | _, [c] => [replaced c]
  | encoded, c :: c1 :: rest =>
    if c == 0x25 && rest ≠ [] then decodeLoop true (c1 :: rest)
    else if encoded then decodedPair c c1 ++ decodeLoop false rest
    else replaced c :: decodeLoop false (c1 :: rest)

/-- `decode_entry_name`. -/
def decodeEntryName (name : List UInt8) : List UInt8 := decodeLoop false name

/-! ## What a name may contain -/

/-- `_pathname_valid_in_xml`. -/
def pathnameValidInXml (c : ℕ) : Bool :=
  !(c == 0 || c == 0x1f || (0xd800 ≤ c && c ≤ 0xdfff) || c == 0xfffe || c == 0xffff)

/-- `_pathname_validate`. -/
def pathnameValidate (allowSlash : Bool) : List UInt8 → ℤ
  | [] => 0
  | b :: rest =>
    match Utf8.next (b :: rest) with
    | none => -ltfsIcuError
    | some (c, n) =>
      if !pathnameValidInXml c || (!allowSlash && c == 0x2F) then -ltfsInvalidPath
      else pathnameValidate allowSlash (rest.drop (n - 1))
termination_by name => name.length
decreasing_by simp only [List.length_drop, List.length_cons]; omega

/-- `pathname_strlen`: the bytes that start a character. -/
def pathnameStrlen (name : List UInt8) : ℕ :=
  name.countP fun b => b &&& 0x80 == 0 || b &&& 0xC0 == 0xC0

/-- `LTFS_FILENAME_MAX`. -/
def ltfsFilenameMax : ℕ := 255

/-- `pathname_validate_file`. -/
def pathnameValidateFile (name : List UInt8) : ℤ :=
  if ltfsFilenameMax < pathnameStrlen name then -ltfsNametoolong
  else pathnameValidate false name

/-- `pathname_validate_target`. -/
def pathnameValidateTarget (name : List UInt8) : ℤ := pathnameValidate true name

/-- `fs_is_percent_encode_required`. -/
def fsIsPercentEncodeRequired (name : List UInt8) : Bool :=
  name.any fun c => c == 0x3A || (c ≤ 0x1F && c != 0x09 && c != 0x0A && c != 0x0D)

/-! ## The nametype element -/

/-- `struct ltfs_name`. -/
structure LtfsName where
  percentEncode : Bool
  name : List UInt8
deriving DecidableEq, Repr

/-- `fs_set_nametype`. -/
def fsSetNametype (str : List UInt8) : LtfsName :=
  { percentEncode := fsIsPercentEncodeRequired str, name := str }

/-- A nametype element: the attribute `percentencoded="true"` and the text. -/
structure Nametype where
  percentencoded : Bool
  text : List UInt8
deriving DecidableEq, Repr

/-- `_xml_write_nametype`. The result of `encode_entry_name` is not looked at,
but without a string `xmlTextWriterWriteString` fails. -/
def writeNametype (n : LtfsName) : Except ℤ Nametype :=
  if n.percentEncode then
    match encodeEntryName n.name with
    | .ok encodedName => .ok { percentencoded := true, text := encodedName }
    | .error _ => .error (-1)
  else
    .ok { percentencoded := false, text := n.name }

/-- The name an element stands for, before it is normalised and checked. -/
def decodedName (e : Nametype) : List UInt8 :=
  if e.percentencoded then decodeEntryName e.text else e.text

section Normalization

-- `pathname_normalize`: NFC by ICU, which is not part of the source
variable (normalize : List UInt8 → Except ℤ (List UInt8))

/-- `xml_parse_filename` and `xml_parse_target`, up to the check they make. -/
def xmlParseChecked (validate : List UInt8 → ℤ) (value : List UInt8) :
    Except ℤ (List UInt8) := do
  let outVal ← normalize value
  if validate outVal < 0 then throw (validate outVal)
  return outVal

/-- `xml_parse_filename`. -/
def xmlParseFilename (value : List UInt8) : Except ℤ (List UInt8) :=
  xmlParseChecked normalize pathnameValidateFile value

/-- `xml_parse_target`. -/
def xmlParseTarget (value : List UInt8) : Except ℤ (List UInt8) :=
  xmlParseChecked normalize pathnameValidateTarget value

/-- `_xml_parse_nametype`. -/
def parseNametype (target : Bool) (e : Nametype) : Except ℤ LtfsName := do
  if e.text = [] then throw (-ltfsXmlEmpty)
  let name ←
    if target then xmlParseTarget normalize (decodedName e)
    else xmlParseFilename normalize (decodedName e)
  return { percentEncode := e.percentencoded, name := name }

/-- A string as it comes back from the index it was written to. -/
def reread (target : Bool) (str : List UInt8) : Except ℤ LtfsName :=
  writeNametype (fsSetNametype str) >>= parseNametype normalize target

/-- `pathname_format` with validation, in a UTF-8 locale. -/
def pathnameFormat (name : List UInt8) (allowSlash : Bool) : Except ℤ (List UInt8) := do
  let newName ← normalize name
  if !allowSlash && ltfsFilenameMax < pathnameStrlen newName then throw (-ltfsNametoolong)
  if pathnameValidate allowSlash newName < 0 then throw (pathnameValidate allowSlash newName)
  return newName

/-- `"user."` -/
def userPrefix : List UInt8 := [0x75, 0x73, 0x65, 0x72, 0x2E]

/-- `xattr_strip_name`. -/
def xattrStripName (name : List UInt8) : Option (List UInt8) :=
  if userPrefix.isPrefixOf name then some (name.drop 5) else none

/-- The attribute key `ltfs_fsops_setxattr` makes of the name it is given. -/
def xattrKey (name : List UInt8) : Except ℤ (List UInt8) := do
  let newName ← pathnameFormat normalize name false
  match xattrStripName newName with
  | none => throw (-ltfsXattrNamespace)
  | some newNameStrip =>
    if pathnameValidateFile newNameStrip < 0 then throw (pathnameValidateFile newNameStrip)
    return newNameStrip

end Normalization

/-! ## Validation -/

theorem pathnameValidate_cons {allowSlash : Bool} {b : UInt8} {rest : List UInt8}
    (h : pathnameValidate allowSlash (b :: rest) = 0) :
    ∃ c n, Utf8.next (b :: rest) = some (c, n) ∧ pathnameValidInXml c = true ∧
      (allowSlash = false → c ≠ 0x2F) ∧ pathnameValidate allowSlash (rest.drop (n - 1)) = 0 := by
  rw [pathnameValidate] at h
  split at h
  · exact absurd h (by decide)
  · rename_i c n hnext
    split_ifs at h with hc
    · exact absurd h (show ¬ -ltfsInvalidPath = 0 by decide)
    · simp only [Bool.or_eq_true, Bool.not_eq_true', Bool.and_eq_true, beq_iff_eq, not_or,
        Bool.not_eq_false] at hc
      exact ⟨c, n, hnext, hc.1, fun hs => by simpa [hs] using hc.2, h⟩

/-- A code point `_pathname_valid_in_xml` accepts is neither NUL nor US. -/
theorem pathnameValidInXml_ne {c : ℕ} (h : pathnameValidInXml c = true) : c ≠ 0 ∧ c ≠ 0x1f := by
  constructor
  · rintro rfl
    exact absurd h (by decide)
  · rintro rfl
    exact absurd h (by decide)

/-- A string is the bytes of its first character and the rest. -/
theorem take_append_next {b : UInt8} {rest : List UInt8} {c n : ℕ}
    (h : Utf8.next (b :: rest) = some (c, n)) :
    b :: rest = (b :: rest).take n ++ rest.drop (n - 1) := by
  obtain ⟨m, rfl⟩ : ∃ m, n = m + 1 := ⟨n - 1, by have := Utf8.next_pos h; omega⟩
  simp

/-- The bytes of a valid name: no NUL, no US, and no slash unless allowed. -/
theorem mem_of_pathnameValidate {allowSlash : Bool} {name : List UInt8}
    (h : pathnameValidate allowSlash name = 0) :
    ∀ b ∈ name, b ≠ 0 ∧ b ≠ 0x1f ∧ (allowSlash = false → b ≠ 0x2F) := by
  induction name using Utf8.suffix_induction with
  | nil => simp
  | cons a rest ih =>
    obtain ⟨c, n, hnext, hxml, hslash, hrest⟩ := pathnameValidate_cons h
    obtain ⟨hnul, hus⟩ := pathnameValidInXml_ne hxml
    intro b hb
    rw [take_append_next hnext, List.mem_append] at hb
    rcases hb with hb | hb
    · -- a byte of the first character is its code point or 0x80 and above
      by_cases hlt : b < 0x80
      · have hc := Utf8.next_mem_ascii hnext hb hlt
        subst hc
        refine ⟨?_, ?_, fun hs => ?_⟩
        · rintro rfl
          exact hnul rfl
        · rintro rfl
          exact hus rfl
        · rintro rfl
          exact hslash hs rfl
      · refine ⟨?_, ?_, fun _ => ?_⟩
        · rintro rfl
          exact hlt (by decide)
        · rintro rfl
          exact hlt (by decide)
        · rintro rfl
          exact hlt (by decide)
    · exact ih _ hrest b hb

theorem pathnameValidateFile_eq_zero {name : List UInt8} (h : pathnameValidateFile name = 0) :
    pathnameValidate false name = 0 := by
  unfold pathnameValidateFile at h
  split_ifs at h
  · exact absurd h (by decide)
  · exact h

/-! ## The codec -/

/-- What the encoder makes of one byte. -/
def encodedByte (b : UInt8) : List UInt8 := if b ∈ plainChars then [b] else percentHex b

/-- The copied characters: none of those the decoder treats in its own way, and the slash. -/
theorem plainChars_slash : (∀ b ∈ plainChars, b < 0x80 ∧ b ≠ 0x25) ∧ (0x2F : UInt8) ∈ plainChars := by
  decide +kernel

/-- A copied character is none of those the decoder treats in its own way. -/
theorem plainChars_spec : ∀ b ∈ plainChars, b < 0x80 ∧ b ≠ 0x25 := plainChars_slash.1

/-- A statement about a byte, checked on all 256 of them. -/
theorem forall_byte {P : UInt8 → Prop} (h : ∀ n < 256, P (UInt8.ofNat n)) (b : UInt8) : P b := by
  have hb := h b.toNat b.toNat_lt
  rwa [UInt8.ofNat_toNat] at hb

/-- The two digits of `%02X`, of which the first one is no `%`. -/
theorem hexDigit_spec : ∀ b : UInt8,
    UInt8.ofInt (strtol16 [hexDigit (b / 16), hexDigit (b % 16)]) = b ∧ hexDigit (b / 16) ≠ 0x25 :=
  forall_byte (by decide +kernel)

/-- The two digits `%02X` prints are read back by `strtol`. -/
theorem strtol16_hexDigit (b : UInt8) :
    UInt8.ofInt (strtol16 [hexDigit (b / 16), hexDigit (b % 16)]) = b := (hexDigit_spec b).1

theorem hexDigit_ne_percent (b : UInt8) : hexDigit (b / 16) ≠ 0x25 := (hexDigit_spec b).2

/-- On a valid name the encoder works byte by byte. -/
theorem encodeEntryName_eq {allowSlash : Bool} {name : List UInt8}
    (h : pathnameValidate allowSlash name = 0) :
    encodeEntryName name = .ok (name.flatMap encodedByte) := by
  induction name using Utf8.suffix_induction with
  | nil => simp [encodeEntryName]
  | cons a rest ih =>
    obtain ⟨c, n, hnext, -, -, hrest⟩ := pathnameValidate_cons h
    rw [encodeEntryName, hnext]
    simp only [ih _ hrest]
    by_cases ha : a ∈ plainChars
    · -- a copied byte is a character of its own
      obtain ⟨-, rfl⟩ := Utf8.next_ascii hnext (plainChars_spec a ha).1
      simp [ha, encodedByte]
    · have hbytes : ∀ b ∈ (a :: rest).take n, b ∉ plainChars := by
        intro b hb hplain
        by_cases hlt : a < 0x80
        · obtain ⟨-, rfl⟩ := Utf8.next_ascii hnext hlt
          obtain rfl : b = a := by simpa using hb
          exact ha hplain
        · exact UInt8.not_lt.mpr (Utf8.next_multi hnext hlt b hb) (plainChars_spec b hplain).1
      have htake : ((a :: rest).take n).flatMap percentHex =
          ((a :: rest).take n).flatMap encodedByte :=
        List.flatMap_congr fun b hb => by simp [encodedByte, hbytes b hb]
      conv_rhs => rw [take_append_next hnext, List.flatMap_append]
      simp only [ha, htake]
      rfl

/-- The decoder on what the encoder makes of one byte. -/
theorem decodeLoop_encodedByte {b : UInt8} (rest : List UInt8) (h0 : b ≠ 0) (hus : b ≠ 0x1f) :
    decodeLoop false (encodedByte b ++ rest) = replaced b :: decodeLoop false rest := by
  unfold encodedByte
  split_ifs with hplain
  · have hb : b ≠ 0x25 := (plainChars_spec b hplain).2
    cases rest with
    | nil => simp [decodeLoop]
    | cons c rest => simp [decodeLoop, hb]
  · -- the slash is copied, so no encoded byte is reverted
    have hslash : b ≠ 0x2F := by
      rintro rfl
      exact hplain plainChars_slash.2
    have hpair : decodedPair (hexDigit (b / 16)) (hexDigit (b % 16)) = [replaced b] := by
      simp [decodedPair, strtol16_hexDigit, h0, hus, hslash]
    simp [percentHex, decodeLoop, hexDigit_ne_percent, hpair]

/-- Decoding an encoded name changes nothing but slashes. -/
theorem decodeEntryName_flatMap {name : List UInt8} (h : ∀ b ∈ name, b ≠ 0 ∧ b ≠ 0x1f) :
    decodeEntryName (name.flatMap encodedByte) = name.map replaced := by
  unfold decodeEntryName
  induction name with
  | nil => rfl
  | cons b rest ih =>
    rw [List.forall_mem_cons] at h
    rw [List.flatMap_cons, decodeLoop_encodedByte _ h.1.1 h.1.2, ih h.2, List.map_cons]

theorem replaced_eq {b : UInt8} (hus : b ≠ 0x1f) (hslash : b ≠ 0x2F) : replaced b = b := by
  simp [replaced, hus, hslash]

/-! ## Round trips -/

/-- The element a valid string is written as. -/
theorem writeNametype_eq {allowSlash : Bool} {str : List UInt8}
    (h : pathnameValidate allowSlash str = 0) :
    writeNametype (fsSetNametype str) =
      .ok { percentencoded := fsIsPercentEncodeRequired str
            text := if fsIsPercentEncodeRequired str then str.flatMap encodedByte else str } := by
  unfold writeNametype fsSetNametype
  cases hreq : fsIsPercentEncodeRequired str with
  | false => rfl
  | true => simp [encodeEntryName_eq h]

/-- What is read back: the string, its slashes replaced if it was encoded. -/
theorem decodedName_eq {allowSlash : Bool} {str : List UInt8} {e : Nametype}
    (h : pathnameValidate allowSlash str = 0) (hw : writeNametype (fsSetNametype str) = .ok e) :
    decodedName e = if fsIsPercentEncodeRequired str then str.map replaced else str := by
  rw [writeNametype_eq h] at hw
  cases hw
  unfold decodedName
  split_ifs
  · exact decodeEntryName_flatMap fun b hb =>
      ⟨(mem_of_pathnameValidate h b hb).1, (mem_of_pathnameValidate h b hb).2.1⟩
  · rfl

/-- A string without a slash, or one that is not encoded, survives the codec. -/
theorem decodedName_eq_self {allowSlash : Bool} {str : List UInt8} {e : Nametype}
    (h : pathnameValidate allowSlash str = 0)
    (henc : ¬ (fsIsPercentEncodeRequired str = true ∧ 0x2F ∈ str))
    (hw : writeNametype (fsSetNametype str) = .ok e) : decodedName e = str := by
  rw [decodedName_eq h hw]
  split_ifs with hreq
  · refine (List.map_congr_left fun b hb => ?_).trans (List.map_id' str)
    refine replaced_eq (mem_of_pathnameValidate h b hb).2.1 ?_
    rintro rfl
    exact henc ⟨hreq, hb⟩
  · rfl

/-- A name `pathname_validate_file` accepts is written, encoded exactly when it
has to be, read back byte for byte, and shares its element with no other name. -/
theorem entry_name_round_trip (name : List UInt8) (h : pathnameValidateFile name = 0) :
    ∃ e, writeNametype (fsSetNametype name) = .ok e ∧
      e.percentencoded = fsIsPercentEncodeRequired name ∧ decodedName e = name ∧
      ∀ other, pathnameValidateFile other = 0 → other ≠ name →
        writeNametype (fsSetNametype other) ≠ .ok e := by
  have back : ∀ str e, pathnameValidateFile str = 0 →
      writeNametype (fsSetNametype str) = .ok e → decodedName e = str := by
    intro str e hstr hw
    have hvalid := pathnameValidateFile_eq_zero hstr
    refine decodedName_eq_self hvalid (fun henc => ?_) hw
    exact (mem_of_pathnameValidate hvalid _ henc.2).2.2 rfl rfl
  have hwrite := writeNametype_eq (pathnameValidateFile_eq_zero h)
  refine ⟨_, hwrite, rfl, back name _ h hwrite, fun other hother hne hw => ?_⟩
  -- one element is read back in one way
  exact hne ((back other _ hother hw).symm.trans (back name _ h hwrite))

/-- The name `a:b%é`, which is written percent-encoded. -/
theorem entry_name_round_trip_colon :
    ∃ e, writeNametype (fsSetNametype [0x61, 0x3A, 0x62, 0x25, 0xC3, 0xA9]) = .ok e ∧
      e.percentencoded = fsIsPercentEncodeRequired [0x61, 0x3A, 0x62, 0x25, 0xC3, 0xA9] ∧
      decodedName e = [0x61, 0x3A, 0x62, 0x25, 0xC3, 0xA9] ∧
      ∀ other, pathnameValidateFile other = 0 → other ≠ [0x61, 0x3A, 0x62, 0x25, 0xC3, 0xA9] →
        writeNametype (fsSetNametype other) ≠ .ok e :=
  entry_name_round_trip _ (by decide +kernel)

/-! ## Link targets and attribute keys -/

theorem pathnameValidate_nonpos (allowSlash : Bool) (name : List UInt8) :
    pathnameValidate allowSlash name ≤ 0 := by
  induction name using Utf8.suffix_induction with
  | nil => simp [pathnameValidate]
  | cons a rest ih =>
    rw [pathnameValidate]
    split
    · decide
    · split_ifs
      · decide
      · exact ih _

/-- When reading an element as a target succeeds. -/
theorem parseNametype_target_iff {normalize : List UInt8 → Except ℤ (List UInt8)} {e : Nametype}
    {str : List UInt8} :
    (parseNametype normalize true e).map LtfsName.name = .ok str ↔
      e.text ≠ [] ∧ normalize (decodedName e) = .ok str ∧ pathnameValidateTarget str = 0 := by
  unfold parseNametype xmlParseTarget xmlParseChecked
  by_cases htext : e.text = []
  · simp [htext, throw, throwThe, MonadExceptOf.throw, bind, Except.bind, Except.map]
  · cases hnorm : normalize (decodedName e) with
    | error code => simp [htext, bind, Except.bind, Except.map]
    | ok out =>
      by_cases hvalid : pathnameValidateTarget out < 0
      · have hne : out = str → ¬ pathnameValidateTarget str = 0 := by
          rintro rfl
          omega
        simpa [htext, hvalid, throw, throwThe, MonadExceptOf.throw, bind, Except.bind, Except.map,
          pure, Except.pure] using hne
      · have hzero : out = str → pathnameValidateTarget str = 0 := by
          rintro rfl
          have hle := pathnameValidate_nonpos true out
          unfold pathnameValidateTarget at hvalid ⊢
          omega
        simpa [htext, hvalid, bind, Except.bind, Except.map, pure, Except.pure] using hzero

/-- The written form of a valid string is empty only for the empty string. -/
theorem text_eq_nil_iff {allowSlash : Bool} {str : List UInt8} {e : Nametype}
    (h : pathnameValidate allowSlash str = 0) (hw : writeNametype (fsSetNametype str) = .ok e) :
    e.text = [] ↔ str = [] := by
  rw [writeNametype_eq h] at hw
  cases hw
  cases str with
  | nil => simp
  | cons b rest =>
    have hb : encodedByte b ≠ [] := by
      unfold encodedByte percentHex
      split_ifs <;> simp
    split_ifs <;> simp [hb]

/-- A string that comes back went through the writer. -/
theorem reread_eq_ok {normalize : List UInt8 → Except ℤ (List UInt8)} {str : List UInt8} :
    (reread normalize true str).map LtfsName.name = .ok str ↔
      ∃ e, writeNametype (fsSetNametype str) = .ok e ∧
        (parseNametype normalize true e).map LtfsName.name = .ok str := by
  unfold reread
  cases writeNametype (fsSetNametype str) with
  | error code => simp [bind, Except.bind, Except.map]
  | ok e => simp [bind, Except.bind]

/-- Which strings survive as a link target. Normalisation makes no slash of
anything else. -/
theorem reread_target_iff {normalize : List UInt8 → Except ℤ (List UInt8)}
    (hslash : ∀ s s', normalize s = .ok s' → 0x2F ∈ s' → 0x2F ∈ s) (str : List UInt8) :
    (reread normalize true str).map LtfsName.name = .ok str ↔
      str ≠ [] ∧ pathnameValidateTarget str = 0 ∧ normalize str = .ok str ∧
        ¬ (fsIsPercentEncodeRequired str = true ∧ 0x2F ∈ str) := by
  rw [reread_eq_ok]
  constructor
  · rintro ⟨e, hw, hparse⟩
    obtain ⟨htext, hnorm, hvalid⟩ := parseNametype_target_iff.mp hparse
    have hname := decodedName_eq hvalid hw
    have henc : ¬ (fsIsPercentEncodeRequired str = true ∧ 0x2F ∈ str) := by
      rintro ⟨hreq, hmem⟩
      -- the decoder leaves no slash, and normalising brings none back
      rw [hname, if_pos hreq] at hnorm
      obtain ⟨b, -, hb⟩ := List.mem_map.mp (hslash _ _ hnorm hmem)
      unfold replaced at hb
      split_ifs at hb with hcase
      · exact absurd hb (by decide)
      · subst hb
        exact hcase (by decide)
    refine ⟨(text_eq_nil_iff hvalid hw).not.mp htext, hvalid, ?_, henc⟩
    rwa [decodedName_eq_self hvalid henc hw] at hnorm
  · rintro ⟨hne, hvalid, hnorm, henc⟩
    have hw := writeNametype_eq hvalid
    refine ⟨_, hw, parseNametype_target_iff.mpr ⟨?_, ?_, hvalid⟩⟩
    · exact (text_eq_nil_iff hvalid hw).not.mpr hne
    · rwa [decodedName_eq_self hvalid henc hw]

/-- What is valid as a file name is valid as a target. -/
theorem pathnameValidate_mono {name : List UInt8} (h : pathnameValidate false name = 0) :
    pathnameValidate true name = 0 := by
  induction name using Utf8.suffix_induction with
  | nil => simp [pathnameValidate]
  | cons a rest ih =>
    obtain ⟨c, n, hnext, hxml, -, hrest⟩ := pathnameValidate_cons h
    rw [pathnameValidate, hnext]
    simpa [hxml] using ih _ hrest

theorem pathnameFormat_ok {normalize : List UInt8 → Except ℤ (List UInt8)} {name out : List UInt8}
    {allowSlash : Bool} (h : pathnameFormat normalize name allowSlash = .ok out) :
    normalize name = .ok out := by
  unfold pathnameFormat at h
  cases hnorm : normalize name with
  | error code => simp [hnorm, bind, Except.bind] at h
  | ok newName =>
    simp only [hnorm, bind, Except.bind, throw, throwThe, MonadExceptOf.throw] at h
    split_ifs at h
    simpa [pure, Except.pure] using h

theorem xattrStripName_eq_some {name key : List UInt8} (h : xattrStripName name = some key) :
    name = userPrefix ++ key := by
  unfold xattrStripName at h
  split_ifs at h with hpre
  obtain ⟨rest, rfl⟩ := List.isPrefixOf_iff_prefix.mp hpre
  cases h
  rfl

/-- A key the attribute layer accepts: valid, without a slash, and normalised. -/
theorem xattrKey_spec {normalize : List UInt8 → Except ℤ (List UInt8)}
    (hstrip : ∀ s key, normalize s = .ok (userPrefix ++ key) → normalize key = .ok key)
    {name key : List UInt8} (h : xattrKey normalize name = .ok key) :
    pathnameValidate false key = 0 ∧ normalize key = .ok key := by
  unfold xattrKey at h
  cases hformat : pathnameFormat normalize name false with
  | error code => simp [hformat, bind, Except.bind] at h
  | ok newName =>
    cases hkey : xattrStripName newName with
    | none => simp [hformat, hkey, bind, Except.bind, throw, throwThe, MonadExceptOf.throw] at h
    | some strip =>
      simp only [hformat, hkey, bind, Except.bind, throw, throwThe, MonadExceptOf.throw] at h
      split_ifs at h with hneg
      obtain rfl : strip = key := by simpa [pure, Except.pure] using h
      constructor
      · -- the code is 0 or negative, and it is not negative
        have hle := pathnameValidate_nonpos false strip
        unfold pathnameValidateFile at hneg
        split_ifs at hneg with hlen
        · exact absurd (show -ltfsNametoolong < 0 by decide) hneg
        · omega
      · rw [xattrStripName_eq_some hkey] at hformat
        exact hstrip _ _ (pathnameFormat_ok hformat)

/-- **Link targets and attribute keys in the index.** A target comes back
exactly when it is nonempty, valid and normalised, and has no slash if it has
to be encoded; a key the attribute layer accepts comes back unless it is empty.
Normalising makes no slash, and a part of a normalised string is normalised. -/
theorem nametype_round_trip_iff (normalize : List UInt8 → Except ℤ (List UInt8))
    (hslash : ∀ s s', normalize s = .ok s' → 0x2F ∈ s' → 0x2F ∈ s)
    (hstrip : ∀ s key, normalize s = .ok (userPrefix ++ key) → normalize key = .ok key)
    (target name key : List UInt8) (hkey : xattrKey normalize name = .ok key) :
    ((reread normalize true target).map LtfsName.name = .ok target ↔
      target ≠ [] ∧ pathnameValidateTarget target = 0 ∧ normalize target = .ok target ∧
        ¬ (fsIsPercentEncodeRequired target = true ∧ 0x2F ∈ target)) ∧
    ((reread normalize true key).map LtfsName.name = .ok key ↔ key ≠ []) := by
  obtain ⟨hvalid, hnorm⟩ := xattrKey_spec hstrip hkey
  constructor
  · exact reread_target_iff hslash target
  · rw [reread_target_iff hslash]
    constructor
    · rintro ⟨hne, -⟩
      exact hne
    · intro hne
      refine ⟨hne, pathnameValidate_mono hvalid, hnorm, fun henc => ?_⟩
      exact (mem_of_pathnameValidate hvalid _ henc.2).2.2 rfl rfl

/-- The target `a/b` and the attribute `user.k:x`: ASCII, left alone by NFC. -/
theorem nametype_round_trip_iff_ascii :
    ((reread .ok true [0x61, 0x2F, 0x62]).map LtfsName.name = .ok [0x61, 0x2F, 0x62] ↔
      ([0x61, 0x2F, 0x62] : List UInt8) ≠ [] ∧ pathnameValidateTarget [0x61, 0x2F, 0x62] = 0 ∧
        (Except.ok [0x61, 0x2F, 0x62] : Except ℤ (List UInt8)) = .ok [0x61, 0x2F, 0x62] ∧
        ¬ (fsIsPercentEncodeRequired [0x61, 0x2F, 0x62] = true ∧
          (0x2F : UInt8) ∈ [0x61, 0x2F, 0x62])) ∧
    ((reread .ok true [0x6B, 0x3A, 0x78]).map LtfsName.name = .ok [0x6B, 0x3A, 0x78] ↔
      ([0x6B, 0x3A, 0x78] : List UInt8) ≠ []) :=
  nametype_round_trip_iff .ok
    (fun s s' h hmem => by
      cases h
      exact hmem)
    (fun _ _ _ => rfl) _ (userPrefix ++ [0x6B, 0x3A, 0x78]) [0x6B, 0x3A, 0x78] (by decide +kernel)

/-- The target `a:b/c` comes back as `a:b_c`. -/
theorem link_target_changed :
    reread .ok true [0x61, 0x3A, 0x62, 0x2F, 0x63] =
      .ok { percentEncode := true, name := [0x61, 0x3A, 0x62, 0x5F, 0x63] } ∧
    (reread .ok true [0x61, 0x3A, 0x62, 0x2F, 0x63]).map LtfsName.name ≠
      .ok [0x61, 0x3A, 0x62, 0x2F, 0x63] := by
  decide +kernel

end Ltfs.NameCodec

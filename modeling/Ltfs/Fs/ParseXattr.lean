import Ltfs.Fs.IndexXml
import Ltfs.Fs.Xattr
import Ltfs.Fs.XmlReader
import Ltfs.Fs.Base64Decode

/-!
# Extended attributes in the index

The value of an attribute goes into the index as text where XML allows it and in base64 otherwise.
`_xml_parse_one_xattr` reads it back into a buffer: a text comes with its terminator, a base64
value without one, and an empty element leaves no buffer at all.

* `parseOneXattr` — the attribute element. A read through a null pointer or outside of a buffer is
  the error `wildRead`.
* `xattr_round_trip_iff` — every value survives, unless an immutable or append-only attribute is
  empty: then the parser compares a value that is not there.

Attribute keys come with what `_xml_parse_nametype` makes of them. A text holds no NUL, as XML
has none.
-/

namespace Ltfs.Fs

open Lib Lib.Base64

/-! ## The parser -/

/-- What the parser returns with, when it does not succeed. -/
inductive XattrError where
  | ret (code : ℤ)
  | wildRead
deriving DecidableEq, Repr

/-- The attribute `type` of a value element. -/
inductive XattrType where
  | text
  | base64
  | unknown
deriving DecidableEq, Repr

/-- A value element. -/
structure ValueElement where
  type : Option XattrType
  body : TagBody UInt8
deriving DecidableEq, Repr

/-- `struct xattr_info` while it is read: the bytes that can be read behind the value pointer. -/
structure XattrBuffer where
  key : Option Path
  value : Option (List UInt8)
  size : ℕ
deriving DecidableEq, Repr

/-- The child elements of an attribute element. -/
inductive XattrChild where
  /-- A key, and the nodes behind its text. -/
  | key (name : Except ℤ Path) (rest : List (XmlNode UInt8))
  | value (e : ValueElement)
  | unrecognized

/-- What `_xml_parse_one_xattr` has read so far. An attribute with a bad key is dropped. -/
structure XattrVars where
  haveKey : Bool
  haveValue : Bool
  xattr : Option XattrBuffer

def XattrVars.init : XattrVars := ⟨false, false, some ⟨none, none, 0⟩⟩

/-- The buffer for a value. -/
def readXattrText (type : Option XattrType) (value : List UInt8) (x : XattrBuffer) :
    Except XattrError XattrBuffer :=
  if type = some .base64 then
    match base64Decode value with
    | .error .wildRead => .error .wildRead
    | .error .invalid => .error (.ret (-ltfsXmlXattrSize))
    | .ok (size, bytes) =>
      if size = 0 then .error (.ret (-ltfsXmlXattrSize))
      else .ok { x with value := some bytes, size }
  else .ok { x with value := some (value ++ [0]), size := value.length }

/-- The value of an attribute. -/
def parseXattrValue (e : ValueElement) (x : XattrBuffer) : Except XattrError XattrBuffer :=
  match e.body with
  | .empty => .ok { x with value := none, size := 0 }
  | .nodes l =>
    ((xmlScanText l).mapError XattrError.ret).bind fun (value, rest) =>
      (readXattrText e.type value x).bind fun x =>
        if value = [] then .ok x
        else ((checkTagEnd rest).mapError XattrError.ret).map fun _ => x

/-- One round of the loop of `_xml_parse_one_xattr`. -/
def XattrVars.step (s : XattrVars) : XattrChild → Except XattrError XattrVars
  | .key name rest =>
    if s.haveKey then .error (.ret (-ltfsXmlNoRequiredTag))
    else
      ((checkTagEnd rest).mapError XattrError.ret).map fun _ =>
        match name with
        | .error _ => { s with haveKey := true, xattr := none }
        | .ok name =>
          { s with haveKey := true, xattr := s.xattr.map fun x => { x with key := some name } }
  | .value e =>
    if s.haveValue then .error (.ret (-ltfsXmlNoRequiredTag))
    else if e.type = some .unknown then .error (.ret (-ltfsXmlXattrType))
    else
      match s.xattr with
      | none => .ok { s with haveValue := true }
      | some x => (parseXattrValue e x).map fun x => { s with haveValue := true, xattr := some x }
  | .unrecognized => .ok s

/-- `strcmp(value, "1") == 0`, byte by byte: the comparison stops at the first difference and at
the terminator. -/
def valueIsOne : Option (List UInt8) → Except XattrError Bool
  | none => .error .wildRead
  | some [] => .error .wildRead
  | some [b] => if b = 0x31 then .error .wildRead else .ok false
  | some (b :: c :: _) => .ok (b == 0x31 && c == 0)

/-- The attribute that was read, and the flags it sets on the file. -/
structure ParsedXattr where
  key : Path
  value : Option (List UInt8)
  size : ℕ
  isImmutable : Bool
  isAppendonly : Bool
deriving DecidableEq, Repr

/-- The part of `_xml_parse_one_xattr` behind its loop. -/
def finishXattr (s : XattrVars) : Except XattrError (Option ParsedXattr) :=
  if s.haveKey = false ∨ s.haveValue = false then .error (.ret (-ltfsXmlNoRequiredTag))
  else
    match s.xattr with
    | none => .ok none
    | some ⟨none, _, _⟩ => .error .wildRead
    | some ⟨some key, value, size⟩ =>
      let flag (ea : Path) := if key = ea then valueIsOne value else .ok false
      (flag immutableEa).bind fun isImmutable =>
        (flag appendonlyEa).bind fun isAppendonly =>
          .ok (some { key, value, size, isImmutable, isAppendonly })

/-- `_xml_parse_one_xattr`. -/
def parseOneXattr (children : List XattrChild) : Except XattrError (Option ParsedXattr) :=
  (children.foldlM XattrVars.step XattrVars.init).bind finishXattr

/-! ## The writer -/

/-- The value element of `_xml_write_xattr`. `breaks` are the line breaks that libxml2 puts before
the groups of a base64 text. -/
def xmlWriteXattrValue (breaks : List (List UInt8)) : Option (List UInt8) → ValueElement
  | none => ⟨none, .empty⟩
  | some value =>
    if pathnameValidateXattrValue value then
      -- the format "%.*s" stops at a NUL
      ⟨none, .ofText (value.takeWhile (· != 0))⟩
    else
      ⟨some .base64, .ofText (lines breaks (groups value))⟩

/-- The attribute element as it comes back, with its key. -/
def writtenXattr (breaks : List (List UInt8)) (key : Path) (value : Option (List UInt8)) :
    List XattrChild :=
  [.key (.ok key) [], .value (xmlWriteXattrValue breaks value)]

/-! ## The comparison with "1" -/

/-- A value that is there can be compared, unless it is a "1" without a terminator. -/
theorem valueIsOne_eq_wildRead {value : Option (List UInt8)} :
    valueIsOne value = .error .wildRead ↔
      value = none ∨ value = some [] ∨ value = some [0x31] := by
  rcases value with _ | _ | ⟨b, _ | ⟨c, rest⟩⟩
  · simp [valueIsOne]
  · simp [valueIsOne]
  · by_cases hb : b = 0x31
    · simp [valueIsOne, hb]
    · simp [valueIsOne, hb]
  · simp [valueIsOne]

/-- `ltfs.vendor.IBM.immutable` or `ltfs.vendor.IBM.appendonly`. -/
def WormKey (key : Path) : Prop := key = immutableEa ∨ key = appendonlyEa

instance (key : Path) : Decidable (WormKey key) := inferInstanceAs (Decidable (_ ∨ _))

/-- The two comparisons of the parser are made for the two attributes only. -/
theorem finishXattr_spec (key : Path) (value : Option (List UInt8)) (size : ℕ) :
    (finishXattr ⟨true, true, some ⟨some key, value, size⟩⟩ = .error .wildRead ∧ WormKey key ∧
      (value = none ∨ value = some [] ∨ value = some [0x31])) ∨
    (∃ isImmutable isAppendonly, finishXattr ⟨true, true, some ⟨some key, value, size⟩⟩
      = .ok (some ⟨key, value, size, isImmutable, isAppendonly⟩) ∧
      ¬ (WormKey key ∧ (value = none ∨ value = some [] ∨ value = some [0x31]))) := by
  have hkeys : immutableEa ≠ appendonlyEa := by decide
  have hone : ∀ {e : XattrError}, valueIsOne value = .error e → e = .wildRead := by
    intro e h
    rcases value with _ | _ | ⟨b, _ | ⟨c, rest⟩⟩
    · exact (Except.error.inj h).symm
    · exact (Except.error.inj h).symm
    · simp only [valueIsOne] at h
      split at h
      · exact (Except.error.inj h).symm
      · cases h
    · cases h
  unfold finishXattr
  rw [if_neg (by simp)]
  dsimp only
  by_cases hworm : WormKey key
  · cases hval : valueIsOne value with
    | error e =>
      left
      have he := hone hval
      rw [he] at hval
      refine ⟨?_, hworm, valueIsOne_eq_wildRead.mp hval⟩
      rcases hworm with rfl | rfl
      · simp [he, Except.bind]
      · simp [he, Except.bind, hkeys.symm]
    | ok b =>
      right
      have hnot : ¬ (value = none ∨ value = some [] ∨ value = some [0x31]) := by
        intro h
        rw [valueIsOne_eq_wildRead.mpr h] at hval
        cases hval
      rcases hworm with rfl | rfl
      · exact ⟨b, false, by simp [Except.bind, hkeys], fun h => hnot h.2⟩
      · exact ⟨false, b, by simp [Except.bind, hkeys.symm], fun h => hnot h.2⟩
  · right
    have h1 : key ≠ immutableEa := fun h => hworm (Or.inl h)
    have h2 : key ≠ appendonlyEa := fun h => hworm (Or.inr h)
    exact ⟨false, false, by simp [Except.bind, h1, h2], fun h => hworm h.1⟩

/-! ## The round trip -/

/-- A value that goes into the index as text holds no NUL. -/
theorem takeWhile_of_valid (value : List UInt8) (h : pathnameValidateXattrValue value = true) :
    value.takeWhile (· != 0) = value := by
  rw [List.takeWhile_eq_self_iff]
  induction value using Utf8.suffix_induction with
  | nil => exact fun _ hb => (nomatch hb)
  | cons a rest ih =>
    rw [pathnameValidateXattrValue] at h
    cases hnext : Utf8.next (a :: rest) with
    | none =>
      rw [hnext] at h
      cases h
    | some cn =>
      obtain ⟨c, n⟩ := cn
      rw [hnext] at h
      simp only [Bool.and_eq_true] at h
      intro b hb
      -- the byte is in the first character or behind it
      have hsplit : (a :: rest) = (a :: rest).take n ++ (a :: rest).drop n :=
        (List.take_append_drop n _).symm
      have hn := Utf8.next_pos hnext
      have hdrop : (a :: rest).drop n = rest.drop (n - 1) := by
        obtain ⟨m, rfl⟩ : ∃ m, n = m + 1 := ⟨n - 1, by omega⟩
        rfl
      rw [hsplit, List.mem_append, hdrop] at hb
      rcases hb with hb | hb
      · by_contra hzero
        have hb0 : b = 0 := by simpa using hzero
        have hc := Utf8.next_mem_ascii hnext hb (by rw [hb0]; decide)
        rw [hc, hb0] at h
        exact absurd h.1 (by decide)
      · exact ih (n - 1) h.2 b hb

/-- The pointer that a value is kept behind: there is none for an empty one. -/
def storedValue (value : List UInt8) : Option (List UInt8) :=
  if value = [] then none else some value

/-- An element with a key and one value, up to the end of the loop. -/
theorem parseOneXattr_eq (key : Path) {rest : List (XmlNode UInt8)} (hrest : Closes rest)
    (e : ValueElement) :
    parseOneXattr [.key (.ok key) rest, .value e]
      = if e.type = some .unknown then .error (.ret (-ltfsXmlXattrType))
        else (parseXattrValue e ⟨some key, none, 0⟩).bind fun x =>
          finishXattr ⟨true, true, some x⟩ := by
  have hend : checkTagEnd rest = .ok () := checkTagEnd_eq_ok.mpr hrest
  by_cases htype : e.type = some .unknown
  · simp [parseOneXattr, XattrVars.step, XattrVars.init, htype, hend, List.foldlM, bind,
      Except.bind, Except.map, Except.mapError]
  · cases hval : parseXattrValue e ⟨some key, none, 0⟩ with
    | error err =>
      simp [parseOneXattr, XattrVars.step, XattrVars.init, htype, hend, hval, List.foldlM, bind,
        Except.bind, Except.map, Except.mapError]
    | ok x =>
      simp [parseOneXattr, XattrVars.step, XattrVars.init, htype, hend, hval, List.foldlM, bind,
        Except.bind, Except.map, Except.mapError, pure, Except.pure]

/-- A key that is not closed ends the parser. -/
theorem parseOneXattr_open (key : Path) {rest : List (XmlNode UInt8)} (hrest : ¬ Closes rest)
    (e : ValueElement) :
    parseOneXattr [.key (.ok key) rest, .value e] = .error (.ret (-ltfsXmlOpenTag)) := by
  simp [parseOneXattr, XattrVars.step, XattrVars.init, checkTagEnd_error hrest, List.foldlM, bind,
    Except.bind, Except.map, Except.mapError]

/-- An element that holds a text and nothing else. -/
theorem parseXattrValue_ofText (type : Option XattrType) (value : List UInt8) (x : XattrBuffer) :
    parseXattrValue ⟨type, .ofText value⟩ x = readXattrText type value x := by
  have hbind : ∀ r : Except XattrError XattrBuffer, (r.bind fun x => .ok x) = r := by
    intro r
    cases r <;> rfl
  cases value with
  | nil => exact hbind _
  | cons c value => exact hbind _

/-- The bytes that a buffer holds. -/
def XattrBuffer.bytes (x : XattrBuffer) : List UInt8 := (x.value.getD []).take x.size

/-- What the parser makes of the value element that was written: the same bytes and the same
length, in a buffer that is missing only for a missing value. -/
theorem parseXattrValue_written {breaks : List (List UInt8)}
    (hbreaks : ∀ br ∈ breaks, ∀ c ∈ br, base64Blank c = true) (key : Path)
    (value : Option (List UInt8)) :
    ∃ x, parseXattrValue (xmlWriteXattrValue breaks value) ⟨some key, none, 0⟩ = .ok x ∧
      x.key = some key ∧ x.size = (value.getD []).length ∧ x.bytes = value.getD [] ∧
      ((x.value = none ∨ x.value = some [] ∨ x.value = some [0x31]) ↔ value = none) := by
  cases value with
  | none => exact ⟨⟨some key, none, 0⟩, rfl, rfl, rfl, rfl, by simp⟩
  | some value =>
    by_cases hvalid : pathnameValidateXattrValue value = true
    · -- as text, with a terminator behind it
      refine ⟨⟨some key, some (value ++ [0]), value.length⟩, ?_, rfl, rfl, ?_, ?_⟩
      · rw [xmlWriteXattrValue, if_pos hvalid, takeWhile_of_valid value hvalid]
        rw [parseXattrValue_ofText, readXattrText, if_neg (by simp)]
      · simp [XattrBuffer.bytes]
      · simp only [reduceCtorEq, Option.some.injEq, List.append_eq_nil_iff, List.cons_ne_nil,
          and_false, false_or, iff_false]
        intro h
        have hlast := congrArg List.getLast? h
        simp at hlast
    · -- in base64: the value is neither empty nor a "1"
      have hne : value ≠ [] := by
        rintro rfl
        exact hvalid (by rw [pathnameValidateXattrValue])
      have hone : value ≠ [0x31] := by
        rintro rfl
        exact hvalid (by simp [pathnameValidateXattrValue, Utf8.next, charsValidInXml])
      refine ⟨⟨some key, some value, value.length⟩, ?_, rfl, rfl, ?_, ?_⟩
      · rw [xmlWriteXattrValue, if_neg hvalid]
        have hlen : value.length ≠ 0 := fun h => hne (List.length_eq_zero_iff.mp h)
        rw [parseXattrValue_ofText, readXattrText, if_pos rfl, base64Decode_lines hne hbreaks]
        simp only [hlen, if_false]
      · simp [XattrBuffer.bytes]
      · simp [hne, hone]

/-- The comparison goes wrong for the two WORM attributes only. -/
theorem finishXattr_wildRead_iff (key : Path) (value : Option (List UInt8)) (size : ℕ) :
    finishXattr ⟨true, true, some ⟨some key, value, size⟩⟩ = .error .wildRead ↔
      WormKey key ∧ (value = none ∨ value = some [] ∨ value = some [0x31]) := by
  rcases finishXattr_spec key value size with ⟨h, hworm, hval⟩ | ⟨i, a, h, hnot⟩
  · rw [h]
    exact iff_of_true rfl ⟨hworm, hval⟩
  · rw [h]
    exact iff_of_false (by simp) hnot

/-- The elements that the parser reads outside of its buffers: those of the two WORM attributes that
are empty or decode to a "1", and those with a base64 text that is a single padding character. -/
def ReadsWild (key : Path) (e : ValueElement) : Prop :=
  (WormKey key ∧ (e.body = .empty ∨ e.type = some .base64 ∧ ∃ c text rest,
      e.body = .nodes (.text c text :: rest) ∧ Closes rest ∧
        base64Decode (c :: text) = .ok (1, [0x31]))) ∨
    (e.type = some .base64 ∧ ∃ rest, e.body = .nodes (.text pad [] :: rest))

/-- From a value with a text to the end of the parser. -/
theorem parseXattrValue_wildRead_iff (key : Path) (type : Option XattrType) (c : UInt8)
    (text : List UInt8) (rest : List (XmlNode UInt8)) :
    ((parseXattrValue ⟨type, .nodes (.text c text :: rest)⟩ ⟨some key, none, 0⟩).bind
        fun x => finishXattr ⟨true, true, some x⟩) = .error .wildRead ↔
      readXattrText type (c :: text) ⟨some key, none, 0⟩ = .error .wildRead ∨
        Closes rest ∧ ∃ x, readXattrText type (c :: text) ⟨some key, none, 0⟩ = .ok x ∧
          finishXattr ⟨true, true, some x⟩ = .error .wildRead := by
  have hvalue : parseXattrValue ⟨type, .nodes (.text c text :: rest)⟩ ⟨some key, none, 0⟩
      = (readXattrText type (c :: text) ⟨some key, none, 0⟩).bind fun x =>
          ((checkTagEnd rest).mapError XattrError.ret).map fun _ => x := rfl
  rw [hvalue]
  cases readXattrText type (c :: text) ⟨some key, none, 0⟩ with
  | error err => simp [Except.bind]
  | ok x =>
    by_cases hrest : Closes rest
    · have hend : checkTagEnd rest = .ok () := checkTagEnd_eq_ok.mpr hrest
      simp [Except.bind, Except.map, Except.mapError, hend, hrest]
    · simp [Except.bind, Except.map, Except.mapError, checkTagEnd_error hrest, hrest]

/-- What a base64 text is read into. -/
theorem readXattrText_base64 (value : List UInt8) (x : XattrBuffer) :
    (readXattrText (some .base64) value x = .error .wildRead ↔ value = [pad]) ∧
    ∀ x', readXattrText (some .base64) value x = .ok x' ↔ ∃ size bytes,
      base64Decode value = .ok (size, bytes) ∧ size ≠ 0 ∧ x' = { x with value := some bytes, size } := by
  rw [← base64Decode_wildRead_iff]
  unfold readXattrText
  rw [if_pos rfl]
  rcases base64Decode value with (_ | _) | ⟨size, bytes⟩
  · simp
  · simp
  · by_cases hsize : size = 0
    · simp [hsize]
    · simp [hsize, eq_comm]

/-- A text has a terminator. -/
theorem finishXattr_text_ne_wildRead (key : Path) (value : List UInt8) :
    finishXattr ⟨true, true, some ⟨some key, some (value ++ [0]), value.length⟩⟩
      ≠ .error .wildRead := by
  intro h
  rw [finishXattr_wildRead_iff] at h
  rcases h.2 with h | h | h
  · cases h
  · simp at h
  · have hlast := congrArg List.getLast? (Option.some.inj h)
    simp at hlast

theorem parseOneXattr_wildRead_iff (key : Path) (rest : List (XmlNode UInt8)) (e : ValueElement) :
    parseOneXattr [.key (.ok key) rest, .value e] = .error .wildRead ↔
      Closes rest ∧ e.type ≠ some .unknown ∧ ReadsWild key e := by
  by_cases hrest : Closes rest
  · rw [parseOneXattr_eq key hrest]
    simp only [hrest, true_and]
    rcases e with ⟨type, body⟩
    by_cases hunknown : type = some .unknown
    · simp [hunknown]
    · rw [if_neg hunknown]
      simp only [ne_eq, hunknown, not_false_eq_true, true_and, ReadsWild]
      rcases body with _ | _ | ⟨node, l⟩
      · have hfinish := finishXattr_wildRead_iff key none 0
        simpa [parseXattrValue, Except.bind] using hfinish
      · -- no text at all
        by_cases hbase : type = some .base64
        · subst hbase
          have hnil : readXattrText (some .base64) [] ⟨some key, none, 0⟩
              = .error (.ret (-ltfsXmlXattrSize)) := rfl
          simp [parseXattrValue, xmlScanText, hnil, Except.bind, Except.mapError, pure, Except.pure]
        · have hne := finishXattr_text_ne_wildRead key []
          simpa [parseXattrValue, xmlScanText, readXattrText, hbase, Except.bind, Except.mapError,
            pure, Except.pure] using hne
      · cases node with
        | text c text =>
          rw [parseXattrValue_wildRead_iff]
          by_cases hbase : type = some .base64
          · subst hbase
            obtain ⟨hwild, hok⟩ := readXattrText_base64 (c :: text) ⟨some key, none, 0⟩
            rw [hwild]
            simp only [hok, TagBody.nodes.injEq, List.cons.injEq, XmlNode.text.injEq, reduceCtorEq,
              false_or, true_and]
            constructor
            · rintro (⟨rfl, rfl⟩ | ⟨hclosed, x, ⟨size, bytes, hdec, hsize, rfl⟩, hfinish⟩)
              · exact .inr ⟨l, ⟨rfl, rfl⟩, rfl⟩
              · rw [finishXattr_wildRead_iff] at hfinish
                have hlen := base64Decode_size hdec
                -- only a "1" is left
                rcases hfinish.2 with h | h | h
                · cases h
                · rw [Option.some.inj h] at hlen
                  exact absurd hlen.symm hsize
                · rw [Option.some.inj h] at hlen hdec
                  refine .inl ⟨hfinish.1, c, text, l, ⟨⟨rfl, rfl⟩, rfl⟩, hclosed, ?_⟩
                  rw [hdec, ← hlen]
                  rfl
            · rintro (⟨hworm, _, _, _, ⟨⟨rfl, rfl⟩, rfl⟩, hclosed, hdec⟩ | ⟨_, ⟨rfl, rfl⟩, rfl⟩)
              · refine .inr ⟨hclosed, _, ⟨1, [0x31], hdec, one_ne_zero, rfl⟩, ?_⟩
                rw [finishXattr_wildRead_iff]
                exact ⟨hworm, .inr (.inr rfl)⟩
              · exact .inl ⟨rfl, rfl⟩
          · have hread : readXattrText type (c :: text) ⟨some key, none, 0⟩
                = .ok ⟨some key, some (c :: text ++ [0]), (c :: text).length⟩ := if_neg hbase
            have hne := finishXattr_text_ne_wildRead key (c :: text)
            simp only [List.cons_append, List.length_cons] at hne
            simp [hread, hbase, hne]
        | cdata | reference | comment | instruction | element | fault =>
          simp [parseXattrValue, xmlScanText, Except.bind, Except.mapError, throw, throwThe,
            MonadExceptOf.throw]
  · rw [parseOneXattr_open key hrest]
    simp [hrest]

/-- An attribute survives the index, with the same bytes and the same length and without a read
of a value that is absent or not terminated, unless it is an immutable or append-only attribute
without a value. Of the elements that other writers can make, the parser goes wrong on those of
`ReadsWild`. -/
theorem xattr_round_trip_iff (breaks : List (List UInt8))
    (hbreaks : ∀ br ∈ breaks, ∀ c ∈ br, c = 0x0D ∨ c = 0x0A) (key : Path)
    (value : Option (List UInt8)) :
    ((∃ r, parseOneXattr (writtenXattr breaks key value) = .ok (some r) ∧ r.key = key ∧
        r.size = (value.getD []).length ∧ (r.value.getD []).take r.size = value.getD []) ↔
      ¬ (WormKey key ∧ value = none)) ∧
    ∀ (rest : List (XmlNode UInt8)) (e : ValueElement),
      parseOneXattr [.key (.ok key) rest, .value e] = .error .wildRead ↔
        Closes rest ∧ e.type ≠ some .unknown ∧ ReadsWild key e := by
  refine ⟨?_, parseOneXattr_wildRead_iff key⟩
  have hblank : ∀ br ∈ breaks, ∀ c ∈ br, base64Blank c = true := by
    intro br hbr c hc
    rcases hbreaks br hbr c hc with rfl | rfl
    · decide
    · decide
  obtain ⟨x, hx, hkey, hsize, hbytes, hmissing⟩ := parseXattrValue_written hblank key value
  have htype : (xmlWriteXattrValue breaks value).type ≠ some .unknown := by
    unfold xmlWriteXattrValue
    split
    · simp
    · split <;> simp
  obtain ⟨xkey, xvalue, xsize⟩ := x
  simp only at hkey hmissing hsize
  rw [writtenXattr, parseOneXattr_eq key (by simp [Closes]), if_neg htype, hx, hkey]
  simp only [Except.bind]
  rw [← hmissing]
  rcases finishXattr_spec key xvalue xsize with ⟨h, hworm, hval⟩ | ⟨i, a, h, hnot⟩
  · rw [h]
    refine iff_of_false ?_ (not_not_intro ⟨hworm, hval⟩)
    rintro ⟨r, hr, _⟩
    cases hr
  · rw [h]
    exact iff_of_true ⟨_, rfl, rfl, hsize, hbytes⟩ hnot

/-- `xattr_round_trip_iff` for two bytes that XML does not allow. -/
theorem xattr_round_trip_binary :
    ∃ r, parseOneXattr (writtenXattr [[0x0D, 0x0A]] (ascii "k") (some [0, 255])) = .ok (some r) ∧
      r.size = 2 ∧ (r.value.getD []).take r.size = [0, 255] := by
  have hbreaks : ∀ br ∈ [[0x0D, 0x0A]], ∀ c ∈ br, c = (0x0D : UInt8) ∨ c = 0x0A := by simp
  obtain ⟨r, hr, _, hsize, hbytes⟩ :=
    (xattr_round_trip_iff _ hbreaks (ascii "k") (some [0, 255])).1.mpr (by decide)
  exact ⟨r, hr, hsize, hbytes⟩

/-- An immutable attribute without a value: the parser compares the missing value. -/
theorem xattr_null_value :
    ¬ ∀ (breaks : List (List UInt8)), (∀ br ∈ breaks, ∀ c ∈ br, c = (0x0D : UInt8) ∨ c = 0x0A) →
      ∀ (key : Path) (value : Option (List UInt8)),
        ∃ r, parseOneXattr (writtenXattr breaks key value) = .ok (some r) ∧ r.key = key ∧
          r.size = (value.getD []).length ∧ (r.value.getD []).take r.size = value.getD [] := by
  intro h
  obtain ⟨r, hr, _⟩ := h [] (by simp) immutableEa none
  have hwild : parseOneXattr (writtenXattr [] immutableEa none) = .error .wildRead := by
    decide +kernel
  rw [hwild] at hr
  cases hr

end Ltfs.Fs

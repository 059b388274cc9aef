import Ltfs.Fs.XmlReader
import Ltfs.Lib.SegmentInsert
import Mathlib.Algebra.Order.BigOperators.Group.List

/-!
# Reading the extents of a file from an index

`_xml_parse_file` with `_xml_parse_extents` and `_xml_parse_one_extent`. Every extent is put
into the list when its element ends; ends of extents are computed in 64 bits.

* `readExtentTags` — the tags of one extent element, in any order.
* `insertExtent` — the walk from the tail of the list.
* `parseFile` — the file element. The tags that do not concern extents come with the result of
  their own parser.
* `parse_file_iff` — when an accepted element gives the file its extents as they are written: no
  end passes the 64-bit range, no byte offset passes 32 bits or has a comment between its digits,
  and no two different extents are empty at the same place.

Allocation failures, the list of symlink conflicts, and processing instructions that have the name
of the element around them are left out.
-/

namespace Ltfs

open Lib Segment

/-- `IDX_VERSION_SPARSE`; `IDX_VERSION_UID` and `IDX_VERSION_BACKUPTIME` are the same. -/
def idxVersionSparse : ℕ := 20000

/-- `struct extent_info` with the partition letter of the document. -/
structure XmlExtent where
  partition : Char
  startblock : ℕ
  byteoffset : ℕ
  bytecount : ℕ
  fileoffset : ℕ
deriving DecidableEq, Repr

instance : Segment XmlExtent where
  start := XmlExtent.fileoffset
  len := XmlExtent.bytecount

@[simp] theorem XmlExtent.segment_start (xt : XmlExtent) : start xt = xt.fileoffset := rfl

@[simp] theorem XmlExtent.segment_len (xt : XmlExtent) : len xt = xt.bytecount := rfl

@[simp] theorem XmlExtent.segment_stop (xt : XmlExtent) :
    stop xt = xt.fileoffset + xt.bytecount := rfl

/-- `fileoffset + bytecount`. -/
def XmlExtent.fileoffsetEnd (xt : XmlExtent) : ℕ := (xt.fileoffset + xt.bytecount) % 2 ^ 64

/-! ## One extent -/

/-- The child elements of an extent element that have a name. -/
inductive ExtentTag where
  | partition
  | startblock
  | byteoffset
  | bytecount
  | fileoffset
  | unrecognized
deriving DecidableEq, Repr

structure ExtentField where
  tag : ExtentTag
  body : TagBody Char
deriving DecidableEq, Repr

/-- What `_xml_parse_one_extent` has read so far. -/
structure ExtentVars where
  partition : Option Char
  startblock : Option ℕ
  byteoffset : Option ℕ
  bytecount : Option ℕ
  fileoffset : Option ℕ

def ExtentVars.init : ExtentVars := ⟨none, none, none, none, none⟩

/-- `_xml_parse_partition`. -/
def xmlParsePartition : List Char → Option Char
  | [c] => if 'a' ≤ c ∧ c ≤ 'z' then some c else none
  | _ => none

/-- The partition element of an extent. -/
def parseTagPartition (old : Option Char) (body : TagBody Char) : Except ℤ (Option Char) := do
  checkRequiredTag old.isSome
  let (value, rest) ← getTagText body
  match xmlParsePartition value with
  | none => throw (-ltfsXmlWrongPart)
  | some c =>
    checkTagEnd rest
    return some c

/-- One round of the loop of `_xml_parse_one_extent`. -/
def ExtentVars.step (version : ℕ) (s : ExtentVars) (f : ExtentField) : Except ℤ ExtentVars :=
  match f.tag with
  | .partition => do
    let partition ← parseTagPartition s.partition f.body
    return { s with partition }
  | .startblock => do
    let startblock ← parseTagNumber s.startblock ltfsXmlWrongStartBlk f.body
    return { s with startblock }
  | .byteoffset => do
    let byteoffset ← parseTagNumber s.byteoffset ltfsXmlWrongOffset f.body
    return { s with byteoffset }
  | .bytecount => do
    let bytecount ← parseTagNumber s.bytecount ltfsXmlWrongByteCnt f.body
    return { s with bytecount }
  | .fileoffset =>
    if version ≥ idxVersionSparse then do
      let fileoffset ← parseTagNumber s.fileoffset ltfsXmlWrongFileOfst f.body
      return { s with fileoffset }
    else
      return s
  | .unrecognized => return s

/-- The loop of `_xml_parse_one_extent` and its check for missing tags. The byte offset is a
32-bit field. Older versions have no file offset. -/
def readExtentTags (version : ℕ) (fields : List ExtentField) : Except ℤ XmlExtent := do
  let s ← fields.foldlM (ExtentVars.step version) ExtentVars.init
  let fileoffset := if version ≥ idxVersionSparse then s.fileoffset else some 0
  match s.partition, s.startblock, s.byteoffset, s.bytecount, fileoffset with
  | some partition, some startblock, some byteoffset, some bytecount, some fileoffset =>
    return { partition, startblock, byteoffset := byteoffset % 2 ^ 32, bytecount, fileoffset }
  | _, _, _, _, _ => throw (-ltfsXmlNoRequiredTag)

/-! ## The extent list -/

/-- The `TAILQ_FOREACH_REVERSE` loop: the entries still to pass, nearest first, and those already
passed. -/
def insertExtent (xt : XmlExtent) : List XmlExtent → List XmlExtent → Option (List XmlExtent)
  | [], after => some (xt :: after)
  | last :: before, after =>
    if last.fileoffsetEnd ≤ xt.fileoffset then some ((last :: before).reverse ++ xt :: after)
    else if xt.fileoffsetEnd > last.fileoffset then none
    else insertExtent xt before (last :: after)

/-- The extent list of the file and its `realsize`. -/
structure ExtentList where
  extentlist : List XmlExtent
  realsize : ℕ
deriving DecidableEq, Repr

def ExtentList.empty : ExtentList := ⟨[], 0⟩

/-- "For older index versions, set fileoffset at the end of the previous extent." -/
def placeExtent (version : ℕ) (l : List XmlExtent) (xt : XmlExtent) : XmlExtent :=
  if version ≥ idxVersionSparse then xt
  else { xt with fileoffset := (l.getLast?.map XmlExtent.fileoffsetEnd).getD 0 }

/-- The end of `_xml_parse_one_extent`. -/
def addParsed (version : ℕ) (d : ExtentList) (xt : XmlExtent) : Except ℤ ExtentList :=
  let xt := placeExtent version d.extentlist xt
  match insertExtent xt d.extentlist.reverse [] with
  | none => throw (-ltfsXmlExtOverlap)
  | some extentlist => return ⟨extentlist, (d.realsize + xt.bytecount) % 2 ^ 64⟩

/-- The child elements of an extentinfo element; `none` for `<extent/>`. -/
inductive ExtentinfoChild where
  | extent (fields : Option (List ExtentField))
  | unrecognized
deriving DecidableEq, Repr

/-- One round of the loop of `_xml_parse_extents`. -/
def ExtentList.step (version : ℕ) (d : ExtentList) : ExtentinfoChild → Except ℤ ExtentList
  | .extent none => throw (-ltfsXmlEmpty)
  | .extent (some fields) => do
    let xt ← readExtentTags version fields
    addParsed version d xt
  | .unrecognized => return d

/-- `_xml_parse_extents`. -/
def parseExtents (version : ℕ) (children : List ExtentinfoChild) (d : ExtentList) :
    Except ℤ ExtentList :=
  children.foldlM (ExtentList.step version) d

/-! ## The file -/

/-- The child elements of a file element that do not concern its extents. -/
inductive PlainTag where
  | name
  | readonly
  | modifytime
  | creationtime
  | accesstime
  | changetime
  | backuptime
  | extendedattributes
  | symlink
  | openforwrite
deriving DecidableEq, Repr

def PlainTag.required : PlainTag → Bool
  | extendedattributes | symlink | openforwrite => false
  | _ => true

/-- The child elements of a file element. The plain ones come with what their own parser returns;
`extentinfo none` is `<extentinfo/>`. -/
inductive FileChild where
  | length (body : TagBody Char)
  | extentinfo (children : Option (List ExtentinfoChild))
  | fileuid (body : TagBody Char)
  | plain (tag : PlainTag) (ret : ℤ)
  | unrecognized
deriving DecidableEq, Repr

/-- What `_xml_parse_file` has read so far. -/
structure FileVars where
  seen : List PlainTag
  size : Option ℕ
  uid : Option ℕ
  haveExtentinfo : Bool
  extents : ExtentList

def FileVars.init : FileVars := ⟨[], none, none, false, ExtentList.empty⟩

/-- One round of the loop of `_xml_parse_file`. -/
def FileVars.step (version : ℕ) (s : FileVars) : FileChild → Except ℤ FileVars
  | .length body => do
    let size ← parseTagNumber s.size ltfsXmlWrongSize body
    return { s with size }
  | .extentinfo none => do
    checkOptionalTag s.haveExtentinfo
    return { s with haveExtentinfo := true }
  | .extentinfo (some children) => do
    checkOptionalTag s.haveExtentinfo
    let extents ← parseExtents version children s.extents
    return { s with haveExtentinfo := true, extents }
  | .fileuid body =>
    if version ≥ idxVersionSparse then do
      let uid ← parseTagNumber s.uid ltfsXmlWrongUid body
      return { s with uid }
    else
      return s
  | .plain tag ret =>
    if tag = .backuptime ∧ version < idxVersionSparse then
      return s
    else if s.seen.contains tag then
      throw (if tag.required then -ltfsXmlNoRequiredTag else -ltfsXmlDuplicatedTag)
    else if ret < 0 then
      throw ret
    else
      return { s with seen := tag :: s.seen }
  | .unrecognized => return s

/-- The required tags among the plain ones. -/
def requiredTags (version : ℕ) : List PlainTag :=
  [.name, .readonly, .modifytime, .creationtime, .accesstime, .changetime] ++
    if version ≥ idxVersionSparse then [.backuptime] else []

/-- The dentry of the file, as far as extents and sizes go. -/
structure ParsedFile where
  size : ℕ
  uid : ℕ
  extents : ExtentList
deriving DecidableEq, Repr

/-- The part of `_xml_parse_file` behind its loop. `newUid` comes from `fs_allocate_uid`. -/
def finishFile (version newUid : ℕ) (s : FileVars) : Except ℤ ParsedFile :=
  let uid := if version ≥ idxVersionSparse then s.uid else some newUid
  if ¬ ∀ tag ∈ requiredTags version, tag ∈ s.seen then throw (-ltfsXmlNoRequiredTag)
  else
    match s.size, uid with
    | some size, some uid =>
      if (s.extents.extentlist.getLast?.map XmlExtent.fileoffsetEnd).getD 0 > size then
        throw (-ltfsXmlExtTooLong)
      else if uid = 0 then throw (-ltfsXmlWrongUid)
      else return ⟨size, uid, s.extents⟩
    | _, _ => throw (-ltfsXmlNoRequiredTag)

/-- `_xml_parse_file`. -/
def parseFile (version newUid : ℕ) (children : List FileChild) : Except ℤ ParsedFile := do
  let s ← children.foldlM (FileVars.step version) FileVars.init
  finishFile version newUid s

/-! ## The numbers of an extent element -/

/-- The tags of an extent element that hold a number. -/
def numberTags (version : ℕ) : List ExtentTag :=
  [.startblock, .byteoffset, .bytecount] ++ if version ≥ idxVersionSparse then [.fileoffset] else []

/-- The number of a child element. -/
def ExtentField.number (version : ℕ) (f : ExtentField) : Option (ExtentTag × TagBody Char) :=
  if f.tag ∈ numberTags version then some (f.tag, f.body) else none

def ExtentVars.get (s : ExtentVars) : ExtentTag → Option ℕ
  | .startblock => s.startblock
  | .byteoffset => s.byteoffset
  | .bytecount => s.bytecount
  | .fileoffset => s.fileoffset
  | _ => none

/-- The byte offset element. -/
def byteoffsetBody (fields : List ExtentField) : Option (TagBody Char) :=
  (fields.find? fun f => f.tag = .byteoffset).map ExtentField.body

/-- The byte offset written in an extent element. -/
def writtenByteoffset (fields : List ExtentField) : Option ℤ :=
  (byteoffsetBody fields).bind fun body => numeral body.content

/-- The number that the text of the byte offset element begins with, before any comment. -/
def readByteoffset (fields : List ExtentField) : Option ℤ :=
  (byteoffsetBody fields).bind fun body => numeral body.firstText

/-- The byte offset is a number of 32 bits, and no comment comes between its digits. -/
def ByteoffsetFits (fields : List ExtentField) : Prop :=
  ∃ n, writtenByteoffset fields = some n ∧ readByteoffset fields = some n ∧ 0 ≤ n ∧ n < 2 ^ 32

section Tags

variable {version : ℕ}

theorem ExtentField.number_eq_some {f : ExtentField} {tag : ExtentTag} {body : TagBody Char} :
    f.number version = some (tag, body) ↔ f.tag ∈ numberTags version ∧ f.tag = tag ∧ f.body = body := by
  unfold ExtentField.number
  by_cases hmem : f.tag ∈ numberTags version
  · simp [hmem]
  · simp [hmem]

/-- A round of the loop reads a number at its own tag, once, and leaves the others alone. -/
theorem ExtentVars.readsOnce :
    ReadsOnce (ExtentVars.step version) ExtentVars.get (ExtentField.number version) := by
  intro s s' f h
  simp only [ExtentField.number_eq_some, ne_eq, not_and, and_imp]
  rcases f with ⟨tag, body⟩
  cases tag with
  | partition =>
    obtain ⟨new, _, h⟩ := Except.bind_eq_ok.mp h
    cases h
    exact ⟨by simp [numberTags], fun tag _ => by cases tag <;> rfl⟩
  | startblock | byteoffset | bytecount =>
    obtain ⟨new, hnew, h⟩ := Except.bind_eq_ok.mp h
    cases h
    constructor
    · rintro tag body - rfl rfl
      exact parseTagNumber_eq_ok hnew
    · intro tag hother
      cases tag with
      | startblock | byteoffset | bytecount =>
        first | rfl | exact absurd rfl (hother body (by simp [numberTags]) rfl)
      | partition | fileoffset | unrecognized => rfl
  | fileoffset =>
    simp only [ExtentVars.step] at h
    split at h
    · rename_i hsparse
      obtain ⟨new, hnew, h⟩ := Except.bind_eq_ok.mp h
      cases h
      constructor
      · rintro tag body - rfl rfl
        exact parseTagNumber_eq_ok hnew
      · intro tag hother
        cases tag with
        | fileoffset => exact absurd rfl (hother body (by simp [numberTags, hsparse]) rfl)
        | partition | startblock | byteoffset | bytecount | unrecognized => rfl
    · rename_i hold
      cases h
      exact ⟨fun tag body hmem => absurd hmem (by simp [numberTags, hold]), fun _ _ => rfl⟩
  | unrecognized =>
    cases h
    exact ⟨by simp [numberTags], fun _ _ => rfl⟩

theorem readExtentTags_byteoffset {fields : List ExtentField} {xt : XmlExtent}
    (h : readExtentTags version fields = .ok xt) :
    ∃ n, readByteoffset fields = some n ∧ xt.byteoffset = toUllong n % 2 ^ 32 := by
  obtain ⟨s, hs, h⟩ := Except.bind_eq_ok.mp h
  obtain ⟨-, hread, hnone⟩ := ExtentVars.readsOnce.foldlM fields hs
  dsimp only at h
  split at h
  · rename_i b _ _ _ _ hb _ _
    cases h
    cases hfind : fields.find? fun f => f.tag = .byteoffset with
    | none =>
      -- without the element there is no byte offset
      have hno := hnone .byteoffset fun f hf body hbody =>
        List.find?_eq_none.mp hfind f hf (by simp [(ExtentField.number_eq_some.mp hbody).2.1])
      rw [show s.get .byteoffset = some b from hb] at hno
      cases hno
    | some f =>
      have htag : f.tag = .byteoffset := by simpa using List.find?_some hfind
      have hreads := hread f (List.mem_of_find?_eq_some hfind) .byteoffset f.body
        (ExtentField.number_eq_some.mpr ⟨by rw [htag]; simp [numberTags], htag, rfl⟩)
      rw [show s.get .byteoffset = some b from hb] at hreads
      obtain ⟨n, hn, rfl⟩ := hreads.numeral
      refine ⟨n, ?_, rfl⟩
      rw [readByteoffset, byteoffsetBody, hfind]
      exact hn
  · cases h

end Tags

/-- The byte offset kept in the extent. -/
def storedByteoffset (fields : List ExtentField) : ℕ :=
  toUllong ((readByteoffset fields).getD 0) % 2 ^ 32

/-- It begins the one that is written. -/
theorem storedByteoffset_of_written {fields : List ExtentField} {n m : ℤ}
    (hread : readByteoffset fields = some m) (hwritten : writtenByteoffset fields = some n)
    (h0 : 0 ≤ n) (hn : n < 2 ^ 32) :
    (storedByteoffset fields : ℤ) = m ∧ m ≤ n := by
  unfold readByteoffset at hread
  unfold writtenByteoffset at hwritten
  cases hbody : byteoffsetBody fields with
  | none =>
    rw [hbody] at hread
    cases hread
  | some body =>
    rw [hbody, Option.bind_some] at hread hwritten
    obtain ⟨hm0, hmn⟩ := numeral_le_of_prefix body.firstText_prefix hread hwritten h0
    refine ⟨?_, hmn⟩
    unfold storedByteoffset readByteoffset
    rw [hbody, Option.bind_some, hread, Option.getD_some]
    exact (toUllong_mod_eq_iff (k := 32) (by norm_num) m).mpr ⟨hm0, by omega⟩

/-- It is the one that is written exactly if that fits. -/
theorem storedByteoffset_eq_written_iff {fields : List ExtentField}
    (hread : (readByteoffset fields).isSome = true) :
    some (storedByteoffset fields : ℤ) = writtenByteoffset fields ↔ ByteoffsetFits fields := by
  obtain ⟨m, hm⟩ := Option.isSome_iff_exists.mp hread
  constructor
  · intro h
    have hlt : storedByteoffset fields < 2 ^ 32 := Nat.mod_lt _ (Nat.two_pow_pos 32)
    obtain ⟨hstored, -⟩ := storedByteoffset_of_written hm h.symm (by omega) (by omega)
    exact ⟨m, by rw [← h, hstored], hm, by omega, by omega⟩
  · rintro ⟨n, hwritten, hn, h0, hlt⟩
    rw [hn, Option.some.injEq] at hm
    subst hm
    obtain ⟨hstored, -⟩ := storedByteoffset_of_written hn hwritten h0 hlt
    rw [hwritten, hstored]

/-- `<byteoffset>1<!-- -->2</byteoffset>` -/
example : storedByteoffset [⟨.byteoffset, .nodes [.text '1' [], .comment, .text '2' []]⟩] = 1 := by
  decide +kernel

/-! ## Insertion -/

/-- Whatever the ends are, an insertion that succeeds adds one extent. -/
theorem insertExtent_perm {xt : XmlExtent} (before : List XmlExtent) :
    ∀ {after l : List XmlExtent}, insertExtent xt before after = some l →
      l.Perm (xt :: (before.reverse ++ after)) := by
  induction before with
  | nil =>
    intro after l h
    simp only [insertExtent, Option.some.injEq] at h
    rw [← h]
    exact List.Perm.refl _
  | cons last before ih =>
    intro after l h
    unfold insertExtent at h
    split at h
    · simp only [Option.some.injEq] at h
      rw [← h]
      exact List.perm_middle
    · split at h
      · cases h
      · have hp := ih h
        rwa [List.reverse_cons, List.append_assoc, List.singleton_append]

theorem XmlExtent.fileoffsetEnd_eq {xt : XmlExtent} (h : stop xt < 2 ^ 64) :
    xt.fileoffsetEnd = stop xt := Nat.mod_eq_of_lt h

/-- Without an end that passes the 64-bit range, the walk is the insertion of segments. -/
theorem insertExtent_eq_insertBack {xt : XmlExtent} (hxt : stop xt < 2 ^ 64)
    (before : List XmlExtent) : ∀ (after : List XmlExtent),
      (∀ e ∈ before, stop e < 2 ^ 64) →
      insertExtent xt before after = insertBack xt before after := by
  induction before with
  | nil => exact fun _ _ => rfl
  | cons last before ih =>
    intro after hends
    rw [List.forall_mem_cons] at hends
    unfold insertExtent insertBack
    rw [last.fileoffsetEnd_eq hends.1, xt.fileoffsetEnd_eq hxt, ih (last :: after) hends.2]
    rfl

/-! ## The extents of an extentinfo element -/

/-- The extent a child element stands for, if it can be read. -/
def ExtentinfoChild.read? (version : ℕ) : ExtentinfoChild → Option XmlExtent
  | .extent (some fields) => (readExtentTags version fields).toOption
  | _ => none

/-- The child element has no mistake of its own. -/
def ExtentinfoChild.Readable (version : ℕ) : ExtentinfoChild → Prop
  | .extent (some fields) => ∃ xt, readExtentTags version fields = .ok xt
  | .extent none => False
  | .unrecognized => True

/-- The extents as they are written. -/
def writtenExtents (version : ℕ) (children : List ExtentinfoChild) : List XmlExtent :=
  children.filterMap (ExtentinfoChild.read? version)

/-- The extent elements. -/
def extentFields (children : List ExtentinfoChild) : List (List ExtentField) :=
  children.filterMap fun
    | .extent fields => fields
    | .unrecognized => none

/-- The byte offsets as they are written. -/
def writtenByteoffsets (children : List ExtentinfoChild) : List (Option ℤ) :=
  (extentFields children).map writtenByteoffset

section Extents

variable {version : ℕ}

/-- Reading and inserting can be told apart: the elements are all readable, and the
extents they stand for go into the list one by one. -/
theorem parseExtents_eq_ok (children : List ExtentinfoChild) : ∀ {d d' : ExtentList},
    parseExtents version children d = .ok d' ↔
      (∀ c ∈ children, c.Readable version) ∧
      (writtenExtents version children).foldlM (addParsed version) d = .ok d' := by
  induction children with
  | nil => simp [parseExtents, writtenExtents]
  | cons c children ih =>
    intro d d'
    have hrest : ∀ {d₁ : ExtentList}, children.foldlM (ExtentList.step version) d₁ = .ok d' ↔ _ :=
      fun {d₁} => @ih d₁ d'
    rw [parseExtents, List.foldlM_cons, List.forall_mem_cons]
    cases c with
    | unrecognized =>
      simp only [ExtentList.step, pure_bind, hrest, ExtentinfoChild.Readable, true_and]
      rfl
    | extent fields =>
      cases fields with
      | none =>
        simp only [ExtentinfoChild.Readable, false_and, iff_false]
        intro h
        obtain ⟨d₁, h₁, _⟩ := Except.bind_eq_ok.mp h
        cases h₁
      | some fields =>
        simp only [ExtentList.step, ExtentinfoChild.Readable]
        cases hread : readExtentTags version fields with
        | error code =>
          simp only [reduceCtorEq, exists_false, false_and, iff_false]
          intro h
          obtain ⟨d₁, h₁, _⟩ := Except.bind_eq_ok.mp h
          obtain ⟨xt, hxt, _⟩ := Except.bind_eq_ok.mp h₁
          cases hxt
        | ok xt =>
          have hcons : writtenExtents version (.extent (some fields) :: children)
              = xt :: writtenExtents version children := by
            simp [writtenExtents, ExtentinfoChild.read?, hread, Except.toOption]
          simp only [hcons, Except.ok.injEq, exists_eq', true_and, List.foldlM_cons]
          rw [Except.bind_eq_ok, Except.bind_eq_ok]
          constructor
          · rintro ⟨d₁, h₁, h⟩
            obtain ⟨hread', hfold⟩ := hrest.mp h
            exact ⟨hread', d₁, h₁, hfold⟩
          · rintro ⟨hread', d₁, h₁, hfold⟩
            exact ⟨d₁, h₁, hrest.mpr ⟨hread', hfold⟩⟩

/-- One extent put into the list. -/
theorem addParsed_eq_ok {d d' : ExtentList} {xt : XmlExtent} :
    addParsed version d xt = .ok d' ↔
      insertExtent (placeExtent version d.extentlist xt) d.extentlist.reverse []
        = some d'.extentlist ∧ d'.realsize = (d.realsize + xt.bytecount) % 2 ^ 64 := by
  have hcount : (placeExtent version d.extentlist xt).bytecount = xt.bytecount := by
    unfold placeExtent
    split <;> rfl
  unfold addParsed
  dsimp only
  rw [hcount]
  cases insertExtent (placeExtent version d.extentlist xt) d.extentlist.reverse [] with
  | none => simp [throw, throwThe, MonadExceptOf.throw]
  | some l =>
    rcases d' with ⟨l', realsize⟩
    simp only [pure, Except.pure, Except.ok.injEq, ExtentList.mk.injEq, Option.some.injEq]
    constructor
    · rintro ⟨rfl, rfl⟩
      exact ⟨rfl, rfl⟩
    · rintro ⟨rfl, rfl⟩
      exact ⟨rfl, rfl⟩

/-- Whatever the ends are, adding extents only adds to the list, and `realsize` counts. -/
theorem foldlM_addParsed_grows (xs : List XmlExtent) : ∀ {d d' : ExtentList},
    d.realsize < 2 ^ 64 → xs.foldlM (addParsed version) d = .ok d' →
    (∃ ys, d'.extentlist.Perm (d.extentlist ++ ys) ∧
      ys.map XmlExtent.bytecount = xs.map XmlExtent.bytecount ∧
      ys.map XmlExtent.byteoffset = xs.map XmlExtent.byteoffset ∧
      (idxVersionSparse ≤ version → ys = xs)) ∧
    d'.realsize = (d.realsize + (xs.map XmlExtent.bytecount).sum) % 2 ^ 64 := by
  induction xs with
  | nil =>
    intro d d' hreal h
    simp only [List.foldlM_nil, pure, Except.pure, Except.ok.injEq] at h
    rw [← h]
    refine ⟨⟨[], by simp, rfl, rfl, fun _ => rfl⟩, ?_⟩
    rw [List.map_nil, List.sum_nil, Nat.add_zero, Nat.mod_eq_of_lt hreal]
  | cons xt xs ih =>
    intro d d' hreal h
    rw [List.foldlM_cons] at h
    obtain ⟨d₁, h₁, h⟩ := Except.bind_eq_ok.mp h
    obtain ⟨hins, hreal₁⟩ := addParsed_eq_ok.mp h₁
    have hlt : d₁.realsize < 2 ^ 64 := by
      rw [hreal₁]
      exact Nat.mod_lt _ (by norm_num)
    obtain ⟨⟨ys, hperm, hcount, hoff, hsparse⟩, hreal'⟩ := ih hlt h
    have hperm₁ := insertExtent_perm d.extentlist.reverse hins
    rw [List.reverse_reverse, List.append_nil] at hperm₁
    refine ⟨⟨placeExtent version d.extentlist xt :: ys, ?_, ?_, ?_, ?_⟩, ?_⟩
    · calc d'.extentlist.Perm (d₁.extentlist ++ ys) := hperm
        _ |>.Perm ((placeExtent version d.extentlist xt :: d.extentlist) ++ ys) :=
          hperm₁.append_right ys
        _ |>.Perm (d.extentlist ++ placeExtent version d.extentlist xt :: ys) :=
          List.perm_middle.symm
    · rw [List.map_cons, List.map_cons, hcount]
      congr 1
      unfold placeExtent
      split <;> rfl
    · rw [List.map_cons, List.map_cons, hoff]
      congr 1
      unfold placeExtent
      split <;> rfl
    · intro hv
      rw [hsparse hv, placeExtent, if_pos hv]
    · rw [hreal', hreal₁, List.map_cons, List.sum_cons, Nat.mod_add_mod, Nat.add_assoc]

/-- With file offsets in the document, and no end that passes the 64-bit range, the extents are
inserted as segments. -/
theorem foldlM_addParsed_sparse (hv : idxVersionSparse ≤ version) (xs : List XmlExtent) :
    ∀ {d d' : ExtentList}, d.realsize < 2 ^ 64 → Ordered d.extentlist →
    (∀ e ∈ d.extentlist, stop e < 2 ^ 64) → (∀ x ∈ xs, stop x < 2 ^ 64) →
    (xs.foldlM (addParsed version) d = .ok d' ↔
      insertAll d.extentlist xs = some d'.extentlist ∧
      d'.realsize = (d.realsize + (xs.map XmlExtent.bytecount).sum) % 2 ^ 64) := by
  induction xs with
  | nil =>
    intro d d' hreal _ _ _
    rcases d with ⟨l, realsize⟩
    rcases d' with ⟨l', realsize'⟩
    simp only [List.foldlM_nil, pure, Except.pure, Except.ok.injEq, ExtentList.mk.injEq,
      insertAll, Option.some.injEq, List.map_nil, List.sum_nil, Nat.add_zero,
      Nat.mod_eq_of_lt hreal, eq_comm]
  | cons xt xs ih =>
    intro d d' hreal hord hends hxs
    rw [List.forall_mem_cons] at hxs
    have hwalk : insertExtent (placeExtent version d.extentlist xt) d.extentlist.reverse []
        = insertBack xt d.extentlist.reverse [] := by
      rw [placeExtent, if_pos hv]
      exact insertExtent_eq_insertBack hxs.1 _ _ (by simpa using hends)
    rw [List.foldlM_cons, Except.bind_eq_ok, insertAll, Option.bind_eq_some_iff]
    -- the state after the first extent, on both sides
    have hnext : ∀ d₁ : ExtentList, insertBack xt d.extentlist.reverse [] = some d₁.extentlist →
        d₁.realsize = (d.realsize + xt.bytecount) % 2 ^ 64 →
        (xs.foldlM (addParsed version) d₁ = .ok d' ↔
          insertAll d₁.extentlist xs = some d'.extentlist ∧
          d'.realsize = (d.realsize + ((xt :: xs).map XmlExtent.bytecount).sum) % 2 ^ 64) := by
      intro d₁ hl hr
      obtain ⟨hord₁, hperm⟩ := insertBack_some d.extentlist.reverse (by simpa using hord)
        (by simp) hl
      have hends₁ : ∀ e ∈ d₁.extentlist, stop e < 2 ^ 64 := by
        intro e he
        rw [hperm.mem_iff, List.mem_cons, List.reverse_reverse, List.append_nil] at he
        rcases he with rfl | he
        · exact hxs.1
        · exact hends e he
      rw [ih (by rw [hr]; exact Nat.mod_lt _ (by norm_num)) hord₁ hends₁ hxs.2, hr,
        List.map_cons, List.sum_cons, Nat.mod_add_mod, Nat.add_assoc]
    constructor
    · rintro ⟨d₁, h₁, h⟩
      rw [addParsed_eq_ok, hwalk] at h₁
      obtain ⟨hall, hreal'⟩ := (hnext d₁ h₁.1 h₁.2).mp h
      exact ⟨⟨d₁.extentlist, h₁.1, hall⟩, hreal'⟩
    · rintro ⟨⟨l₁, hl₁, hall⟩, hreal'⟩
      refine ⟨⟨l₁, (d.realsize + xt.bytecount) % 2 ^ 64⟩, ?_, ?_⟩
      · rw [addParsed_eq_ok, hwalk]
        exact ⟨hl₁, rfl⟩
      · exact (hnext _ hl₁ rfl).mpr ⟨hall, hreal'⟩

end Extents

/-! ## Older versions

Without file offsets in the document every extent begins where the one before it ends. -/

/-- The extents one behind the other, from `offset` on. -/
def placeAll : ℕ → List XmlExtent → List XmlExtent
  | _, [] => []
  | offset, xt :: xs =>
    { xt with fileoffset := offset } :: placeAll (offset + xt.bytecount) xs

/-- The extents of an extentinfo element, at their places in the file. -/
def placedExtents (version : ℕ) (children : List ExtentinfoChild) : List XmlExtent :=
  if version ≥ idxVersionSparse then writtenExtents version children
  else placeAll 0 (writtenExtents version children)

section Old

variable {version : ℕ}

/-- The list ends at `offset`. -/
def EndsAt (offset : ℕ) (l : List XmlExtent) : Prop :=
  Ordered l ∧ offset < 2 ^ 64 ∧ (∀ e ∈ l, stop e ≤ offset) ∧
    (l.getLast?.map XmlExtent.fileoffsetEnd).getD 0 = offset

/-- An extent of an older version goes behind the last one. -/
theorem addParsed_old (hv : version < idxVersionSparse) {offset : ℕ} {d : ExtentList}
    (hend : EndsAt offset d.extentlist) {xt : XmlExtent} (hxt : offset + xt.bytecount < 2 ^ 64) :
    addParsed version d xt = .ok ⟨d.extentlist ++ [{ xt with fileoffset := offset }],
      (d.realsize + xt.bytecount) % 2 ^ 64⟩ ∧
    EndsAt (offset + xt.bytecount) (d.extentlist ++ [{ xt with fileoffset := offset }]) := by
  obtain ⟨hord, hoff, hle, hlast⟩ := hend
  have hplace : placeExtent version d.extentlist xt = { xt with fileoffset := offset } := by
    rw [placeExtent, if_neg (not_le.mpr hv), hlast]
  have hord' : Ordered (d.extentlist ++ [{ xt with fileoffset := offset }]) := by
    rw [ordered_append]
    refine ⟨hord, ordered_cons.mpr ⟨by simp, ordered_nil⟩, ?_⟩
    intro s hs t ht
    rw [List.mem_singleton.mp ht]
    exact hle s hs
  constructor
  · rw [addParsed_eq_ok, hplace]
    refine ⟨?_, rfl⟩
    have hback := @insertExtent_eq_insertBack { xt with fileoffset := offset } hxt
      d.extentlist.reverse [] (fun e he => (hle e (by simpa using he)).trans_lt hoff)
    have hall := insertAll_of_ordered [{ xt with fileoffset := offset }] hord'
    rw [insertAll] at hall
    rw [hback]
    cases hb : insertBack { xt with fileoffset := offset } d.extentlist.reverse [] with
    | none =>
      rw [hb] at hall
      cases hall
    | some l =>
      rw [hb] at hall
      exact hall
  · refine ⟨hord', hxt, ?_, ?_⟩
    · intro e he
      rcases List.mem_append.mp he with he | he
      · exact (hle e he).trans (Nat.le_add_right _ _)
      · rw [List.mem_singleton.mp he]
        exact le_refl _
    · rw [List.getLast?_concat]
      exact XmlExtent.fileoffsetEnd_eq hxt

/-- When no end passes the 64-bit range, the list of an older version is the extents one behind
the other. -/
theorem foldlM_addParsed_old (hv : version < idxVersionSparse) (xs : List XmlExtent) :
    ∀ {offset : ℕ} {d : ExtentList}, d.realsize < 2 ^ 64 → EndsAt offset d.extentlist →
    (∀ x ∈ placeAll offset xs, stop x < 2 ^ 64) →
    xs.foldlM (addParsed version) d = .ok ⟨d.extentlist ++ placeAll offset xs,
      (d.realsize + (xs.map XmlExtent.bytecount).sum) % 2 ^ 64⟩ ∧
    Ordered (d.extentlist ++ placeAll offset xs) := by
  induction xs with
  | nil =>
    intro offset d hreal hend _
    simp only [List.foldlM_nil, placeAll, List.append_nil, List.map_nil, List.sum_nil,
      Nat.add_zero, Nat.mod_eq_of_lt hreal]
    exact ⟨rfl, hend.1⟩
  | cons xt xs ih =>
    intro offset d hreal hend hends
    rw [placeAll, List.forall_mem_cons] at hends
    have hxt : offset + xt.bytecount < 2 ^ 64 := hends.1
    obtain ⟨hadd, hend'⟩ := addParsed_old hv hend hxt
    obtain ⟨h1, h2⟩ := @ih (offset + xt.bytecount) ⟨_, (d.realsize + xt.bytecount) % 2 ^ 64⟩
      (Nat.mod_lt _ (by norm_num)) hend' hends.2
    rw [List.foldlM_cons, hadd]
    simp only [List.append_assoc, List.singleton_append, Nat.mod_add_mod, Nat.add_assoc] at h1 h2
    simp only [placeAll, List.map_cons, List.sum_cons]
    exact ⟨h1, h2⟩

/-- A list of an older version in which no end passes the 64-bit range was built without one
that does. -/
theorem placeAll_ends (hv : version < idxVersionSparse) (xs : List XmlExtent) :
    ∀ {offset : ℕ} {d d' : ExtentList}, d.realsize < 2 ^ 64 → EndsAt offset d.extentlist →
    xs.foldlM (addParsed version) d = .ok d' → (∀ e ∈ d'.extentlist, stop e < 2 ^ 64) →
    ∀ x ∈ placeAll offset xs, stop x < 2 ^ 64 := by
  induction xs with
  | nil => exact fun _ _ _ _ x hx => (nomatch hx)
  | cons xt xs ih =>
    intro offset d d' hreal hend h hends
    rw [List.foldlM_cons] at h
    obtain ⟨d₁, h₁, h⟩ := Except.bind_eq_ok.mp h
    obtain ⟨hins, hreal₁⟩ := addParsed_eq_ok.mp h₁
    have hlt : d₁.realsize < 2 ^ 64 := by
      rw [hreal₁]
      exact Nat.mod_lt _ (by norm_num)
    -- the extent is still there at the end
    have hplace : placeExtent version d.extentlist xt = { xt with fileoffset := offset } := by
      rw [placeExtent, if_neg (not_le.mpr hv), hend.2.2.2]
    have hmem : { xt with fileoffset := offset } ∈ d'.extentlist := by
      obtain ⟨⟨ys, hperm, _⟩, _⟩ := foldlM_addParsed_grows xs hlt h
      have hperm₁ := insertExtent_perm d.extentlist.reverse hins
      rw [hplace] at hperm₁
      rw [hperm.mem_iff, List.mem_append, hperm₁.mem_iff]
      exact Or.inl List.mem_cons_self
    have hxt : offset + xt.bytecount < 2 ^ 64 := hends _ hmem
    obtain ⟨hadd, hend'⟩ := addParsed_old hv hend hxt
    rw [h₁, Except.ok.injEq] at hadd
    rw [placeAll, List.forall_mem_cons]
    refine ⟨hxt, ?_⟩
    rw [hadd] at h hlt
    exact ih hlt hend' h hends

end Old

/-! ## When the extents are as they are written -/

/-- What the extents of an accepted file should be. -/
structure ExtentsParsed (children : List ExtentinfoChild) (size : ℕ) (d : ExtentList) : Prop where
  ordered : Ordered d.extentlist
  within : ∀ e ∈ d.extentlist, stop e ≤ size
  byteoffset_lt : ∀ e ∈ d.extentlist, e.byteoffset < 2 ^ 32
  byteoffset :
    (d.extentlist.map fun e => some (e.byteoffset : ℤ)).Perm (writtenByteoffsets children)
  realsize : d.realsize = (d.extentlist.map XmlExtent.bytecount).sum

/-- The numbers of the document are in range, and no two different extents are empty at the same
place. Older versions have no places to compare. -/
structure InRange (version : ℕ) (children : List ExtentinfoChild) : Prop where
  ends : ∀ x ∈ placedExtents version children, stop x < 2 ^ 64
  byteoffset : ∀ fields ∈ extentFields children, ByteoffsetFits fields
  distinct : idxVersionSparse ≤ version → DistinctEmpty (placedExtents version children)

section Main

variable {version : ℕ}

/-- The byte offsets kept, element by element. -/
theorem writtenExtents_byteoffset (children : List ExtentinfoChild)
    (hread : ∀ c ∈ children, c.Readable version) :
    (writtenExtents version children).map XmlExtent.byteoffset
      = (extentFields children).map storedByteoffset ∧
    ∀ fields ∈ extentFields children, (readByteoffset fields).isSome = true := by
  induction children with
  | nil => exact ⟨rfl, by simp [extentFields]⟩
  | cons c children ih =>
    rw [List.forall_mem_cons] at hread
    have hrest := ih hread.2
    cases c with
    | unrecognized => exact hrest
    | extent fields =>
      cases fields with
      | none => exact absurd hread.1 id
      | some fields =>
        obtain ⟨xt, hxt⟩ := hread.1
        obtain ⟨n, hn, hbyte⟩ := readExtentTags_byteoffset hxt
        have h1 : writtenExtents version (.extent (some fields) :: children)
            = xt :: writtenExtents version children := by
          simp [writtenExtents, ExtentinfoChild.read?, hxt, Except.toOption]
        have h2 : extentFields (.extent (some fields) :: children)
            = fields :: extentFields children := by
          simp [extentFields]
        rw [h1, h2, List.map_cons, List.map_cons, List.forall_mem_cons, hrest.1]
        refine ⟨?_, by rw [hn]; rfl, hrest.2⟩
        rw [hbyte, storedByteoffset, hn]
        rfl

/-- Numbers that are not above others, in whatever order these are, are the same. -/
theorem eq_of_map_perm {α : Type} {l : List α} {f g : α → ℕ} (hle : ∀ a ∈ l, f a ≤ g a)
    (hperm : (l.map f).Perm (l.map g)) : ∀ a ∈ l, f a = g a := by
  intro a ha
  by_contra hne
  have hlt := List.sum_lt_sum f g hle ⟨a, ha, lt_of_le_of_ne (hle a ha) hne⟩
  exact absurd hperm.sum_eq hlt.ne

/-- The byte offsets kept are those written if and only if all of them fit. -/
theorem storedByteoffsets_perm_iff {l : List (List ExtentField)}
    (hread : ∀ fields ∈ l, (readByteoffset fields).isSome = true) :
    (l.map fun fields => some (storedByteoffset fields : ℤ)).Perm (l.map writtenByteoffset) ↔
      ∀ fields ∈ l, ByteoffsetFits fields := by
  constructor
  · intro hperm
    -- every number written is one that is kept
    have hwritten : ∀ fields ∈ l, ∃ n : ℕ, n < 2 ^ 32 ∧ writtenByteoffset fields = some (n : ℤ) := by
      intro fields hfields
      obtain ⟨fields', -, h⟩ := List.mem_map.mp
        (hperm.mem_iff.mpr (List.mem_map_of_mem hfields))
      exact ⟨_, Nat.mod_lt _ (Nat.two_pow_pos 32), h.symm⟩
    have hnat := hperm.map fun n => (n.getD 0).toNat
    rw [List.map_map, List.map_map] at hnat
    have hsame := eq_of_map_perm (fun fields hfields => ?_) hnat
    · intro fields hfields
      obtain ⟨n, -, hn⟩ := hwritten fields hfields
      have h := hsame fields hfields
      rw [← storedByteoffset_eq_written_iff (hread fields hfields), hn]
      simp only [Function.comp_apply, hn, Option.getD_some, Int.toNat_natCast] at h
      rw [h]
    · obtain ⟨n, hlt, hn⟩ := hwritten fields hfields
      obtain ⟨m, hm⟩ := Option.isSome_iff_exists.mp (hread fields hfields)
      obtain ⟨hstored, hle⟩ := storedByteoffset_of_written hm hn (by omega) (by omega)
      simp only [Function.comp_apply, hn, Option.getD_some, Int.toNat_natCast]
      omega
  · intro hfits
    refine List.Perm.of_eq (List.map_congr_left fun fields hfields => ?_)
    exact (storedByteoffset_eq_written_iff (hread fields hfields)).mpr (hfits fields hfields)

/-- A new order of the extents read can be brought about by a new order of the elements. -/
theorem exists_perm_filterMap {α β : Type} (g : α → Option β) :
    ∀ {l : List β} {m : List α}, l.Perm (m.filterMap g) →
      ∃ m' : List α, m'.Perm m ∧ m'.filterMap g = l := by
  intro l
  induction l with
  | nil => exact fun {m} h => ⟨m, List.Perm.refl m, h.nil_eq.symm⟩
  | cons b l ih =>
    intro m h
    have hb : b ∈ m.filterMap g := h.mem_iff.mp List.mem_cons_self
    obtain ⟨a, ha, hga⟩ := List.mem_filterMap.mp hb
    obtain ⟨s, t, rfl⟩ := List.append_of_mem ha
    -- the element of `b` comes first, the others keep their order
    have hsplit : (s ++ a :: t).filterMap g = s.filterMap g ++ b :: t.filterMap g := by
      rw [List.filterMap_append, List.filterMap_cons_some hga]
    rw [hsplit] at h
    have hrest : l.Perm ((s ++ t).filterMap g) := by
      rw [List.filterMap_append]
      exact (h.trans List.perm_middle).cons_inv
    obtain ⟨m', hm', hmap⟩ := ih hrest
    exact ⟨a :: m', (hm'.cons a).trans List.perm_middle.symm,
      by rw [List.filterMap_cons_some hga, hmap]⟩

/-- The last extent of an ordered list is the one that `_xml_parse_file` compares. -/
theorem stop_le_of_last {l : List XmlExtent} {size : ℕ} (hord : Ordered l)
    (hends : ∀ e ∈ l, stop e < 2 ^ 64)
    (hlast : (l.getLast?.map XmlExtent.fileoffsetEnd).getD 0 ≤ size) :
    ∀ e ∈ l, stop e ≤ size := by
  intro e he
  cases hl : l.getLast? with
  | none =>
    rw [List.getLast?_eq_none_iff] at hl
    rw [hl] at he
    cases he
  | some last =>
    rw [hl, Option.map_some, Option.getD_some,
      XmlExtent.fileoffsetEnd_eq (hends last (List.mem_of_getLast? hl))] at hlast
    exact (hord.stop_le_last hl he).trans hlast

/-- Ordered extents within the file cannot overflow `realsize`. -/
theorem sum_bytecount_lt {l : List XmlExtent} {size : ℕ} (hord : Ordered l)
    (hwithin : ∀ e ∈ l, stop e ≤ size) (hsize : size < 2 ^ 64) :
    (l.map XmlExtent.bytecount).sum < 2 ^ 64 := by
  have hsum := @Ordered.sum_len_le _ _ l 0 size hord (Nat.zero_le _) (fun _ _ => Nat.zero_le _)
    hwithin
  have hlen : l.map len = l.map XmlExtent.bytecount := rfl
  rw [hlen] at hsum
  omega

/-- With all numbers in range, the extents come out in order, and the list is a new order of the
extents at their places. -/
theorem parseExtents_inRange {children : List ExtentinfoChild} {d : ExtentList}
    (h : parseExtents version children ExtentList.empty = .ok d)
    (hends : ∀ x ∈ placedExtents version children, stop x < 2 ^ 64) :
    Ordered d.extentlist ∧ d.extentlist.Perm (placedExtents version children) := by
  obtain ⟨_, hfold⟩ := (parseExtents_eq_ok children).mp h
  by_cases hv : idxVersionSparse ≤ version
  · rw [placedExtents, if_pos hv] at hends ⊢
    obtain ⟨hall, _⟩ := (foldlM_addParsed_sparse hv _ (by decide) ordered_nil (by simp
      [ExtentList.empty]) hends).mp hfold
    have hspec := insertAll_spec _ ordered_nil hall
    rwa [List.nil_append] at hspec
  · rw [placedExtents, if_neg hv] at hends ⊢
    have hempty : EndsAt 0 ExtentList.empty.extentlist :=
      ⟨ordered_nil, by norm_num, by simp [ExtentList.empty], rfl⟩
    obtain ⟨hall, hord⟩ := foldlM_addParsed_old (not_le.mp hv) _ (by decide) hempty hends
    rw [hfold, Except.ok.injEq] at hall
    rw [hall]
    exact ⟨hord, List.Perm.refl _⟩

/-- Ends of a list that is as it should be are in range, and so are the ends it was built
from. -/
theorem ExtentsParsed.ends {children : List ExtentinfoChild} {size : ℕ} {d : ExtentList}
    (h : parseExtents version children ExtentList.empty = .ok d) (hsize : size < 2 ^ 64)
    (hok : ExtentsParsed children size d) :
    ∀ x ∈ placedExtents version children, stop x < 2 ^ 64 := by
  obtain ⟨_, hfold⟩ := (parseExtents_eq_ok children).mp h
  have hends : ∀ e ∈ d.extentlist, stop e < 2 ^ 64 :=
    fun e he => (hok.within e he).trans_lt hsize
  by_cases hv : idxVersionSparse ≤ version
  · rw [placedExtents, if_pos hv]
    obtain ⟨⟨ys, hperm, _, _, hys⟩, _⟩ := foldlM_addParsed_grows _ (by decide) hfold
    intro x hx
    rw [← hys hv] at hx
    exact hends x (hperm.mem_iff.mpr (List.mem_append_right _ hx))
  · rw [placedExtents, if_neg hv]
    have hempty : EndsAt 0 ExtentList.empty.extentlist :=
      ⟨ordered_nil, by norm_num, by simp [ExtentList.empty], rfl⟩
    exact placeAll_ends (not_le.mp hv) _ (by decide) hempty hfold hends

/-- Where files have places for their extents, the order of the elements is free if and only if
empty extents at one place are equal. -/
theorem parseExtents_order_free_iff (hv : idxVersionSparse ≤ version)
    {children : List ExtentinfoChild} {d : ExtentList}
    (h : parseExtents version children ExtentList.empty = .ok d)
    (hends : ∀ x ∈ placedExtents version children, stop x < 2 ^ 64) :
    (∀ children' : List ExtentinfoChild, children'.Perm children →
        parseExtents version children' ExtentList.empty = .ok d) ↔
      DistinctEmpty (placedExtents version children) := by
  obtain ⟨hread, hfold⟩ := (parseExtents_eq_ok children).mp h
  rw [placedExtents, if_pos hv] at hends ⊢
  have hrun : ∀ xs : List XmlExtent, xs.Perm (writtenExtents version children) →
      (xs.foldlM (addParsed version) ExtentList.empty = .ok d ↔
        insertAll [] xs = some d.extentlist) := by
    intro xs hxs
    have hreal : d.realsize = (0 + (xs.map XmlExtent.bytecount).sum) % 2 ^ 64 := by
      rw [(foldlM_addParsed_grows _ (by decide) hfold).2, (hxs.map _).sum_eq]
      rfl
    rw [foldlM_addParsed_sparse hv xs (by decide) ordered_nil (by simp [ExtentList.empty])
      (fun x hx => hends x (hxs.mem_iff.mp hx))]
    exact ⟨fun h => h.1, fun h => ⟨h, hreal⟩⟩
  rw [← insertAll_order_free_iff ((hrun _ (List.Perm.refl _)).mp hfold)]
  constructor
  · intro hfree xs hxs
    obtain ⟨children', hperm, hmap⟩ := exists_perm_filterMap _ hxs
    have hfed := ((parseExtents_eq_ok children').mp (hfree children' hperm)).2
    rw [writtenExtents, hmap] at hfed
    exact (hrun xs hxs).mp hfed
  · intro hfree children' hperm
    have hxs : (writtenExtents version children').Perm (writtenExtents version children) :=
      hperm.filterMap _
    rw [parseExtents_eq_ok]
    exact ⟨fun c hc => hread c (hperm.mem_iff.mp hc), (hrun _ hxs).mpr (hfree _ hxs)⟩

/-- The extents of an accepted file are as they should be, in any order of the elements, if and
only if the numbers of the document are in range. -/
theorem parseExtents_iff {children : List ExtentinfoChild} {size : ℕ} {d : ExtentList}
    (h : parseExtents version children ExtentList.empty = .ok d) (hsize : size < 2 ^ 64)
    (hlast : (d.extentlist.getLast?.map XmlExtent.fileoffsetEnd).getD 0 ≤ size) :
    (ExtentsParsed children size d ∧ (idxVersionSparse ≤ version →
        ∀ children' : List ExtentinfoChild, children'.Perm children →
          parseExtents version children' ExtentList.empty = .ok d)) ↔
      InRange version children := by
  obtain ⟨hread, hfold⟩ := (parseExtents_eq_ok children).mp h
  obtain ⟨⟨ys, hperm, hcount, hoff, _⟩, hreal⟩ := foldlM_addParsed_grows _ (by decide) hfold
  rw [ExtentList.empty, List.nil_append] at hperm
  simp only [ExtentList.empty, Nat.zero_add] at hreal
  -- the byte offsets of the list are those kept of the elements
  obtain ⟨hkept, hsome⟩ := writtenExtents_byteoffset children hread
  have hbytes : (d.extentlist.map fun e => some (e.byteoffset : ℤ)).Perm
      ((extentFields children).map fun fields => some (storedByteoffset fields : ℤ)) := by
    have hmap := ((hperm.map XmlExtent.byteoffset).trans (.of_eq (hoff.trans hkept))).map
      fun k : ℕ => some (k : ℤ)
    simpa only [List.map_map, Function.comp_def] using hmap
  have hsum : (d.extentlist.map XmlExtent.bytecount).sum
      = ((writtenExtents version children).map XmlExtent.bytecount).sum := by
    rw [← hcount]
    exact (hperm.map _).sum_eq
  constructor
  · rintro ⟨hok, hfree⟩
    have hends := hok.ends h hsize
    refine ⟨hends, ?_, fun hv => (parseExtents_order_free_iff hv h hends).mp (hfree hv)⟩
    exact (storedByteoffsets_perm_iff hsome).mp (hbytes.symm.trans hok.byteoffset)
  · rintro ⟨hends, hbyte, hdistinct⟩
    obtain ⟨hord, hplaced⟩ := parseExtents_inRange h hends
    have hends' : ∀ e ∈ d.extentlist, stop e < 2 ^ 64 :=
      fun e he => hends e (hplaced.mem_iff.mp he)
    have hwithin := stop_le_of_last hord hends' hlast
    have hwritten : (d.extentlist.map fun e => some (e.byteoffset : ℤ)).Perm
        (writtenByteoffsets children) :=
      hbytes.trans ((storedByteoffsets_perm_iff hsome).mpr hbyte)
    refine ⟨⟨hord, hwithin, ?_, hwritten, ?_⟩,
      fun hv => (parseExtents_order_free_iff hv h hends).mpr (hdistinct hv)⟩
    · intro e he
      have hmem : some ((e.byteoffset : ℕ) : ℤ) ∈
          (extentFields children).map fun fields => some (storedByteoffset fields : ℤ) :=
        hbytes.mem_iff.mp (List.mem_map.mpr ⟨e, he, rfl⟩)
      obtain ⟨fields, -, hfields⟩ := List.mem_map.mp hmem
      have hlt : storedByteoffset fields < 2 ^ 32 := Nat.mod_lt _ (Nat.two_pow_pos 32)
      have := Option.some.inj hfields
      omega
    · rw [hreal, ← hsum, Nat.mod_eq_of_lt (sum_bytecount_lt hord hwithin hsize)]

end Main

/-! ## The file element -/

/-- The content of the extentinfo elements of a file element. -/
def extentsIn (children : List FileChild) : List ExtentinfoChild :=
  children.flatMap fun
    | .extentinfo (some extents) => extents
    | _ => []

/-- The file element with other content in its extentinfo element. -/
def withExtents (extents : List ExtentinfoChild) (children : List FileChild) : List FileChild :=
  children.map fun
    | .extentinfo (some _) => .extentinfo (some extents)
    | c => c

section File

variable {version : ℕ}

theorem FileVars.step_plain {s s' : FileVars} {tag : PlainTag} {ret : ℤ}
    (h : s.step version (.plain tag ret) = .ok s') : ∃ seen, s' = { s with seen } := by
  simp only [FileVars.step] at h
  split at h
  · simp only [pure, Except.pure, Except.ok.injEq] at h
    exact ⟨s.seen, h.symm⟩
  · split at h
    · cases h
    · split at h
      · cases h
      · simp only [pure, Except.pure, Except.ok.injEq] at h
        exact ⟨tag :: s.seen, h.symm⟩

/-- A round of the loop either reads the extents, for the first time, or leaves them alone. A
size it reads is a 64-bit number. -/
theorem FileVars.step_cases {s s' : FileVars} {c : FileChild} (h : s.step version c = .ok s') :
    (∃ extents, c = .extentinfo (some extents) ∧ s.haveExtentinfo = false ∧
      ∃ d, parseExtents version extents s.extents = .ok d ∧
        s' = { s with haveExtentinfo := true, extents := d }) ∨
    ((∀ extents, c ≠ .extentinfo (some extents)) ∧ s'.extents = s.extents ∧
      (s.haveExtentinfo = true → s'.haveExtentinfo = true) ∧
      (s'.size = s.size ∨ ∃ n, s'.size = some (toUllong n))) := by
  cases c with
  | length body =>
    obtain ⟨size, hsize, h⟩ := Except.bind_eq_ok.mp h
    obtain ⟨-, hreads⟩ := parseTagNumber_eq_ok hsize
    obtain ⟨u, rfl⟩ := Option.isSome_iff_exists.mp hreads.2.2
    obtain ⟨n, -, rfl⟩ := hreads.numeral
    simp only [pure, Except.pure, Except.ok.injEq] at h
    rw [← h]
    exact Or.inr ⟨by simp, rfl, id, Or.inr ⟨n, rfl⟩⟩
  | extentinfo content =>
    cases content with
    | none =>
      obtain ⟨_, _, h⟩ := Except.bind_eq_ok.mp h
      simp only [pure, Except.pure, Except.ok.injEq] at h
      rw [← h]
      exact Or.inr ⟨by simp, rfl, fun _ => rfl, Or.inl rfl⟩
    | some extents =>
      obtain ⟨_, hopt, h⟩ := Except.bind_eq_ok.mp h
      obtain ⟨d, hd, h⟩ := Except.bind_eq_ok.mp h
      simp only [pure, Except.pure, Except.ok.injEq] at h
      exact Or.inl ⟨extents, rfl, checkOptionalTag_eq_ok.mp hopt, d, hd, h.symm⟩
  | fileuid body =>
    right
    simp only [FileVars.step] at h
    split at h
    · obtain ⟨uid, _, h⟩ := Except.bind_eq_ok.mp h
      simp only [pure, Except.pure, Except.ok.injEq] at h
      rw [← h]
      exact ⟨by simp, rfl, id, Or.inl rfl⟩
    · simp only [pure, Except.pure, Except.ok.injEq] at h
      rw [← h]
      exact ⟨by simp, rfl, id, Or.inl rfl⟩
  | plain tag ret =>
    right
    obtain ⟨seen, rfl⟩ := FileVars.step_plain h
    exact ⟨by simp, rfl, id, Or.inl rfl⟩
  | unrecognized =>
    simp only [FileVars.step, pure, Except.pure, Except.ok.injEq] at h
    rw [← h]
    exact Or.inr ⟨by simp, rfl, id, Or.inl rfl⟩

/-- Behind an extentinfo element there is no other one. -/
theorem foldlM_haveExtentinfo (children : List FileChild) : ∀ {s s' : FileVars},
    s.haveExtentinfo = true → children.foldlM (FileVars.step version) s = .ok s' →
    s'.extents = s.extents ∧ extentsIn children = [] ∧
      ∀ extents, withExtents extents children = children := by
  induction children with
  | nil =>
    intro s s' _ h
    simp only [List.foldlM_nil, pure, Except.pure, Except.ok.injEq] at h
    rw [← h]
    exact ⟨rfl, rfl, fun _ => rfl⟩
  | cons c children ih =>
    intro s s' hhave h
    rw [List.foldlM_cons] at h
    obtain ⟨s₁, h₁, h⟩ := Except.bind_eq_ok.mp h
    rcases FileVars.step_cases h₁ with ⟨_, _, hnot, _⟩ | ⟨hother, hext, hkeep, _⟩
    · rw [hhave] at hnot
      cases hnot
    · obtain ⟨hext', hnil, hsame⟩ := ih (hkeep hhave) h
      have hc : extentsIn (c :: children) = extentsIn children ∧
          ∀ extents, withExtents extents (c :: children) = c :: withExtents extents children := by
        cases c with
        | extentinfo content =>
          cases content with
          | none => exact ⟨rfl, fun _ => rfl⟩
          | some extents => exact absurd rfl (hother extents)
        | length _ | fileuid _ | plain _ _ | unrecognized => exact ⟨rfl, fun _ => rfl⟩
      refine ⟨hext'.trans hext, hc.1.trans hnil, ?_⟩
      intro extents
      rw [hc.2, hsame]

/-- The loop over a file element reads the extents of its one extentinfo element, if it has
one; other extents that give the same list can take their place. -/
theorem foldlM_extents (children : List FileChild) : ∀ {s s' : FileVars},
    s.haveExtentinfo = false → s.extents = ExtentList.empty →
    children.foldlM (FileVars.step version) s = .ok s' →
    parseExtents version (extentsIn children) ExtentList.empty = .ok s'.extents ∧
    (∀ extents, parseExtents version extents ExtentList.empty = .ok s'.extents →
      (withExtents extents children).foldlM (FileVars.step version) s = .ok s') ∧
    ((extentsIn children = [] ∧ ∀ extents, withExtents extents children = children) ∨
      ∀ extents, extentsIn (withExtents extents children) = extents) := by
  induction children with
  | nil =>
    intro s s' _ hempty h
    simp only [List.foldlM_nil, pure, Except.pure, Except.ok.injEq] at h
    rw [← h, hempty]
    exact ⟨rfl, fun _ _ => rfl, Or.inl ⟨rfl, fun _ => rfl⟩⟩
  | cons c children ih =>
    intro s s' hnot hempty h
    rw [List.foldlM_cons] at h
    obtain ⟨s₁, h₁, h⟩ := Except.bind_eq_ok.mp h
    rcases FileVars.step_cases h₁ with ⟨extents, rfl, _, d, hd, rfl⟩ | ⟨hother, hext, hkeep, _⟩
    · -- the extentinfo element: the rest has no other one
      obtain ⟨hext', hnil, hsame⟩ := foldlM_haveExtentinfo children rfl h
      rw [hempty] at hd
      have hin : ∀ extents' : List ExtentinfoChild,
          extentsIn (.extentinfo (some extents') :: children) = extents' := by
        intro extents'
        show extents' ++ extentsIn children = extents'
        rw [hnil, List.append_nil]
      have hwith : ∀ extents' : List ExtentinfoChild,
          withExtents extents' (.extentinfo (some extents) :: children)
            = .extentinfo (some extents') :: children := by
        intro extents'
        show _ :: withExtents extents' children = _
        rw [hsame]
      refine ⟨by rw [hin, hd, hext'], ?_, Or.inr fun extents' => by rw [hwith, hin]⟩
      intro extents' hparse
      rw [hwith, List.foldlM_cons, FileVars.step, hnot, hempty, hparse, hext']
      exact h
    · have hc : extentsIn (c :: children) = extentsIn children ∧
          (∀ extents, withExtents extents (c :: children) = c :: withExtents extents children) ∧
          ∀ l, extentsIn (c :: l) = extentsIn l := by
        cases c with
        | extentinfo content =>
          cases content with
          | none => exact ⟨rfl, fun _ => rfl, fun _ => rfl⟩
          | some extents => exact absurd rfl (hother extents)
        | length _ | fileuid _ | plain _ _ | unrecognized =>
          exact ⟨rfl, fun _ => rfl, fun _ => rfl⟩
      by_cases hhave : s₁.haveExtentinfo = true
      · -- an extentinfo element without content
        obtain ⟨hext', hnil, hsame⟩ := foldlM_haveExtentinfo children hhave h
        rw [hc.1, hnil, hext', hext, hempty]
        have hsame' : ∀ extents, withExtents extents (c :: children) = c :: children := by
          intro extents
          rw [hc.2.1, hsame]
        refine ⟨rfl, ?_, Or.inl ⟨rfl, hsame'⟩⟩
        intro extents _
        rw [hsame', List.foldlM_cons, h₁]
        exact h
      · obtain ⟨hparse, hother', hshape⟩ := ih (by simpa using hhave) (hext.trans hempty) h
        refine ⟨by rw [hc.1]; exact hparse, ?_, ?_⟩
        · intro extents hextents
          rw [hc.2.1, List.foldlM_cons, h₁]
          exact hother' extents hextents
        · rcases hshape with ⟨hnil, hsame⟩ | hsome
          · refine Or.inl ⟨hc.1.trans hnil, ?_⟩
            intro extents
            rw [hc.2.1, hsame]
          · refine Or.inr ?_
            intro extents
            rw [hc.2.1, hc.2.2, hsome]

/-- The size is a 64-bit number. -/
theorem foldlM_size_lt (children : List FileChild) : ∀ {s s' : FileVars},
    (∀ n, s.size = some n → n < 2 ^ 64) → children.foldlM (FileVars.step version) s = .ok s' →
    ∀ n, s'.size = some n → n < 2 ^ 64 := by
  induction children with
  | nil =>
    intro s s' hs h
    simp only [List.foldlM_nil, pure, Except.pure, Except.ok.injEq] at h
    rwa [← h]
  | cons c children ih =>
    intro s s' hs h
    rw [List.foldlM_cons] at h
    obtain ⟨s₁, h₁, h⟩ := Except.bind_eq_ok.mp h
    refine ih ?_ h
    rcases FileVars.step_cases h₁ with ⟨_, _, _, d, _, rfl⟩ | ⟨_, _, _, hsize | ⟨n, hsize⟩⟩
    · exact hs
    · rwa [hsize]
    · intro m hm
      rw [hsize, Option.some.injEq] at hm
      rw [← hm]
      exact toUllong_lt n

/-- What the part behind the loop has checked. -/
theorem finishFile_eq_ok {newUid : ℕ} {s : FileVars} {d : ParsedFile}
    (h : finishFile version newUid s = .ok d) :
    s.size = some d.size ∧ s.extents = d.extents ∧
    (d.extents.extentlist.getLast?.map XmlExtent.fileoffsetEnd).getD 0 ≤ d.size ∧
    (if version ≥ idxVersionSparse then s.uid else some newUid) = some d.uid := by
  unfold finishFile at h
  dsimp only at h
  split at h
  · cases h
  · split at h
    · rename_i size uid hsize huid
      split at h
      · cases h
      · rename_i hlast
        split at h
        · cases h
        · simp only [pure, Except.pure, Except.ok.injEq] at h
          rw [← h]
          exact ⟨hsize, rfl, not_lt.mp hlast, huid⟩
    · cases h

/-- The extents of an accepted file element are sorted, disjoint and within the length, with the
byte offsets of the document, and do not depend on the order of their elements, if and only if
no end passes the 64-bit range, every byte offset fits in 32 bits, and no two different extents
are empty at the same place. -/
theorem parse_file_iff {newUid : ℕ} {children : List FileChild} {d : ParsedFile}
    (h : parseFile version newUid children = .ok d) :
    (ExtentsParsed (extentsIn children) d.size d.extents ∧ (idxVersionSparse ≤ version →
        ∀ extents : List ExtentinfoChild, extents.Perm (extentsIn children) →
          parseFile version newUid (withExtents extents children) = .ok d)) ↔
      InRange version (extentsIn children) := by
  obtain ⟨s, hs, hfinish⟩ := Except.bind_eq_ok.mp h
  obtain ⟨hsize, hext, hlast, -⟩ := finishFile_eq_ok hfinish
  have hlt : d.size < 2 ^ 64 := foldlM_size_lt children (by simp [FileVars.init]) hs _ hsize
  obtain ⟨hparse, hother, hshape⟩ := foldlM_extents children rfl rfl hs
  rw [hext] at hparse hother
  rw [← parseExtents_iff hparse hlt hlast]
  refine and_congr_right fun _ => imp_congr_right fun _ => ?_
  constructor
  · intro hfile extents hperm
    obtain ⟨s', hs', hfinish'⟩ := Except.bind_eq_ok.mp (hfile extents hperm)
    obtain ⟨hparse', _⟩ := foldlM_extents _ rfl rfl hs'
    rw [(finishFile_eq_ok hfinish').2.1] at hparse'
    rcases hshape with ⟨hnil, _⟩ | hsome
    · -- no extents at all: there is only one order
      rw [hnil, List.perm_nil] at hperm
      rw [hperm, ← hnil]
      exact hparse
    · rwa [hsome] at hparse'
  · intro hextents extents hperm
    rw [parseFile, hother extents (hextents extents hperm)]
    exact hfinish

end File

/-! ## Two files -/

/-- The child elements of an extent in partition `b`. -/
def extentElement (startblock byteoffset bytecount fileoffset : String) : ExtentinfoChild :=
  .extent (some
    [⟨.fileoffset, .ofText fileoffset.toList⟩, ⟨.partition, .ofText ['b']⟩,
      ⟨.startblock, .ofText startblock.toList⟩, ⟨.byteoffset, .ofText byteoffset.toList⟩,
      ⟨.bytecount, .ofText bytecount.toList⟩])

/-- A file element with these extents. -/
def fileElement (length : String) (extents : List ExtentinfoChild) : List FileChild :=
  [.plain .name 0, .extentinfo (some extents), .length (.ofText length.toList),
    .plain .readonly 0, .plain .modifytime 0, .plain .creationtime 0, .plain .accesstime 0,
    .plain .changetime 0, .plain .backuptime 0, .fileuid (.ofText ['2'])]

/-- Two extents, the later one first. -/
def twoExtents : List FileChild :=
  fileElement "9" [extentElement "6" "0" "4" "5", extentElement "5" "1" "5" "0"]

theorem parseFile_twoExtents : parseFile 20400 0 twoExtents
    = .ok ⟨9, 2, ⟨[⟨'b', 5, 1, 5, 0⟩, ⟨'b', 6, 0, 4, 5⟩], 9⟩⟩ := by decide +kernel

/-- `parse_file_iff` at a file with two extents. -/
theorem parse_file_iff_twoExtents :
    (ExtentsParsed (extentsIn twoExtents) 9 ⟨[⟨'b', 5, 1, 5, 0⟩, ⟨'b', 6, 0, 4, 5⟩], 9⟩ ∧
      (idxVersionSparse ≤ 20400 → ∀ extents, extents.Perm (extentsIn twoExtents) →
        parseFile 20400 0 (withExtents extents twoExtents)
          = .ok ⟨9, 2, ⟨[⟨'b', 5, 1, 5, 0⟩, ⟨'b', 6, 0, 4, 5⟩], 9⟩⟩)) ↔
      InRange 20400 (extentsIn twoExtents) :=
  parse_file_iff parseFile_twoExtents

/-- An extent of two bytes at the last place of the 64-bit range, in a file of one byte. -/
def wrappingExtent : List FileChild :=
  fileElement "1" [extentElement "5" "0" "2" "18446744073709551615"]

theorem parseFile_wrappingExtent : parseFile 20400 0 wrappingExtent
    = .ok ⟨1, 2, ⟨[⟨'b', 5, 0, 2, 18446744073709551615⟩], 2⟩⟩ := by decide +kernel

/-- The end of that extent wraps to the end of the file, so the element is accepted. -/
theorem parse_file_wraps :
    ¬ ∀ (version newUid : ℕ) (children : List FileChild) (d : ParsedFile),
      parseFile version newUid children = .ok d →
      ExtentsParsed (extentsIn children) d.size d.extents ∧ (idxVersionSparse ≤ version →
        ∀ extents : List ExtentinfoChild, extents.Perm (extentsIn children) →
          parseFile version newUid (withExtents extents children) = .ok d) := by
  intro h
  have hparsed := (h 20400 0 wrappingExtent _ parseFile_wrappingExtent).1
  have hend := hparsed.within _ List.mem_cons_self
  exact absurd hend (by decide)

end Ltfs

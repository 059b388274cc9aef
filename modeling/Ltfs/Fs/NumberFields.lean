import Ltfs.Fs.ParseFile

/-!
# Numbers in an index

Every numeric field goes through `xml_parse_ull`, which takes whatever `strtoull` takes, and sees
no more of an element than its first text.

* `ReadsExactly` — a parser takes the texts of digits below 2^64 and no other, for their value.
* `parseElement` — the loop of the parsers that read a number or two besides other child elements:
  `xmlParseSchema`, `xmlParseDirtree`, `xmlParseTapepos`, `xmlParseIpCriteria`, `xmlParseLabel`.
* `Stored` — the numbers of the elements that have been accepted, as they are kept.
* `xml_parse_exact_iff` — for which texts the number kept is the one in the document.

What the parsers of the other child elements return is a parameter. Allocation failures, the list of
symlink conflicts, and processing instructions that have the name of the element around them are
left out.
-/

namespace Ltfs

open Time

/-! ## The two parsers -/

theorem xmlParseUll_eq (val : List Char) : xmlParseUll val = wholeNumber .dec val := by
  unfold xmlParseUll wholeNumber strtoull
  rw [scanNumber_dec]
  by_cases hnil : val = []
  · subst hnil
    rfl
  · rw [if_neg hnil]
    cases scanInt none val with
    | none => simp [hnil]
    | some read =>
      rcases read with ⟨n, rest⟩
      cases rest with
      | nil => rfl
      | cons c rest => rfl

theorem xmlParseXll_eq (val : List Char) : xmlParseXll val = wholeNumber .hex val := by
  unfold xmlParseXll wholeNumber
  rcases strtoull .hex val with ⟨n, rest⟩
  cases rest with
  | nil => rfl
  | cons c rest => rfl

/-- The parser takes exactly the texts of digits whose number is below `2 ^ 64`, for this number. -/
def ReadsExactly (parse : List Char → Option ℕ) (r : Radix) (val : List Char) : Prop :=
  parse val = exactNumber r val

/-! ## What is written -/

/-- The content of an element is a number of this many bits, written in digits alone, and so is the
text it begins with. -/
def Spelt (bits : ℕ) (body : TagBody Char) : Prop :=
  ∃ n < 2 ^ bits, exactNumber .dec body.content = some n ∧ exactNumber .dec body.firstText = some n

/-- What begins a text of digits is a number, and no larger one. -/
theorem exactNumber_of_prefix {r : Radix} {val val' : List Char} {n : ℕ} (hpre : val <+: val')
    (hne : val ≠ []) (h : exactNumber r val' = some n) : ∃ m ≤ n, exactNumber r val = some m := by
  obtain ⟨more, rfl⟩ := hpre
  unfold exactNumber at h ⊢
  split at h
  · rename_i hexact
    obtain ⟨-, hall, hlt⟩ := hexact
    cases h
    have hle := r.value_le_append val more
    rw [List.all_append, Bool.and_eq_true] at hall
    exact ⟨_, hle, if_pos ⟨hne, hall.1, hle.trans_lt hlt⟩⟩
  · cases h

/-- A number kept in `bits` bits is the one in the document exactly if that one is spelt well and
fits. -/
theorem TagBody.Reads.exact_iff {body : TagBody Char} {u : ℕ} (h : body.Reads (some u)) (bits : ℕ) :
    exactNumber .dec body.content = some (u % 2 ^ bits) ↔ Spelt bits body := by
  obtain ⟨hne, hread, -⟩ := h
  rw [xmlParseUll_eq] at hread
  constructor
  · intro hexact
    obtain ⟨m, hle, hfirst⟩ := exactNumber_of_prefix body.firstText_prefix hne hexact
    have hu : u = m := Option.some.inj (hread.trans (exactNumber_eq_some hfirst).1)
    have hsame : u % 2 ^ bits = u := le_antisymm (Nat.mod_le _ _) (hu ▸ hle)
    rw [hsame] at hexact
    exact ⟨u, hsame ▸ Nat.mod_lt _ (Nat.two_pow_pos bits), hexact, hu ▸ hfirst⟩
  · rintro ⟨n, hlt, hcontent, hfirst⟩
    have hu : u = n := Option.some.inj (hread.trans (exactNumber_eq_some hfirst).1)
    rw [hu, Nat.mod_eq_of_lt hlt, hcontent]

/-! ## Extents -/

/-- The width of a field of `struct extent_info`. -/
def ExtentTag.bits : ExtentTag → ℕ
  | .byteoffset => 32
  | _ => 64

def XmlExtent.get (xt : XmlExtent) : ExtentTag → Option ℕ
  | .startblock => some xt.startblock
  | .byteoffset => some xt.byteoffset
  | .bytecount => some xt.bytecount
  | .fileoffset => some xt.fileoffset
  | _ => none

section Extent

variable {version : ℕ}

/-- An extent keeps each of its numbers in the width of the field. -/
theorem readExtentTags_get {fields : List ExtentField} {xt : XmlExtent}
    (h : readExtentTags version fields = .ok xt) {f : ExtentField} (hf : f ∈ fields)
    (htag : f.tag ∈ numberTags version) :
    ∃ u, f.body.Reads (some u) ∧ xt.get f.tag = some (u % 2 ^ f.tag.bits) := by
  obtain ⟨s, hs, h⟩ := Except.bind_eq_ok.mp h
  have hreads := (ExtentVars.readsOnce.foldlM fields hs).2.1 f hf f.tag f.body
    (ExtentField.number_eq_some.mpr ⟨htag, rfl, rfl⟩)
  obtain ⟨u, hu⟩ := Option.isSome_iff_exists.mp hreads.2.2
  rw [hu] at hreads
  refine ⟨u, hreads, ?_⟩
  have hfull : u % 2 ^ 64 = u := Nat.mod_eq_of_lt hreads.lt
  dsimp only at h
  split at h
  · rename_i fileoffset partition startblock byteoffset bytecount fileoffset' hp hsb hbo hbc hfo
    cases h
    rcases f with ⟨tag, body⟩
    cases tag with
    | startblock =>
      cases hsb.symm.trans hu
      exact congrArg some hfull.symm
    | byteoffset =>
      cases hbo.symm.trans hu
      rfl
    | bytecount =>
      cases hbc.symm.trans hu
      exact congrArg some hfull.symm
    | fileoffset =>
      have hsparse : version ≥ idxVersionSparse := by
        by_contra hold
        simp [numberTags, hold] at htag
      rw [if_pos hsparse] at hfo
      cases hfo.symm.trans hu
      exact congrArg some hfull.symm
    | partition | unrecognized => simp [numberTags] at htag
  · cases h

end Extent

/-! ## Files -/

/-- The numbers of a file element. -/
inductive FileNumber where
  | length
  | fileuid
deriving DecidableEq, Repr

def FileChild.number (version : ℕ) : FileChild → Option (FileNumber × TagBody Char)
  | .length body => some (.length, body)
  | .fileuid body => if version ≥ idxVersionSparse then some (.fileuid, body) else none
  | _ => none

def FileVars.get (s : FileVars) : FileNumber → Option ℕ
  | .length => s.size
  | .fileuid => s.uid

def ParsedFile.get (d : ParsedFile) : FileNumber → ℕ
  | .length => d.size
  | .fileuid => d.uid

section File

variable {version newUid : ℕ}

/-- The loop of `_xml_parse_file` reads the length and the uid at their tags. -/
theorem FileVars.readsOnce :
    ReadsOnce (FileVars.step version) FileVars.get (FileChild.number version) := by
  intro s s' c h
  cases c with
  | length body =>
    obtain ⟨size, hsize, h⟩ := Except.bind_eq_ok.mp h
    cases h
    constructor
    · rintro tag body' hbody
      cases hbody
      exact parseTagNumber_eq_ok hsize
    · intro tag hother
      cases tag with
      | length => exact absurd rfl (hother body)
      | fileuid => rfl
  | fileuid body =>
    simp only [FileVars.step] at h
    split at h
    · rename_i hsparse
      obtain ⟨uid, huid, h⟩ := Except.bind_eq_ok.mp h
      cases h
      have hnumber : FileChild.number version (.fileuid body) = some (.fileuid, body) :=
        if_pos hsparse
      constructor
      · intro tag body' hbody
        rw [hnumber] at hbody
        cases hbody
        exact parseTagNumber_eq_ok huid
      · intro tag hother
        cases tag with
        | length => rfl
        | fileuid => exact absurd hnumber (hother body)
    · rename_i hold
      cases h
      have hnumber : FileChild.number version (.fileuid body) = none := if_neg hold
      exact ⟨fun tag body' hbody => (by rw [hnumber] at hbody; cases hbody), fun _ _ => rfl⟩
  | extentinfo content =>
    refine ⟨fun tag body hbody => (by cases hbody), fun tag _ => ?_⟩
    cases content with
    | none =>
      obtain ⟨_, _, h⟩ := Except.bind_eq_ok.mp h
      cases h
      cases tag <;> rfl
    | some extents =>
      obtain ⟨_, _, h⟩ := Except.bind_eq_ok.mp h
      obtain ⟨_, _, h⟩ := Except.bind_eq_ok.mp h
      cases h
      cases tag <;> rfl
  | plain tag ret =>
    obtain ⟨seen, rfl⟩ := FileVars.step_plain h
    exact ⟨fun tag body hbody => (by cases hbody), fun tag _ => by cases tag <;> rfl⟩
  | unrecognized =>
    cases h
    exact ⟨fun tag body hbody => (by cases hbody), fun _ _ => rfl⟩

/-- A file keeps its length and its uid as they have been read. -/
theorem parseFile_get {children : List FileChild} {d : ParsedFile}
    (h : parseFile version newUid children = .ok d) {c : FileChild} (hc : c ∈ children)
    {tag : FileNumber} {body : TagBody Char} (hbody : c.number version = some (tag, body)) :
    body.Reads (some (d.get tag)) := by
  obtain ⟨s, hs, hfinish⟩ := Except.bind_eq_ok.mp h
  obtain ⟨hsize, -, -, huid⟩ := finishFile_eq_ok hfinish
  have hreads := (FileVars.readsOnce.foldlM children hs).2.1 c hc tag body hbody
  have hget : s.get tag = some (d.get tag) := by
    cases tag with
    | length => exact hsize
    | fileuid =>
      by_cases hsparse : version ≥ idxVersionSparse
      · rwa [if_pos hsparse] at huid
      · -- older versions have no such element
        cases c with
        | fileuid _ =>
          rw [FileChild.number, if_neg hsparse] at hbody
          cases hbody
        | length _ | extentinfo _ | plain _ _ | unrecognized => cases hbody
  rwa [hget] at hreads

end File

/-! ## The other elements with numbers -/

/-- How the parser of an element treats a child element. -/
inductive ChildKind where
  /-- A number, which is required; a text that is none gives this code. -/
  | number (code : ℤ)
  /-- A number other than zero. -/
  | positive (code : ℤ)
  /-- Read by a parser of its own, and required, optional, or free to come again. -/
  | required
  | optional
  | repeated
deriving DecidableEq, Repr

def ChildKind.isNumber : ChildKind → Bool
  | .number _ | .positive _ => true
  | .required | .optional | .repeated => false

/-- A child element: what it contains, for a number, and what its own parser returns, for any
other. -/
structure ChildElement (τ : Type) where
  tag : τ
  body : TagBody Char
  ret : ℤ
deriving DecidableEq, Repr

/-- What the parser of an element has read so far. -/
structure ElementVars (τ : Type) where
  seen : List τ
  number : τ → Option ℕ

/-- A number other than zero. -/
def parseTagPositive (old : Option ℕ) (code : ℤ) (body : TagBody Char) : Except ℤ (Option ℕ) := do
  checkRequiredTag old.isSome
  let (value, rest) ← getTagText body
  match xmlParseUll value with
  | none | some 0 => throw (-code)
  | some n =>
    checkTagEnd rest
    return some n

section Elements

variable {τ : Type} [DecidableEq τ] (kind : τ → ChildKind)

/-- One round of the loop. -/
def ElementVars.step (s : ElementVars τ) (c : ChildElement τ) : Except ℤ (ElementVars τ) :=
  match kind c.tag with
  | .number code => do
    let n ← parseTagNumber (s.number c.tag) code c.body
    return { s with number := Function.update s.number c.tag n }
  | .positive code => do
    let n ← parseTagPositive (s.number c.tag) code c.body
    return { s with number := Function.update s.number c.tag n }
  | .required =>
    if c.tag ∈ s.seen then throw (-ltfsXmlNoRequiredTag)
    else if c.ret < 0 then throw c.ret
    else return { s with seen := c.tag :: s.seen }
  | .optional =>
    if c.tag ∈ s.seen then throw (-ltfsXmlDuplicatedTag)
    else if c.ret < 0 then throw c.ret
    else return { s with seen := c.tag :: s.seen }
  | .repeated => if c.ret < 0 then throw c.ret else return s

/-- A required tag is not there. -/
def ElementVars.missing (s : ElementVars τ) (tag : τ) : Bool :=
  match kind tag with
  | .number _ | .positive _ => (s.number tag).isNone
  | .required => !s.seen.contains tag
  | .optional | .repeated => false

/-- The loop over the child elements, and `check_required_tags`. -/
def parseElement (tags : List τ) (children : List (ChildElement τ)) : Except ℤ (τ → Option ℕ) := do
  let s ← children.foldlM (ElementVars.step kind) ⟨[], fun _ => none⟩
  if tags.any (s.missing kind) then throw (-ltfsXmlNoRequiredTag) else return s.number

/-- The number of a child element. -/
def ChildElement.number (c : ChildElement τ) : Option (τ × TagBody Char) :=
  if (kind c.tag).isNumber then some (c.tag, c.body) else none

theorem parseTagPositive_eq_ok {old new : Option ℕ} {code : ℤ} {body : TagBody Char}
    (h : parseTagPositive old code body = .ok new) : old = none ∧ body.Reads new := by
  suffices h' : parseTagNumber old code body = .ok new from parseTagNumber_eq_ok h'
  unfold parseTagPositive at h
  unfold parseTagNumber
  obtain ⟨u, hreq, h⟩ := Except.bind_eq_ok.mp h
  obtain ⟨⟨value, rest⟩, htext, h⟩ := Except.bind_eq_ok.mp h
  rw [Except.bind_eq_ok]
  refine ⟨u, hreq, ?_⟩
  rw [Except.bind_eq_ok]
  refine ⟨(value, rest), htext, ?_⟩
  dsimp only at h ⊢
  split at h
  · cases h
  · cases h
  · rename_i n hn
    rw [hn]
    exact h

variable {kind}

theorem ElementVars.readsOnce :
    ReadsOnce (ElementVars.step kind) ElementVars.number (ChildElement.number kind) := by
  intro s s' c h
  have hnumber : ∀ n, s' = { s with number := Function.update s.number c.tag n } →
      (s.number c.tag = none ∧ c.body.Reads n) → (kind c.tag).isNumber = true →
      (∀ t body, c.number kind = some (t, body) → s.number t = none ∧ body.Reads (s'.number t)) ∧
      ∀ t, (∀ body, c.number kind ≠ some (t, body)) → s'.number t = s.number t := by
    rintro n rfl hreads hkind
    have hc : c.number kind = some (c.tag, c.body) := if_pos hkind
    constructor
    · intro t body hbody
      rw [hc] at hbody
      cases hbody
      exact ⟨hreads.1, by simpa using hreads.2⟩
    · intro t hother
      refine Function.update_of_ne ?_ _ _
      rintro rfl
      exact hother c.body hc
  have hplain : s'.number = s.number → (kind c.tag).isNumber = false →
      (∀ t body, c.number kind = some (t, body) → s.number t = none ∧ body.Reads (s'.number t)) ∧
      ∀ t, (∀ body, c.number kind ≠ some (t, body)) → s'.number t = s.number t := by
    intro hsame hkind
    have hc : c.number kind = none := if_neg (by simp [hkind])
    exact ⟨fun t body hbody => (by rw [hc] at hbody; cases hbody), fun t _ => congrFun hsame t⟩
  unfold ElementVars.step at h
  split at h
  · rename_i hk
    obtain ⟨n, hn, h⟩ := Except.bind_eq_ok.mp h
    cases h
    exact hnumber n rfl (parseTagNumber_eq_ok hn) (by rw [hk]; rfl)
  · rename_i hk
    obtain ⟨n, hn, h⟩ := Except.bind_eq_ok.mp h
    cases h
    exact hnumber n rfl (parseTagPositive_eq_ok hn) (by rw [hk]; rfl)
  · rename_i hk
    refine hplain ?_ (by rw [hk]; rfl)
    split at h
    · cases h
    · split at h <;> cases h
      rfl
  · rename_i hk
    refine hplain ?_ (by rw [hk]; rfl)
    split at h
    · cases h
    · split at h <;> cases h
      rfl
  · rename_i hk
    refine hplain ?_ (by rw [hk]; rfl)
    split at h <;> cases h
    rfl

/-- The numbers come out as they have been read. -/
theorem parseElement_number {tags : List τ} {children : List (ChildElement τ)}
    {number : τ → Option ℕ} (h : parseElement kind tags children = .ok number)
    {c : ChildElement τ} (hc : c ∈ children) (hkind : (kind c.tag).isNumber = true) :
    c.body.Reads (number c.tag) := by
  obtain ⟨s, hs, h⟩ := Except.bind_eq_ok.mp h
  have hreads := (ElementVars.readsOnce.foldlM children hs).2.1 c hc c.tag c.body (if_pos hkind)
  split at h
  · cases h
  · cases h
    exact hreads

end Elements

/-! ### A tape position -/

/-- The child elements of a tape position. -/
inductive TapeposTag where
  | partition
  | startblock
  | unrecognized
deriving DecidableEq, Repr

def tapeposKind : TapeposTag → ChildKind
  | .partition => .required
  | .startblock => .number 1
  | .unrecognized => .repeated

/-- `_xml_parse_tapepos`: the block of the position. -/
def xmlParseTapepos (children : List (ChildElement TapeposTag)) : Except ℤ ℕ := do
  let number ← parseElement tapeposKind [.partition, .startblock] children
  match number .startblock with
  | some block => return block
  | none => throw (-ltfsXmlNoRequiredTag)

/-! ### The criteria for the index partition -/

inductive CriteriaTag where
  | size
  | name
  | unrecognized
deriving DecidableEq, Repr

def criteriaKind : CriteriaTag → ChildKind
  | .size => .number ltfsXmlWrongPolicy
  | .name | .unrecognized => .repeated

/-- `_xml_parse_ip_criteria`: `max_filesize_criteria`. -/
def xmlParseIpCriteria (children : List (ChildElement CriteriaTag)) : Except ℤ ℕ := do
  let number ← parseElement criteriaKind [.size] children
  match number .size with
  | some size => return size
  | none => throw (-ltfsXmlNoRequiredTag)

/-! ### A label -/

inductive LabelTag where
  | creator
  | formattime
  | volumeuuid
  | location
  | partitions
  | blocksize
  | compression
  | unrecognized
deriving DecidableEq, Repr

def labelKind : LabelTag → ChildKind
  | .blocksize => .positive ltfsXmlWrongBlocksize
  | .unrecognized => .repeated
  | _ => .required

/-- `_xml_parse_label`: the block size. -/
def xmlParseLabel (children : List (ChildElement LabelTag)) : Except ℤ ℕ := do
  let number ← parseElement labelKind
    [.creator, .formattime, .volumeuuid, .location, .partitions, .blocksize, .compression] children
  match number .blocksize with
  | some blocksize => return blocksize
  | none => throw (-ltfsXmlNoRequiredTag)

/-! ### A directory -/

inductive DirTag where
  | name
  | readonly
  | modifytime
  | creationtime
  | accesstime
  | changetime
  | contents
  | extendedattributes
  | fileuid
  | backuptime
  | unrecognized
deriving DecidableEq, Repr

/-- Older versions do not know the uid and the time of the backup. -/
def dirKind (version : ℕ) : DirTag → ChildKind
  | .fileuid => if version ≥ idxVersionSparse then .number ltfsXmlWrongUid else .repeated
  | .backuptime => if version ≥ idxVersionSparse then .required else .repeated
  | .extendedattributes => .optional
  | .unrecognized => .repeated
  | _ => .required

/-- `_xml_parse_dirtree`: the uid of the directory. In older versions it is a new one, but for the
root. -/
def xmlParseDirtree (version newUid : ℕ) (root : Bool) (children : List (ChildElement DirTag)) :
    Except ℤ ℕ := do
  let number ← parseElement (dirKind version) [.name, .readonly, .modifytime, .creationtime,
    .accesstime, .changetime, .contents, .fileuid, .backuptime] children
  match if version ≥ idxVersionSparse then number .fileuid else some (if root then 1 else newUid) with
  | some uid =>
    if (root = false ∧ uid = 1) ∨ (root = true ∧ uid ≠ 1) ∨ uid = 0 then throw (-ltfsXmlInvalidUid)
    else return uid
  | none => throw (-ltfsXmlNoRequiredTag)

/-! ### The index -/

inductive SchemaTag where
  | creator
  | volumeuuid
  | generationnumber
  | updatetime
  | location
  | allowpolicyupdate
  | directory
  | previousgenerationlocation
  | dataplacementpolicy
  | comment
  | volumelockstate
  | highestfileuid
  | unrecognized
deriving DecidableEq, Repr

def schemaKind (version : ℕ) : SchemaTag → ChildKind
  | .generationnumber => .number ltfsXmlWrongGen
  | .highestfileuid => if version ≥ idxVersionSparse then .number ltfsXmlWrongNext else .repeated
  | .previousgenerationlocation | .dataplacementpolicy | .comment | .volumelockstate => .optional
  | .unrecognized => .repeated
  | _ => .required

/-- The numbers of an index. `uid_number` is raised to `highestfileuid`, which older versions do not
have. -/
structure ParsedSchema where
  generation : ℕ
  highestfileuid : Option ℕ
deriving DecidableEq, Repr

/-- `_xml_parse_schema`. The generation is an `unsigned int`. -/
def xmlParseSchema (version : ℕ) (children : List (ChildElement SchemaTag)) :
    Except ℤ ParsedSchema := do
  let number ← parseElement (schemaKind version) [.creator, .volumeuuid, .generationnumber,
    .updatetime, .location, .allowpolicyupdate, .directory, .highestfileuid] children
  match number .generationnumber with
  | some generation =>
    return {
      generation := generation % 2 ^ 32
      highestfileuid := if version ≥ idxVersionSparse then number .highestfileuid else none }
  | none => throw (-ltfsXmlNoRequiredTag)

/-! ## Exactness -/

/-- `Stored bits body n`: an element with this body is part of an index or a label that has been
accepted, and its number is kept as `n`, in a field of `bits` bits. -/
inductive Stored : ℕ → TagBody Char → ℕ → Prop
  | extent {version : ℕ} {fields : List ExtentField} {xt : XmlExtent} {f : ExtentField} {n : ℕ}
      (h : readExtentTags version fields = .ok xt) (hf : f ∈ fields)
      (htag : f.tag ∈ numberTags version) (hn : xt.get f.tag = some n) :
      Stored f.tag.bits f.body n
  | file {version newUid : ℕ} {children : List FileChild} {d : ParsedFile} {c : FileChild}
      {tag : FileNumber} {body : TagBody Char} (h : parseFile version newUid children = .ok d)
      (hc : c ∈ children) (hbody : c.number version = some (tag, body)) :
      Stored 64 body (d.get tag)
  | directory {version newUid : ℕ} {root : Bool} {children : List (ChildElement DirTag)} {uid : ℕ}
      {c : ChildElement DirTag} (h : xmlParseDirtree version newUid root children = .ok uid)
      (hversion : version ≥ idxVersionSparse) (hc : c ∈ children) (htag : c.tag = .fileuid) :
      Stored 64 c.body uid
  | generation {version : ℕ} {children : List (ChildElement SchemaTag)} {idx : ParsedSchema}
      {c : ChildElement SchemaTag} (h : xmlParseSchema version children = .ok idx)
      (hc : c ∈ children) (htag : c.tag = .generationnumber) : Stored 32 c.body idx.generation
  | highestfileuid {version : ℕ} {children : List (ChildElement SchemaTag)} {idx : ParsedSchema}
      {c : ChildElement SchemaTag} {n : ℕ} (h : xmlParseSchema version children = .ok idx)
      (hc : c ∈ children) (htag : c.tag = .highestfileuid) (hn : idx.highestfileuid = some n) :
      Stored 64 c.body n
  | tapepos {children : List (ChildElement TapeposTag)} {block : ℕ} {c : ChildElement TapeposTag}
      (h : xmlParseTapepos children = .ok block) (hc : c ∈ children) (htag : c.tag = .startblock) :
      Stored 64 c.body block
  | criteria {children : List (ChildElement CriteriaTag)} {size : ℕ} {c : ChildElement CriteriaTag}
      (h : xmlParseIpCriteria children = .ok size) (hc : c ∈ children) (htag : c.tag = .size) :
      Stored 64 c.body size
  | label {children : List (ChildElement LabelTag)} {blocksize : ℕ} {c : ChildElement LabelTag}
      (h : xmlParseLabel children = .ok blocksize) (hc : c ∈ children) (htag : c.tag = .blocksize) :
      Stored 64 c.body blocksize

/-- A parser that returns one of its numbers returns it as it was read. -/
theorem parseElement_one {τ : Type} [DecidableEq τ] {kind : τ → ChildKind} {tags : List τ}
    {children : List (ChildElement τ)} {tag : τ} {n : ℕ}
    (h : (do
      let number ← parseElement kind tags children
      match number tag with
      | some n => return n
      | none => throw (-ltfsXmlNoRequiredTag) : Except ℤ ℕ) = .ok n)
    (hkind : (kind tag).isNumber = true) {c : ChildElement τ} (hc : c ∈ children)
    (htag : c.tag = tag) : c.body.Reads (some n) := by
  obtain ⟨number, hnumber, h⟩ := Except.bind_eq_ok.mp h
  subst htag
  have hreads := parseElement_number hnumber hc hkind
  split at h
  · rename_i hn
    cases h
    rwa [hn] at hreads
  · cases h

/-- What is kept is the number that was read, in the bits of the field. -/
theorem Stored.reads {bits n : ℕ} {body : TagBody Char} (h : Stored bits body n) :
    ∃ u, body.Reads (some u) ∧ n = u % 2 ^ bits := by
  have hfull : ∀ {body : TagBody Char} {u : ℕ}, body.Reads (some u) →
      ∃ u', body.Reads (some u') ∧ u = u' % 2 ^ 64 := fun hreads =>
    ⟨_, hreads, (Nat.mod_eq_of_lt hreads.lt).symm⟩
  cases h with
  | extent h hf htag hn =>
    obtain ⟨u, hreads, hget⟩ := readExtentTags_get h hf htag
    exact ⟨u, hreads, Option.some.inj (hn.symm.trans hget)⟩
  | file h hc hbody => exact hfull (parseFile_get h hc hbody)
  | @directory version _ _ _ _ c h hversion hc htag =>
    refine hfull ?_
    obtain ⟨number, hnumber, h⟩ := Except.bind_eq_ok.mp h
    have hreads := parseElement_number hnumber hc (by rw [htag, dirKind, if_pos hversion]; rfl)
    rw [if_pos hversion, ← htag] at h
    split at h
    · rename_i hn
      split at h
      · cases h
      · cases h
        rwa [hn] at hreads
    · cases h
  | generation h hc htag =>
    obtain ⟨number, hnumber, h⟩ := Except.bind_eq_ok.mp h
    have hreads := parseElement_number hnumber hc (by rw [htag]; rfl)
    rw [htag] at hreads
    split at h
    · rename_i hn
      cases h
      rw [hn] at hreads
      exact ⟨_, hreads, rfl⟩
    · cases h
  | highestfileuid h hc htag hn =>
    refine hfull ?_
    obtain ⟨number, hnumber, h⟩ := Except.bind_eq_ok.mp h
    split at h
    · cases h
      dsimp only at hn
      split at hn
      · rename_i hversion
        have hreads := parseElement_number hnumber hc
          (by rw [htag, schemaKind, if_pos hversion]; rfl)
        rwa [htag, hn] at hreads
      · cases hn
    · cases h
  | tapepos h hc htag => exact hfull (parseElement_one h rfl hc htag)
  | criteria h hc htag => exact hfull (parseElement_one h rfl hc htag)
  | label h hc htag => exact hfull (parseElement_one h rfl hc htag)

/-- The number parsers take exactly the canonical texts where a text is not misspelt. The numbers of
an accepted element are those of the document where they are spelt in digits alone, have no comment
between the digits, and fit the fields they are kept in. -/
theorem xml_parse_exact_iff (val : List Char) :
    (ReadsExactly xmlParseUll .dec val ↔ ¬ Misspelt .dec val) ∧
    (ReadsExactly xmlParseXll .hex val ↔ ¬ Misspelt .hex val) ∧
    ∀ {bits n : ℕ} {body : TagBody Char}, Stored bits body n →
      (exactNumber .dec body.content = some n ↔ Spelt bits body) := by
  refine ⟨?_, ?_, ?_⟩
  · unfold ReadsExactly
    rw [xmlParseUll_eq]
    exact wholeNumber_exact_iff .dec val
  · unfold ReadsExactly
    rw [xmlParseXll_eq]
    exact wholeNumber_exact_iff .hex val
  · intro bits n body h
    obtain ⟨u, hreads, rfl⟩ := h.reads
    exact hreads.exact_iff bits

/-- The child elements of an index with this generation. -/
def schemaElement (generation : String) : List (ChildElement SchemaTag) :=
  [⟨.creator, .empty, 0⟩, ⟨.volumeuuid, .empty, 0⟩,
    ⟨.generationnumber, .ofText generation.toList, 0⟩, ⟨.updatetime, .empty, 0⟩,
    ⟨.location, .empty, 0⟩, ⟨.previousgenerationlocation, .empty, 0⟩,
    ⟨.allowpolicyupdate, .empty, 0⟩, ⟨.highestfileuid, .ofText ['7'], 0⟩, ⟨.directory, .empty, 0⟩]

/-- The generation is cut to 32 bits. -/
example : xmlParseSchema 20400 (schemaElement "4294967297") = .ok ⟨1, some 7⟩ := by decide +kernel

theorem xmlParseSchema_three : xmlParseSchema 20400 (schemaElement "3") = .ok ⟨3, some 7⟩ := by
  decide +kernel

/-- An extent element of a current index. -/
def writtenExtent : List ExtentField :=
  [⟨.partition, .ofText ['b']⟩, ⟨.startblock, .ofText ['8']⟩, ⟨.byteoffset, .ofText ['0']⟩,
    ⟨.bytecount, .ofText ['1', '2']⟩, ⟨.fileoffset, .ofText ['7']⟩]

theorem readExtentTags_writtenExtent :
    readExtentTags 20400 writtenExtent = .ok ⟨'b', 8, 0, 12, 7⟩ := by decide +kernel

/-- Exactness of two texts, of the length of an extent, and of a generation. -/
theorem writtenExtent_exact : ¬ Misspelt .dec ['1', '2'] ∧ ¬ Misspelt .hex ['f', 'F'] ∧
    Spelt 64 (.ofText ['1', '2']) ∧ Spelt 32 (.ofText ['3']) := by
  refine ⟨(xml_parse_exact_iff ['1', '2']).1.mp ?_, (xml_parse_exact_iff ['f', 'F']).2.1.mp ?_,
    ((xml_parse_exact_iff []).2.2 (.extent readExtentTags_writtenExtent
      (f := ⟨.bytecount, .ofText ['1', '2']⟩) (n := 12) (by decide) (by decide) rfl)).mp ?_,
    ((xml_parse_exact_iff []).2.2 (.generation xmlParseSchema_three
      (c := ⟨.generationnumber, .ofText ['3'], 0⟩) (by decide) rfl)).mp ?_⟩
  · unfold ReadsExactly
    decide +kernel
  · unfold ReadsExactly
    decide +kernel
  · decide +kernel
  · decide +kernel

/-- A sign is taken, and the number it makes is another one. -/
theorem xml_parse_ull_minus_one :
    xmlParseUll ['-', '1'] = some (2 ^ 64 - 1) ∧ ¬ ReadsExactly xmlParseUll .dec ['-', '1'] := by
  constructor
  · decide +kernel
  · unfold ReadsExactly
    decide +kernel

end Ltfs

import Ltfs.Error
import Ltfs.Strtoull

/-!
# Reading elements

The macros of `xml.h` and the number parser of `xml_reader.c`, for elements as libxml2 hands them
over. A parser that returns a negative code throws it here.

* `TagBody` — what an element contains: the nodes that the reader comes to.
* `parseTagNumber` — one numeric child element: read once, parsed and closed.
* `checkTagEnd_eq_ok` — texts and comments may stand behind the text that has been read.
-/

namespace Ltfs

open Time

/-- From a sequence of two steps that succeeds, the steps. -/
theorem Except.bind_eq_ok {ε α β : Type} {x : Except ε α} {f : α → Except ε β} {b : β} :
    (x >>= f) = .ok b ↔ ∃ a, x = .ok a ∧ f a = .ok b := by
  cases x with
  | error code => simp [bind, Except.bind]
  | ok a => simp [bind, Except.bind]

/-! ## Nodes -/

/-- A node that the reader comes to inside of an element; its text is read as characters or as
bytes. -/
inductive XmlNode (α : Type) where
  /-- A text, blank or not, of one character or more. -/
  | text (first : α) (more : List α)
  | cdata (value : List α)
  /-- An entity that the reader does not replace. Its name may be that of the element. -/
  | reference (sameName : Bool) (value : List α)
  | comment
  /-- A processing instruction. Its target may be the name of the element. -/
  | instruction (sameName : Bool)
  /-- The start of a child element. -/
  | element
  /-- The reader fails, or the document ends. -/
  | fault
deriving DecidableEq, Repr

/-- What an element contains. -/
inductive TagBody (α : Type) where
  /-- `<tag/>` -/
  | empty
  /-- The nodes before the end tag. -/
  | nodes (l : List (XmlNode α))
deriving DecidableEq, Repr

/-- An element that holds a text and nothing else. -/
def TagBody.ofText {α : Type} : List α → TagBody α
  | [] => .nodes []
  | c :: value => .nodes [.text c value]

/-- The characters that a node adds to the content of its element. -/
def XmlNode.characters {α : Type} : XmlNode α → List α
  | .text first more => first :: more
  | .cdata value => value
  | .reference _ value => value
  | .comment | .instruction _ | .element | .fault => []

/-- The content of an element, as the document has it. -/
def TagBody.content {α : Type} : TagBody α → List α
  | .empty => []
  | .nodes l => l.flatMap XmlNode.characters

/-- The text that an element begins with. -/
def TagBody.firstText {α : Type} : TagBody α → List α
  | .nodes (.text first more :: _) => first :: more
  | _ => []

/-- `xml_scan_text`: the text, and the nodes behind it. -/
def xmlScanText {α : Type} : List (XmlNode α) → Except ℤ (List α × List (XmlNode α))
  | [] => return ([], [])
  | .text first more :: rest => return (first :: more, rest)
  | .fault :: _ => throw (-ltfsXmlReadFail)
  | _ :: _ => throw (-ltfsXmlWrongNode)

/-- `xml_next_tag` stops here: at a start tag, and at anything of the name of the element. -/
def XmlNode.stops {α : Type} : XmlNode α → Bool
  | .element => true
  | .reference sameName _ | .instruction sameName => sameName
  | .text _ _ | .cdata _ | .comment | .fault => false

/-- `xml_next_tag`: the node it stops at, and none for the end tag of the element. -/
def xmlNextTag {α : Type} : List (XmlNode α) → Except ℤ (Option (XmlNode α))
  | [] => return none
  | node :: rest =>
    if node matches .fault then throw (-ltfsXmlReadFail)
    else if node.stops then return some node
    else xmlNextTag rest

/-- Nothing stands between here and the end tag at which `xml_next_tag` stops. -/
def Closes {α : Type} (rest : List (XmlNode α)) : Prop :=
  ∀ node ∈ rest, node.stops = false ∧ ¬ node matches .fault

/-! ## The macros -/

/-- `get_tag_text`: the text, and the nodes behind it. -/
def getTagText : TagBody Char → Except ℤ (List Char × List (XmlNode Char))
  | .empty => throw (-ltfsXmlEmpty)
  | .nodes l => do
    let (value, rest) ← xmlScanText l
    if value = [] then throw (-ltfsXmlEmpty) else return (value, rest)

/-- `check_tag_end`. -/
def checkTagEnd {α : Type} (rest : List (XmlNode α)) : Except ℤ Unit :=
  match xmlNextTag rest with
  | .ok none => return ()
  | _ => throw (-ltfsXmlOpenTag)

/-- `check_required_tag`. -/
def checkRequiredTag (haveTag : Bool) : Except ℤ Unit :=
  if haveTag then throw (-ltfsXmlNoRequiredTag) else return ()

/-- `check_optional_tag`. -/
def checkOptionalTag (haveTag : Bool) : Except ℤ Unit :=
  if haveTag then throw (-ltfsXmlDuplicatedTag) else return ()

section Nodes

variable {α : Type}

theorem xmlNextTag_eq_none_iff (rest : List (XmlNode α)) :
    xmlNextTag rest = .ok none ↔ Closes rest := by
  induction rest with
  | nil => exact iff_of_true rfl (by simp [Closes])
  | cons node rest ih =>
    unfold xmlNextTag Closes
    rw [List.forall_mem_cons]
    by_cases hfault : node matches .fault
    · rw [if_pos hfault]
      exact iff_of_false (fun h => by cases h) (fun h => h.1.2 hfault)
    · rw [if_neg hfault]
      cases hstops : node.stops with
      | true =>
        rw [if_pos rfl]
        refine iff_of_false (fun h => ?_) (fun h => ?_)
        · cases h
        · cases h.1.1
      | false =>
        rw [if_neg (by simp), ih]
        exact ⟨fun h => ⟨⟨rfl, hfault⟩, h⟩, fun h => h.2⟩

theorem checkTagEnd_eq_ok {rest : List (XmlNode α)} {u : Unit} :
    checkTagEnd rest = .ok u ↔ Closes rest := by
  rw [← xmlNextTag_eq_none_iff]
  unfold checkTagEnd
  split
  · rename_i h
    exact iff_of_true rfl h
  · rename_i h
    exact iff_of_false (fun h' => by cases h') h

theorem checkTagEnd_error {rest : List (XmlNode α)} (h : ¬ Closes rest) :
    checkTagEnd rest = .error (-ltfsXmlOpenTag) := by
  rw [← xmlNextTag_eq_none_iff] at h
  unfold checkTagEnd
  split
  · rename_i hnone
    exact absurd hnone h
  · rfl

/-- The content goes on behind the text that the macros read. -/
theorem TagBody.firstText_prefix (body : TagBody α) : body.firstText <+: body.content := by
  rcases body with _ | _ | ⟨node, rest⟩
  · exact List.prefix_refl _
  · exact List.prefix_refl _
  · cases node with
    | text first more => exact List.prefix_append _ _
    | cdata | reference | comment | instruction | element | fault => exact List.nil_prefix

end Nodes

theorem getTagText_eq_ok {body : TagBody Char} {value : List Char} {rest : List (XmlNode Char)}
    (h : getTagText body = .ok (value, rest)) :
    value ≠ [] ∧ body.firstText = value := by
  rcases body with _ | _ | ⟨node, nodes⟩
  · cases h
  · cases h
  · cases node with
    | text first more =>
      cases h
      exact ⟨List.cons_ne_nil _ _, rfl⟩
    | cdata | reference | comment | instruction | element | fault => cases h

theorem checkRequiredTag_eq_ok {haveTag : Bool} {u : Unit} :
    checkRequiredTag haveTag = .ok u ↔ haveTag = false := by
  cases haveTag with
  | true => simp [checkRequiredTag, throw, throwThe, MonadExceptOf.throw]
  | false => simp [checkRequiredTag, pure, Except.pure]

theorem checkOptionalTag_eq_ok {haveTag : Bool} {u : Unit} :
    checkOptionalTag haveTag = .ok u ↔ haveTag = false := by
  cases haveTag with
  | true => simp [checkOptionalTag, throw, throwThe, MonadExceptOf.throw]
  | false => simp [checkOptionalTag, pure, Except.pure]

/-! ## Numbers -/

/-- `xml_parse_ull`. The text is a decimal number, with blanks and a sign before it, and
nothing behind. -/
def xmlParseUll (val : List Char) : Option ℕ :=
  match scanInt none val with
  | some (n, []) => some (toUllong n)
  | _ => none

/-- `xml_parse_xll`. -/
def xmlParseXll (val : List Char) : Option ℕ :=
  if val = [] then none
  else
    match strtoull .hex val with
    | (n, []) => some n
    | _ => none

/-- The number a text stands for. -/
def numeral (val : List Char) : Option ℤ :=
  match scanInt none val with
  | some (n, []) => some n
  | _ => none

theorem xmlParseUll_eq_some {val : List Char} {u : ℕ} (h : xmlParseUll val = some u) :
    ∃ n, numeral val = some n ∧ u = toUllong n := by
  unfold xmlParseUll at h
  unfold numeral
  split at h
  · cases h
    exact ⟨_, rfl, rfl⟩
  · cases h

theorem numeral_eq_some {val : List Char} {n : ℤ} :
    numeral val = some n ↔ scanNumber .dec val = some (n, []) := by
  rw [scanNumber_dec]
  unfold numeral
  split
  · rename_i h
    rw [h]
    simp
  · rename_i h
    exact iff_of_false (fun h' => by cases h') (h n)

/-- The number that a number begins with is no larger. -/
theorem numeral_le_of_prefix {val val' : List Char} {n n' : ℤ} (hpre : val <+: val')
    (h : numeral val = some n) (h' : numeral val' = some n') (hn' : 0 ≤ n') : 0 ≤ n ∧ n ≤ n' := by
  obtain ⟨more, rfl⟩ := hpre
  rw [numeral_eq_some] at h h'
  obtain ⟨blank, sign, pre, digits, hspell, rfl⟩ := exists_spelling h
  obtain ⟨_, _, _, _, hspell', heq⟩ := exists_spelling h'
  have hlong := (hspell.of_append hspell' heq).scanNumber
  rw [hspell.scanNumber] at h
  rw [← List.append_assoc, h'] at hlong
  have hle := Radix.value_le_append .dec digits more
  simp only [Option.some.injEq, Prod.mk.injEq, and_true] at h hlong
  by_cases hminus : sign = ['-']
  · rw [if_pos hminus] at h hlong
    omega
  · rw [if_neg hminus] at h hlong
    omega

/-- One numeric child element: not seen before, a number, and closed. -/
def parseTagNumber (old : Option ℕ) (code : ℤ) (body : TagBody Char) : Except ℤ (Option ℕ) := do
  checkRequiredTag old.isSome
  let (value, rest) ← getTagText body
  match xmlParseUll value with
  | none => throw (-code)
  | some n =>
    checkTagEnd rest
    return some n

/-- The number that is read from an element: what the parser makes of its first text. -/
def TagBody.Reads (body : TagBody Char) (n : Option ℕ) : Prop :=
  body.firstText ≠ [] ∧ n = xmlParseUll body.firstText ∧ n.isSome = true

theorem TagBody.Reads.numeral {body : TagBody Char} {u : ℕ} (h : body.Reads (some u)) :
    ∃ n, Ltfs.numeral body.firstText = some n ∧ u = toUllong n :=
  xmlParseUll_eq_some h.2.1.symm

theorem TagBody.Reads.lt {body : TagBody Char} {u : ℕ} (h : body.Reads (some u)) : u < 2 ^ 64 := by
  obtain ⟨n, -, rfl⟩ := h.numeral
  exact toUllong_lt n

theorem parseTagNumber_eq_ok {old new : Option ℕ} {code : ℤ} {body : TagBody Char}
    (h : parseTagNumber old code body = .ok new) : old = none ∧ body.Reads new := by
  unfold parseTagNumber at h
  obtain ⟨_, hreq, h⟩ := Except.bind_eq_ok.mp h
  obtain ⟨⟨value, rest⟩, htext, h⟩ := Except.bind_eq_ok.mp h
  obtain ⟨hne, rfl⟩ := getTagText_eq_ok htext
  rw [checkRequiredTag_eq_ok] at hreq
  have hold : old = none := by simpa using hreq
  dsimp only at h
  split at h
  · cases h
  · rename_i u hu
    obtain ⟨_, _, h⟩ := Except.bind_eq_ok.mp h
    cases h
    exact ⟨hold, hne, hu.symm, rfl⟩

/-! ## Loops over child elements -/

section Loop

variable {σ φ τ : Type} {step : σ → φ → Except ℤ σ} {get : σ → τ → Option ℕ}
  {number : φ → Option (τ × TagBody Char)}

/-- A round of a parser's loop reads the number of the child element, if it has one; there was none
before, and the others stay. -/
def ReadsOnce (step : σ → φ → Except ℤ σ) (get : σ → τ → Option ℕ)
    (number : φ → Option (τ × TagBody Char)) : Prop :=
  ∀ s s' c, step s c = .ok s' →
    (∀ t body, number c = some (t, body) → get s t = none ∧ body.Reads (get s' t)) ∧
    ∀ t, (∀ body, number c ≠ some (t, body)) → get s' t = get s t

/-- So does the loop. -/
theorem ReadsOnce.foldlM (h : ReadsOnce step get number) (children : List φ) : ∀ {s s' : σ},
    children.foldlM step s = .ok s' →
    (∀ t n, get s t = some n → get s' t = some n) ∧
    (∀ c ∈ children, ∀ t body, number c = some (t, body) → body.Reads (get s' t)) ∧
    ∀ t, (∀ c ∈ children, ∀ body, number c ≠ some (t, body)) → get s' t = get s t := by
  induction children with
  | nil =>
    intro s s' hrun
    cases hrun
    exact ⟨fun _ _ hn => hn, fun _ hc => (List.not_mem_nil hc).elim, fun _ _ => rfl⟩
  | cons c children ih =>
    intro s s' hrun
    rw [List.foldlM_cons] at hrun
    obtain ⟨s₁, hs₁, hrun⟩ := Except.bind_eq_ok.mp hrun
    obtain ⟨hread, hother⟩ := h s s₁ c hs₁
    obtain ⟨hkeep, hlater, hnone⟩ := ih hrun
    refine ⟨?_, ?_, ?_⟩
    · intro t n hn
      by_cases hc : ∃ body, number c = some (t, body)
      · -- a second element of this tag is refused
        obtain ⟨body, hbody⟩ := hc
        rw [(hread t body hbody).1] at hn
        cases hn
      · exact hkeep t n ((hother t (not_exists.mp hc)).trans hn)
    · intro c' hc' t body hbody
      rcases List.mem_cons.mp hc' with rfl | hc'
      · obtain ⟨-, hreads⟩ := hread t body hbody
        obtain ⟨n, hn⟩ := Option.isSome_iff_exists.mp hreads.2.2
        rw [hkeep t n hn, ← hn]
        exact hreads
      · exact hlater c' hc' t body hbody
    · intro t hno
      rw [List.forall_mem_cons] at hno
      exact (hnone t hno.2).trans (hother t hno.1)

end Loop

end Ltfs

import Ltfs.Lib.UpTo
import Ltfs.SeekIndexSpec
import Ltfs.Traverse

/-!
# The indexes that are visited

* `NextMark` — two file marks with none between them; from these the positioning is known.
* `ltfsReadIndex_behind` — an index that is read successfully leaves the tape behind the file mark
  that closes it.
* `Follow`, `Preceded` — the places of the indexes as the walks come to them.
* `forwardLoop_spec`, `backwardLoop_spec` — either loop visits the indexes up to the first one to
  stop at.
* `traverse_search_iff` — when the two walks do what they are for.
-/

namespace Ltfs.XmlTape.Traverse

/-! ## Positioning -/

section Positioning

variable {records : List Record} {a b c d pos : ℕ}

/-- `a` and `b` are file marks with none between them. -/
structure NextMark (records : List Record) (a b : ℕ) : Prop where
  lt : a < b
  first : records[a]? = some .filemark
  second : records[b]? = some .filemark
  clear : NoMark records (a + 1) b

theorem NextMark.lastFilemark (h : NextMark records a b) : lastFilemark records b = some a :=
  lastFilemark_eq h.lt h.first h.clear

theorem lastFilemark_behind (h : records[a]? = some .filemark) :
    lastFilemark records (a + 1) = some a :=
  lastFilemark_eq (Nat.lt_succ_self a) h (.refl _)

theorem mark_lt_length (h : records[a]? = some .filemark) : a < records.length :=
  (List.getElem?_eq_some_iff.mp h).1

/-- Forward over the next file mark. -/
theorem spaceFmForward_mark (hle : pos ≤ b) (hmark : records[b]? = some .filemark)
    (hno : NoMark records pos b) :
    spaceFmForward ⟨records, pos, []⟩ = (0, ⟨records, b + 1, []⟩) := by
  have hlt := mark_lt_length hmark
  rcases spaceFmForward_cases (show pos ≤ records.length by omega) with
    ⟨t, hspace, hpt, hmark', hno'⟩ | ⟨-, hnone⟩
  · -- both `t` and `b` are the first mark from `pos` on
    have heq : t = b := by
      by_contra hne
      rcases Nat.lt_or_gt_of_ne hne with h | h
      · exact hno t hpt h hmark'
      · exact hno' b hle h hmark
    rw [hspace, heq]
  · exact absurd hmark (hnone b hle hlt)

theorem spaceFmForward_none (hle : pos ≤ records.length) (hno : NoMark records pos records.length) :
    spaceFmForward ⟨records, pos, []⟩ = (-edevEodDetected, ⟨records, records.length, []⟩) := by
  rcases spaceFmForward_cases hle with ⟨t, -, hpt, hmark, -⟩ | ⟨hspace, -⟩
  · exact absurd hmark (hno t hpt (mark_lt_length hmark))
  · exact hspace

theorem spaceFmBackward_some {count t : ℕ} (h : backMark records count pos = some t) :
    spaceFmBackward count ⟨records, pos, []⟩ = (0, ⟨records, t, []⟩) := by
  unfold spaceFmBackward
  rw [if_neg (by simp)]
  simp only [h]
  rfl

/-- From behind the mark that closes an index, the fourth mark back opens the index before it. -/
theorem tapeLocatePreviousIndex_eq (h : NextMark records a b) (h' : NextMark records b c)
    (h'' : NextMark records c d) :
    tapeLocatePreviousIndex ⟨records, d + 1, []⟩ = (0, ⟨records, a + 1, []⟩) := by
  have hback : backMark records 4 (d + 1) = some a := by
    simp only [backMark, lastFilemark_behind h''.second, h''.lastFilemark, h'.lastFilemark,
      h.lastFilemark, Option.bind_some]
  unfold tapeLocatePreviousIndex andThen
  rw [spaceFmBackward_some hback, if_pos rfl]
  exact spaceFmForward_mark (Nat.le_refl a) h.first (.refl _)

/-- The second mark back from the end of data opens the last index. -/
theorem tapeLocateLastIndex_eq (pos : ℕ) (h : NextMark records a b)
    (hend : NoMark records (b + 1) records.length) :
    tapeLocateLastIndex ⟨records, pos, []⟩ = (0, ⟨records, a + 1, []⟩) := by
  have hlast : lastFilemark records records.length = some b :=
    lastFilemark_eq (mark_lt_length h.second) h.second hend
  have hback : backMark records 2 records.length = some a := by
    simp only [backMark, hlast, h.lastFilemark, Option.bind_some]
  have heod : seekEod ⟨records, pos, []⟩ = (0, ⟨records, records.length, []⟩) := rfl
  unfold tapeLocateLastIndex andThen
  rw [heod, if_pos rfl, spaceFmBackward_some hback, if_pos rfl]
  exact spaceFmForward_mark (Nat.le_refl a) h.first (.refl _)

/-- From block 4 on, behind the label. -/
theorem tapeLocateFirstIndex_eq (pos : ℕ) (hlen : 4 ≤ records.length) :
    tapeLocateFirstIndex ⟨records, pos, []⟩ = spaceFmForward ⟨records, 4, []⟩ := by
  have hseek : tapeSeek 4 ⟨records, pos, []⟩ = (0, ⟨records, 4, []⟩) := by
    unfold tapeSeek
    by_cases hpos : 4 = pos
    · rw [if_pos hpos, hpos]
    · rw [if_neg hpos, if_neg (by simp), if_neg (by simpa using hlen)]
      rfl
  unfold tapeLocateFirstIndex andThen
  rw [hseek, if_pos rfl]

end Positioning

/-! ## Reading an index -/

section Reading

variable {records : List Record} {start t : ℕ} {ctx : InputTape}

/-- The reader is among the records of an index that `t` closes, all of which have content. -/
structure Within (records : List Record) (start t : ℕ) (ctx : InputTape) : Prop where
  device : ∃ pos, ctx.device = ⟨records, pos, []⟩ ∧ start ≤ pos ∧ pos ≤ t
  bufSize : 0 < ctx.bufSize
  blocksize : 0 < ctx.blocksize
  fd : ¬ ctx.fd > 0

/-- What the records are like up to the mark that closes the index. -/
structure IndexRecords (records : List Record) (start t : ℕ) : Prop where
  nonempty : .block [] ∉ records
  mark : records[t]? = some .filemark
  clear : NoMark records start t

/-- Up to that mark everything is read. -/
theorem IndexRecords.tapeRead (h : IndexRecords records start t) {pos count : ℕ}
    (hle : start ≤ pos) (hpos : pos ≤ t) (hcount : 0 < count) :
    (pos = t ∧ XmlTape.tapeRead count ⟨records, pos, []⟩ = (.ok [], ⟨records, t + 1, []⟩)) ∨
    (pos < t ∧ ∃ bytes, bytes ≠ [] ∧
      XmlTape.tapeRead count ⟨records, pos, []⟩ = (.ok bytes, ⟨records, pos + 1, []⟩)) := by
  have hread : ∀ record, records[pos]? = some record →
      XmlTape.tapeRead count ⟨records, pos, []⟩
        = (.ok (record.bytes count), ⟨records, pos + 1, []⟩) := by
    intro record hrecord
    unfold XmlTape.tapeRead
    rw [if_neg (by simp)]
    simp only [hrecord]
    rfl
  by_cases heq : pos = t
  · refine .inl ⟨heq, ?_⟩
    rw [hread .filemark (by rw [heq]; exact h.mark), heq]
    rfl
  · have hlt : pos < records.length := by
      have := mark_lt_length h.mark
      omega
    refine .inr ⟨by omega, ?_⟩
    have hsome := List.getElem?_eq_getElem hlt
    cases hrecord : records[pos] with
    | filemark =>
      rw [hrecord] at hsome
      exact absurd hsome (h.clear pos hle (by omega))
    | block bytes =>
      rw [hrecord] at hsome
      refine ⟨_, ?_, hread _ hsome⟩
      -- a record of length zero does not exist
      intro hnil
      rcases List.take_eq_nil_iff.mp hnil with h0 | hempty
      · omega
      · rw [hempty] at hsome
        exact h.nonempty (List.mem_of_getElem? hsome)

/-- From behind the mark it goes back before it. -/
theorem noteFileMark_within (hrec : IndexRecords records start t) (hle : start ≤ t)
    (hdev : ctx.device = ⟨records, t + 1, []⟩) (hbuf : 0 < ctx.bufSize) (hblock : 0 < ctx.blocksize)
    (hfd : ¬ ctx.fd > 0) : Within records start t (noteFileMark ctx).2 := by
  have hback : spaceFmBack ctx.device = (0, ⟨records, t, []⟩) := by
    rw [hdev]
    exact spaceFmBack_mark (Nat.lt_succ_self t) hrec.mark (.refl _)
  unfold noteFileMark
  rw [hback, if_neg (by simp)]
  exact ⟨⟨t, rfl, hle, Nat.le_refl t⟩, hbuf, hblock, hfd⟩

theorem readBlock_within (hrec : IndexRecords records start t) (h : Within records start t ctx) :
    Within records start t (readBlock ctx).2 := by
  obtain ⟨⟨pos, hdev, hle, hpos⟩, hbuf, hblock, hfd⟩ := h
  have hcache : ∀ (bytes : List UInt8) (ctx' : InputTape), ctx'.fd = ctx.fd →
      cacheRead bytes ctx' = (true, ctx') := by
    intro bytes ctx' hfd'
    unfold cacheRead
    rw [if_neg (by rw [hfd']; tauto)]
  unfold readBlock
  rcases hrec.tapeRead hle hpos hbuf with ⟨heq, hread⟩ | ⟨hlt, bytes, hbytes, hread⟩
  · -- the mark itself was read
    rw [hdev, hread]
    simp only
    rw [hcache _ _ (by exact rfl)]
    simp only [Bool.not_true, Bool.false_eq_true, if_false]
    have hwithin : Within records start t (checkSmallBlock ([] : List UInt8).length
        { ctx with
          device := ⟨records, t + 1, []⟩
          currentPos := ctx.currentPos + 1
          buf := [] }).2 := by
      unfold checkSmallBlock
      rw [if_pos (by simpa using hbuf)]
      simp only [List.length_nil, if_true]
      exact noteFileMark_within hrec (by omega) rfl hbuf hblock hfd
    split
    · exact hwithin
    · exact hwithin
  · rw [hdev, hread]
    simp only
    rw [hcache _ _ (by exact rfl)]
    simp only [Bool.not_true, Bool.false_eq_true, if_false]
    have hwithin : Within records start t (checkSmallBlock bytes.length
        { ctx with
          device := ⟨records, pos + 1, []⟩
          currentPos := ctx.currentPos + 1
          buf := bytes }).2 := by
      have hstay : ∀ ctx' : InputTape, ctx'.device = ⟨records, pos + 1, []⟩ →
          ctx'.bufSize = ctx.bufSize → ctx'.blocksize = ctx.blocksize → ctx'.fd = ctx.fd →
          Within records start t ctx' :=
        fun ctx' h1 h2 h3 h4 =>
          ⟨⟨pos + 1, h1, by omega, hlt⟩, by rw [h2]; exact hbuf, by rw [h3]; exact hblock,
            by rw [h4]; exact hfd⟩
      unfold checkSmallBlock
      by_cases hsmall : bytes.length < ctx.bufSize
      · rw [if_pos hsmall]
        simp only
        rw [if_neg (by simpa using hbytes)]
        split
        · split
          · exact hstay _ rfl rfl rfl rfl
          · -- one record ahead, which may be the mark
            rcases hrec.tapeRead (show start ≤ pos + 1 by omega) hlt hblock with
              ⟨hhere, hnext⟩ | ⟨hlt', bytes', hbytes', hnext⟩
            · rw [hnext]
              simp only [List.length_nil, if_true]
              exact noteFileMark_within hrec (by omega) rfl hbuf hblock hfd
            · rw [hnext]
              simp only
              rw [if_neg (by simpa using hbytes')]
              exact ⟨⟨pos + 2, rfl, by omega, hlt'⟩, hbuf, hblock, hfd⟩
        · exact hstay _ rfl rfl rfl rfl
      · rw [if_neg hsmall]
        exact hstay _ rfl rfl rfl rfl
    split
    · exact hwithin
    · exact hwithin

theorem Within.setBuf (h : Within records start t ctx) (bufStart bufUsed : ℕ) :
    Within records start t { ctx with bufStart := bufStart, bufUsed := bufUsed } :=
  ⟨h.device, h.bufSize, h.blocksize, h.fd⟩

theorem fillBuffer_within (hrec : IndexRecords records start t) (len : ℕ) :
    ∀ (fuel : ℕ) (saved : List UInt8) (remaining : ℕ) (ctx : InputTape)
      (r : ℤ × List UInt8 × InputTape), Within records start t ctx →
      fillBuffer len fuel saved remaining ctx = some r → Within records start t r.2.2 := by
  intro fuel
  induction fuel with
  | zero =>
    intro saved remaining ctx r h hfill
    cases hfill
  | succ fuel ih =>
    intro saved remaining ctx r h hfill
    unfold fillBuffer at hfill
    split at hfill
    · cases hfill
      exact h
    · split at hfill
      · cases hfill
        exact h
      · split at hfill
        · cases hfill
          exact h
        · have hblock := readBlock_within hrec h
          generalize readBlock ctx = block at hblock hfill
          obtain ⟨bytes, ctx'⟩ := block
          cases bytes with
          | none =>
            cases hfill
            exact hblock
          | some bytes =>
            simp only at hfill
            split at hfill
            · exact ih _ _ _ _ hblock hfill
            · exact ih _ _ _ _ (hblock.setBuf _ _) hfill

theorem readCallback_within (hrec : IndexRecords records start t) {len : ℕ}
    {r : ℤ × List UInt8 × InputTape} (h : Within records start t ctx)
    (hread : readCallback len ctx = some r) : Within records start t r.2.2 := by
  unfold readCallback at hread
  split at hread
  · cases hread
    exact h
  · split at hread
    · cases hread
      exact h.setBuf _ _
    · split at hread
      · exact fillBuffer_within hrec _ _ _ _ _ _ (h.setBuf 0 0) hread
      · exact fillBuffer_within hrec _ _ _ _ _ _ h hread

theorem readAll_within (hrec : IndexRecords records start t) :
    ∀ (lens : List ℕ) (ctx : InputTape) (r : List (ℤ × List UInt8) × InputTape),
      Within records start t ctx → readAll lens ctx = some r → Within records start t r.2 := by
  intro lens
  induction lens with
  | nil =>
    intro ctx r h hread
    cases hread
    exact h
  | cons len lens ih =>
    intro ctx r h hread
    unfold readAll at hread
    cases hcall : readCallback len ctx with
    | none =>
      rw [hcall] at hread
      cases hread
    | some call =>
      rw [hcall] at hread
      rcases Option.map_eq_some_iff.mp hread with ⟨rest, hrest, rfl⟩
      exact ih _ rest (readCallback_within hrec h hcall) hrest

variable {T : Type} {R : IndexReader T} {p : Partition}

/-- An index that is read, its file mark seen, leaves the tape behind that mark. -/
theorem ltfsReadIndex_behind (hrec : IndexRecords records start t) (hle : start ≤ t) {eodPos : ℕ}
    {dev : Device}
    (hread : ltfsReadIndex R p eodPos ⟨records, start, []⟩ = some (.ok true, dev)) :
    dev = ⟨records, t + 1, []⟩ := by
  unfold ltfsReadIndex at hread
  rcases Option.map_eq_some_iff.mp hread with ⟨⟨ret, after⟩, hschema, hresult⟩
  unfold xmlSchemaFromTape at hschema
  rcases Option.map_eq_some_iff.mp hschema with ⟨⟨chunks, ctx⟩, hall, hpair⟩
  have hafter : after = ctx.device := by
    simp only at hpair
    split at hpair
    · exact (congrArg Prod.snd hpair).symm
    · split at hpair
      · exact (congrArg Prod.snd hpair).symm
      · exact (congrArg Prod.snd hpair).symm
  -- wherever the parser ends, the closing mark is the next one
  have hwithin : Within records start t ctx :=
    readAll_within hrec _ _ _
      ⟨⟨start, rfl, Nat.le_refl start, hle⟩, R.blocksize.pos, R.blocksize.pos, by
        show ¬ (-1 : ℤ) > 0
        omega⟩ hall
  obtain ⟨pos, hdev, hge, hpos⟩ := hwithin.device
  have hspace : spaceFmForward after = (0, ⟨records, t + 1, []⟩) := by
    rw [hafter, hdev]
    exact spaceFmForward_mark hpos hrec.mark fun i h1 h2 => hrec.clear i (by omega) h2
  simp only at hresult
  split at hresult
  · cases hresult
  · split at hresult
    · cases hresult
    · split at hresult
      · rw [hspace] at hresult
        simp only [lt_irrefl, if_false, Prod.mk.injEq, true_and] at hresult
        exact hresult.symm
      · cases hresult

end Reading

/-! ## The places of the indexes -/

/-- What stands on a partition behind the label: a data record, or an index with a file mark before
and behind it. -/
inductive Element where
  | data (bytes : List UInt8)
  | index (blocks : List (List UInt8))

def Element.records : Element → List Record
  | .data bytes => [.block bytes]
  | .index blocks => .filemark :: (blocks.map .block ++ [.filemark])

/-- A partition with the label construct at its beginning, and data records and indexes behind it. A
record of length zero does not exist. -/
structure IndexedPartition where
  volumeLabel : List UInt8
  ltfsLabel : List UInt8
  content : List Element
  nonempty : .block [] ∉ .block volumeLabel :: .filemark :: .block ltfsLabel :: .filemark ::
    content.flatMap Element.records

namespace IndexedPartition

/-- The label construct. -/
def label (l : IndexedPartition) : List Record :=
  [.block l.volumeLabel, .filemark, .block l.ltfsLabel, .filemark]

def records (l : IndexedPartition) : List Record :=
  l.label ++ l.content.flatMap Element.records

end IndexedPartition

/-- The two marks around an index. -/
structure Span where
  before : ℕ
  behind : ℕ

/-- The first block of the index. -/
def Span.start (s : Span) : ℕ := s.before + 1

/-- The indexes among elements that begin at a block. -/
def spansFrom : ℕ → List Element → List Span
  | _, [] => []
  | pos, .data _ :: l => spansFrom (pos + 1) l
  | pos, .index blocks :: l =>
    ⟨pos, pos + blocks.length + 1⟩ :: spansFrom (pos + blocks.length + 2) l

/-- The indexes of the partition, in tape order. -/
def IndexedPartition.spans (l : IndexedPartition) : List Span := spansFrom 4 l.content

/-- Where they start. -/
def IndexedPartition.starts (l : IndexedPartition) : List ℕ := l.spans.map Span.start

/-- The indexes that follow the file mark `a`, with no other file marks behind it. -/
inductive Follow (records : List Record) : ℕ → List Span → Prop
  | none {a : ℕ} (hend : NoMark records (a + 1) records.length) : Follow records a []
  | index {a : ℕ} {s : Span} {l : List Span} (hopen : NextMark records a s.before)
      (hclose : NextMark records s.before s.behind) (htail : Follow records s.behind l) :
      Follow records a (s :: l)

/-- The indexes up to the file mark `a`, the last one first, with no other file marks than those of
the label before it. -/
inductive Preceded (records : List Record) : ℕ → List Span → Prop
  | label : Preceded records 3 []
  | index {a : ℕ} {s : Span} {l : List Span} (hhead : Preceded records a l)
      (hopen : NextMark records a s.before) (hclose : NextMark records s.before s.behind) :
      Preceded records s.behind (s :: l)

section Places

variable {records : List Record}

theorem noMark_block {pre rest : List Record} {a : ℕ} {bytes : List UInt8}
    (hrec : records = pre ++ .block bytes :: rest) (h : NoMark records a pre.length) :
    NoMark records a (pre.length + 1) := by
  intro i hai hi
  by_cases heq : i = pre.length
  · have hhere : records[i]? = some (.block bytes) := by
      rw [hrec, heq, List.getElem?_append_right (Nat.le_refl _), Nat.sub_self]
      rfl
    exact block_not_mark hhere
  · exact h i hai (by omega)

theorem noMark_blocks {rest : List Record} {a : ℕ} (blocks : List (List UInt8)) :
    ∀ pre : List Record, records = pre ++ (blocks.map .block ++ rest) →
      NoMark records a pre.length → NoMark records a (pre.length + blocks.length) := by
  induction blocks with
  | nil =>
    intro pre _ h
    exact h
  | cons bytes blocks ih =>
    intro pre hrec h
    have hnext := ih (pre ++ [.block bytes]) (by rw [hrec]; simp)
      (by simpa using noMark_block (show records = pre ++ .block bytes :: (blocks.map .block ++ rest) from hrec) h)
    rw [List.length_append, List.length_singleton] at hnext
    rw [List.length_cons, show pre.length + (blocks.length + 1) = pre.length + 1 + blocks.length by
      omega]
    exact hnext

theorem mark_here {pre rest : List Record} (hrec : records = pre ++ .filemark :: rest) :
    records[pre.length]? = some .filemark := by
  rw [hrec, List.getElem?_append_right (Nat.le_refl _), Nat.sub_self]
  rfl

/-- The indexes of a layout follow each other as they should. -/
theorem follow_spansFrom (content : List Element) :
    ∀ (pre : List Record) (a : ℕ), records = pre ++ content.flatMap Element.records →
      a < pre.length → records[a]? = some .filemark → NoMark records (a + 1) pre.length →
      Follow records a (spansFrom pre.length content) := by
  induction content with
  | nil =>
    intro pre a hrec _ _ hno
    refine .none ?_
    rw [hrec, List.flatMap_nil, List.append_nil] at hno ⊢
    exact hno
  | cons e content ih =>
    intro pre a hrec hlt hmark hno
    cases e with
    | data bytes =>
      have hrec' : records = (pre ++ [.block bytes]) ++ content.flatMap Element.records := by
        rw [hrec, List.flatMap_cons, List.append_assoc]
        rfl
      have hfollow := ih (pre ++ [.block bytes]) a hrec'
        (by rw [List.length_append]; omega) hmark
        (by simpa using noMark_block (by simpa using hrec') hno)
      rw [List.length_append, List.length_singleton] at hfollow
      exact hfollow
    | index blocks =>
      set rest := content.flatMap Element.records with hrest
      have hrec1 : records = pre ++ .filemark :: (blocks.map .block ++ .filemark :: rest) := by
        rw [hrec, List.flatMap_cons, ← hrest]
        simp [Element.records]
      have hrec2 : records = (pre ++ [.filemark]) ++ (blocks.map .block ++ .filemark :: rest) := by
        rw [hrec1]
        simp
      have hrec3 : records = (pre ++ .filemark :: blocks.map .block) ++ .filemark :: rest := by
        rw [hrec1]
        simp
      have hbefore := mark_here hrec1
      have hbehind := mark_here hrec3
      have hblocks := noMark_blocks (a := pre.length + 1) blocks _ hrec2 (by simpa using .refl _)
      simp only [List.length_append, List.length_cons, List.length_map] at hbehind
      rw [List.length_append, List.length_singleton] at hblocks
      have hadd : pre.length + 1 + blocks.length = pre.length + (blocks.length + 1) := by omega
      rw [hadd] at hblocks
      have hfollow := ih (pre ++ .filemark :: (blocks.map .block ++ [.filemark]))
        (pre.length + (blocks.length + 1)) (by rw [hrec1]; simp)
        (by simp) hbehind (by
          simp only [List.length_append, List.length_cons, List.length_map, List.length_nil]
          exact .refl _)
      simp only [List.length_append, List.length_cons, List.length_map, List.length_nil] at hfollow
      exact .index (s := ⟨pre.length, pre.length + blocks.length + 1⟩)
        ⟨hlt, hmark, hbefore, hno⟩ ⟨Nat.lt_succ_of_le (Nat.le_add_right _ _), hbefore, hbehind, hblocks⟩ hfollow

/-- The same places, seen from behind. -/
theorem Follow.preceded {a : ℕ} {l : List Span} (h : Follow records a l) :
    ∀ done : List Span, Preceded records a done →
      ∃ b, Preceded records b (l.reverse ++ done) ∧ NoMark records (b + 1) records.length := by
  induction h with
  | none hend =>
    intro done hdone
    exact ⟨_, hdone, hend⟩
  | index hopen hclose htail ih =>
    intro done hdone
    rcases ih _ (.index hdone hopen hclose) with ⟨b, hb, hend⟩
    refine ⟨b, ?_, hend⟩
    rw [List.reverse_cons, List.append_assoc]
    exact hb

/-- An index starts at block 5 or later, and every one takes two marks at least. -/
theorem Preceded.le {a : ℕ} {l : List Span} (h : Preceded records a l) : l.length + 3 ≤ a := by
  induction h with
  | label => exact Nat.le_refl 3
  | index hhead hopen hclose ih =>
    have h1 := hopen.lt
    have h2 := hclose.lt
    rw [List.length_cons]
    omega

/-- The last index does not start before any other. -/
theorem Follow.start_le_last {a : ℕ} {l : List Span} (h : Follow records a l) :
    ∀ s : Span, s.behind = a → s.before < s.behind → s.start ≤ (l.getLastD s).start := by
  induction h with
  | none hend =>
    intro s _ _
    exact Nat.le_refl _
  | index hopen hclose htail ih =>
    intro s hs hlt
    rw [List.getLastD_cons]
    have hnext := ih _ rfl hclose.lt
    have hlt' := hopen.lt
    unfold Span.start at hnext ⊢
    omega

/-- The last index, with nothing but data behind it. -/
theorem Follow.last {a : ℕ} {l : List Span} (h : Follow records a l) :
    ∀ s : Span, s.behind = a → NextMark records s.before s.behind →
      NextMark records (l.getLastD s).before (l.getLastD s).behind ∧
        NoMark records ((l.getLastD s).behind + 1) records.length := by
  induction h with
  | none hend =>
    intro s hs hmarks
    rw [List.getLastD_nil, hs]
    rw [hs] at hmarks
    exact ⟨hmarks, hend⟩
  | index hopen hclose htail ih =>
    intro s _ _
    rw [List.getLastD_cons]
    exact ih _ rfl hclose

end Places

namespace IndexedPartition

variable (l : IndexedPartition)

theorem follow : Follow l.records 3 l.spans := by
  have hlen : l.label.length = 4 := rfl
  refine follow_spansFrom l.content l.label 3 rfl (by omega) rfl ?_
  intro i h1 h2
  omega

theorem label_marks : NextMark l.records 1 3 := by
  refine ⟨by omega, rfl, rfl, ?_⟩
  intro i h1 h2
  have heq : i = 2 := by omega
  subst heq
  exact block_not_mark rfl

theorem spans_length_lt : l.spans.length < l.records.length := by
  rcases l.follow.preceded [] .label with ⟨b, hb, hend⟩
  rw [List.append_nil] at hb
  have hle := hb.le
  rw [List.length_reverse] at hle
  by_contra hge
  -- the mark `b` is on the tape
  have hmark : l.records[b]? = some .filemark := by
    generalize l.spans.reverse = back at hb
    cases hb with
    | label => exact l.label_marks.second
    | index hhead hopen hclose => exact hclose.second
  have hlt := mark_lt_length hmark
  omega

theorem nonempty_records : .block [] ∉ l.records := l.nonempty

theorem four_le_length : 4 ≤ l.records.length := by
  unfold records
  rw [List.length_append]
  exact Nat.le_add_right 4 _

end IndexedPartition


/-! ## The walks -/

section Walks

variable {T A : Type} (R : IndexReader T) (p : Partition)

/-- The generation of the index that starts there. -/
def generationAt (start : ℕ) : ℕ := (R.parse start).index.generation

/-- A walk ends at the index that starts there. -/
def endsForward (gen start : ℕ) : Bool := stopsForward gen (generationAt R start)

def endsBackward (gen start : ℕ) : Bool := stopsBackward gen (generationAt R start)

/-- `ltfs_read_index` accepts the index that starts there and sees the file mark behind it. -/
def Readable (records : List Record) (start : ℕ) : Prop :=
  ∃ dev, ltfsReadIndex { R with recoverSymlink := false } p 0 ⟨records, start, []⟩
    = some (.ok true, dev)

/-- The callback, if there is one, never stops the walk. -/
def NeverStops (func : Option (IndexFound T A)) : Prop :=
  ∀ f ∈ func, ∀ index list, (f index list).1 = 0

/-- An index is loaded and shown to the callback. -/
def visit (func : Option (IndexFound T A)) (x : Index T × A) (start : ℕ) : Index T × A :=
  ((R.parse start).index,
    match func with
    | none => x.2
    | some f => (f (R.parse start).index x.2).2)

theorem visit_generation (func : Option (IndexFound T A)) (x : Index T × A) (start : ℕ) :
    (visit R func x start).1.generation = generationAt R start := rfl

/-- A walk that comes to these indexes and ends behind its loop. -/
def Walked (func : Option (IndexFound T A)) (gen : ℕ) (starts : List ℕ) (w : Walk T A)
    (r : Option (ℤ × Walk T A)) : Prop :=
  ∃ dev index list, starts.foldl (visit R func) (w.index, w.list) = (index, list) ∧
    r = some (searchResult gen ⟨dev, index, list⟩, ⟨dev, index, list⟩)

variable {R p} {func : Option (IndexFound T A)} {gen : ℕ}

/-- Ending where it stands. -/
theorem Walked.here (w : Walk T A) : Walked R func gen [] w (some (searchResult gen w, w)) :=
  ⟨w.dev, w.index, w.list, rfl, rfl⟩

/-- One more index before the others. -/
theorem Walked.cons {w : Walk T A} {start : ℕ} {starts : List ℕ} {dev : Device}
    {r : Option (ℤ × Walk T A)}
    (h : Walked R func gen starts
      ⟨dev, (visit R func (w.index, w.list) start).1, (visit R func (w.index, w.list) start).2⟩ r) :
    Walked R func gen (start :: starts) w r := h

variable {records : List Record} (hne : .block [] ∉ records) (hfunc : NeverStops func)
include hne hfunc

/-- At a readable index a loop loads it, calls back and goes on behind it. -/
theorem visitIndex_readable {s : Span} (hclose : NextMark records s.before s.behind)
    (hread : Readable R p records s.start) (w : Walk T A) (hdev : w.dev = ⟨records, s.start, []⟩) :
    visitIndex R p func w = some (none, ⟨⟨records, s.behind + 1, []⟩,
      (visit R func (w.index, w.list) s.start).1, (visit R func (w.index, w.list) s.start).2⟩) := by
  obtain ⟨dev, hok⟩ := hread
  have hbehind := ltfsReadIndex_behind ⟨hne, hclose.second, hclose.clear⟩ hclose.lt hok
  have hrun : readIndex R p w = some (.ok true,
      { w with dev := ⟨records, s.behind + 1, []⟩, index := (R.parse s.start).index }) := by
    unfold readIndex
    rw [hdev, hok, hbehind]
    rfl
  unfold visitIndex
  rw [hrun]
  simp only [reportIndex, callFunc, visit]
  cases func with
  | none => rfl
  | some f =>
    have hzero := hfunc f rfl (R.parse s.start).index w.list
    simp only [hzero, lt_irrefl, if_false]

/-- The forward loop at an index, with the indexes `l` behind it. -/
theorem forwardLoop_spec (l : List Span) :
    ∀ (s : Span) (fuel : ℕ) (w : Walk T A), w.dev = ⟨records, s.start, []⟩ →
      NextMark records s.before s.behind → Follow records s.behind l →
      (∀ x ∈ s :: l, Readable R p records x.start) → l.length + 1 < fuel →
      Walked R func gen
        (Lib.upTo (endsForward R gen) ((s :: l).map Span.start)) w
        (forwardLoop R p func gen (l.getLastD s).start fuel w) := by
  induction l with
  | nil =>
    intro s fuel w hdev hclose hfollow hread hfuel
    obtain ⟨fuel, rfl⟩ : ∃ n, fuel = n + 2 := ⟨fuel - 2, by
      rw [List.length_nil] at hfuel
      omega⟩
    have hvisit := visitIndex_readable hne hfunc hclose (hread s (by simp)) w hdev
    have hpos : ¬ s.start < w.dev.pos := by
      rw [hdev]
      exact lt_irrefl _
    have hlt : s.start < s.behind + 1 := Nat.succ_lt_succ hclose.lt
    unfold forwardLoop
    rw [List.getLastD_nil, if_neg hpos, hvisit]
    simp only [visit_generation]
    by_cases hstop : stopsForward gen (generationAt R s.start) = true
    · rw [if_pos hstop, List.map_cons, Lib.upTo_cons_stop (endsForward R gen) _ hstop]
      exact .cons (.here _)
    · -- the tape is behind the last index, where the loop ends
      rw [if_neg hstop, if_neg (by omega), List.map_cons, Lib.upTo_cons_go (endsForward R gen) _ hstop]
      unfold forwardLoop
      rw [if_pos hlt]
      exact .cons (.here _)
  | cons s' l ih =>
    intro s fuel w hdev hclose hfollow hread hfuel
    cases hfollow with
    | index hopen' hclose' htail =>
      obtain ⟨fuel, rfl⟩ : ∃ n, fuel = n + 1 := ⟨fuel - 1, by omega⟩
      rw [List.length_cons] at hfuel
      have hvisit := visitIndex_readable hne hfunc hclose (hread s (by simp)) w hdev
      have hlast : s'.start ≤ (l.getLastD s').start := htail.start_le_last s' rfl hclose'.lt
      have hlt := hopen'.lt
      have hlt' := hclose.lt
      have hpos : ¬ ((s' :: l).getLastD s).start < w.dev.pos := by
        rw [hdev, List.getLastD_cons]
        unfold Span.start at hlast ⊢
        simp only
        omega
      have hmore : s.behind + 1 < ((s' :: l).getLastD s).start := by
        rw [List.getLastD_cons]
        unfold Span.start at hlast ⊢
        omega
      have hspace : spaceFmForward ⟨records, s.behind + 1, []⟩ = (0, ⟨records, s'.start, []⟩) :=
        spaceFmForward_mark hlt hopen'.second hopen'.clear
      unfold forwardLoop
      rw [if_neg hpos, hvisit]
      simp only [visit_generation]
      by_cases hstop : stopsForward gen (generationAt R s.start) = true
      · rw [if_pos hstop, List.map_cons, Lib.upTo_cons_stop (endsForward R gen) _ hstop]
        exact .cons (.here _)
      · rw [if_neg hstop, if_pos hmore, List.map_cons, Lib.upTo_cons_go (endsForward R gen) _ hstop]
        unfold tapeLocateNextIndex
        rw [hspace, if_neg (lt_irrefl 0), List.getLastD_cons]
        exact .cons (ih s' fuel _ rfl hclose' htail (fun x hx => hread x (by simp [hx])) (by omega))

/-- The backward loop at an index, with the indexes `l` before it. -/
theorem backwardLoop_spec (hlabel : NextMark records 1 3) (l : List Span) :
    ∀ (s : Span) (a fuel : ℕ) (w : Walk T A), w.dev = ⟨records, s.start, []⟩ →
      Preceded records a l → NextMark records a s.before → NextMark records s.before s.behind →
      (∀ x ∈ s :: l, Readable R p records x.start) → l.length + 1 < fuel →
      Walked R func gen
        (Lib.upTo (endsBackward R gen) ((s :: l).map Span.start)) w
        (backwardLoop R p func gen fuel w) := by
  induction l with
  | nil =>
    intro s a fuel w hdev hhead hopen hclose hread hfuel
    cases hhead
    obtain ⟨fuel, rfl⟩ : ∃ n, fuel = n + 2 := ⟨fuel - 2, by
      rw [List.length_nil] at hfuel
      omega⟩
    have hvisit := visitIndex_readable hne hfunc hclose (hread s (by simp)) w hdev
    have hpos : ¬ w.dev.pos ≤ 4 := by
      have hlt := hopen.lt
      rw [hdev]
      unfold Span.start
      simp only
      omega
    unfold backwardLoop
    rw [if_neg hpos, hvisit]
    simp only [visit_generation]
    by_cases hstop : stopsBackward gen (generationAt R s.start) = true
    · rw [if_pos hstop, List.map_cons, Lib.upTo_cons_stop (endsBackward R gen) _ hstop]
      exact .cons (.here _)
    · -- the fourth mark back is the first one of the label
      rw [if_neg hstop, List.map_cons, Lib.upTo_cons_go (endsBackward R gen) _ hstop,
        tapeLocatePreviousIndex_eq hlabel hopen hclose, if_neg (lt_irrefl 0)]
      unfold backwardLoop
      rw [if_pos (by show 1 + 1 ≤ 4; omega)]
      exact .cons (.here _)
  | cons s' l ih =>
    intro s a fuel w hdev hhead hopen hclose hread hfuel
    cases hhead with
    | index hhead' hopen' hclose' =>
      obtain ⟨fuel, rfl⟩ : ∃ n, fuel = n + 1 := ⟨fuel - 1, by omega⟩
      rw [List.length_cons] at hfuel
      have hvisit := visitIndex_readable hne hfunc hclose (hread s (by simp)) w hdev
      have hle := hhead'.le
      have hpos : ¬ w.dev.pos ≤ 4 := by
        have h1 := hopen'.lt
        have h2 := hclose'.lt
        have h3 := hopen.lt
        rw [hdev]
        unfold Span.start
        simp only
        omega
      unfold backwardLoop
      rw [if_neg hpos, hvisit]
      simp only [visit_generation]
      by_cases hstop : stopsBackward gen (generationAt R s.start) = true
      · rw [if_pos hstop, List.map_cons, Lib.upTo_cons_stop (endsBackward R gen) _ hstop]
        exact .cons (.here _)
      · rw [if_neg hstop, List.map_cons, Lib.upTo_cons_go (endsBackward R gen) _ hstop,
          tapeLocatePreviousIndex_eq hclose' hopen hclose, if_neg (lt_irrefl 0)]
        exact .cons (ih s' _ fuel _ rfl hhead' hopen' hclose' (fun x hx => hread x (by simp [hx]))
          (by omega))

end Walks


/-! ## What is found -/

section Found

variable {T A : Type} (R : IndexReader T) (p : Partition) (l : IndexedPartition)

/-- The walk ends, and the callback has been shown these indexes, in this order. -/
def Visits (func : Option (IndexFound T A)) (starts : List ℕ) (w : Walk T A)
    (r : Option (ℤ × Walk T A)) : Prop :=
  ∃ ret w', r = some (ret, w') ∧
    ∀ f ∈ func, w'.list = starts.foldl (fun list start => (f (R.parse start).index list).2) w.list

/-- The walk ends, with success if and only if there is an index of the generation, and then one is
loaded. -/
def Finds (gen : ℕ) (r : Option (ℤ × Walk T A)) : Prop :=
  ∃ ret w', r = some (ret, w') ∧ (ret = 0 ↔ ∃ start ∈ l.starts, generationAt R start = gen) ∧
    (ret = 0 → ∃ start ∈ l.starts, generationAt R start = gen ∧ w'.index = (R.parse start).index)

/-- What the two walks are for. -/
def SearchWorks (func : Option (IndexFound T A)) (gen : ℕ) (w : Walk T A) : Prop :=
  (gen = 0 → Visits R func l.starts w (ltfsTraverseIndexForward R p func gen w) ∧
    Visits R func l.starts.reverse w (ltfsTraverseIndexBackward R p func gen w)) ∧
  (0 < gen → Finds R l gen (ltfsTraverseIndexForward R p func gen w) ∧
    Finds R l gen (ltfsTraverseIndexBackward R p func gen w))

variable {R p l} {func : Option (IndexFound T A)} {gen : ℕ} {w : Walk T A}

theorem foldl_visit_last (func : Option (IndexFound T A)) {starts : List ℕ} {start : ℕ} (h : starts.getLast? = some start)
    (x : Index T × A) : (starts.foldl (visit R func) x).1 = (R.parse start).index := by
  rcases List.getLast?_eq_some_iff.mp h with ⟨init, rfl⟩
  rw [List.foldl_append]
  rfl

theorem foldl_visit_list {f : IndexFound T A} (starts : List ℕ) :
    ∀ x : Index T × A, (starts.foldl (visit R (some f)) x).2
      = starts.foldl (fun list start => (f (R.parse start).index list).2) x.2 := by
  induction starts with
  | nil => exact fun _ => rfl
  | cons start starts ih =>
    intro x
    rw [List.foldl_cons, List.foldl_cons, ih]
    rfl

theorem Walked.visits {starts : List ℕ} {r : Option (ℤ × Walk T A)}
    (h : Walked R func gen starts w r) : Visits R func starts w r := by
  obtain ⟨dev, index, list, hfold, hr⟩ := h
  refine ⟨_, _, hr, ?_⟩
  intro f hf
  cases hf
  rw [← foldl_visit_list starts (w.index, w.list), hfold]

theorem searchResult_zero_iff (hgen : 0 < gen) (w : Walk T A) :
    searchResult gen w = 0 ↔ w.index.generation = gen := by
  unfold searchResult
  rw [if_pos hgen.ne']
  by_cases h : w.index.generation = gen
  · rw [if_neg (by simpa using h)]
    exact ⟨fun _ => h, fun _ => rfl⟩
  · rw [if_pos h]
    exact ⟨fun h0 => absurd h0 (by decide), fun h' => absurd h' h⟩

/-- The index a walk ends with decides what it returns. -/
theorem Walked.loaded {starts : List ℕ} {start : ℕ} {r : Option (ℤ × Walk T A)} (hgen : 0 < gen)
    (h : Walked R func gen starts w r) (hlast : starts.getLast? = some start) :
    ∃ ret w', r = some (ret, w') ∧ (ret = 0 ↔ generationAt R start = gen) ∧
      w'.index = (R.parse start).index := by
  obtain ⟨dev, index, list, hfold, hr⟩ := h
  have hindex : index = (R.parse start).index := by
    rw [← foldl_visit_last func hlast (w.index, w.list), hfold]
  refine ⟨_, _, hr, ?_, hindex⟩
  rw [searchResult_zero_iff hgen, hindex]
  rfl

theorem Walked.finds {starts : List ℕ} {start : ℕ} {r : Option (ℤ × Walk T A)} (hgen : 0 < gen)
    (h : Walked R func gen starts w r) (hlast : starts.getLast? = some start)
    (hmem : start ∈ l.starts)
    (hfound : (∃ x ∈ l.starts, generationAt R x = gen) → generationAt R start = gen) :
    Finds R l gen r := by
  obtain ⟨ret, w', hr, hret, hindex⟩ := h.loaded hgen hlast
  refine ⟨ret, w', hr, ?_, ?_⟩
  · rw [hret]
    exact ⟨fun h => ⟨start, hmem, h⟩, hfound⟩
  · intro hzero
    exact ⟨start, hmem, hret.mp hzero, hindex⟩

section Ordered

variable (hsorted : l.starts.Pairwise fun a b => generationAt R a ≤ generationAt R b)
include hsorted

/-- The last index of the forward walk is of the generation, if there is one. -/
theorem exists_last_forward (hgen : 0 < gen) (hne : l.starts ≠ [])
    (hwidth : ∀ start ∈ l.starts, generationAt R start < 2 ^ 32) :
    ∃ start ∈ l.starts, (Lib.upTo (endsForward R gen) l.starts).getLast? = some start ∧
      ((∃ x ∈ l.starts, generationAt R x = gen) → generationAt R start = gen) := by
  by_cases hex : ∃ y ∈ l.starts, endsForward R gen y = true
  · -- the first generation that is not below `gen`
    rcases Lib.exists_last_stop (r := fun a b => generationAt R a ≤ generationAt R b) 
      (fun _ => Nat.le_refl _) hsorted hex with
      ⟨start, hmem, hlast, hstop, hleast⟩
    refine ⟨start, hmem, hlast, ?_⟩
    rintro ⟨x, hx, hxgen⟩
    simp only [endsForward, stopsForward, decide_eq_true_eq] at hstop hleast
    have hlt := hwidth start hmem
    have hreserved : gen ≠ unsupportedGeneration := by
      unfold unsupportedGeneration at hstop ⊢
      omega
    have hle := hleast x hx ⟨by omega, by omega, by omega⟩
    omega
  · -- nothing to stop at: only the reserved generation can be there
    have hnever : ∀ y ∈ l.starts, ¬ endsForward R gen y = true := fun y hy h => hex ⟨y, hy, h⟩
    rcases Lib.exists_last_never (r := fun a b => generationAt R a ≤ generationAt R b) 
      (fun _ => Nat.le_refl _) hsorted hne hnever with
      ⟨start, hmem, hlast, hgreatest⟩
    refine ⟨start, hmem, hlast, ?_⟩
    rintro ⟨x, hx, hxgen⟩
    have hnot := hnever x hx
    have hge := hgreatest x hx
    have hlt := hwidth start hmem
    simp only [endsForward, stopsForward, decide_eq_true_eq] at hnot
    unfold unsupportedGeneration at hnot
    omega

theorem sorted_reverse :
    l.starts.reverse.Pairwise fun a b => generationAt R b ≤ generationAt R a :=
  List.pairwise_reverse.mpr hsorted

/-- The last index of the backward walk is of the generation, if there is one and the generation is
not the reserved one with a smaller one on the partition. -/
theorem exists_last_backward (hgen : 0 < gen) (hne : l.starts ≠ [])
    (hreserved : ¬ (gen = unsupportedGeneration ∧ (∃ x ∈ l.starts, generationAt R x = gen) ∧
      ∃ x ∈ l.starts, generationAt R x < gen)) :
    ∃ start ∈ l.starts, (Lib.upTo (endsBackward R gen) l.starts.reverse).getLast? = some start ∧
      ((∃ x ∈ l.starts, generationAt R x = gen) → generationAt R start = gen) := by
  by_cases hex : ∃ y ∈ l.starts.reverse, endsBackward R gen y = true
  · rcases Lib.exists_last_stop (r := fun a b => generationAt R b ≤ generationAt R a) 
      (fun _ => Nat.le_refl _) (sorted_reverse hsorted) hex with
      ⟨start, hmem, hlast, hstop, hgreatest⟩
    have hmem' := List.mem_reverse.mp hmem
    refine ⟨start, hmem', hlast, ?_⟩
    rintro ⟨x, hx, hxgen⟩
    simp only [endsBackward, stopsBackward, decide_eq_true_eq] at hstop hgreatest
    by_cases hlt : generationAt R start < gen
    · have hgen' : gen ≠ unsupportedGeneration := fun h => hreserved ⟨h, ⟨x, hx, hxgen⟩, start, hmem', hlt⟩
      have hge := hgreatest x (List.mem_reverse.mpr hx) ⟨by omega, by omega, by omega⟩
      omega
    · omega
  · have hnever : ∀ y ∈ l.starts.reverse, ¬ endsBackward R gen y = true :=
      fun y hy h => hex ⟨y, hy, h⟩
    rcases Lib.exists_last_never (r := fun a b => generationAt R b ≤ generationAt R a) 
      (fun _ => Nat.le_refl _) (sorted_reverse hsorted)
      (by simpa using hne) hnever with ⟨start, hmem, hlast, hleast⟩
    refine ⟨start, List.mem_reverse.mp hmem, hlast, ?_⟩
    rintro ⟨x, hx, hxgen⟩
    have hnot := hnever x (List.mem_reverse.mpr hx)
    have hnot' := hnever start hmem
    have hle := hleast x (List.mem_reverse.mpr hx)
    simp only [endsBackward, stopsBackward, decide_eq_true_eq] at hnot hnot'
    omega

end Ordered

variable (hdev : ∃ pos, w.dev = ⟨l.records, pos, []⟩) (hfunc : NeverStops func)
  (hread : ∀ start ∈ l.starts, Readable R p l.records start)
include hdev

/-- Without an index the forward walk fails. -/
theorem traverseForward_empty (R : IndexReader T) (p : Partition) (func : Option (IndexFound T A))
    (gen : ℕ) (hne : l.starts = []) :
    ∃ w', ltfsTraverseIndexForward R p func gen w = some (-edevEodDetected, w') ∧
      w'.list = w.list := by
  obtain ⟨pos, hdev⟩ := hdev
  have hspans : l.spans = [] := List.map_eq_nil_iff.mp hne
  have hfollow := l.follow
  rw [hspans] at hfollow
  cases hfollow with
  | none hend =>
    have hlast := tapeLocateLastIndex_eq pos l.label_marks hend
    have hfirst := tapeLocateFirstIndex_eq 2 l.four_le_length
    rw [spaceFmForward_none l.four_le_length hend] at hfirst
    unfold ltfsTraverseIndexForward
    rw [hdev, hlast]
    simp only [lt_irrefl, if_false]
    rw [hfirst, if_pos (by show -edevEodDetected < 0; decide)]
    exact ⟨_, rfl, rfl⟩

include hfunc hread

/-- The forward walk comes to the indexes from the first one on. -/
theorem traverseForward_walked (gen : ℕ) (hne : l.starts ≠ []) :
    Walked R func gen (Lib.upTo (endsForward R gen) l.starts) w
      (ltfsTraverseIndexForward R p func gen w) := by
  obtain ⟨pos, hdev⟩ := hdev
  have hfollow := l.follow
  have hreadable : ∀ s ∈ l.spans, Readable R p l.records s.start :=
    fun s hs => hread _ (List.mem_map_of_mem hs)
  have hfuel : l.spans.length < l.records.length := l.spans_length_lt
  unfold IndexedPartition.starts at hne ⊢
  cases hspans : l.spans with
  | nil =>
    rw [hspans] at hne
    exact absurd rfl hne
  | cons s rest =>
    rw [hspans] at hfollow hreadable hfuel
    rw [List.length_cons] at hfuel
    cases hfollow with
    | index hopen hclose htail =>
      obtain ⟨hlast, hend⟩ := htail.last s rfl hclose
      have hlocate := tapeLocateLastIndex_eq pos hlast hend
      have hfirst := tapeLocateFirstIndex_eq ((rest.getLastD s).before + 1) l.four_le_length
      rw [spaceFmForward_mark (by have := hopen.lt; omega) hopen.second hopen.clear] at hfirst
      unfold ltfsTraverseIndexForward
      rw [hdev, hlocate]
      simp only [lt_irrefl, if_false]
      rw [hfirst]
      simp only [lt_irrefl, if_false]
      exact forwardLoop_spec l.nonempty_records hfunc rest s _
        { w with dev := ⟨l.records, s.before + 1, []⟩ } rfl hclose htail hreadable (by omega)

/-- The backward walk comes to them from the last one on. -/
theorem traverseBackward_walked (gen : ℕ) :
    Walked R func gen (Lib.upTo (endsBackward R gen) l.starts.reverse) w
      (ltfsTraverseIndexBackward R p func gen w) := by
  obtain ⟨pos, hdev⟩ := hdev
  rcases l.follow.preceded [] .label with ⟨b, hb, hend⟩
  rw [List.append_nil] at hb
  have hreadable : ∀ s ∈ l.spans.reverse, Readable R p l.records s.start :=
    fun s hs => hread _ (List.mem_map_of_mem (List.mem_reverse.mp hs))
  have hfuel : l.spans.reverse.length < l.records.length := by
    rw [List.length_reverse]
    exact l.spans_length_lt
  unfold IndexedPartition.starts
  rw [← List.map_reverse]
  unfold ltfsTraverseIndexBackward
  generalize l.spans.reverse = back at hb hreadable hfuel ⊢
  cases hb with
  | label =>
    -- no index: the tape is within the label
    rw [hdev, tapeLocateLastIndex_eq pos l.label_marks hend]
    simp only [lt_irrefl, if_false]
    unfold backwardLoop
    rw [if_pos (by show 1 + 1 ≤ 4; omega)]
    exact ⟨⟨l.records, 1 + 1, []⟩, w.index, w.list, rfl, rfl⟩
  | index hhead hopen hclose =>
    rw [hdev, tapeLocateLastIndex_eq pos hclose hend]
    simp only [lt_irrefl, if_false]
    rw [List.length_cons] at hfuel
    exact backwardLoop_spec l.nonempty_records hfunc l.label_marks _ _ _ _
      { w with dev := ⟨l.records, _ + 1, []⟩ } rfl hhead hopen hclose hreadable (by omega)

variable (hsorted : l.starts.Pairwise fun a b => generationAt R a ≤ generationAt R b)
  (hwidth : ∀ start ∈ l.starts, generationAt R start < 2 ^ 32)

/-- Without a generation both walks visit every index, in tape order and in the reverse. -/
theorem traverse_visits :
    Visits R func l.starts w (ltfsTraverseIndexForward R p func 0 w) ∧
      Visits R func l.starts.reverse w (ltfsTraverseIndexBackward R p func 0 w) := by
  have hforward : Lib.upTo (endsForward R 0) l.starts = l.starts :=
    Lib.upTo_never _ fun _ _ => by simp [endsForward, stopsForward]
  have hbackward : Lib.upTo (endsBackward R 0) l.starts.reverse = l.starts.reverse :=
    Lib.upTo_never _ fun _ _ => by simp [endsBackward, stopsBackward]
  constructor
  · by_cases hne : l.starts = []
    · rcases traverseForward_empty hdev R p func 0 hne with
        ⟨w', hr, hlist⟩
      refine ⟨_, w', hr, ?_⟩
      intro f _
      rw [hne, hlist]
      rfl
    · have hwalk := traverseForward_walked hdev hfunc hread 0 hne
      rw [hforward] at hwalk
      exact hwalk.visits
  · have hwalk := traverseBackward_walked hdev hfunc hread 0
    rw [hbackward] at hwalk
    exact hwalk.visits

include hsorted hwidth in
/-- The forward walk finds every generation. -/
theorem traverseForward_finds (hgen : 0 < gen) :
    Finds R l gen (ltfsTraverseIndexForward R p func gen w) := by
  by_cases hne : l.starts = []
  · rcases traverseForward_empty hdev R p func gen hne with
      ⟨w', hr, -⟩
    refine ⟨_, w', hr, ?_, fun h => absurd h (by decide)⟩
    rw [hne]
    exact ⟨fun h => absurd h (by decide), fun ⟨x, hx, _⟩ => absurd hx List.not_mem_nil⟩
  · rcases exists_last_forward hsorted hgen hne hwidth with ⟨start, hmem, hlast, hfound⟩
    exact (traverseForward_walked hdev hfunc hread gen hne).finds hgen hlast hmem hfound

include hsorted in
/-- The backward walk finds it unless it is misled. -/
theorem traverseBackward_finds_iff (hgen : 0 < gen) :
    Finds R l gen (ltfsTraverseIndexBackward R p func gen w) ↔
      ¬ (l.starts = [] ∧ w.index.generation = gen) ∧
      ¬ (gen = unsupportedGeneration ∧ (∃ x ∈ l.starts, generationAt R x = gen) ∧
        ∃ x ∈ l.starts, generationAt R x < gen) := by
  have hwalk := traverseBackward_walked hdev hfunc hread gen
  constructor
  · intro h
    rcases h with ⟨ret, w', hr, hret, -⟩
    constructor
    · -- no index is read, and the one loaded before is taken for the one sought
      rintro ⟨hempty, hstale⟩
      rw [hempty] at hwalk
      obtain ⟨dev, index, list, hfold, hr'⟩ := hwalk
      cases hfold
      rw [hr] at hr'
      cases hr'
      rcases hret.mp ((searchResult_zero_iff hgen _).mpr hstale) with ⟨x, hx, -⟩
      rw [hempty] at hx
      cases hx
    · -- the walk does not end at the reserved generation, but at a smaller one
      rintro ⟨hreserved, hex, x, hx, hlt⟩
      have hstop : ∃ y ∈ l.starts.reverse, endsBackward R gen y = true := by
        refine ⟨x, List.mem_reverse.mpr hx, ?_⟩
        simp only [endsBackward, stopsBackward, decide_eq_true_eq]
        omega
      rcases Lib.exists_last_stop (r := fun a b => generationAt R b ≤ generationAt R a)
        (fun _ => Nat.le_refl _) (sorted_reverse hsorted) hstop with ⟨start, -, hlast, hend, -⟩
      rcases hwalk.loaded hgen hlast with ⟨ret', w'', hr', hret', -⟩
      rw [hr] at hr'
      cases hr'
      have hgeneration := hret'.mp (hret.mpr hex)
      simp only [endsBackward, stopsBackward, decide_eq_true_eq] at hend
      exact hend.1 (hgeneration.trans hreserved)
  · rintro ⟨hstale, hreserved⟩
    by_cases hne : l.starts = []
    · rw [hne] at hwalk
      obtain ⟨dev, index, list, hfold, hr⟩ := hwalk
      cases hfold
      have hnot : ¬ searchResult gen (⟨dev, w.index, w.list⟩ : Walk T A) = 0 := by
        rw [searchResult_zero_iff hgen]
        exact fun h => hstale ⟨hne, h⟩
      refine ⟨_, _, hr, ?_, fun h => absurd h hnot⟩
      rw [hne]
      exact ⟨fun h => absurd h hnot, fun ⟨x, hx, _⟩ => absurd hx List.not_mem_nil⟩
    · rcases exists_last_backward hsorted hgen hne hreserved with ⟨start, hmem, hlast, hfound⟩
      exact hwalk.finds hgen hlast hmem hfound

include hsorted hwidth in
/-- On a partition of readable indexes with non-decreasing generations, and with a callback that
never stops them, both walks end and do what they are for, if and only if the backward one is not
misled: either there is no index on the partition, and the index loaded before is of the generation
sought, or that is the generation reserved for unsupported versions, and a smaller one is there as
well. -/
theorem traverse_search_iff :
    SearchWorks R p l func gen w ↔
      (0 < gen → ¬ (l.starts = [] ∧ w.index.generation = gen) ∧
        ¬ (gen = unsupportedGeneration ∧ (∃ x ∈ l.starts, generationAt R x = gen) ∧
          ∃ x ∈ l.starts, generationAt R x < gen)) := by
  have hiff : 0 < gen → _ := traverseBackward_finds_iff hdev hfunc hread hsorted
  constructor
  · intro h hgen
    exact (hiff hgen).mp (h.2 hgen).2
  · intro h
    constructor
    · rintro rfl
      exact traverse_visits hdev hfunc hread
    · intro hgen
      exact ⟨traverseForward_finds hdev hfunc hread hsorted hwidth hgen, (hiff hgen).mpr (h hgen)⟩

end Found


theorem fourBytes_pos : 0 < 4 := by decide

/-- Every index is of one byte; the first one is of generation 1 and all others are of generation
2. -/
def twoGenerations : IndexReader Unit where
  blocksize := ⟨4, fourBytes_pos⟩
  volUuid := []
  parse start :=
    { failure := none
      requests := [4]
      documentLength := 1
      symerrCount := 0
      splitSymlink := none
      volUuid := []
      index :=
        { generation := if start = 5 then 1 else 2
          selfptr := ⟨some .dp, start⟩
          backptr := ⟨none, 0⟩
          root := () } }
  recoverSymlink := false
  ignoreWrongVersion := false

/-- Two indexes back to back, and data behind them. -/
def twoIndexes : IndexedPartition where
  volumeLabel := [1]
  ltfsLabel := [2]
  content := [.index [[3]], .index [[4]], .data [5]]
  nonempty := by decide

/-- The callback notes the generations. -/
def noteGeneration : IndexFound Unit (List ℕ) := fun index list => (0, index.generation :: list)

theorem traverse_search_two :
    SearchWorks twoGenerations .dp twoIndexes (some noteGeneration) 1
      ⟨⟨twoIndexes.records, 0, []⟩, ⟨7, ⟨none, 0⟩, ⟨none, 0⟩, ()⟩, []⟩ := by
  have hstarts : twoIndexes.starts = [5, 8] := rfl
  refine (traverse_search_iff ⟨0, rfl⟩ ?_ ?_ ?_ ?_).mpr ?_
  · rintro f ⟨⟩ index list
    rfl
  · intro start hstart
    rw [hstarts] at hstart
    simp only [List.mem_cons, List.not_mem_nil, or_false] at hstart
    rcases hstart with rfl | rfl
    · exact ⟨⟨twoIndexes.records, 7, []⟩, rfl⟩
    · exact ⟨⟨twoIndexes.records, 10, []⟩, rfl⟩
  · rw [hstarts]
    decide
  · rw [hstarts]
    decide
  · intro _
    rw [hstarts]
    decide

/-- Nothing but the label. -/
def emptyPartition : IndexedPartition where
  volumeLabel := [1]
  ltfsLabel := [2]
  content := []
  nonempty := by decide

/-- There is no index, but one of generation 1 is in memory: it counts as found. -/
theorem backward_finds_index_in_memory :
    ¬ SearchWorks (A := Unit) twoGenerations .dp emptyPartition none 1
      ⟨⟨emptyPartition.records, 0, []⟩, (twoGenerations.parse 5).index, ()⟩ := by
  intro h
  rcases (h.2 (by decide)).2 with ⟨ret, w', hr, hret, -⟩
  have hback : ltfsTraverseIndexBackward (A := Unit) twoGenerations .dp none 1
      ⟨⟨emptyPartition.records, 0, []⟩, (twoGenerations.parse 5).index, ()⟩ = some (0, _) := rfl
  rw [hback] at hr
  cases hr
  rcases hret.mp rfl with ⟨x, hx, -⟩
  cases hx


end Ltfs.XmlTape.Traverse

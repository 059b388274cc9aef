import Ltfs.IndexStream
import Ltfs.SeekIndex

/-!
# The index that is found

* `ltfsReadIndex_spec` — what reading an index between two file marks gives, and where it leaves
  the tape.
* `LastIndex` — the last region of the partition that parses as a valid index.
* `EndFound` — when its end is reported as it is.
* `seek_index_last_iff` — the search ends, and what it finds is the last valid index, with end
  and end of data exact, in exactly that case.
-/

namespace Ltfs.XmlTape

section Spacing

variable {records : List Record}

/-! ## Spacing over file marks -/

theorem nextFilemark_some {t : ℕ} : ∀ (n pos : ℕ), nextFilemark records pos n = some t →
    pos ≤ t ∧ records[t]? = some .filemark ∧ NoMark records pos t := by
  intro n
  induction n with
  | zero =>
    intro pos h
    cases h
  | succ n ih =>
    intro pos h
    unfold nextFilemark at h
    by_cases hmark : records[pos]? = some .filemark
    · rw [if_pos hmark] at h
      cases h
      exact ⟨le_refl _, hmark, .refl _⟩
    · rw [if_neg hmark] at h
      obtain ⟨h1, h2, h3⟩ := ih (pos + 1) h
      exact ⟨by omega, h2, h3.succ hmark⟩

theorem nextFilemark_none : ∀ (n pos : ℕ), nextFilemark records pos n = none →
    NoMark records pos (pos + n) := by
  intro n
  induction n with
  | zero => exact fun pos _ => .refl _
  | succ n ih =>
    intro pos h
    unfold nextFilemark at h
    by_cases hmark : records[pos]? = some .filemark
    · rw [if_pos hmark] at h
      cases h
    · rw [if_neg hmark] at h
      have hno := ih (pos + 1) h
      rw [show pos + 1 + n = pos + (n + 1) by omega] at hno
      exact hno.succ hmark

/-- The last file mark before `pos`. -/
theorem lastFilemark_eq {t : ℕ} : ∀ {pos : ℕ}, t < pos → records[t]? = some .filemark →
    NoMark records (t + 1) pos → lastFilemark records pos = some t := by
  intro pos
  induction pos with
  | zero => exact fun h => absurd h (Nat.not_lt_zero _)
  | succ pos ih =>
    intro hlt hmark hno
    unfold lastFilemark
    by_cases heq : t = pos
    · rw [← heq, if_pos hmark]
    · rw [if_neg (hno pos (by omega) (by omega))]
      exact ih (by omega) hmark fun i h1 h2 => hno i h1 (by omega)

/-- There is one if there is any. -/
theorem exists_lastFilemark {t : ℕ} : ∀ {pos : ℕ}, t < pos → records[t]? = some .filemark →
    ∃ t', t ≤ t' ∧ t' < pos ∧ records[t']? = some .filemark ∧ NoMark records (t' + 1) pos := by
  intro pos
  induction pos with
  | zero => exact fun h => absurd h (Nat.not_lt_zero _)
  | succ pos ih =>
    intro hlt hmark
    by_cases hhere : records[pos]? = some .filemark
    · exact ⟨pos, by omega, Nat.lt_succ_self _, hhere, .refl _⟩
    · have hne : t ≠ pos := by
        rintro rfl
        exact hhere hmark
      obtain ⟨t', h1, h2, h3, h4⟩ := ih (by omega) hmark
      refine ⟨t', h1, by omega, h3, fun i h5 h6 => ?_⟩
      by_cases heq : i = pos
      · rw [heq]
        exact hhere
      · exact h4 i h5 (by omega)

/-- To behind the next file mark, or to the end of data if there is none. -/
theorem spaceFmForward_cases {pos : ℕ} (hle : pos ≤ records.length) :
    (∃ t, spaceFmForward ⟨records, pos, []⟩ = (0, ⟨records, t + 1, []⟩) ∧ pos ≤ t ∧
      records[t]? = some .filemark ∧ NoMark records pos t) ∨
    (spaceFmForward ⟨records, pos, []⟩ = (-edevEodDetected, ⟨records, records.length, []⟩) ∧
      NoMark records pos records.length) := by
  unfold spaceFmForward
  dsimp only
  cases hnext : nextFilemark records pos (records.length - pos) with
  | none =>
    have hno := nextFilemark_none _ _ hnext
    rw [Nat.add_sub_cancel' hle] at hno
    exact .inr ⟨rfl, hno⟩
  | some t => exact .inl ⟨t, rfl, nextFilemark_some _ _ hnext⟩

/-- Back over a file mark. -/
theorem spaceFmBack_mark {t pos : ℕ} (hlt : t < pos) (hmark : records[t]? = some .filemark)
    (hno : NoMark records (t + 1) pos) :
    spaceFmBack ⟨records, pos, []⟩ = (0, ⟨records, t, []⟩) := by
  unfold spaceFmBack
  rw [lastFilemark_eq hlt hmark hno]
  rfl

theorem spaceFmBackTwo_mark {t t' pos : ℕ} (hlt : t < pos) (hmark : records[t]? = some .filemark)
    (hno : NoMark records (t + 1) pos) (hlt' : t' < t) (hmark' : records[t']? = some .filemark)
    (hno' : NoMark records (t' + 1) t) :
    spaceFmBackTwo ⟨records, pos, []⟩ = (0, ⟨records, t', []⟩) := by
  unfold spaceFmBackTwo
  rw [lastFilemark_eq hlt hmark hno, Option.bind_some, lastFilemark_eq hlt' hmark' hno']
  rfl

end Spacing

section Search

variable {T : Type} (R : IndexReader T) (p : Partition) (records : List Record)

/-- What comes of parsing, the symlink conflicts resolved; the flag says whether a file mark has
been seen. -/
def parseResult (start : ℕ) (sawFileMark : Bool) : Except ℤ Bool :=
  recoverConflicts R start <| match (R.parse start).failure with
    | some code => .error (if code.1 = -1 then -ltfsIndexInvalid else code.1)
    | none => .ok sawFileMark

/-- The blocks from there on parse as a valid index. -/
def ValidIndex (start : ℕ) : Prop :=
  (∃ endFm, parseResult R start false = .ok endFm) ∧ checkIndex R p start = true

/-- Only because symlink conflicts have been resolved. -/
def Recovered (start : ℕ) : Prop := parseResult R start false = .ok true

/-- When the end of the index that starts there is reported as it is. -/
def EndFound (start : ℕ) : Prop :=
  (Recovered R start →
    Closed R.blocksize (records.drop start) (R.parse start).documentLength) ∧
  (¬ Recovered R start → EndSeen R.blocksize (records.drop start) (R.parse start).documentLength
    (R.parse start).requests.sum)

/-- Where an index can start: behind a file mark that is not the one of the label, with a record
there. -/
structure Region (start : ℕ) : Prop where
  content : 5 ≤ start
  lt : start < records.length
  mark : records[start - 1]? = some .filemark

/-- Where the index that starts there ends. -/
def endOf (start : ℕ) : ℕ :=
  indexEnd R.blocksize start (records.drop start) (R.parse start).documentLength

/-- The last valid index of the partition. -/
structure LastIndex (start : ℕ) : Prop where
  region : Region records start
  valid : ValidIndex R p start
  last : ∀ later, Region records later → start < later → ¬ ValidIndex R p later

/-- What is reported is the last valid index, its end and the end of data. -/
def RightIndex (eod : ℕ) (found : SoughtIndex T) : Prop :=
  ∃ start, LastIndex R p records start ∧ found.index = (R.parse start).index ∧
    eod = records.length ∧
    found.indexEndPos = endOf R records start ∧
    (found.blocksAfter = true ↔ endOf R records start < records.length)

/-- Where the tape is then: behind the file mark that ends the region, or before any. -/
def Stopped (start : ℕ) (fmAfter : Bool) (pos : ℕ) : Prop :=
  if fmAfter then
    ∃ t, pos = t + 1 ∧ start ≤ t ∧ records[t]? = some .filemark ∧ NoMark records start t
  else start ≤ pos ∧ NoMark records start pos

/-- What `ltfs_read_index` does: it moves the tape, and either fails or accepts. -/
inductive ReadIndex (start : ℕ) : Except ℤ Bool × Device → Prop where
  /-- The tape has not passed a file mark, unless there was none to come. A valid index fails
  only if its conflicts were resolved and nothing closes it. -/
  | failed (ret : ℤ) (pos : ℕ) (hle : start ≤ pos) (hlen : pos ≤ records.length)
    (hno : NoMark records start pos)
    (hskip : ValidIndex R p start → Recovered R start ∧ NoMark records start records.length) :
    ReadIndex start (.error ret, ⟨records, pos, []⟩)
  | accepted (fmAfter : Bool) (pos : ℕ) (hle : pos ≤ records.length) (hvalid : ValidIndex R p start)
    (hstopped : Stopped records start fmAfter pos)
    (hend : pos = endOf R records start ↔ EndFound R records start) :
    ReadIndex start (.ok fmAfter, ⟨records, pos, []⟩)

/-- The search goes past it: either it is not valid, or its conflicts were resolved and nothing
closes it. -/
def Skipped (start : ℕ) : Prop :=
  ValidIndex R p start → Recovered R start ∧ NoMark records start records.length

/-- The search goes past every region. -/
def NoneFound : Prop := ∀ start, Region records start → Skipped R p records start

/-- What the search stops at. -/
structure FoundAt (found : SoughtIndex T) (start : ℕ) : Prop where
  region : Region records start
  valid : ValidIndex R p start
  later : ∀ other, Region records other → start < other → Skipped R p records other
  index : found.index = (R.parse start).index
  indexEnd : found.indexEndPos = endOf R records start ↔
    EndFound R records start
  le : found.indexEndPos ≤ records.length
  stopped : Stopped records start found.fmAfter found.indexEndPos
  blocksAfter : found.blocksAfter = true ↔ found.indexEndPos ≠ records.length

variable {R p records}

/-- Whether a file mark was seen plays no role for success. -/
theorem parseResult_cases (start : ℕ) (sawFileMark : Bool) :
    (∃ ret, parseResult R start false = .error ret ∧ parseResult R start sawFileMark = .error ret) ∨
    (Recovered R start ∧ parseResult R start sawFileMark = .ok true) ∨
    (¬ Recovered R start ∧ parseResult R start false = .ok false ∧
      parseResult R start sawFileMark = .ok sawFileMark) := by
  unfold Recovered parseResult recoverConflicts
  by_cases hrecover : (R.parse start).symerrCount ≠ 0 ∧ R.recoverSymlink = true
  · rw [if_pos hrecover, if_pos hrecover]
    cases (R.parse start).splitSymlink with
    | some code => exact .inl ⟨_, rfl, rfl⟩
    | none =>
      cases (R.parse start).failure with
      | some code =>
        dsimp only
        by_cases hconflict : (if code.1 = -1 then -ltfsIndexInvalid else code.1) = -ltfsSymlinkConflict
        · rw [if_pos hconflict]
          exact .inr (.inl ⟨rfl, rfl⟩)
        · rw [if_neg hconflict]
          exact .inl ⟨_, rfl, rfl⟩
      | none => exact .inr (.inr ⟨by simp, rfl, rfl⟩)
  · rw [if_neg hrecover, if_neg hrecover]
    cases (R.parse start).failure with
    | some code => exact .inl ⟨_, rfl, rfl⟩
    | none => exact .inr (.inr ⟨by simp, rfl, rfl⟩)

theorem xmlSchemaFromTape_eq (hne : .block [] ∉ records) {start : ℕ} (hlt : start < records.length) :
    let v := streamState R.blocksize start (records.drop start) (R.parse start).requests.sum
    xmlSchemaFromTape R records.length ⟨records, start, []⟩
      = some (match (R.parse start).failure with
        | some code => .error (if code.1 = -1 then -ltfsIndexInvalid else code.1)
        | none => .ok v.sawFileMark, ⟨records, v.pos, []⟩) := by
  intro v
  have hstart : IsAt R.blocksize records (inputTape R records.length ⟨records, start, []⟩)
      (streamState R.blocksize start (records.drop start) 0) := by
    rw [streamState_zero]
    exact ⟨rfl, rfl, rfl, rfl, rfl, rfl, rfl, rfl, rfl, rfl, rfl⟩
  obtain ⟨chunks, ctx, hread, hat⟩ := readAll_stream R.blocksize.pos hne (by omega) rfl hlt.le
    (R.parse start).requests 0 _ hstart
  rw [Nat.zero_add] at hat
  unfold xmlSchemaFromTape
  dsimp only
  rw [hread, Option.map_some]
  dsimp only
  rw [hat.errCode, if_neg (lt_irrefl 0), hat.device, hat.sawFileMark]
  cases (R.parse start).failure with
  | some code => rfl
  | none => rfl

theorem ltfsReadIndex_spec (hne : .block [] ∉ records) {start : ℕ} (hlt : start < records.length) :
    ∃ r, ltfsReadIndex R p records.length ⟨records, start, []⟩ = some r ∧
      ReadIndex R p records start r := by
  have hschema := @xmlSchemaFromTape_eq T R records hne start hlt
  have hbounds := @streamState_bounds R.blocksize records (records.drop start) start
    (R.parse start).requests.sum rfl hlt.le
  have hafter := @after_eq_indexEnd_iff R.blocksize (records.drop start) start
    (R.parse start).documentLength (R.parse start).requests.sum
  generalize streamState R.blocksize start (records.drop start) (R.parse start).requests.sum = v
    at hschema hbounds hafter
  obtain ⟨hle, hlen, hno, hmark⟩ := hbounds
  unfold ltfsReadIndex
  rw [hschema, Option.map_some]
  dsimp only
  refine ⟨_, rfl, ?_⟩
  have hresult : recoverConflicts R start (match (R.parse start).failure with
        | some code => .error (if code.1 = -1 then -ltfsIndexInvalid else code.1)
        | none => .ok v.sawFileMark) = parseResult R start v.sawFileMark := rfl
  rw [hresult]
  have hinvalid : ¬ checkIndex R p start = true →
      ReadIndex R p records start
        (.error (-ltfsIndexInvalid), ⟨records, v.pos, []⟩) :=
    fun hcheck => .failed _ _ hle hlen hno fun hvalid => absurd hvalid.2 hcheck
  rcases parseResult_cases (R := R) start v.sawFileMark with
    ⟨ret, hfalse, heq⟩ | ⟨hrecovered, heq⟩ | ⟨hplain, hfalse, heq⟩
  · rw [heq]
    refine .failed ret v.pos hle hlen hno fun hvalid => ?_
    obtain ⟨endFm, hok⟩ := hvalid.1
    rw [hfalse] at hok
    cases hok
  · rw [heq]
    dsimp only
    by_cases hcheck : checkIndex R p start = true
    · have hvalid : ValidIndex R p start := ⟨⟨true, hrecovered⟩, hcheck⟩
      rw [hcheck]
      simp only [Bool.not_true, Bool.false_eq_true, if_false, if_true]
      -- the file mark counts as seen, so the tape moves on to the next one
      rcases spaceFmForward_cases hlen with ⟨t, hspace, hpt, htmark, htno⟩ | ⟨hspace, hnone⟩
      · rw [hspace]
        have hlt' : t < records.length := (List.getElem?_eq_some_iff.mp htmark).1
        refine .accepted true (t + 1) hlt' hvalid ⟨t, rfl, by omega, htmark, hno.append htno⟩ ?_
        rw [endOf, indexEnd_mark_iff _ start t _ rfl (by omega) (hno.append htno) htmark]
        exact ⟨fun h => ⟨fun _ => h, fun hnot => absurd hrecovered hnot⟩, fun h => h.1 hrecovered⟩
      · rw [hspace]
        exact .failed _ _ hlt.le (le_refl _) (hno.append hnone)
          fun _ => ⟨hrecovered, hno.append hnone⟩
    · have hfalse : checkIndex R p start = false := Bool.eq_false_iff.mpr hcheck
      rw [hfalse]
      exact hinvalid hcheck
  · rw [heq]
    dsimp only
    by_cases hcheck : checkIndex R p start = true
    · have hvalid : ValidIndex R p start := ⟨⟨false, hfalse⟩, hcheck⟩
      have hend : v.after = endOf R records start ↔ EndFound R records start :=
        hafter.trans ⟨fun h => ⟨fun hrec => absurd hrec hplain, fun _ => h⟩, fun h => h.2 hplain⟩
      rw [hcheck]
      simp only [Bool.not_true, Bool.false_eq_true, if_false]
      unfold StreamPos.after at hend
      by_cases hsaw : v.sawFileMark = true
      · rw [if_pos hsaw] at hend
        rw [if_pos hsaw]
        have hhere := hmark hsaw
        have hlt' : v.pos < records.length := (List.getElem?_eq_some_iff.mp hhere).1
        rcases spaceFmForward_cases hlen with ⟨t, hspace, hpt, htmark, htno⟩ | ⟨hspace, hnone⟩
        · have htpos : t = v.pos := by
            by_contra hne'
            exact htno v.pos (le_refl _) (by omega) hhere
          rw [hspace, htpos]
          exact .accepted true (v.pos + 1) hlt' hvalid ⟨v.pos, rfl, hle, hhere, hno⟩ hend
        · exact absurd hhere (hnone v.pos (le_refl _) hlt')
      · rw [if_neg hsaw] at hend
        rw [if_neg hsaw]
        exact .accepted false v.pos hlen hvalid ⟨hle, hno⟩ hend
    · have hfalse' : checkIndex R p start = false := Bool.eq_false_iff.mpr hcheck
      rw [hfalse']
      exact hinvalid hcheck

theorem ValidIndex.selfptr {start : ℕ} (h : ValidIndex R p start) :
    (R.parse start).index.selfptr = ⟨some p, start⟩ := by
  have hcheck := h.2
  unfold checkIndex at hcheck
  simp only [Bool.and_eq_true, decide_eq_true_eq] at hcheck
  exact hcheck.1.1.1.2

/-- The loop goes back from file mark to file mark, and past every region that is not accepted. The
induction is on the fuel, of which one is left at the file mark of the label. -/
theorem seekIndexLoop_spec (hne : .block [] ∉ records) (hlabel : records[3]? = some .filemark) :
    ∀ (fuel pos : ℕ), records[pos]? = some .filemark → 3 ≤ pos → pos + 1 < records.length →
      pos < fuel → (∀ other, Region records other → pos + 1 < other → Skipped R p records other) →
      ∃ r, seekIndexLoop R p records.length fuel ⟨records, pos, []⟩ = some r ∧
        (∀ found, r = .ok (some found) → ∃ start, FoundAt R p records found start) ∧
        (r = .ok none → NoneFound R p records) := by
  intro fuel
  induction fuel with
  | zero => exact fun pos _ _ _ h => absurd h (Nat.not_lt_zero _)
  | succ fuel ih =>
    intro pos hmark hge hlt hfuel hlater
    unfold seekIndexLoop
    by_cases hend : pos = 3
    · rw [if_pos hend]
      refine ⟨_, rfl, fun found h => ?_, fun _ other hother => ?_⟩
      · cases h
      · have hcontent := hother.content
        exact hlater other hother (by omega)
    · rw [if_neg hend]
      have hregion : Region records (pos + 1) := ⟨by omega, hlt, hmark⟩
      -- on to the region behind this file mark
      have hforward : spaceFmForward ⟨records, pos, []⟩ = (0, ⟨records, pos + 1, []⟩) := by
        rcases spaceFmForward_cases (Nat.le_of_succ_le hlt.le) with
          ⟨t, hspace, hpt, htmark, htno⟩ | ⟨hspace, hnone⟩
        · have htpos : t = pos := by
            by_contra hne'
            exact htno pos (le_refl _) (by omega) hmark
          rw [hspace, htpos]
        · exact absurd hmark (hnone pos (le_refl _) (by omega))
      rw [hforward]
      dsimp only
      rw [if_neg (lt_irrefl 0)]
      obtain ⟨r, hread, hcase⟩ := ltfsReadIndex_spec (R := R) (p := p) hne hlt
      rw [hread]
      cases hcase with
      | failed ret after hle hlen hno hskip =>
        dsimp only
        by_cases hseek : keepSeeking R ret = true
        · rw [if_pos hseek]
          -- the file mark before this one is there, at the latest that of the label
          have hbefore : 3 < pos := by omega
          obtain ⟨t, hlabel', htlt, htmark, htno⟩ := exists_lastFilemark hbefore hlabel
          rw [spaceFmBackTwo_mark (by omega) hmark hno htlt htmark htno]
          dsimp only
          rw [if_neg (lt_irrefl 0)]
          refine ih t htmark hlabel' (by omega) (by omega) fun other hother hgt => ?_
          rcases Nat.lt_trichotomy other (pos + 1) with hbefore | heq | hafter
          · -- no file mark lies between the two
            have hmark' := hother.mark
            exact absurd hmark' (htno (other - 1) (by omega) (by omega))
          · rw [heq]
            exact hskip
          · exact hlater other hother hafter
        · rw [if_neg hseek]
          refine ⟨_, rfl, fun found h => ?_, fun h => ?_⟩
          · cases h
          · cases h
      | accepted fmAfter after hle hvalid hstopped hiff =>
        dsimp only
        rw [if_neg (by rw [hvalid.selfptr]; simp)]
        refine ⟨_, rfl, fun found h => ⟨pos + 1, ?_⟩, fun h => by cases h⟩
        cases h
        constructor
        · exact hregion
        · exact hvalid
        · exact hlater
        · rfl
        · exact hiff
        · exact hle
        · exact hstopped
        · simp

/-- What is found is right if the end is found. -/
theorem FoundAt.right_iff {found : SoughtIndex T} {start : ℕ}
    (h : FoundAt R p records found start) :
    RightIndex R p records records.length found ↔
      ∀ last, LastIndex R p records last → EndFound R records last := by
  constructor
  · rintro ⟨start', hlast', hindex, -, hend, -⟩ last hlast
    -- the self pointer tells that it is the same index
    have hself := hlast'.valid.selfptr
    rw [← hindex, h.index, h.valid.selfptr] at hself
    have heq : start = start' := congrArg TapeOffset.block hself
    have hsame : last = start' := by
      rcases Nat.lt_trichotomy last start' with hlt | heq' | hgt
      · exact absurd hlast'.valid (hlast.last start' hlast'.region hlt)
      · exact heq'
      · exact absurd hlast.valid (hlast'.last last hlast.region hgt)
    rw [hsame, ← heq]
    rw [← heq] at hend
    exact h.indexEnd.mp hend
  · intro hfound
    -- no later region is valid: it would be the last one, and skipped
    have hnone : ∀ other, Region records other → start < other → ¬ ValidIndex R p other := by
      intro other hother hgt hvalid
      obtain ⟨hrecovered, hno⟩ := h.later other hother hgt hvalid
      have hlast : LastIndex R p records other := by
        refine ⟨hother, hvalid, fun later hlater hlt _ => ?_⟩
        have hmark := hlater.mark
        have hbound := hlater.lt
        exact hno (later - 1) (by omega) (by omega) hmark
      exact not_closed _ other _ rfl hno ((hfound other hlast).1 hrecovered)
    have hlast : LastIndex R p records start := ⟨h.region, h.valid, hnone⟩
    have hend := h.indexEnd.mpr (hfound start hlast)
    refine ⟨start, hlast, h.index, rfl, hend, ?_⟩
    rw [h.blocksAfter, ← hend]
    have hle := h.le
    omega

/-- What the loop reports is reported, with the end of data. -/
theorem seekIndexLoop_report (hne : .block [] ∉ records) (hlabel : records[3]? = some .filemark)
    (pos : ℕ) (hmark : records[pos]? = some .filemark) (hge : 3 ≤ pos)
    (hlt : pos + 1 < records.length)
    (hlast : ∀ i, pos < i → i + 1 < records.length → records[i]? ≠ some .filemark) :
    ∃ r, (seekIndexLoop R p records.length records.length ⟨records, pos, []⟩).map
        (fun r => r.map fun found => (records.length, found)) = some r ∧
      ∀ eod found, r = .ok (eod, found) → eod = records.length ∧
        (∀ s ∈ found, ∃ start, FoundAt R p records s start) ∧
        (found = none → NoneFound R p records) := by
  obtain ⟨r, hloop, hfound, hnone⟩ := @seekIndexLoop_spec T R p records hne hlabel records.length pos
    hmark hge hlt (by omega) fun other hother hgt => by
      -- behind the last file mark there is no other region
      have hbound := hother.lt
      exact absurd hother.mark (hlast (other - 1) (by omega) (by omega))
  rw [hloop]
  refine ⟨_, rfl, fun eod found h => ?_⟩
  cases r with
  | error ret => cases h
  | ok sought =>
    cases h
    refine ⟨rfl, fun s hs => hfound s ?_, fun h => hnone ?_⟩
    · rw [Option.mem_def.mp hs]
    · rw [h]

/-- `ltfs_seek_index` ends on every partition with a label, whatever parses as an index there. It
reports the end of data, and the index it stops at if there is one. -/
theorem ltfsSeekIndex_found (hne : .block [] ∉ records) (hlabel : records[3]? = some .filemark)
    (pos : ℕ) :
    ∃ r, ltfsSeekIndex R p ⟨records, pos, []⟩ = some r ∧
      ∀ eod found, r = .ok (eod, found) → eod = records.length ∧
        (∀ s ∈ found, ∃ start, FoundAt R p records s start) ∧
        (found = none → NoneFound R p records) := by
  have hseek : seekEod ⟨records, pos, []⟩ = (0, ⟨records, records.length, []⟩) := rfl
  have hbefore : 3 < records.length := (List.getElem?_eq_some_iff.mp hlabel).1
  -- where the search finds nothing but the label
  have hnothing : NoneFound R p records → ∃ r : Except ℤ (ℕ × Option (SoughtIndex T)),
      some (.ok (records.length, none)) = some r ∧ ∀ eod found, r = .ok (eod, found) →
        eod = records.length ∧ (∀ s ∈ found, ∃ start, FoundAt R p records s start) ∧
        (found = none → NoneFound R p records) := by
    intro hnone
    refine ⟨_, rfl, fun eod found h => ?_⟩
    cases h
    exact ⟨rfl, fun s hs => (by cases hs), fun _ => hnone⟩
  unfold ltfsSeekIndex
  rw [hseek]
  dsimp only
  rw [if_neg (lt_irrefl 0)]
  by_cases hempty : records.length ≤ 4
  · rw [if_pos hempty]
    refine hnothing fun start hstart => ?_
    have hcontent := hstart.content
    have hlt := hstart.lt
    omega
  · rw [if_neg hempty]
    obtain ⟨t, hge, hlt, hmark, hno⟩ := exists_lastFilemark hbefore hlabel
    rw [spaceFmBack_mark hlt hmark hno]
    dsimp only
    rw [if_neg (lt_irrefl 0)]
    by_cases hfirst : t = 3
    · rw [if_pos hfirst]
      refine hnothing fun start hstart => ?_
      have hcontent := hstart.content
      have hbound := hstart.lt
      exact absurd hstart.mark (hno (start - 1) (by omega) (by omega))
    · rw [if_neg hfirst]
      by_cases hclosing : t = records.length - 1
      · -- the partition ends in a file mark: the last region is the one before it
        rw [if_pos hclosing]
        have hbefore' : 3 < t := by omega
        obtain ⟨t', hge', hlt', hmark', hno'⟩ := exists_lastFilemark hbefore' hlabel
        rw [spaceFmBack_mark hlt' hmark' hno']
        dsimp only
        rw [if_neg (lt_irrefl 0)]
        exact seekIndexLoop_report hne hlabel t' hmark' hge' (by omega)
          fun i h1 h2 => hno' i (by omega) (by omega)
      · rw [if_neg hclosing]
        exact seekIndexLoop_report hne hlabel t hmark hge (by omega) fun i h1 h2 => hno i h1 (by omega)

end Search

/-- A partition with the label construct at its beginning, and any records and file marks behind
it. A record of length zero does not exist. -/
structure Layout where
  volumeLabel : List UInt8
  ltfsLabel : List UInt8
  content : List Record
  nonempty : .block [] ∉
    .block volumeLabel :: .filemark :: .block ltfsLabel :: .filemark :: content

/-- The records of the partition. -/
def Layout.records (l : Layout) : List Record :=
  .block l.volumeLabel :: .filemark :: .block l.ltfsLabel :: .filemark :: l.content

section Claim

variable {T : Type} (R : IndexReader T) (p : Partition) (l : Layout)

/-- `ltfs_seek_index` ends on every partition, whatever parses as an index there. If it finds an
index, then that is the last valid one, and its end, the end of data and the flag for what follows
are exact, if and only if the end of that index is found. -/
theorem seek_index_last_iff (pos : ℕ) :
    ∃ r, ltfsSeekIndex R p ⟨l.records, pos, []⟩ = some r ∧
      ∀ eod found, r = .ok (eod, some found) →
        (RightIndex R p l.records eod found ↔
          ∀ last, LastIndex R p l.records last → EndFound R l.records last) := by
  obtain ⟨r, hseek, hfound⟩ := ltfsSeekIndex_found (R := R) (p := p) l.nonempty
    (rfl : l.records[3]? = some .filemark) pos
  refine ⟨r, hseek, fun eod found h => ?_⟩
  obtain ⟨heod, hat, -⟩ := hfound eod (some found) h
  obtain ⟨start, hat⟩ := hat found rfl
  rw [heod]
  exact hat.right_iff

end Claim

/-- Only at block 5 there is an index, of one byte. -/
def oneIndex : IndexReader Unit where
  blocksize := 4
  volUuid := []
  parse start :=
    { failure := if start = 5 then none else some ⟨-ltfsIndexInvalid, by decide⟩
      requests := [4]
      documentLength := 1
      symerrCount := 0
      splitSymlink := none
      volUuid := []
      index := { generation := 1, selfptr := ⟨some .dp, 5⟩, backptr := ⟨none, 0⟩, root := () } }
  recoverSymlink := false
  ignoreWrongVersion := false

/-- The index, and the record behind it. -/
def oneIndexLayout (behind : Record) (hne : behind ≠ .block []) : Layout where
  volumeLabel := [1]
  ltfsLabel := [2]
  content := [.filemark, .block [3], behind]
  nonempty := by simpa using hne.symm

theorem oneIndex_last (behind : Record) (hne : behind ≠ .block []) :
    LastIndex oneIndex .dp (oneIndexLayout behind hne).records 5 := by
  refine ⟨⟨le_refl _, by show 5 < 7; omega, rfl⟩, ⟨⟨false, rfl⟩, by decide⟩, fun later hlater hgt hvalid => ?_⟩
  have hself := hvalid.selfptr
  have heq : 5 = later := congrArg TapeOffset.block hself
  omega

/-- Closed by a file mark it is found with its end. -/
theorem closed_index_right :
    RightIndex oneIndex .dp (oneIndexLayout .filemark (by decide)).records 7
      { index := (oneIndex.parse 5).index, indexEndPos := 7, fmAfter := true, blocksAfter := false,
        cohCount := 1, cohSetId := 5 } := by
  obtain ⟨r, hseek, hright⟩ :=
    seek_index_last_iff oneIndex .dp (oneIndexLayout .filemark (by decide)) 0
  have hfound : r = .ok (7, some _) := (Option.some.inj hseek).symm
  refine (hright 7 _ hfound).mpr fun last hlast => ?_
  have heq : last = 5 := (congrArg TapeOffset.block hlast.valid.selfptr).symm
  rw [heq]
  have hplain : ¬ Recovered oneIndex 5 := by
    simp [Recovered, parseResult, recoverConflicts, oneIndex]
  refine ⟨fun h => absurd h hplain, fun _ => ⟨by decide, ?_⟩⟩
  rw [if_pos (by decide)]
  simp

/-- With a record behind it, its end is reported behind that record: nothing seems to follow. -/
theorem open_index_wrong_end :
    LastIndex oneIndex .dp (oneIndexLayout (.block [4]) (by decide)).records 5 ∧
      endOf oneIndex (oneIndexLayout (.block [4]) (by decide)).records 5 = 6 ∧
      ∃ found, ltfsSeekIndex oneIndex .dp
          ⟨(oneIndexLayout (.block [4]) (by decide)).records, 0, []⟩ = some (.ok (7, some found)) ∧
        found.indexEndPos = 7 ∧ found.blocksAfter = false ∧
        ¬ RightIndex oneIndex .dp (oneIndexLayout (.block [4]) (by decide)).records 7 found := by
  refine ⟨oneIndex_last _ _, by decide, ⟨(oneIndex.parse 5).index, 7, false, false, 1, 5⟩, rfl, rfl, rfl, ?_⟩
  rintro ⟨start, hlast, -, -, hend, -⟩
  have heq : start = 5 := (congrArg TapeOffset.block hlast.valid.selfptr).symm
  rw [heq] at hend
  revert hend
  decide

end Ltfs.XmlTape

import Ltfs.CheckMedium
import Ltfs.Mounted
import Ltfs.SeekIndexSpec
import Mathlib.Data.List.TakeWhile

/-!
# What the check of the medium leaves behind

* `Present`, `EndsIn` — the records from a block on parse as an index that names this block, and
  the partition ends in it.
* `lookFor_spec`, `closeIndex_spec`, `placeAppend_spec`, `recover_spec` — one lemma for each stage.
-/

namespace Ltfs.CheckMedium

open XmlTape (SoughtIndex)

section Region

variable {T : Type} {m m' : List (Record T)}

/-! ## Regions -/

theorem fmAt_eq_true {i : ℕ} : fmAt m i = true ↔ m[i]? = some .fm := by
  unfold fmAt
  cases m[i]? with
  | none => simp
  | some r =>
    cases r with
    | fm => simp [Record.isFm]
    | data bytes => simp [Record.isFm]
    | idx index k n => simp [Record.isFm]

theorem fmAt_congr {i e : ℕ} (htake : m'.take e = m.take e) (hi : i < e) : fmAt m' i = fmAt m i := by
  have hget : m'[i]? = m[i]? := by
    rw [← List.getElem?_take_of_lt hi, htake, List.getElem?_take_of_lt hi]
  unfold fmAt
  rw [hget]

/-- A region that a file mark ends does not depend on what comes behind it. -/
theorem region_congr {start c : ℕ} (htake : m'.take (c + 1) = m.take (c + 1)) (hc : start ≤ c)
    (hmark : fmAt m c = true) : region m' start = region m start := by
  have hcut : ∀ l : List (Record T), l.take (c + 1) = m.take (c + 1) →
      region l start = ((m.take (c + 1)).drop start).takeWhile fun r => ! r.isFm := by
    intro l hl
    have hsplit : l.drop start = (m.take (c + 1)).drop start ++ l.drop (c + 1) := by
      rw [← hl, List.drop_take]
      have hdrop : l.drop (c + 1) = (l.drop start).drop (c + 1 - start) := by
        rw [List.drop_drop, Nat.add_sub_cancel' (by omega)]
      rw [hdrop, List.take_append_drop]
    unfold region
    rw [hsplit, List.takeWhile_append, if_neg]
    intro hall
    -- the file mark is among the records before the cut
    have hfm : Record.fm ∈ (m.take (c + 1)).drop start := by
      apply List.mem_of_getElem? (i := c - start)
      rw [List.getElem?_drop, Nat.add_sub_cancel' hc, List.getElem?_take_of_lt (Nat.lt_succ_self c)]
      exact fmAt_eq_true.mp hmark
    have hself := (List.takeWhile_prefix (p := fun r : Record T => ! r.isFm)
      (l := (m.take (c + 1)).drop start)).eq_of_length hall
    rw [← hself] at hfm
    exact Bool.false_ne_true (List.mem_takeWhile_imp hfm)
  rw [hcut m' htake, hcut m rfl]

/-- A file mark at the end of data ends the last region. -/
theorem region_append_fm {start : ℕ} (hle : start ≤ m.length) (rest : List (Record T)) :
    region (m ++ .fm :: rest) start = region m start := by
  unfold region
  rw [List.drop_append_of_le_length hle, List.takeWhile_append]
  split
  · rename_i hall
    have hself := (List.takeWhile_prefix (p := fun r : Record T => ! r.isFm)
      (l := m.drop start)).eq_of_length hall
    rw [hself]
    simp [Record.isFm]
  · rfl

theorem indexImage_eq (n : ℕ) (doc : Index T) :
    indexImage n doc = .fm :: (document doc n ++ [.fm]) := rfl

theorem region_indexImage {b n : ℕ} (doc : Index T) (hb : b ≤ m.length) :
    region (m.take b ++ indexImage n doc) (b + 1) = document doc n := by
  have hlen : (m.take b ++ [Record.fm]).length = b + 1 := by
    rw [List.length_append, List.length_take, List.length_singleton]
    omega
  have hsplit : m.take b ++ indexImage n doc = (m.take b ++ [Record.fm]) ++ (document doc n ++ [Record.fm]) := by
    rw [indexImage_eq, List.append_assoc]
    rfl
  have hdoc : ∀ r ∈ document doc n, (! r.isFm) = true := by
    intro r hr
    obtain ⟨k, -, rfl⟩ := List.mem_map.mp hr
    rfl
  unfold region
  rw [hsplit, List.drop_left' hlen, List.takeWhile_append_of_pos hdoc]
  simp [Record.isFm]

end Region

section Present

variable {T : Type} (M : MediumReader T) (p : Partition) (m : List (Record T)) (start : ℕ)

/-! ## Indexes on a partition -/

/-- The records from `start` on parse as an index of this volume, whose self pointer names this
place. -/
structure Present : Prop where
  le : start ≤ m.length
  parsed : ∃ recoverSymlink endFm,
    XmlTape.parseResult (M.reader recoverSymlink m) start false = .ok endFm
  volUuid : (M.parse (region m start)).volUuid.take 36 = M.volUuid.take 36
  selfptr : (M.parse (region m start)).index.selfptr = ⟨some p, start⟩

/-- It is there, between two file marks, the second of which is the last record. -/
structure EndsIn : Prop extends Present M p m start where
  pos : 0 < start
  ends : EndsInIndexAt m (start - 1)

variable {M p m start}

theorem parseResult_congr {m' : List (Record T)} (hregion : region m' start = region m start)
    (recoverSymlink saw : Bool) :
    XmlTape.parseResult (M.reader recoverSymlink m') start saw
      = XmlTape.parseResult (M.reader recoverSymlink m) start saw := by
  have hparse : (M.reader recoverSymlink m').parse start = (M.reader recoverSymlink m).parse start :=
    congrArg M.parse hregion
  unfold XmlTape.parseResult XmlTape.recoverConflicts
  rw [hparse]
  rfl

/-- What `ltfs_read_index` accepts is there. -/
theorem Present.of_valid {recoverSymlink : Bool} (hle : start ≤ m.length)
    (h : XmlTape.ValidIndex (M.reader recoverSymlink m) p start) : Present M p m start := by
  obtain ⟨endFm, hparsed⟩ := h.1
  have hcheck := h.2
  unfold XmlTape.checkIndex at hcheck
  simp only [Bool.and_eq_true, decide_eq_true_eq] at hcheck
  exact ⟨hle, ⟨recoverSymlink, endFm, hparsed⟩, hcheck.1.1.1.1, h.selfptr⟩

/-- Only the records of the region matter. -/
theorem Present.of_region {m' : List (Record T)} (h : Present M p m start)
    (hregion : region m' start = region m start) (hle : start ≤ m'.length) :
    Present M p m' start := by
  obtain ⟨recoverSymlink, endFm, hparsed⟩ := h.parsed
  refine ⟨hle, ⟨recoverSymlink, endFm, ?_⟩, ?_, ?_⟩
  · rw [parseResult_congr hregion]
    exact hparsed
  · rw [hregion]
    exact h.volUuid
  · rw [hregion]
    exact h.selfptr

/-- An index that a file mark closes stays, as long as nothing changes up to there. -/
theorem Present.congr {m' : List (Record T)} {c : ℕ} (h : Present M p m start)
    (htake : m'.take (c + 1) = m.take (c + 1)) (hc : start ≤ c) (hmark : fmAt m c = true) :
    Present M p m' start := by
  have hc' : fmAt m' c = true := by
    rw [fmAt_congr htake (Nat.lt_succ_self c)]
    exact hmark
  exact h.of_region (region_congr htake hc hmark) (lt_of_le_of_lt hc (fmAt_lt hc')).le

theorem fmAt_append {m' : List (Record T)} {i : ℕ} (hi : i < m.length) :
    fmAt (m ++ m') i = fmAt m i := by
  unfold fmAt
  rw [List.getElem?_append_left hi]

/-- Closing the last index of a partition. -/
theorem Present.close (h : Present M p m start) (hpos : 0 < start)
    (hmark : fmAt m (start - 1) = true) (hlt : start < m.length)
    (hopen : ∀ i, start ≤ i → fmAt m i = false) : EndsIn M p (m ++ [.fm]) start := by
  have hlen : (m ++ [Record.fm]).length = m.length + 1 := by
    rw [List.length_append, List.length_singleton]
  refine ⟨h.of_region (region_append_fm hlt.le []) (by omega), hpos, ?_⟩
  constructor
  · omega
  · rw [fmAt_append (by omega)]
    exact hmark
  · unfold fmAt
    simp [Record.isFm]
  · intro i hi hlast
    rw [fmAt_append (by omega)]
    exact hopen i (by omega)

/-- An index that has just been written. -/
theorem endsIn_indexImage {b n : ℕ} {doc : Index T} (hb : b ≤ m.length) (hn : 0 < n)
    (hself : doc.selfptr = ⟨some p, b + 1⟩) :
    EndsIn M p (m.take b ++ indexImage n doc) (b + 1) := by
  have hends := endsInIndexAt_append (n := n) m doc hb
  obtain ⟨hfailure, huuid, hindex⟩ := M.parse_document doc n hn
  have hregion := region_indexImage (n := n) doc hb
  refine ⟨⟨hends.lt.le, ⟨false, false, ?_⟩, ?_, ?_⟩, Nat.succ_pos b, hends⟩
  · have hparse : (M.reader false (m.take b ++ indexImage n doc)).parse (b + 1)
        = M.parse (document doc n) := congrArg M.parse hregion
    unfold XmlTape.parseResult XmlTape.recoverConflicts
    rw [hparse, hfailure, if_neg (by simp [MediumReader.reader])]
  · rw [hregion, huuid]
  · rw [hregion, hindex, hself]

end Present


section Search

variable {T : Type} (M : MediumReader T) (p : Partition) (m : List (Record T))

/-! ## Looking for the indexes -/

/-- What is known of an index that the search has found. -/
structure Sought (s : SoughtIndex T) : Prop where
  content : 5 ≤ s.index.selfptr.block
  partition : s.index.selfptr.partition = some p
  present : Present M p m s.index.selfptr.block
  mark : fmAt m (s.index.selfptr.block - 1) = true
  lt : s.index.selfptr.block < m.length
  end_ge : s.index.selfptr.block ≤ s.indexEndPos
  end_le : s.indexEndPos ≤ m.length
  closed : s.blocksAfter = false → s.fmAfter = true →
    EndsInIndexAt m (s.index.selfptr.block - 1)
  unclosed : s.blocksAfter = false → s.fmAfter = false →
    ∀ i, s.index.selfptr.block ≤ i → fmAt m i = false

variable {M p m}

theorem image_getElem? {i : ℕ} : (m.map M.image)[i]? = some .filemark ↔ fmAt m i = true := by
  rw [fmAt_eq_true, List.getElem?_map]
  cases m[i]? with
  | none => simp
  | some r => simp [M.image_filemark r]

theorem fmAt_false {i : ℕ} (h : (m.map M.image)[i]? ≠ some .filemark) : fmAt m i = false :=
  Bool.eq_false_iff.mpr fun hmark => h (image_getElem?.mpr hmark)

theorem Sought.of_found {recoverSymlink : Bool} {s : SoughtIndex T} {start : ℕ}
    (h : XmlTape.FoundAt (M.reader recoverSymlink m) p (m.map M.image) s start) :
    Sought M p m s := by
  have hself : s.index.selfptr = ⟨some p, start⟩ := by
    rw [h.index]
    exact h.valid.selfptr
  have hblock : s.index.selfptr.block = start := congrArg TapeOffset.block hself
  have hcontent := h.region.content
  have hlt : start < m.length := by
    have := h.region.lt
    rwa [List.length_map] at this
  have hmark := image_getElem?.mp h.region.mark
  have hle := h.le
  rw [List.length_map] at hle
  have hstopped := h.stopped
  have hend : s.blocksAfter = false → s.indexEndPos = m.length := by
    intro hblocks
    by_contra hne
    have := h.blocksAfter.mpr (by rwa [List.length_map])
    rw [hblocks] at this
    cases this
  unfold XmlTape.Stopped at hstopped
  constructor
  · omega
  · rw [hself]
  · rw [hblock]
    exact .of_valid hlt.le h.valid
  · rw [hblock]
    exact hmark
  · rw [hblock]
    exact hlt
  · rw [hblock]
    by_cases hfm : s.fmAfter = true
    · rw [if_pos hfm] at hstopped
      obtain ⟨t, heq, hge, -, -⟩ := hstopped
      omega
    · rw [if_neg hfm] at hstopped
      exact hstopped.1
  · exact hle
  · intro hblocks hfm
    rw [if_pos hfm] at hstopped
    obtain ⟨t, heq, hge, htmark, hno⟩ := hstopped
    have hlast : t = m.length - 1 := by
      have := hend hblocks
      omega
    rw [hblock]
    constructor
    · omega
    · exact hmark
    · rw [← hlast]
      exact image_getElem?.mp htmark
    · exact fun i hi hlast => fmAt_false (hno i (by omega) (by omega))
  · intro hblocks hfm i hi
    rw [if_neg (by rw [hfm]; exact Bool.false_ne_true), hend hblocks] at hstopped
    by_cases hlt' : i < m.length
    · exact fmAt_false (hstopped.2 i (by omega) hlt')
    · exact Bool.eq_false_iff.mpr fun hmark => absurd (fmAt_lt hmark) hlt'

/-- Nothing has been written. -/
structure Kept (v v' : Volume T) : Prop where
  medium : v'.dev.medium = v.dev.medium
  isWorm : v'.dev.isWorm = v.dev.isWorm
  answers : v'.dev.answers = v.dev.answers
  endsInIndex : v'.endsInIndex = v.endsInIndex
  posOk : v.dev.PosOk → v'.dev.PosOk

theorem Kept.refl (v : Volume T) : Kept v v := ⟨rfl, rfl, rfl, rfl, id⟩

theorem Kept.trans {v₁ v₂ v₃ : Volume T} (h : Kept v₁ v₂) (h' : Kept v₂ v₃) : Kept v₁ v₃ :=
  ⟨h'.medium.trans h.medium, h'.isWorm.trans h.isWorm, h'.answers.trans h.answers,
    h'.endsInIndex.trans h.endsInIndex, fun hok => h'.posOk (h.posOk hok)⟩

theorem Kept.eod {v v' : Volume T} (h : Kept v v') (q : Partition) :
    v'.dev.eod q = v.dev.eod q := by
  unfold Device.eod
  rw [h.medium]

theorem noteSpace_same (dev : Device T) (q : Partition) (early programmable : Bool) :
    SameTape dev (dev.noteSpace q early programmable) := by
  unfold Device.noteSpace
  split
  · exact ⟨rfl, rfl, rfl, rfl, rfl, le_refl _, rfl, rfl⟩
  · split
    · exact ⟨rfl, rfl, rfl, rfl, rfl, le_refl _, rfl, rfl⟩
    · exact SameTape.refl _

/-- A search leaves the end of data as the append position, and stops at the last valid index. -/
theorem lookFor_result {recoverSymlink : Bool} {v v' : Volume T} {f : Finding T}
    (hlabel : fmAt (v.dev.medium p) 3 = true) (h : lookFor M recoverSymlink p v = (.ok f, v')) :
    Kept v v' ∧ v'.dev.appendPos = Function.update v.dev.appendPos p (v.dev.eod p) ∧
      f.eod = v.dev.eod p ∧
      (∀ s ∈ f.found, ∃ start, XmlTape.FoundAt (M.reader recoverSymlink (v.dev.medium p)) p
        ((v.dev.medium p).map M.image) s start) ∧
      (f.found = none → XmlTape.NoneFound (M.reader recoverSymlink (v.dev.medium p)) p
        ((v.dev.medium p).map M.image)) := by
  have hne : .block [] ∉ (v.dev.medium p).map M.image := by
    intro hmem
    obtain ⟨r, -, hr⟩ := List.mem_map.mp hmem
    exact M.image_nonempty r hr
  obtain ⟨r, hseek, hfound⟩ := XmlTape.ltfsSeekIndex_found
    (R := M.reader recoverSymlink (v.dev.medium p)) (p := p) hne (image_getElem?.mpr hlabel) 0
  unfold lookFor at h
  cases hans : v.dev.answer with
  | error code junk =>
    rw [hans] at h
    cases h
  | ok early programmable =>
    rw [hans] at h
    dsimp only at h
    rw [hseek] at h
    have hsame := (tick_same v.dev).trans (noteSpace_same v.dev.tick p early programmable)
    cases r with
    | error ret => cases h
    | ok report =>
      obtain ⟨eod, found⟩ := report
      obtain ⟨heod, hsought, hnone⟩ := hfound eod found rfl
      rw [List.length_map] at heod
      have happend : ∀ pos, ({ (v.dev.tick.noteSpace p early programmable).setAppendPos p
          (v.dev.eod p) with position := pos } : Device T).appendPos
          = Function.update v.dev.appendPos p (v.dev.eod p) := by
        intro pos
        show Function.update _ p _ = _
        rw [hsame.appendPos]
      cases found with
      | none =>
        cases h
        exact ⟨⟨hsame.medium, hsame.isWorm, hsame.answers, rfl, fun hok => hsame.posOk hok⟩,
          happend _, heod, hsought, hnone⟩
      | some s =>
        cases h
        refine ⟨⟨hsame.medium, hsame.isWorm, hsame.answers, rfl, fun hok => ?_⟩, happend _, heod,
          hsought, hnone⟩
        obtain ⟨start, hat⟩ := hsought s rfl
        have heq := hsame.eod p
        exact (Sought.of_found hat).end_le.trans heq.ge

theorem lookFor_spec {recoverSymlink : Bool} {v v' : Volume T} {f : Finding T}
    (hlabel : fmAt (v.dev.medium p) 3 = true) (h : lookFor M recoverSymlink p v = (.ok f, v')) :
    Kept v v' ∧ v'.dev.appendPos = Function.update v.dev.appendPos p (v.dev.eod p) ∧
      f.eod = v.dev.eod p ∧ ∀ s ∈ f.found, Sought M p (v.dev.medium p) s := by
  obtain ⟨hkept, happend, heod, hfound, -⟩ := lookFor_result hlabel h
  refine ⟨hkept, happend, heod, fun s hs => ?_⟩
  obtain ⟨start, hat⟩ := hfound s hs
  exact .of_found hat

end Search


section Close

variable {T : Type} (M : MediumReader T) (p : Partition)

/-! ## Closing the last index -/

/-- What is known of a partition once a missing file mark is filled in. -/
structure Ready (f : Finding T) (v : Volume T) : Prop where
  eod_le : f.eod ≤ v.dev.eod p
  content : ∀ s ∈ f.found, 5 ≤ s.index.selfptr.block ∧ s.index.selfptr.partition = some p ∧
    s.index.selfptr.block ≤ s.indexEndPos ∧ s.indexEndPos ≤ v.dev.eod p
  ends : ∀ s ∈ f.found, s.blocksAfter = false →
    EndsIn M p (v.dev.medium p) s.index.selfptr.block

/-- A step that only writes to `p`, if at all. -/
structure Aside (v v' : Volume T) : Prop where
  medium : ∀ q, q ≠ p → v'.dev.medium q = v.dev.medium q
  appendPos : ∀ q, q ≠ p → v'.dev.appendPos q = v.dev.appendPos q
  isWorm : v'.dev.isWorm = v.dev.isWorm
  answers : v'.dev.answers = v.dev.answers
  endsInIndex : v'.endsInIndex = v.endsInIndex
  posOk : v.dev.PosOk → v'.dev.PosOk

variable {M p}

/-- What is known of one partition stays known when only the other one is written to. -/
theorem Ready.of_medium {f : Finding T} {v v' : Volume T} (h : Ready M p f v)
    (hm : v'.dev.medium p = v.dev.medium p) : Ready M p f v' := by
  have heod : v'.dev.eod p = v.dev.eod p := by
    unfold Device.eod
    rw [hm]
  constructor
  · rw [heod]
    exact h.eod_le
  · rw [heod]
    exact h.content
  · rw [hm]
    exact h.ends

theorem tapeSeekEod_writing {dev : Device T} (h : ¬ (tapeSeekEod p dev).1 < 0) :
    Writing p (dev.eod p) (dev.medium p) [] (tapeSeekEod p dev).2 ∧
      Frame p dev (tapeSeekEod p dev).2 := by
  obtain ⟨hm, -, hf, hle, -, hok⟩ := locate_spec p none dev
  unfold tapeSeekEod at h ⊢
  dsimp only at h ⊢
  by_cases hneg : (locate p none dev).1 < 0
  · rw [if_pos hneg] at h
    exact absurd (locateCode_neg hneg) h
  · rw [if_neg hneg]
    obtain ⟨hpos, -⟩ := hok (le_antisymm hle (not_lt.mp hneg))
    have hblock : (locate p none dev).2.position.block = dev.eod p := by
      rw [hpos]
      rfl
    constructor
    · refine ⟨hpos, congrFun hm p, ?_, le_refl _⟩
      rw [setAppendPos_self, hblock]
      rfl
    · exact ⟨hf.medium, fun q hq => (setAppendPos_ne _ _ hq).trans (hf.appendPos q hq), hf.isWorm,
        hf.answers, hf.clock, hf.coherency, hf.volumeChangeRef, hf.writeProtected, hf.maxBlockSize⟩

theorem closeIndex_spec {f f' : Finding T} {v v' : Volume T}
    (hsought : ∀ s ∈ f.found, Sought M p (v.dev.medium p) s) (heod : f.eod = v.dev.eod p)
    (happend : v.dev.appendPos p = v.dev.eod p) (h : closeIndex p f v = (.ok f', v')) :
    Ready M p f' v' ∧ f'.eod = v'.dev.eod p ∧ v'.dev.appendPos p = v'.dev.eod p ∧
      Aside p v v' := by
  have hsame : Aside p v v := ⟨fun _ _ => rfl, fun _ _ => rfl, rfl, rfl, rfl, id⟩
  unfold closeIndex at h
  cases hfound : f.found with
  | none =>
    rw [hfound] at h
    cases h
    refine ⟨⟨heod.le, ?_, ?_⟩, heod, happend, hsame⟩
    · intro s hs
      rw [hfound] at hs
      cases hs
    · intro s hs
      rw [hfound] at hs
      cases hs
  | some s =>
    have hs := hsought s hfound
    rw [hfound] at h
    dsimp only at h
    by_cases hneeded : (! s.blocksAfter && ! s.fmAfter) = true
    · rw [if_pos hneeded] at h
      simp only [Bool.and_eq_true, Bool.not_eq_true'] at hneeded
      by_cases hseek : (tapeSeekEod p v.dev).1 < 0
      · rw [if_pos hseek] at h
        cases h
      · rw [if_neg hseek] at h
        obtain ⟨hwriting, hframe⟩ := tapeSeekEod_writing hseek
        have hwrote := hwriting.put_wrote [.fm] 0 true true
        by_cases hneg : (tapeWriteFilemark 1 true true (tapeSeekEod p v.dev).2).1 < 0
        · rw [if_pos hneg] at h
          cases h
        · rw [if_neg hneg] at h
          have hall := hwrote.all (le_antisymm hwrote.ret_le (not_lt.mp hneg))
          have hmedium : (tapeWriteFilemark 1 true true (tapeSeekEod p v.dev).2).2.medium p
              = v.dev.medium p ++ [.fm] := by
            refine hall.medium.trans ?_
            rw [if_neg (by simp)]
            unfold Device.eod
            rw [List.take_length]
            rfl
          have hlen : (tapeWriteFilemark 1 true true (tapeSeekEod p v.dev).2).2.eod p
              = v.dev.eod p + 1 := by
            unfold Device.eod
            rw [hmedium, List.length_append, List.length_singleton]
          cases h
          refine ⟨⟨?_, ?_, ?_⟩, by rw [hlen, heod], ?_, ?_⟩
          · rw [hlen, heod]
          · intro s' hs'
            cases hs'
            refine ⟨hs.content, hs.partition, hs.end_ge, hs.end_le.trans ?_⟩
            rw [hlen]
            exact Nat.le_succ _
          · -- the file mark closes the index
            intro s' hs' _
            cases hs'
            rw [hmedium]
            have hcontent := hs.content
            exact hs.present.close (by omega) hs.mark hs.lt (hs.unclosed hneeded.1 hneeded.2)
          · rw [hlen]
            exact hall.appendPos
          · have hframe' := hframe.trans hwrote.frame
            exact ⟨hframe'.medium, hframe'.appendPos, hframe'.isWorm, hframe'.answers, rfl,
              fun _ => hwrote.partly.posOk⟩
    · rw [if_neg hneeded] at h
      cases h
      refine ⟨⟨heod.le, ?_, ?_⟩, heod, happend, hsame⟩
      · intro s' hs'
        rw [hfound] at hs'
        cases hs'
        exact ⟨hs.content, hs.partition, hs.end_ge, hs.end_le⟩
      · intro s' hs' hblocks
        rw [hfound] at hs'
        cases hs'
        have hcontent := hs.content
        refine ⟨hs.present, by omega, hs.closed hblocks ?_⟩
        rw [hblocks] at hneeded
        simpa using hneeded

end Close


section Travel

variable {T : Type}

/-! ## Moving the tape -/

/-- The tape has been moved, nothing else. -/
structure Travelled (dev dev' : Device T) : Prop where
  medium : dev'.medium = dev.medium
  appendPos : dev'.appendPos = dev.appendPos
  isWorm : dev'.isWorm = dev.isWorm
  answers : dev'.answers = dev.answers
  posOk : dev.PosOk → dev'.PosOk

theorem Travelled.refl (dev : Device T) : Travelled dev dev := ⟨rfl, rfl, rfl, rfl, id⟩

theorem Travelled.trans {dev₁ dev₂ dev₃ : Device T} (h : Travelled dev₁ dev₂)
    (h' : Travelled dev₂ dev₃) : Travelled dev₁ dev₃ :=
  ⟨h'.medium.trans h.medium, h'.appendPos.trans h.appendPos, h'.isWorm.trans h.isWorm,
    h'.answers.trans h.answers, fun hok => h'.posOk (h.posOk hok)⟩

theorem Travelled.eod {dev dev' : Device T} (h : Travelled dev dev') (q : Partition) :
    dev'.eod q = dev.eod q := by
  unfold Device.eod
  rw [h.medium]

theorem SameTape.travelled {dev dev' : Device T} (h : SameTape dev dev') : Travelled dev dev' :=
  ⟨h.medium, h.appendPos, h.isWorm, h.answers, h.posOk⟩

theorem tick_travelled (dev : Device T) : Travelled dev dev.tick :=
  SameTape.travelled (tick_same dev)

theorem Travelled.kept {v : Volume T} {dev : Device T} (h : Travelled v.dev dev) :
    Kept v { v with dev := dev } := ⟨h.medium, h.isWorm, h.answers, rfl, h.posOk⟩

theorem tapeSeek_travelled (p : Partition) (block : Option ℕ) (dev : Device T) :
    Travelled dev (tapeSeek p block dev).2 := by
  obtain ⟨hm, ha, hf, -, hok, -⟩ := locate_spec p block dev
  unfold tapeSeek
  split
  · exact .refl dev
  · exact ⟨hm, ha, hf.isWorm, hf.answers, hok⟩

theorem tapeSeek_le (p : Partition) (block : Option ℕ) (dev : Device T) :
    (tapeSeek p block dev).1 ≤ 0 := by
  obtain ⟨-, -, -, hle, -, -⟩ := locate_spec p block dev
  unfold tapeSeek
  split
  · exact le_refl 0
  · show locateCode _ ≤ 0
    unfold locateCode
    split
    · decide
    · exact hle

theorem tapeSeek_zero {p : Partition} {block : ℕ} {dev : Device T}
    (h : (tapeSeek p (some block) dev).1 = 0) :
    (tapeSeek p (some block) dev).2.position = ⟨p, block⟩ := by
  unfold tapeSeek at h ⊢
  split
  · rename_i hthere
    obtain ⟨hblock, hp⟩ := hthere
    cases hblock
    rw [hp]
  · rename_i hthere
    rw [if_neg hthere] at h
    obtain ⟨-, -, -, hle, -, hok⟩ := locate_spec p (some block) dev
    have hzero : (locate p (some block) dev).1 = 0 := by
      by_contra hne
      have hneg := locateCode_neg (lt_of_le_of_ne hle hne)
      have hcode : locateCode (locate p (some block) dev).1 = 0 := h
      omega
    exact (hok hzero).1

theorem fmFrom_lt {m : List (Record T)} : ∀ {n pos i : ℕ}, fmFrom m pos n = some i →
    i < m.length := by
  intro n
  induction n with
  | zero =>
    intro pos i h
    cases h
  | succ n ih =>
    intro pos i h
    unfold fmFrom at h
    by_cases hmark : fmAt m pos = true
    · rw [if_pos hmark] at h
      cases h
      exact fmAt_lt hmark
    · rw [if_neg hmark] at h
      exact ih h

/-- Over the next file mark, in the same partition. -/
theorem tapeSpacefm_one (dev : Device T) :
    Travelled dev (tapeSpacefm 1 dev).2 ∧
      (tapeSpacefm 1 dev).2.position.partition = dev.position.partition := by
  unfold tapeSpacefm
  cases dev.answer with
  | error code junk => exact ⟨tick_travelled dev, rfl⟩
  | ok early programmable =>
    dsimp only
    rw [if_pos (by decide)]
    cases hspace : spaceForward (dev.medium dev.position.partition) (1 : ℤ).toNat
        dev.position.block with
    | none => exact ⟨⟨rfl, rfl, rfl, rfl, fun _ => le_refl _⟩, rfl⟩
    | some block =>
      refine ⟨⟨rfl, rfl, rfl, rfl, fun _ => ?_⟩, rfl⟩
      have hbind : (fmFrom (dev.medium dev.position.partition) dev.position.block
          ((dev.medium dev.position.partition).length - dev.position.block)).bind
          (fun fm => some (fm + 1)) = some block := hspace
      obtain ⟨i, hi, heq⟩ := Option.bind_eq_some_iff.mp hbind
      cases heq
      exact fmFrom_lt hi

end Travel

section Stages

variable {T : Type} (M : MediumReader T)

/-! ## Append positions -/

theorem countFilemarks_spec {p : Partition} : ∀ (fuel n final : ℕ) (dev : Device T),
    dev.PosOk → dev.position.partition = p → final ≤ dev.eod p →
    Travelled dev (countFilemarks fuel n final dev).2 ∧
      (∀ ret, (countFilemarks fuel n final dev).1 = .error ret → ret < 0) ∧
      ∀ n' final', (countFilemarks fuel n final dev).1 = .ok (n', final') → final' ≤ dev.eod p := by
  intro fuel
  induction fuel with
  | zero =>
    intro n final dev _ _ hfinal
    refine ⟨.refl dev, fun ret h => (by cases h), fun n' final' h => ?_⟩
    cases h
    exact hfinal
  | succ fuel ih =>
    intro n final dev hpos hp hfinal
    obtain ⟨htravel, hpart⟩ := tapeSpacefm_one dev
    have heod := htravel.eod p
    unfold countFilemarks
    dsimp only
    by_cases hzero : (tapeSpacefm 1 dev).1 = 0
    · rw [if_pos hzero]
      have hpos' := htravel.posOk hpos
      have hblock : (tapeSpacefm 1 dev).2.position.block ≤ (tapeSpacefm 1 dev).2.eod p := by
        unfold Device.PosOk at hpos'
        rwa [hpart, hp] at hpos'
      obtain ⟨htravel', herr, hok⟩ := ih (n + 1) _ _ hpos' (hpart.trans hp) hblock
      refine ⟨htravel.trans htravel', herr, fun n' final' h => ?_⟩
      rw [← heod]
      exact hok n' final' h
    · rw [if_neg hzero]
      by_cases hend : (tapeSpacefm 1 dev).1 = -edevEodDetected
      · rw [if_pos hend]
        refine ⟨htravel, fun ret h => (by cases h), fun n' final' h => ?_⟩
        cases h
        exact hfinal
      · rw [if_neg hend]
        refine ⟨htravel, fun ret h => ?_, fun n' final' h => (by cases h)⟩
        cases h
        exact lt_of_le_of_ne (tapeSpacefm_spec 1 dev).2 hzero

/-- Block numbers that come through an `int` are never greater than they were. -/
theorem bmod_toNat_le {n : ℕ} (h : 0 ≤ Int.bmod ((n : ℤ) - 1) (2 ^ 32)) :
    (Int.bmod ((n : ℤ) - 1) (2 ^ 32)).toNat ≤ n := by
  rw [Int.bmod_def] at h ⊢
  split at h
  · rename_i hlt
    rw [if_pos hlt]
    omega
  · rename_i hlt
    rw [if_neg hlt]
    omega

theorem findAppendBlkAfterIdx_spec (fix : Bool) (p : Partition) (block : ℕ) {dev : Device T}
    (hpos : dev.PosOk) :
    Travelled dev (findAppendBlkAfterIdx fix p block dev).2 ∧
      (0 ≤ (findAppendBlkAfterIdx fix p block dev).1 →
        (findAppendBlkAfterIdx fix p block dev).1.toNat ≤ dev.eod p) := by
  have htravel := tapeSeek_travelled p (some block) dev
  unfold findAppendBlkAfterIdx
  dsimp only
  by_cases hseek : (tapeSeek p (some block) dev).1 = 0
  · rw [if_neg (not_not_intro hseek)]
    have hpart : (tapeSeek p (some block) dev).2.position.partition = p := by
      rw [tapeSeek_zero hseek]
    obtain ⟨htravel', herr, hfinal⟩ := countFilemarks_spec (dev.eod p + 1) 0 0 _ (htravel.posOk hpos)
      hpart (Nat.zero_le _)
    have heod := htravel.eod p
    generalize countFilemarks (dev.eod p + 1) 0 0 (tapeSeek p (some block) dev).2 = r
      at htravel' herr hfinal
    obtain ⟨ret | ⟨n, final⟩, dev'⟩ := r
    · exact ⟨htravel.trans htravel', fun h => absurd h (not_le.mpr (herr ret rfl))⟩
    · have hle := hfinal n final rfl
      rw [heod] at hle
      dsimp only
      split
      · exact ⟨htravel.trans htravel', fun _ => Nat.zero_le _⟩
      · split
        · exact ⟨htravel.trans htravel', fun h => (bmod_toNat_le h).trans hle⟩
        · exact ⟨htravel.trans htravel', fun h =>
            absurd (show (0 : ℤ) ≤ -ltfsOpToInv from h) (by decide)⟩
  · rw [if_pos hseek]
    exact ⟨htravel, fun h => absurd (le_antisymm (tapeSeek_le _ _ _) h) hseek⟩

end Stages


section Recover

variable {T : Type} (M : MediumReader T)

/-- What setting the append position of `p` behind trailing blocks does. -/
structure Placed (p : Partition) (f f' : Finding T) (v v' : Volume T) : Prop where
  kept : Kept v v'
  index : v'.index = v.index
  dirty : v'.dirty = v.dirty
  found : f'.found = f.found
  eod_le : f'.eod ≤ v.dev.eod p
  others : ∀ q, q ≠ p → v'.dev.appendPos q = v.dev.appendPos q
  append_le : v'.dev.appendPos p ≤ v.dev.eod p

variable {M}

theorem placeAppend_spec {fix : Bool} {p : Partition} {f f' : Finding T} {v v' : Volume T}
    (hready : Ready M p f v) (hpos : v.dev.PosOk) (hle : v.dev.appendPos p ≤ v.dev.eod p)
    (h : placeAppend fix p f v = (.ok f', v')) : Placed p f f' v v' := by
  have hsame : Placed p f f v v :=
    ⟨.refl v, rfl, rfl, rfl, hready.eod_le, fun _ _ => rfl, hle⟩
  unfold placeAppend at h
  cases hfound : f.found with
  | none =>
    rw [hfound] at h
    cases h
    exact hsame
  | some s =>
    obtain ⟨hcontent, -, hend_ge, hend_le⟩ := hready.content s hfound
    rw [hfound] at h
    dsimp only at h
    by_cases hblocks : s.blocksAfter = true
    · rw [if_pos hblocks] at h
      obtain ⟨htravel, hbound⟩ := findAppendBlkAfterIdx_spec fix p s.index.selfptr.block hpos
      by_cases hneg : (findAppendBlkAfterIdx fix p s.index.selfptr.block v.dev).1 < 0
      · rw [if_pos hneg] at h
        cases h
      · rw [if_neg hneg] at h
        have hbound := hbound (not_lt.mp hneg)
        cases h
        refine ⟨⟨htravel.medium, htravel.isWorm, htravel.answers, rfl, htravel.posOk⟩, rfl, rfl,
          hfound.symm, hbound,
          fun q hq => (setAppendPos_ne _ _ hq).trans (congrFun htravel.appendPos q), ?_⟩
        refine (setAppendPos_self _ _ _).trans_le ?_
        cases p with
        | dp => exact hbound
        | ip =>
          dsimp only
          omega
    · rw [if_neg hblocks] at h
      cases h
      exact hsame

/-! ## Extra blocks -/

theorem readLength_travelled (dev : Device T) : Travelled dev (readLength M dev).2 := by
  unfold readLength
  dsimp only
  cases dev.answer with
  | error code junk => exact tick_travelled dev
  | ok early programmable =>
    dsimp only
    cases hget : (dev.medium dev.position.partition)[dev.position.block]? with
    | none => exact tick_travelled dev
    | some rec =>
      have hlt := (List.getElem?_eq_some_iff.mp hget).1
      exact ⟨rfl, rfl, rfl, rfl, fun _ => hlt⟩

theorem populateLoop_spec (p : Partition) (eod : ℕ) : ∀ (fuel block : ℕ) (root : T)
    (dev : Device T), Travelled dev (populateLoop M p eod fuel block root dev).2 ∧
      ∀ ret, (populateLoop M p eod fuel block root dev).1 = .error ret → ret < 0 := by
  intro fuel
  induction fuel with
  | zero => exact fun block root dev => ⟨.refl dev, fun ret h => by cases h⟩
  | succ fuel ih =>
    intro block root dev
    have htravel := readLength_travelled (M := M) dev
    unfold populateLoop
    by_cases hend : eod ≤ block
    · rw [if_pos hend]
      exact ⟨.refl dev, fun ret h => by cases h⟩
    · rw [if_neg hend]
      generalize readLength M dev = r at htravel
      obtain ⟨ret | nr, dev'⟩ := r
      · exact ⟨htravel, fun ret h => by cases h⟩
      · dsimp only
        by_cases hzero : nr = 0
        · rw [if_pos hzero]
          obtain ⟨htravel', hneg⟩ := ih (block + 1) root dev'
          exact ⟨htravel.trans htravel', hneg⟩
        · rw [if_neg hzero]
          cases M.addLostFile ⟨⟨some p, block⟩, 0, nr, 0⟩ root with
          | error code =>
            refine ⟨htravel, fun ret h => ?_⟩
            cases h
            exact code.2
          | ok root' =>
            obtain ⟨htravel', hneg⟩ := ih (block + 1) root' dev'
            exact ⟨htravel.trans htravel', hneg⟩

theorem populateLostFound_spec (p : Partition) (lastref eod : ℕ) (root : T) (dev : Device T) :
    Travelled dev (populateLostFound M p lastref eod root dev).2 ∧
      ∀ ret, (populateLostFound M p lastref eod root dev).1 = .error ret → ret < 0 := by
  unfold populateLostFound
  cases M.openLostFound root with
  | error code =>
    refine ⟨.refl dev, fun ret h => ?_⟩
    cases h
    exact code.2
  | ok root =>
    dsimp only
    generalize (if 4 < lastref then lastref else 4) = block
    have htravel := tapeSeek_travelled p (some block) dev
    split
    · rename_i hneg
      refine ⟨htravel, fun ret h => ?_⟩
      cases h
      exact hneg
    · obtain ⟨htravel', hneg⟩ := populateLoop_spec (M := M) p eod (eod - block) block root
        (tapeSeek p (some block) dev).2
      exact ⟨htravel.trans htravel', hneg⟩

theorem makeLostFoundOn_spec (p : Partition) (f : Finding T) (last : ℕ) (root : T)
    (dev : Device T) : Travelled dev (makeLostFoundOn M p f last root dev).2 ∧
      ∀ ret, (makeLostFoundOn M p f last root dev).1 = .error ret → ret < 0 := by
  unfold makeLostFoundOn
  split
  · split
    · exact populateLostFound_spec p _ _ root dev
    · exact populateLostFound_spec p _ _ root dev
  · exact ⟨.refl dev, fun ret h => by cases h⟩

theorem makeLostFound_spec (ip dp : Finding T) (root : T) (dev : Device T) :
    Travelled dev (makeLostFound M ip dp root dev).2 ∧
      ∀ ret, (makeLostFound M ip dp root dev).1 = .error ret → ret < 0 := by
  obtain ⟨htravel, hneg⟩ := makeLostFoundOn_spec (M := M) .ip ip (lastRef M .ip root) root dev
  unfold makeLostFound
  dsimp only
  generalize makeLostFoundOn M .ip ip (lastRef M .ip root) root dev = r at htravel hneg
  obtain ⟨ret | root', dev'⟩ := r
  · exact ⟨htravel, fun ret' h => hneg ret' h⟩
  · obtain ⟨htravel', hneg'⟩ :=
      makeLostFoundOn_spec (M := M) .dp dp (lastRef M .dp root) root' dev'
    exact ⟨htravel.trans htravel', hneg'⟩

/-- The append position of the index partition is not behind the end of data. -/
theorem giveUpIp_spec {f : Finding T} {v : Volume T} (hready : Ready M .ip f v) (last : ℕ) :
    giveUpIp f last v.dev = v.dev ∨ ∃ block, block ≤ v.dev.eod .ip ∧
      giveUpIp f last v.dev = v.dev.setAppendPos .ip block := by
  have heod := hready.eod_le
  unfold giveUpIp
  cases hfound : f.found with
  | none =>
    dsimp only
    split
    · exact .inr ⟨4, by omega, rfl⟩
    · exact .inl rfl
  | some s =>
    obtain ⟨hcontent, -, hge, hle⟩ := hready.content s hfound
    dsimp only
    split
    · split
      · exact .inr ⟨last, by omega, rfl⟩
      · split
        · exact .inr ⟨_, by omega, rfl⟩
        · exact .inl rfl
    · exact .inl rfl

theorem giveUpDp_spec {f : Finding T} {v : Volume T} {dev : Device T} (hready : Ready M .dp f v) :
    giveUpDp f dev = dev ∨ ∃ block, block ≤ v.dev.eod .dp ∧
      giveUpDp f dev = dev.setAppendPos .dp block := by
  have heod := hready.eod_le
  unfold giveUpDp
  cases f.found with
  | none =>
    dsimp only
    split
    · exact .inr ⟨f.eod, heod, rfl⟩
    · exact .inl rfl
  | some s =>
    dsimp only
    split
    · exact .inr ⟨f.eod, heod, rfl⟩
    · exact .inl rfl

/-- What recovery does to the volume, whatever becomes of the extra blocks. -/
structure Recovered (v : Volume T) (r : ℤ × Volume T) : Prop where
  kept : Kept v r.2
  selfptr : r.2.index.selfptr = v.index.selfptr
  dirty : ¬ r.1 < 0 → r.2.dirty = true
  append_le : ∀ p, r.2.dev.appendPos p ≤ v.dev.eod p

theorem recover_spec (recoverExtra : Bool) {ip dp : Finding T} {v : Volume T}
    (hip : Ready M .ip ip v) (hdp : Ready M .dp dp v) (hle : ∀ p, v.dev.appendPos p ≤ v.dev.eod p) :
    Recovered v (recover M recoverExtra ip dp v) := by
  unfold recover
  cases recoverExtra with
  | true =>
    rw [if_pos rfl]
    obtain ⟨htravel, hneg⟩ := makeLostFound_spec (M := M) ip dp v.index.root v.dev
    generalize makeLostFound M ip dp v.index.root v.dev = r at htravel hneg
    obtain ⟨ret | root, dev⟩ := r
    · have hlt := hneg ret rfl
      exact ⟨htravel.kept, rfl, fun h => absurd hlt h, fun p =>
        (congrFun htravel.appendPos p).trans_le (hle p)⟩
    · exact ⟨⟨htravel.medium, htravel.isWorm, htravel.answers, rfl, htravel.posOk⟩, rfl,
        fun _ => rfl, fun p =>
        (congrFun htravel.appendPos p).trans_le (hle p)⟩
  | false =>
    rw [if_neg Bool.false_ne_true]
    -- first the index partition, then the data partition
    have hipDone : ∃ block, block ≤ v.dev.eod .ip ∧
        (giveUpIp ip (lastRef M .ip v.index.root) v.dev).appendPos
          = Function.update v.dev.appendPos .ip block ∧
        ∃ append, giveUpIp ip (lastRef M .ip v.index.root) v.dev
          = { v.dev with appendPos := append } := by
      rcases giveUpIp_spec hip (lastRef M .ip v.index.root) with heq | ⟨block, h1, heq⟩
      · rw [heq]
        exact ⟨_, hle .ip, (Function.update_eq_self _ _).symm, _, rfl⟩
      · rw [heq]
        exact ⟨block, h1, rfl, _, rfl⟩
    obtain ⟨block, hblock_le, happend, append, hdev⟩ := hipDone
    have hdpDone : ∃ block', block' ≤ v.dev.eod .dp ∧ ∃ append',
        giveUpDp dp (giveUpIp ip (lastRef M .ip v.index.root) v.dev)
          = { v.dev with appendPos := append' } ∧
        append' .ip = block ∧ append' .dp = block' := by
      rcases @giveUpDp_spec T M dp v (giveUpIp ip (lastRef M .ip v.index.root) v.dev) hdp with
        heq | ⟨block', h1, heq⟩
      · refine ⟨v.dev.appendPos .dp, hle .dp, append, heq.trans hdev, ?_, ?_⟩
        · have := congrFun happend .ip
          rw [hdev] at this
          simpa using this
        · have := congrFun happend .dp
          rw [hdev] at this
          simpa using this
      · refine ⟨block', h1, Function.update append .dp block', ?_, ?_, ?_⟩
        · rw [heq, hdev]
          rfl
        · have := congrFun happend .ip
          rw [hdev] at this
          simpa using this
        · simp
    obtain ⟨block', hblock'_le, append', heq, hip', hdp'⟩ := hdpDone
    rw [heq]
    refine ⟨⟨rfl, rfl, rfl, rfl, fun hok => hok⟩, rfl, fun _ => rfl, fun p => ?_⟩
    cases p with
    | ip => exact hip'.trans_le hblock_le
    | dp => exact hdp'.trans_le hblock'_le

end Recover

end Ltfs.CheckMedium

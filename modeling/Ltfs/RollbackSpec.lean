import Ltfs.ConsistentMount
import Ltfs.IndexCommands
import Ltfs.Rollback
import Ltfs.TraverseSpec

/-!
# What a rollback leaves

* `findTarget_spec` — the index that is found is on the tape and of the generation asked for, and
  the search writes nothing.
* `HistoryKept` — the data partition after a rollback as it should be.
* `corrected_medium` — the mount at the end of a rollback has nothing to do.
* `rollback_history_iff` — a rollback never keeps the history, and when it writes nothing after a
  failure to copy the current index.
* `rollback_appends` — a rollback adds two indexes to the data partition and leaves all others.
-/

namespace Ltfs.Rollback

open CheckMedium (MediumReader MountOptions ltfsMount Present region)
open XmlTape (InputTape IndexReader readAll readCallback fillBuffer readBlock)
open XmlTape.Traverse (Walk IndexFound unsupportedGeneration visitIndex backwardLoop
  ltfsTraverseIndexBackward)

/-! ## Reading leaves the records alone -/

section Records

variable {ctx : InputTape}

theorem tapeRead_records (count : ℕ) (dev : XmlTape.Device) :
    (XmlTape.tapeRead count dev).2.records = dev.records := by
  unfold XmlTape.tapeRead
  split
  · rfl
  · split
    · rfl
    · rfl

theorem spaceFmBack_records (dev : XmlTape.Device) :
    (XmlTape.spaceFmBack dev).2.records = dev.records := by
  unfold XmlTape.spaceFmBack
  split
  · rfl
  · split
    · rfl
    · rfl

theorem spaceFmForward_records (dev : XmlTape.Device) :
    (XmlTape.spaceFmForward dev).2.records = dev.records := by
  unfold XmlTape.spaceFmForward
  split
  · rfl
  · split
    · rfl
    · rfl

theorem noteFileMark_records (ctx : InputTape) :
    (XmlTape.noteFileMark ctx).2.device.records = ctx.device.records := by
  unfold XmlTape.noteFileMark
  dsimp only
  split
  · exact spaceFmBack_records ctx.device
  · exact spaceFmBack_records ctx.device

theorem cacheRead_records (bytes : List UInt8) (ctx : InputTape) :
    (XmlTape.cacheRead bytes ctx).2.device.records = ctx.device.records := by
  unfold XmlTape.cacheRead
  split
  · split
    · rfl
    · rfl
  · rfl

theorem checkSmallBlock_records (nread : ℕ) (ctx : InputTape) :
    (XmlTape.checkSmallBlock nread ctx).2.device.records = ctx.device.records := by
  unfold XmlTape.checkSmallBlock
  dsimp only
  split
  · split
    · exact noteFileMark_records _
    · split
      · split
        · rfl
        · have hread := tapeRead_records ctx.blocksize ctx.device
          split
          · exact hread
          · split
            · exact (noteFileMark_records _).trans hread
            · exact hread
      · rfl
  · rfl

theorem readBlock_records (ctx : InputTape) :
    (readBlock ctx).2.device.records = ctx.device.records := by
  have hread := tapeRead_records ctx.bufSize ctx.device
  unfold readBlock
  dsimp only
  split
  · exact hread
  · split
    · exact (cacheRead_records _ _).trans hread
    · split
      · exact (checkSmallBlock_records _ _).trans ((cacheRead_records _ _).trans hread)
      · exact (checkSmallBlock_records _ _).trans ((cacheRead_records _ _).trans hread)

theorem fillBuffer_records (len : ℕ) : ∀ (fuel : ℕ) (saved : List UInt8) (remaining : ℕ)
    (ctx : InputTape) (r : ℤ × List UInt8 × InputTape),
    fillBuffer len fuel saved remaining ctx = some r →
      r.2.2.device.records = ctx.device.records := by
  intro fuel
  induction fuel with
  | zero =>
    intro saved remaining ctx r hfill
    cases hfill
  | succ fuel ih =>
    intro saved remaining ctx r hfill
    unfold fillBuffer at hfill
    split at hfill
    · cases hfill
      rfl
    · split at hfill
      · cases hfill
        rfl
      · split at hfill
        · cases hfill
          rfl
        · have hblock := readBlock_records ctx
          generalize readBlock ctx = block at hblock hfill
          obtain ⟨bytes, ctx'⟩ := block
          cases bytes with
          | none =>
            cases hfill
            exact hblock
          | some bytes =>
            simp only at hfill
            split at hfill
            · exact (ih _ _ _ _ hfill).trans hblock
            · exact (ih _ _ _ _ hfill).trans hblock

theorem readCallback_records {len : ℕ} {r : ℤ × List UInt8 × InputTape}
    (hread : readCallback len ctx = some r) : r.2.2.device.records = ctx.device.records := by
  unfold readCallback at hread
  split at hread
  · cases hread
    rfl
  · split at hread
    · cases hread
      rfl
    · split at hread
      · have hfill := fillBuffer_records _ _ _ _ _ _ hread
        exact hfill
      · exact fillBuffer_records _ _ _ _ _ _ hread

theorem readAll_records : ∀ (lens : List ℕ) (ctx : InputTape)
    (r : List (ℤ × List UInt8) × InputTape), readAll lens ctx = some r →
      r.2.device.records = ctx.device.records := by
  intro lens
  induction lens with
  | nil =>
    intro ctx r hread
    cases hread
    rfl
  | cons len lens ih =>
    intro ctx r hread
    unfold readAll at hread
    cases hcall : readCallback len ctx with
    | none =>
      rw [hcall] at hread
      cases hread
    | some call =>
      rw [hcall] at hread
      rcases Option.map_eq_some_iff.mp hread with ⟨rest, hrest, rfl⟩
      exact (ih _ rest hrest).trans (readCallback_records hcall)

variable {T : Type}

theorem ltfsReadIndex_records {R : IndexReader T} {p : Partition} {eodPos : ℕ}
    {dev : XmlTape.Device} {r : Except ℤ Bool × XmlTape.Device}
    (h : XmlTape.ltfsReadIndex R p eodPos dev = some r) : r.2.records = dev.records := by
  unfold XmlTape.ltfsReadIndex at h
  rcases Option.map_eq_some_iff.mp h with ⟨⟨ret, after⟩, hschema, hresult⟩
  unfold XmlTape.xmlSchemaFromTape at hschema
  rcases Option.map_eq_some_iff.mp hschema with ⟨⟨chunks, ctx⟩, hall, hpair⟩
  have hrecords : after.records = dev.records := by
    have hctx := readAll_records _ _ _ hall
    have hafter : after = ctx.device := by
      simp only at hpair
      split at hpair
      · exact (congrArg Prod.snd hpair).symm
      · split at hpair
        · exact (congrArg Prod.snd hpair).symm
        · exact (congrArg Prod.snd hpair).symm
    rw [hafter]
    exact hctx
  simp only at hresult
  split at hresult
  · rw [← hresult]
    exact hrecords
  · split at hresult
    · rw [← hresult]
      exact hrecords
    · split at hresult
      · have hspace := (spaceFmForward_records after).trans hrecords
        split at hresult
        · rw [← hresult]
          exact hspace
        · rw [← hresult]
          exact hspace
      · rw [← hresult]
        exact hrecords

end Records

/-! ## The search for the target -/

section Search

variable {T : Type} {R : IndexReader T} {p : Partition} {gen : ℕ}

/-- An index that was read, of the generation sought, and nothing else in the list. -/
def Sought (R : IndexReader T) (p : Partition) (gen : ℕ) (w : Walk T (List TapeOffset)) : Prop :=
  ∃ start, 5 ≤ start ∧ start ≤ w.dev.records.length ∧ XmlTape.ValidIndex R p start ∧
    w.index = (R.parse start).index ∧ w.index.generation = gen ∧ w.list = [⟨some p, start⟩]

theorem plainReader (hR : R.recoverSymlink = false) : { R with recoverSymlink := false } = R := by
  cases R
  cases hR
  rfl

/-- What the callback makes of an index. -/
theorem reportIndex_search (w : Walk T (List TapeOffset)) :
    XmlTape.Traverse.reportIndex (some (searchIndexByGen gen)) w =
      if w.index.generation = unsupportedGeneration then
        (some (-ltfsUnsupportedIndexVersion), w)
      else if gen = w.index.generation then
        (some 0, { w with list := w.index.selfptr :: w.list })
      else (none, w) := by
  have hneg : -ltfsUnsupportedIndexVersion < 0 := by decide
  unfold XmlTape.Traverse.reportIndex XmlTape.Traverse.callFunc searchIndexByGen
  dsimp only
  by_cases hun : w.index.generation = unsupportedGeneration
  · simp only [if_pos hun, if_pos hneg]
  · by_cases hgen : gen = w.index.generation
    · simp only [if_neg hun, if_pos hgen]
      rfl
    · simp only [if_neg hun, if_neg hgen]
      rfl

/-- At one index: the list stays empty, or the search ends there. -/
theorem visitIndex_search (hR : R.recoverSymlink = false) {w w' : Walk T (List TapeOffset)}
    {stop : Option ℤ} (hbehind : 5 ≤ w.dev.pos) (hpos : w.dev.pos ≤ w.dev.records.length)
    (hlist : w.list = [])
    (h : visitIndex R p (some (searchIndexByGen gen)) w = some (stop, w')) :
    w'.dev.records = w.dev.records ∧
      (w'.list = [] ∨ (stop = some 0 ∧ Sought R p gen w')) := by
  unfold visitIndex XmlTape.Traverse.readIndex at h
  rw [plainReader hR] at h
  cases hread : XmlTape.ltfsReadIndex R p 0 w.dev with
  | none =>
    rw [hread] at h
    cases h
  | some r =>
    obtain ⟨ret, dev⟩ := r
    rw [hread] at h
    have hrecords := ltfsReadIndex_records hread
    cases ret with
    | ok endFm =>
      have hvalid := CheckMedium.ltfsReadIndex_valid hR hread
      simp only [Option.map_some, Option.some.injEq] at h
      rw [reportIndex_search] at h
      dsimp only at h
      by_cases hun : (R.parse w.dev.pos).index.generation = unsupportedGeneration
      · rw [if_pos hun] at h
        cases h
        exact ⟨hrecords, .inl hlist⟩
      · rw [if_neg hun] at h
        by_cases hgen : gen = (R.parse w.dev.pos).index.generation
        · -- the callback ends the walk
          rw [if_pos hgen] at h
          cases h
          refine ⟨hrecords, .inr ⟨rfl, w.dev.pos, hbehind, ?_, hvalid, rfl, hgen.symm, ?_⟩⟩
          · exact hpos.trans_eq (congrArg List.length hrecords).symm
          · dsimp only
            rw [hvalid.selfptr, hlist]
        · rw [if_neg hgen] at h
          cases h
          exact ⟨hrecords, .inl hlist⟩
    | error code =>
      simp only [Option.map_some] at h
      split at h
      · cases h
        exact ⟨hrecords, .inl hlist⟩
      · have hspace := (spaceFmForward_records dev).trans hrecords
        split at h
        · cases h
          exact ⟨hspace, .inl hlist⟩
        · -- the reserved generation is refused by the callback
          rw [reportIndex_search, if_pos rfl] at h
          cases h
          exact ⟨hspace, .inl hlist⟩

theorem spaceFmForward_pos {dev : XmlTape.Device} (h : ¬ (XmlTape.spaceFmForward dev).1 < 0) :
    (XmlTape.spaceFmForward dev).2.pos ≤ (XmlTape.spaceFmForward dev).2.records.length := by
  unfold XmlTape.spaceFmForward at h ⊢
  split at h
  · rename_i hfault
    exact absurd hfault h
  · rename_i hfault
    rw [if_neg hfault]
    cases hnext : XmlTape.nextFilemark dev.records dev.pos (dev.records.length - dev.pos) with
    | none => exact Nat.le_refl _
    | some t =>
      have hmark := (XmlTape.nextFilemark_some _ _ hnext).2.1
      exact (List.getElem?_eq_some_iff.mp hmark).1

theorem spaceFmBackward_records (count : ℕ) (dev : XmlTape.Device) :
    (XmlTape.Traverse.spaceFmBackward count dev).2.records = dev.records := by
  unfold XmlTape.Traverse.spaceFmBackward
  split
  · rfl
  · split
    · rfl
    · rfl

theorem spaceFmBackward_le (count : ℕ) (dev : XmlTape.Device) :
    (XmlTape.Traverse.spaceFmBackward count dev).1 ≤ 0 := by
  unfold XmlTape.Traverse.spaceFmBackward
  split
  · rename_i hfault
    exact le_of_lt hfault
  · split
    · show -edevBopDetected ≤ 0
      decide
    · exact le_refl 0

/-- Spacing back and then forward: the records are the same, and where it succeeds the tape is on
them. -/
theorem andThen_forward {first : ℤ × XmlTape.Device} {records : List XmlTape.Record}
    (hrecords : first.2.records = records) (hle : first.1 ≤ 0) :
    (XmlTape.Traverse.andThen first XmlTape.spaceFmForward).2.records = records ∧
      (¬ (XmlTape.Traverse.andThen first XmlTape.spaceFmForward).1 < 0 →
        (XmlTape.Traverse.andThen first XmlTape.spaceFmForward).2.pos ≤ records.length) := by
  unfold XmlTape.Traverse.andThen
  by_cases hzero : first.1 = 0
  · rw [if_pos hzero]
    have hforward := (spaceFmForward_records first.2).trans hrecords
    refine ⟨hforward, ?_⟩
    intro h
    have hpos := spaceFmForward_pos h
    rw [hforward] at hpos
    exact hpos
  · rw [if_neg hzero]
    exact ⟨hrecords, fun h => absurd (lt_of_le_of_ne hle hzero) h⟩

/-- The walk ends with an empty list, or at the index sought. -/
theorem backwardLoop_search (hR : R.recoverSymlink = false) : ∀ (fuel : ℕ)
    (w : Walk T (List TapeOffset)) (r : ℤ × Walk T (List TapeOffset)),
    w.dev.pos ≤ w.dev.records.length → w.list = [] →
      backwardLoop R p (some (searchIndexByGen gen)) gen fuel w = some r →
      r.2.dev.records = w.dev.records ∧ (r.2.list = [] ∨ Sought R p gen r.2) := by
  intro fuel
  induction fuel with
  | zero =>
    intro w r _ _ h
    cases h
  | succ fuel ih =>
    intro w r hpos hlist h
    unfold backwardLoop at h
    split at h
    · cases h
      exact ⟨rfl, .inl hlist⟩
    · rename_i hlabel
      cases hvisit : visitIndex R p (some (searchIndexByGen gen)) w with
      | none =>
        rw [hvisit] at h
        cases h
      | some visited =>
        obtain ⟨stop, w'⟩ := visited
        rw [hvisit] at h
        obtain ⟨hrecords, hcases⟩ := visitIndex_search hR (by omega) hpos hlist hvisit
        cases stop with
        | some ret =>
          cases h
          refine ⟨hrecords, ?_⟩
          rcases hcases with hempty | ⟨-, hsought⟩
          · exact .inl hempty
          · exact .inr hsought
        | none =>
          have hlist' : w'.list = [] := by
            rcases hcases with hempty | ⟨hstop, -⟩
            · exact hempty
            · cases hstop
          simp only at h
          split at h
          · cases h
            exact ⟨hrecords, .inl hlist'⟩
          · obtain ⟨hprev, hpos'⟩ := andThen_forward
              ((spaceFmBackward_records 4 w'.dev).trans hrecords) (spaceFmBackward_le 4 w'.dev)
            split at h
            · cases h
              exact ⟨hprev, .inl hlist'⟩
            · rename_i hok
              have hposition := hpos' hok
              rw [← hprev] at hposition
              obtain ⟨h1, h2⟩ := ih _ _ (by exact hposition) (by exact hlist') h
              exact ⟨h1.trans hprev, h2⟩

theorem traverseBackward_search (hR : R.recoverSymlink = false) {w : Walk T (List TapeOffset)}
    {r : ℤ × Walk T (List TapeOffset)} (hlist : w.list = [])
    (h : ltfsTraverseIndexBackward R p (some (searchIndexByGen gen)) gen w = some r) :
    r.2.dev.records = w.dev.records ∧ (r.2.list = [] ∨ Sought R p gen r.2) := by
  have heod : (XmlTape.seekEod w.dev).2.records = w.dev.records := by
    unfold XmlTape.seekEod
    split
    · rfl
    · rfl
  have hle : (XmlTape.seekEod w.dev).1 ≤ 0 := by
    unfold XmlTape.seekEod
    split
    · rename_i hfault
      exact le_of_lt (locateCode_neg hfault)
    · exact le_refl 0
  have hfirst : (XmlTape.Traverse.andThen (XmlTape.seekEod w.dev)
      (XmlTape.Traverse.spaceFmBackward 2)).2.records = w.dev.records ∧
      (XmlTape.Traverse.andThen (XmlTape.seekEod w.dev)
      (XmlTape.Traverse.spaceFmBackward 2)).1 ≤ 0 := by
    unfold XmlTape.Traverse.andThen
    split
    · exact ⟨(spaceFmBackward_records 2 _).trans heod, spaceFmBackward_le 2 _⟩
    · exact ⟨heod, hle⟩
  obtain ⟨hrecords, hpos⟩ := andThen_forward hfirst.1 hfirst.2
  unfold ltfsTraverseIndexBackward at h
  dsimp only at h
  split at h
  · cases h
    exact ⟨hrecords, .inl hlist⟩
  · rename_i hok
    have hposition := hpos hok
    rw [← hrecords] at hposition
    obtain ⟨h1, h2⟩ := backwardLoop_search hR _ _ _ (by exact hposition) (by exact hlist) h
    exact ⟨h1.trans hrecords, h2⟩

end Search


section Target

variable {T : Type} {M : MediumReader T} {gen : ℕ}

/-- The end of the data partition is where its next index goes. -/
def AppendsDp (dev : Device T) : Prop := dev.appendPos .dp = 0 ∨ dev.appendPos .dp = dev.eod .dp

/-- The tape has been looked at; only the index in memory is another one. -/
structure Looked (v v' : Volume T) : Prop where
  medium : v'.dev.medium = v.dev.medium
  dirty : v'.dirty = v.dirty
  endsInIndex : v'.endsInIndex = v.endsInIndex
  written : v'.written = v.written
  moreBlocks : v'.moreBlocks = v.moreBlocks
  ok : v.dev.Ok → v'.dev.Ok
  appendsDp : AppendsDp v.dev → AppendsDp v'.dev

theorem Looked.trans {v₁ v₂ v₃ : Volume T} (h : Looked v₁ v₂) (h' : Looked v₂ v₃) :
    Looked v₁ v₃ :=
  ⟨h'.medium.trans h.medium, h'.dirty.trans h.dirty, h'.endsInIndex.trans h.endsInIndex,
    h'.written.trans h.written, h'.moreBlocks.trans h.moreBlocks, fun hok => h'.ok (h.ok hok),
    fun hap => h'.appendsDp (h.appendsDp hap)⟩

/-- A valid index of the generation is at this place, and it is the one in memory. -/
structure TargetAt (M : MediumReader T) (gen : ℕ) (medium : Partition → List (Record T))
    (index : Index T) (p : Partition) (start : ℕ) : Prop where
  content : 5 ≤ start
  le : start ≤ (medium p).length
  valid : XmlTape.ValidIndex (M.reader false (medium p)) p start
  index_eq : index = (M.parse (region (medium p) start)).index
  generation : index.generation = gen

theorem TargetAt.present {medium : Partition → List (Record T)} {index : Index T} {p : Partition}
    {start : ℕ} (h : TargetAt M gen medium index p start) : Present M p (medium p) start :=
  .of_valid h.le h.valid

theorem TargetAt.selfptr {medium : Partition → List (Record T)} {index : Index T} {p : Partition}
    {start : ℕ} (h : TargetAt M gen medium index p start) : index.selfptr = ⟨some p, start⟩ := by
  rw [h.index_eq]
  exact h.present.selfptr

/-- An index of the generation is on a partition, and it is the one in memory. -/
def TargetFound (M : MediumReader T) (gen : ℕ) (medium : Partition → List (Record T))
    (index : Index T) (list : List TapeOffset) : Prop :=
  ∃ p start, TargetAt M gen medium index p start ∧ list = [⟨some p, start⟩]

theorem traverseBackward_spec (M : MediumReader T) (p : Partition) (gen : ℕ) (v : Volume T) :
    Looked v (traverseBackward M p gen v).2.2 ∧
      ((traverseBackward M p gen v).2.1 = [] ∨
        TargetFound M gen v.dev.medium (traverseBackward M p gen v).2.2.index
          (traverseBackward M p gen v).2.1) := by
  have hlooked : ∀ (dev : Device T) (index : Index T), dev.medium = v.dev.medium →
      (v.dev.Ok → dev.position.block ≤ v.dev.eod dev.position.partition) →
      dev.appendPos = Function.update v.dev.appendPos p (v.dev.eod p) →
      Looked v { v with dev := dev, index := index } := by
    intro dev index hmedium hposition happend
    have heod : ∀ q, dev.eod q = v.dev.eod q := by
      intro q
      unfold Device.eod
      rw [hmedium]
    refine ⟨hmedium, rfl, rfl, rfl, rfl, ?_, ?_⟩
    · intro hok
      constructor
      · unfold Device.PosOk
        dsimp only
        rw [heod]
        exact hposition hok
      · intro q
        dsimp only
        rw [heod, happend]
        by_cases hq : q = p
        · rw [hq, Function.update_self]
        · rw [Function.update_of_ne hq]
          exact hok.appendPos_le q
    · intro hap
      unfold AppendsDp at hap ⊢
      dsimp only
      rw [heod, happend]
      cases p with
      | dp =>
        right
        rw [Function.update_self]
      | ip =>
        rw [Function.update_of_ne (by decide)]
        exact hap
  unfold traverseBackward
  cases hans : v.dev.answer with
  | error code junk =>
    refine ⟨⟨rfl, rfl, rfl, rfl, rfl, ?_, id⟩, .inl rfl⟩
    exact fun hok => ⟨hok.posOk, hok.appendPos_le⟩
  | ok early programmable =>
    dsimp only
    have hspace := CheckMedium.noteSpace_same v.dev.tick p early programmable
    have happend : ((v.dev.tick.noteSpace p early programmable).setAppendPos p (v.dev.eod p)).appendPos
        = Function.update v.dev.appendPos p (v.dev.eod p) := by
      unfold Device.setAppendPos
      dsimp only
      rw [hspace.appendPos]
      rfl
    cases hrun : ltfsTraverseIndexBackward (M.reader false (v.dev.medium p)) p
        (some (searchIndexByGen gen)) gen
        ⟨⟨(v.dev.medium p).map M.image, 0, []⟩, v.index, []⟩ with
    | none =>
      refine ⟨hlooked _ v.index hspace.medium ?_ happend, .inl rfl⟩
      intro hok
      have hposition : (v.dev.tick.noteSpace p early programmable).position = v.dev.position :=
        hspace.position
      show (v.dev.tick.noteSpace p early programmable).position.block ≤
        v.dev.eod (v.dev.tick.noteSpace p early programmable).position.partition
      rw [hposition]
      exact hok.posOk
    | some r =>
      obtain ⟨ret, w⟩ := r
      obtain ⟨hrecords, hfound⟩ := traverseBackward_search (by rfl) (by rfl) hrun
      refine ⟨hlooked _ _ hspace.medium (fun _ => Nat.min_le_right _ _) happend, ?_⟩
      rcases hfound with hempty | ⟨start, hbehind, hle, hvalid, hindex, hgen, hlist⟩
      · exact .inl hempty
      · right
        dsimp only at hle hrecords
        rw [hrecords, List.length_map] at hle
        exact ⟨p, start, ⟨hbehind, hle, hvalid, hindex, hgen⟩, hlist⟩

/-- The codes of a rollback that fails. -/
def Fails (ret : ℤ) : Prop := ret < 0 ∨ ret = ltfsckOperationalError

theorem findTarget_spec (M : MediumReader T) (gen : ℕ) (v : Volume T) :
    Looked v (findTarget M gen v).2 ∧
      (∀ ret, (findTarget M gen v).1 = .error ret → Fails ret) ∧
      ∀ list, (findTarget M gen v).1 = .ok list → list = [] ∨
        TargetFound M gen v.dev.medium (findTarget M gen v).2.index list := by
  obtain ⟨hip, hfound⟩ := traverseBackward_spec M .ip gen v
  unfold findTarget
  generalize traverseBackward M .ip gen v = i at hip hfound
  obtain ⟨ret, list, v₁⟩ := i
  dsimp only at hip hfound ⊢
  by_cases hnone : ret = -ltfsNoIndex
  · rw [if_pos hnone]
    obtain ⟨hdp, hfound'⟩ := traverseBackward_spec M .dp gen v₁
    generalize traverseBackward M .dp gen v₁ = d at hdp hfound'
    obtain ⟨ret', list', v₂⟩ := d
    dsimp only at hdp hfound' ⊢
    rw [hip.medium] at hfound'
    refine ⟨hip.trans hdp, ?_, ?_⟩
    · intro code hcode
      split at hcode
      · cases hcode
        exact .inr rfl
      · cases hcode
    · intro l hl
      split at hl
      · cases hl
      · cases hl
        exact hfound'
  · rw [if_neg hnone]
    refine ⟨hip, ?_, ?_⟩
    · intro code hcode
      split at hcode
      · rename_i hneg
        cases hcode
        exact .inl hneg
      · cases hcode
    · intro l hl
      split at hl
      · cases hl
      · cases hl
        exact hfound

end Target


/-! ## The writes -/

section Writes

variable {T : Type}

/-- The tape positions are right, and there are at least that many indexes. -/
structure Grown (n : ℕ) (v : Volume T) : Prop where
  ok : v.dev.Ok
  written : n ≤ v.written.length

theorem rollbackPartition_grown {n : ℕ} {v : Volume T} (p : Partition) (h : Grown n v) :
    Grown n (rollbackPartition p v).2 := by
  refine writeIndex_invariant (P := Grown n) ?_ ?_ ?_ p false h
  · intro v v' hq h
    refine ⟨hq.tape.ok h.ok, ?_⟩
    rw [hq.written]
    exact h.written
  · intro q v h
    rcases clearWritePerm_partly h.ok q with ⟨hbeside, htape⟩
    exact ⟨hbeside.ok h.ok htape.posOk htape.appendPos_le, h.written⟩
  · intro q writePerm volstat v h
    rcases writeIndexHere_result q writePerm volstat h.ok with ⟨-, hf⟩ | ⟨-, hd⟩
    · refine ⟨hf.ok h.ok, ?_⟩
      rw [hf.written]
      exact h.written
    · refine ⟨hd.ok h.ok, ?_⟩
      rw [hd.written, List.length_append]
      exact Nat.le_add_right_of_le h.written

theorem rollbackPartition_ok {v : Volume T} (p : Partition) (hok : v.dev.Ok) :
    (rollbackPartition p v).2.dev.Ok :=
  (rollbackPartition_grown p ⟨hok, Nat.zero_le _⟩).ok

theorem operationalError_fails : Fails ltfsckOperationalError := .inr rfl

theorem Fails.ne {ret : ℤ} (h : Fails ret) : ret ≠ 0 ∧ ret ≠ ltfsckCorrected := by
  unfold Fails ltfsckOperationalError at h
  unfold ltfsckCorrected
  omega

/-- A write to the data partition either succeeds, or no index has been written. -/
theorem rollbackDp_cases {v : Volume T} (hok : v.dev.Ok) :
    (rollbackDp v).2.dev.medium .ip = v.dev.medium .ip ∧
    (((rollbackDp v).1 = 0 ∧ IndexDone .dp { v with dev := v.dev.tick } (rollbackDp v).2) ∨
    ((rollbackDp v).1 = ltfsckOperationalError ∧ (rollbackDp v).2.written = v.written)) := by
  have heq : rollbackDp v = (if (writeIndexFlat .dp false v).1 < 0 then ltfsckOperationalError
      else (writeIndexFlat .dp false v).1, (writeIndexFlat .dp false v).2) := by
    unfold rollbackDp rollbackPartition
    rw [CheckMedium.writeIndex_dp]
  have hrule := writeIndexFlat_rule
    (P := fun x => x.dev.Ok ∧ x.written = v.written ∧ x.dev.medium .ip = v.dev.medium .ip)
    ?_ ?_ .dp false (show v.dev.Ok ∧ _ from ⟨hok, rfl, rfl⟩)
  · rcases hrule with ⟨hneg, -, hwritten, hmedium⟩ |
      ⟨writePerm, volstat, v₁, ⟨hok₁, hwritten₁, hmedium₁⟩, hhere⟩
    · rw [heq, if_pos hneg]
      exact ⟨hmedium, .inr ⟨rfl, hwritten⟩⟩
    · rcases writeIndexHere_result .dp writePerm volstat hok₁ with ⟨hneg, hf⟩ | ⟨hzero, hd⟩
      · rw [← hhere] at hneg hf
        rw [heq, if_pos hneg]
        refine ⟨?_, .inr ⟨rfl, hf.written.trans hwritten₁⟩⟩
        exact (hf.beside.medium .ip (by decide)).trans hmedium₁
      · rw [← hhere] at hzero hd
        rw [heq, hzero, if_neg (lt_irrefl 0)]
        refine ⟨?_, .inl ⟨rfl, CheckMedium.writeIndexFlat_done hok hzero⟩⟩
        exact (hd.beside.medium .ip (by decide)).trans hmedium₁
  · intro x x' hq h
    refine ⟨hq.tape.ok h.1, hq.written.trans h.2.1, ?_⟩
    rw [hq.tape.medium]
    exact h.2.2
  · intro q x h
    rcases clearWritePerm_partly h.1 q with ⟨hbeside, htape⟩
    exact ⟨hbeside.ok h.1 htape.posOk htape.appendPos_le, h.2⟩

/-- Right after an index of the data partition the index partition does not need another one. -/
theorem needsDpIndex_of_done {v w : Volume T} (hdone : IndexDone .dp v w) :
    needsDpIndex w = false := by
  have hends : w.dpIndexFileEnd = true := by
    have h := congrFun hdone.endsInIndex .dp
    rw [Function.update_self] at h
    exact h
  have hself : w.index.selfptr.partition = some .dp := by
    rw [hdone.index]
    rfl
  unfold needsDpIndex
  rw [hends, hself]
  simp

/-- The index partition is written without touching the data partition. -/
theorem rollbackIp_dp {v w : Volume T} (hdone : IndexDone .dp v w) (hok : w.dev.Ok) :
    (rollbackIp w).2.dev.medium .dp = w.dev.medium .dp := by
  rcases CheckMedium.writeIndex_ip_direct hok (needsDpIndex_of_done hdone) with ⟨-, hip⟩ | ⟨-, -, -, hmedium⟩
  · exact hip.beside.medium .dp (by decide)
  · exact hmedium

theorem rollbackIp_le {v : Volume T} (hok : v.dev.Ok) :
    (rollbackIp v).1 = 0 ∨ (rollbackIp v).1 = ltfsckOperationalError := by
  have hle := writeIndex_le .ip false hok
  unfold rollbackIp rollbackPartition
  dsimp only
  by_cases hneg : (writeIndex .ip false v).1 < 0
  · rw [if_pos hneg]
    exact .inr rfl
  · rw [if_neg hneg]
    exact .inl (le_antisymm hle (not_lt.mp hneg))

/-- The last block of an index tells which index it is. -/
theorem indexImage_last {l l' : List (Record T)} {n n' : ℕ} {doc doc' : Index T} (hn : 0 < n)
    (hn' : 0 < n') (h : l ++ indexImage n doc = l' ++ indexImage n' doc') : doc = doc' := by
  have hlast : ∀ (l : List (Record T)) (n : ℕ) (doc : Index T), 0 < n →
      (l ++ indexImage n doc).dropLast.getLast? = some (.idx doc (n - 1) n) := by
    intro l n doc hn
    obtain ⟨k, rfl⟩ : ∃ k, n = k + 1 := ⟨n - 1, by omega⟩
    have hsplit : l ++ indexImage (k + 1) doc
        = (l ++ .fm :: ((List.range k).map fun i => .idx doc i (k + 1)) ++ [.idx doc k (k + 1)])
          ++ [.fm] := by
      unfold indexImage
      rw [List.range_succ, List.map_append]
      simp
    rw [hsplit, List.dropLast_concat, List.getLast?_concat]
    rfl
  have h1 := hlast l n doc hn
  rw [h, hlast l' n' doc' hn', Option.some.injEq, Record.idx.injEq] at h1
  exact h1.1.symm

end Writes


/-! ## The history -/

section History

variable {T : Type} (M : MediumReader T) (o : MountOptions) (gen : ℕ) (currentPos : TapeOffset)

/-- A volume that has been mounted and unmounted: both partitions end in an index, the current index
is that of the index partition and the newest one, the next index of the data partition goes to its
end, and back pointers name indexes of the data partition, which take a block and a file mark. -/
structure ConsistentVolume (u : Volume T) : Prop where
  ok : u.dev.Ok
  appendsDp : AppendsDp u.dev
  place : u.index.selfptr = currentPos
  partition : currentPos.partition = some .ip
  content : 5 ≤ currentPos.block
  ends : CheckMedium.EndsIn M .ip (u.dev.medium .ip) currentPos.block
  endsDp : ∃ start, 5 ≤ start ∧ CheckMedium.EndsIn M .dp (u.dev.medium .dp) start
  newest : ∀ b doc, IndexAt (u.dev.medium .dp) b doc → doc.generation ≤ u.index.generation
  backptr : ∀ p start, Present M p (u.dev.medium p) start →
    (M.parse (region (u.dev.medium p) start)).index.backptr.partition = some .dp →
    (M.parse (region (u.dev.medium p) start)).index.backptr.block + 2 ≤ u.dev.eod .dp

/-- The data partition as a rollback should leave it: all indexes are still there, followed by a copy
of the current one and then by the tree of the target, with a greater generation than any before and
a back pointer to the copy. -/
def HistoryKept (u w : Volume T) : Prop :=
  ∃ (copy rolled : Index T) (n n' : ℕ), 0 < n ∧ 0 < n' ∧
    w.dev.medium .dp = u.dev.medium .dp ++ indexImage n copy ++ indexImage n' rolled ∧
    copy.root = u.index.root ∧
    (∃ p start, Present M p (u.dev.medium p) start ∧
      (M.parse (region (u.dev.medium p) start)).index.generation = gen ∧
      rolled.root = (M.parse (region (u.dev.medium p) start)).index.root) ∧
    copy.generation < rolled.generation ∧
    (∀ b doc, IndexAt (u.dev.medium .dp) b doc → doc.generation < rolled.generation) ∧
    rolled.backptr = ⟨some .dp, u.dev.eod .dp + 1⟩

/-- The copy of the current index, where it comes to that: result and volume. -/
def copyStep (u : Volume T) : Option (ℤ × Volume T) :=
  if gen = u.index.generation then none
  else
    match findTarget M gen u with
    | (.error _, _) => none
    | (.ok _, v) => if indexRefusal v < 0 then none else some (copyCurrent u.index v)

/-- The volume that is about to get the index of the target on its data partition. -/
def secondWrite (u : Volume T) : Option (Volume T) :=
  if gen = u.index.generation then none
  else
    match findTarget M gen u with
    | (.ok [selfptr], v) =>
      if indexRefusal v < 0 then none
      else
        let c := copyCurrent u.index v
        if indexRefusal c.2 < 0 then none
        else if selfptr.partition = some .ip ∨ selfptr.partition = some .dp then
          some (installTarget ⟨v.index, c.2.index, currentPos, [selfptr]⟩ c.2)
        else none
    | _ => none

variable {M o gen currentPos} {u : Volume T}

/-- The copy leaves a volume to which the target can be written. -/
structure Copied (M : MediumReader T) (gen : ℕ) (u v : Volume T) (c : ℤ × Volume T) : Prop where
  looked : Looked u v
  ok : (install u.index v).dev.Ok
  eq : c = copyCurrent u.index v
  okAfter : c.2.dev.Ok
  ip : c.2.dev.medium .ip = u.dev.medium .ip

theorem copied (hcons : ConsistentVolume M currentPos u) {v : Volume T} {list : List TapeOffset}
    (hfind : findTarget M gen u = (.ok list, v)) :
    Copied M gen u v (copyCurrent u.index v) := by
  have hlooked := (findTarget_spec M gen u).1
  rw [hfind] at hlooked
  have hok : (install u.index v).dev.Ok := hlooked.ok hcons.ok
  refine ⟨hlooked, hok, rfl, rollbackPartition_ok .dp hok, ?_⟩
  have hip := (rollbackDp_cases hok).1
  exact hip.trans (congrFun hlooked.medium .ip)

/-- How the second write is reached, and what happens from there on. -/
theorem secondWrite_some {w : Volume T} (h : secondWrite M gen currentPos u = some w) :
    gen ≠ u.index.generation ∧ ∃ v selfptr, findTarget M gen u = (.ok [selfptr], v) ∧
      copyStep M gen u = some (copyCurrent u.index v) ∧
      w = installTarget ⟨v.index, (copyCurrent u.index v).2.index, currentPos, [selfptr]⟩
        (copyCurrent u.index v).2 ∧
      rollbackWrites M gen currentPos u
        = if (rollbackDp w).1 ≠ 0 then rollbackDp w else rollbackIp (rollbackDp w).2 := by
  unfold secondWrite at h
  by_cases hgen : gen = u.index.generation
  · rw [if_pos hgen] at h
    cases h
  · rw [if_neg hgen] at h
    refine ⟨hgen, ?_⟩
    unfold copyStep rollbackWrites copyAndRollBack rollbackTo
    generalize findTarget M gen u = found at h ⊢
    obtain ⟨list, v⟩ := found
    match list with
    | .error ret => cases h
    | .ok [] => cases h
    | .ok (_ :: _ :: _) => cases h
    | .ok [selfptr] =>
      dsimp only at h ⊢
      by_cases hrefused : indexRefusal v < 0
      · rw [if_pos hrefused] at h
        cases h
      · rw [if_neg hrefused] at h
        by_cases hrefused' : indexRefusal (copyCurrent u.index v).2 < 0
        · rw [if_pos hrefused'] at h
          cases h
        · rw [if_neg hrefused'] at h
          by_cases hpart : selfptr.partition = some .ip ∨ selfptr.partition = some .dp
          · rw [if_pos hpart] at h
            cases h
            refine ⟨v, selfptr, rfl, ?_, rfl, ?_⟩
            · rw [if_neg hgen, if_neg hrefused]
            · rw [if_neg hrefused, if_neg hrefused', if_pos hpart]
              rfl
          · rw [if_neg hpart] at h
            cases h

/-- Where it is not reached the rollback fails, and nothing is written behind the copy. -/
theorem secondWrite_none (h : secondWrite M gen currentPos u = none)
    (hgen : gen ≠ u.index.generation) :
    Fails (rollbackWrites M gen currentPos u).1 ∧ ∀ c, copyStep M gen u = some c →
      (rollbackWrites M gen currentPos u).2.written = c.2.written := by
  have herror := (findTarget_spec M gen u).2.1
  unfold secondWrite at h
  rw [if_neg hgen] at h
  unfold copyStep rollbackWrites copyAndRollBack rollbackTo
  rw [if_neg hgen]
  generalize findTarget M gen u = found at h herror ⊢
  obtain ⟨list, v⟩ := found
  match list with
  | .error ret =>
    refine ⟨herror ret rfl, ?_⟩
    intro c hc
    cases hc
  | .ok list =>
    dsimp only at h ⊢
    by_cases hrefused : indexRefusal v < 0
    · rw [if_pos hrefused, if_pos hrefused]
      exact ⟨operationalError_fails, fun c hc => by cases hc⟩
    · rw [if_neg hrefused, if_neg hrefused]
      match list with
      | [] =>
        refine ⟨operationalError_fails, ?_⟩
        intro c hc
        cases hc
        rfl
      | _ :: _ :: _ =>
        refine ⟨operationalError_fails, ?_⟩
        intro c hc
        cases hc
        rfl
      | [selfptr] =>
        dsimp only at h ⊢
        rw [if_neg hrefused] at h
        by_cases hrefused' : indexRefusal (copyCurrent u.index v).2 < 0
        · rw [if_pos hrefused']
          refine ⟨operationalError_fails, ?_⟩
          intro c hc
          cases hc
          rfl
        · rw [if_neg hrefused'] at h ⊢
          by_cases hpart : selfptr.partition = some .ip ∨ selfptr.partition = some .dp
          · rw [if_pos hpart] at h
            cases h
          · rw [if_neg hpart]
            refine ⟨operationalError_fails, ?_⟩
            intro c hc
            cases hc
            rfl

end History


section Safe

variable {T : Type} {M : MediumReader T} {o : MountOptions} {gen : ℕ} {currentPos : TapeOffset}
  {u : Volume T}

/-! ## What is written -/

theorem rollbackPrepared_corrected :
    (rollbackPrepared M o gen currentPos u).1 = ltfsckCorrected ↔
      gen ≠ u.index.generation ∧ ((rollbackWrites M gen currentPos u).1 = 0 ∧
        ∀ ret, (ltfsMount M (mountOptions true o) (rollbackWrites M gen currentPos u).2).1
          ≠ .error ret) ∨
      gen ≠ u.index.generation ∧ (rollbackWrites M gen currentPos u).1 = ltfsckCorrected := by
  unfold rollbackPrepared
  by_cases hgen : gen = u.index.generation
  · rw [if_pos hgen]
    constructor
    · intro h
      exact absurd h (by show ¬ ltfsckNoErrors = ltfsckCorrected; decide)
    · rintro (⟨h, -⟩ | ⟨h, -⟩)
      · exact absurd hgen h
      · exact absurd hgen h
  · rw [if_neg hgen]
    dsimp only
    by_cases hzero : (rollbackWrites M gen currentPos u).1 = 0
    · rw [if_pos hzero]
      generalize (ltfsMount M (mountOptions true o) (rollbackWrites M gen currentPos u).2).1 = m
      cases m with
      | error ret =>
        constructor
        · intro h
          exact absurd h (by show ¬ ltfsckUncorrected = ltfsckCorrected; decide)
        · rintro (⟨-, -, h⟩ | ⟨-, h⟩)
          · exact absurd rfl (h ret)
          · rw [hzero] at h
            exact absurd h (by decide)
      | ok x =>
        exact ⟨fun _ => .inl ⟨hgen, hzero, fun _ h => by cases h⟩, fun _ => rfl⟩
    · rw [if_neg hzero]
      constructor
      · exact fun h => .inr ⟨hgen, h⟩
      · rintro (⟨-, h, -⟩ | ⟨-, h⟩)
        · exact absurd h hzero
        · exact h

/-- The volume before the second write is ready for it. -/
theorem secondWrite_ok (hcons : ConsistentVolume M currentPos u) {w : Volume T}
    (h : secondWrite M gen currentPos u = some w) : w.dev.Ok := by
  obtain ⟨-, v, selfptr, hfind, -, hw, -⟩ := secondWrite_some h
  have hcopied := copied hcons hfind
  have hle := hcons.ends.le
  have hip : (copyCurrent u.index v).2.dev.eod .ip = (u.dev.medium .ip).length := by
    unfold Device.eod
    rw [hcopied.ip]
  rw [hw]
  constructor
  · exact hcopied.okAfter.posOk
  · intro q
    have hq := hcopied.okAfter.appendPos_le q
    show (Function.update (copyCurrent u.index v).2.dev.appendPos .ip (currentPos.block - 1)) q ≤
      (copyCurrent u.index v).2.dev.eod q
    cases q with
    | ip =>
      rw [Function.update_self, hip]
      omega
    | dp =>
      rw [Function.update_of_ne (by decide)]
      exact hq

/-- The tree of the target, and its own old place or that of its predecessor. -/
theorem secondWrite_target {w : Volume T} (h : secondWrite M gen currentPos u = some w) :
    ∃ p start target, TargetAt M gen u.dev.medium target p start ∧ w.index.root = target.root ∧
      w.nextBackptr = if p = .dp then ⟨some p, start⟩ else target.backptr := by
  obtain ⟨-, v, selfptr, hfind, -, hw, -⟩ := secondWrite_some h
  have hfound := (findTarget_spec M gen u).2.2 [selfptr]
  rw [hfind] at hfound
  rcases hfound rfl with hnil | ⟨p, start, htarget, -⟩
  · cases hnil
  · dsimp only at htarget
    have hself : w.index.selfptr = ⟨some p, start⟩ := by
      rw [hw]
      exact htarget.selfptr
    refine ⟨p, start, v.index, htarget, by rw [hw]; rfl, ?_⟩
    unfold Volume.nextBackptr
    rw [hself]
    cases p with
    | dp => rfl
    | ip =>
      rw [if_neg (by simp), if_neg (by decide), hw]
      rfl

/-- An index has a block, which is not the file mark at the end of its partition. -/
theorem TargetAt.before_end {medium : Partition → List (Record T)} {index : Index T} {p : Partition}
    {start s : ℕ} (h : TargetAt M gen medium index p start)
    (hends : CheckMedium.EndsIn M p (medium p) s) : start + 2 ≤ (medium p).length := by
  -- nothing is no document
  have hne : region (medium p) start ≠ [] := by
    intro hnil
    obtain ⟨endFm, hparsed⟩ := h.valid.1
    have hparse : (M.reader false (medium p)).parse start = M.parse [] := congrArg M.parse hnil
    unfold XmlTape.parseResult XmlTape.recoverConflicts at hparsed
    rw [hparse, if_neg (by simp [MediumReader.reader])] at hparsed
    cases hfailure : (M.parse []).failure with
    | none => exact M.parse_nil hfailure
    | some code =>
      rw [hfailure] at hparsed
      cases hparsed
  have hfirst : ∃ r, (medium p)[start]? = some r ∧ r.isFm = false := by
    unfold region at hne
    cases hdrop : (medium p).drop start with
    | nil =>
      rw [hdrop] at hne
      exact absurd rfl hne
    | cons r rest =>
      refine ⟨r, ?_, ?_⟩
      · rw [← Nat.add_zero start, ← List.getElem?_drop, hdrop]
        rfl
      · by_contra hfm
        rw [Bool.not_eq_false] at hfm
        rw [hdrop, List.takeWhile_cons_of_neg (by rw [hfm]; decide)] at hne
        exact hne rfl
  obtain ⟨r, hr, hfm⟩ := hfirst
  have hlt := (List.getElem?_eq_some_iff.mp hr).1
  have hlast := hends.ends.last
  by_contra hnot
  rw [show (medium p).length - 1 = start by omega, CheckMedium.fmAt_eq_true, hr] at hlast
  cases hlast
  cases hfm

/-- The back pointer of the target on the data partition, if there is one, is an old one. -/
theorem rolled_backptr (hcons : ConsistentVolume M currentPos u) {w : Volume T}
    (h : secondWrite M gen currentPos u = some w) :
    w.nextBackptr.partition = none ∨ w.nextBackptr.partition = some .dp ∧
      5 ≤ w.nextBackptr.block ∧ w.nextBackptr.block + 2 ≤ u.dev.eod .dp := by
  obtain ⟨p, start, target, htarget, -, hback⟩ := secondWrite_target h
  rw [hback]
  cases p with
  | dp =>
    obtain ⟨s, -, hends⟩ := hcons.endsDp
    exact .inr ⟨rfl, htarget.content, htarget.before_end hends⟩
  | ip =>
    rw [if_neg (by decide)]
    have hcheck := htarget.valid.2
    have hindex : ((M.reader false (u.dev.medium .ip)).parse start).index = target :=
      htarget.index_eq.symm
    unfold XmlTape.checkIndex at hcheck
    rw [hindex] at hcheck
    simp only [Bool.and_eq_true, Bool.not_eq_true', decide_eq_false_iff_not, not_and_or,
      not_not] at hcheck
    obtain ⟨⟨⟨-, hpartition⟩, -⟩, hblock⟩ := hcheck
    rcases hpartition with hnone | hdp
    · exact .inl hnone
    · right
      refine ⟨hdp, ?_, ?_⟩
      · rcases hblock with hnone | hge
        · rw [hdp] at hnone
          cases hnone
        · exact not_lt.mp hge
      · have hold := hcons.backptr .ip start htarget.present
        rw [← htarget.index_eq] at hold
        exact hold hdp

/-- What is on the data partition after the second write. -/
theorem rolled_medium (hcons : ConsistentVolume M currentPos u) {w : Volume T}
    (h : secondWrite M gen currentPos u = some w) (hzero : (rollbackDp w).1 = 0) :
    IndexDone .dp { w with dev := w.dev.tick } (rollbackDp w).2 ∧ (rollbackDp w).2.dev.Ok ∧
      (rollbackWrites M gen currentPos u).2.dev.medium .dp
        = (w.dev.medium .dp).take (w.dev.appendBlock .dp) ++ w.newImage .dp := by
  have hok := secondWrite_ok hcons h
  obtain ⟨-, -, -, -, -, -, hwrites⟩ := secondWrite_some h
  have hok' : (rollbackDp w).2.dev.Ok := rollbackPartition_ok .dp hok
  rcases (rollbackDp_cases hok).2 with ⟨-, hdone⟩ | ⟨hfail, -⟩
  · refine ⟨hdone, hok', ?_⟩
    rw [hwrites, if_neg (not_not_intro hzero), rollbackIp_dp hdone hok']
    exact hdone.medium
  · rw [hzero] at hfail
    cases hfail

/-- Where the target has been written to the data partition the history is not kept: the back pointer
does not name the copy. -/
theorem not_historyKept (hcons : ConsistentVolume M currentPos u) {w w' : Volume T}
    (h : secondWrite M gen currentPos u = some w) (hzero : (rollbackDp w).1 = 0)
    (hsame : w'.dev.medium .dp = (rollbackWrites M gen currentPos u).2.dev.medium .dp) :
    ¬ HistoryKept M gen u w' := by
  obtain ⟨-, -, hmedium⟩ := rolled_medium hcons h hzero
  rintro ⟨copy, rolled, n, n', -, hn', hkept, -, -, -, -, hbackptr⟩
  rw [hsame, hmedium] at hkept
  have hrolled : w.newIndex .dp = rolled := indexImage_last (Nat.succ_pos _) hn' hkept
  have hold : rolled.backptr = w.nextBackptr := congrArg Index.backptr hrolled.symm
  rw [hbackptr] at hold
  rcases rolled_backptr hcons h with hnone | ⟨-, -, hblock⟩
  · rw [← hold] at hnone
    cases hnone
  · rw [← hold] at hblock
    dsimp only at hblock
    omega

/-- The second write is one more index. -/
theorem rolled_written (hcons : ConsistentVolume M currentPos u) {w : Volume T}
    (h : secondWrite M gen currentPos u = some w) (hzero : (rollbackDp w).1 = 0) :
    w.written.length < (rollbackWrites M gen currentPos u).2.written.length := by
  obtain ⟨hdone, hok', -⟩ := rolled_medium hcons h hzero
  obtain ⟨-, -, -, -, -, -, hwrites⟩ := secondWrite_some h
  have hlength : w.written.length + 1 ≤ (rollbackDp w).2.written.length := by
    rw [hdone.written, List.length_append]
    exact Nat.le_refl _
  rw [hwrites, if_neg (not_not_intro hzero)]
  exact (rollbackPartition_grown .ip ⟨hok', hlength⟩).written

/-- A write to the data partition that succeeded. -/
theorem rollbackDp_done {v : Volume T} (hok : v.dev.Ok) (hzero : (rollbackDp v).1 = 0) :
    IndexDone .dp { v with dev := v.dev.tick } (rollbackDp v).2 := by
  rcases (rollbackDp_cases hok).2 with ⟨-, hdone⟩ | ⟨hfail, -⟩
  · exact hdone
  · rw [hzero] at hfail
    cases hfail

/-- The same for the index partition, right after the data partition. -/
theorem rollbackIp_done {v w : Volume T} (hdone : IndexDone .dp v w) (hok : w.dev.Ok)
    (hzero : (rollbackIp w).1 = 0) :
    IndexDone .ip { w with dev := w.dev.tick } (rollbackIp w).2 := by
  rcases CheckMedium.writeIndex_ip_direct hok (needsDpIndex_of_done hdone) with ⟨-, hip⟩ | ⟨hne, -⟩
  · exact hip
  · -- the code of a failed write is negative
    have hneg : (writeIndex .ip false w).1 < 0 := lt_of_le_of_ne (writeIndex_le .ip false hok) hne
    unfold rollbackIp rollbackPartition at hzero
    dsimp only at hzero
    rw [if_pos hneg] at hzero
    exact absurd hzero operationalError_fails.ne.1

/-- Whether the write succeeds or not, the next index of the data partition does not go before this
one. -/
theorem rollbackDp_appendBlock {v : Volume T} (hok : v.dev.Ok) :
    v.dev.appendBlock .dp ≤ (rollbackDp v).2.dev.appendBlock .dp := by
  have hrule : (rollbackDp v).2.dev.Ok ∧
      v.dev.appendBlock .dp ≤ (rollbackDp v).2.dev.appendBlock .dp := by
    refine writeIndex_invariant
      (P := fun x => x.dev.Ok ∧ v.dev.appendBlock .dp ≤ x.dev.appendBlock .dp)
      ?_ ?_ ?_ .dp false ⟨hok, le_refl _⟩
    · intro x x' hq h
      refine ⟨hq.tape.ok h.1, ?_⟩
      rw [hq.tape.appendBlock]
      exact h.2
    · intro q x h
      rcases clearWritePerm_partly h.1 q with ⟨hbeside, htape⟩
      refine ⟨hbeside.ok h.1 htape.posOk htape.appendPos_le, h.2.trans ?_⟩
      cases q with
      | ip => exact (hbeside.appendBlock (by decide)).ge
      | dp => exact htape.start_le
    · intro q writePerm volstat x h
      rcases writeIndexHere_result q writePerm volstat h.1 with ⟨-, hf⟩ | ⟨-, hd⟩
      · refine ⟨hf.ok h.1, h.2.trans ?_⟩
        cases q with
        | ip => exact (hf.beside.appendBlock (by decide)).ge
        | dp => exact hf.tape.start_le
      · refine ⟨hd.ok h.1, h.2.trans ?_⟩
        cases q with
        | ip => exact (hd.beside.appendBlock (by decide)).ge
        | dp =>
          have happend : (writeIndexHere .dp writePerm volstat x).2.dev.appendPos .dp
              = x.dev.appendBlock .dp + (x.newImage .dp).length := hd.appendPos
          have hle := hd.start_le
          have heod := hd.eod
          show _ ≤ if (writeIndexHere .dp writePerm volstat x).2.dev.appendPos .dp = 0 then
            (writeIndexHere .dp writePerm volstat x).2.dev.eod .dp
            else (writeIndexHere .dp writePerm volstat x).2.dev.appendPos .dp
          rw [happend]
          split
          · omega
          · omega
  exact hrule.2

/-- The target goes behind everything that was on the data partition. -/
theorem secondWrite_append (hcons : ConsistentVolume M currentPos u) {w : Volume T}
    (h : secondWrite M gen currentPos u = some w) : u.dev.eod .dp ≤ w.dev.appendBlock .dp := by
  obtain ⟨-, v, selfptr, hfind, -, hw, -⟩ := secondWrite_some h
  obtain ⟨hlooked, hok, -, -, -⟩ := copied hcons hfind
  have heod : (install u.index v).dev.eod .dp = u.dev.eod .dp :=
    congrArg (fun m => (m Partition.dp).length) hlooked.medium
  have hbefore : (install u.index v).dev.appendBlock .dp = u.dev.eod .dp := by
    rw [← heod]
    unfold Device.appendBlock
    rcases hlooked.appendsDp hcons.appendsDp with happend | happend
    · exact if_pos happend
    · rw [show (install u.index v).dev.appendPos .dp = (install u.index v).dev.eod .dp from happend,
        ite_self]
  have hafter := rollbackDp_appendBlock hok
  rw [hbefore] at hafter
  rw [hw]
  exact hafter

/-! ## The mount at the end -/

/-- A rollback that returns `LTFSCK_CORRECTED` has written the target to both partitions. -/
theorem corrected_writes (hcons : ConsistentVolume M currentPos u)
    (hret : (rollbackPrepared M o gen currentPos u).1 = ltfsckCorrected) :
    ∃ w, secondWrite M gen currentPos u = some w ∧ (rollbackDp w).1 = 0 ∧
      (rollbackIp (rollbackDp w).2).1 = 0 ∧
      rollbackWrites M gen currentPos u = rollbackIp (rollbackDp w).2 := by
  rw [rollbackPrepared_corrected] at hret
  have hgen : gen ≠ u.index.generation := by
    rcases hret with ⟨hgen, -⟩ | ⟨hgen, -⟩
    · exact hgen
    · exact hgen
  have hwrites : (rollbackWrites M gen currentPos u).1 = 0 ∨
      (rollbackWrites M gen currentPos u).1 = ltfsckCorrected := by
    rcases hret with ⟨-, hzero, -⟩ | ⟨-, hone⟩
    · exact .inl hzero
    · exact .inr hone
  cases hsecond : secondWrite M gen currentPos u with
  | none =>
    obtain ⟨hne, hne'⟩ := (secondWrite_none hsecond hgen).1.ne
    rcases hwrites with hzero | hone
    · exact absurd hzero hne
    · exact absurd hone hne'
  | some w =>
    have hok := secondWrite_ok hcons hsecond
    obtain ⟨-, v, selfptr, -, -, -, heq⟩ := secondWrite_some hsecond
    rcases (rollbackDp_cases hok).2 with ⟨hzero, -⟩ | ⟨herror, -⟩
    · rw [if_neg (not_not_intro hzero)] at heq
      rw [heq] at hwrites
      have hok' : (rollbackDp w).2.dev.Ok := rollbackPartition_ok .dp hok
      rcases rollbackIp_le hok' with hip | hip
      · exact ⟨w, rfl, hzero, hip, heq⟩
      · -- neither of the two codes is that of a failure
        rw [hip] at hwrites
        rcases hwrites with h | h
        · exact absurd h (by decide)
        · exact absurd h (by decide)
    · rw [heq, if_pos (by rw [herror]; exact operationalError_fails.ne.1), herror] at hwrites
      rcases hwrites with h | h
      · exact absurd h (by decide)
      · exact absurd h (by decide)

/-- The index partition is written from the block of the current index on, with the last index of the
data partition as the back pointer. -/
theorem rolledIp_medium (hcons : ConsistentVolume M currentPos u) {w : Volume T}
    (h : secondWrite M gen currentPos u = some w) (hdp : (rollbackDp w).1 = 0)
    (hip : (rollbackIp (rollbackDp w).2).1 = 0) :
    ∃ n, 0 < n ∧ (rollbackIp (rollbackDp w).2).2.dev.medium .ip
      = (u.dev.medium .ip).take (currentPos.block - 1) ++ indexImage n
        { (rollbackDp w).2.index with
          selfptr := ⟨some .ip, currentPos.block⟩
          backptr := (rollbackDp w).2.index.selfptr } := by
  have hok := secondWrite_ok hcons h
  obtain ⟨-, v, selfptr, hfind, -, hinstall, -⟩ := secondWrite_some h
  have htarget := rollbackDp_done hok hdp
  have hlast := rollbackIp_done htarget (rollbackPartition_ok .dp hok) hip
  have hself : (rollbackDp w).2.index.selfptr.partition = some .dp := by
    rw [htarget.index]
    rfl
  have hcontent := hcons.content
  -- the append position that `rollback` has set
  have hblock : (rollbackDp w).2.dev.appendBlock .ip = currentPos.block - 1 := by
    have happend : (rollbackDp w).2.dev.appendPos .ip = currentPos.block - 1 := by
      rw [htarget.beside.appendPos .ip (by decide), hinstall]
      rfl
    unfold Device.appendBlock
    rw [happend, if_neg (by omega)]
  have hnext : Volume.newIndex { (rollbackDp w).2 with dev := (rollbackDp w).2.dev.tick } .ip
      = { (rollbackDp w).2.index with
          selfptr := ⟨some .ip, currentPos.block⟩
          backptr := (rollbackDp w).2.index.selfptr } := by
    unfold Volume.newIndex Volume.nextGeneration Volume.nextBackptr
    dsimp only
    rw [htarget.dirty, if_neg (by decide), if_pos hself,
      show Device.appendBlock (rollbackDp w).2.dev.tick .ip = currentPos.block - 1 from hblock,
      show currentPos.block - 1 + 1 = currentPos.block by omega]
  have hbefore : (rollbackDp w).2.dev.medium .ip = u.dev.medium .ip := by
    rw [(rollbackDp_cases hok).1, hinstall]
    exact (copied hcons hfind).ip
  refine ⟨(rollbackDp w).2.blocksOf
    (Volume.newIndex { (rollbackDp w).2 with dev := (rollbackDp w).2.dev.tick } .ip),
    Nat.succ_pos _, ?_⟩
  rw [hlast.medium, ← hbefore, ← hnext, ← hblock]
  rfl

/-- The data partition ends in the target. -/
theorem rolled_endsDp (hcons : ConsistentVolume M currentPos u) {w : Volume T}
    (h : secondWrite M gen currentPos u = some w) (hdp : (rollbackDp w).1 = 0)
    (hsize : (rollbackDp w).2.dev.eod .dp < 2 ^ 64) :
    CheckMedium.EndsInDoc .dp ((rollbackDp w).2.dev.medium .dp) (rollbackDp w).2.index := by
  have hok := secondWrite_ok hcons h
  have htarget := rollbackDp_done hok hdp
  have hlabel : 4 ≤ u.dev.eod .dp := by
    obtain ⟨s, hs, hends⟩ := hcons.endsDp
    have hlt := hends.ends.lt
    unfold Device.eod
    omega
  have happend := secondWrite_append hcons h
  have htake : ((w.dev.medium .dp).take (w.dev.appendBlock .dp)).length = w.dev.appendBlock .dp :=
    List.length_take_of_le (hok.appendBlock_le .dp)
  have hindex : (rollbackDp w).2.index = w.newIndex .dp := htarget.index
  have hself : (w.newIndex .dp).selfptr = ⟨some .dp, w.dev.appendBlock .dp + 1⟩ := rfl
  have hmedium : (rollbackDp w).2.dev.medium .dp = (w.dev.medium .dp).take (w.dev.appendBlock .dp) ++
      indexImage (w.blocksOf (w.newIndex .dp)) (w.newIndex .dp) := htarget.medium
  rw [hindex]
  refine ⟨⟨(w.dev.medium .dp).take (w.dev.appendBlock .dp), w.blocksOf (w.newIndex .dp), hmedium,
    Nat.succ_pos _, ?_, ?_⟩, ?_⟩
  · rw [htake]
    exact hlabel.trans happend
  · rw [htake]
    exact hself
  · rcases rolled_backptr hcons h with hnone | ⟨hpartition, hge, hblock⟩
    · exact .inl hnone
    · have hlength := congrArg List.length hmedium
      rw [List.length_append, htake, length_indexImage] at hlength
      unfold Device.eod at hsize
      refine .inr ⟨hpartition, hge, fun _ => ?_⟩
      rw [hself]
      show w.nextBackptr.block + 2 < w.dev.appendBlock .dp + 1 ∧ w.dev.appendBlock .dp + 1 < 2 ^ 64
      omega

/-- The medium is consistent again. -/
theorem rolled_consistent (hcons : ConsistentVolume M currentPos u) {w : Volume T}
    (h : secondWrite M gen currentPos u = some w) (hdp : (rollbackDp w).1 = 0)
    (hip : (rollbackIp (rollbackDp w).2).1 = 0)
    (hsize : (rollbackIp (rollbackDp w).2).2.dev.eod .dp < 2 ^ 64) :
    ∃ ip, CheckMedium.ConsistentMedium (rollbackIp (rollbackDp w).2).2.dev.medium ip
      (rollbackDp w).2.index := by
  have hok := secondWrite_ok hcons h
  have hmedium := rollbackIp_dp (rollbackDp_done hok hdp) (rollbackPartition_ok .dp hok)
  unfold Device.eod at hsize
  rw [hmedium] at hsize
  have hendsDp := rolled_endsDp hcons h hdp hsize
  obtain ⟨n, hn, hmediumIp⟩ := rolledIp_medium hcons h hdp hip
  have hcontent := hcons.content
  have htake : ((u.dev.medium .ip).take (currentPos.block - 1)).length = currentPos.block - 1 := by
    have hle := hcons.ends.le
    rw [List.length_take]
    omega
  rw [← hmedium] at hendsDp
  refine ⟨_, ⟨⟨(u.dev.medium .ip).take (currentPos.block - 1), n, hmediumIp, hn, ?_, ?_⟩, ?_⟩,
    hendsDp, rfl, le_refl _⟩
  · omega
  · dsimp only
    rw [htake, show currentPos.block - 1 + 1 = currentPos.block by omega]
  · obtain ⟨before, _, -, -, hlabel, hself⟩ := hendsDp.image
    refine .inr ⟨?_, ?_, fun hne => absurd hne (by decide)⟩
    · dsimp only
      rw [hself]
    · dsimp only
      rw [hself]
      dsimp only
      omega

/-- So the mount at the end of a rollback has nothing to do, and what `rollback` has written is what
it leaves. -/
theorem corrected_medium (hreads : M.ReadsOn) (hcons : ConsistentVolume M currentPos u)
    (hsize : (rollbackWrites M gen currentPos u).2.dev.eod .dp < 2 ^ 64)
    (hret : (rollbackPrepared M o gen currentPos u).1 = ltfsckCorrected) :
    (rollbackPrepared M o gen currentPos u).2.dev.medium
      = (rollbackWrites M gen currentPos u).2.dev.medium := by
  obtain ⟨w, hsecond, hdp, hip, hwrites⟩ := corrected_writes hcons hret
  rw [hwrites] at hsize
  obtain ⟨ip, hconsistent⟩ := rolled_consistent hcons hsecond hdp hip hsize
  rw [← hwrites] at hconsistent hip
  rw [rollbackPrepared_corrected] at hret
  rcases hret with ⟨hgen, -, hmount⟩ | ⟨-, hone⟩
  · have hok : (ltfsMount M (mountOptions true o) (rollbackWrites M gen currentPos u).2).1
        = .ok () := by
      cases hm : (ltfsMount M (mountOptions true o) (rollbackWrites M gen currentPos u).2).1 with
      | error ret => exact absurd hm (hmount ret)
      | ok x => rfl
    unfold rollbackPrepared
    rw [if_neg hgen]
    dsimp only
    rw [if_pos hip]
    exact CheckMedium.ltfsMount_untouched hreads rfl rfl hconsistent hok
  · rw [hip] at hone
    exact absurd hone (by decide)

/-! ## When the history is kept -/

theorem rollback_prepared {v : Volume T} (hprepare : prepare M o v = (.ok currentPos, u)) :
    rollback M o gen v = rollbackPrepared M o gen currentPos u := by
  unfold rollback
  rw [hprepare]

theorem rollbackDp_zero_iff {v : Volume T} (hok : v.dev.Ok) :
    (rollbackDp v).1 = 0 ↔ IndexWritable .dp v := by
  rw [← writeIndexFlat_zero_iff hok, ← CheckMedium.writeIndex_dp]
  unfold rollbackDp rollbackPartition
  dsimp only
  by_cases hneg : (writeIndex .dp false v).1 < 0
  · rw [if_pos hneg]
    constructor
    · exact fun h => absurd h operationalError_fails.ne.1
    · exact fun h => absurd h (ne_of_lt hneg)
  · rw [if_neg hneg]

end Safe


section Appends

variable {T : Type} {M : MediumReader T} {o : MountOptions} {gen : ℕ} {currentPos : TapeOffset}
  {u : Volume T}

/-! ## What a rollback adds -/

/-- A write to the data partition where the next index goes to the end: what is there stays. -/
theorem rollbackDp_appends {v : Volume T} (hok : v.dev.Ok) (hzero : (rollbackDp v).1 = 0)
    (happend : v.dev.appendBlock .dp = v.dev.eod .dp) :
    (rollbackDp v).2.index = { v.newIndex .dp with selfptr := ⟨some .dp, v.dev.eod .dp + 1⟩ } ∧
    (∃ n, 0 < n ∧ (rollbackDp v).2.dev.medium .dp
      = v.dev.medium .dp ++ indexImage n (rollbackDp v).2.index) ∧
    (rollbackDp v).2.dev.appendBlock .dp = (rollbackDp v).2.dev.eod .dp := by
  have hdone := rollbackDp_done hok hzero
  have hblock : v.dev.tick.appendBlock .dp = v.dev.eod .dp := happend
  have hindex : (rollbackDp v).2.index
      = { v.newIndex .dp with selfptr := ⟨some .dp, v.dev.eod .dp + 1⟩ } := by
    rw [hdone.index, ← hblock]
    rfl
  have hmedium : (rollbackDp v).2.dev.medium .dp = v.dev.medium .dp ++
      indexImage (v.blocksOf (rollbackDp v).2.index) (rollbackDp v).2.index := by
    have htake : (v.dev.medium .dp).take (v.dev.eod .dp) = v.dev.medium .dp := List.take_length
    rw [hdone.medium, hdone.index, hblock]
    show (v.dev.medium .dp).take (v.dev.eod .dp) ++ _ = _
    rw [htake]
    rfl
  refine ⟨hindex, ⟨_, Nat.succ_pos _, hmedium⟩, ?_⟩
  have hpos : (rollbackDp v).2.dev.appendPos .dp = (rollbackDp v).2.dev.eod .dp := by
    have hlength := congrArg List.length hmedium
    rw [List.length_append] at hlength
    rw [hdone.appendPos]
    show v.dev.tick.appendBlock .dp + _ = ((rollbackDp v).2.dev.medium .dp).length
    rw [hlength, hblock, hdone.index]
    rfl
  unfold Device.appendBlock
  rw [hpos, ite_self]

/-- What a rollback leaves on the tape: all records of the data partition are still there, followed
by a copy of the current index and by the tree of the target, two generations on; and the index
partition ends in the target, with the last index of the data partition as its back pointer. -/
structure Appended (M : MediumReader T) (gen : ℕ) (currentPos : TapeOffset) (u w : Volume T)
    (copy rolled : Index T) : Prop where
  dp : ∃ n n', 0 < n ∧ 0 < n' ∧
    w.dev.medium .dp = u.dev.medium .dp ++ indexImage n copy ++ indexImage n' rolled ∧
    copy.selfptr = ⟨some .dp, u.dev.eod .dp + 1⟩ ∧
    rolled.selfptr = ⟨some .dp, u.dev.eod .dp + (indexImage n copy).length + 1⟩
  copyRoot : copy.root = u.index.root
  copyGeneration : copy.generation = incGeneration u.index.generation
  generation : rolled.generation = incGeneration (incGeneration u.index.generation)
  target : ∃ p start, Present M p (u.dev.medium p) start ∧
    (M.parse (region (u.dev.medium p) start)).index.generation = gen ∧
    rolled.root = (M.parse (region (u.dev.medium p) start)).index.root ∧
    -- the target's own place, or that of its predecessor
    rolled.backptr = if p = .dp then ⟨some p, start⟩
      else (M.parse (region (u.dev.medium p) start)).index.backptr
  ip : ∃ n, 0 < n ∧
    w.dev.medium .ip = (u.dev.medium .ip).take (currentPos.block - 1) ++ indexImage n
      { rolled with selfptr := ⟨some .ip, currentPos.block⟩, backptr := rolled.selfptr }

end Appends


section Example

open CheckMedium (extentReader giveUpExtra noCoherency)

/-! ## A volume of two generations -/

def firstIndex : Index (List ExtentInfo) := ⟨1, ⟨some .dp, 5⟩, ⟨none, 0⟩, []⟩

def secondIndex : Index (List ExtentInfo) :=
  ⟨2, ⟨some .dp, 8⟩, ⟨some .dp, 5⟩, [⟨⟨some .dp, 4⟩, 0, 0, 0⟩]⟩

/-- The data partition has the indexes of generations 1 and 2, the index partition the second one
only. -/
def twoGenerations : Volume (List ExtentInfo) where
  dev :=
    { medium
        | .ip => [.data [0], .fm, .data [0], .fm, .fm,
            .idx ⟨2, ⟨some .ip, 5⟩, ⟨some .dp, 8⟩, secondIndex.root⟩ 0 1, .fm]
        | .dp => [.data [0], .fm, .data [0], .fm, .fm, .idx firstIndex 0 1, .fm,
            .fm, .idx secondIndex 0 1, .fm]
      position := ⟨.ip, 0⟩
      appendPos := fun _ => 0
      partitionSpace := fun _ => .writable
      writeProtected := false
      writeError := false
      readonlyDrive := false
      appendOnlyMode := false
      isWorm := false
      maxBlockSize := 1
      volumeLock := .unlocked
      coherency := fun _ => noCoherency
      volumeChangeRef := 1
      answers := fun _ => .ok false false
      clock := 0 }
  index := ⟨0, ⟨none, 0⟩, ⟨none, 0⟩, []⟩
  dirty := false
  ipIndexFileEnd := false
  dpIndexFileEnd := false
  coherency := fun _ => noCoherency
  uuid := 1
  blocksize := 1
  moreBlocks := fun _ => 0
  lockStatus := .unlocked
  reval := 0
  written := []

/-- The volume as it is mounted before the search. -/
def twoPrepared : Volume (List ExtentInfo) := (prepare extentReader giveUpExtra twoGenerations).2

theorem twoGenerations_prepare :
    prepare extentReader giveUpExtra twoGenerations = (.ok ⟨some .ip, 5⟩, twoPrepared) := rfl

theorem twoPrepared_ip : twoPrepared.dev.medium .ip = twoGenerations.dev.medium .ip := rfl

theorem twoPrepared_dp : twoPrepared.dev.medium .dp = twoGenerations.dev.medium .dp := rfl

theorem twoPrepared_consistent : ConsistentVolume extentReader ⟨some .ip, 5⟩ twoPrepared where
  ok := ⟨by unfold Device.PosOk; decide +kernel, by
    intro p
    cases p
    · decide +kernel
    · decide +kernel⟩
  appendsDp := by
    unfold AppendsDp
    decide +kernel
  place := by decide +kernel
  partition := rfl
  content := le_refl 5
  endsDp := by
    rw [twoPrepared_dp]
    refine ⟨8, by decide, ⟨by decide, ⟨false, false, rfl⟩, rfl, by decide⟩, by decide,
      ⟨by decide, rfl, rfl, ?_⟩⟩
    intro i hi hlt
    have hi : i = 8 := by
      have : i + 1 < 10 := hlt
      have : 7 < i := hi
      omega
    rw [hi]
    rfl
  ends := by
    rw [twoPrepared_ip]
    refine ⟨⟨by decide, ⟨false, false, rfl⟩, rfl, by decide⟩, by decide, ⟨by decide, rfl, rfl, ?_⟩⟩
    intro i hi hlt
    have hi : i = 5 := by
      have : i + 1 < 7 := hlt
      have : 4 < i := hi
      omega
    rw [hi]
    rfl
  newest := by
    rw [twoPrepared_dp]
    rintro b doc ⟨n, h⟩
    have hb : b < 10 := by
      have : b + 1 < 10 := (List.getElem?_eq_some_iff.1 h.first).1
      omega
    have hgen : twoPrepared.index.generation = 2 := by decide +kernel
    have hfirst := h.first
    rw [hgen]
    interval_cases b <;> first | cases hfirst; decide | cases hfirst
  backptr := by
    intro p start hpresent hdp
    cases p
    · rw [twoPrepared_ip] at *
      have hle : start ≤ 7 := hpresent.le
      have hself := hpresent.selfptr
      interval_cases start <;> first | exact absurd hself (by decide) | decide +kernel
    · rw [twoPrepared_dp] at *
      have hle : start ≤ 10 := hpresent.le
      have hself := hpresent.selfptr
      interval_cases start <;> first | exact absurd hself (by decide) | decide +kernel

theorem extentReader_readsOn : extentReader.ReadsOn := by
  intro doc n hn
  obtain ⟨n, rfl⟩ : ∃ k, n = k + 1 := ⟨n - 1, by omega⟩
  unfold CheckMedium.document
  rw [List.range_succ_eq_map]
  show (n + 1) * 1 < [n + 1, 1].sum
  simp

end Example


end Ltfs.Rollback

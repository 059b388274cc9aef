import Ltfs.IndexCommands
import Ltfs.Mount
import Ltfs.RestoreSpec

/-!
# The pointers after a mount

* `PointerOk` — the self pointer names an index at the end of its partition, and the append position
  of the index partition spares the blocks the index refers to and leaves an index.
* `MamSays`, `Checked` — whether the cartridge memory tells which index is the last one, or else what
  the check of the medium finds.
* `TapeSafe` — when the mount leaves such pointers, by what is on the tape.
* `mount_pointers_iff` — in exactly this case, unless the drive fails in the last write or the new
  index is written over lost blocks.
-/

namespace Ltfs.CheckMedium

section IpWrite

variable {T : Type} {M : MediumReader T}

/-! ## Writing the index of the index partition -/

theorem put_refused {dev : Device T} (herr : dev.writeError = true) (recs : List (Record T))
    (size : ℕ) (il ins : Bool) : (put recs size il ins dev).1 < 0 := by
  have hrefusal : writeRefusal size il ins dev < 0 := by
    unfold writeRefusal
    dsimp only
    split
    · decide
    · decide
  unfold put
  dsimp only
  rw [if_pos hrefusal]
  exact hrefusal

theorem seekAppendPosition_writeError {p : Partition} {unlock : Bool} {dev : Device T}
    (herr : dev.writeError = true) : (seekAppendPosition p unlock dev).2.writeError = true := by
  have hnote : ∀ early programmable,
      (dev.tick.noteSpace p early programmable).writeError = true := by
    intro early programmable
    unfold Device.noteSpace
    split
    · exact herr
    · split
      · exact herr
      · exact herr
  have hlocate : ∀ block, (locate p block dev).2.writeError = true := by
    intro block
    unfold locate
    cases dev.answer with
    | error code junk => exact herr
    | ok early programmable =>
      dsimp only
      split
      · exact hnote early programmable
      · exact herr
  have hseek : ∀ block, (tapeSeek p block dev).2.writeError = true := by
    intro block
    unfold tapeSeek
    split
    · exact herr
    · exact hlocate block
  have hset : ∀ (d : Device T), d.writeError = true →
      (if d.appendPos p = 0 then d.setAppendPos p d.position.block else d).writeError = true := by
    intro d hd
    split
    · exact hd
    · exact hd
  unfold seekAppendPosition
  dsimp only
  generalize hb : (if dev.appendPos p = 0 then none else some (dev.appendPos p)) = block
  have hs := hseek block
  generalize tapeSeek p block dev = r at hs
  by_cases hneg : r.1 < 0
  · rw [if_pos hneg]
  · rw [if_neg hneg]
    split
    · apply hset
      cases r.2.answer with
      | error code junk => exact hs
      | ok early programmable => exact hs
    · exact hset _ hs

/-- No index is written when no more writes are allowed. -/
theorem writeIndexHere_refused {p : Partition} {writePerm : Bool} {volstat : VolumeLock}
    {v : Volume T} (herr : v.dev.writeError = true) :
    (writeIndexHere p writePerm volstat v).1 < 0 := by
  have hs := @seekAppendPosition_writeError T p (decide (p = .ip)) v.dev herr
  unfold writeIndexHere
  dsimp only
  generalize seekAppendPosition p (decide (p = .ip)) v.dev = s at hs
  by_cases hsneg : s.1 < 0
  · rw [if_pos hsneg]
    exact outWritePerm_neg _ _ _ _ hsneg _
  · rw [if_neg hsneg]
    have hw : ∀ flush n (index : Index T),
        (writeIndexRecords flush v.blocksize n index s.2).1 < 0 := by
      intro flush n index
      unfold writeIndexRecords
      cases flush with
      | true =>
        have hneg := put_refused hs (List.replicate 0 .fm) 0 true true
        rw [if_pos rfl]
        exact (if_pos hneg).symm ▸ hneg
      | false =>
        have hneg := put_refused hs (List.replicate 1 .fm) 0 true true
        rw [if_neg Bool.false_ne_true, if_neg (lt_irrefl 0)]
        exact (if_pos hneg).symm ▸ hneg
    rw [if_pos (hw _ _ _)]
    exact outWritePerm_neg _ _ _ _ (hw _ _ _) _

/-- After a write that was allowed once more, no other is. -/
theorem writeIndexHere_writePerm {p : Partition} {volstat : VolumeLock} {v : Volume T} :
    (writeIndexHere p true volstat v).2.dev.writeError = true := by
  unfold writeIndexHere
  dsimp only
  split
  · rw [outWritePerm_writeError]
    rfl
  · split
    · rw [outWritePerm_writeError]
      rfl
    · rw [outWritePerm_writeError]
      rfl

/-- A nested write to the data partition that does not stop the other one leaves an index there. -/
theorem nested_present {u : Volume T} (hok : u.dev.Ok) (happend : u.dev.appendPos .dp = 0)
    {start : ℕ} (hdp : Present M .dp (u.dev.medium .dp) start)
    (hreval : ¬ needReval (writeIndexFlat .dp false u).1 = true)
    (herr : ¬ (writeIndexFlat .dp false u).2.dev.writeError = true) :
    let d := (writeIndexFlat .dp false u).2
    d.dev.Ok ∧ d.index.root = u.index.root ∧ d.dev.isWorm = u.dev.isWorm ∧
      d.dev.medium .ip = u.dev.medium .ip ∧ d.dev.appendPos .ip = u.dev.appendPos .ip ∧
      ∃ s, Present M .dp (d.dev.medium .dp) s := by
  intro d
  have hdev := getCartVolumeLockStatus_dev u.dev
  have hok' : u.dev.tick.Ok := (tick_same u.dev).ok hok
  have hquiet : ({ u with dev := u.dev.tick } : Volume T).dev.Ok ∧ u.index.root = u.index.root ∧
      u.dev.tick.isWorm = u.dev.isWorm ∧ u.dev.tick.medium .ip = u.dev.medium .ip ∧
      u.dev.tick.appendPos .ip = u.dev.appendPos .ip ∧
      ∃ s, Present M .dp (u.dev.tick.medium .dp) s := ⟨hok', rfl, rfl, rfl, rfl, start, hdp⟩
  have hd : d = (writeIndexFlat .dp false u).2 := rfl
  clear_value d
  unfold writeIndexFlat at hreval herr hd
  rcases hcart : getCartVolumeLockStatus u.dev with ⟨ret | volstat, dev⟩
  · rw [hcart] at hdev hd
    subst hdev
    rw [hd]
    exact hquiet
  · rw [hcart] at hdev hd hreval herr
    subst hdev
    dsimp only at hd hreval herr
    rw [if_neg Bool.false_ne_true] at hd hreval herr
    by_cases hrefused : indexRefusal { u with dev := u.dev.tick } < 0
    · rw [if_pos hrefused] at hd
      rw [hd]
      exact hquiet
    · rw [if_neg hrefused] at hd hreval herr
      rw [hd]
      rcases @writeIndexHere_result T .dp false volstat { u with dev := u.dev.tick } hok' with
        ⟨hneg, hfailed⟩ | ⟨-, hdone⟩
      · refine ⟨hfailed.ok hok', by rw [hfailed.index], hfailed.beside.isWorm,
          hfailed.beside.medium .ip (by decide), hfailed.beside.appendPos .ip (by decide), start, ?_⟩
        rcases @writeIndexHere_halted T { u with dev := u.dev.tick } hok' volstat hneg with
          h | h | ⟨n, hmedium⟩
        · exact absurd h hreval
        · exact absurd h herr
        · rw [hmedium]
          by_cases hnone : (Volume.newImage { u with dev := u.dev.tick } .dp).take n = []
          · rw [if_pos hnone]
            exact hdp
          · -- what is there begins with a file mark
            rw [if_neg hnone]
            have hblock : u.dev.tick.appendBlock .dp = (u.dev.medium .dp).length := by
              unfold Device.appendBlock
              exact if_pos happend
            obtain ⟨n, rfl⟩ : ∃ k, n = k + 1 := by
              cases n with
              | zero => exact absurd List.take_zero hnone
              | succ k => exact ⟨k, rfl⟩
            show Present M .dp ((u.dev.medium .dp).take (u.dev.tick.appendBlock .dp) ++
              (indexImage _ _).take (n + 1)) start
            rw [hblock, List.take_length, indexImage_eq, List.take_succ_cons]
            refine hdp.of_region (region_append_fm hdp.le _) (hdp.le.trans ?_)
            rw [List.length_append]
            exact Nat.le_add_right _ _
      · refine ⟨hdone.ok hok', by rw [hdone.index]; rfl, hdone.beside.isWorm,
          hdone.beside.medium .ip (by decide), hdone.beside.appendPos .ip (by decide),
          Device.appendBlock u.dev.tick .dp + 1, ?_⟩
        rw [hdone.medium]
        exact (endsIn_indexImage hdone.start_le (Nat.succ_pos _) rfl).toPresent

/-- What a write of the index to the end of data of the index partition leaves. -/
theorem writeIndex_ip_behind {u : Volume T} (hok : u.dev.Ok) (happend : ∀ p, u.dev.appendPos p = 0)
    {start : ℕ} (hdp : Present M .dp (u.dev.medium .dp) start)
    (hret : (writeIndex .ip false u).1 = 0)
    (hwritable : ¬ (writeIndex .ip false u).2.dev.writeError = true) :
    ∃ u₁, IndexDone .ip u₁ (writeIndex .ip false u).2 ∧ u₁.index.root = u.index.root ∧
      u₁.dev.appendBlock .ip = u.dev.eod .ip ∧ u₁.dev.isWorm = u.dev.isWorm ∧
      ∃ s, Present M .dp (u₁.dev.medium .dp) s := by
  have hdev := getCartVolumeLockStatus_dev u.dev
  have hok' : u.dev.tick.Ok := (tick_same u.dev).ok hok
  -- the append position of the index partition is at the end of data
  have hblock : ∀ dev : Device T, dev.medium .ip = u.dev.medium .ip →
      dev.appendPos .ip = u.dev.appendPos .ip → dev.appendBlock .ip = u.dev.eod .ip := by
    intro dev hm ha
    unfold Device.appendBlock Device.eod
    rw [if_pos (ha.trans (happend .ip)), hm]
  unfold writeIndex at hret hwritable ⊢
  rw [if_neg (by simp)] at hret hwritable ⊢
  rcases hcart : getCartVolumeLockStatus u.dev with ⟨ret | volstat, dev⟩
  · rw [hcart] at hret
    exact absurd hret (ne_of_lt (getCartVolumeLockStatus_error hcart))
  · rw [hcart] at hdev hret hwritable
    subst hdev
    dsimp only at hret hwritable ⊢
    by_cases hrefused : indexRefusal { u with dev := u.dev.tick } < 0
    · rw [if_pos hrefused] at hret
      exact absurd hret (ne_of_lt hrefused)
    · rw [if_neg hrefused] at hret hwritable ⊢
      by_cases hdirect : (! needsDpIndex { u with dev := u.dev.tick }) = true
      · rw [if_pos hdirect] at hret ⊢
        exact ⟨_, @writeIndexHere_done T .ip false volstat { u with dev := u.dev.tick } hok' hret, rfl,
          hblock _ rfl rfl, rfl, start, hdp⟩
      · rw [if_neg hdirect] at hret hwritable ⊢
        have hnested := @nested_present T M { u with dev := u.dev.tick } hok' (happend .dp) start hdp
        generalize writeIndexFlat .dp false { u with dev := u.dev.tick } = d
          at hret hwritable hnested ⊢
        unfold writeIndexAfterDp at hret hwritable ⊢
        by_cases hreval : needReval d.1 = true
        · rw [if_pos hreval] at hret
          exact absurd hret (ne_of_lt (needReval_neg hreval))
        · rw [if_neg hreval] at hret hwritable ⊢
          by_cases hmove : isUnexpectedMove d.1 = true
          · rw [if_pos hmove] at hret
            exact absurd hret (ne_of_lt (isUnexpectedMove_neg hmove))
          · rw [if_neg hmove] at hret hwritable ⊢
            by_cases hperm : isWritePerm (-d.1) = true
            · -- nothing may be written after that
              rw [if_pos hperm] at hret hwritable
              rcases hcart' : getCartVolumeLockStatus d.2.dev with ⟨ret | volstat', dev⟩
              · rw [hcart'] at hret
                exact absurd hret (ne_of_lt (getCartVolumeLockStatus_error hcart'))
              · rw [hcart'] at hwritable
                exact absurd writeIndexHere_writePerm hwritable
            · rw [if_neg hperm] at hret hwritable ⊢
              have herr : ¬ d.2.dev.writeError = true := by
                intro herr
                exact absurd hret (ne_of_lt (writeIndexHere_refused herr))
              obtain ⟨hokd, hroot, hworm, hmedium, hap, hpresent⟩ := hnested hreval herr
              exact ⟨d.2, writeIndexHere_done hokd hret, hroot, hblock _ hmedium hap, hworm, hpresent⟩

/-- A direct write, that is one without an index of the data partition before it. -/
theorem writeIndex_ip_zero_iff {u : Volume T} (hok : u.dev.Ok) (hdirect : needsDpIndex u = false) :
    (writeIndex .ip false u).1 = 0 ↔ IndexWritable .ip u := by
  rw [← writeIndexFlat_zero_iff hok]
  unfold writeIndex writeIndexFlat
  rw [if_neg (by simp)]
  rcases hcart : getCartVolumeLockStatus u.dev with ⟨ret | volstat, dev⟩
  · exact Iff.rfl
  · have hdev := getCartVolumeLockStatus_dev u.dev
    rw [hcart] at hdev
    subst hdev
    dsimp only
    have hneeds : (! needsDpIndex { u with dev := u.dev.tick }) = true := by
      rw [Bool.not_eq_true']
      exact hdirect
    rw [if_pos hneeds, if_neg Bool.false_ne_true]

/-- What a direct write leaves. -/
theorem writeIndex_ip_direct {u : Volume T} (hok : u.dev.Ok) (hdirect : needsDpIndex u = false) :
    ((writeIndex .ip false u).1 = 0 ∧
      IndexDone .ip { u with dev := u.dev.tick } (writeIndex .ip false u).2) ∨
    ((writeIndex .ip false u).1 ≠ 0 ∧ (writeIndex .ip false u).2.index = u.index ∧
      (writeIndex .ip false u).2.dev.isWorm = u.dev.isWorm ∧
      (writeIndex .ip false u).2.dev.medium .dp = u.dev.medium .dp) := by
  have hdev := getCartVolumeLockStatus_dev u.dev
  have hok' : u.dev.tick.Ok := (tick_same u.dev).ok hok
  unfold writeIndex
  rw [if_neg (by simp)]
  rcases hcart : getCartVolumeLockStatus u.dev with ⟨ret | volstat, dev⟩
  · rw [hcart] at hdev
    subst hdev
    exact .inr ⟨ne_of_lt (getCartVolumeLockStatus_error hcart), rfl, rfl, rfl⟩
  · rw [hcart] at hdev
    subst hdev
    dsimp only
    by_cases hrefused : indexRefusal { u with dev := u.dev.tick } < 0
    · rw [if_pos hrefused]
      exact .inr ⟨ne_of_lt hrefused, rfl, rfl, rfl⟩
    · have hneeds : (! needsDpIndex { u with dev := u.dev.tick }) = true := by
        rw [Bool.not_eq_true']
        exact hdirect
      rw [if_neg hrefused, if_pos hneeds]
      rcases @writeIndexHere_result T .ip false volstat { u with dev := u.dev.tick } hok' with
        ⟨hneg, hfailed⟩ | ⟨hzero, hdone⟩
      · exact .inr ⟨ne_of_lt hneg, hfailed.index, hfailed.beside.isWorm,
          hfailed.beside.medium .dp (by decide)⟩
      · exact .inl ⟨hzero, hdone⟩

end IpWrite

section Refs

variable {T : Type} (M : MediumReader T)

/-! ## References to blocks -/

/-- Writing from the append position on destroys no block that the tree refers to; `0` is the end of
data. -/
def Spares (p : Partition) (root : T) (append : ℕ) : Prop :=
  append = 0 ∨ ∀ e ∈ M.extents root, ∀ block, Refers M e p block → block < append

/-- An index remains if the index partition is cut at the append position. -/
def Keeps (medium : Partition → List (Record T)) (append : ℕ) : Prop :=
  (∃ start, Present M .dp (medium .dp) start) ∨
  ∃ start c, Present M .ip (medium .ip) start ∧ start ≤ c ∧ fmAt (medium .ip) c = true ∧
    (append = 0 ∨ c < append)

/-- The state of the pointers that a mount should leave. -/
structure PointerOk (v : Volume T) : Prop where
  self : ∃ p start, v.index.selfptr = ⟨some p, start⟩ ∧ EndsIn M p (v.dev.medium p) start
  spares : Spares M .ip v.index.root (v.dev.appendPos .ip)
  keeps : Keeps M v.dev.medium (v.dev.appendPos .ip)

/-- What `tape_set_ip_append_position` makes of a block. -/
def ipAppend (dev : Device T) (block : ℕ) : ℕ := if dev.isWorm then 0 else block

/-- What the cartridge memory says of the index partition is true: there is its last index, and it is
safe to write over it. -/
structure MamTruthful (v : Volume T) (start : ℕ) : Prop where
  ends : EndsIn M .ip (v.dev.medium .ip) start
  spares : Spares M .ip (M.parse (region (v.dev.medium .ip) start)).index.root
    (ipAppend v.dev (start - 1))
  keeps : Keeps M v.dev.medium (ipAppend v.dev (start - 1))

/-- The coherency data of both partitions is read, belongs to the volume and is current: it says
which index is the last one. -/
structure MamRead (v : Volume T) : Prop where
  /-- The sixth to eighth command of the mount. -/
  read : ∀ k, 5 ≤ k → k ≤ 7 →
    ∃ early programmable, v.dev.answers (v.dev.clock + k) = .ok early programmable
  uuid : ∀ q, (v.dev.coherency q).uuid = v.uuid
  version : ∀ q, (v.dev.coherency q).version ≠ 0
  changeRef : v.dev.volumeChangeRef ≠ 0 ∧ v.dev.volumeChangeRef ≠ 2 ^ 32 - 1 ∧
    v.dev.volumeChangeRef ≠ invalidVcr
  current : ∀ q, (v.dev.coherency q).volumeChangeRef = v.dev.volumeChangeRef

/-- The mount relies on the cartridge memory, which says that the last index is on `p`. -/
structure MamSays (o : MountOptions) (v : Volume T) (p : Partition) : Prop extends MamRead v where
  full : o.forceFull = false
  newer : p = if (v.dev.coherency .ip).count < (v.dev.coherency .dp).count then .dp else .ip
  there : (v.dev.coherency p).setId ≤ v.dev.eod p

/-- The mount checks the medium, which has these last indexes, and uses `index`. -/
structure Checked (o : MountOptions) (v : Volume T) (ip dp : Finding T) (index : Index T) : Prop where
  mam : ∀ p, ¬ MamSays o v p
  foundIp : M.lastFound o.recoverSymlink .ip (v.dev.medium .ip) = some ip
  foundDp : M.lastFound o.recoverSymlink .dp (v.dev.medium .dp) = some dp
  inUse : inUse ip dp = some index

/-- The mount leaves right pointers, by what is on the tape. -/
structure TapeSafe (o : MountOptions) (v : Volume T) : Prop where
  current : MamSays o v .ip → MamTruthful M v (v.dev.coherency .ip).setId
  /-- The new index goes to the end of the index partition. -/
  ipBehind : MamSays o v .dp →
    Spares M .ip (M.parse (region (v.dev.medium .dp) (v.dev.coherency .dp).setId)).index.root
      (ipAppend v.dev (v.dev.eod .ip))
  checked : ∀ ip dp index, Checked M o v ip dp index →
    Spares M .ip index.root
      (ipAppend v.dev (safeBelow M o.recoverExtra (v.dev.medium .ip) ip dp index.root))

/-- Nothing goes wrong unnoticed: the drive executes the last index write of a check, whose failure
is ignored, and this index is not written over blocks that have just been recovered. -/
structure Undisturbed (o : MountOptions) (v : Volume T) : Prop where
  eod : EodTruthful v.dev
  lastWrite : ∀ u, mountIndex M o v = .checked (.writeIp u) → IndexWritable .ip u
  lost : ∀ ip dp index, Checked M o v ip dp index →
    LostSpared M o.recoverExtra (v.dev.medium .ip) ip index.root

/-- When the mount of `v` leaves right pointers. -/
structure MountSafe (o : MountOptions) (v : Volume T) : Prop extends
  Undisturbed M o v, TapeSafe M o v

end Refs

section Mount

variable {T : Type} {M : MediumReader T} {o : MountOptions}

/-! ## The way of a mount -/

/-- The volume has been loaded, and nothing has been done to it yet. -/
structure Started (v u : Volume T) : Prop where
  medium : u.dev.medium = v.dev.medium
  isWorm : u.dev.isWorm = v.dev.isWorm
  answers : u.dev.answers = v.dev.answers
  coherency : u.dev.coherency = v.dev.coherency
  volumeChangeRef : u.dev.volumeChangeRef = v.dev.volumeChangeRef
  appendPos : ∀ p, u.dev.appendPos p = 0
  posOk : u.dev.PosOk
  ipIndexFileEnd : u.ipIndexFileEnd = v.ipIndexFileEnd
  uuid : u.uuid = v.uuid

theorem Started.ok {v u : Volume T} (h : Started v u) : u.dev.Ok :=
  ⟨h.posOk, fun p => (h.appendPos p).trans_le (Nat.zero_le _)⟩

/-- Commands that only take time. -/
theorem Started.tick {v u : Volume T} (h : Started v u) :
    Started v { u with dev := u.dev.tick } :=
  ⟨h.medium, h.isWorm, h.answers, h.coherency, h.volumeChangeRef, h.appendPos, h.posOk,
    h.ipIndexFileEnd, h.uuid⟩

theorem Started.setCoherency {v u : Volume T} (h : Started v u) (coh : Partition → Coherency) :
    Started v { u with coherency := coh } :=
  ⟨h.medium, h.isWorm, h.answers, h.coherency, h.volumeChangeRef, h.appendPos, h.posOk,
    h.ipIndexFileEnd, h.uuid⟩

theorem Started.setIndex {v u : Volume T} (h : Started v u) (index : Index T) :
    Started v { u with index := index } :=
  ⟨h.medium, h.isWorm, h.answers, h.coherency, h.volumeChangeRef, h.appendPos, h.posOk,
    h.ipIndexFileEnd, h.uuid⟩

theorem ltfsStartMount_spec {v : Volume T} (h : ¬ (ltfsStartMount v).1 < 0) :
    Started v { v with dev := (ltfsStartMount v).2 } ∧
      (ltfsStartMount v).2.volumeLock = v.dev.volumeLock ∧
      (ltfsStartMount v).2.clock = v.dev.clock + 2 ∧ ∀ p, fmAt (v.dev.medium p) 3 = true := by
  unfold ltfsStartMount onOk at h ⊢
  cases hans : v.dev.answer with
  | error code junk =>
    have hstart : startMount v.dev = (code.1, v.dev.tick) := by
      unfold startMount
      rw [hans]
    rw [hstart, if_pos code.2] at h
    exact absurd code.2 h
  | ok early programmable =>
    have hstart : startMount v.dev = (0, { v.dev.tick with
        position := ⟨.ip, 0⟩, appendPos := fun _ => 0, writeError := false }) := by
      unfold startMount
      rw [hans]
    rw [hstart, if_neg (lt_irrefl 0)] at h ⊢
    dsimp only at h ⊢
    set dev₁ : Device T := { v.dev.tick with
      position := ⟨.ip, 0⟩, appendPos := fun _ => 0, writeError := false } with hdev₁
    have hstarted : Started v { v with dev := dev₁.tick } :=
      ⟨rfl, rfl, rfl, rfl, rfl, fun _ => rfl, Nat.zero_le _, rfl, rfl⟩
    unfold readLabels at h ⊢
    cases hans' : dev₁.answer with
    | error code junk =>
      rw [hans'] at h
      dsimp only at h
      rw [if_pos code.2] at h
      exact absurd code.2 h
    | ok early' programmable' =>
      rw [hans'] at h
      dsimp only at h ⊢
      by_cases hlabels : ([Partition.ip, .dp].all fun p =>
          fmAt (dev₁.medium p) 1 && fmAt (dev₁.medium p) 3) = true
      · rw [if_pos hlabels]
        have hlabel : ∀ p, fmAt (v.dev.medium p) 3 = true := by
          intro p
          have hmem : p ∈ [Partition.ip, .dp] := by cases p <;> simp
          have := List.all_eq_true.mp hlabels p hmem
          simp only [Bool.and_eq_true] at this
          exact this.2
        dsimp only
        rw [if_neg (lt_irrefl 0)]
        split
        · exact ⟨hstarted, rfl, rfl, hlabel⟩
        · exact ⟨hstarted, rfl, rfl, hlabel⟩
      · rw [if_neg hlabels] at h
        dsimp only at h
        have hneg : -ltfsLabelInvalid < 0 := by decide
        rw [if_pos hneg] at h
        exact absurd hneg h

/-- The coherency data of a partition is that of the cartridge memory, unless it is of no use. -/
theorem readCoherency_spec {v u : Volume T} (h : Started v u) (p : Partition) :
    Started v (readCoherency p u) ∧ (readCoherency p u).dev.clock = u.dev.clock + 1 ∧
      (∀ q, q ≠ p → (readCoherency p u).coherency q = u.coherency q) ∧
      (((∃ early programmable, v.dev.answers u.dev.clock = .ok early programmable) ∧
          (v.dev.coherency p).uuid = v.uuid ∧ (readCoherency p u).coherency p = v.dev.coherency p) ∨
        (¬ ((∃ early programmable, v.dev.answers u.dev.clock = .ok early programmable) ∧
          (v.dev.coherency p).uuid = v.uuid) ∧ (readCoherency p u).coherency p = noCoherency)) := by
  have hans : u.dev.answer = v.dev.answers u.dev.clock := congrFun h.answers u.dev.clock
  have hcoh := congrFun h.coherency p
  unfold readCoherency getCartCoherency
  cases hanswer : u.dev.answer with
  | error code junk =>
    refine ⟨h.tick.setCoherency _, rfl, fun q hq => Function.update_of_ne hq _ _, .inr ⟨?_, ?_⟩⟩
    · rintro ⟨⟨early, programmable, hok⟩, -⟩
      rw [← hans, hanswer] at hok
      cases hok
    · exact Function.update_self _ _ _
  | ok early programmable =>
    refine ⟨h.tick.setCoherency _, rfl, fun q hq => Function.update_of_ne hq _ _, ?_⟩
    dsimp only
    rw [Function.update_self, hcoh, h.uuid]
    by_cases huuid : (v.dev.coherency p).uuid = v.uuid
    · rw [if_pos huuid]
      exact .inl ⟨⟨early, programmable, hans.symm.trans hanswer⟩, huuid, rfl⟩
    · rw [if_neg huuid]
      exact .inr ⟨fun hboth => huuid hboth.2, rfl⟩

theorem readMam_started {v u : Volume T} (h : Started v u) : Started v (readMam u).2 := by
  have hboth := (readCoherency_spec (readCoherency_spec h .ip).1 .dp).1
  unfold readMam
  dsimp only
  split
  · exact hboth.tick.setCoherency _
  · exact hboth.tick

/-- The volume change reference is usable exactly if it is read, and none of the values that stand
for no reference. -/
theorem tapeGetVolumeChangeReference_usable {dev : Device T} :
    ¬ (tapeGetVolumeChangeReference dev = 0 ∨ tapeGetVolumeChangeReference dev = invalidVcr) ↔
      (∃ early programmable, dev.answer = .ok early programmable) ∧ dev.volumeChangeRef ≠ 0 ∧
        dev.volumeChangeRef ≠ 2 ^ 32 - 1 ∧ dev.volumeChangeRef ≠ invalidVcr := by
  unfold tapeGetVolumeChangeReference
  cases dev.answer with
  | error code junk =>
    refine iff_of_false (fun h => h (.inr rfl)) ?_
    rintro ⟨⟨early, programmable, hok⟩, -⟩
    cases hok
  | ok early programmable =>
    dsimp only
    by_cases h32 : dev.volumeChangeRef = 2 ^ 32 - 1
    · rw [if_pos h32]
      exact iff_of_false (fun h => h (.inr rfl)) fun h => h.2.2.1 h32
    · rw [if_neg h32, not_or]
      exact ⟨fun h => ⟨⟨_, _, rfl⟩, h.1, h32, h.2⟩, fun h => ⟨h.2.1, h.2.2.2⟩⟩

theorem tapeGetVolumeChangeReference_eq {dev : Device T}
    (h : ¬ (tapeGetVolumeChangeReference dev = 0 ∨
      tapeGetVolumeChangeReference dev = invalidVcr)) :
    tapeGetVolumeChangeReference dev = dev.volumeChangeRef := by
  obtain ⟨⟨early, programmable, hok⟩, -, h32, -⟩ := tapeGetVolumeChangeReference_usable.mp h
  unfold tapeGetVolumeChangeReference
  rw [hok]
  exact if_neg h32

/-- What is read can be relied on exactly if all of it is read, belongs to the volume, and is
current. -/
theorem readMam_iff {v u : Volume T} (h : Started v u) (hclock : u.dev.clock = v.dev.clock + 5) :
    ((∀ q, ((readMam u).2.coherency q).version ≠ 0) ∧ 0 < (readMam u).1 ∧
        (∀ q, (readMam u).1 = ((readMam u).2.coherency q).volumeChangeRef) ↔ MamRead v) ∧
      (MamRead v → ∀ q, (readMam u).2.coherency q = v.dev.coherency q) := by
  obtain ⟨hip, hipClock, -, hipCases⟩ := readCoherency_spec h .ip
  obtain ⟨hdp, hdpClock, hdpOther, hdpCases⟩ := readCoherency_spec hip .dp
  have hother := hdpOther .ip (by decide)
  rw [hclock] at hipCases
  rw [hipClock, hclock] at hdpCases
  unfold readMam
  dsimp only
  generalize readCoherency .dp (readCoherency .ip u) = w at hdp hdpClock hother hdpCases ⊢
  rw [← hother] at hipCases
  have hans : w.dev.answer = v.dev.answers (v.dev.clock + 7) := by
    unfold Device.answer
    rw [hdp.answers, hdpClock, hipClock, hclock]
  have hagree : MamRead v → ∀ q, w.coherency q = v.dev.coherency q := by
    intro hread q
    cases q with
    | ip =>
      rcases hipCases with ⟨-, -, heq⟩ | ⟨hno, -⟩
      · exact heq
      · exact absurd ⟨hread.read 5 (by decide) (by decide), hread.uuid .ip⟩ hno
    | dp =>
      rcases hdpCases with ⟨-, -, heq⟩ | ⟨hno, -⟩
      · exact heq
      · exact absurd ⟨hread.read 6 (by decide) (by decide), hread.uuid .dp⟩ hno
  by_cases hunusable : tapeGetVolumeChangeReference w.dev = 0 ∨
      tapeGetVolumeChangeReference w.dev = invalidVcr
  · rw [if_pos hunusable]
    have hread : ¬ MamRead v := by
      intro hread
      refine tapeGetVolumeChangeReference_usable.mpr ?_ hunusable
      rw [hans, hdp.volumeChangeRef]
      exact ⟨hread.read 7 (by decide) (by decide), hread.changeRef⟩
    exact ⟨iff_of_false (fun hall => absurd rfl (hall.1 .ip)) hread, fun h => absurd h hread⟩
  · have husable := tapeGetVolumeChangeReference_usable.mp hunusable
    rw [hans, hdp.volumeChangeRef] at husable
    obtain ⟨hread7, hchangeRef⟩ := husable
    rw [if_neg hunusable, tapeGetVolumeChangeReference_eq hunusable, hdp.volumeChangeRef]
    refine ⟨⟨?_, ?_⟩, hagree⟩
    · rintro ⟨hversion, -, hcurrent⟩
      have hused : ∀ q, w.coherency q ≠ noCoherency := by
        intro q heq
        refine hversion q ?_
        rw [heq]
        rfl
      obtain ⟨hread5, huuid, heq⟩ := hipCases.resolve_right fun hc => hused .ip hc.2
      obtain ⟨hread6, huuid', heq'⟩ := hdpCases.resolve_right fun hc => hused .dp hc.2
      have hall : ∀ q, w.coherency q = v.dev.coherency q := by
        intro q
        cases q with
        | ip => exact heq
        | dp => exact heq'
      constructor
      · intro k h5 h7
        obtain rfl | rfl | rfl : k = 5 ∨ k = 6 ∨ k = 7 := by omega
        · exact hread5
        · exact hread6
        · exact hread7
      · intro q
        cases q with
        | ip => exact huuid
        | dp => exact huuid'
      · intro q
        rw [← hall q]
        exact hversion q
      · exact hchangeRef
      · intro q
        rw [← hall q]
        exact (hcurrent q).symm
    · intro hread
      have hall := hagree hread
      refine ⟨fun q => ?_, Nat.pos_of_ne_zero hchangeRef.1, fun q => ?_⟩
      · rw [hall q]
        exact hread.version q
      · rw [hall q]
        exact (hread.current q).symm

/-- What `ltfs_read_index` accepts parses as an index that names its place. -/
theorem ltfsReadIndex_valid {R : XmlTape.IndexReader T} {p : Partition} {eodPos : ℕ}
    {dev dev' : XmlTape.Device} {endFm : Bool} (hrecover : R.recoverSymlink = false)
    (h : XmlTape.ltfsReadIndex R p eodPos dev = some (.ok endFm, dev')) :
    XmlTape.ValidIndex R p dev.pos := by
  have hplain : ∀ ret, XmlTape.recoverConflicts R dev.pos ret = ret := by
    intro ret
    unfold XmlTape.recoverConflicts
    rw [hrecover, if_neg (by simp)]
  unfold XmlTape.ltfsReadIndex at h
  obtain ⟨⟨ret, after⟩, hschema, hrest⟩ := Option.map_eq_some_iff.mp h
  dsimp only at hrest
  rw [hplain] at hrest
  cases ret with
  | error code => cases hrest
  | ok fm =>
    dsimp only at hrest
    by_cases hcheck : XmlTape.checkIndex R p dev.pos = true
    · refine ⟨⟨false, ?_⟩, hcheck⟩
      -- the parser has not failed
      unfold XmlTape.xmlSchemaFromTape at hschema
      obtain ⟨⟨chunks, ctx⟩, -, hresult⟩ := Option.map_eq_some_iff.mp hschema
      dsimp only at hresult
      unfold XmlTape.parseResult
      rw [hplain]
      split at hresult
      · cases hresult
      · cases hfailure : (R.parse dev.pos).failure with
        | some code =>
          rw [hfailure] at hresult
          cases hresult
        | none => rfl
    · rw [Bool.eq_false_iff.mpr hcheck] at hrest
      cases hrest

variable (M) in
/-- The tree in memory and the append position of the index partition are those for what the check
of the medium finds. -/
def Located (o : MountOptions) (v : Volume T) (root : T) (append : ℕ) : Prop :=
  ∃ ip dp index, Checked M o v ip dp index ∧
    (LostSpared M o.recoverExtra (v.dev.medium .ip) ip index.root →
      (Spares M .ip root append ↔ Spares M .ip index.root
        (ipAppend v.dev (safeBelow M o.recoverExtra (v.dev.medium .ip) ip dp index.root))))

variable (M) in
/-- What is known before the last index write. -/
def MountGood (o : MountOptions) (v : Volume T) : MountIndex T → Prop
  | .failed _ _ => True
  | .current u => MamSays o v .ip ∧ Started v u ∧
    u.index.selfptr = ⟨some .ip, (v.dev.coherency .ip).setId⟩ ∧
    u.index = (M.parse (region (v.dev.medium .ip) (v.dev.coherency .ip).setId)).index
  | .ipBehind u => MamSays o v .dp ∧ Started v u ∧
    (∃ start, Present M .dp (v.dev.medium .dp) start) ∧
    u.index = (M.parse (region (v.dev.medium .dp) (v.dev.coherency .dp).setId)).index
  | .checked (.failed _ _) => True
  | .checked (.settled u) =>
    Consistent M u ∧ Located M o v u.index.root (ipAppend u.dev (u.index.selfptr.block - 1))
  | .checked (.writeIp u) =>
    WriteReady M u ∧ Located M o v u.index.root (ipAppend u.dev (u.dev.appendBlock .ip))

/-- The new index and the extents of the tree it is for. -/
theorem Restoring.spares_iff {recoverExtra : Bool} {m : List (Record T)} {ip dp : Finding T}
    {v u : Volume T} {index : Index T} (h : Restoring M recoverExtra m ip dp v u index)
    (htruth : EodTruthful v.dev) (hspared : LostSpared M recoverExtra m ip index.root) :
    Spares M .ip u.index.root (ipAppend v.dev (safeBelow M recoverExtra m ip dp index.root)) ↔
      Spares M .ip index.root
        (ipAppend v.dev (safeBelow M recoverExtra m ip dp index.root)) := by
  obtain ⟨lost, hextents, hlost⟩ := h.lost htruth hspared
  unfold Spares ipAppend
  rw [hextents]
  split
  · exact iff_of_true (.inl rfl) (.inl rfl)
  · refine or_congr_right ⟨fun hall e he => hall e (List.mem_append_left _ he), fun hall e he => ?_⟩
    rcases List.mem_append.mp he with he | he
    · exact hall e he
    · exact hlost e he

/-- The medium is checked by a mount that has started. -/
theorem checked_good {v u : Volume T} (h : Started v u) (htruth : EodTruthful v.dev)
    (hlabel : ∀ q, fmAt (v.dev.medium q) 3 = true) (hfresh : v.ipIndexFileEnd = false)
    (hmam : ∀ p, ¬ MamSays o v p) :
    MountGood M o v
      (.checked (checkMedium M true o.deepRecovery o.recoverExtra o.recoverSymlink u)) := by
  have hlabel' : ∀ q, fmAt (u.dev.medium q) 3 = true := by
    intro q
    rw [h.medium]
    exact hlabel q
  have hgood := @checkMedium_good T M true o.deepRecovery o.recoverExtra o.recoverSymlink u hlabel'
    h.posOk (h.ipIndexFileEnd.trans hfresh)
  rcases @checkMedium_cases T M true o.deepRecovery o.recoverExtra o.recoverSymlink u hlabel'
    h.posOk (h.ipIndexFileEnd.trans hfresh) with
    ⟨ret, w, heq⟩ | ⟨ip, dp, ip', dp', w, index, hip, hdp, hnoted, hrest, hpos, heq⟩
  · rw [heq]
    trivial
  · rw [heq] at hgood ⊢
    rw [h.medium] at hip hdp hrest hpos
    have hchecked : Checked M o v ip dp index := ⟨hmam, hip, hdp, hrest.inUse⟩
    have htruth' := htruth.congr h.answers
    have happend : ∀ (d : Device T) (block : ℕ), d.isWorm = w.dev.isWorm →
        ipAppend d block = ipAppend v.dev block := by
      intro d block hworm
      unfold ipAppend
      rw [hworm, hrest.isWorm, h.isWorm]
    have hspares := fun hspared => (hrest.spares_iff htruth' hspared)
    have hroot := fun block => happend u.dev block hrest.isWorm.symm
    simp only [hroot] at hspares
    rcases @restore_cases T M true dp' w hnoted.ok with
      ⟨ret, x, heq⟩ | ⟨hclean, heq⟩ | ⟨hdirty, x, heq, hxroot, hxworm, hxappend⟩
    · rw [heq]
      trivial
    · -- nothing is written
      rw [heq] at hgood ⊢
      have hquiet := updateCartCoherency_quiet w
      refine ⟨hgood, ip, dp, index, hchecked, fun hspared => ?_⟩
      have hsettles : settles ip dp = true := by
        have hdirty := hrest.dirty
        rw [hclean] at hdirty
        simpa using hdirty.symm
      have hsafe := @safeBelow_settled T M o.recoverExtra (v.dev.medium .ip) ip dp index.root index
        hsettles hrest.inUse
      rw [happend _ _ hquiet.tape.isWorm, hquiet.index, hrest.selfptr, ← hsafe]
      exact hspares hspared
    · -- the index of the index partition
      rw [heq] at hgood ⊢
      refine ⟨hgood, ip, dp, index, hchecked, fun hspared => ?_⟩
      have hblock : x.dev.appendBlock .ip
          = safeBelow M o.recoverExtra (v.dev.medium .ip) ip dp index.root := by
        unfold Device.appendBlock
        rw [hxappend, hrest.append htruth' hdirty, if_neg (by omega)]
      rw [hblock, hxroot, happend _ _ hxworm]
      exact hspares hspared

theorem tapeSeek_started {v u : Volume T} (h : Started v u) (p : Partition) (block : Option ℕ) :
    Started v { u with dev := (tapeSeek p block u.dev).2 } := by
  have htravel := tapeSeek_travelled p block u.dev
  have hsame : (tapeSeek p block u.dev).2.coherency = u.dev.coherency ∧
      (tapeSeek p block u.dev).2.volumeChangeRef = u.dev.volumeChangeRef := by
    obtain ⟨-, -, hf, -⟩ := locate_spec p block u.dev
    unfold tapeSeek
    split
    · exact ⟨rfl, rfl⟩
    · exact ⟨hf.coherency, hf.volumeChangeRef⟩
  exact ⟨htravel.medium.trans h.medium, htravel.isWorm.trans h.isWorm,
    htravel.answers.trans h.answers, hsame.1.trans h.coherency, hsame.2.trans h.volumeChangeRef,
    fun q => (congrFun htravel.appendPos q).trans (h.appendPos q), htravel.posOk h.posOk,
    h.ipIndexFileEnd, h.uuid⟩

/-- The end of data is reported where it is. -/
theorem tapeSeek_eodDetected {p : Partition} {block : ℕ} {dev : Device T}
    (htruth : EodTruthful dev) (h : (tapeSeek p (some block) dev).1 = -edevEodDetected) :
    dev.eod p < block := by
  unfold tapeSeek at h
  split at h
  · exact absurd h (show ¬ (0 : ℤ) = -edevEodDetected by decide)
  · unfold locate at h
    cases hans : dev.answer with
    | error code junk =>
      rw [hans] at h
      have hcode := htruth _ _ _ hans
      have hlocate : locateCode code.1 = -edevEodDetected := h
      unfold locateCode at hlocate
      split at hlocate
      · exact absurd hlocate (by decide)
      · exact absurd hlocate hcode
    | ok early programmable =>
      rw [hans] at h
      dsimp only at h
      by_cases hle : (some block).getD (dev.eod p) ≤ dev.eod p
      · rw [if_pos hle] at h
        exact absurd h (show ¬ locateCode 0 = -edevEodDetected by decide)
      · exact not_le.mp hle

theorem readTrusted_good {v u : Volume T} {p : Partition} {block : ℕ}
    {next : Volume T → MountIndex T} (h : Started v u) (htruth : EodTruthful v.dev)
    (hlabel : ∀ q, fmAt (v.dev.medium q) 3 = true) (hfresh : v.ipIndexFileEnd = false)
    (hmam : v.dev.eod p < block → ∀ q, ¬ MamSays o v q)
    (hnext : ∀ u', Started v u' → block ≤ v.dev.eod p → Present M p (v.dev.medium p) block →
      u'.index = (M.parse (region (v.dev.medium p) block)).index → MountGood M o v (next u')) :
    MountGood M o v (readTrusted M o p block next u) := by
  have hseek := tapeSeek_started h p (some block)
  have heod : u.dev.eod p = v.dev.eod p := by
    unfold Device.eod
    rw [h.medium]
  unfold readTrusted
  dsimp only
  by_cases hend : (tapeSeek p (some block) u.dev).1 = -edevEodDetected
  · rw [if_pos hend]
    have hlt := tapeSeek_eodDetected (htruth.congr h.answers) hend
    rw [heod] at hlt
    exact checked_good hseek htruth hlabel hfresh (hmam hlt)
  · rw [if_neg hend]
    by_cases hneg : (tapeSeek p (some block) u.dev).1 < 0
    · rw [if_pos hneg]
      trivial
    · rw [if_neg hneg]
      have hzero := le_antisymm (tapeSeek_le p (some block) u.dev) (not_lt.mp hneg)
      have hle : block ≤ (v.dev.medium p).length := by
        have hpos := hseek.posOk
        unfold Device.PosOk Device.eod at hpos
        dsimp only at hpos
        rw [tapeSeek_zero hzero, hseek.medium] at hpos
        exact hpos
      split
      · trivial
      · split
        · rename_i hread
          have hvalid := ltfsReadIndex_valid (by rfl) hread
          rw [hseek.medium] at hvalid ⊢
          exact hnext _ (hseek.tick.setIndex _) hle (.of_valid hle hvalid) rfl
        · trivial
        · trivial

theorem getCartVolumeLockStatus_cases (dev : Device T) :
    (getCartVolumeLockStatus dev).1 = .ok dev.volumeLock ∨
      (getCartVolumeLockStatus dev).1 = .ok .unlocked ∨
      ∃ code, (getCartVolumeLockStatus dev).1 = .error code := by
  unfold getCartVolumeLockStatus
  cases dev.answer with
  | ok early programmable => exact .inl rfl
  | error code junk =>
    dsimp only
    split
    · exact .inr (.inl rfl)
    · exact .inr (.inr ⟨_, rfl⟩)

theorem checkConsistency_good {v u : Volume T} {lock : VolumeLock} (h : Started v u)
    (hclock : u.dev.clock = v.dev.clock + 5) (htruth : EodTruthful v.dev)
    (hlabel : ∀ q, fmAt (v.dev.medium q) 3 = true) (hfresh : v.ipIndexFileEnd = false)
    (hlock : isSingleWritePerm lock = false) (hboth : lock ≠ .pweBoth) :
    MountGood M o v (checkConsistency M o lock (readMam u).1 (readMam u).2) := by
  have hmam := readMam_started h
  obtain ⟨hread, hsame⟩ := readMam_iff h hclock
  generalize readMam u = r at hmam hread hsame
  unfold checkConsistency
  dsimp only
  rw [if_neg (by simp [hlock, hboth])]
  -- the cartridge memory is relied on
  have htrusted : (! (o.forceFull || decide ((r.2.coherency .ip).version = 0) ||
        decide ((r.2.coherency .dp).version = 0)) && decide (0 < r.1) &&
        decide (r.1 = (r.2.coherency .ip).volumeChangeRef) &&
        decide (r.1 = (r.2.coherency .dp).volumeChangeRef)) = true ↔
      o.forceFull = false ∧ MamRead v := by
    rw [← hread]
    simp only [Bool.and_eq_true, Bool.not_eq_true', Bool.or_eq_false_iff,
      decide_eq_false_iff_not, decide_eq_true_eq]
    constructor
    · rintro ⟨⟨⟨⟨⟨hfull, h1⟩, h2⟩, hpos⟩, h3⟩, h4⟩
      refine ⟨hfull, fun q => ?_, hpos, fun q => ?_⟩
      · cases q with
        | ip => exact h1
        | dp => exact h2
      · cases q with
        | ip => exact h3
        | dp => exact h4
    · rintro ⟨hfull, hversion, hpos, hcurrent⟩
      exact ⟨⟨⟨⟨⟨hfull, hversion .ip⟩, hversion .dp⟩, hpos⟩, hcurrent .ip⟩, hcurrent .dp⟩
  by_cases hrelied : o.forceFull = false ∧ MamRead v
  · rw [if_pos (htrusted.mpr hrelied)]
    obtain ⟨hfull, hmamRead⟩ := hrelied
    rw [hsame hmamRead .ip, hsame hmamRead .dp]
    -- only the newer one of the two can be the one it names
    have hother : ∀ p, (p = if (v.dev.coherency .ip).count < (v.dev.coherency .dp).count then
        Partition.dp else .ip) → v.dev.eod p < (v.dev.coherency p).setId →
        ∀ q, ¬ MamSays o v q := by
      rintro p hp hlt q hmamSays
      have hthere := hmamSays.there
      rw [hmamSays.newer, ← hp] at hthere
      omega
    by_cases hnewer : (v.dev.coherency .ip).count < (v.dev.coherency .dp).count
    · rw [if_pos hnewer]
      apply readTrusted_good hmam htruth hlabel hfresh
      · exact hother .dp (by rw [if_pos hnewer])
      · intro u' hu' hle hpresent hindex
        exact ⟨⟨hmamRead, hfull, by rw [if_pos hnewer], hle⟩, hu', ⟨_, hpresent⟩, hindex⟩
    · rw [if_neg hnewer]
      apply readTrusted_good hmam htruth hlabel hfresh
      · exact hother .ip (by rw [if_neg hnewer])
      · intro u' hu' hle hpresent hindex
        refine ⟨⟨hmamRead, hfull, by rw [if_neg hnewer], hle⟩, hu', ?_, hindex⟩
        rw [hindex]
        exact hpresent.selfptr
  · rw [if_neg fun hc => hrelied (htrusted.mp hc)]
    exact checked_good hmam htruth hlabel hfresh fun p hmamSays =>
      hrelied ⟨hmamSays.full, hmamSays.toMamRead⟩

/-- Before the last index write, on a volume without a permanent write error. -/
theorem mountIndex_good {v : Volume T} (htruth : EodTruthful v.dev)
    (hfresh : v.ipIndexFileEnd = false) (hlock : isSingleWritePerm v.dev.volumeLock = false)
    (hboth : v.dev.volumeLock ≠ .pweBoth) : MountGood M o v (mountIndex M o v) := by
  unfold mountIndex
  dsimp only
  by_cases hneg : (ltfsStartMount v).1 < 0
  · rw [if_pos hneg]
    trivial
  · obtain ⟨hstart, hsame, hclock, hlabel⟩ := ltfsStartMount_spec hneg
    rw [if_neg hneg]
    have hticks : Started v { v with dev := (ltfsStartMount v).2.tick.tick.tick } :=
      hstart.tick.tick.tick
    have hclock' : (ltfsStartMount v).2.tick.tick.tick.clock = v.dev.clock + 5 := by
      show (ltfsStartMount v).2.clock + 1 + 1 + 1 = v.dev.clock + 5
      rw [hclock]
    have hrest := fun lock hsingle hnotboth => @checkConsistency_good T M o v _ lock hticks hclock'
      htruth hlabel hfresh hsingle hnotboth
    -- whatever the query for the lock status returns, it is no write error
    have hcases := getCartVolumeLockStatus_cases (ltfsStartMount v).2
    have hdev := getCartVolumeLockStatus_dev (ltfsStartMount v).2
    generalize getCartVolumeLockStatus (ltfsStartMount v).2 = cur at hcases hdev
    obtain ⟨cur, dev⟩ := cur
    dsimp only at hcases hdev
    subst hdev
    rcases hcases with rfl | rfl | ⟨code, rfl⟩
    · dsimp only
      split
      · trivial
      · apply hrest
        · rw [hsame]
          exact hlock
        · rw [hsame]
          exact hboth
    · dsimp only
      split
      · trivial
      · exact hrest _ rfl (by decide)
    · dsimp only
      split
      · trivial
      · exact hrest _ rfl (by decide)

/-! ## The pointers -/

theorem setPointers_pointerOk {u : Volume T} : PointerOk M (setPointers u) ↔
    (∃ p start, u.index.selfptr = ⟨some p, start⟩ ∧ EndsIn M p (u.dev.medium p) start) ∧
      Spares M .ip u.index.root (ipAppend u.dev (u.index.selfptr.block - 1)) ∧
      Keeps M u.dev.medium (ipAppend u.dev (u.index.selfptr.block - 1)) := by
  have happend : (setPointers u).dev.appendPos .ip
      = ipAppend u.dev (u.index.selfptr.block - 1) := rfl
  constructor
  · intro h
    have hspares := h.spares
    have hkeeps := h.keeps
    rw [happend] at hspares hkeeps
    exact ⟨h.self, hspares, hkeeps⟩
  · intro ⟨hself, hspares, hkeeps⟩
    rw [← happend] at hspares hkeeps
    exact ⟨hself, hspares, hkeeps⟩

/-- After an index of the index partition has been written. -/
theorem indexDone_pointerOk {u w : Volume T} (h : IndexDone .ip u w)
    (hdp : ∃ start, Present M .dp (u.dev.medium .dp) start) :
    PointerOk M (setPointers w) ↔
      Spares M .ip u.index.root (ipAppend u.dev (u.dev.appendBlock .ip)) := by
  have hself : w.index.selfptr = ⟨some .ip, u.dev.appendBlock .ip + 1⟩ := by
    rw [h.index]
    rfl
  have hroot : w.index.root = u.index.root := by
    rw [h.index]
    rfl
  have happend : ipAppend w.dev (w.index.selfptr.block - 1)
      = ipAppend u.dev (u.dev.appendBlock .ip) := by
    unfold ipAppend
    rw [h.beside.isWorm, hself]
    rfl
  rw [setPointers_pointerOk, happend, hroot]
  constructor
  · intro hok
    exact hok.2.1
  · intro hspares
    refine ⟨⟨.ip, _, hself, ?_⟩, hspares, .inl ?_⟩
    · rw [h.medium]
      exact endsIn_indexImage h.start_le (Nat.succ_pos _) rfl
    · rw [h.beside.medium .dp (by decide)]
      exact hdp

/-- The index in memory is that of the index partition. -/
theorem Started.pointerOk {v u : Volume T} (h : Started v u) {start : ℕ}
    (hself : u.index.selfptr = ⟨some .ip, start⟩)
    (hindex : u.index = (M.parse (region (v.dev.medium .ip) start)).index) :
    PointerOk M (setPointers u) ↔ MamTruthful M v start := by
  have happend : ipAppend u.dev (u.index.selfptr.block - 1) = ipAppend v.dev (start - 1) := by
    unfold ipAppend
    rw [h.isWorm, hself]
  rw [setPointers_pointerOk, happend, hindex, h.medium]
  rw [hindex] at hself
  constructor
  · intro ⟨⟨p, start', hself', hends⟩, hspares, hkeeps⟩
    rw [hself] at hself'
    cases hself'
    exact ⟨hends, hspares, hkeeps⟩
  · intro htrue
    exact ⟨⟨.ip, start, hself, htrue.ends⟩, htrue.spares, htrue.keeps⟩

theorem Consistent.pointerOk {u : Volume T} (h : Consistent M u) :
    PointerOk M (setPointers u) ↔
      Spares M .ip u.index.root (ipAppend u.dev (u.index.selfptr.block - 1)) := by
  obtain ⟨start, hdp⟩ := h.dp
  rw [setPointers_pointerOk]
  constructor
  · intro hok
    exact hok.2.1
  · intro hspares
    refine ⟨⟨.ip, u.index.selfptr.block, ?_, h.ip⟩, hspares, .inl ⟨start, hdp.toPresent⟩⟩
    rw [← h.partition]

/-- The mount takes one way only. -/
theorem MamSays.unique {v : Volume T} {p q : Partition} (h : MamSays o v p) (h' : MamSays o v q) :
    p = q := h.newer.trans h'.newer.symm

theorem MamSays.tapeSafe_ip {v : Volume T} (h : MamSays o v .ip) :
    TapeSafe M o v ↔ MamTruthful M v (v.dev.coherency .ip).setId := by
  refine ⟨fun hsafe => hsafe.current h, fun htrue => ⟨fun _ => htrue, fun hdp => ?_, ?_⟩⟩
  · cases h.unique hdp
  · exact fun ip dp index hchecked => absurd h (hchecked.mam .ip)

theorem MamSays.tapeSafe_dp {v : Volume T} (h : MamSays o v .dp) :
    TapeSafe M o v ↔
      Spares M .ip (M.parse (region (v.dev.medium .dp) (v.dev.coherency .dp).setId)).index.root
        (ipAppend v.dev (v.dev.eod .ip)) := by
  refine ⟨fun hsafe => hsafe.ipBehind h, fun hspares => ⟨fun hip => ?_, fun _ => hspares, ?_⟩⟩
  · cases h.unique hip
  · exact fun ip dp index hchecked => absurd h (hchecked.mam .dp)

/-- What the check finds is all that matters when the medium is checked. -/
theorem Located.tapeSafe_iff {v : Volume T} {root : T} {append : ℕ} (h : Located M o v root append)
    (hundisturbed : Undisturbed M o v) : Spares M .ip root append ↔ TapeSafe M o v := by
  obtain ⟨ip, dp, index, hchecked, hiff⟩ := h
  rw [hiff (hundisturbed.lost ip dp index hchecked)]
  constructor
  · intro hspares
    refine ⟨fun hip => absurd hip (hchecked.mam .ip), fun hdp => absurd hdp (hchecked.mam .dp),
      fun ip' dp' index' hchecked' => ?_⟩
    obtain rfl := Option.some.inj (hchecked.foundIp.symm.trans hchecked'.foundIp)
    obtain rfl := Option.some.inj (hchecked.foundDp.symm.trans hchecked'.foundDp)
    obtain rfl := Option.some.inj (hchecked.inUse.symm.trans hchecked'.inUse)
    exact hspares
  · exact fun hsafe => hsafe.checked ip dp index hchecked

end Mount

section Example

open XmlTape (Parse)

/-! ## An index partition without an index -/

theorem minusOne_neg : (-1 : ℤ) < 0 := by decide

def parseFirst : List (Record (List ExtentInfo)) → Parse (List ExtentInfo)
  | .idx doc _ n :: _ => ⟨none, [n, 1], n, 0, none, [], doc⟩
  | _ => ⟨some ⟨-1, minusOne_neg⟩, [], 0, 0, none, [], ⟨0, ⟨none, 0⟩, ⟨none, 0⟩, []⟩⟩

/-- Every block is one byte. -/
def oneByteImage : Record (List ExtentInfo) → XmlTape.Record
  | .fm => .filemark
  | _ => .block [0]

theorem oneByteImage_filemark (r : Record (List ExtentInfo)) :
    oneByteImage r = .filemark ↔ r = .fm := by
  cases r <;> simp [oneByteImage]

theorem oneByteImage_nonempty (r : Record (List ExtentInfo)) : oneByteImage r ≠ .block [] := by
  cases r <;> simp [oneByteImage]

/-- Trees that are nothing but their extents. -/
def extentReader : MediumReader (List ExtentInfo) where
  blocksize := 1
  volUuid := []
  ignoreWrongVersion := false
  image := oneByteImage
  parse := parseFirst
  extents := id
  openLostFound := .ok
  addLostFile e t := .ok (t ++ [e])
  image_filemark := oneByteImage_filemark
  image_nonempty := oneByteImage_nonempty
  image_document doc k n _ := ⟨[0], rfl, by decide⟩
  parse_document doc n hn := by
    obtain ⟨n, rfl⟩ : ∃ k, n = k + 1 := ⟨n - 1, by omega⟩
    unfold document
    rw [List.range_succ_eq_map]
    exact ⟨rfl, rfl, rfl⟩
  document_length doc n hn := by
    obtain ⟨n, rfl⟩ : ∃ k, n = k + 1 := ⟨n - 1, by omega⟩
    unfold document
    rw [List.range_succ_eq_map]
    show (n + 1 - 1) * 1 < n + 1
    omega
  parse_nil h := by cases h
  extents_openLostFound t t' h := by
    cases h
    rfl
  extents_addLostFile e t t' h := by
    cases h
    exact .inl rfl

/-- The file whose block is on the index partition. -/
def placedFile : ExtentInfo := ⟨⟨some .ip, 4⟩, 0, 1, 0⟩

/-- Only the data partition has an index. The two blocks on the index partition are data, of which
the first one belongs to a file. -/
def withoutIpIndex : Volume (List ExtentInfo) where
  dev :=
    { medium
        | .ip => [.data [0], .fm, .data [0], .fm, .data [0], .data [0]]
        | .dp => [.data [0], .fm, .data [0], .fm, .fm,
            .idx ⟨1, ⟨some .dp, 5⟩, ⟨none, 0⟩, [placedFile]⟩ 0 1, .fm]
      position := ⟨.ip, 0⟩
      appendPos := fun _ => 0
      partitionSpace := fun _ => .writable
      writeProtected := false
      writeError := false
      readonlyDrive := false
      appendOnlyMode := false
      isWorm := false
      maxBlockSize := 1
      volumeLock := .unlocked
      coherency := fun _ => noCoherency
      volumeChangeRef := 1
      answers := fun _ => .ok false false
      clock := 0 }
  index := ⟨0, ⟨none, 0⟩, ⟨none, 0⟩, []⟩
  dirty := false
  ipIndexFileEnd := false
  dpIndexFileEnd := false
  coherency := fun _ => noCoherency
  uuid := 1
  blocksize := 1
  moreBlocks := fun _ => 0
  lockStatus := .unlocked
  reval := 0
  written := []

/-- Deep recovery, where extra blocks are given up. -/
def giveUpExtra : MountOptions where
  forceFull := false
  deepRecovery := true
  recoverExtra := false
  recoverSymlink := false
  skipEodCheck := false
  eodMissing := fun _ => false

end Example


end Ltfs.CheckMedium

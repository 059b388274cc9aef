import Ltfs.RestorePlace

/-!
# What the check of the medium restores

* `Noted`, `Restoring` — what is known before consistency is restored.
* `repair_cases`, `checkMedium_cases` — the check up to this point.
* `restore_cases` — what is restored then.
* `checkMedium_good` — what holds before the last step of `ltfs_check_medium`.
-/

namespace Ltfs.CheckMedium

open XmlTape (SoughtIndex)

section Check

variable {T : Type} (M : MediumReader T)

/-! ## Before the last step -/

/-- Both partitions end in an index, and the one in memory is that of the index partition. -/
structure Consistent (v : Volume T) : Prop where
  partition : v.index.selfptr.partition = some .ip
  ip : EndsIn M .ip (v.dev.medium .ip) v.index.selfptr.block
  dp : ∃ start, EndsIn M .dp (v.dev.medium .dp) start

/-- The data partition ends in an index, and the index partition is to be written. -/
structure WriteReady (v : Volume T) : Prop where
  ok : v.dev.Ok
  dp : ∃ start, EndsIn M .dp (v.dev.medium .dp) start
  direct : needsDpIndex v = false

/-- What holds before the last step. -/
def Outcome.Good : Outcome T → Prop
  | .failed _ _ => True
  | .settled v => Consistent M v
  | .writeIp v => WriteReady M v

variable {M}

theorem writeIndexFlat_done {p : Partition} {v : Volume T} (hok : v.dev.Ok)
    (hret : (writeIndexFlat p false v).1 = 0) :
    IndexDone p { v with dev := v.dev.tick } (writeIndexFlat p false v).2 := by
  have hdev := getCartVolumeLockStatus_dev v.dev
  have hok' : v.dev.tick.Ok := (tick_same v.dev).ok hok
  unfold writeIndexFlat at hret ⊢
  rcases hcart : getCartVolumeLockStatus v.dev with ⟨ret | volstat, dev⟩
  · rw [hcart] at hret
    exact absurd hret (ne_of_lt (getCartVolumeLockStatus_error hcart))
  · rw [hcart] at hdev hret
    subst hdev
    dsimp only at hret ⊢
    rw [if_neg Bool.false_ne_true] at hret ⊢
    split
    · rename_i hrefused
      rw [if_pos hrefused] at hret
      exact absurd hret (ne_of_lt hrefused)
    · rename_i hrefused
      rw [if_neg hrefused] at hret
      exact writeIndexHere_done hok' hret

theorem writeIndex_dp (v : Volume T) : writeIndex .dp false v = writeIndexFlat .dp false v := by
  unfold writeIndex
  rw [if_pos (.inl rfl)]

/-- An index of the data partition that has just been written. -/
theorem WriteReady.of_done {v u : Volume T} (h : IndexDone .dp v u) (hok : v.dev.Ok) :
    WriteReady M u := by
  refine ⟨h.ok hok, ⟨v.dev.appendBlock .dp + 1, ?_⟩, ?_⟩
  · rw [h.medium]
    exact endsIn_indexImage h.start_le (Nat.succ_pos _) rfl
  · have hend : u.dpIndexFileEnd = true := by
      have := congrFun h.endsInIndex .dp
      rwa [Function.update_self] at this
    unfold needsDpIndex
    rw [hend, h.index]
    simp [Volume.newIndex]

variable (M) in
/-- What is known of the volume when the last indexes have been noted. -/
structure Noted (ip dp : Finding T) (v : Volume T) : Prop where
  ok : v.dev.Ok
  readyIp : Ready M .ip ip v
  readyDp : Ready M .dp dp v
  /-- The flags say what the partitions end in. -/
  ipIndexFileEnd : v.ipIndexFileEnd = true → ip.found.isSome = true ∧ ip.blocksAfter = false
  dpIndexFileEnd : dp.found.isSome = true → dp.blocksAfter = false → v.dpIndexFileEnd = true
  /-- An index that is not dirty is that of the index partition, and nothing is behind it. -/
  clean : v.dirty = false → dp.found.isSome = true ∧ dp.blocksAfter = false ∧
    ∃ i, ip.found = some i ∧ i.blocksAfter = false ∧ v.index.selfptr = i.index.selfptr
  /-- If both partitions end in an index, a dirty one is that of the data partition. -/
  dirty : v.dirty = true → ip.found.isSome = true → ip.blocksAfter = false →
    dp.found.isSome = true → dp.blocksAfter = false → v.index.selfptr.partition = some .dp

theorem Ready.ends_some {f : Finding T} {p : Partition} {v : Volume T} (h : Ready M p f v)
    (hsome : f.found.isSome = true) (hblocks : f.blocksAfter = false) :
    ∃ start, EndsIn M p (v.dev.medium p) start := by
  obtain ⟨s, hs⟩ := Option.isSome_iff_exists.mp hsome
  unfold Finding.blocksAfter at hblocks
  rw [hs] at hblocks
  exact ⟨_, h.ends s hs hblocks⟩

theorem restore_good {fix : Bool} {ip dp : Finding T} {v : Volume T} (h : Noted M ip dp v) :
    (restore M fix dp v).Good M := by
  unfold restore
  cases hdirty : v.dirty with
  | false =>
    rw [if_pos (by rfl)]
    have hquiet := updateCartCoherency_quiet v
    obtain ⟨hsome, hblocks, i, hi, hiblocks, hself⟩ := h.clean hdirty
    obtain ⟨-, hpart, -, -⟩ := h.readyIp.content i hi
    show Consistent M (updateCartCoherency v)
    constructor
    · rw [hquiet.index, hself]
      exact hpart
    · rw [hquiet.tape.medium, hquiet.index, hself]
      exact h.readyIp.ends i hi hiblocks
    · rw [hquiet.tape.medium]
      exact h.readyDp.ends_some hsome hblocks
  | true =>
    rw [if_neg (by simp)]
    split
    · trivial
    · split
      · trivial
      · dsimp only
        by_cases hneeded : (dp.found.isNone || dp.blocksAfter) = true
        · rw [if_pos hneeded]
          split
          · rename_i hzero
            rw [writeIndex_dp] at hzero ⊢
            exact .of_done (writeIndexFlat_done h.ok hzero) ((tick_same v.dev).ok h.ok)
          · trivial
        · rw [if_neg hneeded, if_pos rfl]
          have hends : dp.found.isSome = true ∧ dp.blocksAfter = false := by
            cases hfound : dp.found with
            | none => simp [hfound] at hneeded
            | some s => simpa [hfound] using hneeded
          show WriteReady M v
          refine ⟨h.ok, h.readyDp.ends_some hends.1 hends.2, ?_⟩
          -- a dirty index of the index partition has blocks behind it
          have hend := h.dpIndexFileEnd hends.1 hends.2
          unfold needsDpIndex
          rw [hend]
          by_cases hip : v.ipIndexFileEnd = true
          · obtain ⟨hsome, hblocks⟩ := h.ipIndexFileEnd hip
            rw [h.dirty hdirty hsome hblocks hends.1 hends.2]
            simp
          · simp [hip]

/-- Nothing has been written, and the indexes that were found are the same. -/
theorem Ready.of_kept {f f' : Finding T} {p : Partition} {v v' : Volume T} (h : Ready M p f v)
    (hkept : Kept v v') (hfound : f'.found = f.found) (hle : f'.eod ≤ v.dev.eod p) :
    Ready M p f' v' := by
  constructor
  · rw [hkept.eod]
    exact hle
  · rw [hfound, hkept.eod]
    exact h.content
  · rw [hfound, hkept.medium]
    exact h.ends

theorem Finding.blocksAfter_congr {f f' : Finding T} (h : f'.found = f.found) :
    f'.blocksAfter = f.blocksAfter := by
  unfold Finding.blocksAfter
  rw [h]

theorem Finding.extraBlocks_false {f : Finding T} (h : f.extraBlocks = false) :
    f.blocksAfter = false := by
  unfold Finding.extraBlocks at h
  unfold Finding.blocksAfter
  cases hfound : f.found with
  | none => rfl
  | some s =>
    rw [hfound] at h
    simpa using h

theorem Finding.extraBlocks_of_found {f : Finding T} (hsome : f.found.isSome = true)
    (h : f.blocksAfter = false) : f.extraBlocks = false := by
  obtain ⟨s, hs⟩ := Option.isSome_iff_exists.mp hsome
  unfold Finding.blocksAfter at h
  unfold Finding.extraBlocks
  rw [hs] at h ⊢
  simpa using h

@[simp] theorem noteEnds_dev (ip dp : Finding T) (v : Volume T) :
    (noteEnds ip dp v).dev = v.dev := by
  unfold noteEnds
  dsimp only
  split <;> split <;> rfl

@[simp] theorem noteEnds_index (ip dp : Finding T) (v : Volume T) :
    (noteEnds ip dp v).index = v.index := by
  unfold noteEnds
  dsimp only
  split <;> split <;> rfl

@[simp] theorem noteEnds_dirty (ip dp : Finding T) (v : Volume T) :
    (noteEnds ip dp v).dirty = v.dirty := by
  unfold noteEnds
  dsimp only
  split <;> split <;> rfl

theorem noteEnds_ip (ip dp : Finding T) (v : Volume T) :
    (noteEnds ip dp v).ipIndexFileEnd
      = (v.ipIndexFileEnd || (ip.found.isSome && ! ip.blocksAfter)) := by
  unfold noteEnds
  dsimp only
  split <;> split <;> simp_all

theorem noteEnds_dp (ip dp : Finding T) (v : Volume T) :
    (noteEnds ip dp v).dpIndexFileEnd
      = (v.dpIndexFileEnd || (dp.found.isSome && ! dp.blocksAfter)) := by
  unfold noteEnds
  dsimp only
  split <;> split <;> simp_all

end Check

section Restoring

variable {T : Type} (M : MediumReader T)

/-! ## Up to the last step -/

/-- The append position of the index partition, and the end of its blocks, when both have been set
for extra blocks. -/
structure PlacedIp (m : List (Record T)) (ip ip' : Finding T) (u : Volume T) : Prop where
  found : ip'.found = ip.found
  same : ip.blocksAfter = false → ip'.eod = ip.eod ∧ u.dev.appendPos .ip = ip.eod
  blocks : ∀ s ∈ ip.found, s.blocksAfter = true →
    u.dev.appendPos .ip = s.index.selfptr.block - 1 ∧ ip'.eod = extraEnd m s

/-- What is known of the volume before consistency is restored, from the choice of the index on. -/
structure Restoring (recoverExtra : Bool) (m : List (Record T)) (ip dp : Finding T)
    (v u : Volume T) (index : Index T) : Prop where
  inUse : inUse ip dp = some index
  selfptr : u.index.selfptr = index.selfptr
  dirty : u.dirty = ! settles ip dp
  isWorm : u.dev.isWorm = v.dev.isWorm
  clean : u.dirty = false → M.extents u.index.root = M.extents index.root
  append : EodTruthful v.dev → u.dirty = true →
    u.dev.appendPos .ip = safeBelow M recoverExtra m ip dp index.root
  lost : EodTruthful v.dev → LostSpared M recoverExtra m ip index.root →
    ∃ lost, M.extents u.index.root = M.extents index.root ++ lost ∧ ∀ e ∈ lost, ∀ block,
      Refers M e .ip block → block < safeBelow M recoverExtra m ip dp index.root

variable {M}

theorem Finding.blocksAfter_of_found {f : Finding T} {s : SoughtIndex T} (h : f.found = some s) :
    f.blocksAfter = s.blocksAfter := by
  unfold Finding.blocksAfter
  rw [h]
  rfl

theorem Finding.endOfIdx_of_found {f : Finding T} {s : SoughtIndex T} (h : f.found = some s) :
    f.endOfIdx = s.indexEndPos := by
  unfold Finding.endOfIdx
  rw [h]
  rfl

/-- Without extra blocks on the index partition the index goes to the end of data. -/
theorem safeBelow_eod {recoverExtra : Bool} {m : List (Record T)} {ip dp : Finding T} {root : T}
    (hblocks : ip.blocksAfter = false) (hunsettled : settles ip dp = false)
    (hnone : ip.found = none → recoverExtra = true ∨ ip.eod = 4) :
    safeBelow M recoverExtra m ip dp root = ip.eod := by
  unfold safeBelow
  cases hfound : ip.found with
  | none =>
    dsimp only
    rcases hnone hfound with h | h
    · rw [if_pos h]
    · rw [h, ite_self]
  | some s =>
    rw [Finding.blocksAfter_of_found hfound] at hblocks
    dsimp only
    rw [hblocks, hunsettled, if_neg Bool.false_ne_true, if_neg Bool.false_ne_true]

/-- What is given up or recovered does not move the append position elsewhere. -/
theorem PlacedIp.recover {recoverExtra : Bool} {m : List (Record T)} {ip ip' dp dp' : Finding T}
    {u : Volume T} (h : PlacedIp m ip ip' u) (hlabel : 4 ≤ ip.eod)
    (hunsettled : settles ip dp = false) :
    (recover M recoverExtra ip' dp' u).2.dev.appendPos .ip
      = safeBelow M recoverExtra m ip dp u.index.root := by
  rw [recover_appendPos]
  unfold safeBelow giveUpIp
  rw [h.found]
  cases hfound : ip.found with
  | none =>
    have hblocks : ip.blocksAfter = false := by
      unfold Finding.blocksAfter
      rw [hfound]
      rfl
    obtain ⟨heod, happend⟩ := h.same hblocks
    dsimp only
    rw [heod, happend]
    cases recoverExtra with
    | true => rfl
    | false =>
      rw [if_neg Bool.false_ne_true, if_neg Bool.false_ne_true]
      by_cases hlt : 4 < ip.eod
      · rw [if_pos hlt]
        exact setAppendPos_self _ _ _
      · rw [if_neg hlt, happend]
        omega
  | some s =>
    dsimp only
    by_cases hblocks : s.blocksAfter = true
    · obtain ⟨happend, heod⟩ := h.blocks s hfound hblocks
      rw [if_pos hblocks, if_pos hblocks, heod, happend]
      cases recoverExtra with
      | true => rw [if_pos rfl, if_neg (by simp)]
      | false =>
        rw [if_neg Bool.false_ne_true]
        by_cases hlast : s.indexEndPos ≤ lastRef M .ip u.index.root ∧
            lastRef M .ip u.index.root < extraEnd m s
        · rw [if_pos hlast, if_pos ⟨rfl, hlast⟩]
          exact setAppendPos_self _ _ _
        · have hlast' : ¬ ((! false) = true ∧ s.indexEndPos ≤ lastRef M .ip u.index.root ∧
              lastRef M .ip u.index.root < extraEnd m s) := fun hc => hlast hc.2
          rw [if_neg hlast, if_neg hlast']
          split
          · exact setAppendPos_self _ _ _
          · exact happend
    · have hsame := h.same (by
        rw [Finding.blocksAfter_of_found hfound]
        exact Bool.eq_false_iff.mpr hblocks)
      rw [if_neg hblocks, if_neg hblocks, hunsettled, if_neg Bool.false_ne_true, ite_self]
      exact hsame.2

/-- Lost files are for blocks before the new index, unless it is written over them. -/
theorem PlacedIp.lost {m : List (Record T)} {ip ip' dp : Finding T} {u : Volume T} {root : T}
    {e : ExtentInfo} (h : PlacedIp m ip ip' u) (hunsettled : settles ip dp = false)
    (hspared : LostSpared M true m ip root)
    (he : LostFile M .ip (max ip'.endOfIdx (lastRef M .ip root + 1)) ip'.eod e) :
    e.start.block < safeBelow M true m ip dp root := by
  have hlt := he.lt
  by_cases hblocks : ip.blocksAfter = true
  · -- there is no such file
    obtain ⟨s, hs⟩ : ∃ s, ip.found = some s := by
      unfold Finding.blocksAfter at hblocks
      cases hfound : ip.found with
      | none =>
        rw [hfound] at hblocks
        cases hblocks
      | some s => exact ⟨s, rfl⟩
    rw [Finding.blocksAfter_of_found hs] at hblocks
    have hle := hspared rfl s hs hblocks
    have hfirst := he.first_le
    rw [Finding.endOfIdx_of_found (h.found.trans hs)] at hfirst
    rw [(h.blocks s hs hblocks).2] at hlt
    omega
  · rw [Bool.not_eq_true] at hblocks
    rw [safeBelow_eod hblocks hunsettled fun _ => .inl rfl]
    rw [(h.same hblocks).1] at hlt
    exact hlt

variable (M) in
/-- Both append positions have been set: what is known of the volume and of its partitions. -/
structure Positioned (m : List (Record T)) (ip dp ip' dp' : Finding T) (v u : Volume T) : Prop where
  kept : Kept v u
  readyIp : Ready M .ip ip' u
  readyDp : Ready M .dp dp' u
  append_le : ∀ p, u.dev.appendPos p ≤ u.dev.eod p
  foundIp : ip'.found = ip.found
  foundDp : dp'.found = dp.found
  placed : EodTruthful v.dev → PlacedIp m ip ip' u

/-- `tape_set_ip_append_position` behind `tape_set_dp_append_position`, on a volume `v₁` that has
another index than `v`. -/
theorem positioned {fix : Bool} {ip ip' dp dp' : Finding T} {v v₁ v₂ v₃ : Volume T}
    {m : List (Record T)} (hkept₁ : Kept v v₁) (hok₁ : v₁.dev.Ok) (hip : Ready M .ip ip v)
    (hdp : Ready M .dp dp v) (happend : v₁.dev.appendPos .ip = ip.eod)
    (hm : ip.blocksAfter = true → v.dev.medium .ip = m)
    (hplaced : placeAppend fix .dp dp v₁ = (.ok dp', v₂))
    (hplaced' : placeAppend fix .ip ip v₂ = (.ok ip', v₃)) :
    Positioned M m ip dp ip' dp' v v₃ ∧ v₃.dirty = v₁.dirty ∧ v₃.index = v₁.index := by
  have hdp₂ := placeAppend_spec (hdp.of_kept hkept₁ rfl hdp.eod_le) hok₁.posOk
    (hok₁.appendPos_le .dp) hplaced
  have hkept₂ := hkept₁.trans hdp₂.kept
  have hip₂ : Ready M .ip ip v₂ := hip.of_kept hkept₂ rfl hip.eod_le
  have hpos₂ : v₂.dev.PosOk := hdp₂.kept.posOk hok₁.posOk
  have happend₂ : v₂.dev.appendPos .ip = ip.eod := (hdp₂.others .ip (by decide)).trans happend
  have hle₂ : v₂.dev.appendPos .ip ≤ v₂.dev.eod .ip := by
    rw [happend₂]
    exact hip₂.eod_le
  have hip₃ := placeAppend_spec hip₂ hpos₂ hle₂ hplaced'
  have hkept₃ : Kept v v₃ := hkept₂.trans hip₃.kept
  refine ⟨?_, hip₃.dirty.trans hdp₂.dirty, hip₃.index.trans hdp₂.index⟩
  constructor
  · exact hkept₃
  · refine hip.of_kept hkept₃ hip₃.found ?_
    rw [← hkept₂.eod .ip]
    exact hip₃.eod_le
  · refine hdp.of_kept hkept₃ hdp₂.found ?_
    rw [← hkept₁.eod .dp]
    exact hdp₂.eod_le
  · intro p
    rw [hip₃.kept.eod]
    cases p with
    | ip => exact hip₃.append_le
    | dp =>
      rw [hip₃.others .dp (by decide), hdp₂.kept.eod]
      exact hdp₂.append_le
  · exact hip₃.found
  · exact hdp₂.found
  · intro htruth
    refine ⟨hip₃.found, fun hblocks => ?_, fun s hs hblocks => ?_⟩
    · obtain ⟨rfl, rfl⟩ := placeAppend_same hblocks hplaced'
      exact ⟨rfl, happend₂⟩
    · obtain ⟨-, -, hge, hle⟩ := hip₂.content s hs
      have h := placeAppend_ip (htruth.congr hkept₂.answers) hpos₂ hs (hge.trans hle) hblocks
        hplaced'
      rw [hkept₂.medium, hm (by rw [Finding.blocksAfter_of_found hs]; exact hblocks)] at h
      exact h

section Choice

variable {recoverExtra : Bool} {m : List (Record T)} {ip dp ip' dp' : Finding T} {v u : Volume T}
  {index : Index T}

/-- The recovery of extra blocks, which sets the index dirty. -/
theorem Positioned.recovered (h : Positioned M m ip dp ip' dp' v u)
    (hlabel : 4 ≤ ip.eod) (hinUse : inUse ip dp = some index) (hindex : u.index = index)
    (hextra : (ip.extraBlocks || dp.extraBlocks) = true)
    (hneg : ¬ (recover M recoverExtra ip' dp' u).1 < 0) :
    Kept u (recover M recoverExtra ip' dp' u).2 ∧
      (∀ p, (recover M recoverExtra ip' dp' u).2.dev.appendPos p ≤ u.dev.eod p) ∧
      Restoring M recoverExtra m ip dp v (recover M recoverExtra ip' dp' u).2 index := by
  have hunsettled : settles ip dp = false := by
    unfold settles
    rw [hextra, Bool.not_true, Bool.and_false]
  have hr := recover_spec recoverExtra h.readyIp h.readyDp h.append_le
  have hset := hr.dirty hneg
  refine ⟨hr.kept, hr.append_le, ?_⟩
  constructor
  · exact hinUse
  · rw [hr.selfptr, hindex]
  · rw [hset, hunsettled]
    rfl
  · exact hr.kept.isWorm.trans h.kept.isWorm
  · intro hclean
    rw [hset] at hclean
    cases hclean
  · intro htruth _
    rw [(h.placed htruth).recover hlabel hunsettled, hindex]
  · intro htruth hspared
    obtain ⟨lost, hlost, hall⟩ := recover_lost hneg
    rw [hindex] at hlost hall
    refine ⟨lost, hlost, fun e he block hrefers => ?_⟩
    obtain ⟨rfl, hfile | hother⟩ := hall e he
    · rw [(hfile.refers hrefers).2]
      exact (h.placed htruth).lost hunsettled hspared hfile
    · have := hrefers.1
      rw [hother] at this
      cases this

/-- Without extra blocks nothing is recovered. -/
theorem Positioned.unextended (h : Positioned M m ip dp ip' dp' v u)
    (hinUse : inUse ip dp = some index) (hindex : u.index = index)
    (hdirty : u.dirty = ! upToDate ip dp)
    (hextra : (ip.extraBlocks || dp.extraBlocks) = false) :
    Restoring M recoverExtra m ip dp v u index := by
  have hsettled : u.dirty = ! settles ip dp := by
    unfold settles
    rw [hextra, hdirty]
    simp
  rw [Bool.or_eq_false_iff] at hextra
  have hblocks : ip.blocksAfter = false := Finding.extraBlocks_false hextra.1
  constructor
  · exact hinUse
  · rw [hindex]
  · exact hsettled
  · exact h.kept.isWorm
  · intro _
    rw [hindex]
  · intro htruth hd
    rw [((h.placed htruth).same hblocks).2]
    rw [hsettled, Bool.not_eq_true'] at hd
    refine (safeBelow_eod hblocks hd fun hnone => .inr ?_).symm
    have hip := hextra.1
    unfold Finding.extraBlocks at hip
    rw [hnone] at hip
    simpa using hip
  · intro _ _
    exact ⟨[], by rw [hindex, List.append_nil], by simp⟩


/-- The volume whose last indexes have been noted. -/
theorem Positioned.noted (h : Positioned M m ip dp ip' dp' v u) {u' : Volume T}
    (hpos : v.dev.PosOk) (hfresh : v.ipIndexFileEnd = false) (hdp : Ready M .dp dp v)
    (hkept : Kept u u') (hle : ∀ p, u'.dev.appendPos p ≤ u.dev.eod p)
    (hrest : Restoring M recoverExtra m ip dp v u' index) :
    Noted M ip' dp' (noteEnds ip' dp' u') := by
  have hkept' := h.kept.trans hkept
  have hblocks_ip := Finding.blocksAfter_congr h.foundIp
  have hblocks_dp := Finding.blocksAfter_congr h.foundDp
  constructor
  · rw [noteEnds_dev]
    refine ⟨hkept'.posOk hpos, fun p => ?_⟩
    rw [hkept.eod]
    exact hle p
  · exact (h.readyIp.of_kept hkept rfl h.readyIp.eod_le).of_medium (by rw [noteEnds_dev])
  · exact (h.readyDp.of_kept hkept rfl h.readyDp.eod_le).of_medium (by rw [noteEnds_dev])
  · rw [noteEnds_ip]
    have hfresh' : u'.ipIndexFileEnd = false := (congrFun hkept'.endsInIndex .ip).trans hfresh
    rw [hfresh']
    simp
  · intro hsome hblocks
    rw [noteEnds_dp, hsome, hblocks]
    simp
  · rw [noteEnds_dirty, noteEnds_index]
    intro hd
    rw [hrest.dirty, Bool.not_eq_false'] at hd
    unfold settles at hd
    simp only [Bool.and_eq_true, Bool.not_eq_true', Bool.or_eq_false_iff] at hd
    obtain ⟨hup, hextra⟩ := hd
    obtain ⟨i, d, hi, hd', hindex⟩ := inUse_upToDate hrest.inUse hup
    have hib := Finding.extraBlocks_false hextra.1
    rw [Finding.blocksAfter_of_found hi] at hib
    refine ⟨?_, ?_, i, h.foundIp.trans hi, hib, ?_⟩
    · rw [h.foundDp, hd']
      rfl
    · rw [hblocks_dp]
      exact Finding.extraBlocks_false hextra.2
    · rw [hrest.selfptr, hindex]
  · rw [noteEnds_dirty, noteEnds_index, hblocks_ip, hblocks_dp, h.foundIp, h.foundDp]
    intro hd hisome hiblocks hdsome hdblocks
    rw [hrest.dirty, Bool.not_eq_true'] at hd
    unfold settles at hd
    rw [Finding.extraBlocks_of_found hisome hiblocks,
      Finding.extraBlocks_of_found hdsome hdblocks] at hd
    obtain ⟨i, hi⟩ := Option.isSome_iff_exists.mp hisome
    obtain ⟨d, hd'⟩ := Option.isSome_iff_exists.mp hdsome
    obtain ⟨-, hpart, -, -⟩ := hdp.content d hd'
    rw [hrest.selfptr, inUse_outdated hrest.inUse (by simpa using hd) hi hd']
    exact hpart

theorem Restoring.noteEnds (h : Restoring M recoverExtra m ip dp v u index) (ip' dp' : Finding T) :
    Restoring M recoverExtra m ip dp v (noteEnds ip' dp' u) index := by
  constructor
  · exact h.inUse
  · rw [noteEnds_index]
    exact h.selfptr
  · rw [noteEnds_dirty]
    exact h.dirty
  · rw [noteEnds_dev]
    exact h.isWorm
  · rw [noteEnds_dirty, noteEnds_index]
    exact h.clean
  · rw [noteEnds_dirty, noteEnds_dev]
    exact h.append
  · rw [noteEnds_index]
    exact h.lost

end Choice

/-- From the choice of the index on: either the check fails, or consistency is to be restored. -/
theorem repair_cases {fix deep recoverExtra : Bool} {ip dp : Finding T} {v : Volume T}
    {m : List (Record T)} (hok : v.dev.Ok) (hip : Ready M .ip ip v) (hdp : Ready M .dp dp v)
    (hfresh : v.ipIndexFileEnd = false) (happend : v.dev.appendPos .ip = ip.eod)
    (hlabel : 4 ≤ ip.eod) (hm : ip.blocksAfter = true → v.dev.medium .ip = m) :
    (∃ ret u, repair M fix deep recoverExtra ip dp v = .failed ret u) ∨
    ∃ ip' dp' u index, Noted M ip' dp' u ∧ Restoring M recoverExtra m ip dp v u index ∧
      repair M fix deep recoverExtra ip dp v = restore M fix dp' u := by
  unfold repair
  dsimp only
  split
  · exact .inl ⟨_, _, rfl⟩
  · rename_i hdeep
    rcases hchoose : chooseIndex M ip dp v.dev with ret | ⟨index, dirty⟩
    · exact .inl ⟨_, _, rfl⟩
    · obtain ⟨hinUse, hup⟩ := chooseIndex_inUse hchoose
      dsimp only
      set v₁ : Volume T := { v with dev := v.dev.tick, index := index, dirty := dirty } with hv₁
      have hkept₁ : Kept v v₁ := ⟨rfl, rfl, rfl, rfl, id⟩
      have hok₁ : v₁.dev.Ok := (tick_same v.dev).ok hok
      rcases hplaced : placeAppend fix .dp dp v₁ with ⟨ret | dp', v₂⟩
      · exact .inl ⟨_, _, rfl⟩
      · dsimp only
        rcases hplaced' : placeAppend fix .ip ip v₂ with ⟨ret | ip', v₃⟩
        · exact .inl ⟨_, _, rfl⟩
        · obtain ⟨hset, hdirty, hindex⟩ :=
            positioned hkept₁ hok₁ hip hdp happend hm hplaced hplaced'
          dsimp only
          by_cases hextra : (ip.extraBlocks || dp.extraBlocks) = true
          · rw [hextra] at hdeep ⊢
            have hboth : (deep && true) = true := by simpa using hdeep
            rw [if_pos hboth]
            by_cases hneg : (recover M recoverExtra ip' dp' v₃).1 < 0
            · rw [if_pos hneg]
              exact .inl ⟨_, _, rfl⟩
            · rw [if_neg hneg]
              obtain ⟨hkept, hle, hrest⟩ := hset.recovered hlabel hinUse hindex hextra hneg
              exact .inr ⟨ip', dp', _, index, hset.noted hok.posOk hfresh hdp hkept hle hrest,
                hrest.noteEnds ip' dp', rfl⟩
          · rw [Bool.not_eq_true] at hextra
            rw [hextra, Bool.and_false, if_neg Bool.false_ne_true, if_neg (lt_irrefl 0)]
            have hrest : Restoring M recoverExtra m ip dp v v₃ index :=
              hset.unextended hinUse hindex (hdirty.trans hup) hextra
            exact .inr ⟨ip', dp', _, index,
              hset.noted hok.posOk hfresh hdp (.refl v₃) hset.append_le hrest,
              hrest.noteEnds ip' dp', rfl⟩

end Restoring

section Last

variable {T : Type} {M : MediumReader T}

theorem Restoring.congr {recoverExtra : Bool} {m : List (Record T)} {ip dp : Finding T}
    {v v' u : Volume T} {index : Index T} (h : Restoring M recoverExtra m ip dp v u index)
    (hworm : v.dev.isWorm = v'.dev.isWorm) (hanswers : v.dev.answers = v'.dev.answers) :
    Restoring M recoverExtra m ip dp v' u index :=
  ⟨h.inUse, h.selfptr, h.dirty, h.isWorm.trans hworm, h.clean,
    fun htruth => h.append (htruth.congr hanswers), fun htruth => h.lost (htruth.congr hanswers)⟩

/-- Behind the label. -/
theorem safeBelow_pos {recoverExtra : Bool} {m : List (Record T)} {ip dp : Finding T} {root : T}
    {v : Volume T} (hip : Ready M .ip ip v) (hlabel : 4 ≤ ip.eod) :
    0 < safeBelow M recoverExtra m ip dp root := by
  unfold safeBelow
  cases hfound : ip.found with
  | none =>
    dsimp only
    split <;> omega
  | some s =>
    obtain ⟨hcontent, -, hge, -⟩ := hip.content s hfound
    dsimp only
    split
    · split
      · rename_i hlast
        omega
      · omega
    · split <;> omega

/-- An index that is up to date stays where it is. -/
theorem safeBelow_settled {recoverExtra : Bool} {m : List (Record T)} {ip dp : Finding T}
    {root : T} {index : Index T} (h : settles ip dp = true) (hindex : inUse ip dp = some index) :
    safeBelow M recoverExtra m ip dp root = index.selfptr.block - 1 := by
  have hsettles := h
  unfold settles at h
  simp only [Bool.and_eq_true, Bool.not_eq_true', Bool.or_eq_false_iff] at h
  obtain ⟨hup, hextra, -⟩ := h
  unfold upToDate at hup
  unfold inUse at hindex
  unfold safeBelow
  cases hip : ip.found with
  | none =>
    rw [hip] at hup
    cases hup
  | some s =>
    cases hdp : dp.found with
    | none =>
      rw [hip, hdp] at hup
      cases hup
    | some d =>
      rw [hip, hdp] at hup hindex
      have hblocks := Finding.extraBlocks_false hextra
      rw [Finding.blocksAfter_of_found hip] at hblocks
      dsimp only at hindex ⊢
      rw [if_pos (of_decide_eq_true hup), Option.some.injEq] at hindex
      rw [hblocks, hsettles, if_neg Bool.false_ne_true, if_pos rfl, hindex]

/-- Nothing is written, or the index partition is left to be written. -/
theorem restore_cases {fix : Bool} {dp : Finding T} {u : Volume T} (hok : u.dev.Ok) :
    (∃ ret w, restore M fix dp u = .failed ret w) ∨
    (u.dirty = false ∧ restore M fix dp u = .settled (updateCartCoherency u)) ∨
    (u.dirty = true ∧ ∃ w, restore M fix dp u = .writeIp w ∧ w.index.root = u.index.root ∧
      w.dev.isWorm = u.dev.isWorm ∧ w.dev.appendPos .ip = u.dev.appendPos .ip) := by
  unfold restore
  cases hdirty : u.dirty with
  | false =>
    rw [if_pos (by rfl)]
    exact .inr (.inl ⟨rfl, rfl⟩)
  | true =>
    rw [if_neg (by simp)]
    split
    · exact .inl ⟨_, _, rfl⟩
    · split
      · exact .inl ⟨_, _, rfl⟩
      · dsimp only
        by_cases hneeded : (dp.found.isNone || dp.blocksAfter) = true
        · rw [if_pos hneeded]
          split
          · rename_i hzero
            rw [writeIndex_dp] at hzero ⊢
            have hdone := writeIndexFlat_done hok hzero
            refine .inr (.inr ⟨rfl, _, rfl, ?_, hdone.beside.isWorm,
              hdone.beside.appendPos .ip (by decide)⟩)
            rw [hdone.index]
            rfl
          · exact .inl ⟨_, _, rfl⟩
        · rw [if_neg hneeded, if_pos rfl]
          exact .inr (.inr ⟨rfl, u, rfl, rfl, rfl, rfl⟩)

theorem lookFor_lastFound {recoverSymlink : Bool} {p : Partition} {v v' : Volume T} {f : Finding T}
    (h : lookFor M recoverSymlink p v = (.ok f, v')) :
    M.lastFound recoverSymlink p (v.dev.medium p) = some f.closed := by
  unfold lookFor at h
  unfold MediumReader.lastFound
  cases hans : v.dev.answer with
  | error code junk =>
    rw [hans] at h
    cases h
  | ok early programmable =>
    rw [hans] at h
    dsimp only at h
    generalize XmlTape.ltfsSeekIndex (M.reader recoverSymlink (v.dev.medium p)) p
      ⟨(v.dev.medium p).map M.image, 0, []⟩ = r at h
    rcases r with _ | ret | ⟨eod, _ | s⟩
    · cases h
    · cases h
    · cases h
      rfl
    · cases h
      rfl

theorem Finding.eod_le_closed (f : Finding T) : f.eod ≤ f.closed.eod := by
  unfold Finding.closed
  split
  · split
    · exact Nat.le_succ f.eod
    · exact le_refl f.eod
  · exact le_refl f.eod

theorem closeIndex_eq_closed {p : Partition} {f f' : Finding T} {v v' : Volume T}
    (h : closeIndex p f v = (.ok f', v')) :
    f' = f.closed ∧ (f'.blocksAfter = true → v'.dev.medium p = v.dev.medium p) := by
  unfold closeIndex at h
  unfold Finding.closed
  cases hfound : f.found with
  | none =>
    rw [hfound] at h
    cases h
    exact ⟨rfl, fun _ => rfl⟩
  | some s =>
    rw [hfound] at h
    dsimp only at h ⊢
    by_cases hneeded : (! s.blocksAfter && ! s.fmAfter) = true
    · rw [if_pos hneeded] at h ⊢
      split at h
      · cases h
      · split at h
        · cases h
        · cases h
          simp only [Bool.and_eq_true, Bool.not_eq_true'] at hneeded
          refine ⟨rfl, fun hblocks => ?_⟩
          have hs : s.blocksAfter = true := hblocks
          rw [hneeded.1] at hs
          cases hs
    · rw [if_neg hneeded] at h ⊢
      cases h
      exact ⟨rfl, fun _ => rfl⟩

/-- The check of a medium that carries labels, for a volume that has just been allocated: it fails,
or consistency is to be restored, with one of the indexes that were found in memory. -/
theorem checkMedium_cases {fix deep recoverExtra recoverSymlink : Bool} {v : Volume T}
    (hlabel : ∀ p, fmAt (v.dev.medium p) 3 = true) (hpos : v.dev.PosOk)
    (hfresh : v.ipIndexFileEnd = false) :
    (∃ ret u, checkMedium M fix deep recoverExtra recoverSymlink v = .failed ret u) ∨
    ∃ ip dp ip' dp' u index, M.lastFound recoverSymlink .ip (v.dev.medium .ip) = some ip ∧
      M.lastFound recoverSymlink .dp (v.dev.medium .dp) = some dp ∧ Noted M ip' dp' u ∧
      Restoring M recoverExtra (v.dev.medium .ip) ip dp v u index ∧
      0 < safeBelow M recoverExtra (v.dev.medium .ip) ip dp index.root ∧
      checkMedium M fix deep recoverExtra recoverSymlink v = restore M fix dp' u := by
  unfold checkMedium
  rcases hip : lookFor M recoverSymlink .ip v with ⟨ret | ip, v₁⟩
  · exact .inl ⟨_, _, rfl⟩
  · obtain ⟨hkept₁, happend₁, heod₁, hsought₁⟩ := lookFor_spec (hlabel .ip) hip
    dsimp only
    rcases hdp : lookFor M recoverSymlink .dp v₁ with ⟨ret | dp, v₂⟩
    · exact .inl ⟨_, _, rfl⟩
    · have hlabel₁ : fmAt (v₁.dev.medium .dp) 3 = true := by
        rw [hkept₁.medium]
        exact hlabel .dp
      obtain ⟨hkept₂, happend₂, heod₂, hsought₂⟩ := lookFor_spec hlabel₁ hdp
      have hlast := lookFor_lastFound hip
      have hlast' := lookFor_lastFound hdp
      rw [hkept₁.medium] at hlast'
      dsimp only
      split
      · exact .inl ⟨_, _, rfl⟩
      · -- both append positions are at the end of data
        have hap : ∀ p, v₂.dev.appendPos p = v₂.dev.eod p := by
          intro p
          rw [hkept₂.eod, happend₂]
          cases p with
          | dp => rw [Function.update_self]
          | ip =>
            rw [Function.update_of_ne (by decide), happend₁, Function.update_self, hkept₁.eod]
        rcases hclose : closeIndex .dp dp v₂ with ⟨ret | dp', v₃⟩
        · exact .inl ⟨_, _, rfl⟩
        · obtain ⟨hready_dp, -, happend₃, haside₃⟩ := closeIndex_spec (M := M)
            (by rw [hkept₂.medium]; exact hsought₂) (by rw [hkept₂.eod]; exact heod₂) (hap .dp) hclose
          obtain ⟨rfl, -⟩ := closeIndex_eq_closed hclose
          have hmedium₃ := haside₃.medium .ip (by decide)
          have heod₃ : v₃.dev.eod .ip = v₂.dev.eod .ip := by
            unfold Device.eod
            rw [hmedium₃]
          have happend_ip : v₃.dev.appendPos .ip = v₃.dev.eod .ip := by
            rw [haside₃.appendPos .ip (by decide), heod₃]
            exact hap .ip
          dsimp only
          rcases hclose' : closeIndex .ip ip v₃ with ⟨ret | ip', v₄⟩
          · exact .inl ⟨_, _, rfl⟩
          · obtain ⟨hready_ip, heod_ip, happend₄, haside₄⟩ := closeIndex_spec (M := M)
              (by rw [hmedium₃, hkept₂.medium, hkept₁.medium]; exact hsought₁)
              (by rw [heod₃, hkept₂.eod, hkept₁.eod]; exact heod₁) happend_ip hclose'
            obtain ⟨rfl, hsame⟩ := closeIndex_eq_closed hclose'
            have hmedium₄ := haside₄.medium .dp (by decide)
            have heod₄ : v₄.dev.eod .dp = v₃.dev.eod .dp := by
              unfold Device.eod
              rw [hmedium₄]
            have hok₄ : v₄.dev.Ok := by
              refine ⟨haside₄.posOk (haside₃.posOk (hkept₂.posOk (hkept₁.posOk hpos))), fun p => ?_⟩
              cases p with
              | ip => exact happend₄.le
              | dp =>
                rw [haside₄.appendPos .dp (by decide), heod₄]
                exact happend₃.le
            have hends : v₄.endsInIndex = v.endsInIndex :=
              haside₄.endsInIndex.trans (haside₃.endsInIndex.trans
                (hkept₂.endsInIndex.trans hkept₁.endsInIndex))
            have hmedium : v₃.dev.medium .ip = v.dev.medium .ip := by
              rw [hmedium₃, hkept₂.medium, hkept₁.medium]
            have hlabel₄ : 4 ≤ ip.closed.eod := by
              have hlt := fmAt_lt (hlabel .ip)
              have heod : v.dev.eod .ip = (v.dev.medium .ip).length := rfl
              have hle := ip.eod_le_closed
              omega
            have hworm : v₄.dev.isWorm = v.dev.isWorm :=
              haside₄.isWorm.trans (haside₃.isWorm.trans (hkept₂.isWorm.trans hkept₁.isWorm))
            have hanswers : v₄.dev.answers = v.dev.answers :=
              haside₄.answers.trans (haside₃.answers.trans (hkept₂.answers.trans hkept₁.answers))
            have hrepair := @repair_cases T M fix deep recoverExtra _ _ v₄ _ hok₄ hready_ip
              (hready_dp.of_medium hmedium₄) ((congrFun hends .ip).trans hfresh)
              (happend₄.trans heod_ip.symm) hlabel₄ fun hblocks => (hsame hblocks).trans hmedium
            rcases hrepair with hfailed | ⟨ip', dp', u, index, hnoted, hrest, heq⟩
            · exact .inl hfailed
            · exact .inr ⟨_, _, ip', dp', u, index, hlast, hlast', hnoted,
                hrest.congr hworm hanswers, safeBelow_pos hready_ip hlabel₄, heq⟩

end Last

section Good

variable {T : Type} {M : MediumReader T}

/-- The check of a medium that carries labels, for a volume that has just been allocated. -/
theorem checkMedium_good {fix deep recoverExtra recoverSymlink : Bool} {v : Volume T}
    (hlabel : ∀ p, fmAt (v.dev.medium p) 3 = true) (hpos : v.dev.PosOk)
    (hfresh : v.ipIndexFileEnd = false) :
    (checkMedium M fix deep recoverExtra recoverSymlink v).Good M := by
  rcases @checkMedium_cases T M fix deep recoverExtra recoverSymlink v hlabel hpos hfresh with
    ⟨ret, u, heq⟩ | ⟨ip, dp, ip', dp', u, index, -, -, hnoted, -, -, heq⟩
  · rw [heq]
    trivial
  · rw [heq]
    exact restore_good hnoted

end Good

end Ltfs.CheckMedium

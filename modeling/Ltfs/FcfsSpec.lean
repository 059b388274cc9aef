import Ltfs.Fcfs
import Ltfs.Fsraw.ReadFrame
import Ltfs.Mounted

/-!
# Every read returns what the writes have stored

* `Preserves` — a write to the tape leaves alone what lies before the append positions, whatever
  the drive makes of it; so does a revalidation (`Searched`).
* `Ready` — the files are stored before the append positions, and the block cache is right.
* `content` — the files as sizes and bytes.
* `Serves`, `Explains` — the answers to a call and to a sequence of calls on such files.
* `exec_served`, `fcfs_refines` — one call, and any sequence of calls, get the answers of the files
  that are stored.
-/

namespace Ltfs.Fcfs

open Lib Segment
open CheckMedium (Travelled)

section Tape

variable {T : Type}

/-! ## What a write leaves alone -/

/-- What lies before the append positions stays, and so does the rest that files need. -/
structure Preserves (v v' : Volume T) : Prop where
  ok : v'.dev.Ok
  medium : ∀ p, (v'.dev.medium p).take (v.dev.appendBlock p)
    = (v.dev.medium p).take (v.dev.appendBlock p)
  append : ∀ p, v.dev.appendBlock p ≤ v'.dev.appendBlock p
  root : v'.index.root = v.index.root
  blocksize : v'.blocksize = v.blocksize

theorem Preserves.refl {v : Volume T} (hok : v.dev.Ok) : Preserves v v :=
  ⟨hok, fun _ => rfl, fun _ => le_refl _, rfl, rfl⟩

theorem Preserves.trans {v₁ v₂ v₃ : Volume T} (h : Preserves v₁ v₂) (h' : Preserves v₂ v₃) :
    Preserves v₁ v₃ := by
  refine ⟨h'.ok, fun p => ?_, fun p => (h.append p).trans (h'.append p), h'.root.trans h.root,
    h'.blocksize.trans h.blocksize⟩
  have hcut : ∀ l : List (Record T), l.take (v₁.dev.appendBlock p)
      = (l.take (v₂.dev.appendBlock p)).take (v₁.dev.appendBlock p) := by
    intro l
    rw [List.take_take, min_eq_left (h.append p)]
  rw [hcut, h'.medium p, ← hcut, h.medium p]

/-- Writing from the append position on. -/
theorem Preserves.of_write {v v' : Volume T} (hok : v.dev.Ok) {p : Partition}
    {all : List (Record T)} (hbeside : Beside p v.dev v'.dev)
    (htape : Partly p (v.dev.appendBlock p) (v.dev.medium p) all v'.dev)
    (hroot : v'.index.root = v.index.root) (hblocksize : v'.blocksize = v.blocksize) :
    Preserves v v' := by
  constructor
  · exact hbeside.ok hok htape.posOk htape.appendPos_le
  · intro q
    by_cases hq : q = p
    · subst hq
      exact htape.take (hok.appendBlock_le q)
    · rw [hbeside.medium q hq]
  · intro q
    by_cases hq : q = p
    · subst hq
      exact htape.start_le
    · exact (hbeside.appendBlock hq).ge
  · exact hroot
  · exact hblocksize

theorem Preserves.of_quiet {v v' : Volume T} (hok : v.dev.Ok) (h : Quiet v v') : Preserves v v' :=
  .of_write hok (h.tape.beside .dp) (h.partly hok .dp) (congrArg Index.root h.index) h.blocksize

theorem Preserves.of_travelled {v : Volume T} (hok : v.dev.Ok) {dev : Device T}
    (h : Travelled v.dev dev) : Preserves v { v with dev := dev } := by
  refine ⟨⟨h.posOk hok.posOk, fun p => ?_⟩, fun p => ?_, fun p => ?_, rfl, rfl⟩
  · show dev.appendPos p ≤ dev.eod p
    rw [h.appendPos, h.eod]
    exact hok.appendPos_le p
  · show (dev.medium p).take _ = _
    rw [h.medium]
  · show _ ≤ dev.appendBlock p
    unfold Device.appendBlock
    rw [h.appendPos, h.eod]

theorem Preserves.of_index {v v' : Volume T} {p : Partition} (hok : v.dev.Ok)
    (h : IndexFailed p v v' ∨ IndexDone p v v') : Preserves v v' := by
  rcases h with hfailed | hdone
  · exact .of_write hok hfailed.beside hfailed.tape (congrArg Index.root hfailed.index)
      hfailed.blocksize
  · refine .of_write hok hdone.beside hdone.partly ?_ hdone.blocksize
    rw [hdone.index]
    rfl

/-- The rules for writing an index, for this relation. -/
theorem Preserves.clearWritePerm {v v' : Volume T} (p : Partition) (h : Preserves v v') :
    Preserves v (clearWritePerm p v') := by
  rcases clearWritePerm_partly h.ok p with ⟨hbeside, htape⟩
  exact h.trans (.of_write h.ok hbeside htape rfl rfl)

theorem Preserves.writeIndexHere {v v' : Volume T} (p : Partition) (writePerm : Bool)
    (volstat : VolumeLock) (h : Preserves v v') :
    Preserves v (writeIndexHere p writePerm volstat v').2 := by
  rcases writeIndexHere_result p writePerm volstat h.ok with ⟨-, hfailed⟩ | ⟨-, hdone⟩
  · exact h.trans (.of_index h.ok (.inl hfailed))
  · exact h.trans (.of_index h.ok (.inr hdone))

theorem writeIndex_preserves (p : Partition) (writePerm : Bool) {v : Volume T} (hok : v.dev.Ok) :
    Preserves v (writeIndex p writePerm v).2 :=
  writeIndex_invariant (fun _ _ hquiet h => h.trans (.of_quiet h.ok hquiet))
    (fun q _ h => h.clearWritePerm q) (fun q w s _ h => h.writeIndexHere q w s) p writePerm
    (.refl hok)

theorem writeIndexConditional_preserves (p : Partition) {v : Volume T} (hok : v.dev.Ok) :
    Preserves v (writeIndexConditional p v).2 :=
  writeIndexConditional_invariant (fun _ _ hquiet h => h.trans (.of_quiet h.ok hquiet))
    (fun q _ h => h.clearWritePerm q) (fun q w s _ h => h.writeIndexHere q w s) p (.refl hok)

theorem writeData_preserves (p : Partition) (buf : List UInt8) (repetitions : ℕ) {v : Volume T}
    (hok : v.dev.Ok) : Preserves v (writeDataUnlocked p buf repetitions v).2 := by
  have hindex := writeIndexConditional_preserves p.other hok
  rcases writeDataUnlocked_cases p buf repetitions v with hquiet | hquiet | ⟨-, heq⟩
  · exact .of_quiet hok hquiet
  · exact hindex.trans (.of_quiet hindex.ok hquiet)
  · -- the data itself
    have hput := writeDataHere_result p buf repetitions hindex.ok
    rw [heq]
    exact hindex.trans (.of_write hindex.ok hput.beside hput.tape (congrArg Index.root hput.index)
      hput.blocksize)

/-! ## What a revalidation leaves alone -/

/-- The tape has been searched; append positions may have been forgotten. -/
structure Searched (dev dev' : Device T) : Prop where
  medium : dev'.medium = dev.medium
  appendPos : ∀ p, dev'.appendPos p = 0 ∨ dev'.appendPos p = dev.appendPos p
  posOk : dev.PosOk → dev'.PosOk
  answers : dev'.answers = dev.answers

theorem Searched.refl (dev : Device T) : Searched dev dev := ⟨rfl, fun _ => .inr rfl, id, rfl⟩

theorem Searched.moved {dev₁ dev₂ dev₃ : Device T} (h : Searched dev₁ dev₂)
    (h' : Moved dev₂ dev₃) (hpos : dev₂.PosOk → dev₃.PosOk) : Searched dev₁ dev₃ := by
  refine ⟨h'.medium.trans h.medium, fun p => ?_, fun hok => hpos (h.posOk hok),
    h'.answers.trans h.answers⟩
  rw [h'.appendPos]
  exact h.appendPos p

theorem Searched.tick {dev dev' : Device T} (h : Searched dev dev') : Searched dev dev'.tick :=
  h.moved ⟨rfl, rfl, rfl, rfl, Nat.le_succ _⟩ id

theorem Searched.onOk {dev : Device T} {r : ℤ × Device T} {next : Device T → ℤ × Device T}
    (h : Searched dev r.2) (hnext : ∀ dev', Searched dev dev' → Searched dev (next dev').2) :
    Searched dev (onOk r next).2 := by
  unfold Ltfs.onOk
  split
  · exact h
  · exact hnext _ h

theorem setupDevice_searched {dev dev' : Device T} (h : Searched dev dev') :
    Searched dev (setupDevice dev').2 := by
  unfold setupDevice
  split
  · exact h.tick
  · exact h.tick

theorem startMount_searched {dev dev' : Device T} (h : Searched dev dev') :
    Searched dev (startMount dev').2 := by
  unfold startMount
  split
  · exact h.tick
  · exact ⟨h.medium, fun _ => .inl rfl, fun _ => Nat.zero_le _, h.answers⟩

theorem labelCompare_searched (label : Partition → List (Option (List UInt8))) {dev dev' : Device T}
    (h : Searched dev dev') : Searched dev (labelCompare label dev').2 := by
  unfold labelCompare
  split
  · exact h.tick
  · split
    · exact h.tick
    · exact h.tick

theorem getCartCoherency_searched (p : Partition) {dev dev' : Device T} (h : Searched dev dev') :
    Searched dev (getCartCoherency p dev').2 := by
  unfold getCartCoherency
  split
  · exact h.tick
  · exact h.tick

theorem revalidateMam_searched (v : Volume T) {dev dev' : Device T} (h : Searched dev dev') :
    Searched dev (revalidateMam v dev').2 := by
  have hip := getCartCoherency_searched .ip h
  unfold revalidateMam
  revert hip
  rcases getCartCoherency .ip dev' with ⟨ret | coh0, dev₁⟩
  · exact id
  · intro hip
    have hdp := getCartCoherency_searched .dp hip
    revert hdp
    dsimp only
    rcases getCartCoherency .dp dev₁ with ⟨ret | coh1, dev₂⟩
    · exact id
    · intro hdp
      dsimp only
      split_ifs
      all_goals exact hdp

/-- Over one file mark, in either direction. -/
theorem tapeSpacefm_searched {count : ℤ} (hcount : count = 1 ∨ count = -1) {dev dev' : Device T}
    (h : Searched dev dev') : Searched dev (tapeSpacefm count dev').2 := by
  refine h.moved (tapeSpacefm_spec count dev').1 ?_
  rcases hcount with rfl | rfl
  · exact (CheckMedium.tapeSpacefm_one dev').1.posOk
  · unfold tapeSpacefm
    cases dev'.answer with
    | error code junk => exact id
    | ok early programmable =>
      dsimp only
      rw [if_neg (by decide)]
      cases hspace : spaceBack (dev'.medium dev'.position.partition) (- -1 : ℤ).toNat
          dev'.position.block with
      | none => exact fun _ => Nat.zero_le _
      | some block =>
        intro _
        have hbind : (fmBefore (dev'.medium dev'.position.partition) dev'.position.block).bind
            some = some block := hspace
        obtain ⟨i, hi, heq⟩ := Option.bind_eq_some_iff.mp hbind
        cases heq
        exact (fmAt_lt (fmBefore_some hi).2.1).le

theorem seekLastIndex_searched {dev dev' : Device T} (h : Searched dev dev') :
    Searched dev (seekLastIndex dev').2 := by
  refine (tapeSpacefm_searched (.inr rfl) h).onOk fun dev₁ h₁ => ?_
  split
  · exact h₁
  · exact (tapeSpacefm_searched (.inr rfl) h₁).onOk fun dev₂ h₂ =>
      tapeSpacefm_searched (.inl rfl) h₂

theorem checkDpIndex_searched (v : Volume T) {dev dev' : Device T} (h : Searched dev dev') :
    Searched dev (checkDpIndex v dev').2 := by
  refine (seekLastIndex_searched h).onOk fun dev₁ h₁ => ?_
  dsimp only
  split_ifs
  all_goals exact h₁

theorem checkIpIndex_searched (v : Volume T) {dev dev' : Device T} (h : Searched dev dev') :
    Searched dev (checkIpIndex v dev').2 := by
  refine (seekLastIndex_searched h).onOk fun dev₁ h₁ => ?_
  split
  · exact h₁
  · exact h₁

/-- The end of data becomes the append position, unless it is not reached. -/
theorem tapeSeekEod_searched (p : Partition) {dev dev' : Device T} (h : Searched dev dev') :
    Searched dev ((tapeSeekEod p dev').2.setAppendPos p (dev.appendPos p)) ∧
    ((tapeSeekEod p dev').1 < 0 → Searched dev (tapeSeekEod p dev').2) := by
  obtain ⟨hm, ha, hframe, -, hposOk, -⟩ := locate_spec p none dev'
  have hlocate : Searched dev (locate p none dev').2 := by
    refine ⟨hm.trans h.medium, fun q => ?_, fun hok => hposOk (h.posOk hok),
      hframe.answers.trans h.answers⟩
    rw [ha]
    exact h.appendPos q
  have hset : ∀ d : Device T, d.medium = dev.medium → (dev.PosOk → d.PosOk) →
      (∀ q, q ≠ p → d.appendPos q = (locate p none dev').2.appendPos q) →
      d.answers = dev.answers → Searched dev (d.setAppendPos p (dev.appendPos p)) := by
    intro d hmedium hpos happend hanswers
    refine ⟨hmedium, fun q => ?_, hpos, hanswers⟩
    by_cases hq : q = p
    · subst hq
      exact .inr (by simp [Device.setAppendPos])
    · rw [setAppendPos_ne _ _ hq, happend q hq]
      exact hlocate.appendPos q
  unfold tapeSeekEod
  dsimp only
  split
  · exact ⟨hset _ hlocate.medium hlocate.posOk (fun _ _ => rfl) hlocate.answers, fun _ => hlocate⟩
  · refine ⟨hset _ hlocate.medium hlocate.posOk (fun q hq => setAppendPos_ne _ _ hq)
      hlocate.answers, fun h => ?_⟩
    exact absurd h (lt_irrefl 0)

theorem revalidateDp_searched (v : Volume T) {dev dev' : Device T} (h : Searched dev dev') :
    Searched dev (revalidateDp v (dev.appendPos .dp) dev').2 := by
  have hseek := (tapeSeekEod_searched .dp h).1
  unfold revalidateDp
  dsimp only
  split
  · exact hseek
  · split
    · exact hseek
    · refine Searched.onOk ?_ fun dev₁ h₁ => ?_
      · split
        · exact checkDpIndex_searched v hseek
        · exact hseek
      · split
        · exact h₁
        · exact h₁

theorem revalidateIp_searched (v : Volume T) {dev dev' : Device T} (h : Searched dev dev') :
    Searched dev (revalidateIp v (dev.appendPos .ip) dev').2 := by
  obtain ⟨hseek, hfailed⟩ := tapeSeekEod_searched .ip h
  unfold revalidateIp
  rw [onOk]
  split
  · exact hfailed ‹_›
  · dsimp only
    split
    · exact hseek
    · refine Searched.onOk ?_ fun dev₁ h₁ => ?_
      · split
        · exact checkIpIndex_searched v hseek
        · exact hseek
      · split
        · exact h₁
        · exact h₁

theorem ltfsRevalidate_searched (label : Partition → List (Option (List UInt8))) (v : Volume T) :
    Searched v.dev (ltfsRevalidate label v).2.dev :=
  (setupDevice_searched (.refl v.dev)).onOk fun _ h =>
    (startMount_searched h).onOk fun _ h =>
    (labelCompare_searched label h).onOk fun _ h =>
    (revalidateMam_searched v h.tick.tick).onOk fun _ h =>
    (revalidateDp_searched v h).onOk fun _ h =>
    revalidateIp_searched v h

theorem ltfsRevalidate_le (label : Partition → List (Option (List UInt8))) (v : Volume T) :
    (ltfsRevalidate label v).1 ≤ 0 :=
  onOk_le (fun _ => onOk_le (fun _ => onOk_le (fun _ => onOk_le (fun _ => onOk_le
    (fun _ => (revalidateIp_spec v _ _).1)
    (revalidateDp_spec v _ _).2.1)
    (revalidateMam_spec v _).2.1)
    (labelCompare_spec label _).2.1)
    (startMount_spec _).2.1)
    (setupDevice_spec v.dev).2.1

theorem Preserves.of_searched {v v' : Volume T} (hok : v.dev.Ok) (h : Searched v.dev v'.dev)
    (hroot : v'.index.root = v.index.root) (hblocksize : v'.blocksize = v.blocksize) :
    Preserves v v' := by
  have heod : ∀ p, v'.dev.eod p = v.dev.eod p := by
    intro p
    unfold Device.eod
    rw [h.medium]
  refine ⟨⟨h.posOk hok.posOk, fun p => ?_⟩, fun p => ?_, fun p => ?_, hroot, hblocksize⟩
  · rw [heod]
    rcases h.appendPos p with happend | happend
    · rw [happend]
      exact Nat.zero_le _
    · rw [happend]
      exact hok.appendPos_le p
  · rw [h.medium]
  · rcases h.appendPos p with happend | happend
    · show v.dev.appendBlock p ≤ v'.dev.appendBlock p
      rw [show v'.dev.appendBlock p = v'.dev.eod p from if_pos happend, heod]
      exact hok.appendBlock_le p
    · unfold Device.appendBlock
      rw [happend, heod]

theorem ltfsRevalidate_preserves (label : Partition → List (Option (List UInt8))) {v : Volume T}
    (hok : v.dev.Ok) : Preserves v (ltfsRevalidate label v).2 :=
  .of_searched hok (ltfsRevalidate_searched label v) rfl rfl

/-! ## The blocks of a buffer -/

/-- Piece `i` of a buffer that is cut into blocks. -/
theorem chunks_getElem? {bs : ℕ} (hbs : 0 < bs) : ∀ (n : ℕ) (buf : List UInt8) (i : ℕ),
    buf.length ≤ n → i * bs < buf.length →
    (chunks bs n buf)[i]? = some ((buf.drop (i * bs)).take bs) := by
  intro n
  induction n with
  | zero =>
    intro buf i hlen hi
    omega
  | succ n ih =>
    intro buf i hlen hi
    cases buf with
    | nil =>
      rw [List.length_nil] at hi
      omega
    | cons x buf =>
      rw [chunks]
      · cases i with
        | zero => simp
        | succ i =>
          rw [Nat.succ_mul] at hi ⊢
          rw [List.getElem?_cons_succ, ih _ i]
          · rw [List.drop_drop, Nat.add_comm bs]
          · rw [List.length_drop]
            omega
          · rw [List.length_drop]
            omega
      · exact List.cons_ne_nil x buf

/-- Byte `i` of a buffer, in the block that holds it. -/
theorem dataRecords_byte {bs : ℕ} (hbs : 0 < bs) (doc : Index T → ℕ → List UInt8)
    {buf : List UInt8} {i : ℕ} (hi : i < buf.length) :
    ((dataRecords bs buf 1 : List (Record T))[i / bs]?).bind
      (fun rec => (recordBytes doc rec)[i % bs]?) = some buf[i] := by
  have hmod : i % bs < bs := Nat.mod_lt i hbs
  have hdiv : i / bs * bs + i % bs = i := by
    rw [Nat.mul_comm]
    exact Nat.div_add_mod i bs
  have hchunk := chunks_getElem? hbs buf.length buf (i / bs) (le_refl _) (by omega)
  unfold dataRecords
  rw [List.replicate_one, List.flatten_singleton, List.getElem?_map, hchunk]
  show ((buf.drop (i / bs * bs)).take bs)[i % bs]? = some buf[i]
  rw [List.getElem?_take_of_lt hmod, List.getElem?_drop, hdiv, List.getElem?_eq_getElem hi]

end Tape

section Files

variable {ι : Type} (doc : Index (ι → Dentry) → ℕ → List UInt8)

/-! ## Files on tape -/

/-- The byte at a tape place lies before the append position of its partition. -/
def Safe (v : Volume (ι → Dentry)) (place : Option Partition × ℕ × ℕ) : Prop :=
  (∃ p, place.1 = some p ∧ place.2.1 < v.dev.appendBlock p) ∧
    (tapeByte doc v.dev.medium place).isSome

/-- Where the bytes of the files are. -/
structure Stored (v : Volume (ι → Dentry)) : Prop where
  ok : v.dev.Ok
  blocksize : 0 < v.blocksize ∧ v.blocksize < 2 ^ 63
  files : ∀ f, FileOk (v.index.root f)
  size : ∀ f, (v.index.root f).size < 2 ^ 63
  byteoffset : ∀ f, ∀ e ∈ (v.index.root f).extentlist, e.byteoffset < 2 ^ 63
  places : ∀ f x place, extentMap v.blocksize (v.index.root f).extentlist x = some place →
    Safe doc v place

/-- The block cache holds a block before the append position, or nothing. -/
structure Ready (st : State ι) : Prop where
  stored : Stored doc st.vol
  cached : ∀ p, st.lastPos.partition = some p → st.lastPos.block < st.vol.dev.appendBlock p
  cache : ∀ buf, CacheOk doc st.vol.blocksize (st.reader buf)

/-- A file as its size and its bytes; nothing is stored in a hole. -/
def content (v : Volume (ι → Dentry)) (f : ι) : SparseFile UInt8 where
  size := (v.index.root f).size
  stored x := (extentMap v.blocksize (v.index.root f).extentlist x).bind
    (tapeByte doc v.dev.medium)

variable {doc}

/-- A block before the append position is the same after a write. -/
theorem Preserves.getElem? {T : Type} {v v' : Volume T} (h : Preserves v v') {p : Partition}
    {block : ℕ} (hlt : block < v.dev.appendBlock p) :
    (v'.dev.medium p)[block]? = (v.dev.medium p)[block]? := by
  rw [← List.getElem?_take_of_lt hlt, h.medium p, List.getElem?_take_of_lt hlt]

theorem Preserves.tapeByte {v v' : Volume (ι → Dentry)} (h : Preserves v v')
    {place : Option Partition × ℕ × ℕ} (hsafe : Safe doc v place) :
    tapeByte doc v'.dev.medium place = tapeByte doc v.dev.medium place := by
  rcases place with ⟨q, block, byte⟩
  rcases hsafe with ⟨⟨p, hp, hlt⟩, -⟩
  dsimp only at hp hlt
  subst hp
  unfold Ltfs.tapeByte
  dsimp only
  rw [h.getElem? hlt]

theorem Preserves.safe {v v' : Volume (ι → Dentry)} (h : Preserves v v')
    {place : Option Partition × ℕ × ℕ} (hsafe : Safe doc v place) : Safe doc v' place := by
  constructor
  · rcases hsafe.1 with ⟨p, hp, hlt⟩
    exact ⟨p, hp, hlt.trans_le (h.append p)⟩
  · rw [h.tapeByte hsafe]
    exact hsafe.2

/-- A write for other files, or of an index. -/
theorem Stored.of_preserves {v v' : Volume (ι → Dentry)} (hs : Stored doc v)
    (h : Preserves v v') : Stored doc v' ∧ content doc v' = content doc v := by
  constructor
  · constructor
    · exact h.ok
    · rw [h.blocksize]
      exact hs.blocksize
    · rw [h.root]
      exact hs.files
    · rw [h.root]
      exact hs.size
    · rw [h.root]
      exact hs.byteoffset
    · rw [h.root, h.blocksize]
      exact fun f x place hx => h.safe (hs.places f x place hx)
  · funext f
    unfold content
    rw [h.root, h.blocksize]
    congr 1
    funext x
    cases hx : extentMap v.blocksize (v.index.root f).extentlist x with
    | none => rfl
    | some place => exact h.tapeByte (hs.places f x place hx)

/-- The block cache stays right as well, and other files or extents make no difference to it. -/
theorem Ready.of_preserves {st : State ι} (hr : Ready doc st) {v v' : Volume (ι → Dentry)}
    (h : Preserves st.vol v) (hdev : v'.dev = v.dev) (hblocksize : v'.blocksize = v.blocksize)
    (hv : Stored doc v') : Ready doc { st with vol := v' } := by
  refine ⟨hv, fun p hp => ?_, ?_⟩
  · show st.lastPos.block < v'.dev.appendBlock p
    rw [hdev]
    exact (hr.cached p hp).trans_le (h.append p)
  · intro buf p hp
    rcases hr.cache buf p hp with ⟨rec, hrec, hsize, hbytes⟩
    refine ⟨rec, ?_, ?_, hbytes⟩
    · show (v'.dev.medium p)[st.lastPos.block]? = some rec
      rw [hdev, h.getElem? (hr.cached p hp)]
      exact hrec
    · show st.lastSize = ((recordBytes doc rec).take v'.blocksize).length
      rw [hblocksize, h.blocksize]
      exact hsize

end Files

section Calls

variable {ι : Type} {doc : Index (ι → Dentry) → ℕ → List UInt8}

/-! ## Writing -/

theorem writeData_error {p : Partition} {buf : List UInt8} {repetitions : ℕ}
    {v : Volume (ι → Dentry)} {ret : ℤ}
    (hret : (writeDataUnlocked p buf repetitions v).1 = .error ret) : ret < 0 := by
  unfold writeDataUnlocked writeDataHere outUnlock at hret
  dsimp only at hret
  split_ifs at hret
  · cases hret
    decide
  all_goals
    cases hret
    assumption

/-- Data whose write is reported as done is on tape. -/
theorem writeData_done {p : Partition} {buf : List UInt8} {v : Volume (ι → Dentry)} {start : ℕ}
    (hok : v.dev.Ok) (hbs : 0 < v.blocksize) (hret : (writeDataUnlocked p buf 1 v).1 = .ok start)
    {i : ℕ} (hi : i < buf.length) :
    start + i / v.blocksize < (writeDataUnlocked p buf 1 v).2.dev.appendBlock p ∧
    tapeByte doc (writeDataUnlocked p buf 1 v).2.dev.medium
      (some p, start + i / v.blocksize, i % v.blocksize) = some buf[i] := by
  unfold writeDataUnlocked at hret ⊢
  rw [if_neg (by omega)] at hret ⊢
  rw [if_neg (by omega)] at hret ⊢
  by_cases hro : tapeReadOnly p v.dev < 0
  · rw [if_pos hro] at hret
    cases hret
  · rw [if_neg hro] at hret ⊢
    dsimp only at hret ⊢
    by_cases hc : (writeIndexConditional p.other v).1 < 0
    · rw [if_pos hc] at hret
      cases hret
    · rw [if_neg hc] at hret ⊢
      have hindex := writeIndexConditional_preserves p.other hok
      have hsame := hindex.blocksize
      have hok₁ := hindex.ok
      generalize (writeIndexConditional p.other v).2 = v₁ at hsame hok₁ hret ⊢
      rw [← hsame] at hbs ⊢
      obtain ⟨hstart, hall⟩ := writeDataHere_done hok₁ hret
      have hbyte := dataRecords_byte hbs doc hi
      -- the block is one of those that have been written
      have hlt : i / v₁.blocksize
          < (dataRecords v₁.blocksize buf 1 : List (Record (ι → Dentry))).length := by
        by_contra hge
        rw [List.getElem?_eq_none (not_lt.mp hge)] at hbyte
        cases hbyte
      generalize i / v₁.blocksize = k at hbyte hlt ⊢
      have hne : (dataRecords v₁.blocksize buf 1 : List (Record (ι → Dentry))) ≠ [] :=
        List.ne_nil_of_length_pos (by omega)
      constructor
      · have happend := hall.appendPos
        rw [Device.appendBlock, if_neg (by omega), happend, hstart]
        omega
      · unfold tapeByte
        dsimp only
        rw [hall.medium, if_neg hne, hstart, List.getElem?_append_right, List.length_take,
          min_eq_left hall.start_le, Nat.add_sub_cancel_left]
        · exact hbyte
        · rw [List.length_take, min_eq_left hall.start_le]
          omega

theorem writeDataLocked_preserves (r : Round) (p : Partition) (buf : List UInt8)
    {v : Volume (ι → Dentry)} (hok : v.dev.Ok) : Preserves v (writeDataLocked r p buf v).2 := by
  unfold writeDataLocked
  split
  · exact .refl hok
  · exact writeData_preserves p buf 1 hok

theorem writeDataLocked_error {r : Round} {p : Partition} {buf : List UInt8}
    {v : Volume (ι → Dentry)} {ret : ℤ} (hret : (writeDataLocked r p buf v).1 = .error ret) :
    ret < 0 := by
  unfold writeDataLocked at hret
  split at hret
  · cases hret
    exact (And.right ‹_›)
  · exact writeData_error hret

theorem writeDataLocked_done {r : Round} {p : Partition} {buf : List UInt8}
    {v : Volume (ι → Dentry)} {start : ℕ} (hok : v.dev.Ok) (hbs : 0 < v.blocksize)
    (hret : (writeDataLocked r p buf v).1 = .ok start) {i : ℕ} (hi : i < buf.length) :
    start + i / v.blocksize < (writeDataLocked r p buf v).2.dev.appendBlock p ∧
    tapeByte doc (writeDataLocked r p buf v).2.dev.medium
      (some p, start + i / v.blocksize, i % v.blocksize) = some buf[i] := by
  unfold writeDataLocked at hret ⊢
  split at hret
  · cases hret
  · rename_i hlock
    rw [if_neg hlock]
    exact writeData_done hok hbs hret hi

/-- The code of a revalidation that fails, from either of the two that report it. -/
theorem ltfsRevalidate_failed {label : Partition → List (Option (List UInt8))}
    {v : Volume (ι → Dentry)} (h : (ltfsRevalidate label v).1 ≠ 0) {waits : Prop}
    [Decidable waits] :
    (if waits then (ltfsRevalidate label v).2.reval else (ltfsRevalidate label v).1) ≠ 0 := by
  have hneg : (ltfsRevalidate label v).1 < 0 := lt_of_le_of_ne (ltfsRevalidate_le label v) h
  split
  · have hreval : (ltfsRevalidate label v).2.reval = -ltfsRevalFailed := if_pos hneg
    rw [hreval]
    decide
  · exact h

/-- Pieces of an extent keep to the limit, and so does what is appended to one. -/
theorem addExtent_byteoffset {bs : ℕ} (hbs : 0 < bs ∧ bs < 2 ^ 63) {mem : ExtentMem}
    {ext : ExtentInfo} {d : Dentry} (hext : ext.byteoffset < 2 ^ 63)
    (hret : (addExtent bs mem ext d).1 = 0) (hd : ∀ e ∈ d.extentlist, e.byteoffset < 2 ^ 63) :
    ∀ e ∈ (addExtent bs mem ext d).2.extentlist, e.byteoffset < 2 ^ 63 := by
  have hfront : ∀ (e : ExtentInfo) (diff : ℕ), (e.truncateFront bs diff).byteoffset < 2 ^ 63 :=
    fun e diff => (Nat.mod_lt _ hbs.1).trans hbs.2
  rw [(addExtent_eq hret).2]
  refine addExtentLoop_forall (P := fun e => e.byteoffset < 2 ^ 63) hext ?_ ?_
    d.extentlist.reverse [] d.realsize (by simpa using hd)
  · intro entry entry' split realsize realsize' hentry hup e he
    unfold updateEntry at hup
    split_ifs at hup
    · -- cut from its beginning
      cases hup
      rw [List.mem_singleton] at he
      subst he
      exact hfront _ _
    · -- cut from its end
      cases hup
      rw [List.mem_singleton] at he
      subst he
      exact hentry
    · -- cut in two
      cases hup
      simp only [List.mem_cons, List.not_mem_nil, or_false] at he
      rcases he with rfl | rfl
      · exact hentry
      · exact hfront _ _
    · cases hup
      rw [List.mem_singleton] at he
      subst he
      exact hentry
  · exact fun entry hentry _ => hentry

/-- The bytes of a buffer, at its place in the file. -/
def bytesAt (buf : List UInt8) (offset x : ℕ) : Option UInt8 :=
  if offset ≤ x then buf[x - offset]? else none

theorem bytesAt_covered {e : ExtentInfo} {buf : List UInt8} (hlen : e.bytecount = buf.length)
    {x : ℕ} (hx : Covers e x) : ∃ h : x - e.fileoffset < buf.length,
      bytesAt buf e.fileoffset x = some buf[x - e.fileoffset] := by
  rw [ExtentInfo.covers_iff] at hx
  refine ⟨by omega, ?_⟩
  rw [bytesAt, if_pos hx.1, List.getElem?_eq_getElem]

theorem bytesAt_uncovered {e : ExtentInfo} {buf : List UInt8} (hlen : e.bytecount = buf.length)
    {x : ℕ} (hx : ¬ Covers e x) : bytesAt buf e.fileoffset x = none := by
  rw [ExtentInfo.covers_iff] at hx
  unfold bytesAt
  split
  · rw [List.getElem?_eq_none]
    omega
  · rfl

variable [DecidableEq ι]

/-- A file gets other extents, all of them on tape. -/
theorem Stored.setFile {v : Volume (ι → Dentry)} (hs : Stored doc v) {f : ι} {d : Dentry}
    (hd : FileOk d) (hsize : d.size < 2 ^ 63) (hbyte : ∀ e ∈ d.extentlist, e.byteoffset < 2 ^ 63)
    (hplaces : ∀ x place, extentMap v.blocksize d.extentlist x = some place → Safe doc v place)
    (dirty : Bool) :
    Stored doc (setFile f d { v with dirty := dirty }) ∧
    content doc (setFile f d { v with dirty := dirty })
      = Function.update (content doc v) f
        ⟨d.size, fun x => (extentMap v.blocksize d.extentlist x).bind (tapeByte doc v.dev.medium)⟩ := by
  have hcases : ∀ {P : ι → Dentry → Prop}, P f d → (∀ g, P g (v.index.root g)) →
      ∀ g, P g (Function.update v.index.root f d g) := by
    intro P hf hother g
    by_cases hg : g = f
    · subst hg
      rw [Function.update_self]
      exact hf
    · rw [Function.update_of_ne hg]
      exact hother g
  constructor
  · exact ⟨hs.ok, hs.blocksize, hcases (P := fun _ d => FileOk d) hd hs.files,
      hcases (P := fun _ d => d.size < 2 ^ 63) hsize hs.size,
      hcases (P := fun _ d => ∀ e ∈ d.extentlist, e.byteoffset < 2 ^ 63) hbyte hs.byteoffset,
      hcases (P := fun _ d => ∀ x place, extentMap v.blocksize d.extentlist x = some place →
        Safe doc v place) hplaces hs.places⟩
  · funext g
    by_cases hg : g = f
    · subst hg
      rw [Function.update_self]
      simp only [content, Fcfs.setFile, Function.update_self]
    · rw [Function.update_of_ne hg]
      simp only [content, Fcfs.setFile, Function.update_of_ne hg]

omit [DecidableEq ι] in
theorem noteMove_preserves (ret : ℤ) {v : Volume (ι → Dentry)} (hok : v.dev.Ok) :
    Preserves v (noteMove ret v) := by
  unfold noteMove
  split
  · exact ⟨hok, fun _ => rfl, fun _ => le_refl _, rfl, rfl⟩
  · exact .refl hok

/-- A file gets the extent of data that is on tape, or keeps its own for want of memory. -/
theorem saveExtent_stores {v : Volume (ι → Dentry)} (hs : Stored doc v) (c : Call ι) (p : Partition)
    (f : ι) {buf : List UInt8} {offset start : ℕ} (hfit : offset + buf.length < 2 ^ 63)
    (hdone : ∀ i (hi : i < buf.length), start + i / v.blocksize < v.dev.appendBlock p ∧
      tapeByte doc v.dev.medium (some p, start + i / v.blocksize, i % v.blocksize) = some buf[i]) :
    let r := saveExtent c p f buf offset start v
    (r.2.dev = v.dev ∧ r.2.blocksize = v.blocksize) ∧ Stored doc r.2 ∧
    (r.1 = 0 → content doc r.2 = Function.update (content doc v) f
      ((content doc v f).put (offset + buf.length) (bytesAt buf offset))) ∧
    (r.1 ≠ 0 → content doc r.2 = content doc v) := by
  unfold saveExtent
  dsimp only
  set ext : ExtentInfo := ⟨⟨some p, start⟩, 0, buf.length, offset⟩ with hextdef
  have hbs := hs.blocksize
  have hplace : ∀ x, Covers ext x → Safe doc v (ext.place v.blocksize x) ∧
      tapeByte doc v.dev.medium (ext.place v.blocksize x) = bytesAt buf offset x := by
    intro x hx
    obtain ⟨hlt, hbyte⟩ := bytesAt_covered (e := ext) rfl hx
    obtain ⟨hblock, htape⟩ := hdone _ hlt
    have hpl : ext.place v.blocksize x = (some p, start + (x - offset) / v.blocksize,
        (x - offset) % v.blocksize) := by
      simp only [ExtentInfo.place, hextdef, Nat.zero_add]
    rw [hpl]
    refine ⟨⟨⟨p, rfl, hblock⟩, ?_⟩, ?_⟩
    · rw [htape]
      rfl
    · rw [htape]
      exact hbyte.symm
  by_cases hret : (addExtent v.blocksize c.mem ext (v.index.root f)).1 = 0
  · -- the extent has been added
    obtain ⟨hord, hmap, hsize, -⟩ := addExtent_ordered hbs.1 (hs.files f).ordered hret
    have hok := addExtent_fileOk hbs.1 (hs.files f) hret
    have hbyteoff := addExtent_byteoffset hbs (Nat.two_pow_pos 63) hret (hs.byteoffset f)
    have hold := hs.size f
    have hend : ext.fileoffsetEnd = offset + buf.length := rfl
    obtain ⟨hst, hct⟩ := hs.setFile (f := f) hok (by omega) hbyteoff (fun x place hx => by
      rw [hmap, overlay_apply] at hx
      by_cases hc : Covers ext x
      · rw [show extentMap v.blocksize [ext] x = some (ext.place v.blocksize x) from
          segMap_cons_pos hc, Option.some_or] at hx
        cases hx
        exact (hplace x hc).1
      · rw [show extentMap v.blocksize [ext] x = none from segMap_cons_neg hc,
          Option.none_or] at hx
        exact hs.places f x place hx) (v.dirty || decide
          ((addExtent v.blocksize c.mem ext (v.index.root f)).1 = 0))
    refine ⟨⟨rfl, rfl⟩, hst, fun _ => ?_, fun h => absurd hret h⟩
    rw [hct]
    congr 1
    simp only [SparseFile.put, content, hsize, hend, SparseFile.mk.injEq, true_and]
    funext x
    rw [hmap, overlay_apply, overlay_apply]
    by_cases hc : Covers ext x
    · rw [show extentMap v.blocksize [ext] x = some (ext.place v.blocksize x) from
        segMap_cons_pos hc, Option.some_or, Option.bind_some, (hplace x hc).2]
      obtain ⟨_, hbyte⟩ := bytesAt_covered (e := ext) rfl hc
      have hbyte' : bytesAt buf offset x = _ := hbyte
      rw [hbyte', Option.some_or]
    · rw [show extentMap v.blocksize [ext] x = none from segMap_cons_neg hc, Option.none_or]
      have hnone : bytesAt buf offset x = none := bytesAt_uncovered (e := ext) rfl hc
      rw [hnone, Option.none_or]
  · -- no memory for the extent: the file keeps its list
    have hsame := addExtent_failed (hs.files f).ordered hret
    generalize (v.dirty || decide
      ((addExtent v.blocksize c.mem ext (v.index.root f)).1 = 0)) = dirty
    have hkeep : setFile f (v.index.root f) { v with dirty := dirty }
        = { v with dirty := dirty } := by
      simp only [setFile, Function.update_eq_self]
    rw [hsame, hkeep]
    refine ⟨⟨rfl, rfl⟩, ?_, fun h => absurd h hret, fun _ => rfl⟩
    exact ⟨hs.ok, hs.blocksize, hs.files, hs.size, hs.byteoffset, hs.places⟩

/-- What a write does: the files are as before, or the file has the bytes of the buffer. -/
structure Stores (doc : Index (ι → Dentry) → ℕ → List UInt8) (f : ι) (buf : List UInt8)
    (offset : ℕ) (v : Volume (ι → Dentry)) (r : ℤ × Volume (ι → Dentry)) : Prop where
  tape : ∃ v₁, Preserves v v₁ ∧ r.2.dev = v₁.dev ∧ r.2.blocksize = v₁.blocksize
  stored : Stored doc r.2
  done : r.1 = 0 → content doc r.2 = Function.update (content doc v) f
    ((content doc v f).put (offset + buf.length) (bytesAt buf offset))
  failed : r.1 ≠ 0 → content doc r.2 = content doc v

/-- A write that ends with an error. -/
theorem Stores.of_preserves {v v' : Volume (ι → Dentry)} (hs : Stored doc v) (h : Preserves v v')
    {ret : ℤ} (hret : ret ≠ 0) (f : ι) (buf : List UInt8) (offset : ℕ) :
    Stores doc f buf offset v (ret, v') := by
  obtain ⟨hstored, hcontent⟩ := hs.of_preserves h
  exact ⟨⟨v', h, rfl, rfl⟩, hstored, fun hzero => absurd hzero hret, fun _ => hcontent⟩

/-- A write that is repeated on a volume with the same files. -/
theorem Stores.again {v v' : Volume (ι → Dentry)} (hs : Stored doc v) (h : Preserves v v') {f : ι}
    {buf : List UInt8} {offset : ℕ} {r : ℤ × Volume (ι → Dentry)}
    (hr : Stores doc f buf offset v' r) : Stores doc f buf offset v r := by
  obtain ⟨-, hcontent⟩ := hs.of_preserves h
  obtain ⟨v₁, hpreserves, hsame⟩ := hr.tape
  refine ⟨⟨v₁, h.trans hpreserves, hsame⟩, hr.stored, ?_, ?_⟩
  · rw [← hcontent]
    exact hr.done
  · rw [← hcontent]
    exact hr.failed

/-- Any number of rounds; the induction is on those that are left. -/
theorem ltfsFsrawWrite_stores (label : Partition → List (Option (List UInt8))) (c : Call ι)
    (p : Partition) (f : ι) {buf : List UInt8} {offset : ℕ} (hfit : offset + buf.length < 2 ^ 63)
    (rounds : List Round) {v : Volume (ι → Dentry)} (hs : Stored doc v) :
    Stores doc f buf offset v (ltfsFsrawWrite label c p f buf offset rounds v) := by
  induction rounds generalizing v with
  | nil => exact .of_preserves hs (.refl hs.ok) c.refusal.2.ne f buf offset
  | cons r rounds ih =>
    rw [ltfsFsrawWrite]
    by_cases hlock : r.lock < 0
    · rw [if_pos hlock]
      exact .of_preserves hs (.refl hs.ok) hlock.ne f buf offset
    · rw [if_neg hlock]
      have hpreserves := writeDataLocked_preserves r p buf hs.ok
      have hdone := fun start => @writeDataLocked_done ι doc r p buf v start hs.ok hs.blocksize.1
      have hneg := fun ret => @writeDataLocked_error ι r p buf v ret
      revert hpreserves hdone hneg
      rcases writeDataLocked r p buf v with ⟨ret | start, v₁⟩
      · -- the data has not been written
        intro hpreserves _ hneg
        dsimp only at hpreserves ⊢
        by_cases hreval : ret = -ltfsDeviceFenced ∨ needReval ret
        · have hq := hpreserves.trans (ltfsRevalidate_preserves label hpreserves.ok)
          rw [if_pos hreval]
          by_cases hzero : (ltfsRevalidate label v₁).1 = 0
          · rw [if_pos hzero]
            exact (ih (hs.of_preserves hq).1).again hs hq
          · rw [if_neg hzero]
            exact .of_preserves hs hq (ltfsRevalidate_failed hzero) f buf offset
        · rw [if_neg hreval]
          exact .of_preserves hs (hpreserves.trans (noteMove_preserves ret hpreserves.ok))
            (hneg ret rfl).ne f buf offset
      · intro hpreserves hdone _
        obtain ⟨hstored, hcontent⟩ := hs.of_preserves hpreserves
        obtain ⟨hsame, hst, hok, hfailed⟩ := @saveExtent_stores ι doc _ v₁ hstored c p f buf offset start
          hfit fun i hi => by
            rw [hpreserves.blocksize]
            exact hdone start rfl hi
        refine ⟨⟨v₁, hpreserves, hsame⟩, hst, ?_, ?_⟩
        · rw [← hcontent]
          exact hok
        · rw [← hcontent]
          exact hfailed

/-! ## Truncating -/

omit [DecidableEq ι] in
/-- What is left of the extents begins where it began. -/
theorem truncateLoop_byteoffset {n : ℕ} {limit : ℕ} (before : List ExtentInfo) :
    ∀ (after : List ExtentInfo) (realsize : ℕ),
      (∀ e ∈ before, e.byteoffset < limit) → (∀ e ∈ after, e.byteoffset < limit) →
      ∀ e ∈ (truncateLoop n before after realsize).1, e.byteoffset < limit := by
  induction before with
  | nil => exact fun after realsize _ hafter => hafter
  | cons entry before ih =>
    intro after realsize hbefore hafter
    rw [List.forall_mem_cons] at hbefore
    rw [truncateLoop]
    split
    · exact ih after _ hbefore.2 hafter
    · split
      · refine ih _ _ hbefore.2 ?_
        rw [List.forall_mem_cons]
        exact ⟨hbefore.1, hafter⟩
      · -- the entry ends before the new end of the file
        intro e he
        rw [List.mem_append, List.mem_reverse, List.mem_cons] at he
        rcases he with he | rfl | he
        · exact hbefore.2 e he
        · exact hbefore.1
        · exact hafter e he

theorem fcfsTruncate_cuts {v : Volume (ι → Dentry)} (hs : Stored doc v) (c : Call ι) (f : ι)
    (length : ℕ) (hfit : length < 2 ^ 63) :
    let r := fcfsTruncate c f length v
    (r.2.dev = v.dev ∧ r.2.blocksize = v.blocksize) ∧ Stored doc r.2 ∧
    (r.1 = 0 → content doc r.2
      = Function.update (content doc v) f ((content doc v f).truncate length)) ∧
    (r.1 ≠ 0 → content doc r.2 = content doc v) := by
  unfold fcfsTruncate
  dsimp only
  generalize hdirty : (v.dirty || decide ((fsrawTruncate c.lock length (v.index.root f)).1 = 0))
    = dirty
  by_cases hret : (fsrawTruncate c.lock length (v.index.root f)).1 = 0
  · obtain ⟨hok, hsize, hmap⟩ := @fsrawTruncate_spec v.blocksize _ _ _ (hs.files f) hret
    have hbyte : ∀ e ∈ (fsrawTruncate c.lock length (v.index.root f)).2.extentlist,
        e.byteoffset < 2 ^ 63 := by
      have hold := hs.byteoffset f
      unfold fsrawTruncate
      split
      · exact hold
      · split
        · exact truncateLoop_byteoffset _ [] _ (by simpa using hold) (by simp)
        · exact hold
    obtain ⟨hst, hct⟩ := hs.setFile hok (by rw [hsize]; exact hfit) hbyte (fun x place hx => by
      rw [hmap] at hx
      split at hx
      · exact hs.places f x place hx
      · cases hx) dirty
    refine ⟨⟨rfl, rfl⟩, hst, fun _ => ?_, fun h => absurd hret h⟩
    rw [hct]
    congr 1
    simp only [SparseFile.truncate, content, hsize, SparseFile.mk.injEq, true_and]
    funext x
    rw [hmap]
    split
    · rfl
    · rfl
  · -- the volume lock has been refused
    have hkeep : setFile f (v.index.root f) { v with dirty := dirty } = { v with dirty := dirty } := by
      simp only [setFile, Function.update_eq_self]
    rw [fsrawTruncate_failed hret, hkeep]
    exact ⟨⟨rfl, rfl⟩, ⟨hs.ok, hs.blocksize, hs.files, hs.size, hs.byteoffset, hs.places⟩,
      fun h => absurd h hret, fun _ => rfl⟩

/-! ## Reading -/

/-- The bytes that a read of a file gets. -/
def readBytes (count offset : ℕ) (file : SparseFile UInt8) : List UInt8 :=
  (List.range (min count (file.size - offset))).map fun i => (file.stored (offset + i)).getD 0

omit [DecidableEq ι] in
theorem fileByte_content (v : Volume (ι → Dentry)) (f : ι) (x : ℕ) :
    fileByte doc v.dev.medium v.blocksize (v.index.root f).extentlist x
      = ((content doc v f).stored x).getD 0 := by
  unfold fileByte content
  dsimp only
  cases extentMap v.blocksize (v.index.root f).extentlist x with
  | none => rfl
  | some place => rfl

/-- The blocks before the append positions. -/
def beforeAppend (v : Volume (ι → Dentry)) (p : Partition) : List (Record (ι → Dentry)) :=
  (v.dev.medium p).take (v.dev.appendBlock p)

omit [DecidableEq ι] in
/-- A read needs nothing behind the append positions, and it keeps the block cache right. -/
theorem attempt_reads {st : State ι} (h : Ready doc st) (hdrive : st.vol.dev.Faultless) (f : ι)
    (buf : ℕ → UInt8) {count offset : ℕ} (hcount : 0 < count) (hoff : offset < 2 ^ 63)
    (hbuf : count + st.vol.blocksize ≤ 2 ^ 63) :
    ∃ rs, fsrawReadAttempt doc st.vol.blocksize (st.vol.index.root f) count offset
        (st.reader buf) = (.ok (min count ((content doc st.vol f).size - offset)), rs) ∧
      (List.range (min count ((content doc st.vol f).size - offset))).map rs.buf
        = readBytes count offset (content doc st.vol f) ∧
      Travelled st.vol.dev rs.dev ∧
      (∀ p, rs.lastPos.partition = some p → rs.lastPos.block < st.vol.dev.appendBlock p) ∧
      CacheOk doc st.vol.blocksize rs := by
  have hs := h.stored
  set m' := beforeAppend st.vol with hm'
  have hinit : ∀ p, m' p <+: st.vol.dev.medium p := fun p => List.take_prefix _ _
  have hlen : ∀ p, (m' p).length ≤ st.vol.dev.appendBlock p := by
    intro p
    rw [hm', beforeAppend, List.length_take]
    exact min_le_left _ _
  have hget : ∀ p block, block < st.vol.dev.appendBlock p →
      (m' p)[block]? = (st.vol.dev.medium p)[block]? := by
    intro p block hlt
    rw [hm', beforeAppend, List.getElem?_take_of_lt hlt]
  have htape : ∀ place, Safe doc st.vol place →
      tapeByte doc m' place = tapeByte doc st.vol.dev.medium place := by
    rintro ⟨q, block, byte⟩ ⟨⟨p, rfl, hlt⟩, -⟩
    unfold tapeByte
    dsimp only at hlt ⊢
    rw [hget p block hlt]
  have hfile := hs.files f
  -- the read on the shorter tape
  have hback : ∀ e ∈ (st.vol.index.root f).extentlist,
      Backed doc ((st.reader buf).onMedium m').dev.medium st.vol.blocksize e := by
    intro e he x hx
    have hsafe := hs.places f x _ (segMap_eq_some_of_mem hfile.ordered he hx)
    show (tapeByte doc m' _).isSome = true
    rw [htape _ hsafe]
    exact hsafe.2
  have hcache : CacheOk doc st.vol.blocksize ((st.reader buf).onMedium m') := by
    intro p hp
    rcases h.cache buf p hp with ⟨rec, hrec, hrest⟩
    refine ⟨rec, ?_, hrest⟩
    show (m' p)[st.lastPos.block]? = some rec
    rw [hget p _ (h.cached p hp)]
    exact hrec
  have hsize := hs.size f
  have harg : ReadArgs st.vol.blocksize (st.vol.index.root f) count offset := by
    refine ⟨hs.blocksize.1, hoff, hbuf, by omega, fun e he => ?_⟩
    have hstart := hs.byteoffset f e he
    have hend := hfile.within e he
    unfold ExtentInfo.byteoffsetEnd
    unfold ExtentInfo.fileoffsetEnd at hend
    omega
  obtain ⟨rs, hrun, hbytes, hok⟩ := fsrawReadAttempt_delivers doc hfile.ordered
    (fun e he => hfile.within e he) ((st.reader buf).onMedium m') hback hdrive hcache harg hcount
  -- and on the whole tape
  have hcarry := fsrawReadAttempt_carries doc hinit st.vol.blocksize (st.vol.index.root f) count
    offset (st.reader buf)
  have hsame := hcarry.same _ (congrArg Prod.fst hrun)
  have hmoved := hcarry.moved _ (congrArg Prod.fst hrun)
  rw [hrun] at hsame hmoved
  rw [show (st.reader buf).onMedium st.vol.dev.medium = st.reader buf from rfl] at hsame
  refine ⟨rs.onMedium st.vol.dev.medium, hsame, ?_, ?_, ?_, ?_⟩
  · refine List.map_congr_left fun i hi => ?_
    have hbyte := hbytes i (List.mem_range.mp hi)
    show rs.buf i = _
    rw [hbyte, ← fileByte_content]
    unfold fileByte
    cases hx : extentMap st.vol.blocksize (st.vol.index.root f).extentlist (offset + i) with
    | none => rfl
    | some place =>
      have hplace := htape place (hs.places f (offset + i) place hx)
      exact congrArg (fun byte : Option UInt8 => byte.getD 0) hplace
  · exact hmoved
  · intro p hp
    rcases hok.cache p hp with ⟨rec, hrec, -⟩
    rw [hok.medium] at hrec
    exact (List.getElem?_eq_some_iff.mp hrec).1.trans_le (hlen p)
  · intro p hp
    rcases hok.cache p hp with ⟨rec, hrec, hrest⟩
    rw [hok.medium] at hrec
    refine ⟨rec, ?_, hrest⟩
    show (st.vol.dev.medium p)[rs.lastPos.block]? = some rec
    have hrec : (m' p)[rs.lastPos.block]? = some rec := hrec
    rcases hinit p with ⟨rest, happend⟩
    have hlt := (List.getElem?_eq_some_iff.mp hrec).1
    rw [← happend, List.getElem?_append_left hlt]
    exact hrec

/-! ## Any sequence of calls -/

/-- A call within the ranges of `off_t` and `size_t`; where it reads, the drive works. -/
def Call.Regular (bs : ℕ) (c : Call ι) : Prop :=
  match c.request with
  | .write _ buf offset => offset + buf.length < 2 ^ 63
  | .read _ _ count offset => offset < 2 ^ 63 ∧ count + bs ≤ 2 ^ 63 ∧
      ∀ n, ∃ early programmable, c.drive n = .ok early programmable
  | .truncate _ length => length < 2 ^ 63
  | .getFilesize _ => True
  | .writeIndex _ _ => True

/-- The codes with which a read may be refused before it comes to the tape. -/
inductive Call.Refused (c : Call ι) : List Round → ℤ → Prop
  | last : c.Refused [] c.refusal.1
  | lock {r rounds} (hlock : r.lock < 0) : c.Refused (r :: rounds) r.lock
  | deviceLock {r rounds} (hlock : r.deviceLock < 0) (hfenced : r.deviceLock ≠ -ltfsDeviceFenced) :
      c.Refused (r :: rounds) r.deviceLock
  | revalidation {r rounds} (hfenced : r.deviceLock = -ltfsDeviceFenced) :
      c.Refused (r :: rounds) (-ltfsRevalFailed)
  | again {r rounds ret} (hfenced : r.deviceLock = -ltfsDeviceFenced) (h : c.Refused rounds ret) :
      c.Refused (r :: rounds) ret
  | noMemory {r rounds} (hmem : c.cacheMem = false) : c.Refused (r :: rounds) (-ltfsNoMemory)

/-- The codes with which a call may fail. -/
def Call.MayFail (c : Call ι) (ret : ℤ) : Prop :=
  match c.request with
  | .write _ _ _ => ret ≠ 0
  | .read _ _ _ _ => c.Refused c.rounds ret
  | .truncate _ _ => c.lock < 0 ∧ ret = c.lock
  | .getFilesize _ => False
  | .writeIndex _ _ => ret ≠ 0

/-- The answer to a call on `files`, and the files after it. -/
inductive Serves (files : ι → SparseFile UInt8) (c : Call ι) : Reply → (ι → SparseFile UInt8) → Prop
  | write {f buf offset} (h : c.request = .write f buf offset) : Serves files c (.code 0)
      (Function.update files f ((files f).put (offset + buf.length) (bytesAt buf offset)))
  | read {f buf count offset} (h : c.request = .read f buf count offset) :
      Serves files c (.bytes (readBytes count offset (files f))) files
  | truncate {f length} (h : c.request = .truncate f length) : Serves files c (.code 0)
      (Function.update files f ((files f).truncate length))
  | getFilesize {f} (h : c.request = .getFilesize f) : Serves files c (.size (files f).size) files
  | writeIndex {p writePerm} (h : c.request = .writeIndex p writePerm) :
      Serves files c (.code 0) files
  | refused {ret} (h : c.MayFail ret) : Serves files c (.code ret) files

/-- The answers to a sequence of calls, from some files to others. -/
inductive Explains : (ι → SparseFile UInt8) → List (Call ι × Reply) → (ι → SparseFile UInt8) → Prop
  | nil (files) : Explains files [] files
  | cons {files files' files'' c reply rest} (h : Serves files c reply files')
      (hrest : Explains files' rest files'') : Explains files ((c, reply) :: rest) files''

theorem fcfsTruncate_refused {c : Call ι} {f : ι} {length : ℕ} {v : Volume (ι → Dentry)}
    (hret : (fcfsTruncate c f length v).1 ≠ 0) :
    c.lock < 0 ∧ (fcfsTruncate c f length v).1 = c.lock := by
  unfold fcfsTruncate fsrawTruncate at hret ⊢
  by_cases hlock : c.lock < 0
  · rw [if_pos hlock]
    exact ⟨hlock, rfl⟩
  · rw [if_neg hlock] at hret
    split at hret
    · exact absurd rfl hret
    · exact absurd rfl hret

/-- A call keeps the files on tape, and its answer is theirs. -/
structure Served (doc : Index (ι → Dentry) → ℕ → List UInt8) (c : Call ι) (st : State ι)
    (r : Reply × State ι) : Prop where
  ready : Ready doc r.2
  blocksize : r.2.vol.blocksize = st.vol.blocksize
  answer : Serves (content doc st.vol) c r.1 (content doc r.2.vol)

theorem fcfsWrite_served {st : State ι} (h : Ready doc st) {c : Call ι} {f : ι} {buf : List UInt8}
    {offset : ℕ} (hreq : c.request = .write f buf offset) (hfit : offset + buf.length < 2 ^ 63) :
    Served doc c st (.code (fcfsWrite c f buf offset st).1, (fcfsWrite c f buf offset st).2) := by
  have hstores := ltfsFsrawWrite_stores st.label c .dp f hfit c.rounds h.stored
  unfold fcfsWrite
  dsimp only
  generalize ltfsFsrawWrite st.label c .dp f buf offset c.rounds st.vol = r at hstores ⊢
  obtain ⟨v₁, hpreserves, hdev, hsame⟩ := hstores.tape
  refine ⟨h.of_preserves hpreserves hdev hsame hstores.stored, hsame.trans hpreserves.blocksize, ?_⟩
  show Serves _ c (.code r.1) (content doc r.2)
  by_cases hret : r.1 = 0
  · rw [hret, hstores.done hret]
    exact .write hreq
  · rw [hstores.failed hret]
    refine .refused ?_
    unfold Call.MayFail
    rw [hreq]
    exact hret

/-- What a read does: it is refused, or it delivers the bytes of the file. -/
structure Reads (doc : Index (ι → Dentry) → ℕ → List UInt8) (c : Call ι) (rounds : List Round)
    (f : ι) (count offset : ℕ) (st : State ι) (r : Reply × State ι) : Prop where
  ready : Ready doc r.2
  blocksize : r.2.vol.blocksize = st.vol.blocksize
  content : content doc r.2.vol = content doc st.vol
  reply : (∃ ret, r.1 = .code ret ∧ c.Refused rounds ret) ∨
    r.1 = .bytes (readBytes count offset (Fcfs.content doc st.vol f))

omit [DecidableEq ι] in
theorem Reads.of_refused {st : State ι} (h : Ready doc st) {c : Call ι} {rounds : List Round}
    {ret : ℤ} (hret : c.Refused rounds ret) (f : ι) (count offset : ℕ) :
    Reads doc c rounds f count offset st (.code ret, st) :=
  ⟨h, rfl, rfl, .inl ⟨ret, rfl, hret⟩⟩

omit [DecidableEq ι] in
/-- The wait for a revalidation, and the read that follows it. -/
theorem Reads.again {st st' : State ι} {c : Call ι} {r : Round} {rounds : List Round} {f : ι}
    {count offset : ℕ} {res : Reply × State ι} (hfenced : r.deviceLock = -ltfsDeviceFenced)
    (hblocksize : st'.vol.blocksize = st.vol.blocksize)
    (hcontent : Fcfs.content doc st'.vol = Fcfs.content doc st.vol)
    (h : Reads doc c rounds f count offset st' res) :
    Reads doc c (r :: rounds) f count offset st res := by
  refine ⟨h.ready, h.blocksize.trans hblocksize, h.content.trans hcontent, ?_⟩
  rcases h.reply with ⟨ret, hcode, hrefused⟩ | hbytes
  · exact .inl ⟨ret, hcode, .again hfenced hrefused⟩
  · rw [hcontent] at hbytes
    exact .inr hbytes

omit [DecidableEq ι] in
/-- Any number of rounds; the induction is on those that are left. -/
theorem ltfsFsrawRead_reads (c : Call ι) (f : ι) (buf : ℕ → UInt8) {count offset : ℕ}
    (hcount : 0 < count) (hoff : offset < 2 ^ 63) (rounds : List Round) {st : State ι}
    (h : Ready doc st) (hbuf : count + st.vol.blocksize ≤ 2 ^ 63)
    (hdrive : st.vol.dev.Faultless) :
    Reads doc c rounds f count offset st (ltfsFsrawRead doc c f count offset rounds buf st) := by
  induction rounds generalizing st with
  | nil => exact .of_refused h .last f count offset
  | cons r rounds ih =>
    rw [ltfsFsrawRead]
    by_cases hlock : r.lock < 0
    · rw [if_pos hlock]
      exact .of_refused h (.lock hlock) f count offset
    · rw [if_neg hlock]
      by_cases hfenced : r.deviceLock = -ltfsDeviceFenced
      · -- another thread revalidates the medium
        rw [if_pos hfenced]
        have hpreserves := ltfsRevalidate_preserves st.label h.stored.ok
        obtain ⟨hstored, hcontent⟩ := h.stored.of_preserves hpreserves
        have hready := h.of_preserves hpreserves rfl rfl hstored
        dsimp only
        by_cases hzero : (ltfsRevalidate st.label st.vol).1 = 0
        · rw [if_pos hzero]
          have hdrive' : (ltfsRevalidate st.label st.vol).2.dev.Faultless := by
            unfold Device.Faultless
            rw [(ltfsRevalidate_searched st.label st.vol).answers]
            exact hdrive
          have hrest := ih hready hbuf hdrive'
          exact @Reads.again ι doc st { st with vol := (ltfsRevalidate st.label st.vol).2 } c r
            rounds f count offset _ hfenced hpreserves.blocksize hcontent hrest
        · rw [if_neg hzero]
          have hneg := lt_of_le_of_ne (ltfsRevalidate_le st.label st.vol) hzero
          have hreval : (ltfsRevalidate st.label st.vol).2.reval = -ltfsRevalFailed := if_pos hneg
          rw [hreval]
          exact ⟨hready, rfl, hcontent, .inl ⟨_, rfl, .revalidation hfenced⟩⟩
      · rw [if_neg hfenced]
        by_cases hdevice : r.deviceLock < 0
        · rw [if_pos hdevice]
          exact .of_refused h (.deviceLock hdevice hfenced) f count offset
        · rw [if_neg hdevice]
          by_cases hmem : (! st.allocated && ! c.cacheMem) = true
          · rw [if_pos hmem]
            rw [Bool.and_eq_true, Bool.not_eq_true', Bool.not_eq_true'] at hmem
            exact .of_refused h (.noMemory hmem.2) f count offset
          · rw [if_neg hmem]
            obtain ⟨rs, hrun, hbytes, htravelled, hcached, hcache⟩ :=
              attempt_reads h hdrive f buf hcount hoff hbuf
            rw [hrun]
            dsimp only
            rw [hbytes]
            have hpreserves := Preserves.of_travelled h.stored.ok htravelled
            obtain ⟨hstored, hcontent⟩ := h.stored.of_preserves hpreserves
            exact ⟨⟨hstored, fun p hp => (hcached p hp).trans_le (hpreserves.append p),
              fun _ => hcache⟩, rfl, hcontent, .inr rfl⟩

theorem fcfsRead_served {st : State ι} (h : Ready doc st) {c : Call ι} {f : ι} {buf : ℕ → UInt8}
    {count offset : ℕ} (hreq : c.request = .read f buf count offset) (hoff : offset < 2 ^ 63)
    (hbuf : count + st.vol.blocksize ≤ 2 ^ 63) (hdrive : st.vol.dev.Faultless) :
    Served doc c st (fcfsRead doc c f buf count offset st) := by
  unfold fcfsRead
  by_cases hzero : count = 0
  · subst hzero
    rw [if_pos rfl]
    refine ⟨h, rfl, ?_⟩
    have hanswer : Serves (content doc st.vol) c _ _ := .read hreq
    rw [readBytes, Nat.zero_min] at hanswer
    exact hanswer
  · rw [if_neg hzero]
    have hreads := ltfsFsrawRead_reads c f buf (Nat.pos_of_ne_zero hzero) hoff c.rounds h hbuf hdrive
    refine ⟨hreads.ready, hreads.blocksize, ?_⟩
    rw [hreads.content]
    rcases hreads.reply with ⟨ret, hcode, hrefused⟩ | hbytes
    · rw [hcode]
      refine .refused ?_
      unfold Call.MayFail
      rw [hreq]
      exact hrefused
    · rw [hbytes]
      exact .read hreq

theorem fcfsTruncate_served {st : State ι} (h : Ready doc st) {c : Call ι} {f : ι} {length : ℕ}
    (hreq : c.request = .truncate f length) (hfit : length < 2 ^ 63) :
    Served doc c st
      (.code (fcfsTruncate c f length st.vol).1,
        { st with vol := (fcfsTruncate c f length st.vol).2 }) := by
  obtain ⟨⟨hdev, hsame⟩, hst, hdone, hfailed⟩ := fcfsTruncate_cuts h.stored c f length hfit
  refine ⟨h.of_preserves (.refl h.stored.ok) hdev hsame hst, hsame, ?_⟩
  dsimp only
  by_cases hret : (fcfsTruncate c f length st.vol).1 = 0
  · rw [hret, hdone hret]
    exact .truncate hreq
  · rw [hfailed hret]
    refine .refused ?_
    unfold Call.MayFail
    rw [hreq]
    exact fcfsTruncate_refused hret

theorem writeIndex_served {st : State ι} (h : Ready doc st) {c : Call ι} {p : Partition}
    {writePerm : Bool} (hreq : c.request = .writeIndex p writePerm) :
    Served doc c st
      (.code (writeIndex p writePerm st.vol).1,
        { st with vol := (writeIndex p writePerm st.vol).2 }) := by
  have hpreserves := writeIndex_preserves p writePerm h.stored.ok
  obtain ⟨hst, hcontent⟩ := h.stored.of_preserves hpreserves
  refine ⟨h.of_preserves hpreserves rfl rfl hst, hpreserves.blocksize, ?_⟩
  dsimp only
  rw [hcontent]
  by_cases hret : (writeIndex p writePerm st.vol).1 = 0
  · rw [hret]
    exact .writeIndex hreq
  · refine .refused ?_
    unfold Call.MayFail
    rw [hreq]
    exact hret

/-- One call, whatever it asks for. -/
theorem exec_served {st : State ι} (h : Ready doc st) {c : Call ι}
    (hc : c.Regular st.vol.blocksize) : Served doc c st (c.exec doc st) := by
  have hdrive : Preserves st.vol (st.withDrive c.drive).vol :=
    ⟨⟨h.stored.ok.posOk, h.stored.ok.appendPos_le⟩, fun _ => rfl, fun _ => le_refl _, rfl, rfl⟩
  obtain ⟨hstored, hcontent⟩ := h.stored.of_preserves hdrive
  have hready : Ready doc (st.withDrive c.drive) := h.of_preserves hdrive rfl rfl hstored
  have hgo : Served doc c (st.withDrive c.drive) (c.exec doc st) := by
    unfold Call.Regular at hc
    unfold Call.exec
    dsimp only
    cases hreq : c.request
    all_goals
      rw [hreq] at hc
      dsimp only at hc ⊢
    case write f buf offset => exact fcfsWrite_served hready hreq hc
    case read f buf count offset => exact fcfsRead_served hready hreq hc.1 hc.2.1 hc.2.2
    case truncate f length => exact fcfsTruncate_served hready hreq hc
    case getFilesize f => exact ⟨hready, rfl, .getFilesize hreq⟩
    case writeIndex p writePerm => exact writeIndex_served hready hreq
  refine ⟨hgo.ready, hgo.blocksize, ?_⟩
  rw [← hcontent]
  exact hgo.answer

/-- Whatever the calls, on whichever files, the answers are those of files that are kept as sizes
and bytes; also where the drive fails during writes, and where indexes are written between. -/
theorem fcfs_refines {st : State ι} (h : Ready doc st) (calls : List (Call ι))
    (hcalls : ∀ c ∈ calls, c.Regular st.vol.blocksize) :
    Explains (content doc st.vol) (trace doc calls st) (content doc (run doc calls st).vol) := by
  induction calls generalizing st with
  | nil => exact .nil _
  | cons c calls ih =>
    rw [List.forall_mem_cons] at hcalls
    have hserved := exec_served h hcalls.1
    refine .cons hserved.answer (ih hserved.ready ?_)
    rw [hserved.blocksize]
    exact hcalls.2

end Calls

/-! ## A new volume -/

theorem Ready.of_empty {ι : Type} {doc : Index (ι → Dentry) → ℕ → List UInt8} {st : State ι}
    (hok : st.vol.dev.Ok) (hblocksize : 0 < st.vol.blocksize ∧ st.vol.blocksize < 2 ^ 63)
    (hempty : ∀ f, st.vol.index.root f = ⟨[], 0, 0⟩) (hcache : st.lastPos.partition = none) :
    Ready doc st := by
  constructor
  · refine ⟨hok, hblocksize, fun f => ?_, fun f => ?_, fun f e he => ?_, fun f x place hx => ?_⟩
    · rw [hempty]
      exact ⟨⟨rfl, by simp⟩, by simp [Ordered]⟩
    · rw [hempty]
      exact Nat.two_pow_pos 63
    · rw [hempty] at he
      cases he
    · rw [hempty] at hx
      cases hx
  · intro p hp
    rw [hcache] at hp
    cases hp
  · intro buf p hp
    have hnone : st.lastPos.partition = some p := hp
    rw [hcache] at hnone
    cases hnone

/-- Two empty files on a tape with blocks of four bytes. -/
def newVolume : State Bool where
  vol := {
    dev := {
      medium := fun _ => [.data [], .fm]
      position := ⟨.dp, 0⟩
      appendPos := fun _ => 0
      partitionSpace := fun _ => .writable
      writeProtected := false
      writeError := false
      readonlyDrive := false
      appendOnlyMode := false
      isWorm := false
      maxBlockSize := 4
      volumeLock := .unlocked
      coherency := fun _ => ⟨0, 0, 0, 0, 0⟩
      volumeChangeRef := 7
      answers := fun _ => .ok false false
      clock := 0 }
    index := ⟨0, ⟨none, 0⟩, ⟨none, 0⟩, fun _ => ⟨[], 0, 0⟩⟩
    dirty := false
    ipIndexFileEnd := false
    dpIndexFileEnd := false
    coherency := fun _ => ⟨0, 0, 0, 0, 0⟩
    uuid := 1
    blocksize := 4
    moreBlocks := fun _ => 0
    lockStatus := .unlocked
    reval := 0
    written := [] }
  label := fun _ => []
  lastPos := ⟨none, 0⟩
  lastSize := 0
  allocated := false
  lastBlock := fun _ => 0
  atimeDirty := false

theorem newVolume_ready (doc : Index (Bool → Dentry) → ℕ → List UInt8) :
    Ready doc newVolume := by
  refine .of_empty ⟨?_, ?_⟩ (by decide) (fun _ => rfl) rfl
  · exact Nat.zero_le 2
  · exact fun _ => Nat.zero_le 2

theorem fault_neg : (-1 : ℤ) < 0 := by decide

/-- A call that meets a drive without faults. -/
def plainCall (request : Request Bool) : Call Bool where
  request := request
  rounds := [⟨0, 0⟩]
  refusal := ⟨-1, fault_neg⟩
  mem := ⟨true, true⟩
  cacheMem := true
  drive := fun _ => .ok false false

/-- Two writes that overlap, an index, a write that the drive refuses, and what is read then. -/
def someCalls : List (Call Bool) :=
  [plainCall (.write true [1, 2, 3, 4, 5, 6] 2),
    plainCall (.write true [8, 9] 3),
    plainCall (.writeIndex .dp false),
    { plainCall (.write true [7, 7] 4) with drive := fun _ => .error ⟨-1, fault_neg⟩ none },
    plainCall (.read true (fun _ => 255) 9 1),
    plainCall (.getFilesize false)]

theorem fcfs_refines_someCalls :
    (trace (fun _ _ => []) someCalls newVolume).map Prod.snd
      = [.code 0, .code 0, .code 0, .code (-1), .bytes [0, 1, 8, 9, 4, 5, 6], .size 0] ∧
    Explains (content (fun _ _ => []) newVolume.vol) (trace (fun _ _ => []) someCalls newVolume)
      (content (fun _ _ => []) (run (fun _ _ => []) someCalls newVolume).vol) := by
  refine ⟨by decide +kernel, fcfs_refines (newVolume_ready _) someCalls ?_⟩
  simp only [someCalls, List.forall_mem_cons]
  refine ⟨?_, ?_, trivial, ?_, ⟨?_, ?_, fun _ => ⟨false, false, rfl⟩⟩, trivial, by simp⟩
  · show 2 + 6 < 2 ^ 63
    decide
  · show 3 + 2 < 2 ^ 63
    decide
  · show 4 + 2 < 2 ^ 63
    decide
  · show 1 < 2 ^ 63
    decide
  · show 9 + 4 ≤ 2 ^ 63
    decide

end Ltfs.Fcfs

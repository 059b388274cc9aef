import Ltfs.CheckMediumSpec
import Ltfs.Fsraw.ReadSpec

/-!
# What a read depends on

A read that succeeds on the beginning of a tape does the same on the whole tape, and it only moves
the tape.

* `Carries` — a step that succeeds on one medium does the same on a longer one.
* `fsrawReadAttempt_carries` — an attempt to read does.
* `fsrawReadAttempt_delivers` — what an attempt delivers while the drive works.
-/

namespace Ltfs

open CheckMedium (Travelled)

section Read

variable {T : Type}

/-- The same, with another cartridge in the drive. -/
def ReadState.onMedium (m : Partition → List (Record T)) (st : ReadState T) : ReadState T :=
  { st with dev := { st.dev with medium := m } }

theorem onMedium_self {m : Partition → List (Record T)} {st : ReadState T}
    (h : st.dev.medium = m) : st.onMedium m = st := by
  subst h
  rfl

theorem onMedium_dev {m : Partition → List (Record T)} {st st' : ReadState T}
    (h : st'.dev = st.dev) : (st'.onMedium m).dev = (st.onMedium m).dev := by
  unfold ReadState.onMedium
  rw [h]

/-- Where the step succeeds on `m'`, it does the same on `m`, and the tape has only been moved. -/
structure Carries {α : Type} (m m' : Partition → List (Record T)) (st : ReadState T)
    (step : ReadState T → Except ℤ α × ReadState T) : Prop where
  same : ∀ a, (step (st.onMedium m')).1 = .ok a →
    step (st.onMedium m) = (.ok a, (step (st.onMedium m')).2.onMedium m)
  medium : ∀ a, (step (st.onMedium m')).1 = .ok a → (step (st.onMedium m')).2.dev.medium = m'
  moved : ∀ a, (step (st.onMedium m')).1 = .ok a →
    Travelled (st.onMedium m).dev ((step (st.onMedium m')).2.onMedium m).dev

variable {m m' : Partition → List (Record T)}

theorem Carries.pure {α : Type} {st : ReadState T} {a : Except ℤ α} :
    Carries m m' st fun st => (a, st) :=
  ⟨fun _ hret => Prod.ext hret rfl, fun _ _ => rfl, fun _ _ => .refl _⟩

/-- A step that fails on the shorter medium. -/
theorem Carries.of_failed {α : Type} {st : ReadState T}
    {step : ReadState T → Except ℤ α × ReadState T} (ret : ℤ)
    (h : (step (st.onMedium m')).1 = .error ret) : Carries m m' st step := by
  have hfailed : ∀ a, (step (st.onMedium m')).1 ≠ .ok a := by
    intro a ha
    rw [h] at ha
    cases ha
  exact ⟨fun a ha => absurd ha (hfailed a), fun a ha => absurd ha (hfailed a),
    fun a ha => absurd ha (hfailed a)⟩

/-- A step that leaves the drive alone. -/
theorem Carries.memory {α : Type} {st : ReadState T} {a : α} {next : ReadState T → ReadState T}
    (hnext : ∀ m, next (st.onMedium m) = (next st).onMedium m) (hdev : (next st).dev = st.dev) :
    Carries m m' st fun st => (.ok a, next st) := by
  constructor
  · intro b hb
    cases hb
    dsimp only
    rw [hnext m, hnext m']
    rfl
  · intro b _
    dsimp only
    rw [hnext m']
    rfl
  · intro b _
    dsimp only
    rw [hnext m']
    show Travelled _ ((next st).onMedium m).dev
    rw [onMedium_dev hdev]
    exact .refl _

/-- Go on with what a step has returned. -/
def andThen {α β : Type} (next : α → ReadState T → Except ℤ β × ReadState T) :
    Except ℤ α × ReadState T → Except ℤ β × ReadState T
  | (.error ret, st) => (.error ret, st)
  | (.ok a, st) => next a st

/-- One step after another. -/
theorem Carries.bind {α β : Type} {st : ReadState T} {step : ReadState T → Except ℤ α × ReadState T}
    {next : α → ReadState T → Except ℤ β × ReadState T} (h : Carries m m' st step)
    (hnext : ∀ a st', st'.dev.medium = m' → Carries m m' st' (next a)) :
    Carries m m' st fun st => andThen next (step st) := by
  have hsame := h.same
  have hmedium := h.medium
  have hmoved := h.moved
  rcases hstep : step (st.onMedium m') with ⟨ret | a, st'⟩
  · refine .of_failed ret ?_
    rw [hstep]
    rfl
  · rw [hstep] at hsame hmedium hmoved
    have hstep' := hsame a rfl
    have hm := hmedium a rfl
    have hself : st'.onMedium m' = st' := onMedium_self hm
    have hrest := hnext a st' hm
    constructor
    · intro b hb
      simp only [hstep, hstep', andThen] at hb ⊢
      have hgo := hrest.same b
      rw [hself] at hgo
      exact hgo hb
    · intro b hb
      simp only [hstep, andThen] at hb ⊢
      have hgo := hrest.medium b
      rw [hself] at hgo
      exact hgo hb
    · intro b hb
      simp only [hstep, andThen] at hb ⊢
      have hgo := hrest.moved b
      rw [hself] at hgo
      exact (hmoved a rfl).trans (hgo hb)

theorem Carries.congr {α : Type} {st st' : ReadState T}
    {step step' : ReadState T → Except ℤ α × ReadState T} (h : Carries m m' st' step')
    (hdev : st'.dev = st.dev) (heq : ∀ m, step (st.onMedium m) = step' (st'.onMedium m)) :
    Carries m m' st step := by
  constructor
  · intro a ha
    rw [heq] at ha ⊢
    rw [heq]
    exact h.same a ha
  · intro a ha
    rw [heq] at ha ⊢
    exact h.medium a ha
  · intro a ha
    rw [heq] at ha ⊢
    rw [← onMedium_dev hdev]
    exact h.moved a ha

/-! ## The functions of a read -/

variable (doc : Index T → ℕ → List UInt8)

theorem tapeRead_ok {count : ℕ} {st : ReadState T} {a : ℕ}
    (h : (tapeRead doc count st).1 = .ok a) :
    (∃ early programmable, st.dev.answer = .ok early programmable) ∧
    ∃ rec, (st.dev.medium st.dev.position.partition)[st.dev.position.block]? = some rec := by
  unfold tapeRead at h
  cases hans : st.dev.answer with
  | error code junk =>
    rw [hans] at h
    cases h
  | ok early programmable =>
    rw [hans] at h
    dsimp only at h
    cases hrec : (st.dev.medium st.dev.position.partition)[st.dev.position.block]? with
    | none =>
      rw [hrec] at h
      cases h
    | some rec => exact ⟨⟨early, programmable, rfl⟩, rec, rfl⟩

theorem tapeRead_carries (hinit : ∀ p, m' p <+: m p) (count : ℕ) (st : ReadState T) :
    Carries m m' st (tapeRead doc count) := by
  -- the block is on both media, and in the same place
  have hboth : ∀ a, (tapeRead doc count (st.onMedium m')).1 = .ok a →
      ∃ early programmable rec, st.dev.answer = .ok early programmable ∧
        (m' st.dev.position.partition)[st.dev.position.block]? = some rec ∧
        (m st.dev.position.partition)[st.dev.position.block]? = some rec := by
    intro a ha
    obtain ⟨⟨early, programmable, hans⟩, rec, hrec⟩ := tapeRead_ok doc ha
    have hrec : (m' st.dev.position.partition)[st.dev.position.block]? = some rec := hrec
    rcases hinit st.dev.position.partition with ⟨rest, hrest⟩
    refine ⟨early, programmable, rec, hans, hrec, ?_⟩
    rw [← hrest, List.getElem?_append_left (List.getElem?_eq_some_iff.mp hrec).1]
    exact hrec
  constructor
  · intro a ha
    rcases hboth a ha with ⟨early, programmable, rec, hans, hrec', hrec⟩
    simp only [tapeRead, ReadState.onMedium, Device.answer] at ha hans ⊢
    simp only [hans, hrec', hrec] at ha ⊢
    cases ha
    rfl
  · intro a ha
    rcases hboth a ha with ⟨early, programmable, rec, hans, hrec', -⟩
    simp only [tapeRead, ReadState.onMedium, Device.answer] at ha hans ⊢
    simp only [hans, hrec']
    rfl
  · intro a ha
    rcases hboth a ha with ⟨early, programmable, rec, hans, hrec', hrec⟩
    simp only [tapeRead, ReadState.onMedium, Device.answer] at ha hans ⊢
    simp only [hans, hrec']
    exact ⟨rfl, rfl, rfl, rfl, fun _ => (List.getElem?_eq_some_iff.mp hrec).1⟩

theorem fetchBlock_carries (hinit : ∀ p, m' p <+: m p) (bs : ℕ) (e : ExtentInfo)
    (blockbytes : ℕ) (c : BlockCursor) (st : ReadState T) :
    Carries m m' st (fetchBlock doc bs e blockbytes c) := by
  by_cases hbuffered : Buffered e c st
  · -- nothing is read
    refine Carries.congr (Carries.pure
      (a := if st.lastSize < blockbytes then .error (-ltfsSmallBlock) else .ok c)) rfl fun m => ?_
    unfold fetchBlock
    rw [if_pos (show Buffered e c (st.onMedium m) from hbuffered)]
    show (if st.lastSize < blockbytes then _ else _) = _
    split
    · rfl
    · rfl
  · have hnext : ∀ (nread : ℕ) (st' : ReadState T), st'.dev.medium = m' →
        Carries m m' st' fun st =>
          if nread < blockbytes then (.error (-ltfsSmallBlock), st)
          else (.ok { c with curpos := { c.curpos with block := c.curpos.block + 1 } },
            { st with lastPos := ⟨e.start.partition, c.block⟩, lastSize := nread }) := by
      intro nread st' _
      split
      · exact .pure
      · exact .memory (fun _ => rfl) rfl
    refine Carries.congr ((tapeRead_carries doc hinit bs st).bind hnext) rfl fun m => ?_
    unfold fetchBlock
    rw [if_neg (show ¬ Buffered e c (st.onMedium m) from hbuffered)]
    rcases tapeRead doc bs (st.onMedium m) with ⟨ret | nread, st'⟩
    · rfl
    · rfl

theorem readBlocks_carries (hinit : ∀ p, m' p <+: m p) (bs count lastOff : ℕ) (e : ExtentInfo) :
    ∀ (fuel : ℕ) (c : BlockCursor) (nextOff readCount : ℕ) (st : ReadState T),
      Carries m m' st (readBlocks doc bs count lastOff e fuel c nextOff readCount) := by
  intro fuel
  induction fuel with
  | zero => exact fun c nextOff readCount st => .pure
  | succ fuel ih =>
    intro c nextOff readCount st
    by_cases hmore : nextOff < u64 (e.fileoffset + e.bytecount) ∧ readCount < count
    · set lastbyte := if u64 (e.fileoffset + e.bytecount) < u64 (c.lastbyte + bs) then
        u64 (e.fileoffset + e.bytecount) else u64 (c.lastbyte + bs) with hlast
      set ncopy := u64 ((if lastOff < lastbyte then lastOff else lastbyte) - nextOff) with hncopy
      -- the rest of the round, with the block in the buffer
      let next (c : BlockCursor) (st : ReadState T) : Except ℤ (ℕ × ℕ) × ReadState T :=
        readBlocks doc bs count lastOff e fuel
          { c with block := c.block + 1, firstbyte := u64 (c.firstbyte + bs), lastbyte := lastbyte }
          (u64 (nextOff + ncopy)) (u64 (readCount + ncopy))
          { st with
            buf := memcpy readCount ncopy
              (fun i => st.lastBlock (u64 (nextOff - c.firstbyte) + i)) st.buf }
      have hnext : ∀ c st', st'.dev.medium = m' → Carries m m' st' (next c) := by
        intro c st' _
        have hrest := ih
          { c with block := c.block + 1, firstbyte := u64 (c.firstbyte + bs), lastbyte := lastbyte }
          (u64 (nextOff + ncopy)) (u64 (readCount + ncopy))
          { st' with
            buf := memcpy readCount ncopy
              (fun i => st'.lastBlock (u64 (nextOff - c.firstbyte) + i)) st'.buf }
        exact .congr hrest rfl fun _ => rfl
      refine Carries.congr ((fetchBlock_carries doc hinit bs e (u64 (lastbyte - c.firstbyte)) c
        st).bind hnext) rfl fun m => ?_
      rw [readBlocks, if_pos hmore]
      dsimp only
      rw [← hlast, ← hncopy]
      rcases fetchBlock doc bs e (u64 (lastbyte - c.firstbyte)) c (st.onMedium m)
        with ⟨ret | c', st'⟩
      · rfl
      · rfl
    · refine Carries.congr (.pure (a := .ok (nextOff, readCount))) rfl fun m => ?_
      rw [readBlocks, if_neg hmore]

/-- A block that is on the shorter medium is found on the longer one. -/
theorem locate_onMedium (hinit : ∀ p, m' p <+: m p) (p : Partition) (block : ℕ) (dev : Device T)
    (hret : ¬ locateCode (locate p (some block) { dev with medium := m' }).1 < 0) :
    locate p (some block) { dev with medium := m }
      = ((locate p (some block) { dev with medium := m' }).1,
        { (locate p (some block) { dev with medium := m' }).2 with medium := m }) := by
  have hfound : ∀ (m : Partition → List (Record T)) early programmable,
      dev.answers dev.clock = .ok early programmable → block ≤ (m p).length →
      locate p (some block) { dev with medium := m } = (0, { dev.tick.noteSpace p early programmable
        with medium := m, position := ⟨p, block⟩ }) := by
    intro m early programmable hans hle
    have hnote : ({ dev with medium := m } : Device T).tick.noteSpace p early programmable
        = { dev.tick.noteSpace p early programmable with medium := m } := by
      unfold Device.noteSpace
      by_cases hearly : early = true
      · rw [if_pos hearly, if_pos hearly]
        rfl
      · rw [if_neg hearly, if_neg hearly]
        by_cases hprog : programmable = true ∧ dev.partitionSpace p ≠ .noSpace
        · rw [if_pos (show programmable = true ∧ ({ dev with medium := m } :
            Device T).tick.partitionSpace p ≠ .noSpace from hprog), if_pos (show programmable = true ∧
            dev.tick.partitionSpace p ≠ .noSpace from hprog)]
          rfl
        · rw [if_neg (show ¬ (programmable = true ∧ ({ dev with medium := m } :
            Device T).tick.partitionSpace p ≠ .noSpace) from hprog), if_neg (show
            ¬ (programmable = true ∧ dev.tick.partitionSpace p ≠ .noSpace) from hprog)]
          rfl
    have hans' : ({ dev with medium := m } : Device T).answer = .ok early programmable := hans
    unfold locate
    rw [hans']
    dsimp only [Option.getD_some]
    rw [if_pos (show block ≤ ({ dev with medium := m } : Device T).eod p from hle), hnote]
  cases hans : dev.answers dev.clock with
  | error code junk =>
    have herr : ∀ m : Partition → List (Record T), locate p (some block) { dev with medium := m }
        = (code.1, { dev.tick with medium := m }) := by
      intro m
      have hans' : ({ dev with medium := m } : Device T).answer = .error code junk := hans
      unfold locate
      rw [hans']
      rfl
    rw [herr, herr]
  | ok early programmable =>
    by_cases hin : block ≤ (m' p).length
    · rw [hfound m' early programmable hans hin,
        hfound m early programmable hans (hin.trans (hinit p).length_le)]
    · -- behind the end of data
      have hans' : ({ dev with medium := m' } : Device T).answer = .ok early programmable := hans
      unfold locate at hret
      rw [hans'] at hret
      dsimp only [Option.getD_some] at hret
      rw [if_neg (show ¬ block ≤ ({ dev with medium := m' } : Device T).eod p from hin)] at hret
      exact absurd (by decide : locateCode (-edevEodDetected) < 0) hret

theorem tapeSeek_onMedium (hinit : ∀ p, m' p <+: m p) (p : Partition) (block : ℕ) (dev : Device T)
    (hret : ¬ (tapeSeek p (some block) { dev with medium := m' }).1 < 0) :
    tapeSeek p (some block) { dev with medium := m }
      = ((tapeSeek p (some block) { dev with medium := m' }).1,
        { (tapeSeek p (some block) { dev with medium := m' }).2 with medium := m }) := by
  unfold tapeSeek at hret ⊢
  dsimp only at hret ⊢
  split_ifs at hret ⊢
  · rfl
  · rw [locate_onMedium hinit p block dev hret]

/-- The seek before an extent is read. -/
theorem seekIfRequired_carries (hinit : ∀ p, m' p <+: m p) (e : ExtentInfo) (p : Partition)
    (block : ℕ) (st : ReadState T) (hret : ¬ (seekIfRequired e p block (st.onMedium m')).1 < 0) :
    seekIfRequired e p block (st.onMedium m)
      = ((seekIfRequired e p block (st.onMedium m')).1,
        (seekIfRequired e p block (st.onMedium m')).2.onMedium m) ∧
    (seekIfRequired e p block (st.onMedium m')).2.dev.medium = m' ∧
    Travelled (st.onMedium m).dev ((seekIfRequired e p block (st.onMedium m')).2.onMedium m).dev := by
  by_cases hmove : (st.dev.position.partition ≠ p ∨ st.dev.position.block ≠ block) ∧
      ¬ (st.dev.position.partition = p ∧ st.dev.position.block = block + 1 ∧
        e.start.partition = st.lastPos.partition ∧ block = st.lastPos.block)
  · have heq : ∀ m, seekIfRequired e p block (st.onMedium m)
        = ((tapeSeek p (some block) { st.dev with medium := m }).1,
          { st with dev := (tapeSeek p (some block) { st.dev with medium := m }).2 }) :=
      fun m => if_pos hmove
    rw [heq] at hret ⊢
    rw [heq]
    have hseek := tapeSeek_onMedium hinit p block st.dev hret
    have hmoved := CheckMedium.tapeSeek_travelled p (some block) { st.dev with medium := m }
    rw [hseek] at hmoved
    refine ⟨?_, (CheckMedium.tapeSeek_travelled p (some block) _).medium, hmoved⟩
    rw [hseek]
    rfl
  · have heq : ∀ m, seekIfRequired e p block (st.onMedium m) = (0, st.onMedium m) :=
      fun m => if_neg hmove
    rw [heq, heq]
    exact ⟨rfl, rfl, .refl _⟩

theorem readExtent_carries (hinit : ∀ p, m' p <+: m p) (bs count lastOff : ℕ) (e : ExtentInfo)
    (nextOff readCount : ℕ) (st : ReadState T) :
    Carries m m' st (readExtent doc bs count lastOff e nextOff readCount) := by
  by_cases hneeded : u64 (e.fileoffset + e.bytecount) > nextOff
  · cases hp : e.start.partition with
    | none =>
      refine Carries.congr (.pure (a := .error (-edevInvalidFieldCdb))) rfl fun m => ?_
      unfold readExtent
      rw [if_pos hneeded, hp]
    | some p =>
      set block := seekBlock bs e nextOff with hblock
      set firstbyte := u64 (e.fileoffset - e.byteoffset + (block - e.start.block) * bs) with hfirst
      -- both parts of the function, whichever medium is in the drive
      have heq : ∀ m, readExtent doc bs count lastOff e nextOff readCount (st.onMedium m)
          = if (seekIfRequired e p block (st.onMedium m)).1 < 0 then
              (.error (seekIfRequired e p block (st.onMedium m)).1,
                (seekIfRequired e p block (st.onMedium m)).2)
            else readBlocks doc bs count lastOff e (count + 1)
              ⟨p, block, st.dev.position, firstbyte, firstbyte⟩ nextOff readCount
              (seekIfRequired e p block (st.onMedium m)).2 := by
        intro m
        unfold readExtent
        rw [if_pos hneeded, hp]
        rfl
      by_cases hret : (seekIfRequired e p block (st.onMedium m')).1 < 0
      · refine .of_failed (seekIfRequired e p block (st.onMedium m')).1 ?_
        rw [heq, if_pos hret]
      · obtain ⟨hsame, hmedium, hmoved⟩ := seekIfRequired_carries hinit e p block st hret
        have hself : (seekIfRequired e p block (st.onMedium m')).2.onMedium m'
            = (seekIfRequired e p block (st.onMedium m')).2 := onMedium_self hmedium
        have hrest := readBlocks_carries doc hinit bs count lastOff e (count + 1)
          ⟨p, block, st.dev.position, firstbyte, firstbyte⟩ nextOff readCount
          (seekIfRequired e p block (st.onMedium m')).2
        have hgo := hrest.same
        have hstay := hrest.medium
        have hgone := hrest.moved
        rw [hself] at hgo hstay hgone
        constructor
        · intro a ha
          rw [heq, if_neg hret] at ha
          rw [heq m, heq m', hsame, if_neg hret, if_neg hret]
          exact hgo a ha
        · intro a ha
          rw [heq, if_neg hret] at ha ⊢
          exact hstay a ha
        · intro a ha
          rw [heq, if_neg hret] at ha ⊢
          exact hmoved.trans (hgone a ha)
  · refine Carries.congr (.pure (a := .ok (nextOff, readCount))) rfl fun m => ?_
    unfold readExtent
    rw [if_neg hneeded]

theorem readExtents_carries (hinit : ∀ p, m' p <+: m p) (bs count lastOff : ℕ)
    (l : List ExtentInfo) : ∀ (nextOff readCount : ℕ) (st : ReadState T),
      Carries m m' st (readExtents doc bs count lastOff l nextOff readCount) := by
  induction l with
  | nil => exact fun nextOff readCount st => .pure
  | cons e l ih =>
    intro nextOff readCount st
    by_cases hfull : readCount = count
    · refine Carries.congr (.pure (a := .ok (nextOff, readCount))) rfl fun m => ?_
      rw [readExtents, if_pos hfull]
    · by_cases hfar : nextOff < e.fileoffset ∧ e.fileoffset > lastOff
      · -- the extent begins behind what is asked for
        let zeros (st : ReadState T) : Except ℤ (ℕ × ℕ) × ReadState T :=
          (.ok (nextOff, count), { st with buf := memset readCount (u64 (lastOff - nextOff)) st.buf })
        have hzeros : Carries m m' st zeros := .memory (fun _ => rfl) rfl
        refine Carries.congr hzeros rfl fun m => ?_
        rw [readExtents, if_neg hfull, if_pos hfar]
      · set hole := if nextOff < e.fileoffset then u64 (e.fileoffset - nextOff) else 0 with hhole
        set zeroed : ReadState T := { st with buf := memset readCount hole st.buf } with hzeroed
        have hextent := readExtent_carries doc hinit bs count lastOff e
          (max nextOff e.fileoffset) (u64 (readCount + hole)) zeroed
        let next (cursors : ℕ × ℕ) := readExtents doc bs count lastOff l cursors.1 cursors.2
        have hnext : ∀ a st', st'.dev.medium = m' → Carries m m' st' (next a) :=
          fun a st' _ => ih a.1 a.2 st'
        have hboth := hextent.bind hnext
        have heq : ∀ m, readExtents doc bs count lastOff (e :: l) nextOff readCount (st.onMedium m)
            = andThen next (readExtent doc bs count lastOff e (max nextOff e.fileoffset)
                (u64 (readCount + hole)) (zeroed.onMedium m)) := by
          intro m
          rw [readExtents, if_neg hfull, if_neg hfar]
          dsimp only
          rw [← hhole]
          rw [show ({ st.onMedium m with buf := memset readCount hole (st.onMedium m).buf } :
            ReadState T) = zeroed.onMedium m from rfl]
          rcases readExtent doc bs count lastOff e (max nextOff e.fileoffset)
            (u64 (readCount + hole)) (zeroed.onMedium m) with ⟨ret | cursors, st'⟩
          · rfl
          · rfl
        exact Carries.congr hboth rfl heq

theorem fsrawReadAttempt_carries (hinit : ∀ p, m' p <+: m p) (bs : ℕ) (d : Dentry)
    (count offset : ℕ) (st : ReadState T) :
    Carries m m' st (fsrawReadAttempt doc bs d count offset) := by
  -- "Handle sparse end-of-file"
  let finish (cursors : ℕ × ℕ) (st : ReadState T) : Except ℤ ℕ × ReadState T :=
    let ncopy := if cursors.2 < count ∧ cursors.1 < d.size then
        (if u64 (offset + count) < d.size then u64 (u64 (offset + count) - cursors.1)
          else u64 (d.size - cursors.1))
      else 0
    (.ok (u64 (cursors.2 + ncopy)),
      { st with buf := memset cursors.2 ncopy st.buf, atimeDirty := true })
  have hfinish : ∀ a st', st'.dev.medium = m' → Carries m m' st' (finish a) := by
    intro a st' _
    exact .memory (fun _ => rfl) rfl
  refine Carries.congr ((readExtents_carries doc hinit bs count (u64 (offset + count))
    d.extentlist offset 0 st).bind hfinish) rfl fun m => ?_
  unfold fsrawReadAttempt
  dsimp only
  rcases readExtents doc bs count (u64 (offset + count)) d.extentlist offset 0 (st.onMedium m)
    with ⟨ret | cursors, st'⟩
  · rfl
  · rfl

/-- While the drive works, an attempt delivers all bytes of the file that are asked for. -/
theorem fsrawReadAttempt_delivers {bs : ℕ} {d : Dentry} (hl : Lib.Segment.Ordered d.extentlist)
    (hsize : ∀ e ∈ d.extentlist, e.fileoffset + e.bytecount ≤ d.size)
    (st : ReadState T) (hback : ∀ e ∈ d.extentlist, Backed doc st.dev.medium bs e)
    (hdrive : st.dev.Faultless) (hcache : CacheOk doc bs st)
    {count offset : ℕ} (harg : ReadArgs bs d count offset) (hcount : 0 < count) :
    ∃ st', fsrawReadAttempt doc bs d count offset st
        = (.ok (min count (d.size - offset)), st') ∧
      (∀ i < min count (d.size - offset),
        st'.buf i = fileByte doc st.dev.medium bs d.extentlist (offset + i)) ∧
      DriveOk doc st.dev.medium bs st' := by
  have hoff := harg.offset
  have hbuffers := harg.buffers
  have hsize64 := harg.size
  have hstart : Reading doc st.dev.medium bs d offset st.buf offset 0 st := by
    constructor
    · exact ⟨hdrive, rfl, hcache⟩
    · exact ⟨rfl, fun h => absurd h (lt_irrefl 0), fun i hi => absurd hi (Nat.not_lt_zero i),
        fun _ _ => rfl⟩
  obtain ⟨nextOff, readCount, st', hrun, hread, hle, hpassed⟩ := readExtents_spec doc hl hsize hback
    harg st.buf d.extentlist [] offset 0 st rfl hstart (Nat.zero_le _) (by simp)
  have hwithin := hread.delivered.within
  have hlast : u64 ((offset : ℤ) + count) = offset + count := u64_eq (by omega) (by omega)
  -- the hole at the end of the file
  have hrest : (if readCount < count ∧ nextOff < d.size then
      (if offset + count < d.size then u64 (((offset + count : ℕ) : ℤ) - nextOff)
        else u64 ((d.size : ℤ) - nextOff)) else 0) = min count (d.size - offset) - readCount := by
    split_ifs
    · rw [u64_eq (n := offset + count - nextOff) (by omega) (by omega)]
      omega
    · rw [u64_eq (n := d.size - nextOff) (by omega) (by omega)]
      omega
    · omega
  have hfinal := hread.hole doc (min count (d.size - offset) - readCount) (by omega) (by
    intro x hlo hhi e he hc
    rw [ExtentInfo.covers_iff] at hc
    have hpass := (hpassed (by omega)).2 e he
    omega)
  unfold fsrawReadAttempt
  dsimp only
  rw [hlast, hrun]
  dsimp only
  rw [hrest, u64_eq (n := min count (d.size - offset)) (by omega) (by omega)]
  rw [show readCount + (min count (d.size - offset) - readCount)
    = min count (d.size - offset) by omega] at hfinal
  exact ⟨_, rfl, hfinal.delivered.filled, hfinal.drive.faultless, hfinal.drive.medium,
    hfinal.drive.cache⟩

end Read

end Ltfs

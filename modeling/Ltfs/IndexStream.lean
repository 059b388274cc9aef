import Ltfs.XmlTape

/-!
# Where the reader of an index stops

The read callback takes blocks from the tape as the parser asks for bytes. How many bytes have
been asked for, and nothing else, decides where the tape then is.

* `streamState` — where that is.
* `readAll_stream` — the callbacks lead there.
* `indexEnd` — where an index file ends, by the length of its document, its closing file mark
  included.
* `EndSeen` — when the tape has come there, and `after_eq_indexEnd_iff`.
-/

namespace Ltfs.XmlTape

/-! ## Where the tape stops -/

/-- What the read callback keeps track of, without the bytes. -/
structure StreamPos where
  pos : ℕ
  currentPos : ℕ
  sawSmallBlock : Bool
  sawFileMark : Bool
  bufUsed : ℕ

/-- Nothing read yet, or nothing left in the buffer. -/
def StreamPos.start (pos : ℕ) : StreamPos := ⟨pos, pos, false, false, 0⟩

def StreamPos.setUsed (v : StreamPos) (used : ℕ) : StreamPos := { v with bufUsed := used }

/-- Behind a small block at `pos` the next record has been looked at: a file mark is left where
it is, another block has been read. -/
def smallState (pos : ℕ) (next : Option Record) (used : ℕ) : StreamPos :=
  match next with
  | none => ⟨pos + 1, pos + 1, true, false, used⟩
  | some .filemark => ⟨pos + 1, pos + 1, true, true, used⟩
  | some (.block _) => ⟨pos + 2, pos + 1, true, false, used⟩

theorem smallState_setUsed (pos : ℕ) (next : Option Record) (used used' : ℕ) :
    (smallState pos next used).setUsed used' = smallState pos next used' := by
  unfold smallState
  split
  · rfl
  · rfl
  · rfl

theorem smallState_small (pos : ℕ) (next : Option Record) (used : ℕ) :
    (smallState pos next used).sawSmallBlock = true ∧ (smallState pos next used).bufUsed = used := by
  unfold smallState
  split
  · exact ⟨rfl, rfl⟩
  · exact ⟨rfl, rfl⟩
  · exact ⟨rfl, rfl⟩

/-- After `n` bytes have been asked for, the records from `pos` on being the list. -/
def streamState (bs : ℕ) : ℕ → List Record → ℕ → StreamPos
  | pos, [], _ => .start pos
  | pos, .filemark :: _, n => if n = 0 then .start pos else ⟨pos, pos + 1, true, true, 0⟩
  | pos, .block bytes :: rest, n =>
    if n = 0 then .start pos
    else if bytes.length < bs then smallState pos rest.head? (bytes.length - n)
    else if n ≤ bs then ⟨pos + 1, pos + 1, false, false, bs - n⟩
    else streamState bs (pos + 1) rest (n - bs)

theorem streamState_zero (bs pos : ℕ) (l : List Record) : streamState bs pos l 0 = .start pos := by
  unfold streamState
  split
  · rfl
  · rfl
  · rfl

/-- The reader is there. -/
structure IsAt (bs : ℕ) (records : List Record) (ctx : InputTape) (v : StreamPos) : Prop where
  device : ctx.device = ⟨records, v.pos, []⟩
  blocksize : ctx.blocksize = bs
  bufSize : ctx.bufSize = bs
  eodPos : ctx.eodPos = records.length
  currentPos : ctx.currentPos = v.currentPos
  sawSmallBlock : ctx.sawSmallBlock = v.sawSmallBlock
  sawFileMark : ctx.sawFileMark = v.sawFileMark
  bufUsed : ctx.bufUsed = v.bufUsed
  errCode : ctx.errCode = 0
  fd : ctx.fd = -1
  mallocRet : ctx.mallocRet = true

section Stream

variable {bs : ℕ} {records : List Record}

/-- The buffer's counters play no role for the tape. -/
theorem IsAt.setBuf {ctx : InputTape} {v : StreamPos} (h : IsAt bs records ctx v)
    (start used : ℕ) :
    IsAt bs records { ctx with bufStart := start, bufUsed := used } (v.setUsed used) :=
  ⟨h.device, h.blocksize, h.bufSize, h.eodPos, h.currentPos, h.sawSmallBlock, h.sawFileMark, rfl,
    h.errCode, h.fd, h.mallocRet⟩

/-- Behind the small block, or before the file mark, no call moves the tape. -/
theorem fillBuffer_small {ctx : InputTape} {v : StreamPos} (h : IsAt bs records ctx v)
    (hsmall : v.sawSmallBlock = true) (len fuel remaining : ℕ) (saved : List UInt8) :
    ∃ ret, fillBuffer len (fuel + 1) saved remaining ctx = some (ret, saved, ctx) := by
  unfold fillBuffer
  rw [h.sawSmallBlock, hsmall]
  split
  · exact ⟨_, rfl⟩
  · split
    · exact ⟨_, rfl⟩
    · exact ⟨_, rfl⟩

/-- Reading the record at the position, before the check for a small block. -/
theorem readBlock_at {ctx : InputTape} {v : StreamPos} (h : IsAt bs records ctx v)
    {r : Record} (hget : records[v.pos]? = some r) :
    ∃ ctx', IsAt bs records ctx' { v with pos := v.pos + 1, currentPos := v.currentPos + 1 } ∧
      readBlock ctx = (let s := checkSmallBlock (r.bytes bs).length ctx'
        if s.1 then (some (r.bytes bs), s.2) else (none, s.2)) := by
  have hread : tapeRead ctx.bufSize ctx.device
      = (.ok (r.bytes bs), ⟨records, v.pos + 1, []⟩) := by
    rw [h.device, h.bufSize]
    exact tapeRead_eq (by simp) hget bs
  refine ⟨{ ctx with
      device := ⟨records, v.pos + 1, []⟩
      currentPos := ctx.currentPos + 1
      buf := r.bytes bs },
    ⟨rfl, h.blocksize, h.bufSize, h.eodPos, ?_, h.sawSmallBlock, h.sawFileMark, h.bufUsed,
      h.errCode, h.fd, h.mallocRet⟩, ?_⟩
  · dsimp only
    rw [h.currentPos]
  · have hcache : ∀ c : InputTape, c.fd = -1 → ∀ bytes, cacheRead bytes c = (true, c) := by
      intro c hfd bytes
      unfold cacheRead
      rw [hfd, if_neg (by omega)]
    have hnext := hcache
      { ctx with
        device := ⟨records, v.pos + 1, []⟩
        currentPos := ctx.currentPos + 1
        buf := r.bytes bs } h.fd (r.bytes bs)
    unfold readBlock
    rw [hread]
    dsimp only
    rw [hnext]
    rfl

theorem noteFileMark_at {ctx : InputTape} {v : StreamPos} (h : IsAt bs records ctx v)
    {pos : ℕ} (hpos : v.pos = pos + 1) (hget : records[pos]? = some .filemark) :
    ∃ ctx', noteFileMark ctx = (true, ctx') ∧
      IsAt bs records ctx' { v with pos := pos, sawFileMark := true } := by
  have hback : spaceFmBack ctx.device = (0, ⟨records, pos, []⟩) := by
    rw [h.device]
    exact spaceFmBack_eq (by simp) hpos hget
  refine ⟨{ ctx with sawFileMark := true, device := ⟨records, pos, []⟩ }, ?_,
    ⟨rfl, h.blocksize, h.bufSize, h.eodPos, h.currentPos, h.sawSmallBlock, rfl, h.bufUsed,
      h.errCode, h.fd, h.mallocRet⟩⟩
  unfold noteFileMark
  rw [hback]
  exact if_neg (lt_irrefl 0)

/-- A file mark is read and put back. -/
theorem readBlock_filemark (hbs : 0 < bs) {ctx : InputTape} {v : StreamPos}
    (h : IsAt bs records ctx v) (hget : records[v.pos]? = some .filemark) :
    ∃ ctx', readBlock ctx = (some [], ctx') ∧
      IsAt bs records ctx' ⟨v.pos, v.currentPos + 1, true, true, v.bufUsed⟩ := by
  obtain ⟨ctx₁, hat, hread⟩ := readBlock_at h hget
  have hsmall : IsAt bs records { ctx₁ with sawSmallBlock := true }
      ⟨v.pos + 1, v.currentPos + 1, true, v.sawFileMark, v.bufUsed⟩ :=
    ⟨hat.device, hat.blocksize, hat.bufSize, hat.eodPos, hat.currentPos, rfl, hat.sawFileMark,
      hat.bufUsed, hat.errCode, hat.fd, hat.mallocRet⟩
  obtain ⟨ctx₂, hnote, hat₂⟩ := noteFileMark_at hsmall rfl hget
  have hcheck : checkSmallBlock (Record.filemark.bytes bs).length ctx₁ = (true, ctx₂) := by
    unfold checkSmallBlock
    rw [if_pos (show (Record.filemark.bytes bs).length < ctx₁.bufSize by rw [hat.bufSize]; exact hbs)]
    exact hnote
  rw [hcheck] at hread
  exact ⟨ctx₂, hread, hat₂⟩

theorem readBlock_full {ctx : InputTape} {v : StreamPos} (h : IsAt bs records ctx v)
    {bytes : List UInt8} (hget : records[v.pos]? = some (.block bytes)) (hfull : bs ≤ bytes.length) :
    ∃ chunk ctx', readBlock ctx = (some chunk, ctx') ∧ chunk.length = bs ∧
      IsAt bs records ctx' { v with pos := v.pos + 1, currentPos := v.currentPos + 1 } := by
  obtain ⟨ctx₁, hat, hread⟩ := readBlock_at h hget
  have hlen : (Record.bytes bs (.block bytes)).length = bs := by
    show (bytes.take bs).length = bs
    rw [List.length_take]
    omega
  have hcheck : checkSmallBlock (Record.bytes bs (.block bytes)).length ctx₁ = (true, ctx₁) := by
    rw [hlen, checkSmallBlock_full (by rw [hat.bufSize]; omega)]
  rw [hcheck] at hread
  exact ⟨_, ctx₁, hread, hlen, hat⟩

/-- A small block: the record behind it decides whether the index is closed. -/
theorem readBlock_small (hbs : 0 < records.length) {ctx : InputTape} {v : StreamPos}
    (h : IsAt bs records ctx v) (hpos : v.currentPos = v.pos) (hnomark : v.sawFileMark = false)
    {bytes : List UInt8} (hget : records[v.pos]? = some (.block bytes)) (hne : bytes ≠ [])
    (hsmall : bytes.length < bs) (hnext : ∀ bytes', records[v.pos + 1]? = some (.block bytes') →
      bytes' ≠ []) :
    ∃ ctx', readBlock ctx = (some bytes, ctx') ∧
      IsAt bs records ctx' (smallState v.pos records[v.pos + 1]? v.bufUsed) := by
  obtain ⟨ctx₁, hat, hread⟩ := readBlock_at h hget
  have hbytes : Record.bytes bs (.block bytes) = bytes := List.take_of_length_le hsmall.le
  have hlen : bytes.length ≠ 0 := fun h0 => hne (List.eq_nil_of_length_eq_zero h0)
  rw [hbytes] at hread
  -- what the check makes of the small block is left to show
  suffices hcheck : ∃ ctx₂, checkSmallBlock bytes.length ctx₁ = (true, ctx₂) ∧
      IsAt bs records ctx₂ (smallState v.pos records[v.pos + 1]? v.bufUsed) by
    obtain ⟨ctx₂, hcheck, hat₂⟩ := hcheck
    rw [hcheck] at hread
    exact ⟨ctx₂, hread, hat₂⟩
  have hcurrent : ctx₁.currentPos = v.pos + 1 := hat.currentPos.trans (by rw [← hpos])
  have hat' : IsAt bs records { ctx₁ with sawSmallBlock := true }
      ⟨v.pos + 1, v.pos + 1, true, false, v.bufUsed⟩ :=
    ⟨hat.device, hat.blocksize, hat.bufSize, hat.eodPos, hcurrent, rfl,
      hat.sawFileMark.trans hnomark, hat.bufUsed, hat.errCode, hat.fd, hat.mallocRet⟩
  unfold checkSmallBlock
  rw [if_pos (show bytes.length < ctx₁.bufSize by rw [hat.bufSize]; exact hsmall)]
  dsimp only
  rw [if_neg hlen]
  cases hnxt : records[v.pos + 1]? with
  | none =>
    have heod : records.length ≤ v.pos + 1 := List.getElem?_eq_none_iff.mp hnxt
    have hend : ¬ (ctx₁.eodPos = 0 ∨ ctx₁.eodPos > 0 ∧ ctx₁.currentPos < ctx₁.eodPos) := by
      rw [hat.eodPos, hcurrent]
      omega
    rw [if_neg hend]
    exact ⟨_, rfl, hat'⟩
  | some r =>
    have hlt : v.pos + 1 < records.length := (List.getElem?_eq_some_iff.mp hnxt).1
    have hmore : ctx₁.eodPos = 0 ∨ ctx₁.eodPos > 0 ∧ ctx₁.currentPos < ctx₁.eodPos := by
      rw [hat.eodPos, hcurrent]
      omega
    have hread₂ : tapeRead ctx₁.blocksize ctx₁.device
        = (.ok (r.bytes bs), ⟨records, v.pos + 2, []⟩) := by
      rw [hat.device, hat.blocksize]
      exact tapeRead_eq (by simp) hnxt bs
    have hpeek : IsAt bs records
        { ctx₁ with sawSmallBlock := true, device := ⟨records, v.pos + 2, []⟩ }
        ⟨v.pos + 2, v.pos + 1, true, false, v.bufUsed⟩ :=
      ⟨rfl, hat'.blocksize, hat'.bufSize, hat'.eodPos, hat'.currentPos, hat'.sawSmallBlock,
        hat'.sawFileMark, hat'.bufUsed, hat'.errCode, hat'.fd, hat'.mallocRet⟩
    rw [if_pos hmore, if_neg (by rw [hat.mallocRet]; simp), hread₂]
    dsimp only
    cases r with
    | filemark =>
      obtain ⟨ctx₃, hnote, hat₃⟩ := noteFileMark_at hpeek rfl hnxt
      exact ⟨ctx₃, hnote, hat₃⟩
    | block bytes' =>
      have hlen' : (Record.bytes bs (.block bytes')).length ≠ 0 := by
        show (bytes'.take bs).length ≠ 0
        have hne' := List.length_pos_iff.mpr (hnext bytes' hnxt)
        rw [List.length_take]
        omega
      rw [if_neg hlen']
      exact ⟨_, rfl, hpeek⟩

/-- One round of the loop. -/
theorem fillBuffer_read {ctx ctx' : InputTape} {bytes : List UInt8} {len fuel remaining : ℕ}
    {saved : List UInt8} (hzero : remaining ≠ 0)
    (heod : ¬ (ctx.eodPos > 0 ∧ ctx.currentPos = ctx.eodPos)) (hsmall : ctx.sawSmallBlock = false)
    (hread : readBlock ctx = (some bytes, ctx')) :
    fillBuffer len (fuel + 1) saved remaining ctx
      = if remaining > bytes.length then
          fillBuffer len fuel (saved ++ bytes) (remaining - bytes.length) ctx'
        else
          fillBuffer len fuel (saved ++ bytes.take remaining) 0
            { ctx' with bufStart := remaining, bufUsed := bytes.length - remaining } := by
  simp only [fillBuffer, if_neg hzero, if_neg heod, hsmall, Bool.false_eq_true, if_false, hread]

/-- A round that leaves nothing to be read, because the block holds enough or is the last one. -/
theorem fillBuffer_stops {ctx ctx' : InputTape} {v : StreamPos} {bytes : List UInt8}
    {fuel remaining : ℕ} (len : ℕ) (saved : List UInt8) (hzero : remaining ≠ 0)
    (hfuel : remaining < fuel + 1) (heod : ¬ (ctx.eodPos > 0 ∧ ctx.currentPos = ctx.eodPos))
    (hsmall : ctx.sawSmallBlock = false) (hread : readBlock ctx = (some bytes, ctx'))
    (hat : IsAt bs records ctx' v) (hused : v.bufUsed = 0)
    (hlast : remaining ≤ bytes.length ∨ v.sawSmallBlock = true) :
    ∃ ret saved' ctx'', fillBuffer len (fuel + 1) saved remaining ctx = some (ret, saved', ctx'') ∧
      IsAt bs records ctx'' (v.setUsed (bytes.length - remaining)) := by
  obtain ⟨fuel, rfl⟩ := Nat.exists_eq_succ_of_ne_zero (by omega : fuel ≠ 0)
  rw [fillBuffer_read hzero heod hsmall hread]
  by_cases hmore : remaining > bytes.length
  · rw [if_pos hmore]
    obtain ⟨ret, hret⟩ := fillBuffer_small hat (hlast.resolve_left (by omega)) len fuel
      (remaining - bytes.length) (saved ++ bytes)
    have hnone : v.setUsed (bytes.length - remaining) = v := by
      rw [show bytes.length - remaining = 0 by omega, ← hused]
      rfl
    rw [hnone]
    exact ⟨ret, _, _, hret, hat⟩
  · rw [if_neg hmore]
    exact ⟨_, _, _, fillBuffer_zero (by omega) _ _, hat.setBuf _ _⟩

/-- The loop, from where nothing is buffered. -/
theorem fillBuffer_start (hbs : 0 < bs) (hne : .block [] ∉ records) (len : ℕ) :
    ∀ (l : List Record) (pos remaining fuel : ℕ) (saved : List UInt8) (ctx : InputTape),
      records.drop pos = l → pos ≤ records.length → IsAt bs records ctx (.start pos) →
      0 < records.length → remaining < fuel →
      ∃ ret saved' ctx', fillBuffer len fuel saved remaining ctx = some (ret, saved', ctx') ∧
        IsAt bs records ctx' (streamState bs pos l remaining) := by
  intro l
  induction l with
  | nil =>
    intro pos remaining fuel saved ctx hdrop hle hat hpos hfuel
    obtain ⟨fuel, rfl⟩ := Nat.exists_eq_succ_of_ne_zero (by omega : fuel ≠ 0)
    have heod : ctx.eodPos > 0 ∧ ctx.currentPos = ctx.eodPos := by
      rw [hat.eodPos, hat.currentPos]
      have hge := List.drop_eq_nil_iff.mp hdrop
      exact ⟨hpos, Nat.le_antisymm hle hge⟩
    unfold fillBuffer
    rw [if_pos heod]
    split
    · exact ⟨_, _, _, rfl, hat⟩
    · exact ⟨_, _, _, rfl, hat⟩
  | cons r rest ih =>
    intro pos remaining fuel saved ctx hdrop hle hat hpos hfuel
    obtain ⟨fuel, rfl⟩ := Nat.exists_eq_succ_of_ne_zero (by omega : fuel ≠ 0)
    obtain ⟨hget, hrest⟩ := getElem?_of_drop hdrop
    have hlt : pos < records.length := (List.getElem?_eq_some_iff.mp hget).1
    have hmem : ∀ {i : ℕ} {bytes : List UInt8}, records[i]? = some (.block bytes) → bytes ≠ [] := by
      intro i bytes hi hnil
      rw [hnil] at hi
      exact hne (List.mem_of_getElem? hi)
    by_cases hzero : remaining = 0
    · subst hzero
      refine ⟨_, _, _, fillBuffer_zero (by omega) saved ctx, ?_⟩
      cases r with
      | filemark => exact hat
      | block bytes => exact hat
    · have heod : ¬ (ctx.eodPos > 0 ∧ ctx.currentPos = ctx.eodPos) := by
        rw [hat.eodPos, hat.currentPos]
        show ¬ (records.length > 0 ∧ pos = records.length)
        omega
      cases r with
      | filemark =>
        obtain ⟨ctx₁, hread, hat₁⟩ := readBlock_filemark hbs hat hget
        have hstops := fillBuffer_stops len saved hzero hfuel heod
          hat.sawSmallBlock hread hat₁ rfl (.inr rfl)
        unfold streamState
        rw [if_neg hzero]
        rw [List.length_nil, Nat.zero_sub] at hstops
        exact hstops
      | block bytes =>
        unfold streamState
        rw [if_neg hzero]
        by_cases hsmall : bytes.length < bs
        · rw [if_pos hsmall]
          obtain ⟨ctx₁, hread, hat₁⟩ := readBlock_small hpos hat rfl rfl hget (hmem hget) hsmall
            fun bytes' h => hmem h
          have hnext : rest.head? = records[pos + 1]? := by
            rw [← hrest, List.head?_drop]
          rw [hnext]
          have hstops := fillBuffer_stops len saved hzero hfuel heod hat.sawSmallBlock hread hat₁
            (smallState_small ..).2 (.inr (smallState_small ..).1)
          rw [smallState_setUsed] at hstops
          exact hstops
        · rw [if_neg hsmall]
          obtain ⟨chunk, ctx₁, hread, hchunk, hat₁⟩ := readBlock_full hat hget (not_lt.mp hsmall)
          by_cases hlast : remaining ≤ bs
          · rw [if_pos hlast]
            have hstops := fillBuffer_stops len saved hzero hfuel heod
              hat.sawSmallBlock hread hat₁ rfl (.inl (by omega))
            rw [hchunk] at hstops
            exact hstops
          · rw [if_neg hlast, fillBuffer_read hzero heod hat.sawSmallBlock hread, hchunk,
              if_pos (by omega)]
            exact ih (pos + 1) (remaining - bs) fuel _ ctx₁ hrest hlt hat₁ hpos (by omega)

theorem readCallback_fill {ctx : InputTape} {len : ℕ} (hlen : ¬ len ≤ ctx.bufUsed) :
    ∃ saved start, readCallback len ctx = fillBuffer len (len + 1) saved (len - ctx.bufUsed)
      { ctx with bufStart := start, bufUsed := 0 } := by
  unfold readCallback
  rw [if_neg (by omega), if_neg hlen]
  by_cases hused : ctx.bufUsed > 0
  · rw [if_pos hused]
    exact ⟨_, _, rfl⟩
  · rw [if_neg hused]
    have hzero : ctx.bufUsed = 0 := by omega
    have hsame : { ctx with bufUsed := 0 } = ctx := by
      rw [← hzero]
    refine ⟨[], ctx.bufStart, ?_⟩
    rw [hzero, Nat.sub_zero]
    exact congrArg _ hsame.symm

/-- What the parser has asked for so far decides where the tape is. -/
theorem readCallback_stream (hbs : 0 < bs) (hne : .block [] ∉ records) (hpos : 0 < records.length)
    (len : ℕ) :
    ∀ (l : List Record) (pos n : ℕ) (ctx : InputTape), records.drop pos = l → pos ≤ records.length →
      IsAt bs records ctx (streamState bs pos l n) →
      ∃ ret chunk ctx', readCallback len ctx = some (ret, chunk, ctx') ∧
        IsAt bs records ctx' (streamState bs pos l (n + len)) := by
  have hnothing : ∀ {v : StreamPos} {ctx : InputTape}, len = 0 → IsAt bs records ctx v →
      ∃ ret chunk ctx', readCallback len ctx = some (ret, chunk, ctx') ∧ IsAt bs records ctx' v := by
    intro v ctx hzero hat
    unfold readCallback
    rw [if_pos hzero]
    exact ⟨_, _, _, rfl, hat⟩
  -- from the buffer alone
  have hbuffer : ∀ {v : StreamPos} {ctx : InputTape}, IsAt bs records ctx v → len ≤ v.bufUsed →
      ∃ ret chunk ctx', readCallback len ctx = some (ret, chunk, ctx') ∧
        IsAt bs records ctx' (v.setUsed (v.bufUsed - len)) := by
    intro v ctx hat hle
    unfold readCallback
    by_cases hzero : len = 0
    · have hsame : v.setUsed (v.bufUsed - len) = v := by
        rw [hzero]
        rfl
      rw [hsame, if_pos hzero]
      exact ⟨_, _, _, rfl, hat⟩
    · rw [if_neg hzero, if_pos (by rw [hat.bufUsed]; exact hle)]
      refine ⟨_, _, _, rfl, ?_⟩
      rw [hat.bufUsed]
      exact hat.setBuf _ _
  -- nothing more comes behind the small block
  have hended : ∀ {v : StreamPos} {ctx : InputTape}, IsAt bs records ctx v → v.sawSmallBlock = true →
      ∃ ret chunk ctx', readCallback len ctx = some (ret, chunk, ctx') ∧
        IsAt bs records ctx' (v.setUsed (v.bufUsed - len)) := by
    intro v ctx hat hsmall
    by_cases hle : len ≤ v.bufUsed
    · exact hbuffer hat hle
    · obtain ⟨saved, start, hfill⟩ := @readCallback_fill ctx len
        (by rw [hat.bufUsed]; exact hle)
      obtain ⟨ret, hret⟩ := fillBuffer_small (hat.setBuf start 0) hsmall len len (len - ctx.bufUsed) saved
      rw [hfill, hret]
      refine ⟨_, _, _, rfl, ?_⟩
      rw [show v.bufUsed - len = 0 by omega]
      exact hat.setBuf start 0
  -- the buffer is not enough
  have hfresh : ∀ {l : List Record} {pos used : ℕ} {ctx : InputTape}, records.drop pos = l →
      pos ≤ records.length → IsAt bs records ctx ⟨pos, pos, false, false, used⟩ → ¬ len ≤ used →
      ∃ ret chunk ctx', readCallback len ctx = some (ret, chunk, ctx') ∧
        IsAt bs records ctx' (streamState bs pos l (len - used)) := by
    intro l pos used ctx hdrop hle hat hmore
    obtain ⟨saved, start, hfill⟩ := @readCallback_fill ctx len
      (by rw [hat.bufUsed]; exact hmore)
    rw [hfill, hat.bufUsed]
    exact fillBuffer_start hbs hne len l pos (len - used) (len + 1) saved _ hdrop hle
      (hat.setBuf start 0) hpos (by omega)
  intro l
  induction l with
  | nil =>
    intro pos n ctx hdrop hle hat
    by_cases hzero : len = 0
    · exact hnothing hzero hat
    · exact hfresh hdrop hle hat (by omega)
  | cons r rest ih =>
    intro pos n ctx hdrop hle hat
    obtain ⟨hget, hrest⟩ := getElem?_of_drop hdrop
    have hlt : pos < records.length := (List.getElem?_eq_some_iff.mp hget).1
    by_cases hn : n = 0
    · -- the parser has asked for nothing yet
      subst hn
      rw [streamState_zero] at hat
      rw [Nat.zero_add]
      by_cases hzero : len = 0
      · have hstart : streamState bs pos (r :: rest) len = .start pos := by
          rw [hzero, streamState_zero]
        rw [hstart]
        exact hnothing hzero hat
      · exact hfresh hdrop hle hat (by omega)
    · cases r with
      | filemark =>
        unfold streamState at hat ⊢
        rw [if_neg hn] at hat
        rw [if_neg (by omega)]
        have hmark := hended hat rfl
        rw [Nat.zero_sub] at hmark
        exact hmark
      | block bytes =>
        unfold streamState at hat ⊢
        rw [if_neg hn] at hat
        rw [if_neg (by omega)]
        by_cases hsmall : bytes.length < bs
        · rw [if_pos hsmall] at hat ⊢
          have hlast := hended hat (smallState_small ..).1
          rw [smallState_setUsed, (smallState_small ..).2, Nat.sub_sub] at hlast
          exact hlast
        · rw [if_neg hsmall] at hat ⊢
          by_cases hfirst : n ≤ bs
          · rw [if_pos hfirst] at hat
            by_cases henough : len ≤ bs - n
            · rw [if_pos (by omega), ← Nat.sub_sub]
              exact hbuffer hat henough
            · rw [if_neg (by omega), show n + len - bs = len - (bs - n) by omega]
              exact hfresh hrest hlt hat henough
          · rw [if_neg hfirst] at hat
            rw [if_neg (by omega), show n + len - bs = n - bs + len by omega]
            exact ih (pos + 1) (n - bs) ctx hrest hlt hat

/-- After all calls. -/
theorem readAll_stream (hbs : 0 < bs) (hne : .block [] ∉ records) (hpos : 0 < records.length)
    {l : List Record} {pos : ℕ} (hdrop : records.drop pos = l) (hle : pos ≤ records.length) :
    ∀ (lens : List ℕ) (n : ℕ) (ctx : InputTape), IsAt bs records ctx (streamState bs pos l n) →
      ∃ chunks ctx', readAll lens ctx = some (chunks, ctx') ∧
        IsAt bs records ctx' (streamState bs pos l (n + lens.sum)) := by
  intro lens
  induction lens with
  | nil => exact fun n ctx hat => ⟨[], ctx, rfl, hat⟩
  | cons len lens ih =>
    intro n ctx hat
    obtain ⟨ret, chunk, ctx₁, hread, hat₁⟩ :=
      readCallback_stream hbs hne hpos len l pos n ctx hdrop hle hat
    obtain ⟨chunks, ctx₂, hreads, hat₂⟩ := ih (n + len) ctx₁ hat₁
    refine ⟨(ret, chunk) :: chunks, ctx₂, ?_, ?_⟩
    · unfold readAll
      rw [hread]
      dsimp only
      rw [hreads]
      rfl
    · rw [List.sum_cons, ← Nat.add_assoc]
      exact hat₂

end Stream

/-! ## Where an index ends -/

/-- The end of the index file whose document of `len` bytes begins at `pos`: behind the last block
that holds a byte of it, and behind the file mark there, if any. -/
def indexEnd (bs : ℕ) : ℕ → List Record → ℕ → ℕ
  | pos, [], _ => pos
  | pos, .filemark :: _, _ => pos + 1
  | pos, .block bytes :: rest, len =>
    if len = 0 then pos else indexEnd bs (pos + 1) rest (len - min bytes.length bs)

/-- The index file is closed by a file mark. -/
def Closed (bs : ℕ) : List Record → ℕ → Prop
  | [], _ => False
  | .filemark :: _, _ => True
  | .block bytes :: rest, len => len ≠ 0 ∧ Closed bs rest (len - min bytes.length bs)

/-- Who asks for `n` bytes from the beginning of a document of `len` bytes meets the end of the index
file and does not pass it: every block of the document is reached, and no other one; and the file
mark behind a last block of full size. Behind a small block there is no other block, since that one
would be read, unless the document ends in it. -/
def EndSeen (bs : ℕ) : List Record → ℕ → ℕ → Prop
  | [], _, _ => True
  | .filemark :: _, _, n => 0 < n
  | .block bytes :: rest, len, n =>
    if len = 0 then n = 0
    else 0 < n ∧ if bytes.length < bs then
        ∀ bytes', rest.head? = some (.block bytes') → indexEnd bs 0 rest (len - bytes.length) = 1
      else EndSeen bs rest (len - bs) (n - bs)

/-- There is no file mark from `a` on before `b`. -/
def NoMark (records : List Record) (a b : ℕ) : Prop :=
  ∀ i, a ≤ i → i < b → records[i]? ≠ some .filemark

section IndexEnd

variable {bs : ℕ} {records : List Record}

theorem NoMark.refl (a : ℕ) : NoMark records a a := fun _ h1 h2 => absurd h2 (by omega)

theorem NoMark.succ {a b : ℕ} (h : NoMark records (a + 1) b) (ha : records[a]? ≠ some .filemark) :
    NoMark records a b := by
  intro i h1 h2
  by_cases heq : i = a
  · rw [heq]
    exact ha
  · exact h i (by omega) h2

theorem NoMark.append {a b c : ℕ} (h : NoMark records a b) (h' : NoMark records b c) :
    NoMark records a c := by
  intro i h1 h2
  by_cases hlt : i < b
  · exact h i h1 hlt
  · exact h' i (by omega) h2

theorem block_not_mark {i : ℕ} {bytes : List UInt8} (h : records[i]? = some (.block bytes)) :
    records[i]? ≠ some .filemark := by
  rw [h]
  simp

/-- The tape never passes a file mark, and stands before the one it has seen. -/
theorem streamState_bounds (l : List Record) :
    ∀ (pos n : ℕ), records.drop pos = l → pos ≤ records.length →
      pos ≤ (streamState bs pos l n).pos ∧ (streamState bs pos l n).pos ≤ records.length ∧
      NoMark records pos (streamState bs pos l n).pos ∧
      ((streamState bs pos l n).sawFileMark = true →
        records[(streamState bs pos l n).pos]? = some .filemark) := by
  induction l with
  | nil =>
    intro pos n hdrop hle
    exact ⟨le_refl _, hle, .refl _, fun h => absurd h Bool.false_ne_true⟩
  | cons r rest ih =>
    intro pos n hdrop hle
    obtain ⟨hget, hrest⟩ := getElem?_of_drop hdrop
    have hlt : pos < records.length := (List.getElem?_eq_some_iff.mp hget).1
    by_cases hn : n = 0
    · rw [hn, streamState_zero]
      exact ⟨le_refl _, hle, .refl _, fun h => absurd h Bool.false_ne_true⟩
    · cases r with
      | filemark =>
        unfold streamState
        rw [if_neg hn]
        exact ⟨le_refl _, hle, .refl _, fun _ => hget⟩
      | block bytes =>
        have hone : NoMark records pos (pos + 1) := (NoMark.refl (pos + 1)).succ (block_not_mark hget)
        unfold streamState
        rw [if_neg hn]
        by_cases hsmall : bytes.length < bs
        · rw [if_pos hsmall]
          have hnext : rest.head? = records[pos + 1]? := by
            rw [← hrest, List.head?_drop]
          rw [hnext]
          cases hnxt : records[pos + 1]? with
          | none => exact ⟨Nat.le_succ _, hlt, hone, fun h => absurd h Bool.false_ne_true⟩
          | some r' =>
            have hlt' : pos + 1 < records.length := (List.getElem?_eq_some_iff.mp hnxt).1
            cases r' with
            | filemark => exact ⟨Nat.le_succ _, hlt, hone, fun _ => hnxt⟩
            | block bytes' =>
              refine ⟨by show pos ≤ pos + 2; omega, hlt', ?_, fun h => absurd h Bool.false_ne_true⟩
              exact hone.append ((NoMark.refl (pos + 2)).succ (block_not_mark hnxt))
        · rw [if_neg hsmall]
          by_cases hfirst : n ≤ bs
          · rw [if_pos hfirst]
            exact ⟨Nat.le_succ _, hlt, hone, fun h => absurd h Bool.false_ne_true⟩
          · rw [if_neg hfirst]
            obtain ⟨h1, h2, h3, h4⟩ := ih (pos + 1) (n - bs) hrest hlt
            exact ⟨by omega, h2, hone.append h3, h4⟩

theorem le_indexEnd (l : List Record) : ∀ pos len, pos ≤ indexEnd bs pos l len := by
  induction l with
  | nil => exact fun pos len => le_refl _
  | cons r rest ih =>
    intro pos len
    cases r with
    | filemark => exact Nat.le_succ _
    | block bytes =>
      unfold indexEnd
      split
      · exact le_refl _
      · exact (Nat.le_succ _).trans (ih (pos + 1) _)

theorem indexEnd_shift (l : List Record) :
    ∀ pos k len, indexEnd bs (pos + k) l len = pos + indexEnd bs k l len := by
  induction l with
  | nil => exact fun pos k len => rfl
  | cons r rest ih =>
    intro pos k len
    cases r with
    | filemark => rfl
    | block bytes =>
      unfold indexEnd
      split
      · rfl
      · exact ih pos (k + 1) _

/-- The position behind the file mark if one was seen. -/
def StreamPos.after (v : StreamPos) : ℕ := if v.sawFileMark then v.pos + 1 else v.pos

theorem smallState_after (pos used : ℕ) (next : Option Record) :
    (smallState pos next used).after = if next = none then pos + 1 else pos + 2 := by
  cases next with
  | none => rfl
  | some r =>
    cases r with
    | filemark => rfl
    | block bytes => rfl

theorem le_after (l : List Record) : ∀ pos n, pos ≤ (streamState bs pos l n).after := by
  induction l with
  | nil => exact fun pos n => le_refl _
  | cons r rest ih =>
    intro pos n
    unfold streamState
    cases r with
    | filemark =>
      dsimp only
      split
      · exact le_refl _
      · exact Nat.le_succ _
    | block bytes =>
      dsimp only
      split
      · exact le_refl _
      · split
        · rw [smallState_after]
          split
          · exact Nat.le_succ _
          · omega
        · split
          · exact Nat.le_succ _
          · exact (Nat.le_succ _).trans (ih (pos + 1) _)

/-- Once bytes are asked for a block is read. -/
theorem lt_after {bytes : List UInt8} {rest : List Record} {pos n : ℕ} (hn : n ≠ 0) :
    pos < (streamState bs pos (.block bytes :: rest) n).after := by
  unfold streamState
  rw [if_neg hn]
  split
  · rw [smallState_after]
    split
    · exact Nat.lt_succ_self _
    · omega
  · split
    · exact Nat.lt_succ_self _
    · exact le_after rest (pos + 1) _

/-- Behind a small block, where the next record has been looked at. -/
theorem small_after_iff (bytes : List UInt8) (rest : List Record) (pos len used : ℕ) :
    (smallState pos rest.head? used).after = indexEnd bs (pos + 1) rest (len - bytes.length) ↔
      ∀ bytes', rest.head? = some (.block bytes') →
        indexEnd bs 0 rest (len - bytes.length) = 1 := by
  rw [smallState_after]
  cases rest with
  | nil => exact iff_of_true rfl (by simp)
  | cons r rest =>
    cases r with
    | filemark => exact iff_of_true rfl (by simp)
    | block bytes' =>
      rw [List.head?_cons, if_neg (by simp)]
      have hshift := @indexEnd_shift bs (.block bytes' :: rest) (pos + 1) 0 (len - bytes.length)
      rw [Nat.add_zero] at hshift
      rw [hshift]
      constructor
      · intro h _ _
        omega
      · intro h
        have hone := h bytes' rfl
        omega

theorem after_eq_indexEnd_iff (l : List Record) :
    ∀ pos len n, (streamState bs pos l n).after = indexEnd bs pos l len ↔ EndSeen bs l len n := by
  induction l with
  | nil => exact fun pos len n => iff_of_true rfl trivial
  | cons r rest ih =>
    intro pos len n
    cases r with
    | filemark =>
      unfold streamState indexEnd EndSeen
      by_cases hn : n = 0
      · rw [if_pos hn]
        refine iff_of_false ?_ (by omega)
        show ¬ pos = pos + 1
        omega
      · rw [if_neg hn]
        exact iff_of_true rfl (by omega)
    | block bytes =>
      unfold indexEnd EndSeen
      by_cases hlen : len = 0
      · -- the document ends before this block
        rw [if_pos hlen, if_pos hlen]
        by_cases hn : n = 0
        · rw [hn, streamState_zero]
          exact iff_of_true rfl rfl
        · exact iff_of_false (lt_after hn).ne' hn
      · rw [if_neg hlen, if_neg hlen]
        by_cases hn : n = 0
        · have hle := @le_indexEnd bs rest (pos + 1) (len - min bytes.length bs)
          rw [hn, streamState_zero]
          refine iff_of_false ?_ (fun h => absurd h.1 (lt_irrefl 0))
          show ¬ pos = _
          omega
        · have hpos : 0 < n := Nat.pos_of_ne_zero hn
          unfold streamState
          rw [if_neg hn]
          by_cases hsmall : bytes.length < bs
          · rw [if_pos hsmall, if_pos hsmall, min_eq_left hsmall.le, small_after_iff]
            exact ⟨fun h => ⟨hpos, h⟩, fun h => h.2⟩
          · rw [if_neg hsmall, if_neg hsmall, min_eq_right (not_lt.mp hsmall)]
            by_cases hfirst : n ≤ bs
            · rw [if_pos hfirst]
              -- no byte of the next record has been asked for
              have hnothing := ih (pos + 1) (len - bs) 0
              rw [streamState_zero] at hnothing
              rw [show n - bs = 0 by omega]
              exact hnothing.trans ⟨fun h => ⟨hpos, h⟩, fun h => h.2⟩
            · rw [if_neg hfirst]
              exact (ih (pos + 1) (len - bs) (n - bs)).trans ⟨fun h => ⟨hpos, h⟩, fun h => h.2⟩

/-- A closed index ends behind the first file mark, and one that is not closed before it. -/
theorem indexEnd_mark_iff (l : List Record) :
    ∀ pos t len, records.drop pos = l → pos ≤ t → NoMark records pos t →
      records[t]? = some .filemark → (t + 1 = indexEnd bs pos l len ↔ Closed bs l len) := by
  induction l with
  | nil =>
    intro pos t len hdrop hle hno hmark
    have hlen := List.drop_eq_nil_iff.mp hdrop
    have hlt : t < records.length := (List.getElem?_eq_some_iff.mp hmark).1
    omega
  | cons r rest ih =>
    intro pos t len hdrop hle hno hmark
    obtain ⟨hget, hrest⟩ := getElem?_of_drop hdrop
    cases r with
    | filemark =>
      have heq : t = pos := by
        by_contra hne
        exact hno pos (le_refl _) (by omega) hget
      rw [heq]
      exact iff_of_true rfl trivial
    | block bytes =>
      have hne : t ≠ pos := by
        rintro rfl
        exact block_not_mark hget hmark
      unfold indexEnd Closed
      by_cases hlen : len = 0
      · rw [if_pos hlen]
        exact iff_of_false (by omega) (fun h => h.1 hlen)
      · rw [if_neg hlen]
        have hrest := ih (pos + 1) t (len - min bytes.length bs) hrest (by omega)
          (fun i h1 h2 => hno i (by omega) h2) hmark
        exact hrest.trans ⟨fun h => ⟨hlen, h⟩, fun h => h.2⟩

/-- Without a file mark no index is closed. -/
theorem not_closed (l : List Record) :
    ∀ pos len, records.drop pos = l → NoMark records pos records.length → ¬ Closed bs l len := by
  induction l with
  | nil => exact fun _ _ _ _ h => h
  | cons r rest ih =>
    intro pos len hdrop hno hclosed
    obtain ⟨hget, hrest⟩ := getElem?_of_drop hdrop
    have hlt : pos < records.length := (List.getElem?_eq_some_iff.mp hget).1
    cases r with
    | filemark => exact hno pos (le_refl _) hlt hget
    | block bytes =>
      exact ih (pos + 1) _ hrest (fun i h1 h2 => hno i (by omega) h2) hclosed.2

end IndexEnd

end Ltfs.XmlTape

import Mathlib.Data.List.Basic
import Mathlib.Data.Nat.Notation
import Mathlib.Tactic.Linarith
import Mathlib.Tactic.Set
import Mathlib.Tactic.Tauto
import Ltfs.Error

/-!
# The index stream on tape

libxml2 produces and consumes an index as a byte stream, in pieces of its own
choosing. `xml_writer.c` cuts that stream into tape blocks, `xml_reader.c` puts
it together again.

* `OutputTape`, `writeCallback`, `closeCallback` — `struct xml_output_tape` and
  its two callbacks. `Written` is the writer's invariant.
* `InputTape`, `readCallback` — `struct xml_input_tape` and its callback.
  `Pending` is the reader's invariant: which bytes are still to be delivered.
* `tape_stream_round_trip` — what the reader delivers is what was written,
  however the stream is cut on either side.

Block sizes and lengths are far below `2^31`, so the source's 32-bit counters
do not overflow and are natural numbers here.
-/

namespace Ltfs.XmlTape

/-! ## Writer -/

/-- `struct xml_output_tape`. `buf` holds the `buf_used` valid bytes of the
one-block buffer. `written` are the blocks the tape has taken so far; `tapeRet`
and `cacheRet` are the results of the coming `tape_write` calls and of the
coming calls on the index cache file `fd` (an exhausted script succeeds). -/
structure OutputTape where
  bufSize : ℕ
  buf : List UInt8 := []
  errCode : ℤ := 0
  fd : ℤ := -1
  errnoFd : ℤ := 0
  written : List (List UInt8) := []
  cache : List UInt8 := []
  tapeRet : List ℤ := []
  cacheRet : List Bool := []
deriving DecidableEq, Repr

/-- `tape_write`: a negative result leaves nothing on the tape. -/
def tapeWrite (block : List UInt8) (ctx : OutputTape) : ℤ × OutputTape :=
  let ret := ctx.tapeRet.headD block.length
  if ret < 0 then
    (ret, { ctx with tapeRet := ctx.tapeRet.tail })
  else
    (ret, { ctx with tapeRet := ctx.tapeRet.tail, written := ctx.written ++ [block] })

/-- `write(2)` to the index cache file. -/
def cacheWrite (block : List UInt8) (ctx : OutputTape) : Bool × OutputTape :=
  if ctx.cacheRet.headD true then
    (true, { ctx with cacheRet := ctx.cacheRet.tail, cache := ctx.cache ++ block })
  else
    (false, { ctx with cacheRet := ctx.cacheRet.tail })

/-- One round of the callback's `do` loop: fill the buffer from the input, write
it out, empty it. The flag tells whether the loop may go on. -/
def writeBlock (input : List UInt8) (ctx : OutputTape) : Bool × OutputTape :=
  let block := ctx.buf ++ input.take (ctx.bufSize - ctx.buf.length)
  let r := tapeWrite block ctx
  if r.1 < 0 then
    (false, { r.2 with buf := block, errCode := r.1 })
  else if ctx.fd > 0 then
    let c := cacheWrite block r.2
    if c.1 then
      (true, { c.2 with buf := [] })
    else
      (false, { c.2 with buf := block, errnoFd := -ltfsCacheIo })
  else
    (true, { r.2 with buf := [] })

/-- The `do ... while (bytes_remaining > ctx->buf_size)` loop, with the copy of
the remaining bytes after it. The first argument bounds the number of rounds;
`writeCallback` supplies enough. -/
def writeBlocks : ℕ → List UInt8 → OutputTape → Bool × OutputTape
  | 0, _, ctx => (false, ctx)
  | fuel + 1, input, ctx =>
    let rest := input.drop (ctx.bufSize - ctx.buf.length)
    let r := writeBlock input ctx
    if ! r.1 then
      r
    else if rest.length > ctx.bufSize then
      writeBlocks fuel rest r.2
    else
      (true, { r.2 with buf := rest })

/-- `xml_output_tape_write_callback`. -/
def writeCallback (buffer : List UInt8) (ctx : OutputTape) : ℤ × OutputTape :=
  if buffer.length = 0 then
    (0, ctx)
  else if ctx.errCode ≠ 0 ∨ ctx.errnoFd ≠ 0 then
    (-1, ctx)
  else if ctx.buf.length + buffer.length < ctx.bufSize then
    (buffer.length, { ctx with buf := ctx.buf ++ buffer })
  else
    let r := writeBlocks (buffer.length + 1) buffer ctx
    if r.1 then (buffer.length, r.2) else (-1, r.2)

/-- The `fsync` of the cache file at the end of the close callback. -/
def closeSync (ret : ℤ) (ctx : OutputTape) : ℤ × OutputTape :=
  if ctx.errnoFd = 0 ∧ ctx.fd ≥ 0 then
    (if ctx.cacheRet.headD true then ret else -1, { ctx with cacheRet := ctx.cacheRet.tail })
  else
    (ret, ctx)

/-- `xml_output_tape_close_callback`: write what is left in the buffer. -/
def closeCallback (ctx : OutputTape) : ℤ × OutputTape :=
  if ctx.errCode = 0 ∧ ctx.errnoFd = 0 ∧ ctx.buf.length > 0 then
    let r := tapeWrite ctx.buf ctx
    if r.1 < 0 then
      closeSync (-1) { r.2 with errCode := r.1 }
    else if ctx.fd ≥ 0 then
      let c := cacheWrite ctx.buf r.2
      if c.1 then closeSync 0 c.2 else closeSync (-1) { c.2 with errnoFd := -ltfsCacheIo }
    else
      closeSync 0 r.2
  else
    closeSync 0 ctx

/-- libxml2 hands over the pieces of the document and closes the stream. -/
def writeAll (pieces : List (List UInt8)) (ctx : OutputTape) : OutputTape :=
  (closeCallback (pieces.foldl (fun c p => (writeCallback p c).2) ctx)).2

/-- A block sequence as the writer makes it: full blocks, and a last one that is
not empty. -/
def Blocked (bufSize : ℕ) : List (List UInt8) → Prop
  | [] => True
  | [b] => b ≠ [] ∧ b.length ≤ bufSize
  | b :: bs => b.length = bufSize ∧ Blocked bufSize bs

theorem blocked_cons {n : ℕ} (hn : 0 < n) {b : List UInt8} {bs : List (List UInt8)} :
    Blocked n (b :: bs) →
      b ≠ [] ∧ b.length ≤ n ∧ Blocked n bs ∧ (b.length < n → bs = []) := by
  intro h
  cases bs with
  | nil => exact ⟨h.1, h.2, trivial, fun _ => rfl⟩
  | cons c cs =>
    have hb : b.length = n := h.1
    refine ⟨?_, hb.le, h.2, fun hlt => absurd hb (by omega)⟩
    rintro rfl
    simp at hb
    omega

theorem Blocked.full_last {n : ℕ} {l : List (List UInt8)} (h : Blocked n l) :
    (∀ b ∈ l.dropLast, b.length = n) ∧ (∀ b ∈ l.getLast?, b ≠ [] ∧ b.length ≤ n) := by
  induction l with
  | nil => simp
  | cons b l ih =>
    cases l with
    | nil => simpa [Blocked] using h
    | cons c l =>
      have ih' := ih h.2
      refine ⟨?_, by simpa using ih'.2⟩
      intro d hd
      rw [List.dropLast_cons_cons] at hd
      rcases List.mem_cons.mp hd with rfl | hd
      · exact h.1
      · exact ih'.1 d hd

theorem Blocked.append_singleton {n : ℕ} {l : List (List UInt8)}
    {b : List UInt8} (hl : ∀ c ∈ l, c.length = n) (hb : b ≠ []) (hle : b.length ≤ n) :
    Blocked n (l ++ [b]) := by
  induction l with
  | nil => exact ⟨hb, hle⟩
  | cons c l ih =>
    have ih' := ih (fun c hc => hl c (by simp [hc]))
    have hc : c.length = n := hl c (by simp)
    cases l with
    | nil => exact ⟨hc, ih'⟩
    | cons d l => exact ⟨hc, ih'⟩

theorem Blocked.of_full {n : ℕ} (hn : 0 < n) {l : List (List UInt8)}
    (hl : ∀ c ∈ l, c.length = n) : Blocked n l := by
  rcases List.eq_nil_or_concat l with rfl | ⟨l', b, rfl⟩
  · trivial
  · rw [List.concat_eq_append] at hl ⊢
    have hb : b.length = n := hl b (by simp)
    refine Blocked.append_singleton (fun c hc => hl c (by simp [hc])) ?_ hb.le
    rintro rfl
    simp at hb
    omega

/-- All coming device and cache calls succeed. -/
def NoFault (ctx : OutputTape) : Prop :=
  (∀ r ∈ ctx.tapeRet, 0 ≤ r) ∧ (∀ r ∈ ctx.cacheRet, r = true)

/-- Writer invariant: `data` has been taken, in full blocks and the buffer. -/
structure Written (data : List UInt8) (ctx : OutputTape) : Prop where
  size_pos : 0 < ctx.bufSize
  no_error : ctx.errCode = 0 ∧ ctx.errnoFd = 0
  no_fault : NoFault ctx
  full : ∀ b ∈ ctx.written, b.length = ctx.bufSize
  buf_le : ctx.buf.length ≤ ctx.bufSize
  data_eq : ctx.written.flatten ++ ctx.buf = data

theorem headD_nonneg {l : List ℤ} (h : ∀ r ∈ l, 0 ≤ r) (n : ℕ) : 0 ≤ l.headD n := by
  cases l with
  | nil => simp
  | cons r l => exact h r (by simp)

theorem headD_true {l : List Bool} (h : ∀ r ∈ l, r = true) : l.headD true = true := by
  cases l with
  | nil => rfl
  | cons r l => exact h r (by simp)

/-- A device that does not fail takes the block. -/
theorem tapeWrite_ok {ctx : OutputTape} (h : NoFault ctx) (block : List UInt8) :
    ¬ (tapeWrite block ctx).1 < 0 ∧ (tapeWrite block ctx).2
      = { ctx with tapeRet := ctx.tapeRet.tail, written := ctx.written ++ [block] } := by
  have hret := headD_nonneg h.1 block.length
  simp only [tapeWrite, if_neg (not_lt.mpr hret)]
  exact ⟨not_lt.mpr hret, trivial⟩

theorem cacheWrite_ok {ctx : OutputTape} (h : ∀ r ∈ ctx.cacheRet, r = true)
    (block : List UInt8) :
    cacheWrite block ctx
      = (true, { ctx with cacheRet := ctx.cacheRet.tail, cache := ctx.cache ++ block }) := by
  simp only [cacheWrite, headD_true h, if_true]

theorem NoFault.tail {ctx : OutputTape} (h : NoFault ctx) :
    (∀ r ∈ ctx.tapeRet.tail, 0 ≤ r) ∧ (∀ r ∈ ctx.cacheRet.tail, r = true) :=
  ⟨fun r hr => h.1 r (List.mem_of_mem_tail hr), fun r hr => h.2 r (List.mem_of_mem_tail hr)⟩

/-- One round takes a block's worth of input. -/
theorem writeBlock_written {data : List UInt8} {ctx : OutputTape} (h : Written data ctx)
    {input : List UInt8} (hfill : ctx.bufSize ≤ ctx.buf.length + input.length) :
    (writeBlock input ctx).1 = true ∧ (writeBlock input ctx).2.buf = [] ∧
    (writeBlock input ctx).2.bufSize = ctx.bufSize ∧
    Written (data ++ input.take (ctx.bufSize - ctx.buf.length)) (writeBlock input ctx).2 := by
  set block := ctx.buf ++ input.take (ctx.bufSize - ctx.buf.length) with hblock
  have hlen : block.length = ctx.bufSize := by
    have := h.buf_le
    simp only [hblock, List.length_append, List.length_take]
    omega
  obtain ⟨hret, hctx⟩ := tapeWrite_ok h.no_fault block
  have hdata : (ctx.written ++ [block]).flatten
      = data ++ input.take (ctx.bufSize - ctx.buf.length) := by
    rw [List.flatten_append, ← h.data_eq, hblock]
    simp
  have hfull : ∀ b ∈ ctx.written ++ [block], b.length = ctx.bufSize := by
    intro b hb
    rcases List.mem_append.mp hb with hb | hb
    · exact h.full b hb
    · rw [List.mem_singleton.mp hb, hlen]
  have htail := h.no_fault.tail
  simp only [writeBlock, ← hblock, if_neg hret, hctx]
  by_cases hfd : ctx.fd > 0
  · rw [if_pos hfd, cacheWrite_ok (by exact h.no_fault.2)]
    exact ⟨rfl, rfl, rfl, h.size_pos, h.no_error, htail, hfull, by simp, by simpa using hdata⟩
  · rw [if_neg hfd]
    exact ⟨rfl, rfl, rfl, h.size_pos, h.no_error, ⟨htail.1, h.no_fault.2⟩, hfull, by simp,
      by simpa using hdata⟩

/-- The loop takes the whole input. Every round but the first starts with an
empty buffer and so consumes `bufSize` bytes: the fuel lasts. -/
theorem writeBlocks_written (fuel : ℕ) :
    ∀ (input data : List UInt8) (ctx : OutputTape), Written data ctx →
      ctx.bufSize ≤ ctx.buf.length + input.length →
      input.length ≤ fuel → (ctx.buf ≠ [] → input.length < fuel) →
      (writeBlocks fuel input ctx).1 = true ∧
      (writeBlocks fuel input ctx).2.bufSize = ctx.bufSize ∧
      Written (data ++ input) (writeBlocks fuel input ctx).2 := by
  induction fuel with
  | zero =>
    intro input data ctx h hfill hle hne
    have hpos := h.size_pos
    by_cases hb : ctx.buf = []
    · rw [hb, List.length_nil] at hfill
      omega
    · exact absurd (hne hb) (by omega)
  | succ fuel ih =>
    intro input data ctx h hfill hle hne
    obtain ⟨hok, hbuf, hsize, hw⟩ := writeBlock_written h hfill
    set rest := input.drop (ctx.bufSize - ctx.buf.length) with hrest
    have hwhole : data ++ input.take (ctx.bufSize - ctx.buf.length) ++ rest = data ++ input := by
      rw [List.append_assoc, hrest, List.take_append_drop]
    simp only [writeBlocks, hok, Bool.not_true, Bool.false_eq_true, if_false, ← hrest]
    by_cases hmore : rest.length > ctx.bufSize
    · rw [if_pos hmore]
      have hshort : rest.length ≤ fuel := by
        have hpos := h.size_pos
        have hdrop : rest.length = input.length - (ctx.bufSize - ctx.buf.length) := by
          rw [hrest, List.length_drop]
        by_cases hb : ctx.buf = []
        · rw [hb, List.length_nil] at hdrop
          omega
        · have := hne hb
          omega
      obtain ⟨h1, h2, h3⟩ := ih rest _ _ hw (by rw [hsize]; omega) hshort
        (fun hb => absurd hbuf hb)
      rw [hwhole] at h3
      exact ⟨h1, h2.trans hsize, h3⟩
    · rw [if_neg hmore]
      refine ⟨rfl, hsize, hw.size_pos, hw.no_error, hw.no_fault, hw.full, ?_, ?_⟩
      · simp only [hsize]
        omega
      · have := hw.data_eq
        rw [hbuf, List.append_nil] at this
        simp only [this, hwhole]

/-- A write callback takes its whole buffer. -/
theorem writeCallback_written {data : List UInt8} {ctx : OutputTape} (h : Written data ctx)
    (buffer : List UInt8) :
    (writeCallback buffer ctx).1 = buffer.length ∧
    (writeCallback buffer ctx).2.bufSize = ctx.bufSize ∧
    Written (data ++ buffer) (writeCallback buffer ctx).2 := by
  unfold writeCallback
  by_cases hlen : buffer.length = 0
  · have hnil : buffer = [] := List.eq_nil_of_length_eq_zero hlen
    simp only [hnil, List.length_nil, if_true, List.append_nil]
    exact ⟨rfl, trivial, h⟩
  · have hno : ¬ (ctx.errCode ≠ 0 ∨ ctx.errnoFd ≠ 0) := by
      have := h.no_error
      tauto
    rw [if_neg hlen, if_neg hno]
    by_cases hfit : ctx.buf.length + buffer.length < ctx.bufSize
    · -- everything fits into the buffer
      rw [if_pos hfit]
      refine ⟨rfl, rfl, h.size_pos, h.no_error, h.no_fault, h.full, ?_, ?_⟩
      · simp only [List.length_append]
        omega
      · simp only [← h.data_eq, List.append_assoc]
    · rw [if_neg hfit]
      obtain ⟨h1, h2, h3⟩ := writeBlocks_written (buffer.length + 1) buffer data ctx h
        (by omega) (by omega) (by omega)
      simp only [h1, if_true]
      exact ⟨trivial, h2, h3⟩

theorem foldl_written (pieces : List (List UInt8)) :
    ∀ {data : List UInt8} {ctx : OutputTape}, Written data ctx →
      (pieces.foldl (fun c p => (writeCallback p c).2) ctx).bufSize = ctx.bufSize ∧
      Written (data ++ pieces.flatten) (pieces.foldl (fun c p => (writeCallback p c).2) ctx) := by
  induction pieces with
  | nil =>
    intro data ctx h
    simpa using h
  | cons p pieces ih =>
    intro data ctx h
    obtain ⟨_, hsize, hw⟩ := writeCallback_written h p
    obtain ⟨h1, h2⟩ := ih hw
    rw [List.append_assoc] at h2
    exact ⟨h1.trans hsize, h2⟩

@[simp] theorem closeSync_written (ret : ℤ) (ctx : OutputTape) :
    (closeSync ret ctx).2.written = ctx.written := by
  unfold closeSync
  split <;> rfl

/-- Closing puts the buffer out as the last block. -/
theorem closeCallback_written {data : List UInt8} {ctx : OutputTape} (h : Written data ctx) :
    Blocked ctx.bufSize (closeCallback ctx).2.written ∧
    (closeCallback ctx).2.written.flatten = data := by
  unfold closeCallback
  by_cases hbuf : ctx.buf.length > 0
  · rw [if_pos ⟨h.no_error.1, h.no_error.2, hbuf⟩]
    obtain ⟨hret, hctx⟩ := tapeWrite_ok h.no_fault ctx.buf
    have hblocked : Blocked ctx.bufSize (ctx.written ++ [ctx.buf]) :=
      Blocked.append_singleton h.full (List.ne_nil_of_length_pos hbuf) h.buf_le
    have hflat : (ctx.written ++ [ctx.buf]).flatten = data := by
      simpa using h.data_eq
    simp only [if_neg hret, hctx]
    by_cases hfd : ctx.fd ≥ 0
    · rw [if_pos hfd, cacheWrite_ok (by exact h.no_fault.2)]
      simpa using ⟨hblocked, by simpa using hflat⟩
    · rw [if_neg hfd]
      simpa using ⟨hblocked, by simpa using hflat⟩
  · rw [if_neg (by tauto)]
    have hnil : ctx.buf = [] := List.eq_nil_of_length_eq_zero (by omega)
    have hdata := h.data_eq
    rw [hnil, List.append_nil] at hdata
    rw [closeSync_written]
    exact ⟨Blocked.of_full h.size_pos h.full, hdata⟩

theorem writeAll_written {ctx : OutputTape} (h : Written [] ctx) (pieces : List (List UInt8)) :
    Blocked ctx.bufSize (writeAll pieces ctx).written ∧
    (writeAll pieces ctx).written.flatten = pieces.flatten := by
  obtain ⟨hsize, hw⟩ := foldl_written pieces h
  rw [← hsize]
  exact closeCallback_written hw

/-! ## Reader -/

/-- What a tape holds at one block position. -/
inductive Record where
  | block (bytes : List UInt8)
  | filemark
deriving DecidableEq, Repr

/-- What reading the record with a buffer of `count` bytes gives. -/
def Record.bytes (count : ℕ) : Record → List UInt8
  | .block bytes => bytes.take count
  | .filemark => []

/-- The device as the reader sees it: the records of the current partition (EOD
after the last one), the position, and the results of the coming commands (an
exhausted script succeeds). -/
structure Device where
  records : List Record
  pos : ℕ
  faults : List ℤ := []
deriving DecidableEq, Repr

/-- A command that ends at block `pos`. -/
def Device.moved (dev : Device) (pos : ℕ) : Device :=
  { dev with pos := pos, faults := dev.faults.tail }

/-- `tape_read`: a file mark reads as no bytes and is passed. -/
def tapeRead (count : ℕ) (dev : Device) : Except ℤ (List UInt8) × Device :=
  if dev.faults.headD 0 < 0 then
    (.error (dev.faults.headD 0), dev.moved dev.pos)
  else
    match dev.records[dev.pos]? with
    | none => (.error (-edevEodDetected), dev.moved dev.pos)
    | some record => (.ok (record.bytes count), dev.moved (dev.pos + 1))

/-- Position of the last file mark before block `pos`. -/
def lastFilemark (records : List Record) : ℕ → Option ℕ
  | 0 => none
  | pos + 1 => if records[pos]? = some .filemark then some pos else lastFilemark records pos

/-- `tape_spacefm(dev, -1)`: back to the front of the previous file mark. -/
def spaceFmBack (dev : Device) : ℤ × Device :=
  if dev.faults.headD 0 < 0 then
    (dev.faults.headD 0, dev.moved dev.pos)
  else
    match lastFilemark dev.records dev.pos with
    | none => (-edevBopDetected, dev.moved 0)
    | some pos => (0, dev.moved pos)

/-- `struct xml_input_tape`. `blocksize` is the label's, `mallocRet` the result
of the one `malloc`, `cacheRet` those of the coming writes to the cache file. -/
structure InputTape where
  device : Device
  blocksize : ℕ
  bufSize : ℕ
  eodPos : ℕ
  currentPos : ℕ
  buf : List UInt8 := []
  bufStart : ℕ := 0
  bufUsed : ℕ := 0
  sawSmallBlock : Bool := false
  sawFileMark : Bool := false
  errCode : ℤ := 0
  fd : ℤ := -1
  errnoFd : ℤ := 0
  cache : List UInt8 := []
  cacheRet : List Bool := []
  mallocRet : Bool := true
deriving DecidableEq, Repr

/-- A file mark was read: note it and go back before it. -/
def noteFileMark (ctx : InputTape) : Bool × InputTape :=
  let r := spaceFmBack ctx.device
  if r.1 < 0 then
    (false, { ctx with sawFileMark := true, device := r.2, errCode := r.1 })
  else
    (true, { ctx with sawFileMark := true, device := r.2 })

/-- "Caught a small read. If this is a file mark, position before it. If it's a
record, look for a file mark following it." -/
def checkSmallBlock (nread : ℕ) (ctx : InputTape) : Bool × InputTape :=
  if nread < ctx.bufSize then
    let ctx := { ctx with sawSmallBlock := true }
    if nread = 0 then
      noteFileMark ctx
    else if ctx.eodPos = 0 ∨ ctx.eodPos > 0 ∧ ctx.currentPos < ctx.eodPos then
      if ! ctx.mallocRet then
        (false, { ctx with errCode := -ltfsNoMemory })
      else
        let r := tapeRead ctx.blocksize ctx.device
        let ctx := { ctx with device := r.2 }
        match r.1 with
        | .error e => (false, { ctx with errCode := e })
        | .ok bytes => if bytes.length = 0 then noteFileMark ctx else (true, ctx)
    else
      (true, ctx)
  else
    (true, ctx)

/-- "Write down the data read to the read cache". -/
def cacheRead (bytes : List UInt8) (ctx : InputTape) : Bool × InputTape :=
  if ctx.fd > 0 ∧ bytes.length > 0 then
    if ctx.cacheRet.headD true then
      (true, { ctx with cacheRet := ctx.cacheRet.tail, cache := ctx.cache ++ bytes })
    else
      (false, { ctx with cacheRet := ctx.cacheRet.tail, errnoFd := -ltfsCacheIo })
  else
    (true, ctx)

/-- "Try to read a block into the buffer." `none` is an error. -/
def readBlock (ctx : InputTape) : Option (List UInt8) × InputTape :=
  let r := tapeRead ctx.bufSize ctx.device
  let ctx := { ctx with device := r.2, currentPos := ctx.currentPos + 1 }
  match r.1 with
  | .error e => (none, { ctx with errCode := e })
  | .ok bytes =>
    let c := cacheRead bytes { ctx with buf := bytes }
    if ! c.1 then
      (none, c.2)
    else
      let s := checkSmallBlock bytes.length c.2
      if s.1 then (some bytes, s.2) else (none, s.2)

/-- The `while (bytes_remaining > 0)` loop: result, bytes in the caller's buffer
and context. `saved` are the bytes copied so far. Running out of fuel is `none`. -/
def fillBuffer (len : ℕ) : ℕ → List UInt8 → ℕ → InputTape →
    Option (ℤ × List UInt8 × InputTape)
  | 0, _, _, _ => none
  | fuel + 1, saved, remaining, ctx =>
    if remaining = 0 then
      some (len, saved, ctx)
    else if ctx.eodPos > 0 ∧ ctx.currentPos = ctx.eodPos then
      some (saved.length, saved, ctx)
    else if ctx.sawSmallBlock then
      some (saved.length, saved, ctx)
    else
      match readBlock ctx with
      | (none, ctx) => some (-1, saved, ctx)
      | (some bytes, ctx) =>
        if remaining > bytes.length then
          fillBuffer len fuel (saved ++ bytes) (remaining - bytes.length) ctx
        else
          fillBuffer len fuel (saved ++ bytes.take remaining) 0
            { ctx with bufStart := remaining, bufUsed := bytes.length - remaining }

/-- The valid bytes of the input buffer. -/
def cached (ctx : InputTape) : List UInt8 := (ctx.buf.drop ctx.bufStart).take ctx.bufUsed

/-- `xml_input_tape_read_callback`. A block that is read holds at least one byte
or ends the loop, so `len + 1` rounds are enough. -/
def readCallback (len : ℕ) (ctx : InputTape) : Option (ℤ × List UInt8 × InputTape) :=
  if len = 0 then
    some (0, [], ctx)
  else if len ≤ ctx.bufUsed then
    some (len, (ctx.buf.drop ctx.bufStart).take len,
      { ctx with
        bufUsed := ctx.bufUsed - len
        bufStart := if ctx.bufUsed - len > 0 then ctx.bufStart + len else 0 })
  else if ctx.bufUsed > 0 then
    fillBuffer len (len + 1) (cached ctx) (len - ctx.bufUsed) { ctx with bufUsed := 0, bufStart := 0 }
  else
    fillBuffer len (len + 1) [] len ctx

/-- A run of read callbacks: their results and byte chunks. -/
def readAll : List ℕ → InputTape → Option (List (ℤ × List UInt8) × InputTape)
  | [], ctx => some ([], ctx)
  | len :: lens, ctx =>
    match readCallback len ctx with
    | none => none
    | some (ret, chunk, ctx) => (readAll lens ctx).map fun r => ((ret, chunk) :: r.1, r.2)

/-! ## What is still to be delivered -/

/-- All coming commands of the reader succeed and nothing has failed. -/
structure Ready (ctx : InputTape) : Prop where
  size_pos : 0 < ctx.bufSize
  no_error : ctx.errCode = 0
  tape_ok : ∀ r ∈ ctx.device.faults, 0 ≤ r
  cache_ok : ∀ r ∈ ctx.cacheRet, r = true
  malloc_ok : ctx.mallocRet = true

/-- The blocks ahead of the tape position, up to the file mark that ends them. -/
structure AtBlocks (blocks : List (List UInt8)) (ctx : InputTape) : Prop where
  ready : Ready ctx
  not_small : ctx.sawSmallBlock = false
  blocked : Blocked ctx.bufSize blocks
  ahead : ∃ post, ctx.device.records.drop ctx.device.pos
    = blocks.map .block ++ .filemark :: post
  before_eod : ctx.eodPos = 0 ∨ ctx.currentPos + blocks.length < ctx.eodPos

/-- The file mark has been seen and the tape stands before it. -/
structure AtMark (ctx : InputTape) : Prop where
  ready : Ready ctx
  small : ctx.sawSmallBlock = true
  mark : ctx.sawFileMark = true
  position : ctx.device.records[ctx.device.pos]? = some .filemark

/-- The blocks still to be read from the tape. -/
def Feed (blocks : List (List UInt8)) (ctx : InputTape) : Prop :=
  AtBlocks blocks ctx ∨ blocks = [] ∧ AtMark ctx

/-- Reader invariant: `data` is still to be delivered, from the buffer and the
blocks ahead. -/
structure Pending (data : List UInt8) (ctx : InputTape) : Prop where
  fits : (cached ctx).length = ctx.bufUsed
  feed : ∃ blocks, Feed blocks ctx ∧ data = cached ctx ++ blocks.flatten

theorem headD_zero_nonneg {l : List ℤ} (h : ∀ r ∈ l, 0 ≤ r) : ¬ l.headD 0 < 0 := by
  cases l with
  | nil => simp
  | cons r l => exact not_lt.mpr (h r (by simp))

/-- Reading the record at the position. -/
theorem tapeRead_eq {dev : Device} (hok : ∀ r ∈ dev.faults, 0 ≤ r) {r : Record}
    (h : dev.records[dev.pos]? = some r) (count : ℕ) :
    tapeRead count dev
      = (.ok (r.bytes count), dev.moved (dev.pos + 1)) := by
  simp only [tapeRead, if_neg (headD_zero_nonneg hok), h]

/-- Just past a file mark, spacing back returns before it. -/
theorem spaceFmBack_eq {dev : Device} (hok : ∀ r ∈ dev.faults, 0 ≤ r) {p : ℕ}
    (hpos : dev.pos = p + 1) (h : dev.records[p]? = some .filemark) :
    spaceFmBack dev = (0, dev.moved p) := by
  simp only [spaceFmBack, if_neg (headD_zero_nonneg hok), hpos, lastFilemark, h, if_true]

theorem getElem?_of_drop {records post : List Record} {pos : ℕ} {r : Record}
    (h : records.drop pos = r :: post) :
    records[pos]? = some r ∧ records.drop (pos + 1) = post := by
  constructor
  · have := congrArg (·[0]?) h
    simpa using this
  · rw [← List.drop_drop, h]
    rfl

/-- Readiness only depends on the error code and the results to come. -/
theorem Ready.moved {ctx : InputTape} (h : Ready ctx) (pos : ℕ) :
    ∀ r ∈ (ctx.device.moved pos).faults, 0 ≤ r :=
  fun r hr => h.tape_ok r (List.mem_of_mem_tail hr)

/-- After a file mark was passed, noting it leaves the reader before it. -/
theorem noteFileMark_atMark {ctx : InputTape} (hr : Ready ctx) {p : ℕ}
    (hsmall : ctx.sawSmallBlock = true) (hpos : ctx.device.pos = p + 1)
    (h : ctx.device.records[p]? = some .filemark) :
    ∃ ctx', noteFileMark ctx = (true, ctx') ∧ ctx'.buf = ctx.buf ∧
      ctx'.bufUsed = ctx.bufUsed ∧ AtMark ctx' := by
  simp only [noteFileMark, spaceFmBack_eq hr.tape_ok hpos h, lt_irrefl, if_false]
  exact ⟨_, rfl, rfl, rfl,
    ⟨hr.size_pos, hr.no_error, hr.moved p, hr.cache_ok, hr.malloc_ok⟩, hsmall, rfl, h⟩

/-- Caching what was read only touches the cache. -/
theorem cacheRead_eq {ctx : InputTape} (hr : Ready ctx) (bytes : List UInt8) :
    ∃ cache cacheRet, cacheRead bytes ctx
      = (true, { ctx with cache := cache, cacheRet := cacheRet }) ∧
      ∀ r ∈ cacheRet, r = true := by
  unfold cacheRead
  by_cases h : ctx.fd > 0 ∧ bytes.length > 0
  · rw [if_pos h, if_pos (headD_true hr.cache_ok)]
    exact ⟨_, _, rfl, fun r hr' => hr.cache_ok r (List.mem_of_mem_tail hr')⟩
  · rw [if_neg h]
    exact ⟨ctx.cache, ctx.cacheRet, rfl, hr.cache_ok⟩

/-- The file mark in place of a block. -/
theorem checkSmallBlock_mark {ctx : InputTape} (hr : Ready ctx) {p : ℕ}
    (hpos : ctx.device.pos = p + 1) (h : ctx.device.records[p]? = some .filemark) :
    ∃ ctx', checkSmallBlock 0 ctx = (true, ctx') ∧ ctx'.buf = ctx.buf ∧
      ctx'.bufUsed = ctx.bufUsed ∧ AtMark ctx' := by
  simp only [checkSmallBlock, if_pos hr.size_pos, if_true]
  exact noteFileMark_atMark ⟨hr.size_pos, hr.no_error, hr.tape_ok, hr.cache_ok, hr.malloc_ok⟩
    rfl hpos h

/-- A short block with the file mark behind it: the mark is found and noted. -/
theorem checkSmallBlock_short {ctx : InputTape} (hr : Ready ctx) {n : ℕ} (hn : n ≠ 0)
    (hlt : n < ctx.bufSize) (heod : ctx.eodPos = 0 ∨ ctx.currentPos < ctx.eodPos)
    (h : ctx.device.records[ctx.device.pos]? = some .filemark) :
    ∃ ctx', checkSmallBlock n ctx = (true, ctx') ∧ ctx'.buf = ctx.buf ∧
      ctx'.bufUsed = ctx.bufUsed ∧ AtMark ctx' := by
  have hlook : ctx.eodPos = 0 ∨ ctx.eodPos > 0 ∧ ctx.currentPos < ctx.eodPos := by omega
  simp only [checkSmallBlock, if_pos hlt, if_neg hn, if_pos hlook, hr.malloc_ok, Bool.not_true,
    Bool.false_eq_true, if_false, tapeRead_eq hr.tape_ok h, Record.bytes, List.length_nil, if_true]
  exact noteFileMark_atMark
    ⟨hr.size_pos, hr.no_error, hr.moved _, hr.cache_ok, rfl⟩ rfl rfl h

theorem checkSmallBlock_full {ctx : InputTape} {n : ℕ} (h : ¬ n < ctx.bufSize) :
    checkSmallBlock n ctx = (true, ctx) := by
  simp only [checkSmallBlock, if_neg h]

/-- A read that finds the record `r`: what it returns, up to the check for a
short record. -/
theorem readBlock_eq {ctx : InputTape} (hr : Ready ctx) {r : Record}
    (hget : ctx.device.records[ctx.device.pos]? = some r) {bytes : List UInt8}
    (hbytes : bytes = r.bytes ctx.bufSize) :
    ∃ cache cacheRet,
      let ctx' : InputTape := { ctx with
        device := ctx.device.moved (ctx.device.pos + 1)
        currentPos := ctx.currentPos + 1
        buf := bytes
        cache := cache
        cacheRet := cacheRet }
      Ready ctx' ∧ ∀ ctx'', checkSmallBlock bytes.length ctx' = (true, ctx'') →
        readBlock ctx = (some bytes, ctx'') := by
  have hready : Ready { ctx with
      device := ctx.device.moved (ctx.device.pos + 1)
      currentPos := ctx.currentPos + 1
      buf := bytes } :=
    ⟨hr.size_pos, hr.no_error, hr.moved _, hr.cache_ok, hr.malloc_ok⟩
  obtain ⟨cache, cacheRet, hcache, hcok⟩ := cacheRead_eq hready bytes
  refine ⟨cache, cacheRet, ⟨hr.size_pos, hr.no_error, hr.moved _, hcok, hr.malloc_ok⟩, ?_⟩
  intro ctx'' hcheck
  simp only [readBlock, tapeRead_eq hr.tape_ok hget, ← hbytes, hcache, Bool.not_true,
    Bool.false_eq_true, if_false, hcheck, if_true]

/-- One read: either the next block, or the file mark. After a short block the
mark has been looked for and found. -/
theorem readBlock_feed {blocks : List (List UInt8)} {ctx : InputTape}
    (h : AtBlocks blocks ctx) :
    ∃ bytes blocks' ctx', readBlock ctx = (some bytes, ctx') ∧ ctx'.buf = bytes ∧
      ctx'.bufUsed = ctx.bufUsed ∧
      blocks.flatten = bytes ++ blocks'.flatten ∧ Feed blocks' ctx' ∧
      (bytes = [] → AtMark ctx') := by
  obtain ⟨hr, hsmall, hblocked, ⟨post, hahead⟩, heod⟩ := h
  cases blocks with
  | nil =>
    -- the file mark itself
    obtain ⟨hget, -⟩ := getElem?_of_drop hahead
    obtain ⟨cache, cacheRet, hready, hread⟩ := readBlock_eq hr hget rfl
    obtain ⟨ctx', hcheck, hbuf, hused, hmark⟩ := checkSmallBlock_mark hready rfl hget
    exact ⟨[], [], ctx', hread ctx' hcheck, hbuf, hused, rfl, Or.inr ⟨rfl, hmark⟩, fun _ => hmark⟩
  | cons b bs =>
    obtain ⟨hne, hle, hrest, hshort⟩ := blocked_cons hr.size_pos hblocked
    obtain ⟨hget, hdrop⟩ := getElem?_of_drop hahead
    have htake : b = b.take ctx.bufSize := (List.take_of_length_le hle).symm
    obtain ⟨cache, cacheRet, hready, hread⟩ := readBlock_eq hr hget htake
    by_cases hlt : b.length < ctx.bufSize
    · -- a short block is the last one
      obtain rfl := hshort hlt
      obtain ⟨hmark, -⟩ := getElem?_of_drop hdrop
      have hb : b.length ≠ 0 := by
        simpa using hne
      obtain ⟨ctx', hcheck, hbuf, hused, hat⟩ := checkSmallBlock_short hready hb hlt
        (by simp only [List.length_singleton] at heod; omega) hmark
      exact ⟨b, [], ctx', hread ctx' hcheck, hbuf, hused, rfl, Or.inr ⟨rfl, hat⟩, fun _ => hat⟩
    · refine ⟨b, bs, _, hread _ (checkSmallBlock_full hlt), rfl, rfl, rfl, Or.inl ?_,
        fun hb => absurd hb hne⟩
      refine ⟨hready, hsmall, hrest, ⟨post, hdrop⟩, ?_⟩
      simp only [List.length_cons] at heod
      simp only
      omega

theorem Feed.ready {blocks : List (List UInt8)} {ctx : InputTape} (h : Feed blocks ctx) :
    Ready ctx := by
  rcases h with h | ⟨-, h⟩
  · exact h.ready
  · exact h.ready

/-- The buffer's counters play no role for what the tape still has to give. -/
theorem Feed.setBuf {blocks : List (List UInt8)} {ctx : InputTape} (h : Feed blocks ctx)
    (start used : ℕ) : Feed blocks { ctx with bufStart := start, bufUsed := used } := by
  have hr := h.ready
  have hr' : Ready { ctx with bufStart := start, bufUsed := used } :=
    ⟨hr.size_pos, hr.no_error, hr.tape_ok, hr.cache_ok, hr.malloc_ok⟩
  rcases h with h | ⟨hnil, h⟩
  · exact Or.inl ⟨hr', h.not_small, h.blocked, h.ahead, h.before_eod⟩
  · exact Or.inr ⟨hnil, hr', h.small, h.mark, h.position⟩

theorem Feed.pending {blocks : List (List UInt8)} {ctx : InputTape} (h : Feed blocks ctx)
    (hused : ctx.bufUsed = 0) : Pending blocks.flatten ctx := by
  have hnil : cached ctx = [] := by simp [cached, hused]
  exact ⟨by simp [hnil, hused], blocks, h, by simp [hnil]⟩

theorem fillBuffer_zero {len fuel : ℕ} (h : 0 < fuel) (saved : List UInt8) (ctx : InputTape) :
    fillBuffer len fuel saved 0 ctx = some ((len : ℤ), saved, ctx) := by
  obtain ⟨fuel, rfl⟩ := Nat.exists_eq_succ_of_ne_zero h.ne'
  simp [fillBuffer]

/-- Before the file mark the loop ends with what it has. -/
theorem fillBuffer_mark {len fuel remaining : ℕ} {ctx : InputTape} (h : AtMark ctx)
    (hfuel : 0 < fuel) (hrem : remaining ≠ 0) (saved : List UInt8) :
    fillBuffer len fuel saved remaining ctx = some ((saved.length : ℤ), saved, ctx) := by
  obtain ⟨fuel, rfl⟩ := Nat.exists_eq_succ_of_ne_zero hfuel.ne'
  simp only [fillBuffer, if_neg hrem, h.small, if_true, ite_self]

/-- The loop delivers `remaining` bytes, or all there are. The induction is on the
fuel, which every block read lets drop no faster than `remaining`. -/
theorem fillBuffer_spec (len fuel : ℕ) :
    ∀ (saved : List UInt8) (remaining : ℕ) (blocks : List (List UInt8)) (ctx : InputTape),
      Feed blocks ctx → ctx.bufUsed = 0 → saved.length + remaining = len → remaining < fuel →
      ∃ ctx', fillBuffer len fuel saved remaining ctx
          = some (((saved ++ blocks.flatten.take remaining).length : ℤ),
              saved ++ blocks.flatten.take remaining, ctx') ∧
        Pending (blocks.flatten.drop remaining) ctx' ∧
        (blocks.flatten.length < remaining → AtMark ctx') := by
  induction fuel with
  | zero => intro _ _ _ _ _ _ _ h; omega
  | succ fuel ih =>
    intro saved remaining blocks ctx hfeed hused hlen hfuel
    by_cases hzero : remaining = 0
    · subst hzero
      refine ⟨ctx, ?_, by simpa using hfeed.pending hused, by omega⟩
      rw [fillBuffer_zero (by omega)]
      simp [← hlen]
    · rcases hfeed with hat | ⟨rfl, hmark⟩
      · have heod : ¬ (ctx.eodPos > 0 ∧ ctx.currentPos = ctx.eodPos) := by
          have := hat.before_eod
          omega
        obtain ⟨bytes, blocks', ctx', hread, hbuf, hused', hflat, hfeed', hempty⟩ := readBlock_feed hat
        have hloop : fillBuffer len (fuel + 1) saved remaining ctx
            = if remaining > bytes.length then
                fillBuffer len fuel (saved ++ bytes) (remaining - bytes.length) ctx'
              else
                fillBuffer len fuel (saved ++ bytes.take remaining) 0
                  { ctx' with bufStart := remaining, bufUsed := bytes.length - remaining } := by
          simp only [fillBuffer, if_neg hzero, if_neg heod, hat.not_small, Bool.false_eq_true,
            if_false, hread]
        rw [hloop, hflat]
        by_cases hmore : remaining > bytes.length
        · -- the whole block is delivered and the loop goes on
          rw [if_pos hmore]
          by_cases hb : bytes = []
          · -- it was the file mark: the next round ends the loop
            subst hb
            obtain rfl : blocks' = [] := by
              rcases hfeed' with h | ⟨h, -⟩
              · exact absurd (hempty rfl).small (by simp [h.not_small])
              · exact h
            refine ⟨ctx', ?_, ?_, fun _ => hempty rfl⟩
            · rw [fillBuffer_mark (hempty rfl) (by omega) (by simpa using hzero)]
              simp
            · simpa using hfeed'.pending (hused'.trans hused)
          · have hpos := List.length_pos_iff.mpr hb
            obtain ⟨ctx'', h1, h2, h3⟩ := ih (saved ++ bytes) (remaining - bytes.length) blocks' ctx'
              hfeed' (hused'.trans hused) (by simp only [List.length_append]; omega) (by omega)
            have htake : (bytes ++ blocks'.flatten).take remaining
                = bytes ++ blocks'.flatten.take (remaining - bytes.length) := by
              rw [List.take_append, List.take_of_length_le (by omega)]
            have hdrop : (bytes ++ blocks'.flatten).drop remaining
                = blocks'.flatten.drop (remaining - bytes.length) := by
              rw [List.drop_append, List.drop_of_length_le (by omega), List.nil_append]
            refine ⟨ctx'', ?_, by rwa [hdrop], ?_⟩
            · rw [h1, htake, List.append_assoc]
            · intro hlt
              apply h3
              simp only [List.length_append] at hlt
              omega
        · rw [if_neg hmore, fillBuffer_zero (by omega)]
          have hle : remaining ≤ bytes.length := by omega
          have htake : (bytes ++ blocks'.flatten).take remaining = bytes.take remaining :=
            List.take_append_of_le_length hle
          have hdrop : (bytes ++ blocks'.flatten).drop remaining
              = bytes.drop remaining ++ blocks'.flatten :=
            List.drop_append_of_le_length hle
          refine ⟨{ ctx' with bufStart := remaining, bufUsed := bytes.length - remaining },
            ?_, ?_, ?_⟩
          · rw [htake]
            have : (saved ++ bytes.take remaining).length = len := by
              simp only [List.length_append, List.length_take]
              omega
            rw [this]
          · have hcached : cached { ctx' with
                bufStart := remaining, bufUsed := bytes.length - remaining }
                = bytes.drop remaining := by
              simp only [cached, hbuf]
              exact List.take_of_length_le (by simp)
            rw [hdrop]
            exact ⟨by simp [hcached], blocks', hfeed'.setBuf _ _, by rw [hcached]⟩
          · intro hlt
            simp only [List.length_append] at hlt
            omega
      · -- nothing is left on the tape
        refine ⟨ctx, ?_, ?_, fun _ => hmark⟩
        · rw [fillBuffer_mark hmark (by omega) hzero]
          simp
        · simpa using Feed.pending (Or.inr ⟨rfl, hmark⟩) hused

/-- One callback delivers the next `len` bytes, or all there are; asked for more
than there is, it ends before the file mark. -/
theorem readCallback_spec {data : List UInt8} {ctx : InputTape} (h : Pending data ctx)
    {len : ℕ} (hlen : 0 < len) :
    ∃ ctx', readCallback len ctx
        = some (((data.take len).length : ℤ), data.take len, ctx') ∧
      Pending (data.drop len) ctx' ∧ (data.length < len → AtMark ctx') := by
  obtain ⟨hfits, blocks, hfeed, rfl⟩ := h
  unfold readCallback
  rw [if_neg hlen.ne']
  by_cases hcache : len ≤ ctx.bufUsed
  · -- served from the buffer
    rw [if_pos hcache]
    have hle : len ≤ (cached ctx).length := by omega
    have htake : (cached ctx ++ blocks.flatten).take len = (ctx.buf.drop ctx.bufStart).take len := by
      rw [List.take_append_of_le_length hle, cached, List.take_take, min_eq_left hcache]
    have hlen' : ((ctx.buf.drop ctx.bufStart).take len).length = len := by
      rw [← htake, List.take_append_of_le_length hle, List.length_take]
      omega
    refine ⟨_, by rw [htake, hlen'], ?_, ?_⟩
    · have hcached : cached { ctx with
          bufUsed := ctx.bufUsed - len
          bufStart := if ctx.bufUsed - len > 0 then ctx.bufStart + len else 0 }
          = (cached ctx).drop len := by
        simp only [cached, List.drop_take]
        by_cases hmore : ctx.bufUsed - len > 0
        · rw [if_pos hmore, List.drop_drop]
        · rw [show ctx.bufUsed - len = 0 by omega, List.take_zero, List.take_zero]
      refine ⟨?_, blocks, hfeed.setBuf _ _, ?_⟩
      · rw [hcached, List.length_drop, hfits]
      · rw [hcached, List.drop_append_of_le_length hle]
    · intro hlt
      simp only [List.length_append] at hlt
      omega
  · rw [if_neg hcache]
    by_cases hused : ctx.bufUsed > 0
    · -- the buffer first, then the tape
      rw [if_pos hused]
      obtain ⟨ctx', h1, h2, h3⟩ := fillBuffer_spec len (len + 1) (cached ctx) (len - ctx.bufUsed)
        blocks _ (hfeed.setBuf 0 0) rfl (by omega) (by omega)
      have htake : (cached ctx ++ blocks.flatten).take len
          = cached ctx ++ blocks.flatten.take (len - ctx.bufUsed) := by
        rw [List.take_append, List.take_of_length_le (by omega), hfits]
      have hdrop : (cached ctx ++ blocks.flatten).drop len
          = blocks.flatten.drop (len - ctx.bufUsed) := by
        rw [List.drop_append, List.drop_of_length_le (by omega), List.nil_append, hfits]
      refine ⟨ctx', ?_, by rwa [hdrop], ?_⟩
      · rw [htake]
        exact h1
      · intro hlt
        apply h3
        simp only [List.length_append] at hlt
        omega
    · rw [if_neg hused]
      have hnil : cached ctx = [] := by
        apply List.eq_nil_of_length_eq_zero
        omega
      obtain ⟨ctx', h1, h2, h3⟩ := fillBuffer_spec len (len + 1) [] len blocks ctx hfeed
        (by omega) (by simp) (by omega)
      simp only [hnil, List.nil_append] at h1 ⊢
      exact ⟨ctx', h1, h2, h3⟩

/-- A run of callbacks delivers the stream from its beginning. -/
theorem readAll_spec (lens : List ℕ) :
    ∀ {data : List UInt8} {ctx : InputTape}, Pending data ctx → (∀ len ∈ lens, 0 < len) →
      ∃ chunks ctx', readAll lens ctx = some (chunks, ctx') ∧
        (chunks.map Prod.snd).flatten = data.take lens.sum ∧
        (∀ c ∈ chunks, c.1 = c.2.length) ∧ Pending (data.drop lens.sum) ctx' := by
  induction lens with
  | nil =>
    intro data ctx h _
    exact ⟨[], ctx, rfl, by simp, by simp, by simpa using h⟩
  | cons len lens ih =>
    intro data ctx h hpos
    obtain ⟨ctx', h1, h2, -⟩ := readCallback_spec h (hpos len (by simp))
    obtain ⟨chunks, ctx'', h3, h4, h5, h6⟩ := ih h2 (fun l hl => hpos l (by simp [hl]))
    refine ⟨(((data.take len).length : ℤ), data.take len) :: chunks, ctx'', ?_, ?_, ?_, ?_⟩
    · simp only [readAll, h1, h3, Option.map_some]
    · rw [List.map_cons, List.flatten_cons, h4, List.sum_cons, List.take_add]
    · intro c hc
      rcases List.mem_cons.mp hc with rfl | hc
      · rfl
      · exact h5 c hc
    · rw [List.sum_cons, ← List.drop_drop]
      exact h6

/-! ## Round trip -/

/-- A reader that `xml_schema_from_tape` has set up before a block sequence that
ends in a file mark: nothing is buffered, the counter of the current position is
the device's, and `eodPos`, if known, is the end of the partition. -/
structure ReaderAt (blocks : List (List UInt8)) (ctx : InputTape) : Prop where
  ready : Ready ctx
  on_tape : ∃ post, ctx.device.records.drop ctx.device.pos
    = blocks.map .block ++ .filemark :: post
  eod : ctx.eodPos = 0 ∨ ctx.eodPos = ctx.device.records.length
  position : ctx.currentPos = ctx.device.pos
  empty : ctx.bufUsed = 0
  fresh : ctx.sawSmallBlock = false

theorem ReaderAt.pending {blocks : List (List UInt8)} {ctx : InputTape}
    (h : ReaderAt blocks ctx) (hb : Blocked ctx.bufSize blocks) : Pending blocks.flatten ctx := by
  refine Feed.pending (Or.inl ⟨h.ready, h.fresh, hb, h.on_tape, ?_⟩) h.empty
  obtain ⟨post, hpost⟩ := h.on_tape
  have hlen := congrArg List.length hpost
  simp only [List.length_drop, List.length_append, List.length_map, List.length_cons] at hlen
  have heod := h.eod
  have hpos := h.position
  omega

/-- Round trip of the index stream. However the stream is cut into write
callbacks, the tape gets full blocks and a non-empty last one that together are
the stream. However a reader set up before those blocks and a file mark cuts its
callbacks, it delivers the stream from its beginning; once the stream is
delivered it returns `0`, has noted the file mark and stands before it. -/
theorem tape_stream_round_trip (out : OutputTape) (hsize : 0 < out.bufSize)
    (hnew : out.buf = [] ∧ out.written = [] ∧ out.errCode = 0 ∧ out.errnoFd = 0)
    (hok : NoFault out) (pieces : List (List UInt8)) :
    let blocks := (writeAll pieces out).written
    (∀ b ∈ blocks.dropLast, b.length = out.bufSize) ∧
    (∀ b ∈ blocks.getLast?, b ≠ [] ∧ b.length ≤ out.bufSize) ∧
    blocks.flatten = pieces.flatten ∧
    ∀ ctx : InputTape, ctx.bufSize = out.bufSize → ReaderAt blocks ctx →
      ∀ lens : List ℕ, (∀ len ∈ lens, 0 < len) →
        ∃ chunks ctx', readAll lens ctx = some (chunks, ctx') ∧
          (∀ c ∈ chunks, c.1 = c.2.length) ∧
          (chunks.map Prod.snd).flatten = pieces.flatten.take lens.sum ∧
          (pieces.flatten.length ≤ lens.sum → ∀ len, 0 < len →
            ∃ ctx'', readCallback len ctx' = some (0, [], ctx'') ∧ AtMark ctx'') := by
  intro blocks
  have hw : Written [] out := ⟨hsize, hnew.2.2, hok, by simp [hnew.2.1], by simp [hnew.1],
    by simp [hnew.1, hnew.2.1]⟩
  obtain ⟨hblocked, hflat⟩ := writeAll_written hw pieces
  obtain ⟨hfull, hlast⟩ := hblocked.full_last
  refine ⟨hfull, hlast, hflat, ?_⟩
  intro ctx hctx hat lens hpos
  have hpend : Pending pieces.flatten ctx := by
    rw [← hflat]
    exact hat.pending (by rw [hctx]; exact hblocked)
  obtain ⟨chunks, ctx', h1, h2, h3, h4⟩ := readAll_spec lens hpend hpos
  refine ⟨chunks, ctx', h1, h3, h2, ?_⟩
  intro hdone len hlen
  rw [List.drop_of_length_le hdone] at h4
  obtain ⟨ctx'', h5, -, h6⟩ := readCallback_spec h4 hlen
  exact ⟨ctx'', by simpa using h5, h6 hlen⟩

/-- The tape of the example below, with an index file from block 1 on. -/
def fiveBytes : InputTape where
  device :=
    { records := [.filemark, .block [1, 2], .block [3, 4], .block [5], .filemark]
      pos := 1 }
  blocksize := 2
  bufSize := 2
  eodPos := 5
  currentPos := 1

/-- Five bytes in three pieces, blocks of two: written as 2 + 2 + 1 and read back
in steps of three. -/
theorem tape_stream_round_trip_five :
    (writeAll [[1], [2, 3, 4], [5]] ⟨2, [], 0, -1, 0, [], [], [], []⟩).written
      = [[1, 2], [3, 4], [5]] ∧
    ∃ chunks ctx', readAll [3, 3] fiveBytes = some (chunks, ctx') ∧
      (chunks.map Prod.snd).flatten = [1, 2, 3, 4, 5] := by
  have hrun := (tape_stream_round_trip ⟨2, [], 0, -1, 0, [], [], [], []⟩ (by decide)
    ⟨rfl, rfl, rfl, rfl⟩ ⟨by simp, by simp⟩ [[1], [2, 3, 4], [5]]).2.2.2 fiveBytes rfl
    ⟨⟨by decide, rfl, by decide, by decide, rfl⟩, ⟨[], by decide⟩, by decide, rfl, rfl, rfl⟩
    [3, 3] (by decide)
  refine ⟨by decide, ?_⟩
  obtain ⟨chunks, ctx', h1, -, h2, -⟩ := hrun
  exact ⟨chunks, ctx', h1, h2⟩

end Ltfs.XmlTape

import Ltfs.SeekIndex

/-!
# Walking over the indexes of a partition

`ltfs_traverse_index_forward` and `ltfs_traverse_index_backward` read every index of a partition,
or every one up to a generation, and hand it to a callback. They find their way by file marks
alone: from behind the mark that closes an index, one mark forward or four marks back and one
forward.

* `tapeSpacefm`, `tapeSeek` and the four `tapeLocate…Index` — positioning.
* `visitIndex` — what both loops do at an index.
* `ltfsTraverseIndexForward`, `ltfsTraverseIndexBackward` — the two walks.

Interrupts by a signal are left out.
-/

namespace Ltfs.XmlTape.Traverse

/-! ## Positioning -/

/-- Where the `count`-th file mark before `pos` is. -/
def backMark (records : List Record) : ℕ → ℕ → Option ℕ
  | 0, pos => some pos
  | count + 1, pos => (lastFilemark records pos).bind (backMark records count)

/-- `tape_spacefm(dev, -count)`: to the front of the `count`-th file mark back. -/
def spaceFmBackward (count : ℕ) (dev : Device) : ℤ × Device :=
  if dev.faults.headD 0 < 0 then
    (dev.faults.headD 0, dev.moved dev.pos)
  else
    match backMark dev.records count dev.pos with
    | none => (-edevBopDetected, dev.moved 0)
    | some pos => (0, dev.moved pos)

/-- `tape_seek` on this partition, for a block other than the first. -/
def tapeSeek (block : ℕ) (dev : Device) : ℤ × Device :=
  if block = dev.pos then
    (0, dev)
  else if dev.faults.headD 0 < 0 then
    (locateCode (dev.faults.headD 0), dev.moved dev.pos)
  else if dev.records.length < block then
    (-edevEodDetected, dev.moved dev.records.length)
  else
    (0, dev.moved block)

/-- A second command, if the first one succeeded. -/
def andThen (first : ℤ × Device) (second : Device → ℤ × Device) : ℤ × Device :=
  if first.1 = 0 then second first.2 else first

/-- `tape_locate_next_index`. -/
def tapeLocateNextIndex (dev : Device) : ℤ × Device := spaceFmForward dev

/-- `tape_locate_previous_index`. -/
def tapeLocatePreviousIndex (dev : Device) : ℤ × Device :=
  andThen (spaceFmBackward 4 dev) spaceFmForward

/-- `tape_locate_first_index`. -/
def tapeLocateFirstIndex (dev : Device) : ℤ × Device := andThen (tapeSeek 4 dev) spaceFmForward

/-- `tape_locate_last_index`. -/
def tapeLocateLastIndex (dev : Device) : ℤ × Device :=
  andThen (andThen (seekEod dev) (spaceFmBackward 2)) spaceFmForward

section Walk

variable {T A : Type} (R : IndexReader T) (p : Partition)

/-- `f_index_found`: the index, and the data behind `list` and `priv`. -/
abbrev IndexFound (T A : Type) := Index T → A → ℤ × A

/-- What the walks change: the tape, `vol->index` and what the callback keeps. -/
structure Walk (T A : Type) where
  dev : Device
  index : Index T
  list : A

/-- The generation given to an index of a version that is not supported, `(unsigned int)-1`. -/
def unsupportedGeneration : ℕ := 2 ^ 32 - 1

/-- `ltfs_read_index(0, false, skip_dir, vol)`. The index in memory is the parser's, also where the
parser fails. -/
def readIndex (w : Walk T A) : Option (Except ℤ Bool × Walk T A) :=
  (ltfsReadIndex { R with recoverSymlink := false } p 0 w.dev).map fun (ret, dev) =>
    (ret, { w with dev := dev, index := (R.parse w.dev.pos).index })

/-- The call of `func`, if there is one. -/
def callFunc (func : Option (IndexFound T A)) (w : Walk T A) : ℤ × Walk T A :=
  match func with
  | none => (0, w)
  | some func =>
    let r := func w.index w.list
    (r.1, { w with list := r.2 })

/-- An index is in memory: the callback, and what it stops the walk with. -/
def reportIndex (func : Option (IndexFound T A)) (w : Walk T A) : Option ℤ × Walk T A :=
  let c := callFunc func w
  if c.1 < 0 then (some c.1, c.2)
  -- "Break if call back function returns positive value"
  else if c.1 > 0 then (some 0, c.2)
  else (none, c.2)

/-- Both loops at an index: read it and call back. A code is what the walk returns with. -/
def visitIndex (func : Option (IndexFound T A)) (w : Walk T A) :
    Option (Option ℤ × Walk T A) :=
  match readIndex R p w with
  | none => none
  | some (.ok _, w) => some (reportIndex func w)
  | some (.error ret, w) =>
    if ret ≠ -ltfsUnsupportedIndexVersion then
      some (some ret, w)
    else
      let r := spaceFmForward w.dev
      if r.1 < 0 then
        some (some r.1, { w with dev := r.2 })
      else
        some (reportIndex func
          { w with
            dev := r.2
            index := { w.index with
              generation := unsupportedGeneration
              selfptr := ⟨some p, r.2.pos - 1⟩ } })

/-- The forward walk ends at this generation. -/
def stopsForward (gen generation : ℕ) : Bool :=
  decide (generation ≠ unsupportedGeneration ∧ gen ≠ 0 ∧ gen ≤ generation)

/-- The backward walk ends at this generation. -/
def stopsBackward (gen generation : ℕ) : Bool :=
  decide (generation ≠ unsupportedGeneration ∧ gen ≠ 0 ∧ generation ≤ gen)

/-- What is returned behind the loop: whether the index in memory is the one sought. -/
def searchResult (gen : ℕ) (w : Walk T A) : ℤ :=
  if gen ≠ 0 then
    (if w.index.generation ≠ gen then -ltfsNoIndex else 0)
  else 0

/-- The loop of `ltfs_traverse_index_forward`; `last` is the block of the last index. `none` if
the fuel runs out. -/
def forwardLoop (func : Option (IndexFound T A)) (gen last : ℕ) :
    ℕ → Walk T A → Option (ℤ × Walk T A)
  | 0, _ => none
  | fuel + 1, w =>
    if last < w.dev.pos then
      some (searchResult gen w, w)
    else
      match visitIndex R p func w with
      | none => none
      | some (some ret, w) => some (ret, w)
      | some (none, w) =>
        if stopsForward gen w.index.generation then
          some (searchResult gen w, w)
        else if w.dev.pos < last then
          let r := tapeLocateNextIndex w.dev
          if r.1 < 0 then some (r.1, { w with dev := r.2 })
          else forwardLoop func gen last fuel { w with dev := r.2 }
        else
          forwardLoop func gen last fuel w

/-- `ltfs_traverse_index_forward`. -/
def ltfsTraverseIndexForward (func : Option (IndexFound T A)) (gen : ℕ) (w : Walk T A) :
    Option (ℤ × Walk T A) :=
  let l := tapeLocateLastIndex w.dev
  if l.1 < 0 then
    some (l.1, { w with dev := l.2 })
  else
    let r := tapeLocateFirstIndex l.2
    if r.1 < 0 then
      some (r.1, { w with dev := r.2 })
    else
      forwardLoop R p func gen l.2.pos (r.2.records.length + 1) { w with dev := r.2 }

/-- The loop of `ltfs_traverse_index_backward`; `none` if the fuel runs out. -/
def backwardLoop (func : Option (IndexFound T A)) (gen : ℕ) :
    ℕ → Walk T A → Option (ℤ × Walk T A)
  | 0, _ => none
  | fuel + 1, w =>
    if w.dev.pos ≤ 4 then
      some (searchResult gen w, w)
    else
      match visitIndex R p func w with
      | none => none
      | some (some ret, w) => some (ret, w)
      | some (none, w) =>
        if stopsBackward gen w.index.generation then
          some (searchResult gen w, w)
        else
          let r := tapeLocatePreviousIndex w.dev
          if r.1 < 0 then some (r.1, { w with dev := r.2 })
          else backwardLoop func gen fuel { w with dev := r.2 }

/-- `ltfs_traverse_index_backward`. -/
def ltfsTraverseIndexBackward (func : Option (IndexFound T A)) (gen : ℕ) (w : Walk T A) :
    Option (ℤ × Walk T A) :=
  let l := tapeLocateLastIndex w.dev
  if l.1 < 0 then
    some (l.1, { w with dev := l.2 })
  else
    backwardLoop R p func gen (l.2.records.length + 1) { w with dev := l.2 }

end Walk

end Ltfs.XmlTape.Traverse

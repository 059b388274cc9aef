import Mathlib.Data.List.Basic
import Mathlib.Tactic.IntervalCases
import Ltfs.VolumeSpec

/-!
# The chain of indexes

Whatever the drive answers, the indexes that are written completely form a chain:
each one's back pointer names the last index of the data partition before it.
`ChainOk` is the invariant, `step_chainOk` shows that every operation keeps it,
and `run_chainOk` lifts it to runs. `CountOk` is what holds of the generations as
long as their counter of 32 bits does not start again (`NoWrap`). `index_chain`
then reads off what a successful index write leaves on tape.

* `IndexAt`, `LastIndex` — what a later mount finds on a partition.
* `checkPointers` — the consistency check of that mount.
-/

namespace Ltfs

section Chain

variable {T : Type}

/-! ## Indexes on tape -/

/-- A complete index of `n` blocks at block `b`, between its file marks. -/
def IndexIn (m : List (Record T)) (b n : ℕ) (doc : Index T) : Prop :=
  0 < n ∧ (m.drop b).take (n + 2) = indexImage n doc

/-- A complete index at block `b`. -/
def IndexAt (m : List (Record T)) (b : ℕ) (doc : Index T) : Prop := ∃ n, IndexIn m b n doc

/-- The last complete index of a partition, if there is one. -/
def LastIndex (m : List (Record T)) : Option (Index T) → Prop
  | none => ∀ b doc, ¬ IndexAt m b doc
  | some doc => ∃ b, IndexAt m b doc ∧ ∀ b' doc', IndexAt m b' doc' → b' ≤ b

theorem IndexIn.length_le {m : List (Record T)} {b n : ℕ} {doc : Index T}
    (h : IndexIn m b n doc) : b + n + 2 ≤ m.length := by
  have hlen := congrArg List.length h.2
  rw [List.length_take, List.length_drop, length_indexImage] at hlen
  omega

/-- An index stays where it is as long as nothing below its end changes. -/
theorem IndexIn.congr {m m' : List (Record T)} {b n e : ℕ} {doc : Index T}
    (h : IndexIn m b n doc) (he : b + n + 2 ≤ e) (htake : m'.take e = m.take e) :
    IndexIn m' b n doc := by
  refine ⟨h.1, ?_⟩
  have hcut : ∀ l : List (Record T), (l.drop b).take (n + 2) = ((l.take e).drop b).take (n + 2) := by
    intro l
    rw [List.drop_take, List.take_take, min_eq_left (by omega)]
  rw [hcut, htake, ← hcut]
  exact h.2

theorem indexIn_append (m : List (Record T)) {b n : ℕ} (doc : Index T) (hb : b ≤ m.length)
    (hn : 0 < n) : IndexIn (m.take b ++ indexImage n doc) b n doc := by
  refine ⟨hn, ?_⟩
  have hlen : (m.take b).length = b := by
    rw [List.length_take]
    omega
  rw [List.drop_left' hlen, List.take_of_length_le (by simp)]

theorem indexImage_getElem? {n i : ℕ} {doc : Index T} (h : (indexImage n doc)[i]? = some .fm) :
    i = 0 ∨ i = n + 1 := by
  unfold indexImage at h
  cases i with
  | zero => exact Or.inl rfl
  | succ i =>
    rw [List.cons_append, List.getElem?_cons_succ] at h
    by_cases hi : i < n
    · rw [List.getElem?_append_left (by simpa using hi)] at h
      simp [hi] at h
    · rw [List.getElem?_append_right (by simpa using hi)] at h
      have hlt := (List.getElem?_eq_some_iff.mp h).1
      simp at hlt
      omega

/-- The file marks of a complete index. -/
theorem IndexIn.fm {m : List (Record T)} {b n : ℕ} {doc : Index T} (h : IndexIn m b n doc) :
    m[b]? = some .fm := by
  have h0 := congrArg (fun l => l[0]?) h.2
  simpa [indexImage, List.getElem?_take] using h0

theorem IndexIn.first {m : List (Record T)} {b n : ℕ} {doc : Index T} (h : IndexIn m b n doc) :
    m[b + 1]? = some (.idx doc 0 n) := by
  rcases h with ⟨hn, h⟩
  have h1 := congrArg (fun l => l[1]?) h
  obtain ⟨n, rfl⟩ : ∃ k, n = k + 1 := ⟨n - 1, by omega⟩
  simpa [indexImage, List.getElem?_take, List.range_succ_eq_map] using h1

/-- An index that has just been written is the last one of its partition. -/
theorem lastIndex_append (m : List (Record T)) {b n : ℕ} (doc : Index T) (hb : b ≤ m.length)
    (hn : 0 < n) : LastIndex (m.take b ++ indexImage n doc) (some doc) := by
  refine ⟨b, ⟨n, indexIn_append m doc hb hn⟩, ?_⟩
  rintro b' doc' ⟨n', h'⟩
  have hlen := h'.length_le
  have hfm := h'.fm
  have htake : (m.take b).length = b := by
    rw [List.length_take]
    omega
  rw [List.length_append, htake, length_indexImage] at hlen
  by_contra hlt
  push Not at hlt
  rw [List.getElem?_append_right (by omega), htake] at hfm
  rcases indexImage_getElem? hfm with hi | hi
  · omega
  · omega

/-- Generations of the index blocks of a partition, in tape order. -/
def generations (m : List (Record T)) : List ℕ :=
  m.filterMap fun
    | .idx doc _ _ => some doc.generation
    | _ => none

theorem generations_append (m m' : List (Record T)) :
    generations (m ++ m') = generations m ++ generations m' := List.filterMap_append

theorem generations_data (l : List (List UInt8)) :
    generations (l.map (Record.data : List UInt8 → Record T)) = [] := by
  induction l with
  | nil => rfl
  | cons x l ih => exact ih

theorem generations_take_sublist (m : List (Record T)) (n : ℕ) :
    (generations (m.take n)).Sublist (generations m) :=
  (List.take_sublist n m).filterMap _

theorem generations_indexImage (n : ℕ) (doc : Index T) :
    ∀ g ∈ generations (indexImage n doc), g = doc.generation := by
  intro g hg
  simp [generations, indexImage] at hg
  omega

/-! ## Operations -/

/-- What happens to a mounted volume. -/
inductive VolumeOp (T : Type) where
  | writeIndex (p : Partition) (writePerm : Bool)
  | writeData (p : Partition) (buf : List UInt8) (repetitions : ℕ)
  /-- Any change of the directory tree. -/
  | change (root : T)

/-- One operation. -/
def VolumeOp.step (v : Volume T) : VolumeOp T → Volume T
  | .writeIndex p writePerm => (Ltfs.writeIndex p writePerm v).2
  | .writeData p buf repetitions => (writeDataUnlocked p buf repetitions v).2
  | .change root => { v with index := { v.index with root := root }, dirty := true }

/-- A sequence of operations. -/
def runVolume (v : Volume T) (ops : List (VolumeOp T)) : Volume T := ops.foldl VolumeOp.step v

/-! ## The invariant -/

/-- The last index that was written to the data partition. -/
def lastDp (written : List (Index T)) : Option (Index T) :=
  (written.filter fun doc => doc.selfptr.partition = some .dp).getLast?

/-- Where it is; `⟨none, 0⟩` if there is none. -/
def lastDpPtr (written : List (Index T)) : TapeOffset :=
  (lastDp written).elim ⟨none, 0⟩ Index.selfptr

/-- Each back pointer names the last index of the data partition before it. -/
def Linked (written : List (Index T)) : Prop :=
  ∀ pre doc post, written = pre ++ doc :: post → doc.backptr = lastDpPtr pre

/-- The indexes written so far, the pointers in memory and the data partition agree. -/
structure ChainOk (v : Volume T) : Prop where
  ok : v.dev.Ok
  linked : Linked v.written
  backptr : v.nextBackptr = lastDpPtr v.written
  /-- The data partition is appended to only, behind its last index. -/
  onTape : ∀ doc, lastDp v.written = some doc → ∃ b n, doc.selfptr = ⟨some .dp, b + 1⟩ ∧
    IndexIn (v.dev.medium .dp) b n doc ∧ b + n + 2 ≤ v.dev.appendBlock .dp
  last : ∀ doc ∈ v.written, doc.selfptr.partition = some .dp →
    doc.selfptr.block ≤ (lastDpPtr v.written).block

/-- The generation counter does not start again with the next index. -/
def Volume.CanCount (v : Volume T) : Prop := v.dirty = true → v.index.generation + 1 < 2 ^ 32

/-- It does not start again in the whole run. -/
def NoWrap : Volume T → List (VolumeOp T) → Prop
  | _, [] => True
  | v, op :: ops => (op.step v).CanCount ∧ NoWrap (op.step v) ops

/-- The generations on tape are in order, and the next one is not below them. -/
structure CountOk (v : Volume T) : Prop where
  ok : v.dev.Ok
  canCount : v.CanCount
  generation_le : ∀ doc ∈ v.written, doc.generation ≤ v.index.generation
  sorted : ∀ p, (generations (v.dev.medium p)).Pairwise (· ≤ ·)
  bound : ∀ p, ∀ g ∈ generations (v.dev.medium p), g ≤ v.nextGeneration

theorem lastDp_append_dp (written : List (Index T)) {doc : Index T}
    (h : doc.selfptr.partition = some .dp) : lastDp (written ++ [doc]) = some doc := by
  unfold lastDp
  rw [List.filter_append, List.filter_cons_of_pos (by simpa using h), List.filter_nil,
    List.getLast?_concat]

theorem lastDp_append_ip (written : List (Index T)) {doc : Index T}
    (h : doc.selfptr.partition ≠ some .dp) : lastDp (written ++ [doc]) = lastDp written := by
  unfold lastDp
  rw [List.filter_append, List.filter_cons_of_neg (by simpa using h), List.filter_nil,
    List.append_nil]

theorem Linked.append {written : List (Index T)} (h : Linked written) {doc : Index T}
    (hdoc : doc.backptr = lastDpPtr written) : Linked (written ++ [doc]) := by
  intro pre d post heq
  rcases List.eq_nil_or_concat post with rfl | ⟨post', e, rfl⟩
  · obtain ⟨rfl, hd⟩ := List.append_inj' heq rfl
    cases hd
    exact hdoc
  · have hassoc : pre ++ d :: (post'.concat e) = (pre ++ d :: post') ++ [e] := by simp
    rw [hassoc] at heq
    obtain ⟨rfl, -⟩ := List.append_inj' heq rfl
    exact h pre d post' rfl

/-- Writing at the append position of `p` keeps the first blocks. -/
theorem Partly.take {p : Partition} {start : ℕ} {base all : List (Record T)} {dev : Device T}
    (h : Partly p start base all dev) (hle : start ≤ base.length) :
    (dev.medium p).take start = base.take start := by
  rcases h.medium with hm | ⟨n, junk, hn, hm⟩
  · rw [hm]
  · have hlen : (base.take start).length = start := by
      rw [List.length_take]
      omega
    rw [hm, List.append_assoc, List.take_left' hlen]

/-- What is on tape after a write, in terms of generations. -/
theorem Partly.generations_sublist {p : Partition} {start : ℕ} {base all : List (Record T)}
    {dev : Device T} (h : Partly p start base all dev) :
    (generations (dev.medium p)).Sublist (generations base ++ generations all) := by
  rcases h.medium with hm | ⟨n, junk, hn, hm⟩
  · rw [hm]
    exact List.sublist_append_left _ _
  · rw [hm, generations_append, generations_append, generations_data, List.append_nil]
    exact (generations_take_sublist base start).append (generations_take_sublist all n)

/-- Records of generation `g` go behind records of at most that generation. -/
theorem generations_sorted {base all m : List (Record T)} {g : ℕ}
    (hsub : (generations m).Sublist (generations base ++ generations all))
    (hsorted : (generations base).Pairwise (· ≤ ·)) (hbound : ∀ x ∈ generations base, x ≤ g)
    (hall : ∀ x ∈ generations all, x = g) :
    (generations m).Pairwise (· ≤ ·) ∧ ∀ x ∈ generations m, x ≤ g := by
  constructor
  · refine List.Pairwise.sublist hsub (List.pairwise_append.mpr ⟨hsorted, ?_, ?_⟩)
    · apply List.pairwise_of_forall_mem_list
      intro x hx y hy
      rw [hall x hx, hall y hy]
    · intro x hx y hy
      rw [hall y hy]
      exact hbound x hx
  · intro x hx
    rcases List.mem_append.mp (hsub.subset hx) with hx | hx
    · exact hbound x hx
    · exact (hall x hx).le

/-! ## One step -/

/-- Writing at the append position of `p` without completing an index. -/
theorem ChainOk.of_write {v v' : Volume T} (h : ChainOk v) {p : Partition}
    {all : List (Record T)} (hbeside : Beside p v.dev v'.dev)
    (htape : Partly p (v.dev.appendBlock p) (v.dev.medium p) all v'.dev)
    (hindex : v'.index = v.index) (hwritten : v'.written = v.written) : ChainOk v' := by
  constructor
  · exact hbeside.ok h.ok htape.posOk htape.appendPos_le
  · rw [hwritten]
    exact h.linked
  · unfold Volume.nextBackptr
    rw [hindex, hwritten]
    exact h.backptr
  · intro doc hdoc
    rw [hwritten] at hdoc
    rcases h.onTape doc hdoc with ⟨b, n, hself, hin, hend⟩
    refine ⟨b, n, hself, ?_⟩
    by_cases hp : p = .dp
    · subst hp
      have htake := htape.take (h.ok.appendBlock_le _)
      exact ⟨hin.congr hend htake, hend.trans htape.start_le⟩
    · rw [hbeside.medium .dp (Ne.symm hp), hbeside.appendBlock (Ne.symm hp)]
      exact ⟨hin, hend⟩
  · rw [hwritten]
    exact h.last

theorem CountOk.of_write {v v' : Volume T} (h : CountOk v) {p : Partition}
    {all : List (Record T)} (hall : ∀ g ∈ generations all, g = v.nextGeneration)
    (hbeside : Beside p v.dev v'.dev)
    (htape : Partly p (v.dev.appendBlock p) (v.dev.medium p) all v'.dev)
    (hindex : v'.index = v.index) (hdirty : v'.dirty = v.dirty) (hwritten : v'.written = v.written) :
    CountOk v' := by
  have hgen : v'.nextGeneration = v.nextGeneration := by
    unfold Volume.nextGeneration
    rw [hindex, hdirty]
  have hsorted : ∀ q, (generations (v'.dev.medium q)).Pairwise (· ≤ ·) ∧
      ∀ g ∈ generations (v'.dev.medium q), g ≤ v.nextGeneration := by
    intro q
    by_cases hq : q = p
    · subst hq
      exact generations_sorted htape.generations_sublist (h.sorted q) (h.bound q) hall
    · rw [hbeside.medium q hq]
      exact ⟨h.sorted q, h.bound q⟩
  constructor
  · exact hbeside.ok h.ok htape.posOk htape.appendPos_le
  · unfold Volume.CanCount
    rw [hindex, hdirty]
    exact h.canCount
  · rw [hwritten, hindex]
    exact h.generation_le
  · exact fun q => (hsorted q).1
  · rw [hgen]
    exact fun q => (hsorted q).2

theorem Quiet.partly {v v' : Volume T} (hq : Quiet v v') (hok : v.dev.Ok) (p : Partition) :
    Partly p (v.dev.appendBlock p) (v.dev.medium p) [] v'.dev := by
  have hok' := hq.tape.ok hok
  constructor
  · exact Or.inl (by rw [hq.tape.medium])
  · rw [hq.tape.appendBlock]
  · exact hok'.posOk
  · exact hok'.appendPos_le p

theorem ChainOk.of_quiet {v v' : Volume T} (h : ChainOk v) (hq : Quiet v v') : ChainOk v' :=
  h.of_write (hq.tape.beside .dp) (hq.partly h.ok .dp) hq.index hq.written

theorem CountOk.of_quiet {v v' : Volume T} (h : CountOk v) (hq : Quiet v v') : CountOk v' :=
  h.of_write (by simp [generations]) (hq.tape.beside .dp) (hq.partly h.ok .dp) hq.index hq.dirty
    hq.written

/-- Forgetting the append position moves it to the end of data. -/
theorem clearWritePerm_partly {v : Volume T} (hok : v.dev.Ok) (p : Partition) :
    Beside p v.dev (clearWritePerm p v).dev ∧
    Partly p (v.dev.appendBlock p) (v.dev.medium p) [] (clearWritePerm p v).dev := by
  have hap : (clearWritePerm p v).dev.appendPos p = 0 := setAppendPos_self v.dev p 0
  constructor
  · exact ⟨fun _ _ => rfl, fun q hq => setAppendPos_ne v.dev 0 hq, rfl, rfl, le_refl _, rfl, rfl⟩
  · constructor
    · exact Or.inl rfl
    · unfold Device.appendBlock
      rw [if_pos hap]
      exact hok.appendBlock_le p
    · exact hok.posOk
    · rw [hap]
      exact Nat.zero_le _

theorem ChainOk.clearWritePerm {v : Volume T} (h : ChainOk v) (p : Partition) :
    ChainOk (clearWritePerm p v) := by
  rcases clearWritePerm_partly h.ok p with ⟨hb, ht⟩
  exact h.of_write hb ht rfl rfl

theorem CountOk.clearWritePerm {v : Volume T} (h : CountOk v) (p : Partition) :
    CountOk (clearWritePerm p v) := by
  rcases clearWritePerm_partly h.ok p with ⟨hb, ht⟩
  exact h.of_write (by simp [generations]) hb ht rfl rfl rfl

theorem ChainOk.lastDpPtr_le {v : Volume T} (h : ChainOk v) :
    (lastDpPtr v.written).block ≤ v.dev.appendBlock .dp := by
  unfold lastDpPtr
  cases hlast : lastDp v.written with
  | none => exact Nat.zero_le _
  | some doc =>
    rcases h.onTape doc hlast with ⟨b, n, hself, hin, hend⟩
    show doc.selfptr.block ≤ _
    rw [hself]
    dsimp only
    omega

/-- The generation of the next index is at least the current one. -/
theorem Volume.CanCount.le_next {v : Volume T} (h : v.CanCount) :
    v.index.generation ≤ v.nextGeneration := by
  unfold Volume.nextGeneration
  split
  · rename_i hdirty
    unfold incGeneration
    rw [Nat.mod_eq_of_lt (h hdirty)]
    omega
  · exact le_refl _

/-- Completing an index. -/
theorem CountOk.of_done {v v' : Volume T} (h : CountOk v) {p : Partition} (hd : IndexDone p v v') :
    CountOk v' := by
  have hgen : v'.nextGeneration = v.nextGeneration := by
    unfold Volume.nextGeneration
    rw [hd.index, hd.dirty]
    rfl
  have hsub : (generations (v'.dev.medium p)).Sublist
      (generations (v.dev.medium p) ++ generations (v.newImage p)) := by
    rw [hd.medium, generations_append]
    exact (generations_take_sublist _ _).append (List.Sublist.refl _)
  have hsorted : ∀ q, (generations (v'.dev.medium q)).Pairwise (· ≤ ·) ∧
      ∀ g ∈ generations (v'.dev.medium q), g ≤ v.nextGeneration := by
    intro q
    by_cases hq : q = p
    · subst hq
      exact generations_sorted hsub (h.sorted q) (h.bound q) (generations_indexImage _ _)
    · rw [hd.beside.medium q hq]
      exact ⟨h.sorted q, h.bound q⟩
  refine ⟨hd.ok h.ok, ?_, ?_, fun q => (hsorted q).1, ?_⟩
  · intro hdirty
    rw [hd.dirty] at hdirty
    cases hdirty
  · intro doc hdoc
    rw [hd.written, List.mem_append, List.mem_singleton] at hdoc
    rw [hd.index]
    rcases hdoc with hold | rfl
    · exact (h.generation_le doc hold).trans h.canCount.le_next
    · exact le_refl _
  · rw [hgen]
    exact fun q => (hsorted q).2

theorem ChainOk.of_done {v v' : Volume T} (h : ChainOk v) {p : Partition} (hd : IndexDone p v v') :
    ChainOk v' := by
  have hnew : ∀ doc ∈ v'.written, doc ∈ v.written ∨ doc = v.newIndex p := by
    intro doc hdoc
    rw [hd.written] at hdoc
    simpa using hdoc
  have hlinked : Linked v'.written := by
    rw [hd.written]
    exact h.linked.append h.backptr
  have hback : v'.nextBackptr = if p = .dp then (v.newIndex p).selfptr else v.nextBackptr := by
    unfold Volume.nextBackptr
    rw [hd.index]
    cases p with
    | ip => rfl
    | dp => rfl
  cases p with
  | ip =>
    have hlast : lastDp v'.written = lastDp v.written := by
      rw [hd.written]
      exact lastDp_append_ip _ (show some Partition.ip ≠ some .dp by decide)
    refine ⟨hd.ok h.ok, hlinked, ?_, ?_, ?_⟩
    · rw [hback, if_neg (by decide), h.backptr]
      unfold lastDpPtr
      rw [hlast]
    · intro doc hdoc
      rw [hlast] at hdoc
      rw [hd.beside.medium .dp (by decide), hd.beside.appendBlock (by decide)]
      exact h.onTape doc hdoc
    · intro doc hdoc hpart
      have hptr : lastDpPtr v'.written = lastDpPtr v.written := by
        unfold lastDpPtr
        rw [hlast]
      rw [hptr]
      rcases hnew doc hdoc with hold | rfl
      · exact h.last doc hold hpart
      · cases hpart
  | dp =>
    have hlast : lastDp v'.written = some (v.newIndex .dp) := by
      rw [hd.written]
      exact lastDp_append_dp _ rfl
    have hptr : lastDpPtr v'.written = (v.newIndex .dp).selfptr := by
      unfold lastDpPtr
      rw [hlast]
      rfl
    refine ⟨hd.ok h.ok, hlinked, ?_, ?_, ?_⟩
    · rw [hback, if_pos rfl, hptr]
    · intro doc hdoc
      rw [hlast] at hdoc
      cases hdoc
      refine ⟨v.dev.appendBlock .dp, v.blocksOf (v.newIndex .dp), rfl, ?_, ?_⟩
      · rw [hd.medium]
        exact indexIn_append _ _ hd.start_le (Nat.succ_pos _)
      · have hap : v'.dev.appendPos .dp
            = v.dev.appendBlock .dp + (v.newImage .dp).length := hd.appendPos
        have hlen : (v.newImage .dp).length = v.blocksOf (v.newIndex .dp) + 2 :=
          length_indexImage _ _
        have hne : v'.dev.appendPos .dp ≠ 0 := by omega
        have happ : v'.dev.appendBlock .dp = v'.dev.appendPos .dp := if_neg hne
        omega
    · intro doc hdoc hpart
      rw [hptr]
      show doc.selfptr.block ≤ v.dev.appendBlock .dp + 1
      rcases hnew doc hdoc with hold | rfl
      · have hle := h.last doc hold hpart
        have hle' := h.lastDpPtr_le
        omega
      · exact le_refl _

theorem writeIndexHere_chainOk (p : Partition) (writePerm : Bool) (volstat : VolumeLock)
    (v : Volume T) (h : ChainOk v) : ChainOk (writeIndexHere p writePerm volstat v).2 := by
  rcases writeIndexHere_result p writePerm volstat h.ok with ⟨-, hf⟩ | ⟨-, hd⟩
  · exact h.of_write hf.beside hf.tape hf.index hf.written
  · exact h.of_done hd

theorem writeIndexHere_countOk (p : Partition) (writePerm : Bool) (volstat : VolumeLock)
    (v : Volume T) (h : CountOk v) : CountOk (writeIndexHere p writePerm volstat v).2 := by
  rcases writeIndexHere_result p writePerm volstat h.ok with ⟨-, hf⟩ | ⟨-, hd⟩
  · exact h.of_write (generations_indexImage _ _) hf.beside hf.tape hf.index hf.dirty hf.written
  · exact h.of_done hd

theorem generations_dataRecords (blocksize : ℕ) (buf : List UInt8) (repetitions : ℕ) :
    generations (dataRecords blocksize buf repetitions : List (Record T)) = [] := by
  unfold dataRecords generations
  rw [List.filterMap_eq_nil_iff]
  intro x hx
  rcases List.mem_flatten.mp hx with ⟨l, hl, hxl⟩
  rw [List.eq_of_mem_replicate hl] at hxl
  rcases List.mem_map.mp hxl with ⟨bytes, -, rfl⟩
  rfl

theorem step_chainOk (v : Volume T) (op : VolumeOp T) (h : ChainOk v) :
    ChainOk (VolumeOp.step v op) := by
  have hquiet : ∀ v v' : Volume T, Quiet v v' → ChainOk v → ChainOk v' :=
    fun _ _ hq h => h.of_quiet hq
  have hclear : ∀ q (v : Volume T), ChainOk v → ChainOk (clearWritePerm q v) :=
    fun q _ h => h.clearWritePerm q
  cases op with
  | writeIndex p writePerm =>
    exact writeIndex_invariant hquiet hclear writeIndexHere_chainOk p writePerm h
  | writeData p buf repetitions =>
    have hcond := writeIndexConditional_invariant hquiet hclear writeIndexHere_chainOk p.other h
    show ChainOk (writeDataUnlocked p buf repetitions v).2
    rcases writeDataUnlocked_cases p buf repetitions v with hq | hq | ⟨-, heq⟩
    · exact h.of_quiet hq
    · exact hcond.of_quiet hq
    · rw [heq]
      have hput := writeDataHere_result p buf repetitions hcond.ok
      exact hcond.of_write hput.beside hput.tape hput.index hput.written
  | change root => exact ⟨h.ok, h.linked, h.backptr, h.onTape, h.last⟩

theorem writeIndex_countOk (p : Partition) (writePerm : Bool) {v : Volume T} (h : CountOk v) :
    CountOk (writeIndex p writePerm v).2 :=
  writeIndex_invariant (fun _ _ hq h => CountOk.of_quiet h hq)
    (fun q _ h => CountOk.clearWritePerm h q) writeIndexHere_countOk p writePerm h

/-- The counter can only be exhausted by a change. -/
theorem step_countOk {v : Volume T} {op : VolumeOp T} (h : CountOk v)
    (hcan : (op.step v).CanCount) : CountOk (op.step v) := by
  have hquiet : ∀ v v' : Volume T, Quiet v v' → CountOk v → CountOk v' :=
    fun _ _ hq h => h.of_quiet hq
  have hclear : ∀ q (v : Volume T), CountOk v → CountOk (clearWritePerm q v) :=
    fun q _ h => h.clearWritePerm q
  cases op with
  | writeIndex p writePerm => exact writeIndex_countOk p writePerm h
  | writeData p buf repetitions =>
    have hcond := writeIndexConditional_invariant hquiet hclear writeIndexHere_countOk p.other h
    show CountOk (writeDataUnlocked p buf repetitions v).2
    rcases writeDataUnlocked_cases p buf repetitions v with hq | hq | ⟨-, heq⟩
    · exact h.of_quiet hq
    · exact hcond.of_quiet hq
    · rw [heq]
      have hput := writeDataHere_result p buf repetitions hcond.ok
      exact hcond.of_write (by simp [generations_dataRecords]) hput.beside hput.tape hput.index
        hput.dirty hput.written
  | change root =>
    -- the tape stays as it is; the next generation can only grow
    have hle : v.nextGeneration ≤ (VolumeOp.step v (.change root)).nextGeneration := by
      have hnext : (VolumeOp.step v (.change root)).nextGeneration = incGeneration v.index.generation :=
        if_pos rfl
      have hlt : v.index.generation + 1 < 2 ^ 32 := hcan rfl
      rw [hnext]
      unfold Volume.nextGeneration
      split
      · exact le_refl _
      · unfold incGeneration
        rw [Nat.mod_eq_of_lt hlt]
        exact Nat.le_succ _
    exact ⟨h.ok, hcan, h.generation_le, h.sorted, fun p g hg => (h.bound p g hg).trans hle⟩

theorem run_chainOk (ops : List (VolumeOp T)) :
    ∀ v : Volume T, ChainOk v → ChainOk (runVolume v ops) := by
  induction ops with
  | nil => exact fun v h => h
  | cons op ops ih => exact fun v h => ih _ (step_chainOk v op h)

theorem run_countOk (ops : List (VolumeOp T)) :
    ∀ v : Volume T, CountOk v → NoWrap v ops → CountOk (runVolume v ops) := by
  induction ops with
  | nil => exact fun v h _ => h
  | cons op ops ih => exact fun v h hwrap => ih _ (step_countOk h hwrap.1) hwrap.2

/-! ## The next mount -/

/-- `_ltfs_check_pointers` for the last index of each partition: `0` if the index
partition is up to date, `1` if the data partition is newer, `2` if there is no
index. `readIndex` reads an earlier index of the data partition. -/
def checkPointers (readIndex : ℕ → Except ℤ (Index T)) (ip dp : Option (Index T)) : ℤ :=
  match ip, dp with
  | none, some _ => 1
  | none, none => 2
  | some ip, none =>
    -- a back pointer to an index that does not exist
    if ip.backptr.partition ≠ none then -ltfsIndexInvalid else 0
  | some ip, some dp =>
    if dp.generation ≤ ip.generation ∧ ip.backptr.partition = dp.selfptr.partition ∧
        ip.backptr.block = dp.selfptr.block then 0
    else if ip.generation > dp.generation then -ltfsIndexInvalid
    else if ip.generation = dp.generation ∧ ip.backptr.partition = none then 1
    else if dp.backptr.block > ip.backptr.block then
      match readIndex dp.backptr.block with
      | .error ret => ret
      | .ok prev =>
        if ip.backptr.partition = none ∧ prev.generation < ip.generation then -ltfsIndexInvalid
        else 1
    else 1

/-- No failed write has left an index that can be read: every index of the data
partition was written there successfully. -/
def NoStray (v : Volume T) : Prop :=
  ∀ b doc, IndexAt (v.dev.medium .dp) b doc → doc ∈ v.written ∧ doc.selfptr = ⟨some .dp, b + 1⟩

/-- The last readable index of the data partition is the last one written there. -/
theorem ChainOk.lastIndex_eq {v : Volume T} (h : ChainOk v) (hstray : NoStray v)
    {last : Option (Index T)} (hlast : LastIndex (v.dev.medium .dp) last) :
    (last.elim ⟨none, 0⟩ Index.selfptr) = lastDpPtr v.written ∧ ∀ d ∈ last, d ∈ v.written := by
  cases last with
  | none =>
    constructor
    · unfold lastDpPtr
      cases hdp : lastDp v.written with
      | none => rfl
      | some doc =>
        rcases h.onTape doc hdp with ⟨b, n, -, hin, -⟩
        exact absurd ⟨n, hin⟩ (hlast b doc)
    · intro d hd
      cases hd
  | some d =>
    rcases hlast with ⟨b, hat, hmax⟩
    rcases hstray b d hat with ⟨hmem, hself⟩
    have hle := h.last d hmem (by rw [hself])
    refine ⟨?_, fun d' hd' => by cases hd'; exact hmem⟩
    show d.selfptr = _
    rw [hself] at hle ⊢
    unfold lastDpPtr at hle ⊢
    cases hdp : lastDp v.written with
    | none =>
      rw [hdp] at hle
      exact absurd hle (by simp)
    | some doc =>
      rcases h.onTape doc hdp with ⟨b', n, hself', hin, -⟩
      rw [hdp] at hle
      have hle' := hmax b' doc ⟨n, hin⟩
      simp only [Option.elim] at hle ⊢
      rw [hself'] at hle ⊢
      dsimp only at hle
      have heq : b = b' := by omega
      rw [heq]

/-- The index partition is found to be up to date if its index is not older than
the data partition's and points back to it. -/
theorem checkPointers_eq_zero (readIndex : ℕ → Except ℤ (Index T)) {doc : Index T}
    {last : Option (Index T)} (hgen : ∀ d ∈ last, d.generation ≤ doc.generation)
    (hback : doc.backptr = last.elim ⟨none, 0⟩ Index.selfptr) :
    checkPointers readIndex (some doc) last = 0 := by
  cases last with
  | none =>
    unfold checkPointers
    dsimp only
    rw [hback]
    exact if_neg (fun h => h rfl)
  | some d =>
    have hle := hgen d rfl
    unfold checkPointers
    dsimp only
    rw [hback]
    exact if_pos ⟨hle, rfl, rfl⟩

/-- What a successful index write leaves behind. -/
theorem writeIndex_done {v : Volume T} (h : ChainOk v) (p : Partition) (writePerm : Bool)
    (hret : (writeIndex p writePerm v).1 = 0) :
    ∃ v₁, ChainOk v₁ ∧ IndexDone p v₁ (writeIndex p writePerm v).2 := by
  rcases writeIndex_rule (fun _ _ hq h => ChainOk.of_quiet h hq)
    (fun q _ h => ChainOk.clearWritePerm h q) writeIndexHere_chainOk p writePerm h with
    ⟨hneg, -⟩ | ⟨writePerm', volstat, v₁, h₁, heq⟩
  · omega
  · refine ⟨v₁, h₁, ?_⟩
    rcases writeIndexHere_result p writePerm' volstat h₁.ok with ⟨hneg, -⟩ | ⟨-, hd⟩
    · rw [← heq] at hneg
      omega
    · rw [heq]
      exact hd

/-- The chain of indexes: in every run, whatever the drive answers, each index that
was written completely points back to the last one of the data partition before
it, and the last one of the data partition is on tape where its self pointer says.
A successful write leaves its index at its self pointer; on the index partition it
points back to the index that the next mount finds on the data partition. As long as
the generation counter does not start again, generations never decrease along a
partition, and that mount finds the volume consistent. -/
theorem index_chain {v₀ : Volume T} (h₀ : ChainOk v₀) (ops : List (VolumeOp T)) :
    Linked (runVolume v₀ ops).written ∧
    (∀ doc, lastDp (runVolume v₀ ops).written = some doc →
      ∃ b, doc.selfptr = ⟨some .dp, b + 1⟩ ∧ IndexAt ((runVolume v₀ ops).dev.medium .dp) b doc) ∧
    (CountOk v₀ → NoWrap v₀ ops →
      ∀ p, (generations ((runVolume v₀ ops).dev.medium p)).Pairwise (· ≤ ·)) ∧
    ∀ p writePerm, (writeIndex p writePerm (runVolume v₀ ops)).1 = 0 →
      let v := (writeIndex p writePerm (runVolume v₀ ops)).2
      ∃ pre doc b, v.written = pre ++ [doc] ∧
        doc.selfptr = ⟨some p, b + 1⟩ ∧ IndexAt (v.dev.medium p) b doc ∧
        doc.backptr = lastDpPtr pre ∧
        (CountOk v₀ → NoWrap v₀ ops → ∀ q, (generations (v.dev.medium q)).Pairwise (· ≤ ·)) ∧
        (p = .ip → LastIndex (v.dev.medium .ip) (some doc) ∧
          (NoStray v → ∀ last, LastIndex (v.dev.medium .dp) last →
            (∀ d ∈ last, doc.backptr = d.selfptr) ∧
            (CountOk v₀ → NoWrap v₀ ops → (∀ d ∈ last, d.generation ≤ doc.generation) ∧
              ∀ readIndex, checkPointers readIndex (some doc) last = 0))) := by
  have h := run_chainOk ops v₀ h₀
  have hcount := fun (hc : CountOk v₀) (hwrap : NoWrap v₀ ops) => run_countOk ops v₀ hc hwrap
  generalize runVolume v₀ ops = v at h hcount
  refine ⟨h.linked, ?_, fun hc hwrap => (hcount hc hwrap).sorted, ?_⟩
  · intro doc hdoc
    rcases h.onTape doc hdoc with ⟨b, n, hself, hin, -⟩
    exact ⟨b, hself, n, hin⟩
  · intro p writePerm hret
    dsimp only
    have h' : ChainOk (writeIndex p writePerm v).2 := step_chainOk v (.writeIndex p writePerm) h
    have hcount' := fun (hc : CountOk v₀) (hwrap : NoWrap v₀ ops) =>
      writeIndex_countOk p writePerm (hcount hc hwrap)
    rcases writeIndex_done h p writePerm hret with ⟨v₁, h₁, hd⟩
    generalize (writeIndex p writePerm v).2 = v' at h' hd hcount'
    have hblocks : 0 < v₁.blocksOf (v₁.newIndex p) := Nat.succ_pos _
    refine ⟨v₁.written, v₁.newIndex p, v₁.dev.appendBlock p, hd.written, rfl, ?_, h₁.backptr,
      fun hc hwrap => (hcount' hc hwrap).sorted, ?_⟩
    · rw [hd.medium]
      exact ⟨_, indexIn_append _ _ hd.start_le hblocks⟩
    · rintro rfl
      constructor
      · rw [hd.medium]
        exact lastIndex_append _ _ hd.start_le hblocks
      · intro hstray last hlast
        rcases h'.lastIndex_eq hstray hlast with ⟨hptr, hmem⟩
        have hback : (v₁.newIndex .ip).backptr = last.elim ⟨none, 0⟩ Index.selfptr := by
          rw [hptr]
          unfold lastDpPtr
          rw [hd.written, lastDp_append_ip _ (show some Partition.ip ≠ some .dp by decide)]
          exact h₁.backptr
        constructor
        · intro d hd'
          cases hd'
          exact hback
        · intro hc hwrap
          have hgen : ∀ d ∈ last, d.generation ≤ (v₁.newIndex .ip).generation := by
            intro d hd'
            have hle := (hcount' hc hwrap).generation_le d (hmem d hd')
            rw [hd.index] at hle
            exact hle
          exact ⟨hgen, fun readIndex => checkPointers_eq_zero _ hgen hback⟩

/-- A cartridge as the formatter leaves it: two labels on each partition, no index
yet, and a drive without faults. -/
def freshVolume : Volume Unit where
  dev := {
    medium := fun _ => [.data [], .fm, .data [], .fm]
    position := ⟨.ip, 0⟩
    appendPos := fun _ => 0
    partitionSpace := fun _ => .writable
    writeProtected := false
    writeError := false
    readonlyDrive := false
    appendOnlyMode := false
    isWorm := false
    maxBlockSize := 4
    volumeLock := .unlocked
    coherency := fun _ => ⟨0, 0, 0, 0, 0⟩
    volumeChangeRef := 7
    answers := fun _ => .ok false false
    clock := 0 }
  index := ⟨0, ⟨none, 0⟩, ⟨none, 0⟩, ()⟩
  dirty := true
  ipIndexFileEnd := false
  dpIndexFileEnd := false
  coherency := fun _ => ⟨0, 0, 0, 0, 0⟩
  uuid := 1
  blocksize := 4
  moreBlocks := fun _ => 0
  lockStatus := .unlocked
  reval := 0
  written := []

theorem freshVolume_chainOk : ChainOk freshVolume := by
  constructor
  · exact ⟨Nat.zero_le _, fun p => Nat.zero_le _⟩
  · intro pre doc post h
    simp [freshVolume] at h
  · rfl
  · intro doc h
    cases h
  · intro doc h
    cases h

theorem freshVolume_countOk : CountOk freshVolume := by
  refine ⟨freshVolume_chainOk.ok, fun _ => by decide, ?_, fun p => List.Pairwise.nil, ?_⟩
  · intro doc h
    cases h
  · intro p g h
    cases h

/-- A volume whose last index has the last generation but one, and a change since then. -/
def wornVolume : Volume Unit :=
  let last : Index Unit := ⟨2 ^ 32 - 2, ⟨some .dp, 5⟩, ⟨none, 0⟩, ()⟩
  { freshVolume with
    dev := { freshVolume.dev with
      medium := fun
        | .ip => freshVolume.dev.medium .ip
        | .dp => freshVolume.dev.medium .dp ++ indexImage 1 last }
    index := last
    dpIndexFileEnd := true
    written := [last] }

theorem wornVolume_chainOk : ChainOk wornVolume := by
  constructor
  · exact ⟨Nat.zero_le _, fun p => Nat.zero_le _⟩
  · intro pre doc post h
    rcases pre with _ | ⟨d, pre⟩
    · cases h
      rfl
    · cases pre
      · cases h
      · cases h
  · rfl
  · intro doc h
    cases h
    exact ⟨4, 1, rfl, ⟨by decide, rfl⟩, le_refl _⟩
  · intro doc h _
    rw [List.mem_singleton.mp h]
    exact le_refl _

theorem wornVolume_countOk : CountOk wornVolume := by
  refine ⟨wornVolume_chainOk.ok, fun _ => by decide, ?_, fun p => ?_, fun p g hg => ?_⟩
  · intro doc h
    rw [List.mem_singleton.mp h]
    exact le_refl _
  · cases p with
    | ip => exact List.Pairwise.nil
    | dp => exact List.pairwise_singleton _ _
  · cases p with
    | ip => cases hg
    | dp =>
      rw [List.mem_singleton.mp hg]
      decide

/-- Behind its last value the counter starts again, and generations decrease. -/
theorem index_chain_wraps :
    ¬ ∀ (v₀ : Volume Unit) (ops : List (VolumeOp Unit)), ChainOk v₀ → CountOk v₀ →
      ∀ p, (generations ((runVolume v₀ ops).dev.medium p)).Pairwise (· ≤ ·) := by
  intro hall
  have hsorted := hall wornVolume [.writeIndex .dp false, .change (), .writeIndex .dp false]
    wornVolume_chainOk wornVolume_countOk .dp
  have hdp : generations ((runVolume wornVolume
      [.writeIndex .dp false, .change (), .writeIndex .dp false]).dev.medium .dp)
      = [2 ^ 32 - 2, 2 ^ 32 - 1, 0] := by decide
  rw [hdp] at hsorted
  revert hsorted
  decide

/-- Data on the data partition, a change and a sync. -/
def syncedVolume : Volume Unit :=
  (writeIndex .ip false (runVolume freshVolume [.writeData .dp [1, 2, 3, 4, 5] 1, .change ()])).2

theorem syncedVolume_dp : syncedVolume.dev.medium .dp
    = [.data [], .fm, .data [], .fm, .fm, .idx ⟨1, ⟨some .dp, 5⟩, ⟨none, 0⟩, ()⟩ 0 1, .fm,
      .data [1, 2, 3, 4], .data [5], .fm, .idx ⟨2, ⟨some .dp, 10⟩, ⟨some .dp, 5⟩, ()⟩ 0 1, .fm] := by
  rfl

theorem syncedVolume_index {b : ℕ} {doc : Index Unit}
    (h : IndexAt (syncedVolume.dev.medium .dp) b doc) :
    b = 4 ∧ doc = ⟨1, ⟨some .dp, 5⟩, ⟨none, 0⟩, ()⟩ ∨
    b = 9 ∧ doc = ⟨2, ⟨some .dp, 10⟩, ⟨some .dp, 5⟩, ()⟩ := by
  rcases h with ⟨n, h⟩
  have hlen := h.length_le
  have hfirst := h.first
  rw [syncedVolume_dp] at hlen hfirst
  have hb : b < 12 := by
    simp only [List.length_cons, List.length_nil] at hlen
    omega
  interval_cases b <;> simp at hfirst
  · exact Or.inl ⟨rfl, hfirst.1.symm⟩
  · exact Or.inr ⟨rfl, hfirst.1.symm⟩

theorem syncedVolume_noStray : NoStray syncedVolume := by
  intro b doc h
  rcases syncedVolume_index h with ⟨rfl, rfl⟩ | ⟨rfl, rfl⟩
  · exact ⟨List.mem_cons_self, rfl⟩
  · exact ⟨List.mem_cons_of_mem _ (List.mem_cons_of_mem _ List.mem_cons_self), rfl⟩

theorem syncedVolume_lastIndex : LastIndex (syncedVolume.dev.medium .dp)
    (some ⟨2, ⟨some .dp, 10⟩, ⟨some .dp, 5⟩, ()⟩) := by
  refine ⟨9, ⟨1, by decide, ?_⟩, ?_⟩
  · rw [syncedVolume_dp]
    rfl
  · intro b doc h
    rcases syncedVolume_index h with ⟨rfl, -⟩ | ⟨rfl, -⟩
    · decide
    · exact le_refl _

/-- The volume is consistent after the sync. -/
theorem index_chain_synced : ∃ doc : Index Unit,
    syncedVolume.written.getLast? = some doc ∧ LastIndex (syncedVolume.dev.medium .ip) (some doc) ∧
    checkPointers (fun _ => .error 0) (some doc)
      (some ⟨2, ⟨some .dp, 10⟩, ⟨some .dp, 5⟩, ()⟩) = 0 := by
  rcases (index_chain freshVolume_chainOk [.writeData .dp [1, 2, 3, 4, 5] 1, .change ()]).2.2.2
    .ip false (by decide) with ⟨pre, doc, b, hwritten, -, -, -, -, hip⟩
  rcases hip rfl with ⟨hlast, hcheck⟩
  have hwrap : NoWrap freshVolume [.writeData .dp [1, 2, 3, 4, 5] 1, .change ()] :=
    ⟨fun _ => by decide, fun _ => by decide, trivial⟩
  refine ⟨doc, ?_, hlast, ((hcheck syncedVolume_noStray _ syncedVolume_lastIndex).2
    freshVolume_countOk hwrap).2 _⟩
  have hw : syncedVolume.written = pre ++ [doc] := hwritten
  rw [hw, List.getLast?_concat]

end Chain

end Ltfs

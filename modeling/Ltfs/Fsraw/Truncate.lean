import Ltfs.Fsraw.FileTree
import Ltfs.Fsraw.ReadSpec

/-!
# Truncating a file

`ltfs_fsraw_truncate` walks the extent list from its tail, drops the extents behind the new end
and cuts the one that straddles it.

* `truncateLoop_spec` — the loop invariant.
* `addExtent_failed` — an extent that could not be added leaves the file alone.
* `SparseFile` — a file as its size and what is stored at each offset; nothing is stored in a
  hole. `FileOp.exec_shows` is the step lemma and `runOps_shows` the run lemma: any sequence
  of truncates and added extents acts on a sparse file.
* `truncate_preserves_content` — the result for the bytes a reader sees.
-/

namespace Ltfs

open Lib Segment ExtentInfo

/-! ## The function -/

/-- The `TAILQ_FOREACH_REVERSE_SAFE` loop: the entries still to visit, nearest first, and those
already passed. Returns the list and the running `new_realsize`. -/
def truncateLoop (ulength : ℕ) :
    List ExtentInfo → List ExtentInfo → ℕ → List ExtentInfo × ℕ
  | [], after, realsize => (after, realsize)
  | entry :: before, after, realsize =>
    if entry.fileoffset ≥ ulength ∨ ulength = 0 then
      -- this extent is full past the new EOF
      truncateLoop ulength before after (realsize - entry.bytecount)
    else if entry.fileoffsetEnd > ulength then
      truncateLoop ulength before
        ({ entry with bytecount := ulength - entry.fileoffset } :: after)
        (realsize - (entry.fileoffsetEnd - ulength))
    else
      (before.reverse ++ entry :: after, realsize)

/-- `ltfs_fsraw_truncate`; `lock` is the result of `ltfs_get_volume_lock`. -/
def fsrawTruncate (lock : ℤ) (length : ℕ) (d : Dentry) : ℤ × Dentry :=
  if lock < 0 then
    (lock, d)
  else if length < d.size ∧ d.extentlist ≠ [] then
    let r := truncateLoop length d.extentlist.reverse [] d.realsize
    (0, ⟨r.1, length, r.2⟩)
  else
    (0, { d with size := length })

/-- The extent list invariant of a file. -/
structure FileOk (d : Dentry) : Prop extends SizesOk d where
  ordered : Ordered d.extentlist

/-! ## The loop -/

variable {bs : ℕ}

/-- What stands left of an entry of an ordered list ends before it. -/
theorem end_le_of_before {entry : ExtentInfo} {before after : List ExtentInfo}
    (hord : Ordered (before.reverse ++ entry :: after)) {e : ExtentInfo} (he : e ∈ before) :
    e.fileoffsetEnd ≤ entry.fileoffset :=
  (ordered_append.mp hord).2.2 e (List.mem_reverse.mpr he) entry List.mem_cons_self

/-- Cutting a straddling entry keeps its bytes below the cut. -/
theorem extentMap_cut {entry : ExtentInfo} {n x : ℕ} (hn : entry.fileoffset ≤ n)
    (hle : n ≤ entry.fileoffsetEnd) (rest : List ExtentInfo) (hx : x < n) :
    extentMap bs ({ entry with bytecount := n - entry.fileoffset } :: rest) x
      = extentMap bs (entry :: rest) x := by
  simp only [fileoffsetEnd] at hle
  by_cases hc : entry.fileoffset ≤ x
  · rw [extentMap, segMap_cons_pos (covers_iff.mpr (by simp only; omega)), extentMap,
      segMap_cons_pos (covers_iff.mpr (by omega))]
    rfl
  · rw [extentMap, segMap_cons_neg (by rw [covers_iff]; simp only; omega), extentMap,
      segMap_cons_neg (by rw [covers_iff]; omega)]

/-- Loop invariant: the list around the cursor is in order, what is behind the cursor ends
within the new length, and `realsize` is the total. The induction follows the entries
still to visit. -/
theorem truncateLoop_spec {n : ℕ} (before : List ExtentInfo) :
    ∀ (after : List ExtentInfo) (realsize : ℕ),
      Ordered (before.reverse ++ after) →
      (∀ e ∈ after, e.fileoffsetEnd ≤ n) →
      realsize = byteTotal (before.reverse ++ after) →
      Ordered (truncateLoop n before after realsize).1 ∧
      (∀ e ∈ (truncateLoop n before after realsize).1, e.fileoffsetEnd ≤ n) ∧
      (truncateLoop n before after realsize).2
        = byteTotal (truncateLoop n before after realsize).1 ∧
      ∀ x < n, extentMap bs (truncateLoop n before after realsize).1 x
        = extentMap bs (before.reverse ++ after) x := by
  induction before with
  | nil =>
    intro after realsize hord hafter hrs
    exact ⟨hord, hafter, hrs, fun _ _ => rfl⟩
  | cons entry before ih =>
    intro after realsize hord hafter hrs
    simp only [List.reverse_cons, List.append_assoc, List.singleton_append] at hord hrs ⊢
    rw [byteTotal_append, byteTotal_cons] at hrs
    unfold truncateLoop
    split
    · -- the whole entry goes: none of its bytes is below the cut
      rename_i hpast
      have hord' : Ordered (before.reverse ++ after) := by
        simpa using ordered_replace hord ordered_nil (by simp)
      have hrs' : realsize - entry.bytecount = byteTotal (before.reverse ++ after) := by
        rw [byteTotal_append]
        omega
      obtain ⟨h1, h2, h3, h4⟩ := ih after _ hord' hafter hrs'
      refine ⟨h1, h2, h3, ?_⟩
      intro x hx
      have hnot : ¬ Covers entry x := by
        rw [covers_iff]
        omega
      rw [h4 x hx, extentMap, extentMap, segMap_append, segMap_append, segMap_cons_neg hnot]
    · rename_i hpast
      split
      · -- the entry straddles the cut
        rename_i hcut
        have hfo : entry.fileoffset ≤ n := by omega
        have hin : ∀ e ∈ [{ entry with bytecount := n - entry.fileoffset }],
            entry.fileoffset ≤ e.fileoffset ∧ e.fileoffsetEnd ≤ entry.fileoffsetEnd := by
          intro e he
          rw [List.mem_singleton.mp he]
          simp only [fileoffsetEnd] at hcut ⊢
          omega
        have hord' := ordered_replace hord (ordered_singleton _) hin
        simp only [List.singleton_append] at hord'
        have hafter' : ∀ e ∈ { entry with bytecount := n - entry.fileoffset } :: after,
            e.fileoffsetEnd ≤ n := by
          rw [List.forall_mem_cons]
          refine ⟨?_, hafter⟩
          simp only [fileoffsetEnd]
          omega
        have hrs' : realsize - (entry.fileoffsetEnd - n)
            = byteTotal (before.reverse ++
                { entry with bytecount := n - entry.fileoffset } :: after) := by
          rw [byteTotal_append, byteTotal_cons]
          simp only [fileoffsetEnd] at hcut ⊢
          omega
        obtain ⟨h1, h2, h3, h4⟩ := ih _ _ hord' hafter' hrs'
        refine ⟨h1, h2, h3, ?_⟩
        intro x hx
        have hcuts := @extentMap_cut bs _ _ _ hfo (le_of_lt hcut) after hx
        rw [h4 x hx]
        simp only [extentMap] at hcuts ⊢
        rw [segMap_append, segMap_append, hcuts]
      · -- the rest of the list lies below the cut
        rename_i hin
        refine ⟨hord, ?_, ?_, fun _ _ => rfl⟩
        · intro e he
          rcases List.mem_append.mp he with he | he
          · have := end_le_of_before hord (List.mem_reverse.mp he)
            omega
          · rcases List.mem_cons.mp he with rfl | he
            · omega
            · exact hafter e he
        · rw [hrs, byteTotal_append, byteTotal_cons]

/-- Nothing is stored at or behind the size of a file. -/
theorem FileOk.stored_lt {d : Dentry} (h : FileOk d) {x : ℕ} (hx : d.size ≤ x) :
    extentMap bs d.extentlist x = none :=
  segMap_eq_none_of_le fun e he => (h.within e he).trans hx

/-- What a successful truncate does. -/
theorem fsrawTruncate_spec {lock : ℤ} {n : ℕ} {d : Dentry} (hok : FileOk d)
    (hret : (fsrawTruncate lock n d).1 = 0) :
    FileOk (fsrawTruncate lock n d).2 ∧ (fsrawTruncate lock n d).2.size = n ∧
    ∀ x, extentMap bs (fsrawTruncate lock n d).2.extentlist x
      = if x < n then extentMap bs d.extentlist x else none := by
  unfold fsrawTruncate at hret ⊢
  split
  · rename_i hlock
    rw [if_pos hlock] at hret
    simp only at hret
    omega
  · split
    · -- the loop runs
      obtain ⟨h1, h2, h3, h4⟩ := @truncateLoop_spec bs n d.extentlist.reverse []
        d.realsize (by simpa using hok.ordered) (by simp) (by simpa using hok.realsize)
      refine ⟨⟨⟨h3, h2⟩, h1⟩, rfl, ?_⟩
      intro x
      split
      · rename_i hx
        simpa using h4 x hx
      · rename_i hx
        exact segMap_eq_none_of_le fun e he => (h2 e he).trans (not_lt.mp hx)
    · -- nothing to cut: the list is empty, or the file does not shrink
      rename_i hkeep
      have hwithin : ∀ e ∈ d.extentlist, e.fileoffsetEnd ≤ n := by
        intro e he
        have hle := hok.within e he
        have hne : d.extentlist ≠ [] := List.ne_nil_of_mem he
        have hnot : ¬ n < d.size := fun h => hkeep ⟨h, hne⟩
        omega
      refine ⟨⟨⟨hok.realsize, hwithin⟩, hok.ordered⟩, rfl, ?_⟩
      intro x
      split
      · rfl
      · rename_i hx
        exact segMap_eq_none_of_le fun e he => (hwithin e he).trans (not_lt.mp hx)

/-! ## Extents that cannot be added -/

/-- An update that changes an entry reaches into it from the left. -/
theorem updateEntry_changed {splitMem : Bool} {ext entry entry' : ExtentInfo}
    {split : List ExtentInfo} {realsize realsize' : ℕ}
    (h : updateEntry bs splitMem ext entry realsize = .kept entry' split realsize') :
    (entry' = entry ∧ split = []) ∨ entry.fileoffset < ext.fileoffsetEnd := by
  unfold updateEntry at h
  split at h
  · rename_i hov
    exact Or.inr hov.2
  · split at h
    · rename_i hov
      right
      have := hov.1
      simp only [fileoffsetEnd]
      omega
    · simp only [EntryUpdate.kept.injEq] at h
      exact Or.inl ⟨h.1.symm, h.2.1.symm⟩

/-- `malloc` fails only for an extent that ends inside of an entry. -/
theorem updateEntry_noMemory {splitMem : Bool} {ext entry : ExtentInfo} {realsize : ℕ}
    (h : updateEntry bs splitMem ext entry realsize = .noMemory) :
    ext.fileoffsetEnd < entry.fileoffsetEnd := by
  unfold updateEntry at h
  split at h
  · split at h <;> cases h
  · split at h
    · split at h
      · cases h
      · rename_i hshort
        exact not_le.mp hshort
    · cases h

/-- The loop succeeds when the extent ends behind everything that is still to visit. -/
theorem addExtentLoop_succeeds {splitMem : Bool} {ext : ExtentInfo} (before : List ExtentInfo) :
    ∀ (after : List ExtentInfo) (realsize : ℕ),
      (∀ e ∈ before, e.fileoffsetEnd ≤ ext.fileoffsetEnd) →
      (addExtentLoop bs splitMem ext before after realsize).1 = 0 := by
  induction before with
  | nil => exact fun _ _ _ => rfl
  | cons entry before ih =>
    intro after realsize hends
    rw [List.forall_mem_cons] at hends
    unfold addExtentLoop
    cases hup : updateEntry bs splitMem ext entry realsize with
    | noMemory => exact absurd (updateEntry_noMemory hup) (not_lt.mpr hends.1)
    | deleted realsize' => exact ih after realsize' hends.2
    | kept entry' split realsize' =>
      dsimp only
      split
      · rfl
      · split
        · rfl
        · exact ih _ realsize' hends.2

/-- A loop that fails has not changed the list: it stops at the entry it cannot split, and
the entries behind that one are out of reach of the extent. -/
theorem addExtentLoop_failed {splitMem : Bool} {ext : ExtentInfo} (before : List ExtentInfo) :
    ∀ (after : List ExtentInfo) (realsize : ℕ),
      Ordered (before.reverse ++ after) →
      (addExtentLoop bs splitMem ext before after realsize).1 ≠ 0 →
      (addExtentLoop bs splitMem ext before after realsize).1 < 0 ∧
      (addExtentLoop bs splitMem ext before after realsize).2.1 = before.reverse ++ after := by
  induction before with
  | nil => exact fun _ _ _ h => absurd rfl h
  | cons entry before ih =>
    intro after realsize hord hret
    simp only [List.reverse_cons, List.append_assoc, List.singleton_append] at hord ⊢
    have hbefore : entry.fileoffset < ext.fileoffsetEnd →
        ∀ e ∈ before, e.fileoffsetEnd ≤ ext.fileoffsetEnd :=
      fun hlt e he => (end_le_of_before hord he).trans (le_of_lt hlt)
    unfold addExtentLoop at hret ⊢
    cases hup : updateEntry bs splitMem ext entry realsize with
    | noMemory => exact ⟨(by decide : -ltfsNoMemory < 0), rfl⟩
    | deleted realsize' =>
      -- the extent covers the entry, so the rest of the loop cannot fail
      simp only [hup] at hret
      have hlt : entry.fileoffset < ext.fileoffsetEnd := by
        unfold updateEntry at hup
        split at hup
        · rename_i hov
          exact hov.2
        · split at hup
          · split at hup
            · cases hup
            · split at hup <;> cases hup
          · cases hup
      exact absurd (addExtentLoop_succeeds before after realsize' (hbefore hlt)) hret
    | kept entry' split realsize' =>
      simp only [hup] at hret ⊢
      by_cases hcont : Continues bs entry' ext
      · rw [if_pos hcont] at hret
        exact absurd rfl hret
      · by_cases hge : ext.fileoffset ≥ entry'.fileoffsetEnd
        · rw [if_neg hcont, if_pos hge] at hret
          exact absurd rfl hret
        · rw [if_neg hcont, if_neg hge] at hret ⊢
          rcases updateEntry_changed hup with ⟨rfl, rfl⟩ | hlt
          · exact ih (entry' :: after) realsize' hord hret
          · exact absurd (addExtentLoop_succeeds before _ realsize' (hbefore hlt)) hret

theorem addExtent_failed {mem : ExtentMem} {ext : ExtentInfo} {d : Dentry}
    (hord : Ordered d.extentlist) (hret : (addExtent bs mem ext d).1 ≠ 0) :
    (addExtent bs mem ext d).2 = d := by
  unfold addExtent at hret ⊢
  split
  · rfl
  · rename_i hcopy
    rw [if_neg hcopy] at hret
    dsimp only at hret ⊢
    have hloop : (addExtentLoop bs mem.splitEntry ext d.extentlist.reverse [] d.realsize).1 ≠ 0 := by
      intro h0
      rw [h0] at hret
      exact hret rfl
    obtain ⟨hneg, hlist⟩ := addExtentLoop_failed d.extentlist.reverse [] d.realsize
      (by simpa using hord) hloop
    rw [if_pos hneg]
    simp only [List.reverse_reverse, List.append_nil] at hlist
    rw [hlist]

/-! ## Sparse files -/

universe u

/-- A file with holes: its size and what is stored at each offset. -/
structure SparseFile (β : Type u) where
  size : ℕ
  stored : ℕ → Option β

namespace SparseFile

variable {β : Type u}

/-- Cut the file off at `n`, or let it grow to `n` with a hole. -/
def truncate (n : ℕ) (f : SparseFile β) : SparseFile β where
  size := n
  stored x := if x < n then f.stored x else none

/-- Store `g` over the file, which then ends at `stop` at least. -/
def put (stop : ℕ) (g : ℕ → Option β) (f : SparseFile β) : SparseFile β where
  size := max f.size stop
  stored := overlay f.stored g

end SparseFile

/-- The calls that change the extents of a file, with the results of what they call. -/
inductive FileOp where
  | truncate (lock : ℤ) (length : ℕ)
  | addExtent (mem : ExtentMem) (ext : ExtentInfo)

namespace FileOp

def exec (bs : ℕ) : FileOp → Dentry → ℤ × Dentry
  | truncate lock length, d => fsrawTruncate lock length d
  | addExtent mem ext, d => Ltfs.addExtent bs mem ext d

/-- What a call that succeeds does to a sparse file of tape places. -/
def act (bs : ℕ) : FileOp → SparseFile (Option Partition × ℕ × ℕ) →
    SparseFile (Option Partition × ℕ × ℕ)
  | truncate _ length, f => f.truncate length
  | addExtent _ ext, f => f.put ext.fileoffsetEnd (extentMap bs [ext])

/-- The call stores byte `x` anew. -/
def Stores : FileOp → ℕ → Prop
  | truncate _ _, _ => False
  | addExtent _ ext, x => Covers ext x

end FileOp

/-- A run of calls on one file. -/
def runOps (bs : ℕ) : List FileOp → Dentry → Dentry
  | [], d => d
  | op :: ops, d => runOps bs ops (op.exec bs d).2

/-- The calls of a run that succeed. -/
def doneOps (bs : ℕ) : List FileOp → Dentry → List FileOp
  | [], _ => []
  | op :: ops, d =>
    if (op.exec bs d).1 = 0 then op :: doneOps bs ops (op.exec bs d).2
    else doneOps bs ops (op.exec bs d).2

/-- The calls act on a sparse file one after another. -/
def actAll (bs : ℕ) (ops : List FileOp) (f : SparseFile (Option Partition × ℕ × ℕ)) :
    SparseFile (Option Partition × ℕ × ℕ) :=
  ops.foldl (fun f op => op.act bs f) f

/-- The sparse file a dentry stands for. -/
def Dentry.sparse (bs : ℕ) (d : Dentry) : SparseFile (Option Partition × ℕ × ℕ) where
  size := d.size
  stored := extentMap bs d.extentlist

/-- A failed truncate has no effect. -/
theorem fsrawTruncate_failed {lock : ℤ} {n : ℕ} {d : Dentry}
    (hret : (fsrawTruncate lock n d).1 ≠ 0) : (fsrawTruncate lock n d).2 = d := by
  unfold fsrawTruncate at hret ⊢
  split
  · rfl
  · rename_i hlock
    rw [if_neg hlock] at hret
    split at hret
    · exact absurd rfl hret
    · exact absurd rfl hret

/-- Step lemma, a call that fails. -/
theorem FileOp.exec_failed {op : FileOp} {d : Dentry} (hok : FileOk d)
    (hret : (op.exec bs d).1 ≠ 0) : (op.exec bs d).2 = d := by
  cases op with
  | truncate lock length => exact fsrawTruncate_failed hret
  | addExtent mem ext => exact addExtent_failed hok.ordered hret

/-- Adding an extent keeps the invariant. -/
theorem addExtent_fileOk (hbs : 0 < bs) {mem : ExtentMem} {ext : ExtentInfo} {d : Dentry}
    (hok : FileOk d) (hret : (addExtent bs mem ext d).1 = 0) :
    FileOk (addExtent bs mem ext d).2 := by
  obtain ⟨hord, hmap, hsize, hreal⟩ := addExtent_ordered hbs hok.ordered hret
  refine ⟨⟨hreal hok.realsize, ?_⟩, hord⟩
  rw [hsize, (addExtent_eq hret).2]
  refine addExtentLoop_within (Nat.le_max_right _ _) d.extentlist.reverse [] d.realsize ?_
  intro e he
  exact (hok.within e (by simpa using he)).trans (Nat.le_max_left _ _)

/-- Step lemma: a call that succeeds keeps the invariant and acts on the sparse file. -/
theorem FileOp.exec_shows (hbs : 0 < bs) {op : FileOp} {d : Dentry} (hok : FileOk d)
    (hret : (op.exec bs d).1 = 0) :
    FileOk (op.exec bs d).2 ∧ (op.exec bs d).2.sparse bs = op.act bs (d.sparse bs) := by
  cases op with
  | truncate lock length =>
    obtain ⟨hok', hsize, hmap⟩ := @fsrawTruncate_spec bs _ _ _ hok hret
    refine ⟨hok', ?_⟩
    simp only [Dentry.sparse, FileOp.exec, FileOp.act, SparseFile.truncate, hsize]
    congr 1
    exact funext hmap
  | addExtent mem ext =>
    obtain ⟨hord, hmap, hsize, hreal⟩ := addExtent_ordered hbs hok.ordered hret
    refine ⟨addExtent_fileOk hbs hok hret, ?_⟩
    simp only [Dentry.sparse, FileOp.exec, FileOp.act, SparseFile.put, hsize, hmap]

/-- Run lemma: whatever the calls return, the invariant holds after them, and the ones that
succeeded acted on the sparse file. -/
theorem runOps_shows (hbs : 0 < bs) (ops : List FileOp) : ∀ {d : Dentry}, FileOk d →
    FileOk (runOps bs ops d) ∧
    (runOps bs ops d).sparse bs = actAll bs (doneOps bs ops d) (d.sparse bs) := by
  induction ops with
  | nil => exact fun hok => ⟨hok, rfl⟩
  | cons op ops ih =>
    intro d hok
    by_cases hret : (op.exec bs d).1 = 0
    · obtain ⟨hok', hact⟩ := op.exec_shows hbs hok hret
      obtain ⟨h1, h2⟩ := ih hok'
      rw [runOps, doneOps, if_pos hret]
      refine ⟨h1, ?_⟩
      rw [h2, hact]
      rfl
    · -- the file is what it was
      rw [runOps, doneOps, if_neg hret, op.exec_failed hok hret]
      exact ih hok

/-- What was not stored and is not stored by any of the calls is still a hole. -/
theorem actAll_hole (ops : List FileOp) : ∀ {f : SparseFile (Option Partition × ℕ × ℕ)} {x : ℕ},
    f.stored x = none → (∀ op ∈ ops, ¬ op.Stores x) → (actAll bs ops f).stored x = none := by
  induction ops with
  | nil => exact fun h _ => h
  | cons op ops ih =>
    intro f x hhole hops
    rw [List.forall_mem_cons] at hops
    apply ih _ hops.2
    cases op with
    | truncate lock length =>
      simp only [FileOp.act, SparseFile.truncate, hhole, ite_self]
    | addExtent mem ext =>
      have hnot : extentMap bs [ext] x = none :=
        segMap_eq_none_iff.mpr (by simpa [FileOp.Stores] using hops.1)
      simp only [FileOp.act, SparseFile.put, overlay_apply, hnot, hhole, Option.none_or]

section Bytes

variable {T : Type} (doc : Index T → ℕ → List UInt8) (medium : Partition → List (Record T))

/-- The byte a reader of a sparse file sees. -/
def SparseFile.byte (f : SparseFile (Option Partition × ℕ × ℕ)) (x : ℕ) : UInt8 :=
  match f.stored x with
  | none => 0
  | some place => (tapeByte doc medium place).getD 0

theorem Dentry.byte_sparse (d : Dentry) (x : ℕ) :
    (d.sparse bs).byte doc medium x = fileByte doc medium bs d.extentlist x := rfl

/-- A truncate that succeeds cuts the content of the file to the new length or extends it with
zeros; the list keeps its invariant, then and after any later calls; and what is behind the
cut stays zero until an extent is added there. -/
theorem truncate_preserves_content (hbs : 0 < bs) {d : Dentry} (hok : FileOk d)
    (pre post : List FileOp) (lock : ℤ) (n : ℕ)
    (hret : (fsrawTruncate lock n (runOps bs pre d)).1 = 0) :
    let d₁ := runOps bs pre d
    let d₂ := (fsrawTruncate lock n d₁).2
    let d₃ := runOps bs post d₂
    (FileOk d₂ ∧ d₂.size = n ∧
      ∀ x < n, fileByte doc medium bs d₂.extentlist x
        = if x < d₁.size then fileByte doc medium bs d₁.extentlist x else 0) ∧
    (FileOk d₃ ∧ d₃.sparse bs = actAll bs (doneOps bs post d₂) ((d₁.sparse bs).truncate n) ∧
      ∀ x, n ≤ x → (∀ op ∈ doneOps bs post d₂, ¬ op.Stores x) →
        fileByte doc medium bs d₃.extentlist x = 0) := by
  intro d₁ d₂ d₃
  have hok₁ : FileOk d₁ := (runOps_shows hbs pre hok).1
  obtain ⟨hok₂, hsize, hmap⟩ := @fsrawTruncate_spec bs _ _ _ hok₁ hret
  obtain ⟨hok₃, hact⟩ := runOps_shows hbs post hok₂
  have hcut : d₂.sparse bs = (d₁.sparse bs).truncate n := by
    simp only [Dentry.sparse, SparseFile.truncate]
    congr 1
    exact funext hmap
  refine ⟨⟨hok₂, hsize, ?_⟩, hok₃, by rw [hact, hcut], ?_⟩
  · intro x hx
    have hx' := hmap x
    rw [if_pos hx] at hx'
    unfold fileByte
    rw [hx']
    by_cases hin : x < d₁.size
    · rw [if_pos hin]
    · -- behind the old end there was nothing
      rw [if_neg hin, hok₁.stored_lt (not_lt.mp hin)]
  · intro x hx hops
    have hhole : (d₂.sparse bs).stored x = none := by
      rw [hcut]
      exact if_neg (not_lt.mpr hx)
    have hstill := @actAll_hole bs (doneOps bs post d₂) _ _ hhole hops
    rw [← hact] at hstill
    rw [← Dentry.byte_sparse, SparseFile.byte, hstill]

end Bytes

theorem sparseFile_ok : FileOk sparseFile :=
  ⟨⟨by decide, by decide⟩, by simp [sparseFile, Ordered]⟩

/-- `truncate_preserves_content` on a file that is cut to three bytes and grows again: the bytes
behind the cut do not come back. -/
theorem truncate_preserves_content_sparseFile :
    let d₂ := (fsrawTruncate 0 3 sparseFile).2
    let d₃ := runOps 4 [.truncate 0 10] d₂
    d₂.size = 3 ∧ FileOk d₃ ∧
      fileByte (fun _ _ => []) sparseDevice.medium 4 d₃.extentlist 4 = 0 := by
  have h := truncate_preserves_content (fun _ _ => []) sparseDevice.medium (by decide : 0 < 4)
    sparseFile_ok [] [.truncate 0 10] 0 3 (by decide)
  refine ⟨h.1.2.1, h.2.1, h.2.2.2 4 (by decide) ?_⟩
  intro op hop
  rw [List.mem_singleton.mp hop]
  exact id

end Ltfs

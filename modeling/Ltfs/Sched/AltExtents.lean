import Ltfs.Sched.Lists
import Mathlib.Data.List.Basic

/-!
# The alternate extent list

Data written to the index partition is kept out of the file's own extent list until
`_unified_clear_alt_extentlist` adds the extents of the alternate list to it, in list order.
The list may hold extents that overlap: a later one then wins.

* `altMap` — the map that an alternate list stands for; `replay_spec` connects it to
  `addExtent`.
* `altLoop_split` — what `_unified_update_alt_extentlist` makes of the list, in one equation
  for the extents before and after the new one.
* `AltOk` — the invariant of these lists. An extent that overlaps an earlier one of the list
  is stored behind it on the tape; this is why bytes are never appended to an extent that a
  later one overlaps.
* `altBuilt_ok` — it holds for every list that updates and truncations build.
-/

namespace Ltfs.Sched

open Lib Lib.Segment ExtentInfo

/-! ## The map of an alternate list -/

/-- The extents of the list over one another in list order, the last one on top. -/
def altMap (bs : ℕ) (l : List ExtentInfo) : ℕ → Option (Option Partition × ℕ × ℕ) :=
  extentMap bs l.reverse

/-- The extents of the list added to a file, as `_unified_clear_alt_extentlist` does, when no
allocation fails. -/
def replay (bs : ℕ) (l : List ExtentInfo) (file : Dentry) : Dentry :=
  l.foldl (fun file ext => (addExtent bs ⟨true, true⟩ ext file).2) file

theorem altMap_cons (bs : ℕ) (e : ExtentInfo) (l : List ExtentInfo) :
    altMap bs (e :: l) = overlay (extentMap bs [e]) (altMap bs l) := by
  funext x
  simp only [altMap, extentMap, List.reverse_cons, segMap_append, overlay_apply]

theorem altMap_append (bs : ℕ) (l l' : List ExtentInfo) :
    altMap bs (l ++ l') = overlay (altMap bs l) (altMap bs l') := by
  funext x
  simp only [altMap, extentMap, List.reverse_append, segMap_append, overlay_apply]

/-- With memory enough the loop of `addExtent` does not fail. -/
theorem addExtentLoop_success {bs : ℕ} {ext : ExtentInfo} (before after : List ExtentInfo)
    (realsize : ℕ) : (addExtentLoop bs true ext before after realsize).1 = 0 := by
  induction before generalizing after realsize with
  | nil => rfl
  | cons entry before ih =>
    rw [addExtentLoop]
    split
    · -- only a split that gets no memory fails
      rename_i hmem
      simp only [updateEntry, if_true] at hmem
      split_ifs at hmem
    · exact ih _ _
    · split_ifs
      · rfl
      · rfl
      · exact ih _ _

theorem addExtent_success {bs : ℕ} {ext : ExtentInfo} (file : Dentry) :
    (addExtent bs ⟨true, true⟩ ext file).1 = 0 := by
  have hloop := @addExtentLoop_success bs ext file.extentlist.reverse [] file.realsize
  simp [addExtent, hloop]

/-- Adding the extents lays the map of the list over that of the file. -/
theorem replay_spec {bs : ℕ} (hbs : 0 < bs) {l : List ExtentInfo} (hl : ∀ e ∈ l, 0 < e.bytecount)
    {file : Dentry} (hfile : ExtentsOk file.extentlist) :
    ExtentsOk (replay bs l file).extentlist ∧
    extentMap bs (replay bs l file).extentlist
      = overlay (extentMap bs file.extentlist) (altMap bs l) := by
  induction l generalizing file with
  | nil =>
    refine ⟨hfile, ?_⟩
    funext x
    simp [replay, altMap, overlay, extentMap]
  | cons e l ih =>
    obtain ⟨hok, hmap, -, -⟩ := addExtent_spec hbs hfile (hl e List.mem_cons_self)
      (addExtent_success file)
    obtain ⟨hok', hmap'⟩ := ih (fun e' he' => hl e' (List.mem_cons_of_mem _ he')) hok
    refine ⟨hok', ?_⟩
    rw [altMap_cons, ← overlay_assoc, ← hmap]
    exact hmap'

/-! ## What an update does to the list -/

/-- An extent that begins before `new` loses the bytes that `new` overwrites up to its end. An
extent that goes on behind `new` is left whole. -/
def trimEnd (new e : ExtentInfo) : ExtentInfo :=
  if new.fileoffset < e.fileoffsetEnd ∧ e.fileoffsetEnd ≤ new.fileoffsetEnd then
    { e with bytecount := new.fileoffset - e.fileoffset }
  else
    e

/-- An extent that does not begin before `new` loses all the bytes that `new` overwrites. -/
def cutFront (bs : ℕ) (new e : ExtentInfo) : Option ExtentInfo :=
  if e.fileoffsetEnd ≤ new.fileoffsetEnd then none
  else if e.fileoffset < new.fileoffsetEnd then
    some (e.truncateFront bs (new.fileoffsetEnd - e.fileoffset))
  else some e

/-- `new` continues `entry` as the update tests it, without comparing the partitions. -/
def Joins (bs : ℕ) (entry new : ExtentInfo) : Prop :=
  entry.fileoffsetEnd = new.fileoffset ∧ new.byteoffset = 0 ∧ entry.byteoffsetEnd % bs = 0 ∧
    entry.start.block + entry.byteoffsetEnd / bs = new.start.block

/-- The extents that do not begin before `new`, once `new` has its place in the list. -/
theorem altLoop_after {bs : ℕ} {new : ExtentInfo} {hi : List ExtentInfo}
    (hpos : ∀ e ∈ hi, 0 < e.bytecount) (hsorted : hi.Pairwise fun a b => a.fileoffset ≤ b.fileoffset)
    (hhi : ∀ e ∈ hi, new.fileoffset ≤ e.fileoffset) :
    altLoop bs new true hi = hi.filterMap (cutFront bs new) := by
  induction hi with
  | nil => rfl
  | cons e hi ih =>
    obtain ⟨hnext, hsorted⟩ := List.pairwise_cons.mp hsorted
    have he := hhi e List.mem_cons_self
    have hcount := hpos e List.mem_cons_self
    have hend : e.fileoffsetEnd = e.fileoffset + e.bytecount := rfl
    have ih := ih (fun e' he' => hpos e' (List.mem_cons_of_mem _ he')) hsorted
      (fun e' he' => hhi e' (List.mem_cons_of_mem _ he'))
    unfold altLoop
    rw [if_neg (by omega), if_neg (by omega), if_neg (by omega)]
    simp only [Bool.not_true, Bool.false_and, Bool.or_false, Bool.false_eq_true, if_false,
      List.nil_append]
    by_cases hcovered : e.fileoffsetEnd ≤ new.fileoffsetEnd
    · rw [if_pos hcovered, ih, List.filterMap_cons_none]
      rw [cutFront, if_pos hcovered]
    · rw [if_neg hcovered]
      by_cases hcut : e.fileoffset < new.fileoffsetEnd
      · rw [if_pos hcut, ih, List.filterMap_cons_some]
        rw [cutFront, if_neg hcovered, if_pos hcut]
      · -- the loop ends here: all later extents lie past the end of `new` as well
        have hpast : ∀ e' ∈ e :: hi, cutFront bs new e' = some e' := by
          intro e' he'
          have hstart : e.fileoffset ≤ e'.fileoffset := by
            rcases List.mem_cons.mp he' with rfl | he'
            · exact le_rfl
            · exact hnext e' he'
          have hcount' := hpos e' he'
          have hend' : e'.fileoffsetEnd = e'.fileoffset + e'.bytecount := rfl
          rw [cutFront, if_neg (by omega), if_neg (by omega)]
        rw [if_neg hcut, List.filterMap_congr hpast, List.filterMap_some]

/-- `new` goes in front of the first extent that does not begin before it. -/
theorem altLoop_insert {bs : ℕ} {new : ExtentInfo} {hi : List ExtentInfo}
    (hpos : ∀ e ∈ hi, 0 < e.bytecount) (hsorted : hi.Pairwise fun a b => a.fileoffset ≤ b.fileoffset)
    (hhi : ∀ e ∈ hi, new.fileoffset ≤ e.fileoffset) :
    altLoop bs new false hi = new :: hi.filterMap (cutFront bs new) := by
  rw [← altLoop_after hpos hsorted hhi]
  cases hi with
  | nil => rfl
  | cons e hi =>
    have he := hhi e List.mem_cons_self
    unfold altLoop
    simp only [he, decide_true, Bool.not_false, Bool.not_true, Bool.true_and, Bool.false_and,
      Bool.or_true, Bool.or_false, if_true, Bool.false_eq_true, if_false, List.nil_append,
      List.singleton_append]
    split_ifs <;> rfl

/-- The extents that begin before `new`, when it joins none of them. -/
theorem altLoop_before {bs : ℕ} {new : ExtentInfo} {lo rest : List ExtentInfo}
    (hlo : ∀ e ∈ lo, e.fileoffset < new.fileoffset) (hapart : ∀ e ∈ lo, ¬Joins bs e new) :
    altLoop bs new false (lo ++ rest) = lo.map (trimEnd new) ++ altLoop bs new false rest := by
  induction lo with
  | nil => rfl
  | cons e lo ih =>
    have ih := ih (fun e' he' => hlo e' (List.mem_cons_of_mem _ he'))
      (fun e' he' => hapart e' (List.mem_cons_of_mem _ he'))
    have he := hlo e List.mem_cons_self
    have hjoins := hapart e List.mem_cons_self
    rw [List.cons_append, List.map_cons, List.cons_append, ← ih]
    conv => lhs; unfold altLoop
    simp only [show ¬new.fileoffset ≤ e.fileoffset by omega, decide_false, Bool.and_false,
      Bool.or_false, Bool.false_eq_true, if_false, List.nil_append]
    by_cases hbefore : e.fileoffsetEnd < new.fileoffset
    · rw [if_pos hbefore, trimEnd, if_neg (by omega)]
    · rw [if_neg hbefore]
      by_cases hends : e.fileoffsetEnd = new.fileoffset
      · rw [if_pos hends, if_neg (fun h => hjoins ⟨hends, h⟩), trimEnd, if_neg (by omega)]
      · rw [if_neg hends, if_pos he, trimEnd]
        by_cases hinside : e.fileoffsetEnd ≤ new.fileoffsetEnd
        · rw [if_pos hinside, if_pos ⟨by omega, hinside⟩]
        · rw [if_neg hinside, if_neg (fun h => hinside h.2)]

/-- `new` joins the first extent visited. -/
theorem altLoop_join {bs : ℕ} {new entry : ExtentInfo} {hi : List ExtentInfo}
    (hpos : ∀ e ∈ hi, 0 < e.bytecount) (hsorted : hi.Pairwise fun a b => a.fileoffset ≤ b.fileoffset)
    (hhi : ∀ e ∈ hi, new.fileoffset ≤ e.fileoffset) (hentry : entry.fileoffset < new.fileoffset)
    (hjoins : Joins bs entry new) :
    altLoop bs new false (entry :: hi) = entry.extend new :: hi.filterMap (cutFront bs new) := by
  obtain ⟨hends, htape⟩ := hjoins
  rw [← altLoop_after hpos hsorted hhi]
  conv => lhs; unfold altLoop
  rw [if_neg (by omega), if_pos hends, if_pos htape]
  simp [show ¬new.fileoffset ≤ entry.fileoffset by omega]

/-! ## The invariant of alternate lists -/

/-- The block behind the extent, or the extent's last block when that is not full. -/
def endBlock (bs : ℕ) (e : ExtentInfo) : ℕ := e.start.block + e.byteoffsetEnd / bs

/-- The last block that holds bytes of the extent. -/
def lastBlock (bs : ℕ) (e : ExtentInfo) : ℕ := e.start.block + (e.byteoffsetEnd - 1) / bs

/-- Of two extents in list order, the second does not begin before the end of the first, or it
is stored behind it. -/
def Stacked (bs : ℕ) (a b : ExtentInfo) : Prop :=
  a.fileoffsetEnd ≤ b.fileoffset ∨ endBlock bs a ≤ b.start.block

/-- An alternate list: extents of the index partition, sorted by file offset, of which a later
one that overlaps an earlier one is stored behind it. -/
structure AltOk (bs : ℕ) (l : List ExtentInfo) : Prop where
  sorted : l.Pairwise fun a b => a.fileoffset ≤ b.fileoffset
  pos : ∀ e ∈ l, 0 < e.bytecount
  ip : ∀ e ∈ l, e.start.partition = some .ip
  stacked : l.Pairwise (Stacked bs)

/-- An extent that was just written to the index partition, behind all that the list refers to. -/
structure Fresh (bs : ℕ) (new : ExtentInfo) (l : List ExtentInfo) : Prop where
  ip : new.start.partition = some .ip
  byteoffset : new.byteoffset = 0
  pos : 0 < new.bytecount
  behind : ∀ e ∈ l, lastBlock bs e < new.start.block

theorem endBlock_le_succ (bs : ℕ) (e : ExtentInfo) : endBlock bs e ≤ lastBlock bs e + 1 := by
  unfold endBlock lastBlock
  rcases Nat.eq_zero_or_pos bs with rfl | hbs
  · simp
  · have hle : e.byteoffsetEnd / bs ≤ (e.byteoffsetEnd - 1 + bs) / bs :=
      Nat.div_le_div_right (by omega)
    rw [Nat.add_div_right _ hbs] at hle
    omega

theorem Fresh.endBlock_le {bs : ℕ} {new e : ExtentInfo} {l : List ExtentInfo}
    (h : Fresh bs new l) (he : e ∈ l) : endBlock bs e ≤ new.start.block := by
  have := endBlock_le_succ bs e
  have := h.behind e he
  omega

theorem Fresh.start_lt {bs : ℕ} {new e : ExtentInfo} {l : List ExtentInfo}
    (h : Fresh bs new l) (he : e ∈ l) : e.start.block < new.start.block :=
  lt_of_le_of_lt (Nat.le_add_right _ _) (h.behind e he)

/-- Dropping a prefix does not move the end of an extent. -/
theorem endBlock_truncateFront {bs diff : ℕ} {e : ExtentInfo} (h : diff ≤ e.bytecount) :
    endBlock bs (e.truncateFront bs diff) = endBlock bs e := by
  unfold endBlock
  simp only [truncateFront, byteoffsetEnd]
  rcases Nat.eq_zero_or_pos bs with rfl | hbs
  · simp
  · have hdm := Nat.div_add_mod (diff + e.byteoffset) bs
    have hend : e.byteoffset + e.bytecount = (diff + e.byteoffset) % bs + (e.bytecount - diff)
        + bs * ((diff + e.byteoffset) / bs) := by omega
    rw [hend, Nat.add_mul_div_left _ _ hbs]
    omega

/-- What is left of an extent lies inside it, in the file and on the tape. -/
structure Piece (bs : ℕ) (e' e : ExtentInfo) : Prop where
  starts : e.fileoffset ≤ e'.fileoffset
  ends : e'.fileoffsetEnd ≤ e.fileoffsetEnd
  block : e.start.block ≤ e'.start.block
  endBlock : endBlock bs e' ≤ endBlock bs e
  partition : e'.start.partition = e.start.partition
  pos : 0 < e'.bytecount

theorem Piece.refl {bs : ℕ} {e : ExtentInfo} (hcount : 0 < e.bytecount) : Piece bs e e :=
  ⟨le_rfl, le_rfl, le_rfl, le_rfl, rfl, hcount⟩

theorem Stacked.pieces {bs : ℕ} {a a' b b' : ExtentInfo} (h : Stacked bs a b)
    (ha : Piece bs a' a) (hb : Piece bs b' b) : Stacked bs a' b' := by
  have := ha.ends
  have := ha.endBlock
  have := hb.starts
  have := hb.block
  rcases h with h | h
  · exact .inl (by omega)
  · exact .inr (by omega)

theorem trimEnd_piece {bs : ℕ} {new e : ExtentInfo} (hcount : 0 < e.bytecount)
    (he : e.fileoffset < new.fileoffset) :
    Piece bs (trimEnd new e) e ∧ (trimEnd new e).fileoffset = e.fileoffset := by
  unfold trimEnd
  split
  · rename_i h
    simp only [fileoffsetEnd] at h
    refine ⟨⟨le_rfl, ?_, le_rfl, ?_, rfl, ?_⟩, rfl⟩
    · simp only [fileoffsetEnd]
      omega
    · refine Nat.add_le_add_left (Nat.div_le_div_right ?_) _
      simp only [byteoffsetEnd]
      omega
    · simp only
      omega
  · exact ⟨Piece.refl hcount, rfl⟩

theorem cutFront_piece {bs : ℕ} {new e e' : ExtentInfo} (hcount : 0 < e.bytecount)
    (h : cutFront bs new e = some e') :
    Piece bs e' e ∧ e'.fileoffset = max e.fileoffset new.fileoffsetEnd := by
  unfold cutFront at h
  split_ifs at h with hcovered hcut
  · cases h
    simp only [fileoffsetEnd] at hcovered hcut
    refine ⟨⟨?_, ?_, ?_, ?_, rfl, ?_⟩, ?_⟩
    · simp [truncateFront]
    · simp only [truncateFront, fileoffsetEnd]
      omega
    · simp [truncateFront]
    · rw [endBlock_truncateFront]
      simp only [fileoffsetEnd]
      omega
    · simp only [truncateFront, fileoffsetEnd]
      omega
    · simp only [truncateFront, fileoffsetEnd]
      omega
  · cases h
    exact ⟨Piece.refl hcount, by omega⟩

/-- `new` can only join the last of the extents that begin before it: an extent behind that one
in the list overlaps it, and is then stored behind it. -/
theorem Stacked.not_joins {bs : ℕ} {new a b : ExtentInfo} (hab : Stacked bs a b)
    (hb : b.fileoffset < new.fileoffset) (hblock : b.start.block < new.start.block) :
    ¬Joins bs a new := by
  rintro ⟨hends, -, -, hblocks⟩
  unfold Stacked endBlock at hab
  omega

/-- The extents of a sorted list that begin before `x` come first. -/
theorem sorted_split {l : List ExtentInfo} (x : ℕ)
    (hsorted : l.Pairwise fun a b => a.fileoffset ≤ b.fileoffset) :
    ∃ lo hi, l = lo ++ hi ∧ (∀ e ∈ lo, e.fileoffset < x) ∧ ∀ e ∈ hi, x ≤ e.fileoffset := by
  induction l with
  | nil => exact ⟨[], [], rfl, by simp, by simp⟩
  | cons e l ih =>
    obtain ⟨hnext, hsorted⟩ := List.pairwise_cons.mp hsorted
    rcases Nat.lt_or_ge e.fileoffset x with hlt | hge
    · obtain ⟨lo, hi, rfl, hlo, hhi⟩ := ih hsorted
      exact ⟨e :: lo, hi, rfl, List.forall_mem_cons.mpr ⟨hlt, hlo⟩, hhi⟩
    · refine ⟨[], e :: l, rfl, by simp, List.forall_mem_cons.mpr ⟨hge, ?_⟩⟩
      intro e' he'
      exact le_trans hge (hnext e' he')

/-- What an update makes of an alternate list: `new` stands between the extents `lo` that begin
before it and the extents `hi` that do not, or its bytes are appended to the last extent of the
first kind. -/
theorem AltOk.update_cases {bs : ℕ} {new : ExtentInfo} {l : List ExtentInfo} (hl : AltOk bs l)
    (hnew : Fresh bs new l) :
    ∃ lo hi, (∀ e ∈ lo, e.fileoffset < new.fileoffset) ∧ (∀ e ∈ hi, new.fileoffset ≤ e.fileoffset) ∧
      (l = lo ++ hi ∧ altLoop bs new false l =
          lo.map (trimEnd new) ++ new :: hi.filterMap (cutFront bs new) ∨
        ∃ entry, l = lo ++ entry :: hi ∧ entry.fileoffset < new.fileoffset ∧ Joins bs entry new ∧
          altLoop bs new false l =
            lo.map (trimEnd new) ++ entry.extend new :: hi.filterMap (cutFront bs new)) := by
  obtain ⟨lo, hi, rfl, hlo, hhi⟩ := sorted_split new.fileoffset hl.sorted
  have hpos : ∀ e ∈ hi, 0 < e.bytecount := fun e he => hl.pos e (List.mem_append_right _ he)
  have hsorted := (List.pairwise_append.mp hl.sorted).2.1
  rcases List.eq_nil_or_concat lo with rfl | ⟨lo, entry, rfl⟩
  · exact ⟨[], hi, hlo, hhi, .inl ⟨rfl, altLoop_insert hpos hsorted hhi⟩⟩
  · rw [List.concat_eq_append] at *
    have hentry : entry.fileoffset < new.fileoffset := hlo entry (by simp)
    have hlo' : ∀ e ∈ lo, e.fileoffset < new.fileoffset := fun e he => hlo e (by simp [he])
    have hapart : ∀ e ∈ lo, ¬Joins bs e new := by
      intro e he
      have hstacked := (List.pairwise_append.mp (List.pairwise_append.mp hl.stacked).1).2.2
        e he entry (List.mem_singleton_self _)
      exact hstacked.not_joins hentry (hnew.start_lt (by simp))
    by_cases hjoins : Joins bs entry new
    · refine ⟨lo, hi, hlo', hhi, .inr ⟨entry, by simp, hentry, hjoins, ?_⟩⟩
      rw [List.append_assoc, List.singleton_append, altLoop_before hlo' hapart,
        altLoop_join hpos hsorted hhi hentry hjoins]
    · refine ⟨lo ++ [entry], hi, hlo, hhi, .inl ⟨rfl, ?_⟩⟩
      rw [altLoop_before hlo, altLoop_insert hpos hsorted hhi]
      intro e he
      rcases List.mem_append.mp he with he | he
      · exact hapart e he
      · rw [List.mem_singleton.mp he]
        exact hjoins

/-! ## The invariant is kept -/

/-- The new extent in the middle: what stands before it begins before it and is stored before it,
what stands behind it begins at its end. -/
theorem AltOk.assemble {bs : ℕ} {new mid : ExtentInfo} {lo hi : List ExtentInfo}
    (hok : AltOk bs (lo ++ hi)) (hlo : ∀ e ∈ lo, e.fileoffset < new.fileoffset)
    (hmid : mid.start.partition = some .ip ∧ 0 < mid.bytecount)
    (hends : mid.fileoffsetEnd = new.fileoffsetEnd)
    (hbefore : ∀ e ∈ lo, e.fileoffset ≤ mid.fileoffset ∧ Stacked bs e mid) :
    AltOk bs (lo.map (trimEnd new) ++ mid :: hi.filterMap (cutFront bs new)) := by
  have hlow : ∀ e ∈ lo, Piece bs (trimEnd new e) e ∧ (trimEnd new e).fileoffset = e.fileoffset :=
    fun e he => trimEnd_piece (hok.pos e (List.mem_append_left _ he)) (hlo e he)
  have hhigh : ∀ e ∈ hi, ∀ e', cutFront bs new e = some e' →
      Piece bs e' e ∧ e'.fileoffset = max e.fileoffset new.fileoffsetEnd :=
    fun e he e' => cutFront_piece (hok.pos e (List.mem_append_right _ he))
  obtain ⟨hslo, hshi, hscross⟩ := List.pairwise_append.mp hok.sorted
  obtain ⟨htlo, hthi, htcross⟩ := List.pairwise_append.mp hok.stacked
  have hmidend : mid.fileoffsetEnd = mid.fileoffset + mid.bytecount := rfl
  constructor
  · rw [List.pairwise_append, List.pairwise_cons, List.pairwise_map, List.pairwise_filterMap]
    refine ⟨?_, ⟨?_, ?_⟩, ?_⟩
    · refine hslo.imp_of_mem fun {a b} ha hb hab => ?_
      rw [(hlow a ha).2, (hlow b hb).2]
      exact hab
    · intro e' he'
      obtain ⟨e, he, hcut⟩ := List.mem_filterMap.mp he'
      have := (hhigh e he e' hcut).2
      omega
    · refine hshi.imp_of_mem fun {a b} ha hb hab a' ha' b' hb' => ?_
      have := (hhigh a ha a' ha').2
      have := (hhigh b hb b' hb').2
      omega
    · intro a' ha' b' hb'
      obtain ⟨a, ha, rfl⟩ := List.mem_map.mp ha'
      rw [(hlow a ha).2]
      rcases List.mem_cons.mp hb' with rfl | hb'
      · exact (hbefore a ha).1
      · obtain ⟨b, hb, hcut⟩ := List.mem_filterMap.mp hb'
        have := (hhigh b hb b' hcut).2
        have := hscross a ha b hb
        omega
  · intro e' he'
    rcases List.mem_append.mp he' with he' | he'
    · obtain ⟨e, he, rfl⟩ := List.mem_map.mp he'
      exact (hlow e he).1.pos
    · rcases List.mem_cons.mp he' with rfl | he'
      · exact hmid.2
      · obtain ⟨e, he, hcut⟩ := List.mem_filterMap.mp he'
        exact (hhigh e he e' hcut).1.pos
  · intro e' he'
    rcases List.mem_append.mp he' with he' | he'
    · obtain ⟨e, he, rfl⟩ := List.mem_map.mp he'
      rw [(hlow e he).1.partition]
      exact hok.ip e (List.mem_append_left _ he)
    · rcases List.mem_cons.mp he' with rfl | he'
      · exact hmid.1
      · obtain ⟨e, he, hcut⟩ := List.mem_filterMap.mp he'
        rw [(hhigh e he e' hcut).1.partition]
        exact hok.ip e (List.mem_append_right _ he)
  · rw [List.pairwise_append, List.pairwise_cons, List.pairwise_map, List.pairwise_filterMap]
    refine ⟨?_, ⟨?_, ?_⟩, ?_⟩
    · exact htlo.imp_of_mem fun {a b} ha hb hab => hab.pieces (hlow a ha).1 (hlow b hb).1
    · intro e' he'
      obtain ⟨e, he, hcut⟩ := List.mem_filterMap.mp he'
      have := (hhigh e he e' hcut).2
      exact .inl (by omega)
    · exact hthi.imp_of_mem fun {a b} ha hb hab a' ha' b' hb' =>
        hab.pieces (hhigh a ha a' ha').1 (hhigh b hb b' hb').1
    · intro a' ha' b' hb'
      obtain ⟨a, ha, rfl⟩ := List.mem_map.mp ha'
      rcases List.mem_cons.mp hb' with rfl | hb'
      · exact (hbefore a ha).2.pieces (hlow a ha).1 (Piece.refl hmid.2)
      · obtain ⟨b, hb, hcut⟩ := List.mem_filterMap.mp hb'
        exact (htcross a ha b hb).pieces (hlow a ha).1 (hhigh b hb b' hcut).1

/-- A part of a sorted list without one of its extents. -/
theorem AltOk.sublist {bs : ℕ} {l l' : List ExtentInfo} (h : AltOk bs l) (hsub : l'.Sublist l) :
    AltOk bs l' :=
  ⟨h.sorted.sublist hsub, fun e he => h.pos e (hsub.subset he),
    fun e he => h.ip e (hsub.subset he), h.stacked.sublist hsub⟩

theorem altLoop_ok {bs : ℕ} {new : ExtentInfo} {l : List ExtentInfo} (hl : AltOk bs l)
    (hnew : Fresh bs new l) : AltOk bs (altLoop bs new false l) := by
  obtain ⟨lo, hi, hlo, hhi, ⟨rfl, heq⟩ | ⟨entry, rfl, hentry, hjoins, heq⟩⟩ :=
    hl.update_cases hnew
  · rw [heq]
    refine hl.assemble hlo ⟨hnew.ip, hnew.pos⟩ rfl fun e he => ⟨(hlo e he).le, .inr ?_⟩
    exact hnew.endBlock_le (List.mem_append_left _ he)
  · rw [heq]
    have hmem : entry ∈ lo ++ entry :: hi := by simp
    have hsub : (lo ++ hi).Sublist (lo ++ entry :: hi) :=
      List.Sublist.append_left (List.sublist_cons_self _ _) _
    have hends : (entry.extend new).fileoffsetEnd = new.fileoffsetEnd := by
      have := hjoins.1
      simp only [extend, fileoffsetEnd] at *
      omega
    refine (hl.sublist hsub).assemble hlo ⟨hl.ip entry hmem, ?_⟩ hends fun e he => ?_
    · have := hl.pos entry hmem
      simp only [extend]
      omega
    · -- the extended extent begins where it did, in the file and on the tape
      exact ⟨(List.pairwise_append.mp hl.sorted).2.2 e he entry (by simp),
        (List.pairwise_append.mp hl.stacked).2.2 e he entry (by simp)⟩

/-! ## The map after an update -/

theorem extentMap_single (bs : ℕ) (e : ExtentInfo) (x : ℕ) :
    extentMap bs [e] x = if Covers e x then some (place bs e x) else none := by
  rw [extentMap, segMap_cons, segMap_nil]

/-- Outside `new` the extents before it keep their bytes. -/
theorem altMap_trimEnd {bs x : ℕ} {new : ExtentInfo} (lo : List ExtentInfo) (hx : ¬Covers new x) :
    altMap bs (lo.map (trimEnd new)) x = altMap bs lo x := by
  induction lo with
  | nil => rfl
  | cons e lo ih =>
    have hone : extentMap bs [trimEnd new e] x = extentMap bs [e] x := by
      rw [extentMap_single, extentMap_single]
      unfold trimEnd
      split
      · rename_i h
        have hiff : Covers { e with bytecount := new.fileoffset - e.fileoffset } x ↔
            Covers e x := by
          simp only [covers_iff, fileoffsetEnd] at *
          omega
        simp only [hiff]
        rfl
      · rfl
    rw [List.map_cons, altMap_cons, altMap_cons, overlay_apply, overlay_apply, ih, hone]

/-- The extents behind `new` keep exactly the bytes outside it. -/
theorem altMap_cutFront {bs x : ℕ} {new : ExtentInfo} {hi : List ExtentInfo}
    (hhi : ∀ e ∈ hi, new.fileoffset ≤ e.fileoffset) :
    altMap bs (hi.filterMap (cutFront bs new)) x =
      if Covers new x then none else altMap bs hi x := by
  induction hi with
  | nil => simp [altMap, extentMap]
  | cons e hi ih =>
    have ih := ih fun e' he' => hhi e' (List.mem_cons_of_mem _ he')
    have he := hhi e List.mem_cons_self
    rw [altMap_cons, overlay_apply, extentMap_single]
    simp only [covers_iff] at ih ⊢
    by_cases hcovered : e.fileoffsetEnd ≤ new.fileoffsetEnd
    · -- all bytes of the extent are overwritten
      rw [List.filterMap_cons_none (by rw [cutFront, if_pos hcovered]), ih]
      simp only [fileoffsetEnd] at hcovered
      by_cases hx : new.fileoffset ≤ x ∧ x < new.fileoffset + new.bytecount
      · rw [if_pos hx, if_pos hx]
      · rw [if_neg hx, if_neg hx, if_neg (by omega), Option.or_none]
    · by_cases hcut : e.fileoffset < new.fileoffsetEnd
      · rw [List.filterMap_cons_some (by rw [cutFront, if_neg hcovered, if_pos hcut]), altMap_cons,
          overlay_apply, ih, extentMap_single]
        -- of the extent the bytes behind `new` are left
        have hleft : Covers (e.truncateFront bs (new.fileoffsetEnd - e.fileoffset)) x ↔
            new.fileoffset + new.bytecount ≤ x ∧ x < e.fileoffset + e.bytecount := by
          simp only [covers_iff, truncateFront, fileoffsetEnd] at *
          omega
        simp only [hleft]
        simp only [fileoffsetEnd] at *
        by_cases hx : new.fileoffset ≤ x ∧ x < new.fileoffset + new.bytecount
        · rw [if_pos hx, if_pos hx, if_neg (by omega), Option.or_none]
        · rw [if_neg hx, if_neg hx]
          by_cases hold : e.fileoffset ≤ x ∧ x < e.fileoffset + e.bytecount
          · rw [if_pos hold, if_pos (by omega), place_truncateFront e (by omega)]
          · rw [if_neg hold, if_neg (by omega)]
      · rw [List.filterMap_cons_some (by rw [cutFront, if_neg hcovered, if_neg hcut]), altMap_cons,
          overlay_apply, ih, extentMap_single]
        simp only [covers_iff, fileoffsetEnd] at *
        by_cases hx : new.fileoffset ≤ x ∧ x < new.fileoffset + new.bytecount
        · rw [if_pos hx, if_pos hx, if_neg (by omega), Option.or_none]
        · rw [if_neg hx, if_neg hx]

theorem altMap_altLoop {bs : ℕ} (hbs : 0 < bs) {new : ExtentInfo} {l : List ExtentInfo}
    (hl : AltOk bs l) (hnew : Fresh bs new l) :
    altMap bs (altLoop bs new false l) = overlay (altMap bs l) (extentMap bs [new]) := by
  obtain ⟨lo, hi, hlo, hhi, ⟨rfl, heq⟩ | ⟨entry, rfl, hentry, hjoins, heq⟩⟩ :=
    hl.update_cases hnew
  · funext x
    rw [heq, altMap_append, altMap_cons, altMap_append]
    simp only [overlay_apply, altMap_cutFront hhi, extentMap_single]
    by_cases hx : Covers new x
    · simp [hx]
    · simp [hx, altMap_trimEnd lo hx]
  · have hcontinues : Continues bs entry new := by
      obtain ⟨hends, hbyteoffset, hmod, hblock⟩ := hjoins
      refine ⟨hends.symm, ?_, hmod, hblock, hbyteoffset⟩
      rw [hnew.ip, hl.ip entry (by simp)]
    funext x
    rw [heq, altMap_append, altMap_cons, altMap_append, altMap_cons, extentMap_extend hbs hcontinues]
    have hpair : extentMap bs [entry, new] x = (extentMap bs [entry] x).or (extentMap bs [new] x) := by
      rw [← List.singleton_append, extentMap, segMap_append]
      rfl
    simp only [overlay_apply, altMap_cutFront hhi, hpair, extentMap_single]
    by_cases hx : Covers new x
    · -- the entry ends where `new` begins
      have hnot : ¬Covers entry x := by
        have := hjoins.1
        simp only [covers_iff, fileoffsetEnd] at *
        omega
      simp [hx, hnot]
    · simp [hx, altMap_trimEnd lo hx]

/-! ## Every alternate list of a run -/

/-- The alternate lists that the scheduler builds: `_unified_update_alt_extentlist` adds extents
that were just written, `unified_truncate` cuts the list to the new length. -/
inductive AltBuilt (bs : ℕ) : List ExtentInfo → Prop
  | empty : AltBuilt bs []
  | update {l : List ExtentInfo} {new : ExtentInfo} (built : AltBuilt bs l)
      (fresh : Fresh bs new l) : AltBuilt bs (altLoop bs new false l)
  | truncate {l : List ExtentInfo} (built : AltBuilt bs l) (length : ℕ) :
      AltBuilt bs (l.filterMap (truncateExtent length))

theorem truncateExtent_piece {bs length : ℕ} {e e' : ExtentInfo} (hcount : 0 < e.bytecount)
    (h : truncateExtent length e = some e') : Piece bs e' e ∧ e'.fileoffset = e.fileoffset := by
  unfold truncateExtent at h
  split_ifs at h with hgone hcut
  · cases h
    simp only [fileoffsetEnd] at hcut
    refine ⟨⟨le_rfl, ?_, le_rfl, ?_, rfl, ?_⟩, rfl⟩
    · simp only [fileoffsetEnd]
      omega
    · refine Nat.add_le_add_left (Nat.div_le_div_right ?_) _
      simp only [byteoffsetEnd]
      omega
    · simp only
      omega
  · cases h
    exact ⟨Piece.refl hcount, rfl⟩

theorem altBuilt_ok {bs : ℕ} {l : List ExtentInfo} (h : AltBuilt bs l) : AltOk bs l := by
  induction h with
  | empty => exact ⟨List.Pairwise.nil, by simp, by simp, List.Pairwise.nil⟩
  | update _ fresh ih => exact altLoop_ok ih fresh
  | @truncate l built length ih =>
    have hpiece : ∀ e ∈ l, ∀ e', truncateExtent length e = some e' →
        Piece bs e' e ∧ e'.fileoffset = e.fileoffset :=
      fun e he e' => truncateExtent_piece (ih.pos e he)
    constructor
    · rw [List.pairwise_filterMap]
      refine ih.sorted.imp_of_mem fun {a b} ha hb hab a' ha' b' hb' => ?_
      rw [(hpiece a ha a' ha').2, (hpiece b hb b' hb').2]
      exact hab
    · intro e' he'
      obtain ⟨e, he, hcut⟩ := List.mem_filterMap.mp he'
      exact (hpiece e he e' hcut).1.pos
    · intro e' he'
      obtain ⟨e, he, hcut⟩ := List.mem_filterMap.mp he'
      rw [(hpiece e he e' hcut).1.partition]
      exact ih.ip e he
    · rw [List.pairwise_filterMap]
      exact ih.stacked.imp_of_mem fun {a b} ha hb hab a' ha' b' hb' =>
        hab.pieces (hpiece a ha a' ha').1 (hpiece b hb b' hb').1

/-- The updated list of the scheduler is the one of `altLoop`, also for an empty list. -/
theorem updateAltExtentlist_list {V : Type} (L : Libltfs V) (new : ExtentInfo) (d : ℕ) (c : Ctx V) :
    (updateAltExtentlist L new d c).dpr.altExtentlist =
      altLoop (L.blocksize c.u.vol) new false c.dpr.altExtentlist := by
  unfold updateAltExtentlist
  cases hl : c.dpr.altExtentlist with
  | nil => rfl
  | cons e l => rfl

/-- Every alternate list that updates and truncations build is in order (`AltOk`), and an update of
such a list with an extent that was just written lays its bytes over whatever file the list is
added to; the list stays in order. -/
theorem update_alt_extentlist_overlay {V : Type} (L : Libltfs V) (new : ExtentInfo) (d : ℕ)
    (c : Ctx V) (hbs : 0 < L.blocksize c.u.vol) :
    (AltBuilt (L.blocksize c.u.vol) c.dpr.altExtentlist →
      AltOk (L.blocksize c.u.vol) c.dpr.altExtentlist) ∧
    (AltOk (L.blocksize c.u.vol) c.dpr.altExtentlist →
      Fresh (L.blocksize c.u.vol) new c.dpr.altExtentlist →
      AltOk (L.blocksize c.u.vol) (updateAltExtentlist L new d c).dpr.altExtentlist ∧
      ∀ file : Dentry, ExtentsOk file.extentlist →
        extentMap (L.blocksize c.u.vol)
            (replay (L.blocksize c.u.vol) (updateAltExtentlist L new d c).dpr.altExtentlist
              file).extentlist
          = overlay (extentMap (L.blocksize c.u.vol)
              (replay (L.blocksize c.u.vol) c.dpr.altExtentlist file).extentlist)
            (extentMap (L.blocksize c.u.vol) [new])) := by
  refine ⟨altBuilt_ok, fun hl hnew => ?_⟩
  rw [updateAltExtentlist_list]
  have hok := altLoop_ok hl hnew
  refine ⟨hok, fun file hfile => ?_⟩
  rw [(replay_spec hbs hok.pos hfile).2, (replay_spec hbs hl.pos hfile).2,
    altMap_altLoop hbs hl hnew, overlay_assoc]

/-- Ten bytes appended to an extent, which a second one overlaps that is kept whole. -/
theorem update_alt_extentlist_overlay_joined :
    let l : List ExtentInfo := [⟨⟨some .ip, 5⟩, 0, 40, 0⟩, ⟨⟨some .ip, 9⟩, 0, 10, 5⟩]
    let L := { idleLibltfs with blocksize := fun _ => 10 }
    let c : Ctx Unit := ⟨Unified.init 16 64 (), ⟨0, true, 0, 0, 0, 0, [], l⟩⟩
    let new : ExtentInfo := ⟨⟨some .ip, 10⟩, 0, 10, 15⟩
    (updateAltExtentlist L new 0 c).dpr.altExtentlist =
      [⟨⟨some .ip, 5⟩, 0, 40, 0⟩, ⟨⟨some .ip, 9⟩, 0, 20, 5⟩] ∧
    AltOk 10 (updateAltExtentlist L new 0 c).dpr.altExtentlist := by
  intro l L c new
  refine ⟨by decide, ((update_alt_extentlist_overlay L new 0 c (by decide)).2 ?_ ?_).1⟩
  · constructor
    · decide
    · decide
    · decide
    · show l.Pairwise fun a b => a.fileoffsetEnd ≤ b.fileoffset ∨ endBlock 10 a ≤ b.start.block
      decide
  · constructor
    · rfl
    · rfl
    · decide
    · show ∀ e ∈ l, lastBlock 10 e < 10
      decide

/-- In an arbitrary sorted list the second extent may be the older one. Bytes appended to the
first are then hidden by it. -/
theorem alt_extentlist_overlay_fails :
    ¬∀ (l : List ExtentInfo) (new : ExtentInfo) (file : Dentry),
      (l.Pairwise fun a b => a.fileoffset ≤ b.fileoffset) →
      (∀ e ∈ l, 0 < e.bytecount ∧ e.start.partition = some .ip) → Fresh 10 new l →
      ExtentsOk file.extentlist →
      extentMap 10 (replay 10 (altLoop 10 new false l) file).extentlist
        = overlay (extentMap 10 (replay 10 l file).extentlist) (extentMap 10 [new]) := by
  intro h
  have hbyte := congrFun (h [⟨⟨some .ip, 5⟩, 0, 10, 0⟩, ⟨⟨some .ip, 1⟩, 0, 25, 5⟩]
    ⟨⟨some .ip, 6⟩, 0, 10, 10⟩ ⟨[], 0, 0⟩ (by decide) (by decide)
    ⟨rfl, rfl, by decide, by decide⟩ ExtentsOk.nil) 12
  revert hbyte
  decide

end Ltfs.Sched

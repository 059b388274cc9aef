import Ltfs.MountSpec

/-!
# The mount of a consistent medium

Both partitions end in an index, and that of the index partition names the other one as its
predecessor. A full check then finds both of them and has nothing to do.

* `EndsInDoc` — a partition that ends in an index as it is written, with pointers that are accepted.
* `MediumReader.ReadsOn` — a parser that comes to the file mark behind a document.
* `lookFor_last` — the search finds that index, with nothing behind it.
* `ltfsMount_untouched` — the mount leaves the medium as it is.
-/

namespace Ltfs.CheckMedium

open XmlTape (SoughtIndex indexEnd EndSeen)

section Document

variable {T : Type}

/-! ## The end of a document -/

/-- Full blocks and a last one, closed by a file mark. -/
def closedBlocks (blocks : List (List UInt8)) (last : List UInt8) : List XmlTape.Record :=
  blocks.map .block ++ [.block last, .filemark]

theorem indexEnd_closedBlocks {bs : ℕ} (last : List UInt8) : ∀ (blocks : List (List UInt8))
    (pos len : ℕ), (∀ b ∈ blocks, bs ≤ b.length) → blocks.length * bs < len →
    indexEnd bs pos (closedBlocks blocks last) len = pos + blocks.length + 2 := by
  intro blocks
  induction blocks with
  | nil =>
    intro pos len _ hlen
    have hpos : len ≠ 0 := by
      rw [List.length_nil, Nat.zero_mul] at hlen
      omega
    show (if len = 0 then pos else pos + 1 + 1) = pos + 0 + 2
    rw [if_neg hpos]
  | cons b rest ih =>
    intro pos len hfull hlen
    rw [List.length_cons, Nat.succ_mul] at hlen
    have hpos : len ≠ 0 := by omega
    have hmin : min b.length bs = bs := min_eq_right (hfull b (List.mem_cons_self ..))
    show (if len = 0 then pos else indexEnd bs (pos + 1) (closedBlocks rest last)
      (len - min b.length bs)) = pos + (rest.length + 1) + 2
    rw [if_neg hpos, hmin, ih (pos + 1) (len - bs) (fun b' hb' => hfull b' (List.mem_cons_of_mem _ hb'))
      (by omega)]
    omega

/-- Who asks for more than the blocks hold meets the file mark. -/
theorem endSeen_closedBlocks {bs : ℕ} (last : List UInt8) : ∀ (blocks : List (List UInt8))
    (len n : ℕ), (∀ b ∈ blocks, bs ≤ b.length) → blocks.length * bs < len →
    (blocks.length + 1) * bs < n → EndSeen bs (closedBlocks blocks last) len n := by
  intro blocks
  induction blocks with
  | nil =>
    intro len n _ hlen hn
    rw [List.length_nil] at hlen hn
    have hlen' : len ≠ 0 := by omega
    show if len = 0 then n = 0 else 0 < n ∧ if last.length < bs then _ else 0 < n - bs
    rw [if_neg hlen']
    refine ⟨by omega, ?_⟩
    split
    · intro bytes h
      cases h
    · omega
  | cons b rest ih =>
    intro len n hfull hlen hn
    rw [List.length_cons, Nat.succ_mul] at hlen hn
    have hlen' : len ≠ 0 := by omega
    have hlarge := hfull b (List.mem_cons_self ..)
    rw [Nat.succ_mul] at hn
    show if len = 0 then n = 0 else 0 < n ∧ if b.length < bs then _ else
      EndSeen bs (closedBlocks rest last) (len - bs) (n - bs)
    rw [if_neg hlen', if_neg (not_lt.mpr hlarge)]
    refine ⟨by omega, ih _ _ (fun b' hb' => hfull b' (List.mem_cons_of_mem _ hb')) (by omega) ?_⟩
    rw [Nat.succ_mul]
    omega

variable (M : MediumReader T)

/-- A parser that asks for more than the blocks of a document hold, and so comes to the file mark
behind them. -/
def MediumReader.ReadsOn : Prop :=
  ∀ doc n, 0 < n → n * M.blocksize < (M.parse (document doc n)).requests.sum

theorem image_last {r : Record T} (hr : r.isFm = false) : ∃ bytes, M.image r = .block bytes := by
  cases himage : M.image r with
  | block bytes => exact ⟨bytes, rfl⟩
  | filemark =>
    rw [(M.image_filemark r).mp himage] at hr
    cases hr

theorem image_full : ∀ l : List (Record T),
    (∀ r ∈ l, ∃ bytes, M.image r = .block bytes ∧ M.blocksize ≤ bytes.length) →
    ∃ blocks : List (List UInt8), l.map M.image = blocks.map .block ∧ blocks.length = l.length ∧
      ∀ b ∈ blocks, M.blocksize ≤ b.length := by
  intro l
  induction l with
  | nil => exact fun _ => ⟨[], rfl, rfl, fun b hb => absurd hb List.not_mem_nil⟩
  | cons r rest ih =>
    intro h
    obtain ⟨bytes, himage, hlarge⟩ := h r (List.mem_cons_self ..)
    obtain ⟨blocks, hmap, hlength, hfull⟩ := ih fun r' hr' => h r' (List.mem_cons_of_mem _ hr')
    refine ⟨bytes :: blocks, ?_, congrArg (· + 1) hlength, ?_⟩
    · rw [List.map_cons, List.map_cons, himage, hmap]
    · intro b hb
      rcases List.mem_cons.mp hb with rfl | hb
      · exact hlarge
      · exact hfull b hb

/-- A document and the file mark behind it, as the reader sees them. -/
theorem image_closed (doc : Index T) {n : ℕ} (hn : 0 < n) : ∃ blocks last,
    (document doc n ++ [Record.fm]).map M.image = closedBlocks blocks last ∧
    blocks.length + 1 = n ∧ ∀ b ∈ blocks, M.blocksize ≤ b.length := by
  obtain ⟨n, rfl⟩ : ∃ k, n = k + 1 := ⟨n - 1, by omega⟩
  obtain ⟨last, hlast⟩ := image_last M (r := .idx doc n (n + 1)) rfl
  obtain ⟨blocks, hmap, hlength, hfull⟩ := image_full M
    ((List.range n).map fun k => .idx doc k (n + 1)) (by
      intro r hr
      obtain ⟨k, hk, rfl⟩ := List.mem_map.mp hr
      exact M.image_document doc k (n + 1) (by have := List.mem_range.mp hk; omega))
  rw [List.length_map, List.length_range] at hlength
  refine ⟨blocks, last, ?_, by rw [hlength], hfull⟩
  have hmark : M.image .fm = .filemark := (M.image_filemark .fm).mpr rfl
  unfold document closedBlocks
  rw [List.range_succ, List.map_append, List.map_append, List.map_append, hmap]
  simp [hlast, hmark]

end Document

section Search

variable {T : Type} {M : MediumReader T} {p : Partition} {m : List (Record T)} {doc : Index T}

/-! ## The last index is found -/

/-- The partition ends in the index, behind its label. The self pointer names the place, and the
back pointer an earlier block of the data partition, if any. -/
structure EndsInDoc (p : Partition) (m : List (Record T)) (doc : Index T) : Prop where
  image : ∃ before n, m = before ++ indexImage n doc ∧ 0 < n ∧ 4 ≤ before.length ∧
    doc.selfptr = ⟨some p, before.length + 1⟩
  backptr : doc.backptr.partition = none ∨ doc.backptr.partition = some .dp ∧
    5 ≤ doc.backptr.block ∧ (p = .dp → doc.backptr.block + 2 < doc.selfptr.block ∧
      doc.selfptr.block < 2 ^ 64)

/-- What is known of the parser at the place of the index. -/
structure ReadBack (M : MediumReader T) (p : Partition) (m : List (Record T)) (doc : Index T)
    (start : ℕ) : Prop where
  region : XmlTape.Region (m.map M.image) start
  last : ∀ other, XmlTape.Region (m.map M.image) other → other ≤ start
  valid : XmlTape.ValidIndex (M.reader false m) p start
  index : ((M.reader false m).parse start).index = doc
  endOf : XmlTape.endOf (M.reader false m) (m.map M.image) start = m.length
  found : M.ReadsOn → XmlTape.EndFound (M.reader false m) (m.map M.image) start
  mark : (m.map M.image)[m.length - 1]? = some .filemark

theorem not_recovered (start : ℕ) : ¬ XmlTape.Recovered (M.reader false m) start := by
  unfold XmlTape.Recovered XmlTape.parseResult XmlTape.recoverConflicts
  rw [if_neg (by simp [MediumReader.reader])]
  cases ((M.reader false m).parse start).failure with
  | some code =>
    intro h
    cases h
  | none =>
    intro h
    cases h

theorem EndsInDoc.readBack (h : EndsInDoc p m doc) :
    ReadBack M p m doc doc.selfptr.block := by
  obtain ⟨before, n, hm, hn, hlabel, hself⟩ := h.image
  rw [hself]
  dsimp only
  have hlength : m.length = before.length + n + 2 := by
    rw [hm, List.length_append, length_indexImage]
    omega
  have hparse : (M.reader false m).parse (before.length + 1) = M.parse (document doc n) := by
    have hregion := region_indexImage (m := before) (n := n) doc (le_refl _)
    rw [List.take_length, ← hm] at hregion
    exact congrArg M.parse hregion
  obtain ⟨hfailure, huuid, hindex⟩ := M.parse_document doc n hn
  -- what the reader meets from there on
  have hdrop : (m.map M.image).drop (before.length + 1)
      = (document doc n ++ [Record.fm]).map M.image := by
    rw [← List.map_drop, hm, indexImage_eq, ← List.drop_drop, List.drop_left]
    rfl
  have hget : ∀ k, m[before.length + 1 + k]? = (document doc n ++ [Record.fm])[k]? := by
    intro k
    rw [← List.getElem?_drop, hm, indexImage_eq, ← List.drop_drop, List.drop_left]
    rfl
  have hdoc : (document doc n).length = n := by
    unfold document
    rw [List.length_map, List.length_range]
  obtain ⟨blocks, last, hclosed, hblocks, hfull⟩ := image_closed M doc hn
  rw [hclosed] at hdrop
  have hsize := M.document_length doc n hn
  rw [show n - 1 = blocks.length by omega] at hsize
  refine ⟨⟨by omega, ?_, ?_⟩, ?_, ⟨⟨false, ?_⟩, ?_⟩, ?_, ?_, ?_, ?_⟩
  · rw [List.length_map]
    omega
  · rw [image_getElem?, fmAt_eq_true, Nat.add_sub_cancel, hm, List.getElem?_append_right (le_refl _),
      Nat.sub_self]
    rfl
  · -- between the two file marks there is no other one
    intro other hother
    by_contra hlt
    have hlt' := hother.lt
    rw [List.length_map] at hlt'
    have hmark := image_getElem?.mp hother.mark
    rw [fmAt_eq_true, show other - 1 = before.length + 1 + (other - 2 - before.length) by omega,
      hget, List.getElem?_append_left (by omega)] at hmark
    obtain ⟨k, -, hk⟩ := List.mem_map.mp (List.mem_of_getElem? hmark)
    cases hk
  · unfold XmlTape.parseResult XmlTape.recoverConflicts
    rw [hparse, hfailure, if_neg (by simp [MediumReader.reader])]
  · unfold XmlTape.checkIndex
    rw [hparse, hindex, huuid]
    dsimp only
    rw [hself, show (M.reader false m).volUuid = M.volUuid from rfl]
    have hback := h.backptr
    rw [hself] at hback
    rcases hback with hnone | ⟨hdp, hge, hbefore⟩
    · simp [hnone]
    · rw [hdp]
      cases p with
      | ip => simp [hge]
      | dp =>
        obtain ⟨hlt, hbound⟩ := hbefore rfl
        dsimp only at hlt hbound
        have hsub : (before.length + 1 + (2 ^ 64 - 2)) % 2 ^ 64 = before.length + 1 - 2 := by omega
        rw [hsub]
        simp
        omega
  · rw [hparse, hindex]
  · unfold XmlTape.endOf
    rw [hdrop, hparse]
    rw [show (M.reader false m).blocksize = M.blocksize from rfl,
      indexEnd_closedBlocks last blocks _ _ hfull hsize]
    omega
  · intro hreads
    refine ⟨fun h => absurd h (not_recovered _), fun _ => ?_⟩
    have hasked : (blocks.length + 1) * M.blocksize < (M.parse (document doc n)).requests.sum := by
      rw [hblocks]
      exact hreads doc n hn
    rw [hdrop, hparse]
    exact endSeen_closedBlocks last blocks _ _ hfull hsize hasked
  · rw [image_getElem?, fmAt_eq_true, show m.length - 1 = before.length + 1 + n by omega, hget,
      List.getElem?_append_right (by omega), hdoc, Nat.sub_self]
    rfl

/-- The search stops at the index, reports its end as it is, and nothing behind it. -/
theorem lookFor_last {v v' : Volume T} {f : Finding T} (hreads : M.ReadsOn)
    (h : EndsInDoc p (v.dev.medium p) doc) (hlabel : fmAt (v.dev.medium p) 3 = true)
    (hlook : lookFor M false p v = (.ok f, v')) :
    v'.dev.medium = v.dev.medium ∧ ∃ s, f.found = some s ∧ s.index = doc ∧
      s.blocksAfter = false ∧ s.fmAfter = true := by
  obtain ⟨hkept, -, -, hsome, hnone⟩ := lookFor_result hlabel hlook
  have hback := h.readBack (M := M)
  refine ⟨hkept.medium, ?_⟩
  -- the search does not go past it
  have hstop : ¬ XmlTape.Skipped (M.reader false (v.dev.medium p)) p
      ((v.dev.medium p).map M.image) doc.selfptr.block :=
    fun hskip => not_recovered _ (hskip hback.valid).1
  cases hfound : f.found with
  | none => exact absurd (hnone hfound _ hback.region) hstop
  | some s =>
    obtain ⟨start, hat⟩ := hsome s hfound
    have hstart : start = doc.selfptr.block := by
      rcases Nat.lt_trichotomy start doc.selfptr.block with hlt | heq | hgt
      · exact absurd (hat.later _ hback.region hlt) hstop
      · exact heq
      · exact absurd (hback.last start hat.region) (not_le.mpr hgt)
    rw [hstart] at hat
    have hend : s.indexEndPos = (v.dev.medium p).length :=
      (hat.indexEnd.mpr (hback.found hreads)).trans hback.endOf
    refine ⟨s, rfl, hat.index.trans hback.index, ?_, ?_⟩
    · rw [Bool.eq_false_iff]
      intro hafter
      have hne := hat.blocksAfter.mp hafter
      rw [List.length_map] at hne
      exact hne hend
    · by_contra hopen
      have hstopped := hat.stopped
      unfold XmlTape.Stopped at hstopped
      rw [if_neg hopen, hend] at hstopped
      have hlt := hback.region.lt
      rw [List.length_map] at hlt
      exact hstopped.2 _ (by omega) (by omega) hback.mark

end Search

section Check

variable {T : Type} {M : MediumReader T} {o : MountOptions} {ip dp : Index T}

/-! ## Nothing to do -/

/-- A medium that is consistent: its index partition ends in the newest index, which names that of
the data partition as its predecessor. -/
structure ConsistentMedium (medium : Partition → List (Record T)) (ip dp : Index T) : Prop where
  endsIp : EndsInDoc .ip (medium .ip) ip
  endsDp : EndsInDoc .dp (medium .dp) dp
  backptr : ip.backptr = dp.selfptr
  generation : dp.generation ≤ ip.generation

/-- Nothing has been written when the check is over. -/
def Outcome.Untouched (medium : Partition → List (Record T)) : Outcome T → Prop
  | .failed _ _ => True
  | .settled v => v.dev.medium = medium
  | .writeIp _ => False

/-- From the choice of the index on, where there is nothing behind either of them. -/
theorem repair_untouched {fix deep recoverExtra : Bool} {i d : Finding T} {v : Volume T}
    {s s' : SoughtIndex T} (hi : i.found = some s) (hd : d.found = some s')
    (hiAfter : s.blocksAfter = false) (hdAfter : s'.blocksAfter = false)
    (hbackptr : s.index.backptr = s'.index.selfptr)
    (hgeneration : s'.index.generation ≤ s.index.generation) :
    (repair M fix deep recoverExtra i d v).Untouched v.dev.medium := by
  have hextra : (i.extraBlocks || d.extraBlocks) = false := by
    unfold Finding.extraBlocks
    rw [hi, hd]
    dsimp only
    rw [hiAfter, hdAfter]
    rfl
  have hchoose : chooseIndex M i d v.dev = .ok (s.index, false) := by
    have hzero := @checkPointers_eq_zero T (readIndexAt M v.dev) s.index
      (some s'.index) (fun x hx => by cases hx; exact hgeneration) hbackptr
    unfold chooseIndex
    rw [hi, hd, Option.map_some, Option.map_some, hzero]
    rfl
  have hplace : ∀ (p : Partition) (f : Finding T) (u : Volume T) (t : SoughtIndex T),
      f.found = some t → t.blocksAfter = false → placeAppend fix p f u = (.ok f, u) := by
    intro p f u t hf hafter
    unfold placeAppend
    rw [hf]
    dsimp only
    rw [hafter, if_neg Bool.false_ne_true]
  unfold repair
  dsimp only
  rw [hextra, hchoose]
  dsimp only
  rw [hplace .dp d _ s' hd hdAfter]
  dsimp only
  rw [hplace .ip i _ s hi hiAfter]
  dsimp only
  rw [Bool.and_false, if_neg Bool.false_ne_true, Bool.and_false, if_neg Bool.false_ne_true,
    if_neg (lt_irrefl 0)]
  unfold restore
  rw [noteEnds_dirty, if_pos (by rfl)]
  show (updateCartCoherency _).dev.medium = _
  rw [(updateCartCoherency_quiet _).tape.medium, noteEnds_dev]
  rfl

theorem closeIndex_closed {p : Partition} {f : Finding T} {v : Volume T} {s : SoughtIndex T}
    (hf : f.found = some s) (hfm : s.fmAfter = true) : closeIndex p f v = (.ok f, v) := by
  unfold closeIndex
  rw [hf]
  dsimp only
  rw [hfm, Bool.not_true, Bool.and_false, if_neg Bool.false_ne_true]

/-- The check of a consistent medium writes nothing. -/
theorem checkMedium_untouched {fix deep recoverExtra : Bool} {v : Volume T} (hreads : M.ReadsOn)
    (h : ConsistentMedium v.dev.medium ip dp) (hlabel : ∀ p, fmAt (v.dev.medium p) 3 = true) :
    (checkMedium M fix deep recoverExtra false v).Untouched v.dev.medium := by
  unfold checkMedium
  rcases hip : lookFor M false .ip v with ⟨ret | i, v₁⟩
  · trivial
  · obtain ⟨hmedium, s, hi, hindex, hiAfter, hiMark⟩ := lookFor_last hreads h.endsIp (hlabel .ip) hip
    dsimp only
    rcases hdp : lookFor M false .dp v₁ with ⟨ret | d, v₂⟩
    · trivial
    · have hends : EndsInDoc .dp (v₁.dev.medium .dp) dp := by
        rw [hmedium]
        exact h.endsDp
      obtain ⟨hmedium', s', hd, hindex', hdAfter, hdMark⟩ := lookFor_last hreads hends
        (by rw [hmedium]; exact hlabel .dp) hdp
      dsimp only
      rw [hi, hd, if_neg (by simp), closeIndex_closed hd hdMark]
      dsimp only
      rw [closeIndex_closed hi hiMark]
      dsimp only
      rw [← hmedium, ← hmedium']
      refine repair_untouched hi hd hiAfter hdAfter ?_ ?_
      · rw [hindex, hindex', h.backptr]
      · rw [hindex, hindex']
        exact h.generation

/-! ## The mount -/

/-- Nothing has been written up to the last index write, and nothing is left to be written. -/
def MountIndex.Untouched (medium : Partition → List (Record T)) : MountIndex T → Prop
  | .failed _ _ => True
  | .current v => v.dev.medium = medium
  | .ipBehind _ => False
  | .checked outcome => outcome.Untouched medium

theorem readTrusted_untouched {v : Volume T} {p : Partition} {block : ℕ} (hreads : M.ReadsOn)
    (hplain : o.recoverSymlink = false) (h : ConsistentMedium v.dev.medium ip dp)
    (hlabel : ∀ p, fmAt (v.dev.medium p) 3 = true) :
    (readTrusted M o p block .current v).Untouched v.dev.medium := by
  have hmedium := (tapeSeek_travelled p (some block) v.dev).medium
  unfold readTrusted
  dsimp only
  split
  · rw [hplain, ← hmedium]
    exact checkMedium_untouched hreads (by rw [hmedium]; exact h)
      (fun q => by rw [hmedium]; exact hlabel q)
  · split
    · trivial
    · split
      · trivial
      · split
        · exact hmedium
        · trivial
        · trivial

/-- A search may fail, but it never writes. -/
theorem lookFor_medium (recoverSymlink : Bool) (p : Partition) (v : Volume T) :
    (lookFor M recoverSymlink p v).2.dev.medium = v.dev.medium := by
  unfold lookFor
  cases v.dev.answer with
  | error code junk => rfl
  | ok early programmable =>
    have hsame := noteSpace_same v.dev.tick p early programmable
    dsimp only
    split
    · exact hsame.medium
    · exact hsame.medium
    · exact hsame.medium
    · exact hsame.medium

theorem searchIndexWp_medium (canSkipIp : Bool) (v : Volume T) :
    (searchIndexWp M o canSkipIp v).2.dev.medium = v.dev.medium := by
  have hip := lookFor_medium (M := M) o.recoverSymlink .ip v
  unfold searchIndexWp
  dsimp only
  have hdp : ∀ u : Volume T, u.dev.medium = v.dev.medium →
      (lookFor M o.recoverSymlink .dp u).2.dev.medium = v.dev.medium :=
    fun u hu => (lookFor_medium o.recoverSymlink .dp u).trans hu
  generalize lookFor M o.recoverSymlink .ip v = i at hip
  obtain ⟨found, w⟩ := i
  dsimp only at hip
  have hupdate : ∀ (b : Bool) (coh : Partition → Coherency),
      (if b = true then w else { w with coherency := coh }).dev.medium = v.dev.medium := by
    intro b coh
    split
    · exact hip
    · exact hip
  cases found with
  | error code =>
    dsimp only
    split
    · exact hip
    · split
      · rename_i hlook
        exact (congrArg (fun r => r.2.dev.medium) hlook).symm.trans (hdp _ (hupdate _ _))
      · rename_i hlook
        exact (congrArg (fun r => r.2.dev.medium) hlook).symm.trans (hdp _ (hupdate _ _))
  | ok f =>
    dsimp only
    split
    · exact hip
    · split
      · rename_i hlook
        exact (congrArg (fun r => r.2.dev.medium) hlook).symm.trans (hdp _ (hupdate _ _))
      · rename_i hlook
        exact (congrArg (fun r => r.2.dev.medium) hlook).symm.trans (hdp _ (hupdate _ _))

theorem mountWritePerm_untouched {v : Volume T} {lock : VolumeLock} {vcr : ℕ} (hreads : M.ReadsOn)
    (hplain : o.recoverSymlink = false) (h : ConsistentMedium v.dev.medium ip dp)
    (hlabel : ∀ p, fmAt (v.dev.medium p) 3 = true) :
    (mountWritePerm M o lock vcr v).Untouched v.dev.medium := by
  unfold mountWritePerm
  dsimp only
  generalize hp : (if (v.coherency .ip).count < (v.coherency .dp).count then Partition.dp else .ip)
    = p
  split
  · have hmedium := searchIndexWp_medium (M := M) (o := o)
      (decide (p = .dp) || decide (lock = .pweBoth))
      ({ v with dev := { v.dev with writeError := true } } : Volume T)
    split
    · trivial
    · rename_i p' block u hsearch
      rw [hsearch] at hmedium
      have hmedium' : u.dev.medium = v.dev.medium := hmedium
      rw [← hmedium']
      exact readTrusted_untouched hreads hplain (by rw [hmedium']; exact h)
        (fun q => by rw [hmedium']; exact hlabel q)
  · exact readTrusted_untouched (v := { v with dev := { v.dev with writeError := true } }) hreads
      hplain h hlabel

theorem checkConsistency_untouched {v : Volume T} {lock : VolumeLock} {vcr : ℕ}
    (hreads : M.ReadsOn) (hfull : o.forceFull = true) (hplain : o.recoverSymlink = false)
    (h : ConsistentMedium v.dev.medium ip dp) (hlabel : ∀ p, fmAt (v.dev.medium p) 3 = true) :
    (checkConsistency M o lock vcr v).Untouched v.dev.medium := by
  unfold checkConsistency
  dsimp only
  split
  · exact mountWritePerm_untouched hreads hplain h hlabel
  · rw [hfull, Bool.true_or, Bool.true_or, Bool.not_true, Bool.false_and, Bool.false_and,
      Bool.false_and, if_neg Bool.false_ne_true, hplain]
    exact checkMedium_untouched hreads h hlabel

/-- A mount with a full check, whatever the lock status says. -/
theorem mountIndex_untouched {v : Volume T} (hreads : M.ReadsOn) (hfull : o.forceFull = true)
    (hplain : o.recoverSymlink = false) (h : ConsistentMedium v.dev.medium ip dp) :
    (mountIndex M o v).Untouched v.dev.medium := by
  unfold mountIndex
  dsimp only
  by_cases hneg : (ltfsStartMount v).1 < 0
  · rw [if_pos hneg]
    trivial
  · obtain ⟨hstart, -, -, hlabel⟩ := ltfsStartMount_spec hneg
    rw [if_neg hneg]
    have hmam := readMam_started hstart.tick.tick.tick
    have hrest : ∀ lock vcr, (checkConsistency M o lock vcr
        (readMam { v with dev := (ltfsStartMount v).2.tick.tick.tick }).2).Untouched
          v.dev.medium := by
      intro lock vcr
      have hmedium := hmam.medium
      generalize readMam { v with dev := (ltfsStartMount v).2.tick.tick.tick } = r at hmedium
      rw [← hmedium]
      exact checkConsistency_untouched hreads hfull hplain (by rw [hmedium]; exact h)
        (by rw [hmedium]; exact hlabel)
    have hdev := getCartVolumeLockStatus_dev (ltfsStartMount v).2
    generalize getCartVolumeLockStatus (ltfsStartMount v).2 = cur at hdev
    obtain ⟨lock | code, dev⟩ := cur
    · dsimp only at hdev
      subst hdev
      dsimp only
      split
      · trivial
      · exact hrest _ _
    · dsimp only at hdev
      subst hdev
      dsimp only
      split
      · trivial
      · exact hrest _ _

/-- A mount that succeeds leaves a consistent medium as it is. -/
theorem ltfsMount_untouched {v : Volume T} (hreads : M.ReadsOn) (hfull : o.forceFull = true)
    (hplain : o.recoverSymlink = false) (h : ConsistentMedium v.dev.medium ip dp)
    (hret : (ltfsMount M o v).1 = .ok ()) : (ltfsMount M o v).2.dev.medium = v.dev.medium := by
  have huntouched := mountIndex_untouched hreads hfull hplain h
  unfold ltfsMount at hret ⊢
  dsimp only at hret ⊢
  rw [hret]
  show (mountIndex M o v).finish.2.dev.medium = _
  cases hm : mountIndex M o v with
  | failed ret u =>
    rw [hm] at hret
    cases hret
  | current u =>
    rw [hm] at huntouched
    exact huntouched
  | ipBehind u =>
    rw [hm] at huntouched
    exact huntouched.elim
  | checked outcome =>
    rw [hm] at huntouched hret
    cases outcome with
    | failed ret u => cases hret
    | settled u => exact huntouched
    | writeIp u => exact huntouched.elim

end Check

end Ltfs.CheckMedium

import Ltfs.Fs.IndexXml
import Ltfs.Fs.ParseFile

/-!
# Unique identifiers

The index keeps the highest uid given out. Reading an index raises it to the highest
uid read, creating a dentry counts it up, and once it has wrapped to zero no more
dentries are created. The children of a directory are written in the order of their
uids.

* `parseItem`, `UidIndex.create` — the two places that move the counter.
* `Parsing`, `Reachable` — the states of an index while it is read and afterwards.
* `Reachable.bound` — the counter is not below any uid in the tree.
* `WritesByUid` — the order of the children, which compares differences cut to 32 bits;
  `writesByUid_iff` says for which uids this is the order of the numbers.
-/

namespace Ltfs.Fs

open Lib

/-! ## The counter -/

/-- An index as far as uids go: its version, `uid_number`, and the uids of the dentries
in the tree. -/
structure UidIndex where
  version : ℕ
  uidNumber : ℕ
  uids : List ℕ
deriving DecidableEq, Repr

/-- `ltfs_index_alloc`: the root has uid 1. -/
def UidIndex.alloc (version : ℕ) : UidIndex := ⟨version, 1, [1]⟩

/-- `fs_allocate_uid`. -/
def UidIndex.allocateUid (idx : UidIndex) : ℕ × UidIndex :=
  if idx.uidNumber = 0 then (0, idx)
  else
    let uid := (idx.uidNumber + 1) % 2 ^ 64
    (uid, { idx with uidNumber := uid })

/-- The same as in the whole name tree. -/
theorem State.fsAllocateUid_eq (fs : State) (version : ℕ) (uids : List ℕ) :
    fs.fsAllocateUid =
      ((UidIndex.allocateUid ⟨version, fs.uidNumber, uids⟩).1,
        { fs with uidNumber := (UidIndex.allocateUid ⟨version, fs.uidNumber, uids⟩).2.uidNumber }) := by
  unfold State.fsAllocateUid UidIndex.allocateUid
  split
  · rfl
  · rfl

/-- `if (uid > idx->uid_number) idx->uid_number = uid;` -/
def UidIndex.raise (idx : UidIndex) (uid : ℕ) : UidIndex :=
  if uid > idx.uidNumber then { idx with uidNumber := uid } else idx

/-- The parts of an index that carry a uid: a file, a directory other than the root, the
root, and the `highestfileuid` tag. -/
inductive UidItem where
  | file (uid : UInt64)
  | directory (uid : UInt64)
  | root (uid : UInt64)
  | nextuid (uid : UInt64)
deriving DecidableEq, Repr

/-- The uid of a dentry: the one in its tag, or a new one in an old index. -/
def UidIndex.takeUid (idx : UidIndex) (uid : UInt64) : ℕ × UidIndex :=
  if idx.version ≥ idxVersionSparse then (uid.toNat, idx.raise uid.toNat)
  else
    let r := idx.allocateUid
    (r.1, r.2.raise r.1)

/-- The uids in `_xml_parse_file`, `_xml_parse_dirtree` and `_xml_parse_schema`. -/
def parseItem (idx : UidIndex) : UidItem → Except ℤ UidIndex
  | .file uid =>
    let r := idx.takeUid uid
    if r.1 = 0 then throw (-ltfsXmlWrongUid) else return { r.2 with uids := r.1 :: r.2.uids }
  | .directory uid =>
    let r := idx.takeUid uid
    if r.1 = 1 ∨ r.1 = 0 then throw (-ltfsXmlInvalidUid)
    else return { r.2 with uids := r.1 :: r.2.uids }
  | .root uid =>
    -- in an old index the root keeps the uid it was allocated with
    if idx.version ≥ idxVersionSparse then
      if uid ≠ 1 then throw (-ltfsXmlInvalidUid) else return idx.raise uid.toNat
    else return idx
  | .nextuid uid => return if idx.version ≥ idxVersionSparse then idx.raise uid.toNat else idx

/-- A new dentry; `none` if it is refused. -/
def UidIndex.create (idx : UidIndex) : Option ℕ × UidIndex :=
  let r := idx.allocateUid
  if r.1 = 0 then (none, r.2) else (some r.1, { r.2 with uids := r.1 :: r.2.uids })

/-- A dentry is removed. -/
def UidIndex.unlink (idx : UidIndex) (uid : ℕ) : UidIndex := { idx with uids := idx.uids.erase uid }

/-- The states of an index that is being read. -/
inductive Parsing : UidIndex → Prop
  | alloc (version : ℕ) : Parsing (UidIndex.alloc version)
  | item {idx idx' : UidIndex} (item : UidItem) :
      Parsing idx → parseItem idx item = .ok idx' → Parsing idx'

/-- The states of an index in use. -/
inductive Reachable : UidIndex → Prop
  | parsed {idx : UidIndex} : Parsing idx → Reachable idx
  | create {idx : UidIndex} : Reachable idx → Reachable idx.create.2
  | unlink {idx : UidIndex} (uid : ℕ) : Reachable idx → Reachable (idx.unlink uid)

/-! ## The counter is high enough -/

/-- Unless it has wrapped, the counter is not below any uid in the tree. -/
structure UidIndex.Bounded (idx : UidIndex) : Prop where
  number : idx.uidNumber < 2 ^ 64
  uids : idx.uidNumber ≠ 0 → ∀ u ∈ idx.uids, u ≤ idx.uidNumber

theorem UidIndex.raise_uidNumber (idx : UidIndex) (uid : ℕ) :
    (idx.raise uid).uidNumber = max idx.uidNumber uid := by
  unfold UidIndex.raise
  split
  · next h => exact (Nat.max_eq_right (Nat.le_of_lt h)).symm
  · next h => exact (Nat.max_eq_left (Nat.le_of_not_lt h)).symm

theorem UidIndex.raise_uids (idx : UidIndex) (uid : ℕ) : (idx.raise uid).uids = idx.uids := by
  unfold UidIndex.raise
  split
  · rfl
  · rfl

/-- Raising a counter that has not wrapped. -/
theorem UidIndex.Bounded.raise {idx : UidIndex} (h : idx.Bounded) (hne : idx.uidNumber ≠ 0)
    {uid : ℕ} (huid : uid < 2 ^ 64) : (idx.raise uid).Bounded := by
  have hnumber := h.number
  constructor
  · rw [UidIndex.raise_uidNumber]
    omega
  · intro _ u hu
    rw [UidIndex.raise_uids] at hu
    have := h.uids hne u hu
    rw [UidIndex.raise_uidNumber]
    omega

/-- A new uid is one more than the counter, or zero for good. -/
theorem UidIndex.allocateUid_cases {idx : UidIndex} (h : idx.Bounded) :
    (idx.uidNumber ≠ 0 ∧ idx.uidNumber + 1 < 2 ^ 64 ∧
      idx.allocateUid = (idx.uidNumber + 1, { idx with uidNumber := idx.uidNumber + 1 })) ∨
    ((idx.uidNumber = 0 ∨ idx.uidNumber + 1 = 2 ^ 64) ∧
      idx.allocateUid = (0, { idx with uidNumber := 0 })) := by
  have hnumber := h.number
  unfold UidIndex.allocateUid
  by_cases hzero : idx.uidNumber = 0
  · rw [if_pos hzero]
    refine .inr ⟨Or.inl hzero, ?_⟩
    rw [← hzero]
  rw [if_neg hzero]
  by_cases hlast : idx.uidNumber + 1 = 2 ^ 64
  · -- the counter wraps to the sentinel
    refine .inr ⟨Or.inr hlast, ?_⟩
    rw [hlast, Nat.mod_self]
  · have hmod : (idx.uidNumber + 1) % 2 ^ 64 = idx.uidNumber + 1 := Nat.mod_eq_of_lt (by omega)
    refine .inl ⟨hzero, by omega, ?_⟩
    rw [hmod]

/-- The uid of a dentry that is read: not above the counter, which has not wrapped. -/
theorem UidIndex.takeUid_spec {idx : UidIndex} (h : idx.Bounded) (hne : idx.uidNumber ≠ 0)
    (uid : UInt64) (hok : (idx.takeUid uid).1 ≠ 0) :
    ({ (idx.takeUid uid).2 with uids := (idx.takeUid uid).1 :: (idx.takeUid uid).2.uids } :
      UidIndex).Bounded ∧ (idx.takeUid uid).2.uidNumber ≠ 0 := by
  have huid := uid.toNat_lt
  -- in both cases the index is raised to the uid that is taken
  have hraise : ∀ (idx' : UidIndex) (u : ℕ), idx'.Bounded → idx'.uidNumber ≠ 0 → u < 2 ^ 64 →
      ({ idx'.raise u with uids := u :: (idx'.raise u).uids } : UidIndex).Bounded ∧
        (idx'.raise u).uidNumber ≠ 0 := by
    intro idx' u hb hne' hu
    have hb' := hb.raise hne' hu
    have hnumber := idx'.raise_uidNumber u
    have hne'' : (idx'.raise u).uidNumber ≠ 0 := by omega
    refine ⟨⟨hb'.number, fun _ v hv => ?_⟩, hne''⟩
    rcases List.mem_cons.mp hv with rfl | hv
    · show v ≤ (idx'.raise v).uidNumber
      omega
    · exact hb'.uids hne'' v hv
  unfold UidIndex.takeUid at hok ⊢
  by_cases hversion : idx.version ≥ idxVersionSparse
  · rw [if_pos hversion]
    exact hraise idx uid.toNat h hne huid
  · rw [if_neg hversion] at hok ⊢
    dsimp only at hok ⊢
    rcases idx.allocateUid_cases h with ⟨-, hlt, heq⟩ | ⟨-, heq⟩
    · rw [heq]
      refine hraise { idx with uidNumber := idx.uidNumber + 1 } (idx.uidNumber + 1) ?_ ?_ hlt
      · refine ⟨hlt, fun _ u hu => ?_⟩
        have := h.uids hne u hu
        show u ≤ idx.uidNumber + 1
        omega
      · exact Nat.succ_ne_zero _
    · rw [heq] at hok
      exact absurd rfl hok

/-- While an index is read its counter does not wrap: the reader refuses uid 0. -/
theorem Parsing.bound {idx : UidIndex} (h : Parsing idx) : idx.Bounded ∧ idx.uidNumber ≠ 0 := by
  induction h with
  | alloc version =>
    refine ⟨⟨Nat.one_lt_two_pow (by decide), fun _ u hu => ?_⟩, Nat.one_ne_zero⟩
    rw [List.mem_singleton.mp hu]
    exact Nat.le_refl 1
  | @item idx idx' item _ hitem ih =>
    obtain ⟨hb, hne⟩ := ih
    cases item with
    | file uid =>
      unfold parseItem at hitem
      dsimp only at hitem
      by_cases hzero : (idx.takeUid uid).1 = 0
      · rw [if_pos hzero] at hitem
        cases hitem
      · rw [if_neg hzero] at hitem
        cases hitem
        exact UidIndex.takeUid_spec hb hne uid hzero
    | directory uid =>
      unfold parseItem at hitem
      dsimp only at hitem
      by_cases hbad : (idx.takeUid uid).1 = 1 ∨ (idx.takeUid uid).1 = 0
      · rw [if_pos hbad] at hitem
        cases hitem
      · rw [if_neg hbad] at hitem
        cases hitem
        exact UidIndex.takeUid_spec hb hne uid fun h => hbad (Or.inr h)
    | root uid =>
      unfold parseItem at hitem
      dsimp only at hitem
      split at hitem
      · split at hitem
        · cases hitem
        · cases hitem
          refine ⟨hb.raise hne uid.toNat_lt, ?_⟩
          rw [UidIndex.raise_uidNumber]
          omega
      · cases hitem
        exact ⟨hb, hne⟩
    | nextuid uid =>
      unfold parseItem at hitem
      cases hitem
      split
      · refine ⟨hb.raise hne uid.toNat_lt, ?_⟩
        rw [UidIndex.raise_uidNumber]
        omega
      · exact ⟨hb, hne⟩

theorem UidIndex.Bounded.create {idx : UidIndex} (h : idx.Bounded) : idx.create.2.Bounded := by
  unfold UidIndex.create
  rcases idx.allocateUid_cases h with ⟨hne, hlt, heq⟩ | ⟨-, heq⟩
  · rw [heq]
    dsimp only
    rw [if_neg (Nat.succ_ne_zero _)]
    refine ⟨hlt, fun _ u hu => ?_⟩
    show u ≤ idx.uidNumber + 1
    rcases List.mem_cons.mp hu with rfl | hu
    · exact Nat.le_refl _
    · exact Nat.le_succ_of_le (h.uids hne u hu)
  · rw [heq]
    exact ⟨Nat.two_pow_pos 64, fun hne => absurd rfl hne⟩

/-- The counter is not below any uid in the tree, whatever was read and created. -/
theorem Reachable.bound {idx : UidIndex} (h : Reachable idx) : idx.Bounded := by
  induction h with
  | parsed hp => exact hp.bound.1
  | create _ ih => exact ih.create
  | unlink uid _ ih =>
    exact ⟨ih.number, fun hne u hu => ih.uids hne u (List.mem_of_mem_erase hu)⟩

/-- A uid that is given out is a new one. -/
theorem UidIndex.Bounded.fresh {idx : UidIndex} (h : idx.Bounded) (hne : idx.allocateUid.1 ≠ 0) :
    idx.allocateUid.1 ∉ idx.uids := by
  intro hmem
  rcases idx.allocateUid_cases h with ⟨hnumber, -, heq⟩ | ⟨-, heq⟩
  · rw [heq] at hmem
    have := h.uids hnumber _ hmem
    dsimp only at this
    omega
  · rw [heq] at hne
    exact hne rfl

/-! ## The end of the numbers -/

/-- What happens to an index after it has been read. -/
inductive Later (idx : UidIndex) : UidIndex → Prop
  | now : Later idx idx
  | create {idx' : UidIndex} : Later idx idx' → Later idx idx'.create.2
  | unlink {idx' : UidIndex} (uid : ℕ) : Later idx idx' → Later idx (idx'.unlink uid)

/-- No number is left. -/
def UidIndex.Exhausted (idx : UidIndex) : Prop := idx.uidNumber = 0 ∨ idx.uidNumber = 2 ^ 64 - 1

theorem UidIndex.Exhausted.create {idx : UidIndex} (h : idx.Exhausted) :
    idx.create.1 = none ∧ idx.create.2.Exhausted := by
  have hzero : idx.allocateUid.1 = 0 ∧ idx.allocateUid.2.uidNumber = 0 := by
    unfold UidIndex.allocateUid
    rcases h with h | h
    · rw [if_pos h]
      exact ⟨rfl, h⟩
    · rw [if_neg (by rw [h]; decide), h]
      exact ⟨rfl, rfl⟩
  unfold UidIndex.create
  dsimp only
  rw [if_pos hzero.1]
  exact ⟨rfl, Or.inl hzero.2⟩

/-- From then on every new dentry is refused. -/
theorem Later.exhausted {idx idx' : UidIndex} (h : Later idx idx') (hex : idx.Exhausted) :
    idx'.Exhausted := by
  induction h with
  | now => exact hex
  | create _ ih => exact ih.create.2
  | unlink uid _ ih => exact ih

/-! ## The order of the children -/

/-- The comparison of `childrenByUid`. -/
def uidAtMost (a b : ℕ) : Bool := decide (State.fsHashSortByUid a b ≤ 0)

/-- What is left of the difference in 32 bits decides. -/
theorem uidAtMost_iff {a b : ℕ} (ha : a < 2 ^ 64) (hb : b < 2 ^ 64) :
    uidAtMost a b = true ↔
      (a ≤ b ∧ (b - a) % 2 ^ 32 ≤ 2 ^ 31) ∨
        (b < a ∧ ((a - b) % 2 ^ 32 = 0 ∨ 2 ^ 31 ≤ (a - b) % 2 ^ 32)) := by
  have hdiff : ((BitVec.ofNat 64 a - BitVec.ofNat 64 b).setWidth 32).toNat =
      (2 ^ 64 - b + a) % 2 ^ 32 := by
    rw [BitVec.toNat_setWidth, BitVec.toNat_sub, BitVec.toNat_ofNat, BitVec.toNat_ofNat,
      Nat.mod_eq_of_lt ha, Nat.mod_eq_of_lt hb]
    exact Nat.mod_mod_of_dvd _ (Nat.pow_dvd_pow 2 (by decide))
  unfold uidAtMost State.fsHashSortByUid
  rw [decide_eq_true_iff, BitVec.toInt_eq_toNat_cond, hdiff]
  split <;> omega

/-- Two numbers compare as they should when their difference, cut to 32 bits, is
positive as an `int`. -/
theorem uidAtMost_agrees_iff {a b : ℕ} (ha : a < 2 ^ 64) (hb : b < 2 ^ 64) (h : a < b) :
    (uidAtMost a b = true ∧ uidAtMost b a = false) ↔
      0 < (b - a) % 2 ^ 32 ∧ (b - a) % 2 ^ 32 < 2 ^ 31 := by
  have hab := uidAtMost_iff ha hb
  have hba := uidAtMost_iff hb ha
  rw [hab, ← Bool.not_eq_true, hba]
  omega

/-- The children of any directory with uids in `S` are written in the order of the
uids. -/
def WritesByUid (S : Set UInt64) : Prop :=
  ∀ (fs : State) (dir : ℕ),
    (∀ e ∈ (fs.dentry dir).childList, ∃ u ∈ S, (fs.dentry e.2).uid = u.toNat) →
    (fs.childrenByUid dir).Pairwise fun a b => (fs.dentry a).uid ≤ (fs.dentry b).uid

/-- The differences between the uids keep their sign in 32 bits. -/
def Comparable (S : Set UInt64) : Prop :=
  ∀ a ∈ S, ∀ b ∈ S, a < b →
    0 < (b.toNat - a.toNat) % 2 ^ 32 ∧ (b.toNat - a.toNat) % 2 ^ 32 < 2 ^ 31

theorem Comparable.uidAtMost {S : Set UInt64} (h : Comparable S) {a b : UInt64} (ha : a ∈ S)
    (hb : b ∈ S) : uidAtMost a.toNat b.toNat = decide (a.toNat ≤ b.toNat) := by
  rcases Nat.lt_trichotomy a.toNat b.toNat with hlt | heq | hgt
  · have hagree := (uidAtMost_agrees_iff a.toNat_lt b.toNat_lt hlt).mpr
      (h a ha b hb (UInt64.lt_iff_toNat_lt.mpr hlt))
    rw [hagree.1, decide_eq_true (Nat.le_of_lt hlt)]
  · have hself : Ltfs.Fs.uidAtMost b.toNat b.toNat = true :=
      (uidAtMost_iff b.toNat_lt b.toNat_lt).mpr (Or.inl ⟨Nat.le_refl _, by simp⟩)
    rw [heq, hself, decide_eq_true (Nat.le_refl _)]
  · have hagree := (uidAtMost_agrees_iff b.toNat_lt a.toNat_lt hgt).mpr
      (h b hb a ha (UInt64.lt_iff_toNat_lt.mpr hgt))
    rw [hagree.2, decide_eq_false (by omega)]

/-- A directory with two children, added in this order. -/
def twoChildren (a b : ℕ) : State where
  dentry := fun d =>
    if d = 1 then { Dentry.zero with isdir := true, uid := 1, childList := [([98], 3), ([97], 2)] }
    else if d = 2 then { Dentry.zero with uid := a }
    else if d = 3 then { Dentry.zero with uid := b }
    else Dentry.zero
  root := 1
  inodeNumber := 3
  uidNumber := max a b
  fileCount := 2
  validBlocks := 0
  journal := ⟨[], [], false, 0⟩
  numhandles := fun _ => 1
  alloc := []
  hashAlloc := []

theorem twoChildren_childrenByUid (a b : ℕ) :
    (twoChildren a b).childrenByUid 1 = if uidAtMost a b then [2, 3] else [3, 2] := by
  show hashSort _ [2, 3] = _
  rw [hashSort_pair]
  rfl

theorem writesByUid_iff (S : Set UInt64) : WritesByUid S ↔ Comparable S := by
  constructor
  · intro h a ha b hb hlt
    have hlt' := UInt64.lt_iff_toNat_lt.mp hlt
    rw [← uidAtMost_agrees_iff a.toNat_lt b.toNat_lt hlt']
    -- two children in either order show what the comparison makes of them
    have hab := h (twoChildren a.toNat b.toNat) 1 (by
      intro e he
      rcases List.mem_cons.mp he with rfl | he
      · exact ⟨b, hb, rfl⟩
      · rw [List.mem_singleton.mp he]
        exact ⟨a, ha, rfl⟩)
    have hba := h (twoChildren b.toNat a.toNat) 1 (by
      intro e he
      rcases List.mem_cons.mp he with rfl | he
      · exact ⟨a, ha, rfl⟩
      · rw [List.mem_singleton.mp he]
        exact ⟨b, hb, rfl⟩)
    rw [twoChildren_childrenByUid] at hab hba
    constructor
    · by_contra hcmp
      rw [if_neg hcmp] at hab
      have hle : b.toNat ≤ a.toNat := (List.pairwise_cons.mp hab).1 2 List.mem_cons_self
      omega
    · cases hcmp : uidAtMost b.toNat a.toNat with
      | false => rfl
      | true =>
        rw [if_pos hcmp] at hba
        have hle : b.toNat ≤ a.toNat := (List.pairwise_cons.mp hba).1 3 List.mem_cons_self
        omega
  · intro h fs dir hchildren
    have hmem : ∀ c ∈ (fs.dentry dir).childList.reverse.map Prod.snd,
        ∃ u ∈ S, (fs.dentry c).uid = u.toNat := by
      intro c hc
      obtain ⟨e, he, rfl⟩ := List.mem_map.mp hc
      exact hchildren e (List.mem_reverse.mp he)
    -- between these uids the comparison is that of the numbers
    have hmap := @map_hashSort ℕ ℕ
      (fun a b => decide (State.fsHashSortByUid (fs.dentry a).uid (fs.dentry b).uid ≤ 0))
      (fun a b => decide (a ≤ b)) (fun c => (fs.dentry c).uid)
      ((fs.dentry dir).childList.reverse.map Prod.snd) (by
        intro a ha b hb
        obtain ⟨u, hu, hau⟩ := hmem a ha
        obtain ⟨v, hv, hbv⟩ := hmem b hb
        show Ltfs.Fs.uidAtMost _ _ = _
        rw [hau, hbv, h.uidAtMost hu hv])
    have hsorted := @hashSort_pairwise ℕ (fun a b => decide (a ≤ b))
      (fun a b c hab hbc => by
        simp only [decide_eq_true_iff] at hab hbc ⊢
        omega)
      (fun a b => by
        simp only [Bool.or_eq_true, decide_eq_true_iff]
        omega)
      (((fs.dentry dir).childList.reverse.map Prod.snd).map fun c => (fs.dentry c).uid)
    rw [← hmap, List.pairwise_map] at hsorted
    exact hsorted.imp fun hle => of_decide_eq_true hle

/-! ## All together -/

/-- Identifiers are unique, given out no more once they run out, and give the order in
which children are written. -/
structure UidsWork (S : Set UInt64) : Prop where
  fresh : ∀ idx, Reachable idx → idx.allocateUid.1 ≠ 0 → idx.allocateUid.1 ∉ idx.uids
  refused : ∀ idx idx', Reachable idx → idx.Exhausted → Later idx idx' → idx'.create.1 = none
  order : WritesByUid S

/-- The first two hold for every index; the order is that of the numbers as long as the
differences fit. -/
theorem uidsWork_iff (S : Set UInt64) : UidsWork S ↔ Comparable S := by
  rw [← writesByUid_iff]
  constructor
  · exact fun h => h.order
  · intro h
    constructor
    · intro idx hidx hne
      exact hidx.bound.fresh hne
    · intro idx idx' _ hex hlater
      exact (hlater.exhausted hex).create.1
    · exact h

/-- With the uids 2 and 2 + 2 ^ 32 the children stay in the order of the hash table. -/
theorem uidsWork_fails : ¬ ∀ S, UidsWork S := by
  intro h
  have horder := (h Set.univ).order (twoChildren 4294967298 2) 1 (by
    intro e he
    rcases List.mem_cons.mp he with rfl | he
    · exact ⟨2, trivial, rfl⟩
    · rw [List.mem_singleton.mp he]
      exact ⟨4294967298, trivial, rfl⟩)
  rw [twoChildren_childrenByUid, if_pos (by decide)] at horder
  have hle : 4294967298 ≤ 2 := (List.pairwise_cons.mp horder).1 3 List.mem_cons_self
  omega

end Ltfs.Fs

import Ltfs.Fs.Fsops

/-!
# The tree invariant

What the parent pointers, child lists and link counts of a namespace have to do
with each other, and how an operation may change them.

* `TreeInv` — the invariant: child lists and parent pointers agree, every chain of
  parents ends at the root, and directories count their subdirectories.
* `SameShape`, `Kept` — the structure of the tree is as it was, or all of it; a
  dentry outside of it may have been disposed.
* `Relink` — one dentry got another parent, or none. `TreeInv.relink_none` and
  `TreeInv.relink_some` say when the invariant survives; every operation is a
  sequence of these two.
-/

namespace Ltfs.Fs

open Function Lib.Forest

namespace Namespace

/-- The parent pointer. -/
def parent (ns : Namespace) (d : ℕ) : Option ℕ := (ns.dentry d).parent

/-- The root, and every dentry with a parent. -/
def Attached (ns : Namespace) (d : ℕ) : Prop := d = ns.root ∨ ns.parent d ≠ none

instance (ns : Namespace) (d : ℕ) : Decidable (ns.Attached d) :=
  inferInstanceAs (Decidable (_ ∨ _))

/-- The root, and every dentry some child list holds. -/
def Linked (ns : Namespace) (d : ℕ) : Prop :=
  d = ns.root ∨ ∃ p, ∃ e ∈ (ns.dentry p).childList, e.2 = d

/-- The number of subdirectories. -/
def subdirs (ns : Namespace) (d : ℕ) : ℕ :=
  (ns.dentry d).childList.countP fun e => (ns.dentry e.2).isdir

/-- The structure of the tree, as the code keeps it. -/
structure TreeInv (ns : Namespace) : Prop where
  rootParent : ns.parent ns.root = none
  rootDir : (ns.dentry ns.root).isdir = true
  rootLe : ns.root ≤ ns.inodeNumber
  entry : ∀ p, ∀ e ∈ (ns.dentry p).childList,
    ns.parent e.2 = some p ∧ (ns.dentry e.2).platformSafeName = e.1
  listed : ∀ c p, ns.parent c = some p →
    ((ns.dentry c).platformSafeName, c) ∈ (ns.dentry p).childList
  nodup : ∀ p, ((ns.dentry p).childList.map Prod.snd).Nodup
  fresh : ∀ d, ns.inodeNumber < d → ns.parent d = none
  climbs : ∀ d, ns.parent d ≠ none → Climbs ns.parent d ns.root
  links : ∀ d, ns.Attached d → (ns.dentry d).isdir = true →
    (ns.dentry d).linkCount = BitVec.ofNat 32 (2 + ns.subdirs d)

/-- Sibling names are unique. -/
def NamesUnique (ns : Namespace) : Prop :=
  ∀ p, ((ns.dentry p).childList.map Prod.fst).Nodup

namespace TreeInv

variable {ns : Namespace} {d p : ℕ}

theorem climbs_of_attached (h : ns.TreeInv) (hd : ns.Attached d) :
    Climbs ns.parent d ns.root := by
  rcases hd with rfl | hd
  · exact Climbs.refl
  · exact h.climbs d hd

/-- A parent is part of the tree. -/
theorem attached_of_parent (h : ns.TreeInv) (hd : ns.parent d = some p) : ns.Attached p := by
  have hne : ns.parent d ≠ none := by simp [hd]
  rcases (h.climbs d hne).cases with rfl | ⟨b, hb, hbr⟩
  · exact absurd h.rootParent hne
  · rw [hd] at hb
    cases hb
    rcases hbr.cases with rfl | ⟨c, hc, -⟩
    · exact .inl rfl
    · exact .inr (by simp [hc])

/-- Outside the tree there are no children. -/
theorem childList_of_detached (h : ns.TreeInv) (hd : ¬ ns.Attached d) :
    (ns.dentry d).childList = [] := by
  rw [List.eq_nil_iff_forall_not_mem]
  intro e he
  exact hd (h.attached_of_parent (h.entry d e he).1)

theorem no_child (h : ns.TreeInv) (hd : (ns.dentry d).childList = []) (c : ℕ) :
    ns.parent c ≠ some d := by
  intro hc
  have := h.listed c d hc
  simp [hd] at this

theorem le_of_attached (h : ns.TreeInv) (hd : ns.Attached d) : d ≤ ns.inodeNumber := by
  rcases hd with rfl | hd
  · exact h.rootLe
  · by_contra hlt
    exact hd (h.fresh d (by omega))

/-- What lies above a dentry of the tree is part of it. -/
theorem attached_of_climbs (h : ns.TreeInv) {a : ℕ} (hd : ns.Attached d)
    (ha : Climbs ns.parent d a) : ns.Attached a := by
  induction ha using Relation.ReflTransGen.head_induction_on with
  | refl => exact hd
  | head hc _ ih => exact ih (h.attached_of_parent hc)

theorem attached_of_linked (h : ns.TreeInv) (hd : ns.Linked d) : ns.Attached d := by
  rcases hd with rfl | ⟨p, e, he, rfl⟩
  · exact .inl rfl
  · exact .inr (by simp [(h.entry p e he).1])

/-- The walk of `fs_is_predecessor` is exact. -/
theorem fsIsPredecessor_iff {fs : State} (h : fs.TreeInv) {d1 d2 : ℕ} (hd : fs.Attached d2) :
    fs.fsIsPredecessor d1 d2 = true ↔ Climbs fs.parent d2 d1 := by
  refine climbsTo_iff (s := Finset.range (fs.inodeNumber + 1)) (h.climbs_of_attached hd)
    h.rootParent (fun y hy => ?_) ?_
  · have := h.le_of_attached (h.attached_of_climbs hd hy)
    exact Finset.mem_range.mpr (by omega)
  · rw [Finset.card_range]

end TreeInv

/-! ## Nothing happened to the tree -/

end Namespace

/-- What of a dentry belongs to the structure of the tree. -/
def Dentry.shape (b : Dentry) : Option ℕ × Path × Bool × BitVec 32 × List (Path × ℕ) :=
  (b.parent, b.platformSafeName, b.isdir, b.linkCount, b.childList)

namespace Namespace

/-- The structure of the tree is as it was. Outside the tree, dentries may have been
disposed. -/
structure SameShape (ns ns' : Namespace) : Prop where
  root : ns'.root = ns.root
  inode : ns.inodeNumber ≤ ns'.inodeNumber
  attached : ∀ d, ns.Attached d → (ns'.dentry d).shape = (ns.dentry d).shape
  detached : ∀ d, ¬ ns.Attached d →
    (ns'.dentry d).shape = (ns.dentry d).shape ∨ (ns'.dentry d).shape = Dentry.zero.shape

namespace SameShape

variable {ns ns' ns'' : Namespace} {d : ℕ}

theorem refl (ns : Namespace) : SameShape ns ns :=
  ⟨rfl, le_refl _, fun _ _ => rfl, fun _ _ => .inl rfl⟩

theorem parent (h : SameShape ns ns') (d : ℕ) : ns'.parent d = ns.parent d := by
  unfold Namespace.parent
  by_cases hd : ns.Attached d
  · exact congrArg Prod.fst (h.attached d hd)
  · have hp : (ns.dentry d).parent = none := by
      by_contra hp
      exact hd (.inr hp)
    rcases h.detached d hd with h' | h'
    · exact congrArg Prod.fst h'
    · exact (congrArg Prod.fst h').trans hp.symm

theorem attached_iff (h : SameShape ns ns') : ns'.Attached d ↔ ns.Attached d := by
  unfold Namespace.Attached
  rw [h.root, h.parent]

theorem trans (h : SameShape ns ns') (h' : SameShape ns' ns'') : SameShape ns ns'' where
  root := h'.root.trans h.root
  inode := h.inode.trans h'.inode
  attached := fun d hd => by
    rw [h'.attached d (h.attached_iff.mpr hd), h.attached d hd]
  detached := fun d hd => by
    rcases h'.detached d (mt h.attached_iff.mp hd) with h₂ | h₂
    · rw [h₂]
      exact h.detached d hd
    · exact .inr h₂

theorem name (h : SameShape ns ns') (hd : ns.Attached d) :
    (ns'.dentry d).platformSafeName = (ns.dentry d).platformSafeName :=
  congrArg (fun s => s.2.1) (h.attached d hd)

theorem isdir (h : SameShape ns ns') (hd : ns.Attached d) :
    (ns'.dentry d).isdir = (ns.dentry d).isdir :=
  congrArg (fun s => s.2.2.1) (h.attached d hd)

theorem linkCount (h : SameShape ns ns') (hd : ns.Attached d) :
    (ns'.dentry d).linkCount = (ns.dentry d).linkCount :=
  congrArg (fun s => s.2.2.2.1) (h.attached d hd)

theorem childList (h : SameShape ns ns') (I : ns.TreeInv) (d : ℕ) :
    (ns'.dentry d).childList = (ns.dentry d).childList := by
  by_cases hd : ns.Attached d
  · exact congrArg (fun s => s.2.2.2.2) (h.attached d hd)
  · rcases h.detached d hd with h' | h'
    · exact congrArg (fun s => s.2.2.2.2) h'
    · rw [I.childList_of_detached hd]
      exact congrArg (fun s => s.2.2.2.2) h'

theorem treeInv (h : SameShape ns ns') (I : ns.TreeInv) : ns'.TreeInv where
  rootParent := by rw [h.root, h.parent, I.rootParent]
  rootDir := by rw [h.root, h.isdir (.inl rfl), I.rootDir]
  rootLe := by
    rw [h.root]
    exact I.rootLe.trans h.inode
  entry := fun p e he => by
    rw [h.childList I] at he
    have hp := (I.entry p e he).1
    rw [h.parent, h.name (.inr (by simp [hp]))]
    exact I.entry p e he
  listed := fun c p hc => by
    rw [h.parent] at hc
    rw [h.childList I, h.name (.inr (by simp [hc]))]
    exact I.listed c p hc
  nodup := fun p => by
    rw [h.childList I]
    exact I.nodup p
  fresh := fun d hd => by
    rw [h.parent]
    exact I.fresh d (h.inode.trans_lt hd)
  climbs := fun d hd => by
    rw [funext h.parent] at hd ⊢
    rw [h.root]
    exact I.climbs d hd
  links := fun d hd hdir => by
    have hd' := h.attached_iff.mp hd
    rw [h.isdir hd'] at hdir
    rw [h.linkCount hd', I.links d hd' hdir]
    congr 2
    unfold subdirs
    rw [h.childList I]
    refine List.countP_congr fun e he => ?_
    rw [h.isdir (.inr (by simp [(I.entry d e he).1]))]

theorem namesUnique (h : SameShape ns ns') (I : ns.TreeInv) (hn : ns.NamesUnique) :
    ns'.NamesUnique := by
  intro p
  rw [h.childList I]
  exact hn p

end SameShape

/-- The tree is as it was in every respect, and so are counters and journal. Outside
the tree, dentries may have been disposed. -/
structure Kept (ns ns' : Namespace) : Prop where
  root : ns'.root = ns.root
  inode : ns.inodeNumber ≤ ns'.inodeNumber
  attached : ∀ d, ns.Attached d → ns'.dentry d = ns.dentry d
  detached : ∀ d, ¬ ns.Attached d → ns'.dentry d = ns.dentry d ∨ ns'.dentry d = Dentry.zero
  fileCount : ns'.fileCount = ns.fileCount
  validBlocks : ns'.validBlocks = ns.validBlocks
  journal : ns'.journal = ns.journal

namespace Kept

variable {ns ns' ns'' : Namespace} {d : ℕ}

theorem refl (ns : Namespace) : Kept ns ns :=
  ⟨rfl, le_refl _, fun _ _ => rfl, fun _ _ => .inl rfl, rfl, rfl, rfl⟩

theorem sameShape (h : Kept ns ns') : SameShape ns ns' where
  root := h.root
  inode := h.inode
  attached := fun d hd => by rw [h.attached d hd]
  detached := fun d hd => by
    rcases h.detached d hd with h' | h'
    · exact .inl (by rw [h'])
    · exact .inr (by rw [h'])

theorem trans (h : Kept ns ns') (h' : Kept ns' ns'') : Kept ns ns'' where
  root := h'.root.trans h.root
  inode := h.inode.trans h'.inode
  attached := fun d hd => by
    rw [h'.attached d (h.sameShape.attached_iff.mpr hd), h.attached d hd]
  detached := fun d hd => by
    rcases h'.detached d (mt h.sameShape.attached_iff.mp hd) with h₂ | h₂
    · rw [h₂]
      exact h.detached d hd
    · exact .inr h₂
  fileCount := h'.fileCount.trans h.fileCount
  validBlocks := h'.validBlocks.trans h.validBlocks
  journal := h'.journal.trans h.journal

theorem of_eq (h : ns' = ns) : Kept ns ns' := h ▸ refl ns

end Kept

/-! ## One dentry changes its place -/

/-- A child list without a dentry. -/
def without (d : ℕ) (l : List (Path × ℕ)) : List (Path × ℕ) := l.filter fun e => e.2 ≠ d

/-- `1` for a directory that moves to, or away from, this place. -/
def linkOf (here isdir : Bool) : ℕ := if here && isdir then 1 else 0

/-- The dentry `d` has the parent `v` now, in all of the tree. -/
structure Relink (ns ns' : Namespace) (d : ℕ) (v : Option ℕ) : Prop where
  root : ns'.root = ns.root
  inode : ns'.inodeNumber = ns.inodeNumber
  parent : ∀ x, ns'.parent x = if x = d then v else ns.parent x
  list : ∀ x, (ns'.dentry x).childList =
    (if v = some x then [((ns'.dentry d).platformSafeName, d)] else []) ++
      without d (ns.dentry x).childList
  name : ∀ x, x ≠ d → (ns'.dentry x).platformSafeName = (ns.dentry x).platformSafeName
  isdir : ∀ x, x ≠ d → (ns'.dentry x).isdir = (ns.dentry x).isdir
  links : ∀ x, x ≠ d → (ns'.dentry x).linkCount +
      BitVec.ofNat 32 (linkOf (ns.parent d = some x) (ns.dentry d).isdir) =
    (ns.dentry x).linkCount + BitVec.ofNat 32 (linkOf (v = some x) (ns'.dentry d).isdir)
  fresh : ∀ x, ns.inodeNumber < x → ns'.parent x = none

namespace Relink

variable {ns ns' : Namespace} {d : ℕ} {v : Option ℕ}

theorem parent_eq (R : Relink ns ns' d v) : ns'.parent = update ns.parent d v := by
  funext x
  rw [R.parent, Function.update_apply]

theorem attached_iff (R : Relink ns ns' d v) {x : ℕ} (hx : x ≠ d) :
    ns'.Attached x ↔ ns.Attached x := by
  unfold Attached
  rw [R.root, R.parent, if_neg hx]

theorem mem_list (R : Relink ns ns' d v) {x : ℕ} {e : Path × ℕ} :
    e ∈ (ns'.dentry x).childList ↔
      (v = some x ∧ e = ((ns'.dentry d).platformSafeName, d)) ∨
        (e.2 ≠ d ∧ e ∈ (ns.dentry x).childList) := by
  rw [R.list, List.mem_append, without, List.mem_filter]
  split
  · rename_i hv
    simp [hv, and_comm]
  · rename_i hv
    simp [hv, and_comm]

/-- What a directory has in subdirectories besides `d`. -/
theorem subdirs_without (I : ns.TreeInv) (x : ℕ) :
    ns.subdirs x = (without d (ns.dentry x).childList).countP (fun e => (ns.dentry e.2).isdir) +
      linkOf (ns.parent d = some x) (ns.dentry d).isdir := by
  unfold subdirs without
  by_cases hd : ns.parent d = some x
  · have hmem := I.listed d x hd
    have hnd := I.nodup x
    generalize (ns.dentry x).childList = l at hmem hnd
    induction l with
    | nil => cases hmem
    | cons e l ih =>
      rw [List.map_cons, List.nodup_cons] at hnd
      by_cases he : e.2 = d
      · have hl : l.filter (fun e => decide (e.2 ≠ d)) = l := by
          refine List.filter_eq_self.mpr fun a ha => ?_
          have hne : a.2 ≠ d := fun h => hnd.1 (he ▸ h ▸ List.mem_map_of_mem ha)
          simpa using hne
        rw [List.filter_cons_of_neg (by simpa using he), hl, List.countP_cons, he]
        simp [linkOf, hd]
      · have hmem' : ((ns.dentry d).platformSafeName, d) ∈ l := by
          rcases List.mem_cons.mp hmem with h | h
          · exact absurd (congrArg Prod.snd h).symm he
          · exact h
        rw [List.filter_cons_of_pos (by simpa using he), List.countP_cons, List.countP_cons,
          ih hmem' hnd.2]
        omega
  · have hl : (ns.dentry x).childList.filter (fun e => decide (e.2 ≠ d)) =
        (ns.dentry x).childList := by
      refine List.filter_eq_self.mpr fun e he => ?_
      have hne : e.2 ≠ d := fun h => hd (h ▸ (I.entry x e he).1)
      simpa using hne
    rw [hl]
    simp [linkOf, hd]

theorem subdirs_eq (R : Relink ns ns' d v) (x : ℕ) :
    ns'.subdirs x =
      (without d (ns.dentry x).childList).countP (fun e => (ns.dentry e.2).isdir) +
        linkOf (v = some x) (ns'.dentry d).isdir := by
  have hrest : (without d (ns.dentry x).childList).countP (fun e => (ns'.dentry e.2).isdir) =
      (without d (ns.dentry x).childList).countP (fun e => (ns.dentry e.2).isdir) := by
    refine List.countP_congr fun e he => ?_
    rw [without, List.mem_filter] at he
    rw [R.isdir e.2 (by simpa using he.2)]
  unfold subdirs
  rw [R.list, List.countP_append, hrest]
  split
  · rename_i hv
    simp [linkOf, hv, List.countP_singleton]
    omega
  · rename_i hv
    simp [linkOf, hv]

/-- The link count of every directory but the moved one stays right. -/
theorem links_of_ne (R : Relink ns ns' d v) (I : ns.TreeInv) {x : ℕ} (hx : x ≠ d)
    (ha : ns.Attached x) (hdir : (ns.dentry x).isdir = true) :
    (ns'.dentry x).linkCount = BitVec.ofNat 32 (2 + ns'.subdirs x) := by
  have h := R.links x hx
  rw [I.links x ha hdir, subdirs_without (d := d) I x, ← Nat.add_assoc, BitVec.ofNat_add,
    BitVec.add_assoc, BitVec.add_comm (BitVec.ofNat 32 (linkOf (ns.parent d = some x) _)),
    ← BitVec.add_assoc] at h
  rw [add_right_cancel h, R.subdirs_eq x, ← Nat.add_assoc, ← BitVec.ofNat_add]

theorem nodup (R : Relink ns ns' d v) (I : ns.TreeInv) (x : ℕ) :
    ((ns'.dentry x).childList.map Prod.snd).Nodup := by
  have hrest : ((without d (ns.dentry x).childList).map Prod.snd).Nodup :=
    (I.nodup x).sublist (List.filter_sublist.map Prod.snd)
  rw [R.list]
  split
  · rw [List.singleton_append, List.map_cons, List.nodup_cons]
    refine ⟨fun h => ?_, hrest⟩
    obtain ⟨e, he, hed⟩ := List.mem_map.mp h
    rw [without, List.mem_filter] at he
    exact absurd hed (by simpa using he.2)
  · exact hrest

end Relink

variable {ns ns' : Namespace} {d q : ℕ}

/-- Taking a dentry without children out of the tree. -/
theorem TreeInv.relink_none (I : ns.TreeInv) (R : Relink ns ns' d none) (hd : d ≠ ns.root)
    (hc : (ns.dentry d).childList = []) : ns'.TreeInv where
  rootParent := by rw [R.root, R.parent, if_neg hd.symm, I.rootParent]
  rootDir := by rw [R.root, R.isdir _ hd.symm, I.rootDir]
  rootLe := by rw [R.root, R.inode]; exact I.rootLe
  entry := fun p e he => by
    rcases R.mem_list.mp he with ⟨h, -⟩ | ⟨hne, he⟩
    · cases h
    · rw [R.parent, if_neg hne, R.name _ hne]
      exact I.entry p e he
  listed := fun c p hcp => by
    rw [R.parent] at hcp
    split at hcp
    · cases hcp
    · rename_i hne
      rw [R.name c hne]
      exact R.mem_list.mpr (.inr ⟨hne, I.listed c p hcp⟩)
  nodup := R.nodup I
  fresh := fun x hx => R.fresh x (R.inode ▸ hx)
  climbs := fun x hx => by
    rw [R.parent] at hx
    split at hx
    · exact absurd rfl hx
    · rename_i hne
      rw [R.parent_eq, R.root]
      exact (I.climbs x hx).detach (I.no_child hc) hne
  links := fun x hx hdir => by
    have hne : x ≠ d := by
      rintro rfl
      rcases hx with h | h
      · exact hd (h.trans R.root)
      · exact h (by rw [R.parent, if_pos rfl])
    rw [R.isdir x hne] at hdir
    exact R.links_of_ne I hne ((R.attached_iff hne).mp hx) hdir

/-- What is known of the dentry that is placed: it was in the tree and only changes
its name and parent, or it is new. -/
def Placeable (ns ns' : Namespace) (d : ℕ) : Prop :=
  (ns.Attached d ∧ (ns'.dentry d).isdir = (ns.dentry d).isdir ∧
    (ns'.dentry d).linkCount = (ns.dentry d).linkCount) ∨
  (¬ ns.Attached d ∧ ((ns'.dentry d).isdir = true → (ns'.dentry d).linkCount = 2))

/-- Giving a dentry a parent that does not lie below it. -/
theorem TreeInv.relink_some (I : ns.TreeInv) (R : Relink ns ns' d (some q)) (hd : d ≠ ns.root)
    (hq : ns.Attached q) (hqd : ¬ Climbs ns.parent q d) (hP : Placeable ns ns' d) :
    ns'.TreeInv where
  rootParent := by rw [R.root, R.parent, if_neg hd.symm, I.rootParent]
  rootDir := by rw [R.root, R.isdir _ hd.symm, I.rootDir]
  rootLe := by rw [R.root, R.inode]; exact I.rootLe
  entry := fun p e he => by
    rcases R.mem_list.mp he with ⟨h, rfl⟩ | ⟨hne, he⟩
    · rw [R.parent, if_pos rfl]
      exact ⟨h, rfl⟩
    · rw [R.parent, if_neg hne, R.name _ hne]
      exact I.entry p e he
  listed := fun c p hcp => by
    rw [R.parent] at hcp
    split at hcp
    · rename_i hcd
      subst hcd
      exact R.mem_list.mpr (.inl ⟨hcp, rfl⟩)
    · rename_i hne
      rw [R.name c hne]
      exact R.mem_list.mpr (.inr ⟨hne, I.listed c p hcp⟩)
  nodup := R.nodup I
  fresh := fun x hx => R.fresh x (R.inode ▸ hx)
  climbs := fun x hx => by
    have hroot := I.climbs_of_attached hq
    rw [R.parent_eq, R.root]
    by_cases hxd : x = d
    · -- the moved dentry itself starts at its new parent
      subst hxd
      refine Climbs.step (b := q) ?_ (hroot.update_of_not _ hqd)
      rw [update_self]
    · rw [R.parent, if_neg hxd] at hx
      exact (I.climbs x hx).reparent hroot hqd
  links := fun x hx hdir => by
    by_cases hxd : x = d
    · subst hxd
      have hself : (some q : Option ℕ) ≠ some x := fun h => hqd (Option.some.inj h ▸ Climbs.refl)
      have hsub : ns'.subdirs x = ns.subdirs x := by
        have hpx : ns.parent x ≠ some x := fun h => by
          by_cases ha : ns.Attached x
          · -- a dentry that is its own parent never gets to the root
            have hloop : ∀ y, Climbs ns.parent x y → y = x := fun y hy => by
              induction hy with
              | refl => rfl
              | tail _ hyz ih =>
                rw [ih, h] at hyz
                exact (Option.some.inj hyz).symm
            exact hd (hloop _ (I.climbs_of_attached ha)).symm
          · exact ha (.inr (by simp [h]))
        rw [R.subdirs_eq, Relink.subdirs_without (d := x) I x]
        simp [linkOf, hself, hpx]
      rcases hP with ⟨ha, hi, hl⟩ | ⟨ha, hl⟩
      · rw [hl, hsub]
        exact I.links x ha (hi ▸ hdir)
      · rw [hl hdir, hsub]
        unfold subdirs
        rw [I.childList_of_detached ha]
        rfl
    · have ha := (R.attached_iff hxd).mp hx
      rw [R.isdir x hxd] at hdir
      exact R.links_of_ne I hxd ha hdir

theorem NamesUnique.relink {v : Option ℕ} (hn : ns.NamesUnique) (R : Relink ns ns' d v)
    (hname : ∀ x, v = some x → ∀ e ∈ (ns.dentry x).childList, e.2 ≠ d →
      e.1 ≠ (ns'.dentry d).platformSafeName) : ns'.NamesUnique := by
  intro x
  have hrest : ((without d (ns.dentry x).childList).map Prod.fst).Nodup :=
    (hn x).sublist (List.filter_sublist.map Prod.fst)
  rw [R.list]
  split
  · rename_i hv
    rw [List.singleton_append, List.map_cons, List.nodup_cons]
    refine ⟨fun h => ?_, hrest⟩
    obtain ⟨e, he, hed⟩ := List.mem_map.mp h
    rw [without, List.mem_filter] at he
    exact hname x hv e he.1 (by simpa using he.2) hed
  · exact hrest

/-! ## The three changes the operations make -/

/-- A directory with a new entry in front. -/
def addChild (isdir : Bool) (name : Path) (d : ℕ) (b : Dentry) : Dentry :=
  { b with
    childList := (name, d) :: b.childList
    linkCount := b.linkCount + if isdir then 1 else 0 }

/-- A directory without the entry found under a name. -/
def dropChild (isdir : Bool) (name : Path) (b : Dentry) : Dentry :=
  { b with
    childList := b.childList.eraseP (State.hasKey name)
    linkCount := b.linkCount - if isdir then 1 else 0 }

/-- A dentry that is taken out of the tree. -/
def gone (b : Dentry) : Dentry :=
  { b with deleted := true, parent := none, linkCount := b.linkCount - 1 }

/-- The new dentry `d` with the contents `b` is linked into `p`. -/
structure Link (ns ns' : Namespace) (p d : ℕ) (b : Dentry) : Prop where
  root : ns'.root = ns.root
  inode : ns'.inodeNumber = ns.inodeNumber
  ne : d ≠ p
  target : ns'.dentry p = addChild b.isdir b.platformSafeName d (ns.dentry p)
  new : ns'.dentry d = b
  others : ∀ x, x ≠ p → x ≠ d → ns'.dentry x = ns.dentry x
  parent : b.parent = some p
  linkCount : b.isdir = true → b.linkCount = 2
  childList : b.childList = []

/-- The dentry `d` is taken out of `p`. -/
structure Unlink (ns ns' : Namespace) (p d : ℕ) : Prop where
  root : ns'.root = ns.root
  inode : ns'.inodeNumber = ns.inodeNumber
  ne : d ≠ p
  source : ns'.dentry p =
    dropChild (ns.dentry d).isdir (ns.dentry d).platformSafeName (ns.dentry p)
  old : ns'.dentry d = gone (ns.dentry d)
  others : ∀ x, x ≠ p → x ≠ d → ns'.dentry x = ns.dentry x

/-- The dentry `d` moves from `p` to `q` and is called `name` there. -/
structure Move (ns ns' : Namespace) (p q d : ℕ) (name : Path) : Prop where
  root : ns'.root = ns.root
  inode : ns'.inodeNumber = ns.inodeNumber
  ne_from : d ≠ p
  ne_to : d ≠ q
  target : ns'.dentry q = addChild (ns.dentry d).isdir name d
    (if q = p then dropChild (ns.dentry d).isdir (ns.dentry d).platformSafeName (ns.dentry p)
      else ns.dentry q)
  source : p ≠ q → ns'.dentry p =
    dropChild (ns.dentry d).isdir (ns.dentry d).platformSafeName (ns.dentry p)
  moved : ns'.dentry d =
    { ns.dentry d with parent := some q, platformSafeName := name, dirty := true }
  others : ∀ x, x ≠ p → x ≠ q → x ≠ d → ns'.dentry x = ns.dentry x

section Changes

variable {ns ns' : Namespace} {d p : ℕ} {name : Path} {b : Dentry}

/-- The entry found under a name is the only one of its dentry. -/
theorem eraseP_eq_without {l : List (Path × ℕ)} (hnd : (l.map Prod.snd).Nodup) {e : Path × ℕ}
    (hf : l.find? (State.hasKey name) = some e) :
    l.eraseP (State.hasKey name) = without e.2 l := by
  induction l with
  | nil => simp at hf
  | cons a l ih =>
    rw [List.map_cons, List.nodup_cons] at hnd
    by_cases ha : State.hasKey name a = true
    · rw [List.find?_cons_of_pos ha] at hf
      obtain rfl : e = a := (Option.some.inj hf).symm
      rw [List.eraseP_cons_of_pos ha, without, List.filter_cons_of_neg (by simp)]
      symm
      refine List.filter_eq_self.mpr fun x hx => ?_
      have hne : x.2 ≠ e.2 := fun h => hnd.1 (h ▸ List.mem_map_of_mem hx)
      simpa using hne
    · rw [List.find?_cons_of_neg ha] at hf
      have hne : a.2 ≠ e.2 := fun h =>
        hnd.1 (h ▸ List.mem_map_of_mem (List.mem_of_find?_eq_some hf))
      rw [List.eraseP_cons_of_neg ha, ih hnd.2 hf, without, without,
        List.filter_cons_of_pos (by simpa using hne)]

/-- A dentry stands in the list of its parent only. -/
theorem TreeInv.without_of_ne (I : ns.TreeInv) {x : ℕ} (h : ns.parent d ≠ some x) :
    without d (ns.dentry x).childList = (ns.dentry x).childList := by
  refine List.filter_eq_self.mpr fun e he => ?_
  have hne : e.2 ≠ d := fun hed => h (hed ▸ (I.entry x e he).1)
  simpa using hne

theorem linkOf_eq (here isdir : Bool) :
    BitVec.ofNat 32 (linkOf here isdir) = if here = true then if isdir then 1 else 0 else 0 := by
  cases here <;> cases isdir <;> rfl

/-- `d` is the dentry its parent has under its name. -/
def FoundIn (ns : Namespace) (p d : ℕ) : Prop :=
  (ns.dentry p).childList.find? (State.hasKey (ns.dentry d).platformSafeName) =
    some ((ns.dentry d).platformSafeName, d)

theorem Link.relink (I : ns.TreeInv) (L : Link ns ns' p d b) (hd : ns.parent d = none)
    (hle : d ≤ ns.inodeNumber) (hc : (ns.dentry d).childList = []) :
    Relink ns ns' d (some p) := by
  have hwo : ∀ x, without d (ns.dentry x).childList = (ns.dentry x).childList := fun x =>
    I.without_of_ne (by simp [hd])
  have hpar : ∀ x, ns'.parent x = if x = d then some p else ns.parent x := by
    intro x
    unfold Namespace.parent
    by_cases hx : x = d
    · rw [if_pos hx, hx, L.new, L.parent]
    · by_cases hxp : x = p
      · rw [if_neg hx, hxp, L.target]
        rfl
      · rw [if_neg hx, L.others x hxp hx]
  refine ⟨L.root, L.inode, hpar, fun x => ?_, fun x hx => ?_, fun x hx => ?_, fun x hx => ?_,
    fun x hx => ?_⟩
  · rw [hwo, L.new]
    by_cases hxp : x = p
    · rw [hxp, if_pos rfl, L.target]
      rfl
    · rw [if_neg (by simpa using Ne.symm hxp)]
      by_cases hx : x = d
      · rw [hx, L.new, L.childList, hc]
        rfl
      · rw [L.others x hxp hx]
        rfl
  · by_cases hxp : x = p
    · rw [hxp, L.target]
      rfl
    · rw [L.others x hxp hx]
  · by_cases hxp : x = p
    · rw [hxp, L.target]
      rfl
    · rw [L.others x hxp hx]
  · rw [linkOf_eq, linkOf_eq, hd, L.new]
    by_cases hxp : x = p
    · rw [hxp, L.target]
      simp [addChild]
    · rw [L.others x hxp hx]
      simp [Ne.symm hxp]
  · rw [hpar, if_neg (by omega)]
    exact I.fresh x hx

theorem Unlink.relink (I : ns.TreeInv) (U : Unlink ns ns' p d) (hd : ns.parent d = some p)
    (hf : FoundIn ns p d) : Relink ns ns' d none := by
  have hatt : ns.Attached d := .inr (by simp [hd])
  have hle := I.le_of_attached hatt
  have hpar : ∀ x, ns'.parent x = if x = d then none else ns.parent x := by
    intro x
    unfold Namespace.parent
    by_cases hx : x = d
    · rw [if_pos hx, hx, U.old]
      rfl
    · by_cases hxp : x = p
      · rw [if_neg hx, hxp, U.source]
        rfl
      · rw [if_neg hx, U.others x hxp hx]
  refine ⟨U.root, U.inode, hpar, fun x => ?_, fun x hx => ?_, fun x hx => ?_, fun x hx => ?_,
    fun x hx => ?_⟩
  · rw [if_neg (by simp), List.nil_append]
    by_cases hxp : x = p
    · rw [hxp, U.source]
      exact eraseP_eq_without (I.nodup p) hf
    · rw [I.without_of_ne (by rw [hd]; simpa using Ne.symm hxp)]
      by_cases hx : x = d
      · rw [hx, U.old]
        rfl
      · rw [U.others x hxp hx]
  · by_cases hxp : x = p
    · rw [hxp, U.source]
      rfl
    · rw [U.others x hxp hx]
  · by_cases hxp : x = p
    · rw [hxp, U.source]
      rfl
    · rw [U.others x hxp hx]
  · rw [linkOf_eq, linkOf_eq, hd]
    by_cases hxp : x = p
    · rw [hxp, U.source]
      simp [dropChild]
    · rw [U.others x hxp hx]
      simp [Ne.symm hxp]
  · rw [hpar, if_neg (by omega)]
    exact I.fresh x hx

theorem Move.relink (I : ns.TreeInv) {q : ℕ} (M : Move ns ns' p q d name)
    (hd : ns.parent d = some p) (hf : FoundIn ns p d) : Relink ns ns' d (some q) := by
  have hatt : ns.Attached d := .inr (by simp [hd])
  have hle := I.le_of_attached hatt
  have hlist := eraseP_eq_without (I.nodup p) hf
  have hpar : ∀ x, ns'.parent x = if x = d then some q else ns.parent x := by
    intro x
    unfold Namespace.parent
    by_cases hx : x = d
    · rw [if_pos hx, hx, M.moved]
    · rw [if_neg hx]
      by_cases hxq : x = q
      · rw [hxq, M.target]
        split
        · rename_i hqp
          rw [hqp]
          rfl
        · rfl
      · by_cases hxp : x = p
        · rw [hxp, M.source (fun h => hxq (hxp.trans h))]
          rfl
        · rw [M.others x hxp hxq hx]
  refine ⟨M.root, M.inode, hpar, fun x => ?_, fun x hx => ?_, fun x hx => ?_, fun x hx => ?_,
    fun x hx => ?_⟩
  · rw [M.moved]
    by_cases hxq : x = q
    · rw [hxq, if_pos rfl, M.target]
      split
      · rename_i hqp
        rw [hqp]
        exact congrArg (List.cons (name, d)) hlist
      · rename_i hqp
        rw [I.without_of_ne (by rw [hd]; simpa using Ne.symm hqp)]
        rfl
    · rw [if_neg (by simpa using Ne.symm hxq), List.nil_append]
      by_cases hxp : x = p
      · rw [hxp, M.source (fun h => hxq (hxp.trans h))]
        exact hlist
      · rw [I.without_of_ne (by rw [hd]; simpa using Ne.symm hxp)]
        by_cases hx : x = d
        · rw [hx, M.moved]
        · rw [M.others x hxp hxq hx]
  · by_cases hxq : x = q
    · rw [hxq, M.target]
      split
      · rename_i hqp
        rw [hqp]
        rfl
      · rfl
    · by_cases hxp : x = p
      · rw [hxp, M.source (fun h => hxq (hxp.trans h))]
        rfl
      · rw [M.others x hxp hxq hx]
  · by_cases hxq : x = q
    · rw [hxq, M.target]
      split
      · rename_i hqp
        rw [hqp]
        rfl
      · rfl
    · by_cases hxp : x = p
      · rw [hxp, M.source (fun h => hxq (hxp.trans h))]
        rfl
      · rw [M.others x hxp hxq hx]
  · rw [linkOf_eq, linkOf_eq, hd, M.moved]
    by_cases hxq : x = q
    · rw [hxq, M.target]
      by_cases hqp : q = p
      · rw [if_pos hqp, hqp]
        simp [addChild, dropChild]
      · rw [if_neg hqp]
        simp [addChild, Ne.symm hqp]
    · by_cases hxp : x = p
      · have hpq : p ≠ q := fun h => hxq (hxp.trans h)
        rw [hxp, M.source hpq]
        simp [dropChild, Ne.symm hpq]
      · rw [M.others x hxp hxq hx]
        simp [Ne.symm hxp, Ne.symm hxq]
  · rw [hpar, if_neg (by omega)]
    exact I.fresh x hx

end Changes

end Namespace

end Ltfs.Fs

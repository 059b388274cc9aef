import Ltfs.Fs.UnlinkSpec

/-!
# Rename

`ltfs_fsops_rename` as a sequence of changes. `Ready` collects what the checks leave
for the move (`renameLoops_spec`, `renameIn_spec`), `RenamePost` the references that are
still to be given back. What stood at the destination goes before the move
(`unlinkTarget_spec`); `RenameSafe` is the condition on it.
-/

namespace Ltfs.Fs

open Function Namespace Lib.Forest

section Rename

variable {T : Terms} {fs fs' : State} {o : ℕ → ℕ} {p q d t : ℕ} {name : Path}

/-- The references to what may have been found. -/
def heldAny (o : ℕ → ℕ) : Option ℕ → ℕ → ℕ
  | none => o
  | some t => held o t

theorem heldAny_comm (o : ℕ → ℕ) (a : ℕ) (t : Option ℕ) :
    heldAny (held o a) t = held (heldAny o t) a := by
  cases t with
  | none => rfl
  | some t => exact held_comm o a t

theorem releaseUnless_spec (I : Inv fs (held o d)) (dir : ℕ) :
    Kept fs.toNamespace (fs.releaseUnless dir d).toNamespace ∧
      Inv (fs.releaseUnless dir d) o := by
  unfold State.releaseUnless
  split
  · exact ⟨Kept.refl _, I.unhold⟩
  · exact fsReleaseDentry_spec I

/-- The outcome of a lookup that may find nothing. -/
theorem lookup_cases (I : Inv fs o) (p : ℕ) (name : Path) :
    (fs.fsDirectoryLookup p name = (.error (-ltfsNametoolong), fs)) ∨
    (∃ fs', fs.fsDirectoryLookup p name = (.ok (fs.child p name), fs') ∧
      fs'.toNamespace = fs.toNamespace ∧ Inv fs' (heldAny o (fs.child p name))) := by
  rcases fsDirectoryLookup_spec I p name with h | ⟨fs₁, h, hnone, heq, I₁⟩ |
    ⟨d, fs₁, h, hsome, heq, I₁⟩
  · exact .inl h
  · rw [hnone]
    exact .inr ⟨fs₁, h, heq, I₁⟩
  · rw [hsome]
    exact .inr ⟨fs₁, h, heq, I₁⟩

/-- The lookups of a rename: both dentries are held, or nothing is. -/
theorem renameLookup_spec (I : Inv fs o) (p q : ℕ) (fromFilename toFilename : Path) :
    (∃ e fs', fs.renameLookup p q fromFilename toFilename = (.error e, fs') ∧
      Kept fs.toNamespace fs'.toNamespace ∧ Inv fs' o) ∨
    (∃ d fs', fs.renameLookup p q fromFilename toFilename =
        (.ok (d, fs.child q toFilename), fs') ∧
      fs.child p fromFilename = some d ∧ fs'.toNamespace = fs.toNamespace ∧
      Inv fs' (held (heldAny o (fs.child q toFilename)) d)) := by
  unfold State.renameLookup
  split
  · -- the destination is looked up first
    rcases lookup_cases I q toFilename with h | ⟨fs₁, h, heq, I₁⟩
    · rw [h]
      exact .inl ⟨_, _, rfl, Kept.refl _, I⟩
    · rw [h]
      dsimp only
      have hrelease : ∀ fs₂ : State, fs₂.toNamespace = fs.toNamespace →
          Inv fs₂ (heldAny o (fs.child q toFilename)) →
          Kept fs.toNamespace (match fs.child q toFilename with
            | none => fs₂
            | some todentry => fs₂.releaseUnless p todentry).toNamespace ∧
          Inv (match fs.child q toFilename with
            | none => fs₂
            | some todentry => fs₂.releaseUnless p todentry) o := by
        intro fs₂ heq₂ I₂
        cases hc : fs.child q toFilename with
        | none =>
          rw [hc] at I₂
          exact ⟨Kept.of_eq heq₂, I₂⟩
        | some t =>
          rw [hc] at I₂
          obtain ⟨hk, I₃⟩ := releaseUnless_spec I₂ p
          exact ⟨heq₂ ▸ hk, I₃⟩
      rcases lookup_cases I₁ p fromFilename with h₂ | ⟨fs₂, h₂, heq₂, I₂⟩
      · rw [h₂]
        exact .inl ⟨_, _, rfl, hrelease _ heq I₁⟩
      · rw [h₂]
        rw [heq] at I₂ heq₂
        cases hd : fs.child p fromFilename with
        | none =>
          rw [hd] at I₂
          rw [show fs₁.child p fromFilename = none from heq ▸ hd]
          exact .inl ⟨_, _, rfl, hrelease _ heq₂ I₂⟩
        | some d =>
          rw [hd] at I₂
          rw [show fs₁.child p fromFilename = some d from heq ▸ hd]
          exact .inr ⟨d, fs₂, rfl, rfl, heq₂, I₂⟩
  · rcases lookup_cases I p fromFilename with h | ⟨fs₁, h, heq, I₁⟩
    · rw [h]
      exact .inl ⟨_, _, rfl, Kept.refl _, I⟩
    · rw [h]
      cases hd : fs.child p fromFilename with
      | none =>
        rw [hd] at I₁
        exact .inl ⟨_, _, rfl, Kept.of_eq heq, I₁⟩
      | some d =>
        rw [hd] at I₁
        dsimp only
        rcases lookup_cases I₁ q toFilename with h₂ | ⟨fs₂, h₂, heq₂, I₂⟩
        · rw [h₂]
          obtain ⟨hk, I₂⟩ := releaseUnless_spec I₁ q
          exact .inl ⟨_, _, rfl, heq ▸ hk, I₂⟩
        · rw [h₂]
          rw [heq] at I₂ heq₂
          refine .inr ⟨d, fs₂, ?_, rfl, heq₂, heldAny_comm o d _ ▸ I₂⟩
          rw [show fs₁.child q toFilename = fs.child q toFilename from heq ▸ rfl]

/-- References when a dentry of the tree changes its place. -/
theorem handles_of_move (I : Inv fs o) (ha : fs.Attached d)
    (R : Relink fs.toNamespace fs'.toNamespace d (some q)) (hnum : fs'.numhandles = fs.numhandles) :
    HandlesOk fs' o := by
  constructor
  · intro x
    have hle := I.handles.le x
    rw [hnum]
    unfold Namespace.treeRef at hle ⊢
    by_cases hx : x = d
    · subst hx
      rw [if_pos ha] at hle
      rw [if_pos (.inr (by rw [R.parent, if_pos rfl]; exact Option.some_ne_none q))]
      exact hle
    · rw [if_congr (R.attached_iff hx) rfl rfl]
      exact hle
  · intro x hx
    exact I.handles.fresh x (R.inode ▸ hx)

/-- The move of a rename, up to the references. -/
theorem moveDentry_spec (name : Path) (I : Inv fs o) (R : Ready fs p q d) (env : Env)
    (fromNorm toDirNorm : Path) :
    ∃ fs', fs.moveDentry env p q d fromNorm toDirNorm name =
        ⟨0, some d, if env.ioschedInitialized then fs' else fs'.fsReleaseDentry d⟩ ∧
      Moved fs fs' fromNorm toDirNorm p q d name ∧ Inv fs' o := by
  have hdp : d ≠ p := by
    rintro rfl
    exact I.tree.parent_ne_self d R.parent
  have hdq : d ≠ q := by
    rintro rfl
    exact R.notBelow Climbs.refl
  have hq := I.quiet
  have hmoved : ∀ fs' : State,
      fs'.dentry = update (update (update fs.dentry p
          (dropChild (fs.dentry d).isdir (fs.dentry d).platformSafeName (fs.dentry p))) q
          (addChild (fs.dentry d).isdir name d
            (if q = p then dropChild (fs.dentry d).isdir (fs.dentry d).platformSafeName (fs.dentry p)
              else fs.dentry q))) d
        { fs.dentry d with parent := some q, platformSafeName := name, dirty := true } →
      fs'.root = fs.root → fs'.inodeNumber = fs.inodeNumber → fs'.uidNumber = fs.uidNumber →
      fs'.numhandles = fs.numhandles → HashQuiet fs' → fs'.fileCount = fs.fileCount →
      fs'.validBlocks = fs.validBlocks →
      (∃ a a' h h', (∀ x ∈ h, x = true) ∧ (∀ x ∈ h', x = true) ∧
        fs'.journal = ((if (fs.dentry d).isdir then
            fs.journal.incjRmdir a h fromNorm ⟨d, (fs.dentry d).uid, name, (fs.dentry d).isdir⟩
          else
            fs.journal.incjRmfile a h fromNorm
              ⟨d, (fs.dentry d).uid, name, (fs.dentry d).isdir⟩).journal.incjCreate a' h' toDirNorm
            ⟨d, (fs.dentry d).uid, name, (fs.dentry d).isdir⟩).journal) →
      Moved fs fs' fromNorm toDirNorm p q d name ∧ Inv fs' o := by
    intro fs' hdentry hroot hinode huid hnum hq' hfile hvalid hj
    have hmove : Move fs.toNamespace fs'.toNamespace p q d name := by
      refine ⟨hroot, hinode, hdp, hdq, ?_, ?_, ?_, ?_⟩
      · rw [hdentry, update_of_ne hdq.symm, update_self]
      · intro hpq
        rw [hdentry, update_of_ne hdp.symm, update_of_ne hpq, update_self]
      · rw [hdentry, update_self]
      · intro x hxp hxq hxd
        rw [hdentry, update_of_ne hxd, update_of_ne hxq, update_of_ne hxp]
    have hm : Moved fs fs' fromNorm toDirNorm p q d name :=
      ⟨R, hmove, huid, hfile, hvalid, hj⟩
    refine ⟨hm, hm.treeInv I.tree, ?_, hq'⟩
    exact handles_of_move I (.inr (by simp [R.parent])) (hm.relink I.tree) hnum
  unfold State.moveDentry
  have hfind : (fs.dentry p).childList.find? (State.hasKey (fs.dentry d).platformSafeName) =
    some ((fs.dentry d).platformSafeName, d) := R.found
  dsimp only
  rw [fsFindKey_of_quiet hq, hfind]
  dsimp only [Option.map_some]
  have hisdir : ((State.hashDel { fs with hashAlloc := fs.hashAlloc.tail } p
      (fs.dentry d).platformSafeName).dentry d).isdir = (fs.dentry d).isdir := by
    simp [State.hashDel, State.modify, hdp]
  rw [hisdir, fsAddKey_of_quiet (by split <;> exact tail_quiet hq)]
  dsimp only
  refine ⟨_, rfl, ?_⟩
  have htail : ∀ x ∈ fs.hashAlloc.tail.tail.tail.tail, x = true :=
    tail_quiet (tail_quiet (tail_quiet (tail_quiet hq)))
  apply hmoved
  · funext x
    by_cases hxd : x = d
    · subst hxd
      cases (fs.dentry x).isdir <;>
        simp [State.journalize, State.modify, State.hashDel, hdp, hdq]
    · by_cases hxq : x = q
      · subst hxq
        by_cases hxp : x = p
        · subst hxp
          cases (fs.dentry d).isdir <;>
            simp [State.journalize, State.modify, State.hashDel, hxd, hdp, dropChild, addChild]
        · cases (fs.dentry d).isdir <;>
            simp [State.journalize, State.modify, State.hashDel, hxd, hxp, hdp, hdq, addChild]
      · by_cases hxp : x = p
        · subst hxp
          cases (fs.dentry d).isdir <;>
            simp [State.journalize, State.modify, State.hashDel, hxd, hxq, dropChild]
        · cases (fs.dentry d).isdir <;>
            simp [State.journalize, State.modify, State.hashDel, hxd, hxq, hxp]
  · cases (fs.dentry d).isdir <;> rfl
  · cases (fs.dentry d).isdir <;> rfl
  · cases (fs.dentry d).isdir <;> rfl
  · cases (fs.dentry d).isdir <;> rfl
  · cases (fs.dentry d).isdir
    · exact incjCreate_quiet _ _ _ _ _ (incjRmfile_quiet _ _ _ _ _ htail)
    · exact incjCreate_quiet _ _ _ _ _ (incjRmdir_quiet _ _ _ _ _ htail)
  · cases (fs.dentry d).isdir <;> rfl
  · cases (fs.dentry d).isdir <;> rfl
  · cases hdir : (fs.dentry d).isdir with
    | false =>
      refine ⟨fs.alloc, (fs.journal.incjRmfile fs.alloc fs.hashAlloc.tail.tail.tail.tail fromNorm
        ⟨d, (fs.dentry d).uid, name, false⟩).alloc, fs.hashAlloc.tail.tail.tail.tail,
        (fs.journal.incjRmfile fs.alloc fs.hashAlloc.tail.tail.tail.tail fromNorm
        ⟨d, (fs.dentry d).uid, name, false⟩).hashAlloc, htail,
        incjRmfile_quiet _ _ _ _ _ htail, ?_⟩
      simp [State.journalize, State.journalTarget, State.modify, State.hashDel, hdp, hdq, hdir]
    | true =>
      refine ⟨fs.alloc, (fs.journal.incjRmdir fs.alloc fs.hashAlloc.tail.tail.tail.tail fromNorm
        ⟨d, (fs.dentry d).uid, name, true⟩).alloc, fs.hashAlloc.tail.tail.tail.tail,
        (fs.journal.incjRmdir fs.alloc fs.hashAlloc.tail.tail.tail.tail fromNorm
        ⟨d, (fs.dentry d).uid, name, true⟩).hashAlloc, htail,
        incjRmdir_quiet _ _ _ _ _ htail, ?_⟩
      simp [State.journalize, State.journalTarget, State.modify, State.hashDel, hdp, hdq, hdir]

/-- Unlinking what stands at the destination. -/
theorem unlinkTarget_spec (I : Inv fs (held o t)) (ht : fs.child q name = some t)
    (hc : (fs.dentry t).childList = []) (hqw : fs.isWorm q = false) (htw : fs.isWorm t = false) :
    ∃ fs₁ fs', fs.unlinkTarget q t = (true, fs') ∧ Detached fs fs₁ q t ∧
      Kept fs₁.toNamespace fs'.toNamespace ∧
      fs₁.fileCount = fs.fileCount - (if (fs.dentry q).isdir then 0 else 1) ∧
      fs₁.validBlocks = fs.validBlocks ∧ fs₁.journal = fs.journal ∧ Inv fs' o := by
  obtain ⟨hf, hp⟩ := foundIn_of_child I.tree ht
  have hne : t ≠ q := by
    rintro rfl
    exact I.tree.parent_ne_self t hp
  have hq := I.quiet
  have hdetached : ∀ fs₁ : State,
      fs₁.dentry = update (update fs.dentry q
        (dropChild (fs.dentry t).isdir (fs.dentry t).platformSafeName (fs.dentry q))) t
        (gone (fs.dentry t)) →
      fs₁.root = fs.root → fs₁.inodeNumber = fs.inodeNumber → fs₁.uidNumber = fs.uidNumber →
      fs₁.numhandles = update fs.numhandles t (fs.numhandles t - 1) → HashQuiet fs₁ →
      fs₁.fileCount = fs.fileCount - (if (fs.dentry q).isdir then 0 else 1) →
      fs₁.validBlocks = fs.validBlocks → fs₁.journal = fs.journal →
      ∃ fs₂ fs', ((true, fs₁.fsReleaseDentry t) : Bool × State) = (true, fs') ∧
        Detached fs fs₂ q t ∧ Kept fs₂.toNamespace fs'.toNamespace ∧
        fs₂.fileCount = fs.fileCount - (if (fs.dentry q).isdir then 0 else 1) ∧
        fs₂.validBlocks = fs.validBlocks ∧ fs₂.journal = fs.journal ∧ Inv fs' o := by
    intro fs₁ hdentry hroot hinode huid hnum hq₁ hfile hvalid hj
    have hunlink : Unlink fs.toNamespace fs₁.toNamespace q t := by
      refine ⟨hroot, hinode, hne, ?_, ?_, ?_⟩
      · rw [hdentry, update_of_ne hne.symm, update_self]
      · rw [hdentry, update_self]
      · intro x hxp hxd
        rw [hdentry, update_of_ne hxd, update_of_ne hxp]
    have hd : Detached fs fs₁ q t := ⟨hunlink, hp, hf, hc, hqw, htw, huid⟩
    have I₁ : Inv fs₁ (held o t) := by
      refine ⟨hd.treeInv I.tree, ?_, hq₁⟩
      exact handles_of_relink I (.inr (by simp [hp])) (hd.relink I.tree) (hd.ne_root I.tree) hnum
    obtain ⟨hk, I₂⟩ := fsReleaseDentry_spec I₁
    exact ⟨fs₁, _, rfl, hd, hk, hfile, hvalid, hj, I₂⟩
  unfold State.unlinkTarget
  dsimp only
  set fs₃ := State.modify (State.unhold (if (fs.dentry t).isdir = true then
    fs.modify q fun b => { b with linkCount := b.linkCount - 1 } else fs) t) t fun b =>
      { b with linkCount := b.linkCount - 1, parent := none, deleted := true } with hfs₃
  have hname : (fs₃.dentry t).platformSafeName = (fs.dentry t).platformSafeName := by
    rw [hfs₃]
    cases (fs.dentry t).isdir <;> simp [State.modify, State.unhold, hne]
  have hlist : (fs₃.dentry q).childList = (fs.dentry q).childList := by
    rw [hfs₃]
    cases (fs.dentry t).isdir <;> simp [State.modify, State.unhold, hne.symm]
  have hisdir : (fs₃.dentry q).isdir = (fs.dentry q).isdir := by
    rw [hfs₃]
    cases (fs.dentry t).isdir <;> simp [State.modify, State.unhold, hne.symm]
  have hq₃ : HashQuiet fs₃ := by
    rw [hfs₃]
    cases (fs.dentry t).isdir <;> exact hq
  have hfind : (fs.dentry q).childList.find? (State.hasKey (fs.dentry t).platformSafeName) =
    some ((fs.dentry t).platformSafeName, t) := hf
  rw [hname, hlist, fsFindKey_of_quiet hq₃, hfind]
  dsimp only [Option.map_some]
  have hisdir' : ((State.hashDel { fs₃ with hashAlloc := fs₃.hashAlloc.tail } q
      (fs.dentry t).platformSafeName).dentry q).isdir = (fs.dentry q).isdir := by
    rw [← hisdir]
    simp [State.hashDel, State.modify]
  rw [hisdir']
  apply hdetached
  · funext x
    rw [hfs₃]
    by_cases hxt : x = t
    · subst hxt
      cases (fs.dentry x).isdir <;> cases (fs.dentry q).isdir <;>
        simp [State.hashDel, State.modify, State.unhold, hne, gone]
    · by_cases hxq : x = q
      · subst hxq
        cases (fs.dentry t).isdir <;> cases (fs.dentry x).isdir <;>
          simp [State.hashDel, State.modify, State.unhold, hne, hxt, dropChild]
      · cases (fs.dentry t).isdir <;> cases (fs.dentry q).isdir <;>
          simp [State.hashDel, State.modify, State.unhold, hxt, hxq]
  · rw [hfs₃]
    cases (fs.dentry t).isdir <;> cases (fs.dentry q).isdir <;> rfl
  · rw [hfs₃]
    cases (fs.dentry t).isdir <;> cases (fs.dentry q).isdir <;> rfl
  · rw [hfs₃]
    cases (fs.dentry t).isdir <;> cases (fs.dentry q).isdir <;> rfl
  · rw [hfs₃]
    cases (fs.dentry t).isdir <;> cases (fs.dentry q).isdir <;> rfl
  · rw [hfs₃]
    cases (fs.dentry t).isdir <;> cases (fs.dentry q).isdir <;> exact tail_quiet hq
  · rw [hfs₃]
    cases (fs.dentry t).isdir <;> cases (fs.dentry q).isdir <;>
      simp [State.hashDel, State.modify, State.unhold]
  · rw [hfs₃]
    cases (fs.dentry t).isdir <;> cases (fs.dentry q).isdir <;> rfl
  · rw [hfs₃]
    cases (fs.dentry t).isdir <;> cases (fs.dentry q).isdir <;> rfl

/-- Nothing that makes a move possible depends on dentries outside of the tree. -/
theorem Ready.of_kept (I : fs.TreeInv) (R : Ready fs p q d)
    (hk : Kept fs.toNamespace fs'.toNamespace) : Ready fs' p q d := by
  have hs := hk.sameShape
  have hp := I.attached_of_parent R.parent
  have hd : fs.Attached d := .inr (by simp [R.parent])
  constructor
  · rw [hs.parent]
    exact R.parent
  · unfold FoundIn
    rw [hs.childList I, hs.name hd]
    exact R.found
  · exact hs.attached_iff.mpr R.attached
  · rw [funext hs.parent]
    exact R.notBelow
  · unfold State.isWorm
    rw [hk.attached p hp, hk.attached q R.attached]
    exact R.dirsFree
  · unfold State.isWorm
    rw [hk.attached d hd]
    exact R.free

/-- Removing an entry does not matter to a lookup of another name. -/
theorem find_eraseP {name name' : Path} (hne : name ≠ name') (l : List (Path × ℕ)) :
    (l.eraseP (State.hasKey name')).find? (State.hasKey name) = l.find? (State.hasKey name) := by
  induction l with
  | nil => rfl
  | cons e l ih =>
    by_cases he : State.hasKey name' e = true
    · have hnot : ¬ State.hasKey name e = true := by
        rw [hasKey_iff] at he ⊢
        exact fun h => hne (h.symm.trans he)
      rw [List.eraseP_cons_of_pos he, List.find?_cons_of_neg hnot]
    · rw [List.eraseP_cons_of_neg he, List.find?_cons, List.find?_cons, ih]

/-- Nor on another entry of the destination. -/
theorem Ready.of_detached (I : fs.TreeInv) (R : Ready fs p q d) (h : Detached fs fs' q t)
    (hne : t ≠ d) : Ready fs' p q d := by
  have hrel := h.relink I
  have hqt : q ≠ t := h.unlink.ne.symm
  -- the destination directory still looks the same to a guard
  have hworm : ∀ x, x ≠ t → fs'.isWorm x = fs.isWorm x := by
    intro x hx
    unfold State.isWorm
    by_cases hxq : x = q
    · rw [hxq, h.unlink.source]
      rfl
    · rw [h.unlink.others x hxq hx]
  have hpt : p ≠ t := by
    rintro rfl
    exact I.no_child h.childless d R.parent
  constructor
  · rw [hrel.parent, if_neg hne.symm]
    exact R.parent
  · have hname := hrel.name d hne.symm
    unfold FoundIn
    rw [hname]
    by_cases hpq : p = q
    · subst hpq
      -- the two entries have different names
      have hkey : (fs.dentry t).platformSafeName ≠ (fs.dentry d).platformSafeName := by
        intro heq
        have h₁ := h.found
        unfold FoundIn at h₁
        rw [heq, R.found, Option.some.injEq, Prod.mk.injEq] at h₁
        exact hne h₁.2.symm
      rw [h.unlink.source]
      exact (find_eraseP hkey.symm _).trans R.found
    · rw [h.unlink.others p hpq hpt]
      exact R.found
  · exact (hrel.attached_iff hqt).mpr R.attached
  · -- with one pointer less, nothing new lies above `q`
    intro hc
    apply R.notBelow
    apply hc.mono
    intro x y hxy
    rw [hrel.parent] at hxy
    split at hxy
    · cases hxy
    · exact hxy
  · rw [hworm p hpt, hworm q hqt]
    exact R.dirsFree
  · rw [hworm d hne.symm]
    exact R.free

/-- What stands at the destination is no regular file with children. -/
def ReplaceSafe (ns : Namespace) (toNorm : Path) : Prop :=
  ∀ q t, ns.walk ns.root (pathNames (State.fsSplitPath toNorm).1) = some q →
    ns.child q (State.fsSplitPath toNorm).2 = some t → (ns.dentry t).isdir = false →
    (ns.dentry t).childList = []

/-- What stands at the destination is of the kind of its directory, and has no blocks. -/
def ReplaceExact (ns : Namespace) (toNorm : Path) : Prop :=
  ∀ q t, ns.walk ns.root (pathNames (State.fsSplitPath toNorm).1) = some q →
    ns.child q (State.fsSplitPath toNorm).2 = some t →
    (ns.dentry t).isdir = (ns.dentry q).isdir ∧ (ns.dentry t).usedBlocks = 0

/-- The condition of the journal on a rename: it is not a directory that moves. -/
def RenamesFile (ns : Namespace) (fromNorm : Path) : Prop :=
  ∀ p d, ns.walk ns.root (pathNames (State.fsSplitPath fromNorm).1) = some p →
    ns.child p (State.fsSplitPath fromNorm).2 = some d → (ns.dentry d).isdir = false

/-- The condition on a rename. -/
structure RenameSafe (T : Terms) (ns : Namespace) (toNorm : Path) : Prop where
  childless : ReplaceSafe ns toNorm
  exact : T.exact → ReplaceExact ns toNorm

/-- What holds behind `out_unlock`: the two directories are still held, and so is the
source where it is released later on. -/
def RenamePost (T : Terms) (env : Env) (fs : State) (o : ℕ → ℕ) (r : State.Renamed) : Prop :=
  Changes T fs r.fs ∧
    match r.fromdentry with
    | none => Inv r.fs o
    | some d =>
      if r.ret = 0 ∧ env.ioschedInitialized = true then Inv r.fs (held o d) else Inv r.fs o

variable {fromNorm toNorm : Path} {env : Env}

/-- The dentries a rename is about, by their paths. -/
structure Found (ns : Namespace) (fromNorm toNorm : Path) (p q d : ℕ) : Prop where
  fromDir : ns.walk ns.root (pathNames (State.fsSplitPath fromNorm).1) = some p
  source : ns.child p (State.fsSplitPath fromNorm).2 = some d
  toDir : ns.walk ns.root (pathNames (State.fsSplitPath toNorm).1) = some q

theorem Found.of_kept (I : fs.TreeInv) (hF : Found fs.toNamespace fromNorm toNorm p q d)
    (hk : Kept fs.toNamespace fs'.toNamespace) : Found fs'.toNamespace fromNorm toNorm p q d := by
  have hs := hk.sameShape
  constructor
  · rw [hs.root, hs.walk I]
    exact hF.fromDir
  · rw [hs.child I]
    exact hF.source
  · rw [hs.root, hs.walk I]
    exact hF.toDir

theorem RenamesFile.of_kept (I : fs.TreeInv) (h : RenamesFile fs.toNamespace fromNorm)
    (hk : Kept fs.toNamespace fs'.toNamespace) : RenamesFile fs'.toNamespace fromNorm := by
  have hs := hk.sameShape
  intro p d hp hd
  rw [hs.root, hs.walk I] at hp
  rw [hs.child I] at hd
  have ha : fs.Attached d := .inr (by simp [(child_spec I hd).2.1])
  rw [hk.attached d ha]
  exact h p d hp hd

/-- A move at the end of a rename. -/
theorem rename_post (I : Inv fs' (held o d)) (hR : Ready fs' p q d)
    (hF : Found fs.toNamespace fromNorm toNorm p q d)
    (hc : Cleared T fs fs' q d (State.fsSplitPath toNorm).2)
    (hfile : T.journal → RenamesFile fs.toNamespace fromNorm) :
    RenamePost T env fs o (fs'.moveDentry env p q d fromNorm (State.fsSplitPath toNorm).1
      (State.fsSplitPath toNorm).2) := by
  obtain ⟨fs₁, h, hm, I₁⟩ := moveDentry_spec (State.fsSplitPath toNorm).2 I hR env fromNorm
    (State.fsSplitPath toNorm).1
  rw [h]
  have hchange : Changes T fs fs₁ :=
    .single (.rename fromNorm (State.fsSplitPath toNorm).1 p q d _ fs' hF.fromDir hF.source
      hF.toDir hc hm fun hj => hfile hj p d hF.fromDir hF.source)
  unfold RenamePost
  cases hi : env.ioschedInitialized with
  | true => simpa using And.intro hchange I₁
  | false =>
    obtain ⟨hk, I₂⟩ := fsReleaseDentry_spec I₁
    simpa using And.intro (hchange.trans (Changes.of_kept hk)) I₂

theorem RenamePost.of_changes {r : State.Renamed} (hc : Changes T fs fs')
    (h : RenamePost T env fs' o r) : RenamePost T env fs o r :=
  ⟨hc.trans h.1, h.2⟩

theorem renamePost_error {r : State.Renamed} (hc : Changes T fs r.fs) (I : Inv r.fs o)
    (hr : r.ret ≠ 0) : RenamePost T env fs o r := by
  refine ⟨hc, ?_⟩
  split
  · exact I
  · rw [if_neg (fun h => hr h.1)]
    exact I

/-- `ltfs_fsops_rename` between two dentries that may be renamed. -/
theorem renameChecked_spec {todentry : Option ℕ} (I : Inv fs (held (heldAny o todentry) d))
    (R : Ready fs p q d) (hF : Found fs.toNamespace fromNorm toNorm p q d)
    (ht : fs.child q (State.fsSplitPath toNorm).2 = todentry)
    (hworm : todentry.any fs.isWorm = false) (hsafe : RenameSafe T fs.toNamespace toNorm)
    (hfile : T.journal → RenamesFile fs.toNamespace fromNorm) :
    RenamePost T env fs o (fs.renameChecked env p q d todentry fromNorm
      (State.fsSplitPath toNorm).1 (State.fsSplitPath toNorm).2) := by
  unfold State.renameChecked
  cases todentry with
  | none => exact rename_post I R hF (.unused rfl ht) hfile
  | some t =>
    dsimp only
    have I : Inv fs (held (held o t) d) := I
    by_cases hne : t = d
    · -- both names lead to the same dentry
      subst hne
      rw [if_neg (by simp)]
      obtain ⟨hk, I₁⟩ := fsReleaseDentry_spec I
      refine RenamePost.of_changes (Changes.of_kept hk) ?_
      have hF' := hF.of_kept I.tree hk
      refine rename_post I₁ (R.of_kept I.tree hk) hF' (.self rfl ?_) fun hj => ?_
      · rw [hk.sameShape.child I.tree]
        exact ht
      · exact (hfile hj).of_kept I.tree hk
    · rw [if_pos hne]
      split
      · obtain ⟨hk₁, I₁⟩ := fsReleaseDentry_spec I
        obtain ⟨hk₂, I₂⟩ := fsReleaseDentry_spec I₁
        exact renamePost_error (Changes.of_kept (hk₁.trans hk₂)) I₂ (by dsimp only; decide)
      · rename_i hempty
        have hc : (fs.dentry t).childList = [] := by
          cases hdir : (fs.dentry t).isdir with
          | false => exact hsafe.childless q t hF.toDir ht hdir
          | true => simpa [hdir] using hempty
        rw [held_comm] at I
        obtain ⟨fs₁, fs₂, h, hd, hk, hcount, hvalid, hj, I₂⟩ := unlinkTarget_spec I ht hc R.dirsFree.2
          (by simpa using hworm)
        rw [h]
        have I₁ := hd.treeInv I.tree
        refine rename_post I₂ ((R.of_detached I.tree hd hne).of_kept I₁ hk) hF ?_ hfile
        exact .replaced t fs₁ hne ht hd hk hcount hvalid hj
          (fun hx => hsafe.exact hx q t hF.toDir ht)

/-- The checks for loops are exact. -/
theorem renameLoops_spec (I : fs.TreeInv) (hq : fs.Attached q) {todentry : Option ℕ}
    (h : ¬ fs.renameLoops p q d todentry < 0) : ¬ Climbs fs.parent q d := by
  intro hc
  apply h
  unfold State.renameLoops
  rw [if_pos (.inr ((I.fsIsPredecessor_iff hq).mpr hc))]
  decide

/-- `ltfs_fsops_rename` between two directories that were found. -/
theorem renameIn_spec (env : Env) (I : Inv fs o) (hq : fs.Attached q)
    (hfrom : fs.walk fs.root (pathNames (State.fsSplitPath fromNorm).1) = some p)
    (hto : fs.walk fs.root (pathNames (State.fsSplitPath toNorm).1) = some q)
    (hsafe : RenameSafe T fs.toNamespace toNorm)
    (hfile : T.journal → RenamesFile fs.toNamespace fromNorm) :
    RenamePost T env fs o (fs.renameIn env p q fromNorm (State.fsSplitPath fromNorm).2
      (State.fsSplitPath toNorm).1 (State.fsSplitPath toNorm).2) := by
  unfold State.renameIn
  split
  · exact ⟨Changes.refl, I⟩
  · rename_i hdirs
    rcases renameLookup_spec I p q (State.fsSplitPath fromNorm).2 (State.fsSplitPath toNorm).2 with
      ⟨e, fs₁, h, hk, I₁⟩ | ⟨d, fs₁, h, hd, heq, I₁⟩
    · rw [h]
      exact ⟨Changes.of_kept hk, I₁⟩
    · rw [h]
      dsimp only
      have hsame : Changes T fs fs₁ := Changes.of_eq heq
      refine RenamePost.of_changes hsame ?_
      -- from here on the state is the one behind the lookups
      rw [← heq] at hq hfrom hto hsafe hfile hd
      have ht : fs₁.child q (State.fsSplitPath toNorm).2 =
        fs.child q (State.fsSplitPath toNorm).2 := by rw [heq]
      have hworms : ∀ x, fs.isWorm x = fs₁.isWorm x := fun x => by
        unfold State.isWorm
        rw [heq]
      rw [hworms, hworms] at hdirs
      generalize fs.child q (State.fsSplitPath toNorm).2 = todentry at I₁ ht
      obtain ⟨hf, hpar⟩ := foundIn_of_child I₁.tree hd
      split
      · rename_i hloop
        obtain ⟨hk₁, I₂⟩ := releaseUnless_spec I₁ q
        cases todentry with
        | none => exact renamePost_error (Changes.of_kept hk₁) I₂ (ne_of_lt hloop)
        | some t =>
          obtain ⟨hk₂, I₃⟩ := releaseUnless_spec I₂ p
          exact renamePost_error (Changes.of_kept (hk₁.trans hk₂)) I₃ (ne_of_lt hloop)
      · rename_i hloop
        split
        · -- the destination stays held, nobody gives this reference back
          obtain ⟨hk₁, I₂⟩ := fsReleaseDentry_spec I₁
          refine renamePost_error (Changes.of_kept hk₁) ?_ (by dsimp only; decide)
          cases todentry with
          | none => exact I₂
          | some t => exact I₂.weaken
        · rename_i hdw
          split
          · obtain ⟨hk₁, I₂⟩ := fsReleaseDentry_spec I₁
            cases todentry with
            | none => exact renamePost_error (Changes.of_kept hk₁) I₂ (by dsimp only; decide)
            | some t =>
              obtain ⟨hk₂, I₃⟩ := fsReleaseDentry_spec I₂
              exact renamePost_error (Changes.of_kept (hk₁.trans hk₂)) I₃ (by dsimp only; decide)
          · rename_i htw
            have R : Ready fs₁ p q d := by
              refine ⟨hpar, hf, hq, renameLoops_spec I₁.tree hq hloop, ?_, ?_⟩
              · simpa using hdirs
              · simpa using hdw
            exact renameChecked_spec I₁ R ⟨hfrom, hd, hto⟩ ht (by simpa using htw) hsafe hfile

theorem releaseDirs_spec (I : Inv fs (held (held o p) q)) :
    Kept fs.toNamespace ((fs.fsReleaseDentry p).fsReleaseDentry q).toNamespace ∧
      Inv ((fs.fsReleaseDentry p).fsReleaseDentry q) o := by
  rw [held_comm] at I
  obtain ⟨hk₁, I₁⟩ := fsReleaseDentry_spec I
  obtain ⟨hk₂, I₂⟩ := fsReleaseDentry_spec I₁
  exact ⟨hk₁.trans hk₂, I₂⟩

theorem renameCopies_spec (I : Inv fs o) :
    ∃ ok a, fs.renameCopies = (ok, { fs with alloc := a }) ∧ Inv { fs with alloc := a } o := by
  unfold State.renameCopies State.malloc
  dsimp only
  split
  · exact ⟨_, _, rfl, I.alloc _⟩
  · exact ⟨_, _, rfl, I.alloc _⟩

variable (normalize : List UInt8 → Except ℤ (List UInt8))

/-- `ltfs_fsops_rename`. -/
theorem ltfsFsopsRename_spec (I : Inv fs o) (src dst : Path)
    (hsafe : ∀ toNorm, NameCodec.pathnameFormat normalize dst true = .ok toNorm →
      RenameSafe T fs.toNamespace toNorm)
    (hfile : ∀ fromNorm, State.formatSource normalize src = .ok fromNorm →
      T.journal → RenamesFile fs.toNamespace fromNorm) :
    Changes T fs (fs.ltfsFsopsRename normalize env src dst).2 ∧
      Inv (fs.ltfsFsopsRename normalize env src dst).2 o := by
  have hrefused : Changes T fs fs ∧ Inv fs o := ⟨Changes.refl, I⟩
  unfold State.ltfsFsopsRename
  split
  · exact hrefused
  · split
    · exact hrefused
    · split
      · exact hrefused
      · rename_i fromNorm hfromNorm
        split
        · exact hrefused
        · rename_i toNorm htoNorm
          obtain ⟨ok, a, h, I₀⟩ := renameCopies_spec I
          have hc₀ : Changes T fs { fs with alloc := a } := Changes.of_eq rfl
          rw [h]
          cases ok with
          | false => exact ⟨hc₀, I₀⟩
          | true =>
            dsimp only
            split
            · exact ⟨hc₀, I₀⟩
            · rcases fsPathLookup_spec false (State.fsSplitPath fromNorm).1 I₀ with
                ⟨e, fs₁, h₁, hk, I₁⟩ | ⟨p, fs₁, h₁, hfrom, hp, heq, I₁⟩
              · rw [h₁]
                exact ⟨hc₀.trans (Changes.of_kept hk), I₁⟩
              · rw [h₁]
                rw [if_neg (by simp)] at I₁
                dsimp only
                have hc₁ : Changes T fs fs₁ := Changes.of_eq heq
                rcases fsPathLookup_spec false (State.fsSplitPath toNorm).1 I₁ with
                  ⟨e, fs₂, h₂, hk, I₂⟩ | ⟨q, fs₂, h₂, hto, hq, heq₂, I₂⟩
                · rw [h₂]
                  obtain ⟨hk', I₃⟩ := fsReleaseDentry_spec I₂
                  exact ⟨hc₁.trans (Changes.of_kept (hk.trans hk')), I₃⟩
                · rw [h₂]
                  rw [if_neg (by simp)] at I₂
                  dsimp only
                  have heq' : fs₂.toNamespace = fs.toNamespace := heq₂.trans heq
                  have hc₂ : Changes T fs fs₂ := Changes.of_eq heq'
                  have hpost := renameIn_spec env I₂ (by rw [heq₂]; exact hq)
                    (by rw [heq']; exact hfrom) (by rw [heq₂]; exact hto)
                    (by rw [heq']; exact hsafe toNorm htoNorm)
                    (by rw [heq']; exact hfile fromNorm hfromNorm)
                  obtain ⟨hc, I₃⟩ := hpost
                  generalize fs₂.renameIn env p q fromNorm (State.fsSplitPath fromNorm).2
                    (State.fsSplitPath toNorm).1 (State.fsSplitPath toNorm).2 = r at hc I₃
                  obtain ⟨ret, fromdentry, fs₃⟩ := r
                  dsimp only at hc I₃ ⊢
                  have hc₃ := hc₂.trans hc
                  cases fromdentry with
                  | none =>
                    obtain ⟨hk, I₄⟩ := releaseDirs_spec I₃
                    exact ⟨hc₃.trans (Changes.of_kept hk), I₄⟩
                  | some d =>
                    dsimp only at I₃ ⊢
                    split
                    · rename_i hret
                      rw [if_pos hret, held_comm, held_comm o p d] at I₃
                      obtain ⟨hk, I₄⟩ := releaseDirs_spec I₃
                      obtain ⟨hk', I₅⟩ := fsReleaseDentry_spec I₄
                      exact ⟨hc₃.trans (Changes.of_kept (hk.trans hk')), I₅⟩
                    · rename_i hret
                      rw [if_neg hret] at I₃
                      obtain ⟨hk, I₄⟩ := releaseDirs_spec I₃
                      exact ⟨hc₃.trans (Changes.of_kept hk), I₄⟩

end Rename
end Ltfs.Fs

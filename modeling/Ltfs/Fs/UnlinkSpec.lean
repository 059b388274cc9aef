import Ltfs.Fs.CreateSpec

/-!
# Unlink

`ltfs_fsops_unlink` as a sequence of changes. The code looks at the children of a
directory only, so that a regular file has none is a condition (`UnlinkSafe`).
-/

namespace Ltfs.Fs

open Function Namespace Lib.Forest

section Unlink

variable {T : Terms} {fs fs' : State} {o : ℕ → ℕ} {p d : ℕ} {name path : Path}

/-- A dentry found under a name is the one its parent has under its name. -/
theorem foundIn_of_child {ns : Namespace} (I : ns.TreeInv) (h : ns.child p name = some d) :
    FoundIn ns p d ∧ ns.parent d = some p := by
  obtain ⟨hfind, hparent, hname⟩ := child_spec I h
  unfold FoundIn
  rw [hname]
  exact ⟨hfind, hparent⟩

/-- References when the tree lets a dentry go and one reference is given back. -/
theorem handles_of_relink (I : Inv fs o) (ha : fs.Attached d)
    (R : Relink fs.toNamespace fs'.toNamespace d none) (hroot : d ≠ fs.root)
    (hnum : fs'.numhandles = update fs.numhandles d (fs.numhandles d - 1)) : HandlesOk fs' o := by
  constructor
  · intro x
    have hle := I.handles.le x
    rw [hnum, update_apply]
    unfold Namespace.treeRef at hle ⊢
    by_cases hx : x = d
    · subst hx
      have hdet : ¬ fs'.Attached x := by
        intro h
        rcases h with h | h
        · exact hroot (h.trans R.root)
        · exact h (by rw [R.parent, if_pos rfl])
      rw [if_pos ha] at hle
      rw [if_neg hdet, if_pos rfl]
      omega
    · rw [if_congr (R.attached_iff hx) rfl rfl, if_neg hx]
      exact hle
  · intro x hx
    exact I.handles.fresh x (R.inode ▸ hx)

/-- `ltfs_fsops_unlink` from the hash table on. -/
theorem unlinkFound_spec (I : Inv fs o) (hp : fs.parent d = some p)
    (hf : FoundIn fs.toNamespace p d) (hc : (fs.dentry d).childList = [])
    (hpw : fs.isWorm p = false) (hdw : fs.isWorm d = false)
    (hpath : fs.walk fs.root (pathNames path) = some d)
    (hkeeps : T.journal → (fs.dentry d).isdir = true → DropsOwn fs.toNamespace path d) :
    Change T fs (fs.unlinkFound p d path) ∧ Inv (fs.unlinkFound p d path) o := by
  have hne : d ≠ p := by
    rintro rfl
    exact I.tree.parent_ne_self d hp
  have hchange : ∀ fs' : State,
      fs'.dentry = update (update fs.dentry p
        (dropChild (fs.dentry d).isdir (fs.dentry d).platformSafeName (fs.dentry p))) d
        (gone (fs.dentry d)) →
      fs'.root = fs.root → fs'.inodeNumber = fs.inodeNumber → fs'.uidNumber = fs.uidNumber →
      fs'.numhandles = update fs.numhandles d (fs.numhandles d - 1) → HashQuiet fs' →
      fs'.fileCount = fs.fileCount - (if (fs.dentry d).isdir then 0 else 1) →
      fs'.validBlocks = fs.validBlocks - (fs.dentry d).usedBlocks →
      (∃ a h, (∀ x ∈ h, x = true) ∧ fs'.journal =
        (if (fs.dentry d).isdir then fs.journal.incjRmdir a h path (fs.journalTarget d)
          else fs.journal.incjRmfile a h path (fs.journalTarget d)).journal) →
      Change T fs fs' ∧ Inv fs' o := by
    intro fs' hdentry hroot hinode huid hnum hq hfile hvalid hj
    have hunlink : Unlink fs.toNamespace fs'.toNamespace p d := by
      refine ⟨hroot, hinode, hne, ?_, ?_, ?_⟩
      · rw [hdentry, update_of_ne hne.symm, update_self]
      · rw [hdentry, update_self]
      · intro x hxp hxd
        rw [hdentry, update_of_ne hxd, update_of_ne hxp]
    have hd : Detached fs fs' p d := ⟨hunlink, hp, hf, hc, hpw, hdw, huid⟩
    refine ⟨.unlink path p d hd hpath hfile hvalid hj hkeeps, hd.treeInv I.tree, ?_, hq⟩
    exact handles_of_relink I (.inr (by simp [hp])) (hd.relink I.tree) (hd.ne_root I.tree) hnum
  have hq := I.quiet
  have hisdir : (((fs.hashDel p (fs.dentry d).platformSafeName).modify d fun b =>
      { b with deleted := true, parent := none, linkCount := b.linkCount - 1 }).dentry d).isdir =
      (fs.dentry d).isdir := by
    simp [State.hashDel, State.modify, hne]
  unfold State.unlinkFound
  dsimp only
  rw [hisdir]
  apply hchange
  · funext x
    by_cases hxd : x = d
    · subst hxd
      cases (fs.dentry x).isdir <;>
        simp [State.journalize, State.unhold, State.modify, State.hashDel, hne, gone]
    · by_cases hxp : x = p
      · subst hxp
        cases (fs.dentry d).isdir <;>
          simp [State.journalize, State.unhold, State.modify, State.hashDel, hxd, hne, dropChild]
      · cases (fs.dentry d).isdir <;>
          simp [State.journalize, State.unhold, State.modify, State.hashDel, hxd, hxp]
  · cases (fs.dentry d).isdir <;> rfl
  · cases (fs.dentry d).isdir <;> rfl
  · cases (fs.dentry d).isdir <;> rfl
  · cases (fs.dentry d).isdir <;> rfl
  · cases (fs.dentry d).isdir
    · exact incjRmfile_quiet _ _ _ _ _ hq
    · exact incjRmdir_quiet _ _ _ _ _ hq
  · cases (fs.dentry d).isdir
    · rfl
    · exact (sub_zero fs.fileCount).symm
  · cases (fs.dentry d).isdir <;>
      simp [State.journalize, State.unhold, State.modify, State.hashDel, hne, hne.symm]
  · refine ⟨fs.alloc, fs.hashAlloc, hq, ?_⟩
    cases hdir : (fs.dentry d).isdir
    · simp [State.journalize, State.journalTarget, State.unhold, State.modify, State.hashDel, hne]
    · simp [State.journalize, State.journalTarget, State.unhold, State.modify, State.hashDel, hne]

/-- The last step of a walk. -/
theorem walk_found {ns : Namespace} {names : List Path} {r : ℕ} (h : ns.walk r names = some d)
    (hne : names ≠ []) : ∃ p name, ns.child p name = some d := by
  induction names generalizing r with
  | nil => exact absurd rfl hne
  | cons name rest ih =>
    unfold Namespace.walk at h
    obtain ⟨c, hc, h⟩ := Option.bind_eq_some_iff.mp h
    cases rest with
    | nil =>
      cases h
      exact ⟨r, name, hc⟩
    | cons name' rest => exact ih h (List.cons_ne_nil _ _)

theorem pathNames_ne_nil (h : path.drop 1 ≠ []) : pathNames path ≠ [] := by
  unfold pathNames
  rw [if_neg]
  · exact List.splitOn_ne_nil _ _
  · rintro (rfl | rfl)
    · exact h rfl
    · exact h rfl

/-- `ltfs_fsops_unlink` of a dentry that was found. -/
theorem unlinkIn_spec (I : Inv fs o) (hp : fs.parent d = some p) (hf : FoundIn fs.toNamespace p d)
    (hpath : fs.walk fs.root (pathNames path) = some d)
    (hfile : (fs.dentry d).isdir = false → (fs.dentry d).childList = [])
    (hkeeps : T.journal → (fs.dentry d).isdir = true → DropsOwn fs.toNamespace path d) :
    Changes T fs (fs.unlinkIn p d path).2 ∧ Inv (fs.unlinkIn p d path).2 o := by
  have hrefused : Changes T fs fs ∧ Inv fs o := ⟨.refl, I⟩
  unfold State.unlinkIn
  dsimp only
  split
  · exact hrefused
  · rename_i hpw
    split
    · exact hrefused
    · rename_i hdw
      split
      · exact hrefused
      · rename_i hempty
        have hc : (fs.dentry d).childList = [] := by
          cases hdir : (fs.dentry d).isdir with
          | false => exact hfile hdir
          | true => simpa [hdir] using hempty
        have hfind : (fs.dentry p).childList.find? (State.hasKey (fs.dentry d).platformSafeName) =
          some ((fs.dentry d).platformSafeName, d) := hf
        rw [fsFindKey_of_quiet I.quiet, hfind]
        dsimp only [Option.map_some]
        obtain ⟨hchange, I'⟩ := unlinkFound_spec (T := T) I.hashTail hp hf hc
          (Bool.eq_false_iff.mpr hpw) (Bool.eq_false_iff.mpr hdw) hpath hkeeps
        have hsame : Changes T fs { fs with hashAlloc := fs.hashAlloc.tail } := Changes.of_eq rfl
        exact ⟨hsame.tail hchange, I'⟩

variable (normalize : List UInt8 → Except ℤ (List UInt8)) (env : Env)

/-- The condition on an unlink: no regular file with children goes. -/
def UnlinkSafe (ns : Namespace) (path : Path) : Prop :=
  ∀ d, ns.walk ns.root (pathNames path) = some d → (ns.dentry d).isdir = false →
    (ns.dentry d).childList = []

/-- The condition of the journal on an unlink: if a directory goes, no entry of another
dentry goes with it. -/
def UnlinkKeeps (ns : Namespace) (path : Path) : Prop :=
  ∀ d, ns.walk ns.root (pathNames path) = some d → (ns.dentry d).isdir = true →
    DropsOwn ns path d

/-- `ltfs_fsops_unlink`. -/
theorem ltfsFsopsUnlink_spec (I : Inv fs o)
    (hsafe : ∀ pathNorm, State.formatSource normalize path = .ok pathNorm →
      UnlinkSafe fs.toNamespace pathNorm ∧ (T.journal → UnlinkKeeps fs.toNamespace pathNorm)) :
    Changes T fs (fs.ltfsFsopsUnlink normalize env path).2 ∧
      Inv (fs.ltfsFsopsUnlink normalize env path).2 o := by
  have hrefused : Changes T fs fs ∧ Inv fs o := ⟨.refl, I⟩
  unfold State.ltfsFsopsUnlink
  split
  · exact hrefused
  · split
    · exact hrefused
    · split
      · exact hrefused
      · rename_i pathNorm hnorm
        split
        · exact hrefused
        · rename_i hroot
          split
          · exact hrefused
          · have hne := pathNames_ne_nil hroot
            rcases fsPathLookup_spec true pathNorm I with
              ⟨e, fs₁, h, hk, I₁⟩ | ⟨d, fs₁, h, hfound, ha, heq, I₁⟩
            · rw [h]
              exact ⟨Changes.of_kept hk, I₁⟩
            · rw [h]
              rw [if_pos ⟨rfl, hne⟩] at I₁
              obtain ⟨p, hp, I₁⟩ := I₁
              obtain ⟨p', name, hchild⟩ := walk_found hfound hne
              obtain ⟨hf, hp'⟩ := foundIn_of_child I.tree hchild
              obtain rfl : p' = p := by
                rw [hp'] at hp
                exact Option.some.inj hp
              rw [← heq] at hp hf hfound
              have hp₁ : (fs₁.dentry d).parent = some p' := hp
              dsimp only
              rw [hp₁]
              dsimp only
              rw [← heq] at hsafe
              obtain ⟨hsafe, hkeeps⟩ := hsafe pathNorm hnorm
              obtain ⟨hc, I₂⟩ := unlinkIn_spec (T := T) I₁ hp hf hfound (hsafe d hfound)
                fun hj => hkeeps hj d hfound
              rw [held_comm] at I₂
              obtain ⟨hk₃, I₃⟩ := fsReleaseDentry_spec I₂
              obtain ⟨hk₄, I₄⟩ := fsReleaseDentry_spec I₃
              exact ⟨((Changes.of_eq heq).trans hc).trans (Changes.of_kept (hk₃.trans hk₄)), I₄⟩

end Unlink
end Ltfs.Fs

import Ltfs.Fs.HandleRefs

/-!
# References of a rename

`ltfs_fsops_rename` holds up to four dentries. `renameFits` says when it gives them all back:

* not where the source is protected and the destination exists: the destination is forgotten;
* not where an entry is removed and there is no memory for the next step.

`rename_users_iff` is the result; `unlinkTarget_refs`, `moveDentry_users` and `renameIn_users` are
its stages.
-/

namespace Ltfs.Fs

open Function Namespace

/-! ## Rename -/

/-- References to the dentry that was found, if one was. -/
def raisedAny (n : ℕ → ℤ) : Option ℕ → ℕ → ℤ
  | none => n
  | some t => raised n t

theorem le_raised {n : ℕ → ℤ} {x : ℕ} (h : 1 ≤ n x) (d : ℕ) : 1 ≤ raised n d x := by
  rw [raised_apply]
  omega

theorem le_raisedAny {n : ℕ → ℤ} {x : ℕ} (h : 1 ≤ n x) (t : Option ℕ) : 1 ≤ raisedAny n t x := by
  cases t with
  | none => exact h
  | some t => exact le_raised h t

section Rename

variable {fs fs' : State} {n : ℕ → ℤ} {par : ℕ → Option ℕ} {root d p q : ℕ}

theorem releaseUnless_handles (dir : ℕ) (h : fs.numhandles = raised n d) (hn : 1 ≤ n d) :
    fs.releaseUnless dir d = fs.unhold d := by
  unfold State.releaseUnless
  split
  · rfl
  · exact fsReleaseDentry_handles h hn

theorem Refs.releaseUnless (R : Refs fs (raised n d) par root) (dir : ℕ) (hn : 1 ≤ n d) :
    Refs (fs.releaseUnless dir d) n par root := by
  rw [releaseUnless_handles dir R.numhandles hn]
  exact R.unhold

/-- The two lookups of a rename: a failure holds nothing. -/
theorem renameLookup_handles (I : fs.TreeInv) (hn : ∀ x, fs.Attached x → 1 ≤ fs.numhandles x)
    (fromdir todir : ℕ) (fromFilename toFilename : Path) :
    (∃ e fs₁, fs.renameLookup fromdir todir fromFilename toFilename = (.error e, fs₁) ∧
      fs₁.toNamespace = fs.toNamespace ∧ fs₁.numhandles = fs.numhandles) ∨
    (∃ f t fs₁, fs.renameLookup fromdir todir fromFilename toFilename = (.ok (f, t), fs₁) ∧
      fs₁.toNamespace = fs.toNamespace ∧ fs₁.numhandles = raised (raisedAny fs.numhandles t) f ∧
      fs.child fromdir fromFilename = some f ∧
      ∀ t', t = some t' → fs.child todir toFilename = some t') := by
  have hattached : ∀ {p name c}, fs.child p name = some c → fs.Attached c := fun h =>
    .inr (by simp [(child_spec I h).2.1])
  unfold State.renameLookup
  split
  · -- the destination first
    rcases fsDirectoryLookup_handles fs todir toFilename with ⟨e, h⟩ | ⟨fs₁, h, hns, hh⟩ |
      ⟨t, fs₁, h, ht, hns, hh⟩
    · rw [h]
      exact .inl ⟨e, fs, rfl, rfl, rfl⟩
    · rw [h]
      dsimp only
      rcases fsDirectoryLookup_handles fs₁ fromdir fromFilename with ⟨e, h₂⟩ | ⟨fs₂, h₂, hns₂, hh₂⟩ |
        ⟨f, fs₂, h₂, hf, hns₂, hh₂⟩
      · rw [h₂]
        exact .inl ⟨_, fs₁, rfl, hns, hh⟩
      · rw [h₂]
        exact .inl ⟨_, fs₂, rfl, hns₂.trans hns, hh₂.trans hh⟩
      · rw [h₂]
        refine .inr ⟨f, none, fs₂, rfl, hns₂.trans hns, ?_, hns ▸ hf, by simp⟩
        rw [hh₂, hh]
        rfl
    · rw [h]
      dsimp only
      have hta := hn t (hattached ht)
      -- without a source the destination is given back
      have hback : ∀ fs₂ : State, fs₂.toNamespace = fs.toNamespace →
          fs₂.numhandles = raised fs.numhandles t →
          (fs₂.releaseUnless fromdir t).toNamespace = fs.toNamespace ∧
            (fs₂.releaseUnless fromdir t).numhandles = fs.numhandles := by
        intro fs₂ hns₂ hh₂
        rw [releaseUnless_handles fromdir hh₂ hta]
        exact ⟨hns₂, numhandles_unhold hh₂⟩
      rcases fsDirectoryLookup_handles fs₁ fromdir fromFilename with ⟨e, h₂⟩ | ⟨fs₂, h₂, hns₂, hh₂⟩ |
        ⟨f, fs₂, h₂, hf, hns₂, hh₂⟩
      · rw [h₂]
        obtain ⟨hb, hb'⟩ := hback fs₁ hns hh
        exact .inl ⟨_, _, rfl, hb, hb'⟩
      · rw [h₂]
        obtain ⟨hb, hb'⟩ := hback fs₂ (hns₂.trans hns) (hh₂.trans hh)
        exact .inl ⟨_, _, rfl, hb, hb'⟩
      · rw [h₂]
        refine .inr ⟨f, some t, fs₂, rfl, hns₂.trans hns, ?_, hns ▸ hf, ?_⟩
        · rw [hh₂, hh]
          rfl
        · rintro t' ⟨⟩
          exact ht
  · -- the source first
    rcases fsDirectoryLookup_handles fs fromdir fromFilename with ⟨e, h⟩ | ⟨fs₁, h, hns, hh⟩ |
      ⟨f, fs₁, h, hf, hns, hh⟩
    · rw [h]
      exact .inl ⟨e, fs, rfl, rfl, rfl⟩
    · rw [h]
      exact .inl ⟨_, fs₁, rfl, hns, hh⟩
    · rw [h]
      dsimp only
      have hfa := hn f (hattached hf)
      rcases fsDirectoryLookup_handles fs₁ todir toFilename with ⟨e, h₂⟩ | ⟨fs₂, h₂, hns₂, hh₂⟩ |
        ⟨t, fs₂, h₂, ht, hns₂, hh₂⟩
      · rw [h₂]
        dsimp only
        rw [releaseUnless_handles todir hh hfa]
        exact .inl ⟨e, _, rfl, hns, numhandles_unhold hh⟩
      · rw [h₂]
        exact .inr ⟨f, none, fs₂, rfl, hns₂.trans hns, hh₂.trans hh, hf, by simp⟩
      · rw [h₂]
        refine .inr ⟨f, some t, fs₂, rfl, hns₂.trans hns, ?_, hf, ?_⟩
        · rw [hh₂, hh]
          exact raised_comm fs.numhandles f t
        · rintro t' ⟨⟩
          exact hns ▸ ht

/-! ### Unlinking the destination -/

/-- What stays of the dentries when `d` is removed from the children of `q`. -/
def Leaves (fs fs' : State) (q d : ℕ) : Prop :=
  ∀ x, x ≠ d → (fs'.dentry x).platformSafeName = (fs.dentry x).platformSafeName ∧
    (fs'.dentry x).childList =
      if x = q then (fs.dentry x).childList.eraseP (State.hasKey (fs.dentry d).platformSafeName)
      else (fs.dentry x).childList

/-- Releasing a dentry that was removed does not touch any other. -/
theorem fsReleaseDentry_removed (hp : fs.parent d = none) (hc : (fs.dentry d).childList = []) :
    (fs.fsReleaseDentry d).hashAlloc = fs.hashAlloc ∧
      ∀ x, x ≠ d → (fs.fsReleaseDentry d).dentry x = fs.dentry x := by
  unfold State.fsReleaseDentry
  dsimp only
  split
  · exact ⟨rfl, fun _ _ => rfl⟩
  · rw [@fsDispose_of_childless (fs.unhold d) d _ hp hc]
    exact ⟨rfl, fun x hx => dentry_modify_of_ne _ hx⟩

/-- `unlinkTarget` before it looks for the entry. -/
def targetGone (fs : State) (q d : ℕ) : State :=
  ((if (fs.dentry d).isdir then
      fs.modify q fun b => { b with linkCount := b.linkCount - 1 }
    else fs).unhold d).modify d fun b =>
      { b with linkCount := b.linkCount - 1, parent := none, deleted := true }

theorem targetGone_refs (R : Refs fs (raised n d) par root) (q : ℕ) :
    Refs (targetGone fs q d) n (update par d none) root := by
  have hlink : Refs (if (fs.dentry d).isdir then
      fs.modify q fun b => { b with linkCount := b.linkCount - 1 } else fs) (raised n d) par root := by
    split
    · exact R.modify q fun _ => rfl
    · exact R
  exact hlink.unhold.reparent d fun _ => rfl

theorem targetGone_hashAlloc (fs : State) (q d : ℕ) :
    (targetGone fs q d).hashAlloc = fs.hashAlloc := by
  unfold targetGone
  split
  · rfl
  · rfl

theorem targetGone_dentry (fs : State) (q d x : ℕ) :
    ((targetGone fs q d).dentry x).platformSafeName = (fs.dentry x).platformSafeName ∧
      ((targetGone fs q d).dentry x).childList = (fs.dentry x).childList := by
  have hkeep : ∀ (A : State) (y : ℕ) (f : Dentry → Dentry),
      (∀ b, (f b).platformSafeName = b.platformSafeName ∧ (f b).childList = b.childList) →
      ((A.modify y f).dentry x).platformSafeName = (A.dentry x).platformSafeName ∧
        ((A.modify y f).dentry x).childList = (A.dentry x).childList := by
    intro A y f hf
    by_cases hx : x = y
    · subst hx
      have hself : (A.modify x f).dentry x = f (A.dentry x) := update_self _ _ _
      rw [hself]
      exact hf _
    · rw [dentry_modify_of_ne f hx]
      exact ⟨rfl, rfl⟩
  unfold targetGone
  split
  · have hfirst := hkeep fs q (fun b => { b with linkCount := b.linkCount - 1 }) fun _ => ⟨rfl, rfl⟩
    have hsecond := hkeep ((fs.modify q fun b => { b with linkCount := b.linkCount - 1 }).unhold d) d
      (fun b => { b with linkCount := b.linkCount - 1, parent := none, deleted := true })
      fun _ => ⟨rfl, rfl⟩
    exact ⟨hsecond.1.trans hfirst.1, hsecond.2.trans hfirst.2⟩
  · exact hkeep (fs.unhold d) d
      (fun b => { b with linkCount := b.linkCount - 1, parent := none, deleted := true })
      fun _ => ⟨rfl, rfl⟩

/-- The destination of a rename is removed; without memory to find its entry, the reference that
was taken stays. -/
theorem unlinkTarget_refs (R : Refs fs (raised (raised n d) d) par root) (hne : d ≠ q)
    (hc : (fs.dentry d).childList = [])
    (hentry : ((fs.dentry q).childList.find?
      (State.hasKey (fs.dentry d).platformSafeName)).isSome = true) :
    ∃ fs₁, fs.unlinkTarget q d = (fs.hashAlloc.next.1, fs₁) ∧
      (fs.hashAlloc.next.1 = false → Refs fs₁ (raised n d) (update par d none) root) ∧
      (fs.hashAlloc.next.1 = true → Refs fs₁ n (update par d none) root ∧
        fs₁.hashAlloc = fs.hashAlloc.next.2 ∧ Leaves fs fs₁ q d) := by
  have hgone := targetGone_refs R q
  have hhash := targetGone_hashAlloc fs q d
  have hdentry := targetGone_dentry fs q d
  unfold State.unlinkTarget
  dsimp only
  rw [← targetGone, (hdentry q).2, (hdentry d).1]
  generalize targetGone fs q d = A at *
  obtain ⟨e, he⟩ := Option.isSome_iff_exists.mp hentry
  unfold State.fsFindKeyFromHashTable State.hashMalloc
  rw [hhash, he]
  cases hnext : fs.hashAlloc.next.1 with
  | false =>
    exact ⟨_, rfl, fun _ => hgone.of_eq rfl (fun _ => rfl) rfl, by simp⟩
  | true =>
    refine ⟨_, rfl, by simp, fun _ => ?_⟩
    have hdel : Refs (State.hashDel { A with hashAlloc := fs.hashAlloc.next.2 } q
        (fs.dentry d).platformSafeName) (raised n d) (update par d none) root := by
      have htail : Refs { A with hashAlloc := fs.hashAlloc.next.2 } (raised n d)
        (update par d none) root := hgone.of_eq rfl (fun _ => rfl) rfl
      exact htail.modify q fun _ => rfl
    -- the file count has nothing to do with it
    have hcount : ∀ B : State, Refs B (raised n d) (update par d none) root →
        B.hashAlloc = fs.hashAlloc.next.2 →
        B.dentry = (State.hashDel { A with hashAlloc := fs.hashAlloc.next.2 } q
          (fs.dentry d).platformSafeName).dentry →
        Refs (B.fsReleaseDentry d) n (update par d none) root ∧
          (B.fsReleaseDentry d).hashAlloc = fs.hashAlloc.next.2 ∧
          Leaves fs (B.fsReleaseDentry d) q d := by
      intro B hB hBhash hBdentry
      have hlist : (B.dentry d).childList = [] := by
        rw [hBdentry, State.hashDel, dentry_modify_of_ne _ hne]
        show (A.dentry d).childList = []
        rw [(hdentry d).2, hc]
      have hparent : B.parent d = none := (hB.parent d).trans (update_self _ _ _)
      obtain ⟨hrest, hother⟩ := fsReleaseDentry_removed hparent hlist
      refine ⟨hB.release_removed (update_self _ _ _) hlist, hrest.trans hBhash, fun x hx => ?_⟩
      rw [hother x hx, hBdentry, State.hashDel]
      by_cases hxq : x = q
      · subst hxq
        rw [if_pos rfl, ← (hdentry x).1, ← (hdentry x).2]
        simp [State.modify]
      · rw [if_neg hxq, dentry_modify_of_ne _ hxq]
        exact hdentry x
    split
    · exact hcount _ (hdel.of_eq rfl (fun _ => rfl) rfl) rfl rfl
    · exact hcount _ hdel rfl rfl

/-! ### Moving the source -/

/-- Does `fs_add_key_to_hash_table` report success? It does so too when it finds no memory for the
key, and adds nothing. -/
def addsEntry (a : Alloc) : Bool := a.next.1 && (!a.next.2.next.1 || a.next.2.next.2.next.1)

theorem fsAddKey_refs (R : Refs fs n par root) (p d : ℕ) :
    ∃ fs₁, fs.fsAddKeyToHashTable p d
        = (if addsEntry fs.hashAlloc then 0 else -ltfsNoMemory, fs₁) ∧ Refs fs₁ n par root := by
  have hadded : Refs (fs.modify p fun b =>
      { b with childList := ((fs.dentry d).platformSafeName, d) :: b.childList }) n par root :=
    R.modify p fun _ => rfl
  unfold State.fsAddKeyToHashTable State.hashMalloc addsEntry
  dsimp only
  cases fs.hashAlloc.next.1 with
  | false => exact ⟨_, rfl, R.of_eq rfl (fun _ => rfl) rfl⟩
  | true =>
    dsimp only
    cases fs.hashAlloc.next.2.next.1 with
    | false => exact ⟨_, rfl, R.of_eq rfl (fun _ => rfl) rfl⟩
    | true =>
      dsimp only
      cases fs.hashAlloc.next.2.next.2.next.1 with
      | true => exact ⟨_, rfl, hadded.of_eq rfl (fun _ => rfl) rfl⟩
      | false =>
        dsimp only
        split
        · exact ⟨_, rfl, R.of_eq rfl (fun _ => rfl) rfl⟩
        · exact ⟨_, rfl, hadded.of_eq rfl (fun _ => rfl) rfl⟩

/-- The source of a rename is moved, and the reference to it is given back; this is left to the
end of the rename where a scheduler is told about the new name, and does not happen where there
is no memory. -/
theorem moveDentry_refs (R : Refs fs (raised n d) par root) (hn : 1 ≤ n d) (env : Env)
    (fromNorm toDirNorm toFilename : Path)
    (hentry : ((fs.dentry p).childList.find?
      (State.hasKey (fs.dentry d).platformSafeName)).isSome = true) :
    (fs.moveDentry env p q d fromNorm toDirNorm toFilename).fromdentry = some d ∧
    (fs.moveDentry env p q d fromNorm toDirNorm toFilename).ret
      = (if fs.hashAlloc.next.1 && !addsEntry fs.hashAlloc.next.2 then -ltfsNoMemory else 0) ∧
    Refs (fs.moveDentry env p q d fromNorm toDirNorm toFilename).fs
      (if fs.hashAlloc.next.1 && addsEntry fs.hashAlloc.next.2 && !env.ioschedInitialized then n
        else raised n d)
      (if fs.hashAlloc.next.1 then update par d (some q) else par) root := by
  obtain ⟨e, he⟩ := Option.isSome_iff_exists.mp hentry
  unfold State.moveDentry State.fsFindKeyFromHashTable State.hashMalloc
  dsimp only
  rw [he]
  cases fs.hashAlloc.next.1 with
  | false =>
    refine ⟨rfl, rfl, ?_⟩
    exact R.of_eq rfl (fun _ => rfl) rfl
  | true =>
    have htail : Refs { fs with hashAlloc := fs.hashAlloc.next.2 } (raised n d) par root :=
      R.of_eq rfl (fun _ => rfl) rfl
    have hdel : Refs (State.hashDel { fs with hashAlloc := fs.hashAlloc.next.2 } p
        (fs.dentry d).platformSafeName) (raised n d) par root := htail.modify p fun _ => rfl
    have hout := hdel.modify p (f := fun b => { b with linkCount := b.linkCount - 1 }) fun _ => rfl
    have hin := hout.modify q (f := fun b => { b with linkCount := b.linkCount + 1 }) fun _ => rfl
    -- the rest is the same for files and directories
    have hrest : ∀ A : State, Refs A (raised n d) par root → A.hashAlloc = fs.hashAlloc.next.2 →
        ∃ fs₁, (A.modify d fun b =>
            { b with parent := some q, platformSafeName := toFilename }).fsAddKeyToHashTable q d
          = (if addsEntry fs.hashAlloc.next.2 then 0 else -ltfsNoMemory, fs₁) ∧
          Refs fs₁ (raised n d) (update par d (some q)) root := by
      intro A hA hhash
      have hset := hA.reparent d (f := fun b =>
        { b with parent := some q, platformSafeName := toFilename }) (v := some q) fun _ => rfl
      obtain ⟨fs₁, hadd, hR⟩ := fsAddKey_refs hset q d
      refine ⟨fs₁, ?_, hR⟩
      rw [hadd, ← hhash]
      rfl
    have hend : ∀ A : State, Refs A (raised n d) (update par d (some q)) root →
        Refs (if env.ioschedInitialized then A else A.fsReleaseDentry d)
          (if true && true && !env.ioschedInitialized then n else raised n d)
          (update par d (some q)) root := by
      intro A hA
      cases env.ioschedInitialized with
      | true => exact hA
      | false => exact hA.release hn
    dsimp only
    have hA : Refs (if ((State.hashDel { fs with hashAlloc := fs.hashAlloc.next.2 } p
        (fs.dentry d).platformSafeName).dentry d).isdir then
        ((State.hashDel { fs with hashAlloc := fs.hashAlloc.next.2 } p
          (fs.dentry d).platformSafeName).modify p fun b =>
            { b with linkCount := b.linkCount - 1 }).modify q fun b =>
            { b with linkCount := b.linkCount + 1 }
      else State.hashDel { fs with hashAlloc := fs.hashAlloc.next.2 } p
        (fs.dentry d).platformSafeName) (raised n d) par root := by
      split
      · exact hin
      · exact hdel
    obtain ⟨fs₁, hadd, hR⟩ := hrest _ hA (by split <;> rfl)
    dsimp only [Option.map_some]
    rw [hadd]
    cases addsEntry fs.hashAlloc.next.2 with
    | false =>
      refine ⟨rfl, rfl, ?_⟩
      exact hR
    | true =>
      rw [if_pos rfl]
      refine ⟨rfl, rfl, hend _ (Refs.journalize ?_ _)⟩
      have hdirty := hR.modify d (f := fun b => { b with dirty := true }) fun _ => rfl
      split
      · exact hdirty.journalize _
      · exact hdirty.journalize _

end Rename

/-! ### The end of a rename -/

section RenameEnd

variable {fs fs' : State} {n : ℕ → ℤ} {par : ℕ → Option ℕ} {root d p q : ℕ}

/-- `ltfs_fsops_rename` from `out_release` on. -/
def renameEnd (env : Env) (fromdir todir : ℕ) (r : State.Renamed) : State :=
  let fs := (r.fs.fsReleaseDentry fromdir).fsReleaseDentry todir
  match r.fromdentry with
  | none => fs
  | some fromdentry =>
    if r.ret = 0 ∧ env.ioschedInitialized = true then fs.fsReleaseDentry fromdentry else fs

/-- The two directories are given back. -/
theorem releaseDirs_refs (R : Refs fs (raised (raised n p) q) par root) (hp : 1 ≤ n p)
    (hq : 1 ≤ n q) : Refs ((fs.fsReleaseDentry p).fsReleaseDentry q) n par root := by
  rw [raised_comm] at R
  exact (R.release (le_raised hp q)).release hq

/-- The source is not given back at the end. -/
theorem renameEnd_refs {r : State.Renamed} {env : Env}
    (R : Refs r.fs (raised (raised n p) q) par root) (hp : 1 ≤ n p) (hq : 1 ≤ n q)
    (h : r.fromdentry = none ∨ r.ret ≠ 0 ∨ env.ioschedInitialized = false) :
    Refs (renameEnd env p q r) n par root := by
  have hdirs := releaseDirs_refs R hp hq
  unfold renameEnd
  dsimp only
  split
  · exact hdirs
  · rename_i hsome
    have hneg : ¬ (r.ret = 0 ∧ env.ioschedInitialized = true) := by
      rcases h with h | h | h
      · rw [hsome] at h
        cases h
      · exact fun hc => h hc.1
      · simp [h]
    rw [if_neg hneg]
    exact hdirs

/-- The source is given back at the end. -/
theorem renameEnd_refs_source {r : State.Renamed} {env : Env}
    (R : Refs r.fs (raised (raised (raised n d) p) q) par root) (hp : 1 ≤ n p) (hq : 1 ≤ n q)
    (hd : 1 ≤ n d) (hsome : r.fromdentry = some d) (hret : r.ret = 0)
    (hio : env.ioschedInitialized = true) : Refs (renameEnd env p q r) n par root := by
  have hdirs := releaseDirs_refs R (le_raised hp d) (le_raised hq d)
  unfold renameEnd
  dsimp only
  rw [hsome]
  dsimp only
  rw [if_pos ⟨hret, hio⟩]
  exact hdirs.release hd

/-- A dentry that only changes its parent is in the tree as before. -/
theorem usersOf_moved (hp : par d ≠ none) (x : ℕ) :
    usersOf n (update par d (some q)) root x = usersOf n par root x := by
  unfold usersOf
  by_cases hx : x = d
  · subst hx
    rw [update_self, if_pos (.inr (by simp)), if_pos (.inr hp)]
  · rw [update_of_ne hx]

theorem usersOf_raised_ne (d : ℕ) : usersOf (raised n d) par root d ≠ usersOf n par root d := by
  unfold usersOf
  rw [raised_apply, if_pos rfl]
  omega

/-- Is there memory for moving an entry, or a scheduler that is told about the source? -/
def moveFits (env : Env) (a : Alloc) : Bool :=
  if a.next.1 then addsEntry a.next.2 else env.ioschedInitialized

/-- A move leaves nothing exactly when there is memory for it, or none for its first step and the
source is given back for the scheduler. -/
theorem moveDentry_users (R : Refs fs (raised (raised (raised n p) q) d) par root)
    (hp : 1 ≤ n p) (hq : 1 ≤ n q) (hd : 1 ≤ n d) (hparent : par d ≠ none) (env : Env)
    (fromNorm toDirNorm toFilename : Path)
    (hentry : ((fs.dentry p).childList.find?
      (State.hasKey (fs.dentry d).platformSafeName)).isSome = true) :
    (∀ x, users (renameEnd env p q (fs.moveDentry env p q d fromNorm toDirNorm toFilename)) x
      = usersOf n par root x) ↔ moveFits env fs.hashAlloc = true := by
  obtain ⟨hsome, hret, hR⟩ := moveDentry_refs (q := q) R (le_raised (le_raised hd p) q) env fromNorm
    toDirNorm toFilename hentry
  generalize fs.moveDentry env p q d fromNorm toDirNorm toFilename = r at *
  have hcomm : raised (raised (raised n p) q) d = raised (raised (raised n d) p) q := by
    rw [raised_comm, raised_comm n p d]
  have hp' := le_raised hp d
  have hq' := le_raised hq d
  -- a reference that stays
  have hleft : ∀ par' root', Refs (renameEnd env p q r) (raised n d) par' root' →
      usersOf n par' root' d = usersOf n par root d →
      ¬ ∀ x, users (renameEnd env p q r) x = usersOf n par root x := by
    intro par' root' hend hsame hall
    have hd' := hall d
    rw [hend.users, ← hsame] at hd'
    exact usersOf_raised_ne d hd'
  unfold moveFits
  cases hfind : fs.hashAlloc.next.1 with
  | false =>
    -- the entry is not found, and the rename ends with success
    rw [hfind] at hret hR
    have hR' : Refs r.fs (raised (raised (raised n d) p) q) par root := hcomm ▸ hR
    cases hio : env.ioschedInitialized with
    | true =>
      have hend := renameEnd_refs_source hR' hp hq hd hsome hret hio
      exact iff_of_true (fun x => hend.users x) rfl
    | false =>
      have hend := renameEnd_refs hR' hp' hq' (.inr (.inr hio))
      exact iff_of_false (hleft par root hend rfl) (by simp)
  | true =>
    rw [hfind] at hret hR
    have hmoved : ∀ x, usersOf n (update par d (some q)) root x = usersOf n par root x :=
      usersOf_moved hparent
    cases hadd : addsEntry fs.hashAlloc.next.2 with
    | true =>
      rw [hadd] at hret hR
      refine iff_of_true ?_ rfl
      intro x
      rw [← hmoved x]
      cases hio : env.ioschedInitialized with
      | true =>
        rw [hio] at hR
        have hR' : Refs r.fs (raised (raised (raised n d) p) q) (update par d (some q)) root :=
          hcomm ▸ hR
        exact (renameEnd_refs_source hR' hp hq hd hsome hret hio).users x
      | false =>
        rw [hio] at hR
        exact (renameEnd_refs hR hp hq (.inr (.inr hio))).users x
    | false =>
      -- the source is neither where it was nor where it should be
      rw [hadd] at hret hR
      have hR' : Refs r.fs (raised (raised (raised n d) p) q) (update par d (some q)) root :=
        hcomm ▸ hR
      have hne : r.ret ≠ 0 := by
        rw [hret]
        decide
      have hend : Refs (renameEnd env p q r) (raised n d) (update par d (some q)) root :=
        renameEnd_refs hR' hp' hq' (.inr (.inl hne))
      exact iff_of_false (hleft _ root hend (hmoved d)) (by simp)

/-- Does a rename between two directories leave nothing behind? It does not where the source is
protected and the destination exists, nor without memory for the entries. -/
def renameInFits (fs : State) (env : Env) (fromdir todir : ℕ) (fromFilename toFilename : Path) :
    Bool :=
  if fs.isWorm fromdir || fs.isWorm todir then true
  else
    match fs.renameLookup fromdir todir fromFilename toFilename with
    | (.error _, _) => true
    | (.ok (fromdentry, todentry), fs) =>
      if fs.renameLoops fromdir todir fromdentry todentry < 0 then true
      else if fs.isWorm fromdentry then todentry.isNone
      else if todentry.any fs.isWorm then true
      else
        match todentry with
        | none => moveFits env fs.hashAlloc
        | some todentry =>
          if todentry = fromdentry then moveFits env fs.hashAlloc
          else if (fs.dentry todentry).isdir && (fs.dentry todentry).childList.length ≠ 0 then true
          else fs.hashAlloc.next.1 && moveFits env fs.hashAlloc.next.2

theorem lowered_apply (n : ℕ → ℤ) (d x : ℕ) : lowered n d x = n x - if x = d then 1 else 0 := by
  unfold lowered
  by_cases h : x = d
  · subst h
    simp
  · simp [h]

/-- Nothing replaces the directory the source is in. -/
theorem renameLoops_ne {t : ℕ} (h : ¬ fs.renameLoops p q d (some t) < 0) : t ≠ p := by
  intro ht
  apply h
  unfold State.renameLoops
  split
  · decide
  · dsimp only
    rw [if_pos (.inl ht)]
    split
    · decide
    · decide

/-- Some entry is found under the name of a dentry in its directory. -/
theorem entry_found (I : fs.TreeInv) {name : Path} (h : fs.child p name = some d) :
    ((fs.dentry p).childList.find? (State.hasKey (fs.dentry d).platformSafeName)).isSome = true := by
  obtain ⟨hfind, -, hname⟩ := child_spec I h
  rw [hname, hfind]
  rfl

/-- The rename of a dentry over another one. -/
theorem renameOver_users {t : ℕ} (S : Settled fs) {fromFilename toFilename : Path}
    (hns : fs'.toNamespace = fs.toNamespace)
    (hR : Refs fs' (raised (raised (raised (raised fs.numhandles p) q) t) d) fs.parent fs.root)
    (hd : fs.child p fromFilename = some d) (ht : fs.child q toFilename = some t) (hne : t ≠ d)
    (htp : t ≠ p) (hc : (fs.dentry t).childList = []) (env : Env) (fromNorm toDirNorm : Path) :
    (∀ x, users (renameEnd env p q (match fs'.unlinkTarget q t with
      | (false, fs) => ⟨0, some d, fs⟩
      | (true, fs) => fs.moveDentry env p q d fromNorm toDirNorm toFilename)) x = users fs x) ↔
      (fs'.hashAlloc.next.1 && moveFits env fs'.hashAlloc.next.2) = true := by
  obtain ⟨-, hdp, -⟩ := child_spec S.tree hd
  obtain ⟨-, htq, -⟩ := child_spec S.tree ht
  have hp := S.handles p (S.tree.attached_of_parent hdp)
  have hq := S.handles q (S.tree.attached_of_parent htq)
  have hda := S.handles d (.inr (by simp [hdp]))
  have htq' : t ≠ q := by
    rintro rfl
    exact S.tree.parent_ne_self t htq
  have hroot : t ≠ fs.root := by
    rintro rfl
    rw [S.tree.rootParent] at htq
    cases htq
  have hbase : ∀ x, x ≠ t → lowered fs.numhandles t x = fs.numhandles x := fun x hx =>
    update_of_ne hx _ _
  -- the counts without the reference of the tree to the destination
  have hcounts : raised (raised (raised (raised fs.numhandles p) q) t) d
      = raised (raised (raised (raised (raised (lowered fs.numhandles t) p) q) d) t) t := by
    funext x
    simp only [raised_apply, lowered_apply]
    omega
  rw [hcounts] at hR
  have hc' : (fs'.dentry t).childList = [] := by
    rw [hns]
    exact hc
  have hentry : ((fs'.dentry q).childList.find?
      (State.hasKey (fs'.dentry t).platformSafeName)).isSome = true := by
    rw [hns]
    exact entry_found S.tree ht
  obtain ⟨fs₁, heq, hfail, hdone⟩ := unlinkTarget_refs hR htq' hc' hentry
  rw [heq]
  cases hfind : fs'.hashAlloc.next.1 with
  | false =>
    -- the tree let the destination go, and a reference to it is left
    have hR₁ := hfail hfind
    have hleft : raised (raised (raised (raised (lowered fs.numhandles t) p) q) d) t
        = raised (raised (raised fs.numhandles d) p) q := by
      funext x
      simp only [raised_apply, lowered_apply]
      omega
    rw [hleft] at hR₁
    have hlost : ∀ n' : ℕ → ℤ, n' t = fs.numhandles t →
        Refs (renameEnd env p q ⟨0, some d, fs₁⟩) n' (update fs.parent t none) fs.root →
        ¬ ∀ x, users (renameEnd env p q ⟨0, some d, fs₁⟩) x = users fs x := by
      intro n' hn' hend hall
      have hat := hall t
      rw [hend.users, (Refs.refl fs).users] at hat
      unfold usersOf at hat
      rw [update_self, hn', if_neg (by simp [hroot]), if_pos (.inr (by simp [htq]))] at hat
      omega
    refine iff_of_false ?_ (by simp)
    cases hio : env.ioschedInitialized with
    | true => exact hlost _ rfl (renameEnd_refs_source hR₁ hp hq hda rfl rfl hio)
    | false =>
      refine hlost _ (update_of_ne hne _ _) (renameEnd_refs hR₁ (le_raised hp d) (le_raised hq d) ?_)
      exact .inr (.inr hio)
  | true =>
    obtain ⟨hR₁, hhash, hleaves⟩ := hdone hfind
    have hdparent : update fs.parent t none d ≠ none := by
      rw [update_of_ne hne.symm]
      simp [hdp]
    have hname := (hleaves d hne.symm).1
    have hentry₁ : ((fs₁.dentry p).childList.find?
        (State.hasKey (fs₁.dentry d).platformSafeName)).isSome = true := by
      rw [hname, (hleaves p htp.symm).2, hns]
      split
      · -- both in one directory: their names differ
        rename_i hpq
        have hnames : (fs.dentry d).platformSafeName ≠ (fs.dentry t).platformSafeName := by
          intro hsame
          rw [(child_spec S.tree hd).2.2, (child_spec S.tree ht).2.2] at hsame
          rw [hpq, hsame, ht] at hd
          exact hne (Option.some.inj hd)
        rw [find_eraseP hnames]
        exact entry_found S.tree hd
      · exact entry_found S.tree hd
    have hmove := moveDentry_users hR₁ ((hbase p htp.symm).symm ▸ hp) ((hbase q htq'.symm).symm ▸ hq)
      ((hbase d hne.symm).symm ▸ hda) hdparent env fromNorm toDirNorm toFilename hentry₁
    rw [hhash] at hmove
    rw [Bool.true_and, ← hmove]
    refine forall_congr' fun x => ?_
    rw [usersOf_removed hroot (by simp [htq]), (Refs.refl fs).users]

end RenameEnd

/-! ### The whole rename -/

section RenameWhole

variable {fs fs' : State} {p q : ℕ}

/-- A rename between two directories that are held. -/
theorem renameIn_users (S : Settled fs) (hns : fs'.toNamespace = fs.toNamespace)
    (hR : fs'.numhandles = raised (raised fs.numhandles p) q) (hpa : fs.Attached p)
    (hqa : fs.Attached q) (env : Env) (fromNorm fromFilename toDirNorm toFilename : Path) :
    (∀ x, users (renameEnd env p q
      (fs'.renameIn env p q fromNorm fromFilename toDirNorm toFilename)) x = users fs x) ↔
      renameInFits fs' env p q fromFilename toFilename = true := by
  have hp := S.handles p hpa
  have hq := S.handles q hqa
  have hwormNe : -ltfsWormEnabled ≠ 0 := by decide
  have hfullNe : -ltfsDirnotempty ≠ 0 := by decide
  -- where both directories are given back and nothing else is held, nothing is left
  have hkept : ∀ r : State.Renamed,
      Refs r.fs (raised (raised fs.numhandles p) q) fs.parent fs.root →
      (r.fromdentry = none ∨ r.ret ≠ 0 ∨ env.ioschedInitialized = false) →
      ∀ x, users (renameEnd env p q r) x = users fs x := by
    intro r hr hend x
    rw [(renameEnd_refs hr hp hq hend).users, (Refs.refl fs).users]
  have hR' : Refs fs' (raised (raised fs.numhandles p) q) fs.parent fs.root :=
    (Refs.refl fs).of_namespace hns hR
  unfold State.renameIn renameInFits
  split
  · exact iff_of_true (hkept _ hR' (.inl rfl)) rfl
  · have I' : fs'.TreeInv := by
      rw [hns]
      exact S.tree
    have hn' : ∀ x, fs'.Attached x → 1 ≤ fs'.numhandles x := by
      intro x hx
      rw [hns] at hx
      rw [hR]
      exact le_raised (le_raised (S.handles x hx) p) q
    rcases renameLookup_handles I' hn' p q fromFilename toFilename with ⟨e, fs₁, h, hns₁, hh⟩ |
      ⟨d, t, fs₁, h, hns₁, hh, hd, ht⟩
    · rw [h]
      exact iff_of_true (hkept _ ((Refs.refl fs).of_namespace (hns₁.trans hns) (hh.trans hR))
        (.inl rfl)) rfl
    · rw [h]
      dsimp only
      rw [hns] at hd ht
      rw [hR] at hh
      have hnow := hns₁.trans hns
      have hdp := (child_spec S.tree hd).2.1
      have hda : 1 ≤ fs.numhandles d := S.handles d (.inr (by simp [hdp]))
      have hM : ∀ x, 1 ≤ fs.numhandles x → 1 ≤ raised (raised fs.numhandles p) q x := fun x hx =>
        le_raised (le_raised hx p) q
      have hfound : Refs fs₁ (raised (raisedAny (raised (raised fs.numhandles p) q) t) d) fs.parent
        fs.root := (Refs.refl fs).of_namespace hnow hh
      by_cases hloops : fs₁.renameLoops p q d t < 0
      · -- both dentries are given back
        rw [if_pos hloops, if_pos hloops]
        have hone := hfound.releaseUnless q (le_raisedAny (hM d hda) t)
        refine iff_of_true (hkept _ ?_ (.inr (.inl hloops.ne))) rfl
        cases t with
        | none => exact hone
        | some t =>
          have htq := (child_spec S.tree (ht t rfl)).2.1
          exact hone.releaseUnless p (hM t (S.handles t (.inr (by simp [htq]))))
      · rw [if_neg hloops, if_neg hloops]
        by_cases hworm : fs₁.isWorm d = true
        · -- the destination is forgotten
          rw [if_pos hworm, if_pos hworm]
          have hone := hfound.release (le_raisedAny (hM d hda) t)
          cases t with
          | none => exact iff_of_true (hkept _ hone (.inr (.inl hwormNe))) rfl
          | some t =>
            refine iff_of_false (fun hall => ?_) (by simp)
            have hone' : Refs (fs₁.fsReleaseDentry d) (raised (raised (raised fs.numhandles t) p) q)
                fs.parent fs.root := by
              have hcomm : raised (raised (raised fs.numhandles p) q) t
                  = raised (raised (raised fs.numhandles t) p) q := by
                rw [raised_comm, raised_comm fs.numhandles p t]
              exact hcomm ▸ hone
            have hend : Refs (renameEnd env p q
                ⟨-ltfsWormEnabled, some d, fs₁.fsReleaseDentry d⟩) (raised fs.numhandles t) fs.parent
                fs.root :=
              renameEnd_refs hone' (le_raised hp t) (le_raised hq t) (.inr (.inl hwormNe))
            have hat := hall t
            rw [hend.users, (Refs.refl fs).users] at hat
            exact usersOf_raised_ne t hat
        · rw [if_neg hworm, if_neg hworm]
          by_cases htworm : t.any fs₁.isWorm = true
          · rw [if_pos htworm, if_pos htworm]
            have hone := hfound.release (le_raisedAny (hM d hda) t)
            refine iff_of_true (hkept _ ?_ (.inr (.inl hwormNe))) rfl
            cases t with
            | none => exact hone
            | some t =>
              have htq := (child_spec S.tree (ht t rfl)).2.1
              exact hone.release (hM t (S.handles t (.inr (by simp [htq]))))
          · rw [if_neg htworm, if_neg htworm]
            unfold State.renameChecked
            have hentry : ((fs₁.dentry p).childList.find?
                (State.hasKey (fs₁.dentry d).platformSafeName)).isSome = true := by
              rw [hnow]
              exact entry_found S.tree hd
            have hmove : ∀ A : State,
                Refs A (raised (raised (raised fs.numhandles p) q) d) fs.parent fs.root →
                A.toNamespace = fs₁.toNamespace → A.hashAlloc = fs₁.hashAlloc →
                ((∀ x, users (renameEnd env p q
                  (A.moveDentry env p q d fromNorm toDirNorm toFilename)) x = users fs x) ↔
                  moveFits env fs₁.hashAlloc = true) := by
              intro A hA hAns hAhash
              have hm := moveDentry_users hA hp hq hda (by simp [hdp]) env fromNorm toDirNorm
                toFilename (hAns ▸ hentry)
              rw [hAhash] at hm
              rw [← hm]
              exact forall_congr' fun x => by rw [(Refs.refl fs).users]
            cases t with
            | none => exact hmove fs₁ hfound rfl rfl
            | some t =>
              have htc := ht t rfl
              have htq := (child_spec S.tree htc).2.1
              have hta := S.handles t (.inr (by simp [htq]))
              dsimp only
              by_cases htd : t = d
              · -- the source itself is found again
                subst htd
                rw [if_neg (by simp), if_pos rfl]
                have hrel := fsReleaseDentry_handles hfound.numhandles (le_raised (hM t hta) t)
                have hone := hfound.release (le_raised (hM t hta) t)
                exact hmove _ hone (by rw [hrel]; rfl) (by rw [hrel]; rfl)
              · rw [if_pos htd, if_neg htd]
                by_cases hfull : ((fs₁.dentry t).isdir &&
                    decide ((fs₁.dentry t).childList.length ≠ 0)) = true
                · rw [if_pos hfull, if_pos hfull]
                  have hone := hfound.release (le_raised (hM d hda) t)
                  exact iff_of_true (hkept _ (hone.release (hM t hta)) (.inr (.inl hfullNe))) rfl
                · rw [if_neg hfull, if_neg hfull]
                  have hc : (fs.dentry t).childList = [] := by
                    rw [hnow] at hfull
                    cases hdir : (fs.dentry t).isdir with
                    | true => simpa [hdir] using hfull
                    | false => exact S.childless t hdir
                  exact renameOver_users S hnow hfound hd htc htd (renameLoops_ne hloops) hc env
                    fromNorm toDirNorm

/-- Does `ltfs_fsops_rename` leave nothing behind? Every failure before the two directories are
found is harmless. -/
def renameFits (normalize : List UInt8 → Except ℤ (List UInt8)) (fs : State) (env : Env)
    (src dst : Path) : Bool :=
  if env.tapeReadonly < 0 ∧ env.tapeReadonly ≠ -ltfsLessSpace then true
  else if env.unitReady < 0 then true
  else
    match State.formatSource normalize src with
    | .error _ => true
    | .ok fromNorm =>
      match NameCodec.pathnameFormat normalize dst true with
      | .error _ => true
      | .ok toNorm =>
        match fs.renameCopies with
        | (false, _) => true
        | (true, fs) =>
          if env.volumeLock < 0 then true
          else
            match fs.fsPathLookup false (State.fsSplitPath fromNorm).1 with
            | (.error _, _) => true
            | (.ok fromdir, fs) =>
              match fs.fsPathLookup false (State.fsSplitPath toNorm).1 with
              | (.error _, _) => true
              | (.ok todir, fs) =>
                renameInFits fs env fromdir todir (State.fsSplitPath fromNorm).2
                  (State.fsSplitPath toNorm).2

theorem renameCopies_refs (fs : State) : (fs.renameCopies).2.toNamespace = fs.toNamespace ∧
    (fs.renameCopies).2.numhandles = fs.numhandles := by
  unfold State.renameCopies State.malloc
  dsimp only
  split
  · exact ⟨rfl, rfl⟩
  · exact ⟨rfl, rfl⟩

/-- **Rename.** -/
theorem rename_users_iff (normalize : List UInt8 → Except ℤ (List UInt8)) (S : Settled fs)
    (env : Env) (src dst : Path) :
    (∀ x, users (fs.ltfsFsopsRename normalize env src dst).2 x = users fs x) ↔
      renameFits normalize fs env src dst = true := by
  have hsame : ∀ A : State, A.toNamespace = fs.toNamespace → A.numhandles = fs.numhandles →
      ∀ x, users A x = users fs x := by
    intro A hA hn x
    rw [((Refs.refl fs).of_namespace hA hn).users, (Refs.refl fs).users]
  unfold State.ltfsFsopsRename renameFits
  split
  · exact iff_of_true (fun _ => rfl) rfl
  · split
    · exact iff_of_true (fun _ => rfl) rfl
    · cases State.formatSource normalize src with
      | error e => exact iff_of_true (fun _ => rfl) rfl
      | ok fromNorm =>
        cases NameCodec.pathnameFormat normalize dst true with
        | error e => exact iff_of_true (fun _ => rfl) rfl
        | ok toNorm =>
          obtain ⟨hcopies, hcopies'⟩ := renameCopies_refs fs
          generalize fs.renameCopies = copies at hcopies hcopies'
          obtain ⟨ok, fs₁⟩ := copies
          cases ok with
          | false => exact iff_of_true (hsame fs₁ hcopies hcopies') rfl
          | true =>
            dsimp only at hcopies hcopies' ⊢
            split
            · exact iff_of_true (hsame fs₁ hcopies hcopies') rfl
            · have I₁ : fs₁.TreeInv := hcopies ▸ S.tree
              have hn₁ : ∀ x, fs₁.Attached x → 1 ≤ fs₁.numhandles x := by
                rw [hcopies, hcopies']
                exact S.handles
              rcases fsPathLookup_handles false (State.fsSplitPath fromNorm).1 I₁ hn₁ with
                ⟨e, fs₂, h, hns, hh⟩ | ⟨p, fs₂, h, hns, hpa, hh⟩
              · rw [h]
                exact iff_of_true (hsame fs₂ (hns.trans hcopies) (hh.trans hcopies')) rfl
              · rw [h]
                dsimp only
                rw [if_neg (by simp), hcopies'] at hh
                rw [hcopies] at hpa
                have hns₂ := hns.trans hcopies
                have I₂ : fs₂.TreeInv := hns₂ ▸ S.tree
                have hn₂ : ∀ x, fs₂.Attached x → 1 ≤ fs₂.numhandles x := by
                  rw [hns₂, hh]
                  exact fun x hx => le_raised (S.handles x hx) p
                rcases fsPathLookup_handles false (State.fsSplitPath toNorm).1 I₂ hn₂ with
                  ⟨e, fs₃, h₃, hns₃, hh₃⟩ | ⟨q, fs₃, h₃, hns₃, hqa, hh₃⟩
                · -- the directory of the source is given back
                  rw [h₃]
                  dsimp only
                  have hone := (Refs.refl fs).of_namespace (hns₃.trans hns₂) (hh₃.trans hh)
                  refine iff_of_true (fun x => ?_) rfl
                  rw [(hone.release (S.handles p hpa)).users, (Refs.refl fs).users]
                · rw [h₃]
                  dsimp only
                  rw [if_neg (by simp), hh] at hh₃
                  rw [hns₂] at hqa
                  rw [← renameIn_users S (hns₃.trans hns₂) hh₃ hpa hqa env fromNorm
                    (State.fsSplitPath fromNorm).2 (State.fsSplitPath toNorm).1
                    (State.fsSplitPath toNorm).2]
                  refine forall_congr' fun x => ?_
                  unfold renameEnd
                  dsimp only
                  cases (fs₃.renameIn env p q fromNorm (State.fsSplitPath fromNorm).2
                    (State.fsSplitPath toNorm).1 (State.fsSplitPath toNorm).2).fromdentry with
                  | none => rfl
                  | some d =>
                    dsimp only
                    split
                    · rfl
                    · rfl

end RenameWhole

end Ltfs.Fs

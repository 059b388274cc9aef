import Ltfs.Fs.RenameBalance

/-!
# Calls that give back what they take

* `balanced_iff` — the calls that take a path are `Balanced` exactly under `PathCall.fits`, with one
  result for each call.
* `runOpen_inSync_iff` — the calls that hand out dentries: the counter is right along a run exactly
  when `ltfs_fsops_open_combo` is not used.
-/

namespace Ltfs.Fs

open Function Namespace

/-- Every reference that was taken is given back. A dentry the call removes from the tree loses
the reference of the tree. -/
structure Balanced (vol vol' : LtfsVolume) : Prop where
  users : ∀ d, users vol'.fs d = users vol.fs d
  fileOpenCount : vol'.fileOpenCount = vol.fileOpenCount

/-! ## `fs_path_clean` -/

section PathClean

variable {fs fs' : State} {n : ℕ → ℤ} {par : ℕ → Option ℕ} {root d p : ℕ}

/-- Two states in which every lookup ends alike. -/
structure SameLookups (fs fs' : State) : Prop where
  hashAlloc : fs'.hashAlloc = fs.hashAlloc
  childList : ∀ x, (fs'.dentry x).childList = (fs.dentry x).childList

theorem SameLookups.directory (h : SameLookups fs fs') (p : ℕ) (name : Path) :
    (fs'.fsDirectoryLookup p name).1 = (fs.fsDirectoryLookup p name).1 ∧
      SameLookups (fs.fsDirectoryLookup p name).2 (fs'.fsDirectoryLookup p name).2 := by
  unfold State.fsDirectoryLookup State.fsFindKeyFromHashTable State.hashMalloc
  rw [h.hashAlloc, h.childList p]
  split
  · exact ⟨rfl, h⟩
  · split
    · exact ⟨rfl, h⟩
    · cases fs.hashAlloc.next.1 with
      | false => exact ⟨rfl, rfl, h.childList⟩
      | true =>
        dsimp only
        cases ((fs.dentry p).childList.find? (State.hasKey name)).map Prod.snd with
        | none => exact ⟨rfl, rfl, h.childList⟩
        | some d => exact ⟨rfl, rfl, h.childList⟩

/-- The walk ends like the one of `fs_path_lookup`, and holds what that one holds. -/
theorem fsPathCleanWalk_refs {ns : Namespace} (I : ns.TreeInv) (hn : ∀ x, ns.Attached x → 1 ≤ n x)
    (names : List Path) (hl : ∀ x, (fs.dentry x).childList = (ns.dentry x).childList)
    (hsame : SameLookups fs fs') (hd : ns.Attached d) (R : Refs fs' (raised n d) par root) :
    (∃ e, (fs.fsPathWalk false d names).1 = .error e ∧
      Refs (fs'.fsPathCleanWalk d names).2 n par root) ∨
    (∃ c, (fs.fsPathWalk false d names).1 = .ok c ∧
      Refs (fs'.fsPathCleanWalk d names).2 (raised n c) par root) := by
  induction names generalizing fs fs' d with
  | nil => exact .inr ⟨d, rfl, R⟩
  | cons name rest ih =>
    obtain ⟨hret, hnext⟩ := hsame.directory d name
    unfold State.fsPathWalk State.fsPathCleanWalk
    rcases fsDirectoryLookup_handles fs' d name with ⟨e, h'⟩ | ⟨fs₁', h', hns', hh'⟩ |
      ⟨c, fs₁', h', hc', hns', hh'⟩
    · rw [h'] at hret
      have h : fs.fsDirectoryLookup d name = (.error e, (fs.fsDirectoryLookup d name).2) :=
        Prod.ext hret.symm rfl
      rw [h, h']
      exact .inl ⟨e, rfl, R.release (hn d hd)⟩
    · rw [h'] at hret
      have h : fs.fsDirectoryLookup d name = (.ok none, (fs.fsDirectoryLookup d name).2) :=
        Prod.ext hret.symm rfl
      rw [h, h']
      exact .inl ⟨_, rfl, (R.of_namespace hns' (hh'.trans R.numhandles)).release (hn d hd)⟩
    · rw [h'] at hret hnext
      have h : fs.fsDirectoryLookup d name = (.ok (some c), (fs.fsDirectoryLookup d name).2) :=
        Prod.ext hret.symm rfl
      have hchild : ns.child d name = some c := by
        rw [← hc']
        unfold Namespace.child
        rw [hsame.childList, hl]
      have hattached : ns.Attached c := .inr (by simp [(child_spec I hchild).2.1])
      rw [h, h']
      dsimp only
      rw [if_pos (.inr rfl)]
      have hlists : ∀ x, ((fs.fsDirectoryLookup d name).2.dentry x).childList
          = (ns.dentry x).childList := by
        intro x
        have hx := hnext.childList x
        rw [hns', hsame.childList, hl] at hx
        exact hx.symm
      have hclean : SameLookups ((fs.fsDirectoryLookup d name).2.unhold d)
          ((fs₁'.unhold d).modify c fun b => { b with dirty := false }) := by
        refine ⟨hnext.hashAlloc, fun x => ?_⟩
        refine Eq.trans ?_ (hnext.childList x)
        by_cases hx : x = c
        · subst hx
          simp [State.modify, State.unhold]
        · rw [dentry_modify_of_ne _ hx]
          rfl
      refine ih hlists hclean hattached ?_
      have hboth : fs₁'.numhandles = raised (raised n c) d := by
        rw [hh', R.numhandles]
        exact raised_comm n d c
      exact (R.of_namespace hns' hboth).unhold.modify c fun _ => rfl

/-- Does a path lead to a dentry? -/
def leads (fs : State) (path : Path) : Bool :=
  match (fs.fsPathLookup false path).1 with
  | .error _ => false
  | .ok _ => true

/-- **`fs_path_clean`.** A dentry that is found is never given back. -/
theorem pathClean_users_iff (S : Settled fs) (path : Path) :
    (∀ x, users (fs.fsPathClean path).2 x = users fs x) ↔ leads fs path = false := by
  have hleft : ∀ {A : State} {c : ℕ}, Refs A (raised fs.numhandles c) fs.parent fs.root →
      ¬ ∀ x, users A x = users fs x := by
    intro A c hA hall
    have hc := hall c
    rw [hA.users, (Refs.refl fs).users] at hc
    exact usersOf_raised_ne c hc
  cases hnext : fs.alloc.next.1 with
  | false =>
    unfold State.fsPathClean leads State.fsPathLookup State.malloc
    rw [hnext]
    exact iff_of_true (fun _ => rfl) rfl
  | true =>
    have hstart : Refs (State.hold { fs with alloc := fs.alloc.next.2 } fs.root)
        (raised fs.numhandles fs.root) fs.parent fs.root :=
      ((Refs.refl fs).hold fs.root).of_eq rfl (fun _ => rfl) rfl
    have hclean := hstart.modify fs.root (f := fun b => { b with dirty := false }) fun _ => rfl
    by_cases hpath : path = [] ∨ path = [slash]
    · -- the root itself
      unfold State.fsPathClean leads State.fsPathLookup State.malloc
      rw [hnext]
      dsimp only
      rw [if_pos hpath, if_pos hpath]
      exact iff_of_false (hleft hclean) (by simp)
    · have hlookup : (fs.fsPathLookup false path).1 = (State.fsPathWalk false
          (State.hold { fs with alloc := fs.alloc.next.2 } fs.root) fs.root
          ((path.drop 1).splitOn slash)).1 := by
        unfold State.fsPathLookup State.malloc
        rw [hnext]
        dsimp only
        rw [if_neg hpath]
        rfl
      have hsame : SameLookups (State.hold { fs with alloc := fs.alloc.next.2 } fs.root)
          ((State.hold { fs with alloc := fs.alloc.next.2 } fs.root).modify fs.root
            fun b => { b with dirty := false }) := by
        refine ⟨rfl, fun x => ?_⟩
        by_cases hx : x = fs.root
        · subst hx
          simp [State.modify, State.hold]
        · rw [dentry_modify_of_ne _ hx]
      have hlists : ∀ x, ((State.hold { fs with alloc := fs.alloc.next.2 } fs.root).dentry x).childList
          = (fs.dentry x).childList := fun _ => rfl
      have hwalk := fsPathCleanWalk_refs S.tree S.handles ((path.drop 1).splitOn slash) hlists hsame
        (.inl rfl) hclean
      have hexec : (fs.fsPathClean path).2 = (State.fsPathCleanWalk
          ((State.hold { fs with alloc := fs.alloc.next.2 } fs.root).modify fs.root
            fun b => { b with dirty := false }) fs.root ((path.drop 1).splitOn slash)).2 := by
        unfold State.fsPathClean State.malloc
        rw [hnext]
        dsimp only
        rw [if_neg hpath]
        rfl
      rw [← hlookup, ← hexec] at hwalk
      unfold leads
      rcases hwalk with ⟨e, h, hR⟩ | ⟨c, h, hR⟩
      · rw [h]
        refine iff_of_true (fun x => ?_) rfl
        rw [hR.users, (Refs.refl fs).users]
      · rw [h]
        exact iff_of_false (hleft hR) (by simp)

end PathClean

/-! ## Calls that open a path -/

section OnPath

variable {fs fs' : State} {vol vol' : LtfsVolume} {n : ℕ → ℤ} {par : ℕ → Option ℕ} {root d : ℕ}

theorem Refs.setDentryDirty (R : Refs fs n par root) (d : ℕ) :
    Refs (fs.ltfsSetDentryDirty d) n par root := by
  have D := setDentryDirty_spec fs d
  refine R.of_eq D.numhandles (fun x => ?_) D.root
  show ((fs.ltfsSetDentryDirty d).dentry x).parent = (fs.dentry x).parent
  rw [D.dentry]
  by_cases hx : x = d
  · subst hx
    rw [update_self]
  · rw [update_of_ne hx]

theorem Refs.storeData (R : Refs fs n par root) (log : DataLog) :
    Refs (fs.storeData log) n par root := by
  unfold State.storeData
  induction log generalizing fs with
  | nil => exact R
  | cons x log ih =>
    rw [List.foldl_cons]
    have hmod := R.modify x.1 (f := fun b =>
      { b with extentlist := x.2.extentlist, size := x.2.size }) fun _ => rfl
    exact ih (hmod.setDentryDirty x.1)

theorem Refs.updateUsedBlocks (R : Refs fs n par root) (env : Env) (blocksize d : ℕ) :
    Refs (fs.ltfsFsopsUpdateUsedBlocks env blocksize d).2 n par root := by
  have hmod := R.modify d (f := fun b =>
    { b with usedBlocks := State.fsGetUsedBlocks blocksize (fs.dentry d).extentlist }) fun _ => rfl
  unfold State.ltfsFsopsUpdateUsedBlocks
  dsimp only
  split
  · exact hmod
  · exact hmod.of_eq rfl (fun _ => rfl) rfl

/-- Closing gives one reference back. -/
theorem close_refs (blocksize : ℕ) (env : Env) (io : Iosched) (openWrite useIosched : Bool)
    (R : Refs vol.fs (raised n d) par root) (hn : 1 ≤ n d) :
    Refs (vol.ltfsFsopsClose blocksize env io d openWrite useIosched).2.fs n par root := by
  have hback : ∀ log, Refs (vol.fs.ltfsFsopsClose env blocksize d openWrite log) n par root := by
    intro log
    unfold State.ltfsFsopsClose
    dsimp only
    refine Refs.release (Refs.storeData ?_ log) hn
    split
    · exact R.updateUsedBlocks env blocksize d
    · exact R
  exact hback _

/-- The counter goes down when the close succeeds. -/
theorem close_fileOpenCount (blocksize : ℕ) (env : Env) (io : Iosched) (d : ℕ)
    (openWrite useIosched : Bool) :
    (vol.ltfsFsopsClose blocksize env io d openWrite useIosched).2.fileOpenCount =
      if (vol.ltfsFsopsClose blocksize env io d openWrite useIosched).1 = 0 then
        vol.fileOpenCount - 1 else vol.fileOpenCount := by
  show (if (vol.ltfsFsopsClose blocksize env io d openWrite useIosched).1 = 0 ∧
    0 < vol.fileOpenCount then vol.fileOpenCount - 1 else vol.fileOpenCount) = _
  generalize (vol.ltfsFsopsClose blocksize env io d openWrite useIosched).1 = ret
  by_cases hret : ret = 0
  · rw [if_pos hret]
    split
    · rfl
    · omega
  · rw [if_neg hret, if_neg (by simp [hret])]

section Open

variable (normalize : List UInt8 → Except ℤ (List UInt8)) (blocksize : ℕ)

/-- The dentry a path leads to, as far as `ltfs_fsops_open` gets; `none` where it fails before. -/
def opened (env : Env) (fs : State) (path : Path) (openWrite : Bool) : Option (ℕ × State) :=
  if openWrite = true ∧ env.tapeReadonly < 0 ∧ env.tapeReadonly ≠ -ltfsLessSpace then none
  else
    match State.formatSource normalize path with
    | .error _ => none
    | .ok pathNorm =>
      if env.volumeLock < 0 then none
      else
        match fs.fsPathLookup false pathNorm with
        | (.error _, _) => none
        | (.ok d, fs) => some (d, fs)

/-- What an open comes to. -/
theorem open_cases (S : Settled vol.fs) (env : Env) (io : Iosched) (path : Path)
    (openWrite useIosched : Bool) :
    (opened normalize env vol.fs path openWrite = none ∧
      ∃ e fs₁, vol.ltfsFsopsOpen normalize blocksize env io path openWrite useIosched
        = (.error e, { vol with fs := fs₁ }) ∧
        Refs fs₁ vol.fs.numhandles vol.fs.parent vol.fs.root) ∨
    ∃ d fs₁, opened normalize env vol.fs path openWrite = some (d, fs₁) ∧ vol.fs.Attached d ∧
      fs₁.toNamespace = vol.fs.toNamespace ∧
      Refs fs₁ (raised vol.fs.numhandles d) vol.fs.parent vol.fs.root ∧
      vol.ltfsFsopsOpen normalize blocksize env io path openWrite useIosched =
        if openWrite && (fs₁.dentry d).isslink then
          (.error (-ltfsRdonlyVolume), ({ vol with fs := fs₁ }.ltfsFsopsClose blocksize env io d
            openWrite useIosched).2)
        else (.ok d, { vol with fs := fs₁, fileOpenCount := vol.fileOpenCount + 1 }) := by
  have hself : ∀ e, ∃ e' fs₁, ((.error e, vol) : Except ℤ ℕ × LtfsVolume)
      = (.error e', { vol with fs := fs₁ }) ∧
      Refs fs₁ vol.fs.numhandles vol.fs.parent vol.fs.root := fun e =>
    ⟨e, vol.fs, rfl, Refs.refl vol.fs⟩
  unfold LtfsVolume.ltfsFsopsOpen opened
  split
  · exact .inl ⟨rfl, hself _⟩
  · cases State.formatSource normalize path with
    | error e => exact .inl ⟨rfl, hself _⟩
    | ok pathNorm =>
      dsimp only
      split
      · exact .inl ⟨rfl, hself _⟩
      · rcases fsPathLookup_handles false pathNorm S.tree S.handles with ⟨e, fs₁, h, hns, hh⟩ |
          ⟨d, fs₁, h, hns, ha, hh⟩
        · rw [h]
          exact .inl ⟨rfl, e, fs₁, rfl, (Refs.refl vol.fs).of_namespace hns hh⟩
        · rw [h]
          rw [if_neg (by simp)] at hh
          exact .inr ⟨d, fs₁, rfl, ha, hns, (Refs.refl vol.fs).of_namespace hns hh, rfl⟩

end Open

/-- What was opened is closed again, with other work on the dentry in between. -/
theorem opened_closed_users (blocksize : ℕ) (env : Env) (io : Iosched) (openWrite useIosched : Bool)
    (S : Settled vol.fs) (ha : vol.fs.Attached d)
    (R : Refs vol'.fs (raised vol.fs.numhandles d) vol.fs.parent vol.fs.root) (x : ℕ) :
    users (vol'.ltfsFsopsClose blocksize env io d openWrite useIosched).2.fs x = users vol.fs x := by
  rw [(close_refs blocksize env io openWrite useIosched R (S.handles d ha)).users,
    (Refs.refl vol.fs).users]

end OnPath

/-! ## Every call -/

section Calls

variable (normalize : List UInt8 → Except ℤ (List UInt8)) (blocksize : ℕ) {vol vol' : LtfsVolume}

/-- Does `ltfs_fsops_set_readonly_path` give back what it takes? Not for a protected dentry. -/
def setReadonlyFits (env : Env) (vol : LtfsVolume) (path : Path) : Bool :=
  match opened normalize env vol.fs path false with
  | none => true
  | some (d, fs) => !fs.isWorm d

/-- Does `ltfs_fsops_truncate_path`? A symbolic link is refused at the cost of the counter, and
without the count of the used blocks the close is no success. -/
def truncateFits (env env' : Env) (vol : LtfsVolume) (path : Path) : Bool :=
  match opened normalize env vol.fs path true with
  | none => true
  | some (d, fs) =>
    if (fs.dentry d).isslink then decide (env.countLock < 0 ∨ vol.fileOpenCount = 0)
    else decide (0 ≤ env'.countLock)

/-- Does `ltfs_fsops_readlink_path`? Not where the buffer is too small, or the scheduler reports an
error. -/
def readlinkFits (env env' : Env) (io : Iosched) (vol : LtfsVolume) (path : Path) (size : ℕ) :
    Bool :=
  match opened normalize env vol.fs path false with
  | none => true
  | some (d, fs) =>
    (vol.linkText (fs.dentry d) size).isSome &&
      (!(env.ioschedInitialized && !(fs.dentry d).isdir && env'.ioschedInitialized) || io.ret == 0)

/-- Does a call give back what it takes? -/
def PathCall.fits (env : Env) (vol : LtfsVolume) : PathCall → Bool
  | .unlink _ => true
  | .rename src dst => renameFits normalize vol.fs env src dst
  | .pathClean path => !leads vol.fs path
  | .getattrPath _ _ => true
  | .utimensPath _ _ _ _ => true
  | .setReadonlyPath _ path _ => setReadonlyFits normalize env vol path
  | .truncatePath env' path _ _ => truncateFits normalize env env' vol path
  | .readlinkPath env' io path size => readlinkFits normalize env env' io vol path size

/-- An error of the open that holds nothing. -/
theorem balanced_error {fs : State} (R : Refs fs vol.fs.numhandles vol.fs.parent vol.fs.root) :
    Balanced vol { vol with fs } := by
  refine ⟨fun x => ?_, rfl⟩
  show users fs x = users vol.fs x
  rw [R.users, (Refs.refl vol.fs).users]

theorem close_write_ret (env : Env) (d : ℕ) :
    (vol.ltfsFsopsClose blocksize env Iosched.raw d true false).1 = 0 ↔ 0 ≤ env.countLock := by
  unfold LtfsVolume.ltfsFsopsClose State.ltfsFsopsUpdateUsedBlocks Iosched.raw
  by_cases h : env.countLock < 0
  · simp [h]
    omega
  · simp [h]
    omega

theorem utimens_refs (env : Env) (accessTime modifyTime : Bool) (fs : State) (d : ℕ) {n : ℕ → ℤ}
    {par : ℕ → Option ℕ} {root : ℕ} (R : Refs fs n par root) :
    Refs (LtfsVolume.ltfsFsopsUtimens env accessTime modifyTime fs d).2 n par root := by
  unfold LtfsVolume.ltfsFsopsUtimens
  split
  · exact R
  · split
    · exact R
    · split
      · exact R
      · cases accessTime with
        | false =>
          cases modifyTime with
          | false => exact R
          | true => exact R.setDentryDirty d
        | true =>
          cases modifyTime with
          | false => exact R.setDentryDirty d
          | true => exact (R.setDentryDirty d).setDentryDirty d

theorem setReadonly_refs (env : Env) (readonly : Bool) (fs : State) (d : ℕ) {n : ℕ → ℤ}
    {par : ℕ → Option ℕ} {root : ℕ} (R : Refs fs n par root) :
    Refs (LtfsVolume.ltfsFsopsSetReadonly env readonly fs d).2 n par root := by
  unfold LtfsVolume.ltfsFsopsSetReadonly
  split
  · exact R
  · split
    · exact R
    · split
      · exact R
      · split
        · exact (R.modify d (f := fun b => { b with readonly }) fun _ => rfl).setDentryDirty d
        · exact R

theorem truncate_refs (env : Env) (d : ℕ) (length : ℤ) (log : DataLog) (fs : State) {n : ℕ → ℤ}
    {par : ℕ → Option ℕ} {root : ℕ} (R : Refs fs n par root) :
    Refs (fs.ltfsFsopsTruncate env blocksize d length log).2 n par root := by
  unfold State.ltfsFsopsTruncate
  dsimp only
  split
  · exact R
  · split
    · exact R
    · split
      · exact R
      · split
        · exact R
        · split
          · exact R
          · exact (R.storeData log).updateUsedBlocks env blocksize d

/-- What was opened and is closed again is balanced exactly when the close succeeds. -/
theorem closed_balanced_iff (S : Settled vol.fs) {d : ℕ} (ha : vol.fs.Attached d) (env : Env)
    (io : Iosched) (openWrite useIosched : Bool)
    (hcount : vol'.fileOpenCount = vol.fileOpenCount + 1)
    (R : Refs vol'.fs (raised vol.fs.numhandles d) vol.fs.parent vol.fs.root) :
    Balanced vol (vol'.ltfsFsopsClose blocksize env io d openWrite useIosched).2 ↔
      (vol'.ltfsFsopsClose blocksize env io d openWrite useIosched).1 = 0 := by
  have hafter := @close_fileOpenCount vol' blocksize env io d openWrite useIosched
  rw [hcount] at hafter
  constructor
  · intro B
    by_contra hret
    rw [if_neg hret, B.fileOpenCount] at hafter
    omega
  · intro hret
    rw [if_pos hret] at hafter
    refine ⟨fun x => ?_, by omega⟩
    exact opened_closed_users blocksize env io openWrite useIosched S ha R x

/-- Where the reference stays, so does the counter. -/
theorem not_balanced_of_count (h : vol'.fileOpenCount = vol.fileOpenCount + 1) :
    ¬ Balanced vol vol' := by
  intro B
  have := B.fileOpenCount
  omega

/-- Reading from an open dentry, or changing something else in it. -/
theorem onPath_balanced (S : Settled vol.fs) (env env' : Env) (path : Path)
    {work : State → ℕ → ℤ × State}
    (hwork : ∀ fs d n par root, Refs fs n par root → Refs (work fs d).2 n par root) :
    Balanced vol (vol.onPath normalize blocksize env env' path work).2 := by
  unfold LtfsVolume.onPath
  rcases open_cases normalize blocksize S env Iosched.raw path false false with
    ⟨-, e, fs₁, h, R⟩ | ⟨d, fs₁, -, ha, -, R, h⟩
  · rw [h]
    exact balanced_error R
  · rw [h, Bool.false_and, if_neg (by simp)]
    have hR := hwork fs₁ d _ _ _ R
    exact (closed_balanced_iff blocksize S ha env' Iosched.raw false false rfl hR).mpr rfl

theorem setReadonlyPath_balanced_iff (S : Settled vol.fs) (env env' : Env) (path : Path)
    (readonly : Bool) :
    Balanced vol (vol.ltfsFsopsSetReadonlyPath normalize blocksize env env' path readonly).2 ↔
      setReadonlyFits normalize env vol path = true := by
  unfold LtfsVolume.ltfsFsopsSetReadonlyPath setReadonlyFits
  rcases open_cases normalize blocksize S env Iosched.raw path false false with
    ⟨hnone, e, fs₁, h, R⟩ | ⟨d, fs₁, hsome, ha, -, R, h⟩
  · rw [h, hnone]
    exact iff_of_true (balanced_error R) rfl
  · rw [h, hsome, Bool.false_and, if_neg (by simp)]
    dsimp only
    cases hworm : fs₁.isWorm d with
    | true => exact iff_of_false (not_balanced_of_count rfl) (by simp)
    | false =>
      rw [if_neg (by simp)]
      refine iff_of_true ?_ rfl
      have hR := setReadonly_refs env' readonly fs₁ d R
      exact (closed_balanced_iff blocksize S ha env' Iosched.raw false false rfl hR).mpr rfl

theorem truncatePath_balanced_iff (S : Settled vol.fs) (env env' : Env) (path : Path) (length : ℤ)
    (log : DataLog) :
    Balanced vol (vol.ltfsFsopsTruncatePath normalize blocksize env env' path length log).2 ↔
      truncateFits normalize env env' vol path = true := by
  unfold LtfsVolume.ltfsFsopsTruncatePath truncateFits
  rcases open_cases normalize blocksize S env Iosched.raw path true false with
    ⟨hnone, e, fs₁, h, R⟩ | ⟨d, fs₁, hsome, ha, -, R, h⟩
  · rw [h, hnone]
    exact iff_of_true (balanced_error R) rfl
  · rw [h, hsome, Bool.true_and]
    dsimp only
    cases hlink : (fs₁.dentry d).isslink with
    | true =>
      -- the open closes what it did not count
      rw [if_pos rfl, if_pos rfl, decide_eq_true_iff]
      dsimp only
      have hafter := @close_fileOpenCount { vol with fs := fs₁ } blocksize env Iosched.raw d true false
      have hret := @close_write_ret blocksize { vol with fs := fs₁ } env d
      constructor
      · intro B
        have hcount := B.fileOpenCount
        rw [hafter] at hcount
        by_cases hlock : env.countLock < 0
        · exact .inl hlock
        · rw [if_pos (hret.mpr (by omega))] at hcount
          exact .inr (by dsimp only at hcount; omega)
      · intro hcond
        refine ⟨fun x => ?_, ?_⟩
        · exact opened_closed_users blocksize env Iosched.raw true false S ha R x
        · rw [hafter]
          split
          · rename_i hzero
            have := hret.mp hzero
            dsimp only
            omega
          · rfl
    | false =>
      rw [if_neg (by simp), if_neg (by simp), decide_eq_true_iff]
      dsimp only
      have hR := truncate_refs blocksize env' d length log fs₁ R
      rw [closed_balanced_iff blocksize S ha env' Iosched.raw true false rfl hR]
      exact close_write_ret blocksize env' d

theorem readlinkPath_balanced_iff (S : Settled vol.fs) (env env' : Env) (io : Iosched) (path : Path)
    (size : ℕ) {r : Except ℤ Path × LtfsVolume}
    (hr : vol.ltfsFsopsReadlinkPath normalize blocksize env env' io path size = some r) :
    Balanced vol r.2 ↔ readlinkFits normalize env env' io vol path size = true := by
  unfold LtfsVolume.ltfsFsopsReadlinkPath at hr
  unfold readlinkFits
  rcases open_cases normalize blocksize S env Iosched.raw path false env.ioschedInitialized with
    ⟨hnone, e, fs₁, h, R⟩ | ⟨d, fs₁, hsome, ha, -, R, h⟩
  · rw [h] at hr
    obtain rfl := Option.some.inj hr
    rw [hnone]
    exact iff_of_true (balanced_error R) rfl
  · rw [h, Bool.false_and, if_neg (by simp)] at hr
    dsimp only at hr
    rw [hsome]
    dsimp only
    have htext : LtfsVolume.linkText { vol with fs := fs₁, fileOpenCount := vol.fileOpenCount + 1 }
        (fs₁.dentry d) size = vol.linkText (fs₁.dentry d) size := rfl
    rw [htext] at hr
    by_cases htarget : (fs₁.dentry d).target = []
    · rw [if_pos htarget] at hr
      cases hr
    · rw [if_neg htarget] at hr
      cases hbuf : vol.linkText (fs₁.dentry d) size with
      | none =>
        rw [hbuf] at hr
        obtain rfl := Option.some.inj hr
        exact iff_of_false (not_balanced_of_count rfl) (by simp)
      | some buf =>
        rw [hbuf] at hr
        obtain rfl := Option.some.inj hr
        dsimp only
        rw [closed_balanced_iff blocksize S ha env' io false env.ioschedInitialized rfl R,
          Option.isSome_some, Bool.true_and]
        show (if (if _ then io else Iosched.raw).ret = 0 ∧ (0 : ℤ) ≠ 0 then (0 : ℤ)
          else (if _ then io else Iosched.raw).ret) = 0 ↔ _
        rw [if_neg (by simp)]
        dsimp only
        cases env.ioschedInitialized && !(fs₁.dentry d).isdir && env'.ioschedInitialized with
        | false => exact iff_of_true rfl rfl
        | true => simp

/-- **References.** A call that takes a path gives back what it takes exactly when it fits. -/
theorem balanced_iff (S : Settled vol.fs) (env : Env) (c : PathCall)
    (hc : c.exec normalize blocksize env vol = some vol') :
    Balanced vol vol' ↔ c.fits normalize env vol = true := by
  have hfs : ∀ A : State, Balanced vol { vol with fs := A } ↔ ∀ x, users A x = users vol.fs x :=
    fun A => ⟨fun B => B.users, fun h => ⟨h, rfl⟩⟩
  cases c with
  | unlink path =>
    obtain rfl := Option.some.inj hc
    exact iff_of_true ((hfs _).mpr (unlink_users normalize S env path)) rfl
  | rename src dst =>
    obtain rfl := Option.some.inj hc
    rw [hfs]
    exact rename_users_iff normalize S env src dst
  | pathClean path =>
    obtain rfl := Option.some.inj hc
    rw [hfs, pathClean_users_iff S path]
    show _ ↔ (!leads vol.fs path) = true
    cases leads vol.fs path with
    | false => exact iff_of_true rfl rfl
    | true => exact iff_of_false (by simp) (by simp)
  | getattrPath env' path =>
    obtain rfl := Option.some.inj hc
    refine iff_of_true (onPath_balanced normalize blocksize S env env' path ?_) rfl
    intro fs d n par root R
    unfold LtfsVolume.ltfsFsopsGetattr
    split
    · exact R
    · exact R
  | utimensPath env' path accessTime modifyTime =>
    obtain rfl := Option.some.inj hc
    refine iff_of_true (onPath_balanced normalize blocksize S env env' path ?_) rfl
    exact fun fs d n par root R => utimens_refs env' accessTime modifyTime fs d R
  | setReadonlyPath env' path readonly =>
    obtain rfl := Option.some.inj hc
    exact setReadonlyPath_balanced_iff normalize blocksize S env env' path readonly
  | truncatePath env' path length log =>
    obtain rfl := Option.some.inj hc
    exact truncatePath_balanced_iff normalize blocksize S env env' path length log
  | readlinkPath env' io path size =>
    obtain ⟨r, hr, rfl⟩ := Option.map_eq_some_iff.mp hc
    exact readlinkPath_balanced_iff normalize blocksize S env env' io path size hr

end Calls

/-! ## Runs of open and close -/

section OpenRuns

variable (normalize : List UInt8 → Except ℤ (List UInt8)) (blocksize : ℕ) {s s' : Clients}

/-- `file_open_count` is the number of dentries that are handed out. -/
def InSync (s : Clients) : Prop := s.vol.fileOpenCount = s.handles.length

instance (s : Clients) : Decidable (InSync s) := inferInstanceAs (Decidable (_ = _))

/-- The calls that count what they hand out. -/
def OpenCall.counts : OpenCall → Bool
  | .openCombo _ _ _ => false
  | _ => true

theorem open_ok_count {vol vol' : LtfsVolume} {env : Env} {io : Iosched} {path : Path}
    {openWrite useIosched : Bool} {d : ℕ}
    (h : vol.ltfsFsopsOpen normalize blocksize env io path openWrite useIosched = (.ok d, vol')) :
    vol'.fileOpenCount = vol.fileOpenCount + 1 := by
  unfold LtfsVolume.ltfsFsopsOpen at h
  split at h
  · cases h
  · split at h
    · cases h
    · split at h
      · cases h
      · split at h
        · cases h
        · dsimp only at h
          split at h
          · cases h
          · cases h
            rfl

theorem openCombo_count (vol : LtfsVolume) (env : Env) (path : Path) (openWrite isopendir : Bool) :
    (vol.ltfsFsopsOpenCombo normalize env path openWrite isopendir).2.fileOpenCount
      = vol.fileOpenCount := by
  unfold LtfsVolume.ltfsFsopsOpenCombo
  split
  · rfl
  · split
    · rfl
    · split
      · rfl
      · split
        · rfl
        · dsimp only
          split
          · rfl
          · split
            · rfl
            · rfl

theorem create_ok_count {vol vol' : LtfsVolume} {env xenv : Env} {path : Path}
    {isdir readonly overwrite : Bool} {d : ℕ}
    (h : vol.ltfsFsopsCreate normalize env xenv path isdir readonly overwrite = (.ok d, vol')) :
    vol'.fileOpenCount = vol.fileOpenCount + 1 := by
  unfold LtfsVolume.ltfsFsopsCreate at h
  split at h
  · cases h
  · split at h
    · cases h
    · split at h
      · cases h
      · split at h
        · cases h
        · split at h
          · cases h
          · split at h
            · cases h
            · exact (congrArg (fun r => r.2.fileOpenCount) h).symm

/-- What is handed out. -/
theorem handOut_spec {r : Except ℤ ℕ × LtfsVolume} (h : s.handOut r = some s') :
    ∃ d, r.1 = .ok d ∧ s' = ⟨r.2, d :: s.handles⟩ := by
  obtain ⟨ret, vol⟩ := r
  cases ret with
  | error e => cases h
  | ok d => exact ⟨d, rfl, (Option.some.inj h).symm⟩

/-- One call keeps the counter right exactly when it counts what it hands out. -/
theorem exec_inSync_iff {env : Env} {c : OpenCall} (hs : InSync s)
    (h : c.exec normalize blocksize env s = some s') : InSync s' ↔ c.counts = true := by
  unfold InSync at hs ⊢
  cases c with
  | openPath io path openWrite useIosched =>
    obtain ⟨d, hd, rfl⟩ := handOut_spec h
    have hcount := open_ok_count normalize blocksize (Prod.ext hd rfl)
    exact iff_of_true (by rw [hcount, hs, List.length_cons]) rfl
  | openCombo path openWrite isopendir =>
    obtain ⟨d, hd, rfl⟩ := handOut_spec h
    refine iff_of_false (fun hcount => ?_) (by simp [OpenCall.counts])
    have hcombo : (s.vol.ltfsFsopsOpenCombo normalize env path openWrite isopendir).2.fileOpenCount
      = s.handles.length + 1 := hcount
    rw [openCombo_count, hs] at hcombo
    omega
  | create xenv path isdir readonly overwrite =>
    obtain ⟨d, hd, rfl⟩ := handOut_spec h
    have hcount := create_ok_count normalize (Prod.ext hd rfl)
    exact iff_of_true (by rw [hcount, hs, List.length_cons]) rfl
  | close io d openWrite useIosched =>
    unfold OpenCall.exec at h
    dsimp only at h
    split at h
    · rename_i hcond
      obtain rfl := Option.some.inj h
      have hpos := List.length_pos_of_mem hcond.1
      refine iff_of_true ?_ rfl
      dsimp only
      rw [close_fileOpenCount, if_pos hcond.2, hs, List.length_erase_of_mem hcond.1]
    · cases h

theorem runOpen_cons {c : Env × OpenCall} {rest : List (Env × OpenCall)} :
    runOpen normalize blocksize (c :: rest) s =
      (c.2.exec normalize blocksize c.1 s).bind (runOpen normalize blocksize rest) := rfl

/-- **The counter.** Along a run of calls that succeed, the counter is always right exactly when
none of them is `ltfs_fsops_open_combo`. -/
theorem runOpen_inSync_iff {calls : List (Env × OpenCall)} (hs : InSync s)
    (h : runOpen normalize blocksize calls s = some s') :
    (∀ k s₁, runOpen normalize blocksize (calls.take k) s = some s₁ → InSync s₁) ↔
      ∀ c ∈ calls, c.2.counts = true := by
  induction calls generalizing s with
  | nil =>
    refine iff_of_true (fun k s₁ h₁ => ?_) (by simp)
    rw [List.take_nil] at h₁
    obtain rfl := Option.some.inj h₁
    exact hs
  | cons c rest ih =>
    rw [runOpen_cons] at h
    obtain ⟨s₂, hexec, hrun⟩ := Option.bind_eq_some_iff.mp h
    have hstep := exec_inSync_iff normalize blocksize hs hexec
    constructor
    · intro hall
      -- the state behind the first call
      have hs₂ : InSync s₂ := by
        refine hall 1 s₂ ?_
        rw [List.take_succ_cons, runOpen_cons, hexec, List.take_zero]
        rfl
      have hrest := (ih hs₂ hrun).mp fun k s₁ h₁ => by
        refine hall (k + 1) s₁ ?_
        rw [List.take_succ_cons, runOpen_cons, hexec]
        exact h₁
      intro c' hc'
      rcases List.mem_cons.mp hc' with rfl | hc'
      · exact hstep.mp hs₂
      · exact hrest c' hc'
    · intro hall k s₁ h₁
      have hs₂ := hstep.mpr (hall c List.mem_cons_self)
      have hrest := (ih hs₂ hrun).mpr fun c' hc' => hall c' (List.mem_cons_of_mem c hc')
      cases k with
      | zero =>
        obtain rfl := Option.some.inj h₁
        exact hs
      | succ k =>
        rw [List.take_succ_cons, runOpen_cons, hexec] at h₁
        exact hrest k s₁ h₁

/-- **Handle counts.** -/
theorem handles_balanced_iff (normalize : List UInt8 → Except ℤ (List UInt8)) (blocksize : ℕ) :
    (∀ (vol vol' : LtfsVolume) (env : Env) (c : PathCall), Settled vol.fs →
      c.exec normalize blocksize env vol = some vol' →
      (Balanced vol vol' ↔ c.fits normalize env vol = true)) ∧
    ∀ (calls : List (Env × OpenCall)) (s s' : Clients), InSync s →
      runOpen normalize blocksize calls s = some s' →
      ((∀ k s₁, runOpen normalize blocksize (calls.take k) s = some s₁ → InSync s₁) ↔
        ∀ c ∈ calls, c.2.counts = true) :=
  ⟨fun _ _ env c S hc => balanced_iff normalize blocksize S env c hc,
    fun _ _ _ hs h => runOpen_inSync_iff normalize blocksize hs h⟩

end OpenRuns

/-! ## A file in a directory -/

section Example

theorem fileInDir_settled : Settled fileInDir.fs := by
  refine ⟨fileInDir_inv.tree, fun d hd => ?_, fileInDir_inv.handles⟩
  by_cases ha : fileInDir.fs.Attached d
  · have hle := fileInDir_inv.tree.le_of_attached ha
    have hnumber : fileInDir.fs.inodeNumber = 3 := by decide +kernel
    rw [hnumber] at hle
    revert hd
    obtain rfl | rfl | rfl | rfl : d = 0 ∨ d = 1 ∨ d = 2 ∨ d = 3 := by omega
    · decide +kernel
    · decide +kernel
    · decide +kernel
    · decide +kernel
  · exact fileInDir_inv.tree.childList_of_detached ha

/-- The directory and the file, both open. -/
def fileInDirVolume : LtfsVolume := ⟨fileInDir.fs, 2, false, [], 0⟩

/-- Removing the file gives back what it takes, and opening it again and closing it keeps the
counter right. -/
theorem fileInDir_balanced :
    (∀ vol', PathCall.exec .ok 1 fineEnv fileInDirVolume (.unlink (ascii "/d/f")) = some vol' →
      Balanced fileInDirVolume vol') ∧
    ∀ s', runOpen .ok 1 [(fineEnv, .openPath Iosched.raw (ascii "/d/f") false false),
        (fineEnv, .close Iosched.raw 3 false false)] ⟨fileInDirVolume, [3, 2]⟩ = some s' →
      InSync s' := by
  constructor
  · intro vol' h
    exact ((handles_balanced_iff .ok 1).1 fileInDirVolume vol' fineEnv (.unlink (ascii "/d/f"))
      fileInDir_settled h).mpr rfl
  · intro s' h
    exact ((handles_balanced_iff .ok 1).2 _ ⟨fileInDirVolume, [3, 2]⟩ s' rfl h).mpr (by decide) 2 s' h

/-- Cleaning the path of the directory leaves a reference to it, and a file that is opened for
reading with `ltfs_fsops_open_combo` is not counted. -/
theorem fileInDir_left :
    Settled fileInDirVolume.fs ∧ InSync ⟨fileInDirVolume, [3, 2]⟩ ∧
    (∃ vol', PathCall.exec .ok 1 fineEnv fileInDirVolume (.pathClean (ascii "/d")) = some vol' ∧
      ¬ Balanced fileInDirVolume vol') ∧
    ∃ s', runOpen .ok 1 [(fineEnv, .openCombo (ascii "/d/f") false false)]
      ⟨fileInDirVolume, [3, 2]⟩ = some s' ∧ ¬ InSync s' := by
  refine ⟨fileInDir_settled, rfl, ?_, ?_⟩
  · refine ⟨_, rfl, fun B => ?_⟩
    have hdir := B.users 2
    revert hdir
    decide +kernel
  · have hrun : (runOpen .ok 1 [(fineEnv, .openCombo (ascii "/d/f") false false)]
        ⟨fileInDirVolume, [3, 2]⟩).map (fun s => (s.vol.fileOpenCount, s.handles))
        = some (2, [3, 3, 2]) := by decide +kernel
    obtain ⟨s', hs, hpair⟩ := Option.map_eq_some_iff.mp hrun
    refine ⟨s', hs, fun hsync => ?_⟩
    unfold InSync at hsync
    rw [Prod.mk.injEq] at hpair
    rw [hpair.1, hpair.2] at hsync
    cases hsync

end Example

end Ltfs.Fs

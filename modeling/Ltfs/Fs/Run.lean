import Ltfs.Fs.RenameSpec

/-!
# Runs

The data calls, one call of the system, and a whole run. `Calm` is what the tree needs
of a call, `Exact` what the counters need on top of it; `step_spec` says that such a
call is a sequence of changes, and `run_spec` that what all changes keep holds at the
end of a run.
-/

namespace Ltfs.Fs

open Function Namespace Lib.Forest

section Data

variable {T : Terms} {fs fs' : State} {o : ℕ → ℕ} {d : ℕ}

/-- A call that moves no dentry. -/
structure Still (T : Terms) (o : ℕ → ℕ) (fs fs' : State) : Prop where
  changes : Changes T fs fs'
  shape : SameShape fs.toNamespace fs'.toNamespace
  inv : Inv fs' o

theorem Still.refl (I : Inv fs o) : Still T o fs fs := ⟨Changes.refl, SameShape.refl _, I⟩

theorem Still.trans {fs₁ : State} (h : Still T o fs fs₁) (h' : Still T o fs₁ fs') :
    Still T o fs fs' :=
  ⟨h.changes.trans h'.changes, h.shape.trans h'.shape, h'.inv⟩

/-- The data stored during a call. -/
theorem storeData_spec (I : Inv fs o) (log : DataLog) : Still T o fs (fs.storeData log) := by
  unfold State.storeData
  induction log generalizing fs with
  | nil => exact Still.refl I
  | cons x log ih =>
    have W : Worked T fs ((fs.modify x.1 fun b =>
        { b with extentlist := x.2.extentlist, size := x.2.size }).ltfsSetDentryDirty x.1) x.1 :=
      ⟨_, _, Touch.modify fs x.1 _, .data x.2.extentlist x.2.size, .inr (setDentryDirty_spec _ _)⟩
    have h₁ : Still T o fs _ := ⟨W.changes I.quiet, W.sameShape, W.inv I⟩
    rw [List.foldl_cons]
    exact h₁.trans (ih h₁.inv)

variable (env : Env) (blocksize : ℕ)

/-- The condition on counting the blocks of a dentry: it succeeds on a dentry of the
tree, or there is nothing to count. -/
def CountSafe (env : Env) (blocksize : ℕ) (fs : State) (d : ℕ) : Prop :=
  (¬ env.countLock < 0 ∧ fs.Attached d) ∨
    State.fsGetUsedBlocks blocksize (fs.dentry d).extentlist = (fs.dentry d).usedBlocks

/-- `ltfs_fsops_update_used_blocks`. -/
theorem updateUsedBlocks_spec (I : Inv fs o) (hsafe : T.exact → CountSafe env blocksize fs d) :
    Still T o fs (fs.ltfsFsopsUpdateUsedBlocks env blocksize d).2 := by
  unfold CountSafe at hsafe
  set u := State.fsGetUsedBlocks blocksize (fs.dentry d).extentlist with hu
  have h := Touch.modify fs d fun b => { b with usedBlocks := u }
  have I₁ := h.inv rfl I
  have hattached : T.exact → fs.Attached d ∨ u = (fs.dentry d).usedBlocks :=
    fun hx => (hsafe hx).imp And.right id
  unfold State.ltfsFsopsUpdateUsedBlocks
  dsimp only
  rw [← hu]
  split
  · rename_i hneg
    have hsame : T.exact → u = (fs.dentry d).usedBlocks :=
      fun hx => (hsafe hx).resolve_left fun hl => hl.1 hneg
    have hc : Change T fs (fs.modify d fun b => { b with usedBlocks := u }) :=
      .count d u _ h (.inr ⟨rfl, hsame⟩) hattached
    exact ⟨Changes.single hc, h.sameShape rfl, I₁⟩
  · set fs₁ : State := { fs.modify d fun b => { b with usedBlocks := u } with
      validBlocks := fs.validBlocks + (u - (fs.dentry d).usedBlocks) } with hfs₁
    have hc : Change T fs fs₁ := .count d u _ h (.inl rfl) hattached
    have hs : SameShape fs.toNamespace fs₁.toNamespace :=
      ⟨rfl, le_refl _, (h.sameShape rfl).attached, (h.sameShape rfl).detached⟩
    exact ⟨Changes.single hc, hs, I.sameShape hs rfl I.quiet⟩

/-- `ltfs_fsops_write`. -/
theorem ltfsFsopsWrite_spec (I : Inv fs o) (offset : ℕ) (log : DataLog) :
    Still T o fs (fs.ltfsFsopsWrite d offset log) := by
  unfold State.ltfsFsopsWrite
  dsimp only
  split
  · exact Still.refl I
  · split
    · exact Still.refl I
    · exact storeData_spec I log

/-- `ltfs_fsops_truncate`. -/
theorem ltfsFsopsTruncate_spec (I : Inv fs o) (hlock : T.exact → ¬ env.countLock < 0)
    (ha : T.exact → fs.Attached d) (length : ℤ) (log : DataLog) :
    Still T o fs (fs.ltfsFsopsTruncate env blocksize d length log).2 := by
  unfold State.ltfsFsopsTruncate
  dsimp only
  repeat' first
    | exact Still.refl I
    | split
  have h := storeData_spec (T := T) I log
  exact h.trans (updateUsedBlocks_spec env blocksize h.inv
    fun hx => .inl ⟨hlock hx, h.shape.attached_iff.mpr (ha hx)⟩)

/-- `ltfs_fsops_close` gives the reference of the caller back. -/
theorem ltfsFsopsClose_spec (I : Inv fs (held o d)) (openWrite : Bool)
    (hsafe : T.exact → openWrite = true → CountSafe env blocksize fs d) (log : DataLog) :
    Changes T fs (fs.ltfsFsopsClose env blocksize d openWrite log) ∧
      Inv (fs.ltfsFsopsClose env blocksize d openWrite log) o := by
  have hcount : Still T (held o d) fs (if openWrite = true then
      (fs.ltfsFsopsUpdateUsedBlocks env blocksize d).2 else fs) := by
    split
    · rename_i how
      exact updateUsedBlocks_spec env blocksize I fun hx => hsafe hx how
    · exact Still.refl I
  unfold State.ltfsFsopsClose
  have hdata := hcount.trans (storeData_spec hcount.inv log)
  obtain ⟨hk, I'⟩ := fsReleaseDentry_spec hdata.inv
  exact ⟨hdata.changes.trans (Changes.of_kept hk), I'⟩

variable (normalize : List UInt8 → Except ℤ (List UInt8))

/-- `ltfs_fsops_open`. -/
theorem ltfsFsopsOpen_spec (I : Inv fs o) (path : Path) (openWrite : Bool)
    (hlock : T.exact → openWrite = true → ¬ env.countLock < 0) :
    (∃ e fs', fs.ltfsFsopsOpen normalize env blocksize path openWrite = (.error e, fs') ∧
      Changes T fs fs' ∧ Inv fs' o) ∨
    (∃ d fs', fs.ltfsFsopsOpen normalize env blocksize path openWrite = (.ok d, fs') ∧
      Changes T fs fs' ∧ Inv fs' (held o d)) := by
  unfold State.ltfsFsopsOpen
  split
  · exact .inl ⟨_, _, rfl, Changes.refl, I⟩
  · split
    · exact .inl ⟨_, _, rfl, Changes.refl, I⟩
    · split
      · exact .inl ⟨_, _, rfl, Changes.refl, I⟩
      · rename_i pathNorm _ _
        rcases fsPathLookup_spec false pathNorm I with
          ⟨e, fs₁, h, hk, I₁⟩ | ⟨d, fs₁, h, -, hd, heq, I₁⟩
        · rw [h]
          exact .inl ⟨_, _, rfl, Changes.of_kept hk, I₁⟩
        · rw [h]
          rw [if_neg (by simp)] at I₁
          rw [← heq] at hd
          dsimp only
          split
          · obtain ⟨hc, I₂⟩ := ltfsFsopsClose_spec (T := T) env blocksize I₁ openWrite
              (fun hx how => .inl ⟨hlock hx how, hd⟩) []
            exact .inl ⟨_, _, rfl, (Changes.of_eq heq).trans hc, I₂⟩
          · exact .inr ⟨_, _, rfl, Changes.of_eq heq, I₁⟩

/-- `ltfs_fsops_symlink_path`. -/
theorem ltfsFsopsSymlinkPath_spec (I : Inv fs o) (xenv : Env) (hw : xenv.wormStatus.2 ∈ T.carts)
    (hplain : T.plain → PlainText normalize) (hlock : T.exact → ¬ env.countLock < 0)
    (target path : Path) (length : List UInt8) :
    Changes T fs
        (fs.ltfsFsopsSymlinkPath normalize env xenv blocksize target path length).2 ∧
      Inv (fs.ltfsFsopsSymlinkPath normalize env xenv blocksize target path length).2 o := by
  unfold State.ltfsFsopsSymlinkPath
  rcases ltfsFsopsCreate_spec normalize xenv env hw hplain I path false true false
    (fun _ => rfl) with ⟨e, fs₁, h, hc, I₁⟩ | ⟨d, fs₁, h, hc, hd, himm, I₁⟩
  · rw [h]
    exact ⟨hc, I₁⟩
  · rw [h]
    dsimp only
    -- the target, up to what is left of the allocations
    have hlink : ∀ (a : Alloc) (t : Path), ∃ fs₂, fs₂ = State.modify { fs₁ with alloc := a } d
        (fun b => { b with target := t, isslink := true }) ∧ Still T (held o d) fs₁ fs₂ ∧
        fs₂.Attached d ∧ (T.plain → (fs₂.dentry d).isImmutable = false) := by
      intro a t
      have ht : Touch fs₁ (State.modify { fs₁ with alloc := a } d
          (fun b => { b with target := t, isslink := true })) d
          { fs₁.dentry d with target := t, isslink := true } :=
        ⟨rfl, rfl, rfl, rfl, rfl, rfl, rfl, rfl, id⟩
      have hs := ht.sameShape rfl
      refine ⟨_, rfl, ⟨Changes.single (.touch d _ ht (.symlink t)), hs, ht.inv rfl I₁⟩,
        hs.attached_iff.mpr hd, fun hp => ?_⟩
      rw [ht.get]
      exact himm hp
    rcases hm : fs₁.malloc with ⟨copied, fs'⟩
    obtain ⟨a, rfl⟩ := malloc_spec hm
    obtain ⟨fs₂, heq, hstill, hd₂, himm₂⟩ := hlink a (if copied = true then target else [])
    dsimp only
    rw [← heq]
    rcases hm₂ : fs₂.malloc with ⟨_ | _, fs'⟩
    · -- the new dentry stays open
      obtain ⟨a₂, rfl⟩ := malloc_spec hm₂
      exact ⟨(hc.trans hstill.changes).trans (Changes.of_eq rfl), (hstill.inv.alloc a₂).weaken⟩
    · obtain ⟨a₂, rfl⟩ := malloc_spec hm₂
      dsimp only
      set fs₃ : State := { fs₂ with alloc := a₂ } with hfs₃
      have hsame : Changes T fs₂ fs₃ := Changes.of_eq rfl
      unfold State.xattrSetMountpointLength
      obtain ⟨l, ht, -⟩ := xattrDoSet_spec fs₃ d livelinkEa length
      have hlen : Still T (held o d) fs₃ (fs₃.xattrDoSet d livelinkEa length).2 :=
        ⟨Changes.single (.touch d _ ht (.length l himm₂)), ht.sameShape rfl,
          ht.inv rfl (hstill.inv.alloc a₂)⟩
      obtain ⟨hc₄, I₄⟩ := ltfsFsopsClose_spec (T := T) env blocksize hlen.inv true
        (fun hx _ => .inl ⟨hlock hx, hlen.shape.attached_iff.mpr hd₂⟩) []
      exact ⟨(((hc.trans hstill.changes).trans hsame).trans hlen.changes).trans hc₄, I₄⟩

end Data

/-! ## One call -/

/-- The WORM states the drive reports during a call. -/
def Request.carts (env : Env) : Request → List Bool
  | .create xenv _ _ _ _ => [env.wormStatus.2, xenv.wormStatus.2]
  | .symlink xenv _ _ _ => [env.wormStatus.2, xenv.wormStatus.2]
  | _ => [env.wormStatus.2]

section Step

variable (normalize : List UInt8 → Except ℤ (List UInt8)) (blocksize : ℕ)

/-- The condition on a call that the tree needs: the hash table functions find memory,
and no regular file with children is taken out of the tree. -/
structure Calm (c : Env × Request) (fs : State) : Prop where
  quiet : ∀ b ∈ c.1.hashAlloc, b = true
  unlink : ∀ path pathNorm, c.2 = .unlink path →
    State.formatSource normalize path = .ok pathNorm → UnlinkSafe fs.toNamespace pathNorm
  rename : ∀ src dst toNorm, c.2 = .rename src dst →
    NameCodec.pathnameFormat normalize dst true = .ok toNorm → ReplaceSafe fs.toNamespace toNorm

/-- The condition the counters need. -/
structure Exact (c : Env × Request) (fs : State) : Prop where
  rename : ∀ src dst toNorm, c.2 = .rename src dst →
    NameCodec.pathnameFormat normalize dst true = .ok toNorm → ReplaceExact fs.toNamespace toNorm
  truncate : ∀ d length log, c.2 = .truncate d length log →
    ¬ c.1.countLock < 0 ∧ fs.Attached d
  close : ∀ d log, c.2 = .close d true log → CountSafe c.1 blocksize fs d
  openPath : ∀ path, c.2 = .openPath path true → ¬ c.1.countLock < 0
  symlink : ∀ xenv target path length, c.2 = .symlink xenv target path length →
    ¬ c.1.countLock < 0

/-- The condition the journal needs: directories are neither made nor moved, and the removal
of one takes no entry of another dentry out of the journal. -/
structure Noted (c : Env × Request) (fs : State) : Prop where
  create : ∀ xenv path isdir readonly overwrite,
    c.2 = .create xenv path isdir readonly overwrite → isdir = false
  unlink : ∀ path pathNorm, c.2 = .unlink path →
    State.formatSource normalize path = .ok pathNorm → UnlinkKeeps fs.toNamespace pathNorm
  rename : ∀ src dst fromNorm, c.2 = .rename src dst →
    State.formatSource normalize src = .ok fromNorm → RenamesFile fs.toNamespace fromNorm

variable {E J : Prop}

/-- The terms of a call. -/
def Request.terms (c : Env × Request) (E J : Prop) : Terms where
  carts := c.2.carts c.1
  plain := PlainText normalize
  exact := E
  journal := J

theorem opened_spec {T : Terms} {s : System} {fs : State} {r : Except ℤ ℕ × State}
    (h : (∃ e fs', r = (.error e, fs') ∧ Changes T fs fs' ∧ Inv fs' s.opens) ∨
      (∃ d fs', r = (.ok d, fs') ∧ Changes T fs fs' ∧ Inv fs' (held s.opens d))) :
    Changes T fs (s.opened r).fs ∧ Inv (s.opened r).fs (s.opened r).opens := by
  rcases h with ⟨e, fs', rfl, hc, I⟩ | ⟨d, fs', rfl, hc, I⟩
  · exact ⟨hc, I⟩
  · exact ⟨hc, I⟩

theorem whenOpen_spec {P : System → Prop} {s : System} {d : ℕ} {work : System → System}
    (hclosed : P s) (hopen : s.opens d ≠ 0 → P (work s)) : P (s.whenOpen d work) := by
  unfold System.whenOpen
  split
  · exact hclosed
  · rename_i h
    exact hopen h

/-- One call. -/
theorem exec_spec {c : Env × Request} {s : System} (I : Inv s.fs s.opens)
    (hcalm : Calm normalize c s.fs) (hexact : E → Exact normalize blocksize c s.fs)
    (hnoted : J → Noted normalize c s.fs) :
    Changes (Request.terms normalize c E J) s.fs (c.2.exec normalize blocksize c.1 s).fs ∧
      Inv (c.2.exec normalize blocksize c.1 s).fs (c.2.exec normalize blocksize c.1 s).opens := by
  obtain ⟨env, req⟩ := c
  have hrefused : Changes (Request.terms normalize (env, req) E J) s.fs s.fs ∧ Inv s.fs s.opens :=
    ⟨Changes.refl, I⟩
  cases req with
  | create xenv path isdir readonly overwrite =>
    apply opened_spec
    rcases ltfsFsopsCreate_spec
      (T := Request.terms normalize (env, .create xenv path isdir readonly overwrite) E J)
      normalize xenv env (by simp [Request.terms, Request.carts]) id I path isdir readonly
      overwrite (fun hj => (hnoted hj).create xenv path isdir readonly overwrite rfl) with h | ⟨d, fs', h, hc, -, -, I'⟩
    · exact .inl h
    · exact .inr ⟨d, fs', h, hc, I'⟩
  | symlink xenv target path length =>
    exact ltfsFsopsSymlinkPath_spec env blocksize normalize I xenv
      (by simp [Request.terms, Request.carts]) id
      (fun hx => (hexact hx).symlink xenv target path length rfl) target path length
  | unlink path =>
    exact ltfsFsopsUnlink_spec normalize env I fun pathNorm h =>
      ⟨hcalm.unlink path pathNorm rfl h, fun hj => (hnoted hj).unlink path pathNorm rfl h⟩
  | rename src dst =>
    exact ltfsFsopsRename_spec normalize I src dst
      (fun toNorm h =>
        ⟨hcalm.rename src dst toNorm rfl h, fun hx => (hexact hx).rename src dst toNorm rfl h⟩)
      fun fromNorm h hj => (hnoted hj).rename src dst fromNorm rfl h
  | setxattr path name value xattrCreate xattrReplace =>
    obtain ⟨hc, -, I'⟩ := ltfsFsopsSetxattr_spec
      (T := Request.terms normalize (env, .setxattr path name value xattrCreate xattrReplace) E J)
      normalize env path name (by simp [Request.terms, Request.carts]) I value xattrCreate
      xattrReplace
    exact ⟨hc, I'⟩
  | removexattr path name =>
    obtain ⟨hc, -, I'⟩ := ltfsFsopsRemovexattr_spec
      (T := Request.terms normalize (env, .removexattr path name) E J)
      normalize env path name (by simp [Request.terms, Request.carts]) I
    exact ⟨hc, I'⟩
  | openPath path openWrite =>
    apply opened_spec
    refine ltfsFsopsOpen_spec env blocksize normalize I path openWrite ?_
    rintro hx rfl
    exact (hexact hx).openPath path rfl
  | write d offset log =>
    apply whenOpen_spec (P := fun s' => Changes _ s.fs s'.fs ∧ Inv s'.fs s'.opens) hrefused
    intro _
    have h := ltfsFsopsWrite_spec (T := Request.terms normalize (env, .write d offset log) E J)
      (d := d) I offset log
    exact ⟨h.changes, h.inv⟩
  | truncate d length log =>
    apply whenOpen_spec (P := fun s' => Changes _ s.fs s'.fs ∧ Inv s'.fs s'.opens) hrefused
    intro _
    have h := ltfsFsopsTruncate_spec
      (T := Request.terms normalize (env, .truncate d length log) E J) env blocksize I
      (fun hx => ((hexact hx).truncate d length log rfl).1)
      (fun hx => ((hexact hx).truncate d length log rfl).2) length log
    exact ⟨h.changes, h.inv⟩
  | close d openWrite log =>
    apply whenOpen_spec (P := fun s' => Changes _ s.fs s'.fs ∧ Inv s'.fs s'.opens) hrefused
    intro hopen
    -- the reference the caller gives back
    have hheld : s.opens = held (update s.opens d (s.opens d - 1)) d := by
      funext x
      rw [held_apply, update_apply]
      by_cases hx : x = d
      · subst hx
        simp only [if_pos]
        omega
      · simp only [if_neg hx]
        rfl
    rw [hheld] at I
    apply ltfsFsopsClose_spec env blocksize I openWrite
    rintro hx rfl
    exact (hexact hx).close d log rfl

/-- One call with the allocations it gets. -/
theorem step_spec {c : Env × Request} {s : System} (I : Inv s.fs s.opens)
    (hcalm : Calm normalize c s.fs) (hexact : E → Exact normalize blocksize c s.fs)
    (hnoted : J → Noted normalize c s.fs) :
    Changes (Request.terms normalize c E J) s.fs (step normalize blocksize c s).fs ∧
      Inv (step normalize blocksize c s).fs (step normalize blocksize c s).opens := by
  unfold step
  set fs₀ : State := { s.fs with alloc := c.1.alloc, hashAlloc := c.1.hashAlloc }
  have I₀ : Inv fs₀ s.opens := ⟨I.tree, ⟨I.handles.le, I.handles.fresh⟩, hcalm.quiet⟩
  have hcalm₀ : Calm normalize c fs₀ := ⟨hcalm.quiet, hcalm.unlink, hcalm.rename⟩
  have hexact₀ : E → Exact normalize blocksize c fs₀ := fun hx =>
    ⟨(hexact hx).rename, (hexact hx).truncate, (hexact hx).close, (hexact hx).openPath,
      (hexact hx).symlink⟩
  have hnoted₀ : J → Noted normalize c fs₀ := fun hj =>
    ⟨(hnoted hj).create, (hnoted hj).unlink, (hnoted hj).rename⟩
  have hsame : Changes (Request.terms normalize c E J) s.fs fs₀ := Changes.of_eq rfl
  obtain ⟨hc, I'⟩ := exec_spec normalize blocksize (s := { s with fs := fs₀ }) I₀ hcalm₀ hexact₀
    hnoted₀
  exact ⟨hsame.trans hc, I'⟩

/-- The calls of a run, each with the state it starts from. -/
def AlongRun (P : Env × Request → State → Prop) : List (Env × Request) → System → Prop
  | [], _ => True
  | c :: rest, s => P c s.fs ∧ AlongRun P rest (step normalize blocksize c s)

/-- What all changes keep holds at the end of a run. -/
theorem run_spec {P : State → Prop} {C : Env × Request → State → Prop}
    (hC : ∀ c fs, C c fs → Calm normalize c fs ∧ (E → Exact normalize blocksize c fs))
    (hP : ∀ c fs fs', fs.TreeInv → Change (Request.terms normalize c E False) fs fs' → P fs →
      P fs')
    {calls : List (Env × Request)} {s : System} (I : Inv s.fs s.opens) (hs : P s.fs)
    (hrun : AlongRun normalize blocksize C calls s) :
    Inv (run normalize blocksize calls s).fs (run normalize blocksize calls s).opens ∧
      P (run normalize blocksize calls s).fs := by
  induction calls generalizing s with
  | nil => exact ⟨I, hs⟩
  | cons c rest ih =>
    obtain ⟨hcalm, hexact⟩ := hC c s.fs hrun.1
    obtain ⟨hc, I'⟩ := step_spec normalize blocksize I hcalm hexact False.elim
    exact ih I' (hc.keeps (hP c) I.tree hs) hrun.2

end Step

/-! ## The tree from an empty root -/

/-- The linked dentries form a tree rooted at the volume root. -/
structure TreeOk (ns : Namespace) : Prop where
  rootParent : ns.parent ns.root = none
  climbs : ∀ d, ns.Linked d → Climbs ns.parent d ns.root
  listed : ∀ d, ns.Linked d → d ≠ ns.root → ∃ p, ns.parent d = some p ∧
    (ns.dentry p).childList.countP (fun e => e.2 = d) = 1 ∧
    ∀ q, q ≠ p → (ns.dentry q).childList.countP (fun e => e.2 = d) = 0
  names : ∀ p, ns.Linked p → ((ns.dentry p).childList.map fun e =>
    (ns.dentry e.2).platformSafeName).Nodup
  links : ∀ d, ns.Linked d → (ns.dentry d).isdir = true →
    (ns.dentry d).linkCount = BitVec.ofNat 32 (2 + ns.subdirs d)

/-- The root dentry of a new index. -/
def rootDentry : Dentry :=
  { Dentry.zero with
    platformSafeName := [slash]
    uid := 1
    isdir := true
    linkCount := 2 }

/-- The index as `ltfs_index_alloc` makes it, with the root as dentry `r`; nothing is
open. -/
def emptyRoot (r : ℕ) : System where
  fs :=
    { dentry := update (fun _ => Dentry.zero) r rootDentry
      root := r
      inodeNumber := r
      uidNumber := 1
      fileCount := 0
      validBlocks := 0
      journal := ⟨[], [], false, 0⟩
      numhandles := update (fun _ => 0) r 1
      alloc := []
      hashAlloc := [] }
  opens := fun _ => 0

theorem emptyRoot_parent (r d : ℕ) : (emptyRoot r).fs.parent d = none := by
  show (update (fun _ => Dentry.zero) r rootDentry d).parent = none
  rw [update_apply]
  split <;> rfl

theorem emptyRoot_childList (r d : ℕ) : ((emptyRoot r).fs.dentry d).childList = [] := by
  show (update (fun _ => Dentry.zero) r rootDentry d).childList = []
  rw [update_apply]
  split <;> rfl

theorem emptyRoot_inv (r : ℕ) : Inv (emptyRoot r).fs (emptyRoot r).opens := by
  have hroot : (emptyRoot r).fs.dentry r = rootDentry := by
    show update (fun _ => Dentry.zero) r rootDentry r = rootDentry
    rw [update_self]
  have htree : (emptyRoot r).fs.TreeInv := by
    constructor
    · exact emptyRoot_parent r r
    · exact congrArg Dentry.isdir hroot
    · exact le_refl r
    · intro p e he
      rw [emptyRoot_childList] at he
      cases he
    · intro c p hc
      rw [emptyRoot_parent] at hc
      cases hc
    · intro p
      rw [emptyRoot_childList]
      exact List.nodup_nil
    · intro d _
      exact emptyRoot_parent r d
    · intro d hd
      exact absurd (emptyRoot_parent r d) hd
    · intro d hd _
      rcases hd with hd | hd
      · have hd : d = r := hd
        subst hd
        unfold Namespace.subdirs
        rw [hroot]
        rfl
      · exact absurd (emptyRoot_parent r d) hd
  refine ⟨htree, ⟨fun d => ?_, fun _ _ => rfl⟩, fun b hb => by cases hb⟩
  show (emptyRoot r).fs.treeRef d + ((0 : ℕ) : ℤ) ≤ update (fun _ => (0 : ℤ)) r 1 d
  unfold Namespace.treeRef
  rw [update_apply]
  by_cases hd : d = r
  · rw [if_pos hd]
    split <;> simp
  · have hdet : ¬ (emptyRoot r).fs.Attached d := by
      intro h
      rcases h with h | h
      · exact hd h
      · exact h (emptyRoot_parent r d)
    rw [if_neg hdet, if_neg hd]
    simp

theorem TreeOk.of_inv {ns : Namespace} (I : ns.TreeInv) (hn : ns.NamesUnique) : TreeOk ns := by
  constructor
  · exact I.rootParent
  · intro d hd
    exact I.climbs_of_attached (I.attached_of_linked hd)
  · intro d hd hne
    rcases I.attached_of_linked hd with hroot | hp
    · exact absurd hroot hne
    · obtain ⟨p, hp⟩ := Option.ne_none_iff_exists'.mp hp
      refine ⟨p, hp, ?_, fun q hq => ?_⟩
      · have hmem := I.listed d p hp
        have hcount := List.count_eq_one_of_mem (I.nodup p) (List.mem_map_of_mem hmem)
        rw [List.count, List.countP_map] at hcount
        rw [← hcount]
        apply List.countP_congr
        intro e _
        simp
      · rw [List.countP_eq_zero]
        intro e he hed
        have hed : e.2 = d := by simpa using hed
        rw [← hed, (I.entry q e he).1] at hp
        exact hq (Option.some.inj hp)
  · intro p _
    have hkeys : ((ns.dentry p).childList.map fun e => (ns.dentry e.2).platformSafeName) =
        (ns.dentry p).childList.map Prod.fst := by
      apply List.map_congr_left
      intro e he
      exact (I.entry p e he).2
    rw [hkeys]
    exact hn p
  · intro d hd hdir
    exact I.links d (I.attached_of_linked hd) hdir

/-- **The name tree.** In every run of calm calls from an empty root, the linked
dentries form a tree. -/
theorem tree_of_run (normalize : List UInt8 → Except ℤ (List UInt8)) (blocksize r : ℕ)
    (calls : List (Env × Request))
    (hcalm : AlongRun normalize blocksize (Calm normalize) calls (emptyRoot r)) :
    TreeOk (run normalize blocksize calls (emptyRoot r)).fs.toNamespace := by
  have hnames : (emptyRoot r).fs.NamesUnique := by
    intro p
    rw [emptyRoot_childList]
    exact List.nodup_nil
  have h := run_spec normalize blocksize (E := False) (P := fun fs => fs.NamesUnique)
    (fun c fs hc => ⟨hc, False.elim⟩) (fun c fs fs' I hc hn => hc.namesUnique I hn)
    (emptyRoot_inv r) hnames hcalm
  exact TreeOk.of_inv h.1.tree h.2

/-- An environment in which everything succeeds. -/
def fineEnv : Env where
  tapeReadonly := 0
  unitReady := 0
  volumeLock := 0
  countLock := 0
  wormStatus := (0, false)
  flush := 0
  setVirtual := 0
  removeVirtual := 0
  haveCriteria := false
  ioschedInitialized := false
  alloc := []
  hashAlloc := []

/-- `ltfs_fsops_create` with nothing unusual. -/
def createCall (path : String) (isdir : Bool) : Env × Request :=
  (fineEnv, .create fineEnv (ascii path) isdir false false)

/-- Making a directory and a file, moving the file out and removing it. -/
theorem tree_of_run_moved :
    TreeOk (run .ok 1 [createCall "/d" true, createCall "/d/f" false,
      (fineEnv, .rename (ascii "/d/f") (ascii "/g")), (fineEnv, .unlink (ascii "/g"))]
      (emptyRoot 1)).fs.toNamespace := by
  apply tree_of_run
  have hpath : NameCodec.pathnameFormat .ok (ascii "/g") true = .ok (ascii "/g") := by
    decide +kernel
  refine ⟨?_, ?_, ?_, ?_, trivial⟩
  · exact ⟨by decide, by rintro _ _ ⟨⟩, by rintro _ _ _ ⟨⟩⟩
  · exact ⟨by decide, by rintro _ _ ⟨⟩, by rintro _ _ _ ⟨⟩⟩
  · refine ⟨by decide, by rintro _ _ ⟨⟩, ?_⟩
    rintro _ _ toNorm ⟨⟩ hnorm
    rw [hpath] at hnorm
    cases hnorm
    -- nothing stands at the destination
    intro q t hq ht
    have hq' : q = 1 := Option.some.inj (hq.symm.trans (by decide +kernel))
    subst hq'
    have hnone := ht.symm.trans (show _ = none by decide +kernel)
    cases hnone
  · refine ⟨by decide, ?_, by rintro _ _ _ ⟨⟩⟩
    rintro _ pathNorm ⟨⟩ hnorm d hd _
    have hsource : State.formatSource .ok (ascii "/g") = .ok (ascii "/g") := by
      unfold State.formatSource
      rw [hpath]
    rw [hsource] at hnorm
    cases hnorm
    have hd' : d = 3 := Option.some.inj (hd.symm.trans (by decide +kernel))
    subst hd'
    decide +kernel

/-- A directory that finds no memory for its entry is counted all the same; and a
regular file may have children, which stay behind when it goes. -/
theorem tree_broken :
    ¬ TreeOk (run .ok 1 [({ fineEnv with hashAlloc := [false] },
        .create fineEnv (ascii "/d") true false false)] (emptyRoot 1)).fs.toNamespace ∧
    ¬ TreeOk (run .ok 1 [createCall "/f" false, createCall "/f/x" false,
        (fineEnv, .unlink (ascii "/f"))] (emptyRoot 1)).fs.toNamespace := by
  constructor
  · intro h
    have hlink := h.links 1 (.inl (by decide +kernel)) (by decide +kernel)
    revert hlink
    decide +kernel
  · intro h
    -- the climb from `x` ends at `f`
    have hc := h.climbs 3 (.inr ⟨2, (ascii "x", 3), by decide +kernel, rfl⟩)
    rcases hc.cases with hroot | ⟨b, hb, hbr⟩
    · revert hroot
      decide +kernel
    · obtain rfl : 2 = b := Option.some.inj (Eq.trans (by decide +kernel) hb)
      have hend := hbr.eq_of_no_parent (by decide +kernel)
      revert hend
      decide +kernel

end Ltfs.Fs

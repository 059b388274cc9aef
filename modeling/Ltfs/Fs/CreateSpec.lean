import Ltfs.Fs.XattrSpec

/-!
# Create

`ltfs_fsops_create` as a sequence of changes: the new dentry is linked into the
directory that was found (`linkNew_spec`, `createIn_spec`), and becomes append-only
where its directory is (`inheritAppendonly_spec`).
-/

namespace Ltfs.Fs

open Function Namespace Lib.Forest

section Create

variable {T : Terms} {fs fs' : State} {o : ℕ → ℕ} {p d : ℕ} {name dir : Path} {uid : ℕ}
  {isdir readonly : Bool}

/-- A dentry as `fs_allocate_dentry` leaves it. -/
def freshDentry (name : Path) (uid : ℕ) (isdir readonly : Bool) : Dentry :=
  { Dentry.zero with
    platformSafeName := name
    isdir
    readonly
    uid
    linkCount := if isdir then 1 else 0 }

/-- The state behind `fs_allocate_dentry`. -/
def allocated (fs : State) (d : ℕ) (b : Dentry) : State :=
  { fs.modify d fun _ => b with numhandles := update fs.numhandles d 1 }

/-- `fs_allocate_dentry` fails and leaves the tree alone, or makes a dentry outside of it. -/
theorem fsAllocateDentry_spec (I : Inv fs o) (name : Path) (isdir readonly : Bool) :
    (∃ fs', fs.fsAllocateDentry name isdir readonly = (none, fs') ∧
      Kept fs.toNamespace fs'.toNamespace ∧ Inv fs' o) ∨
    (∃ fs₁, fs.fsAllocateDentry name isdir readonly =
        (some fs₁.inodeNumber,
          allocated fs₁ fs₁.inodeNumber (freshDentry name fs₁.uidNumber isdir readonly)) ∧
      fs₁.inodeNumber = fs.inodeNumber + 1 ∧
      Kept fs.toNamespace fs₁.toNamespace ∧ Inv fs₁ o) := by
  -- numbers and allocations do not matter to the tree
  have hkept : ∀ inode uid a, fs.inodeNumber ≤ inode →
      Kept fs.toNamespace
        ({ fs with inodeNumber := inode, uidNumber := uid, alloc := a } : State).toNamespace ∧
      Inv { fs with inodeNumber := inode, uidNumber := uid, alloc := a } o := by
    intro inode uid a hle
    have hk : Kept fs.toNamespace
        ({ fs with inodeNumber := inode, uidNumber := uid, alloc := a } : State).toNamespace :=
      ⟨rfl, hle, fun _ _ => rfl, fun _ _ => .inl rfl, rfl, rfl, rfl⟩
    exact ⟨hk, I.sameShape hk.sameShape rfl I.quiet⟩
  unfold State.fsAllocateDentry State.malloc
  rcases h₁ : fs.alloc.next with ⟨_ | _, a⟩
  · exact .inl ⟨_, rfl, hkept _ _ _ (le_refl _)⟩
  · dsimp only
    split
    · exact .inl ⟨_, rfl, hkept _ _ _ (le_refl _)⟩
    · unfold State.fsAllocateUid
      dsimp only
      by_cases hz : fs.uidNumber = 0
      · rw [if_pos hz]
        exact .inl ⟨_, rfl, hkept _ _ _ (Nat.le_succ _)⟩
      · rw [if_neg hz]
        dsimp only
        split
        · exact .inl ⟨_, rfl, hkept _ _ _ (Nat.le_succ _)⟩
        · exact .inr ⟨_, rfl, rfl, hkept _ _ _ (Nat.le_succ _)⟩

/-- Linking a new dentry into a directory. -/
theorem linkNew_spec (name : Path) (isdir readonly : Bool) (I : Inv fs o) (hd : ¬ fs.Attached d) (hle : d ≤ fs.inodeNumber)
    (ho : o d = 0) (hfound : fs.walk fs.root (pathNames dir) = some p) (hp : fs.Attached p)
    (himm : (fs.dentry p).isImmutable = false) (hunused : fs.child p name = none) :
    ∃ fs', (allocated fs d (freshDentry name fs.uidNumber isdir readonly)).linkNew p d dir isdir =
        (0, fs') ∧
      Created fs fs' dir p d name fs.uidNumber isdir readonly ∧ Inv fs' (held o d) := by
  have hne : d ≠ p := fun h => hd (h ▸ hp)
  have hq : HashQuiet fs := I.quiet
  have hdp : fs.parent d = none := by
    by_contra h
    exact hd (.inr h)
  unfold State.linkNew
  dsimp only
  rw [fsAddKey_of_quiet (by split <;> exact hq)]
  dsimp only
  refine ⟨_, rfl, ?_⟩
  have hcreated : ∀ fs' : State,
      fs'.dentry = update (update fs.dentry p (addChild isdir name d (fs.dentry p))) d
        (newDentry p name fs.uidNumber isdir readonly) →
      fs'.root = fs.root → fs'.inodeNumber = fs.inodeNumber → fs'.uidNumber = fs.uidNumber →
      fs'.fileCount = fs.fileCount + (if isdir then 0 else 1) → fs'.validBlocks = fs.validBlocks →
      fs'.numhandles = update fs.numhandles d 2 →
      (∃ a h, (∀ x ∈ h, x = true) ∧
        fs'.journal = (fs.journal.incjCreate a h dir ⟨d, fs.uidNumber, name, isdir⟩).journal) →
      HashQuiet fs' →
      Created fs fs' dir p d name fs.uidNumber isdir readonly ∧ Inv fs' (held o d) := by
    intro fs' hdentry hroot hinode huid hfile hvalid hnum hj hq'
    have hlink : Link fs.toNamespace fs'.toNamespace p d
        (newDentry p name fs.uidNumber isdir readonly) := by
      refine ⟨hroot, hinode, hne, ?_, ?_, ?_, rfl, fun h => ?_, rfl⟩
      · rw [hdentry, update_of_ne hne.symm, update_self]
        rfl
      · rw [hdentry, update_self]
      · intro x hxp hxd
        rw [hdentry, update_of_ne hxd, update_of_ne hxp]
      · have h : isdir = true := h
        subst h
        rfl
    have hc : Created fs fs' dir p d name fs.uidNumber isdir readonly :=
      ⟨hlink, hfound, hp, hd, hle, himm, hunused, rfl, huid, hfile, hvalid, hj⟩
    refine ⟨hc, hc.treeInv I.tree, ⟨fun x => ?_, fun x hx => ?_⟩, hq'⟩
    · have := I.handles.le x
      unfold Namespace.treeRef at this ⊢
      rw [hnum, held_apply, update_apply]
      by_cases hx : x = d
      · subst hx
        rw [if_pos rfl, if_pos rfl, ho]
        split <;> omega
      · rw [if_congr ((hc.relink I.tree).attached_iff hx) rfl rfl, if_neg hx, if_neg hx]
        omega
    · have hx' : fs.inodeNumber < x := hinode ▸ hx
      rw [held_apply, I.handles.fresh x hx', if_neg (by omega)]
  have hj : ∀ a h b, (∀ x ∈ h, x = true) → b = JournalTarget.mk d fs.uidNumber name isdir →
      ∃ a' h', (∀ x ∈ h', x = true) ∧ (fs.journal.incjCreate a h dir b).journal =
        (fs.journal.incjCreate a' h' dir ⟨d, fs.uidNumber, name, isdir⟩).journal := by
    rintro a h b hh rfl
    exact ⟨a, h, hh, rfl⟩
  have htail : ∀ x ∈ fs.hashAlloc.tail.tail.tail, x = true :=
    tail_quiet (tail_quiet (tail_quiet hq))
  apply hcreated
  · funext x
    by_cases hxd : x = d
    · subst hxd
      cases isdir <;>
        simp [State.modify, State.hold, State.journalize, allocated, freshDentry, newDentry, hne]
    · by_cases hxp : x = p
      · subst hxp
        cases isdir <;>
          simp [State.modify, State.hold, State.journalize, allocated, hxd, hne, addChild,
            freshDentry]
      · cases isdir <;> simp [State.modify, State.hold, State.journalize, allocated, hxd, hxp]
  · cases isdir <;> rfl
  · cases isdir <;> rfl
  · cases isdir <;> rfl
  · cases isdir
    · rfl
    · show fs.fileCount = fs.fileCount + 0
      exact (add_zero fs.fileCount).symm
  · cases isdir <;> rfl
  · funext x
    by_cases hxd : x = d
    · subst hxd
      cases isdir <;> simp [State.modify, State.hold, State.journalize, allocated]
    · cases isdir <;> simp [State.modify, State.hold, State.journalize, allocated, hxd]
  · cases isdir
    · apply hj _ _ _ htail
      simp [State.journalTarget, State.modify, State.hold, allocated, freshDentry, hne]
    · apply hj _ _ _ htail
      simp [State.journalTarget, State.modify, State.hold, allocated, freshDentry, hne]
  · cases isdir
    · exact incjCreate_quiet _ _ _ _ _ htail
    · exact incjCreate_quiet _ _ _ _ _ htail

/-- `ltfs_fsops_create` below a parent that was found: nothing happens, or a dentry is
linked that nobody protects. -/
theorem createIn_spec (name : Path) (isdir readonly : Bool) (I : Inv fs (held o p)) (hp : fs.Attached p)
    (hfound : fs.walk fs.root (pathNames dir) = some p) (hfile : T.journal → isdir = false)
    (overwrite : Bool) :
    (∃ e fs', fs.createIn p dir name isdir readonly overwrite = (.error e, fs') ∧
      Kept fs.toNamespace fs'.toNamespace ∧ Inv fs' (held o p)) ∨
    (∃ d fs', fs.createIn p dir name isdir readonly overwrite = (.ok d, fs') ∧
      Changes T fs fs' ∧ fs'.Attached d ∧ (fs'.dentry d).isImmutable = false ∧
      Inv fs' (held (held o p) d)) := by
  unfold State.createIn
  split
  · exact .inl ⟨_, _, rfl, Kept.refl _, I⟩
  · rename_i himm
    split
    · exact .inl ⟨_, _, rfl, Kept.refl _, I⟩
    · rcases fsDirectoryLookup_spec I p name with h | ⟨fs₁, h, hnone, heq, I₁⟩ |
        ⟨d, fs₁, h, hsome, heq, I₁⟩
      · rw [h]
        exact .inl ⟨_, _, rfl, Kept.refl _, I⟩
      · rw [h]
        dsimp only
        rcases fsAllocateDentry_spec I₁ name isdir readonly with ⟨fs₂, h₂, hk, I₂⟩ |
          ⟨fs₂, h₂, hinode, hk, I₂⟩
        · rw [h₂]
          exact .inl ⟨_, _, rfl, heq ▸ hk, I₂⟩
        · rw [h₂]
          rw [heq] at hk
          have hs := hk.sameShape
          have hinode : fs₂.inodeNumber = fs.inodeNumber + 1 := by rw [hinode, heq]
          have hnew : ¬ fs₂.Attached fs₂.inodeNumber := by
            intro ha
            have := I.tree.le_of_attached (hs.attached_iff.mp ha)
            omega
          have ho : held o p fs₂.inodeNumber = 0 := I.handles.fresh _ (by omega)
          obtain ⟨fs₃, h₃, hc, I₃⟩ := linkNew_spec name isdir readonly I₂ hnew (le_refl _) ho
            (by rw [hs.root, hs.walk I.tree]; exact hfound) (hs.attached_iff.mpr hp)
            (by rw [hk.attached p hp]; simpa using himm) (by rw [hs.child I.tree]; exact hnone)
          dsimp only
          rw [h₃]
          refine .inr ⟨_, fs₃, rfl, ?_, ?_, ?_, I₃⟩
          · exact (Changes.of_kept hk).tail (.create dir p _ name _ isdir readonly hc hfile)
          · right
            unfold Namespace.parent
            rw [hc.link.new]
            exact Option.some_ne_none p
          · rw [hc.link.new]
            rfl
      · rw [h]
        obtain ⟨hk, I₂⟩ := fsReleaseDentry_spec I₁
        exact .inl ⟨_, _, rfl, heq ▸ hk, I₂⟩

end Create

/-! ## A new dentry in an append-only directory -/

/-- `pathname_normalize` leaves ASCII text alone. -/
def PlainText (normalize : List UInt8 → Except ℤ (List UInt8)) : Prop :=
  ∀ s, (∀ c ∈ s, c < 0x80) → normalize s = .ok s

section Inherit

variable {T : Terms} {fs fs' : State} {o : ℕ → ℕ} {p d : ℕ} {name : Path}

theorem Touch.isImmutable {b : Dentry} (h : Touch fs fs' d b)
    (hb : b.isImmutable = (fs.dentry d).isImmutable) (y : ℕ) :
    (fs'.dentry y).isImmutable = (fs.dentry y).isImmutable := by
  rw [h.dentry]
  by_cases hy : y = d
  · rw [hy, update_self, hb]
  · rw [update_of_ne hy]

theorem Dirtied.isImmutable (h : Dirtied fs fs' d) (y : ℕ) :
    (fs'.dentry y).isImmutable = (fs.dentry y).isImmutable := by
  rw [h.dentry]
  by_cases hy : y = d
  · rw [hy, update_self]
  · rw [update_of_ne hy]

/-- Only setting the attribute `immutable` makes a dentry immutable. -/
theorem xattrSet_isImmutable (env : Env) (hname : name ≠ immutableEa) (value : List UInt8)
    (create replace : Bool) (y : ℕ) :
    ((fs.xattrSet env d name value create replace).2.dentry y).isImmutable =
      (fs.dentry y).isImmutable := by
  unfold State.xattrSet
  dsimp only
  repeat' first
    | rfl
    | split
  all_goals
    rename_i hdo
    obtain ⟨l, h, -⟩ := xattrDoSet_spec fs d name
      (if (xattrIsWormEa name && !(xattrIsWormEa name && State.disablesWormEa value)) = true then
        ascii "1" else value)
    rw [hdo] at h
  · rw [(setDentryDirty_spec _ d).isImmutable]
    refine (Touch.modify _ d _).isImmutable ?_ y |>.trans (h.isImmutable rfl y)
    unfold State.setWormFlag
    rw [if_neg hname]
    split <;> rfl
  · exact h.isImmutable rfl y

/-- A lookup and a release leave the dentries of the tree alone. -/
theorem withDentry_isImmutable (I : Inv fs o) (path : Path) {work : State → ℕ → ℤ × State}
    (hwork : ∀ fs d, Worked T fs (work fs d).2 d)
    (himm : ∀ fs d y, ((work fs d).2.dentry y).isImmutable = (fs.dentry y).isImmutable)
    {y : ℕ} (hy : fs.Attached y) :
    ((fs.withDentry path work).2.dentry y).isImmutable = (fs.dentry y).isImmutable := by
  unfold State.withDentry
  rcases fsPathLookup_spec false path I with ⟨e, fs₁, h, hk, I₁⟩ | ⟨d, fs₁, h, -, ha, heq, I₁⟩
  · rw [h]
    exact congrArg Dentry.isImmutable (hk.attached y hy)
  · rw [h]
    rw [if_neg (by simp)] at I₁
    have W := hwork fs₁ d
    obtain ⟨hk, -⟩ := fsReleaseDentry_spec (W.inv I₁)
    have hy₁ : (work fs₁ d).2.Attached y := W.sameShape.attached_iff.mpr (heq ▸ hy)
    refine (congrArg Dentry.isImmutable (hk.attached y hy₁)).trans ((himm fs₁ d y).trans ?_)
    rw [heq]

theorem xattrKey_appendonly {normalize : List UInt8 → Except ℤ (List UInt8)}
    (hplain : PlainText normalize) :
    NameCodec.xattrKey normalize (NameCodec.userPrefix ++ appendonlyEa) = .ok appendonlyEa := by
  have hn := hplain (NameCodec.userPrefix ++ appendonlyEa) (by decide +kernel)
  unfold NameCodec.xattrKey NameCodec.pathnameFormat
  rw [hn]
  decide +kernel

variable (normalize : List UInt8 → Except ℤ (List UInt8)) (xenv : Env)

/-- The inner `ltfs_fsops_setxattr` makes nothing immutable. -/
theorem setxattr_appendonly_isImmutable (hplain : PlainText normalize) (I : Inv fs o)
    (path value : Path) {y : ℕ} (hy : fs.Attached y) :
    ((fs.ltfsFsopsSetxattr normalize xenv path (NameCodec.userPrefix ++ appendonlyEa) value
      false false).2.dentry y).isImmutable = (fs.dentry y).isImmutable := by
  unfold State.ltfsFsopsSetxattr
  rw [xattrKey_appendonly hplain]
  repeat' first
    | rfl
    | split
  all_goals
    rename_i hkey _ _
    cases hkey
    refine withDentry_isImmutable (T := ⟨[xenv.wormStatus.2], True, True, True⟩) I _
      (fun fs d => xattrSet_spec fs xenv d _ value (by simp) false false) ?_ hy
    exact fun fs d y => xattrSet_isImmutable xenv (by decide) value false false y

/-- A new dentry stays as it is, or becomes append-only; without memory it is let go. -/
theorem inheritAppendonly_spec (hw : xenv.wormStatus.2 ∈ T.carts)
    (hplain : T.plain → PlainText normalize) (I : Inv fs (held o d)) (hd : fs.Attached d)
    (himm : (fs.dentry d).isImmutable = false) (path : Path) :
    (∃ e fs', fs.inheritAppendonly normalize xenv p d path = (.error e, fs') ∧
      Changes T fs fs' ∧ Inv fs' o) ∨
    (∃ fs', fs.inheritAppendonly normalize xenv p d path = (.ok d, fs') ∧
      Changes T fs fs' ∧ fs'.Attached d ∧ (T.plain → (fs'.dentry d).isImmutable = false) ∧
      Inv fs' (held o d)) := by
  unfold State.inheritAppendonly
  split
  · obtain ⟨hc, hs, I'⟩ := ltfsFsopsSetxattr_spec normalize xenv path
      (NameCodec.userPrefix ++ appendonlyEa) hw I (ascii "1") false false
    have himm' := fun hp => setxattr_appendonly_isImmutable normalize xenv (hplain hp) I path
      (ascii "1") hd
    generalize hr : fs.ltfsFsopsSetxattr normalize xenv path
      (NameCodec.userPrefix ++ appendonlyEa) (ascii "1") false false = r at hc hs I' himm'
    obtain ⟨ret, fs₁⟩ := r
    split
    · rename_i hr'
      cases hr'
      exact .inr ⟨_, rfl, hc, hs.attached_iff.mpr hd, fun hp => (himm' hp).trans himm, I'⟩
    · rename_i hr'
      cases hr'
      obtain ⟨hk, I₂⟩ := fsReleaseDentry_spec I'
      exact .inl ⟨_, _, rfl, hc.trans (Changes.of_kept hk), I₂⟩
  · exact .inr ⟨fs, rfl, .refl, hd, fun _ => himm, I⟩

/-- `ltfs_fsops_create`: the tree changes in no way it must not, and the dentry that is
returned is held for the caller. -/
theorem ltfsFsopsCreate_spec (env : Env) (hw : xenv.wormStatus.2 ∈ T.carts)
    (hplain : T.plain → PlainText normalize) (I : Inv fs o) (path : Path)
    (isdir readonly overwrite : Bool) (hfile : T.journal → isdir = false) :
    (∃ e fs', fs.ltfsFsopsCreate normalize env xenv path isdir readonly overwrite =
        (.error e, fs') ∧ Changes T fs fs' ∧ Inv fs' o) ∨
    (∃ d fs', fs.ltfsFsopsCreate normalize env xenv path isdir readonly overwrite =
        (.ok d, fs') ∧ Changes T fs fs' ∧ fs'.Attached d ∧
      (T.plain → (fs'.dentry d).isImmutable = false) ∧ Inv fs' (held o d)) := by
  unfold State.ltfsFsopsCreate
  split
  · exact .inl ⟨_, _, rfl, .refl, I⟩
  · split
    · exact .inl ⟨_, _, rfl, .refl, I⟩
    · split
      · exact .inl ⟨_, _, rfl, .refl, I⟩
      · rename_i pathNorm _
        split
        · exact .inl ⟨_, _, rfl, .refl, I⟩
        · dsimp only
          rcases fsPathLookup_spec false (State.fsSplitPath pathNorm).1 I with
            ⟨e, fs₁, h, hk, I₁⟩ | ⟨p, fs₁, h, hfound, hp, heq, I₁⟩
          · rw [h]
            exact .inl ⟨_, _, rfl, Changes.of_kept hk, I₁⟩
          · rw [h]
            rw [if_neg (by simp)] at I₁
            rw [← heq] at hfound hp
            dsimp only
            rcases createIn_spec (T := T) (State.fsSplitPath pathNorm).2 isdir readonly I₁ hp hfound
              hfile overwrite with
              ⟨e, fs₂, h₂, hk, I₂⟩ | ⟨d, fs₂, h₂, hc, ha, himm, I₂⟩
            · rw [h₂]
              obtain ⟨hk', I₃⟩ := fsReleaseDentry_spec I₂
              refine .inl ⟨_, _, rfl, ?_, I₃⟩
              exact Changes.of_kept (heq ▸ hk.trans hk')
            · rw [h₂]
              dsimp only
              rcases inheritAppendonly_spec (p := p) normalize xenv hw hplain I₂ ha himm path with
                ⟨e, fs₃, h₃, hc₃, I₃⟩ | ⟨fs₃, h₃, hc₃, ha₃, himm₃, I₃⟩
              · rw [h₃]
                obtain ⟨hk', I₄⟩ := fsReleaseDentry_spec I₃
                refine .inl ⟨_, _, rfl, ?_, I₄⟩
                exact (((Changes.of_eq heq).trans hc).trans hc₃).trans (Changes.of_kept hk')
              · rw [h₃]
                rw [held_comm] at I₃
                obtain ⟨hk', I₄⟩ := fsReleaseDentry_spec I₃
                refine .inr ⟨_, _, rfl, ?_, hk'.sameShape.attached_iff.mpr ha₃, ?_, I₄⟩
                · exact (((Changes.of_eq heq).trans hc).trans hc₃).trans (Changes.of_kept hk')
                · rw [hk'.attached d ha₃]
                  exact himm₃

end Inherit
end Ltfs.Fs

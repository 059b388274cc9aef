import Ltfs.Fs.Lookup

/-!
# Changes

What a call may do to the tree, one piece at a time. `Change T fs fs'` says
everything an invariant can ask about a piece: which dentries change and how, what
the code checked before, what happens to the counters and to the journal. `Changes`
is a sequence of them, and every call is one.

`Terms` is what a property may rely on in the calls of a run; a piece that breaks a
counter needs that the terms do not ask for it.

* `Touch`, `XattrChange`, `Retouch` — one dentry changes without moving.
* `Created`, `Detached`, `Moved` — the three changes of the tree.
* `Change.treeInv`, `Change.namesUnique` — all of them keep the tree.
-/

namespace Ltfs.Fs

open Function Namespace Lib.Forest

/-! ## One dentry changes -/

/-- The dentry `d` is `b` now; nothing else of the tree changed. -/
structure Touch (fs fs' : State) (d : ℕ) (b : Dentry) : Prop where
  dentry : fs'.dentry = update fs.dentry d b
  root : fs'.root = fs.root
  inode : fs'.inodeNumber = fs.inodeNumber
  uid : fs'.uidNumber = fs.uidNumber
  fileCount : fs'.fileCount = fs.fileCount
  validBlocks : fs'.validBlocks = fs.validBlocks
  journal : fs'.journal = fs.journal
  numhandles : fs'.numhandles = fs.numhandles
  quiet : HashQuiet fs → HashQuiet fs'

/-- An allocation changes what is still to come, and nothing else. -/
theorem malloc_spec {fs fs' : State} {ok : Bool} (h : fs.malloc = (ok, fs')) :
    ∃ a, fs' = { fs with alloc := a } :=
  ⟨_, (congrArg Prod.snd h).symm⟩

namespace Touch

variable {fs fs₁ fs' : State} {o : ℕ → ℕ} {d : ℕ} {b c : Dentry}

theorem refl (fs : State) (d : ℕ) : Touch fs fs d (fs.dentry d) :=
  ⟨(update_eq_self d fs.dentry).symm, rfl, rfl, rfl, rfl, rfl, rfl, rfl, id⟩

theorem modify (fs : State) (d : ℕ) (f : Dentry → Dentry) :
    Touch fs (fs.modify d f) d (f (fs.dentry d)) := ⟨rfl, rfl, rfl, rfl, rfl, rfl, rfl, rfl, id⟩

theorem get (T : Touch fs fs' d b) : fs'.dentry d = b := by rw [T.dentry, update_self]

theorem trans (T : Touch fs fs₁ d b) (T' : Touch fs₁ fs' d c) : Touch fs fs' d c where
  dentry := by rw [T'.dentry, T.dentry, update_idem]
  root := T'.root.trans T.root
  inode := T'.inode.trans T.inode
  uid := T'.uid.trans T.uid
  fileCount := T'.fileCount.trans T.fileCount
  validBlocks := T'.validBlocks.trans T.validBlocks
  journal := T'.journal.trans T.journal
  numhandles := T'.numhandles.trans T.numhandles
  quiet := fun h => T'.quiet (T.quiet h)

theorem sameShape (T : Touch fs fs' d b) (hb : b.shape = (fs.dentry d).shape) :
    SameShape fs.toNamespace fs'.toNamespace := by
  have h : ∀ x, (fs'.dentry x).shape = (fs.dentry x).shape := by
    intro x
    rw [T.dentry]
    by_cases hx : x = d
    · rw [hx, update_self, hb]
    · rw [update_of_ne hx]
  exact ⟨T.root, T.inode.ge, fun x _ => h x, fun x _ => .inl (h x)⟩

theorem inv (T : Touch fs fs' d b) (hb : b.shape = (fs.dentry d).shape) (I : Inv fs o) :
    Inv fs' o :=
  I.sameShape (T.sameShape hb) T.numhandles (T.quiet I.quiet)

end Touch

/-! ## The dirty flag -/

/-- A journal function that leaves no failed allocation to others. -/
def KeepsQuiet (f : Journal → Alloc → Alloc → Journal.Result) : Prop :=
  ∀ j a h, (∀ b ∈ h, b = true) → ∀ b ∈ (f j a h).hashAlloc, b = true

section Journal

open Journal

theorem hashAdd_quiet {j : Journal} {h : Alloc} {ent : Jentry} (hq : ∀ b ∈ h, b = true) :
    hashAdd j h ent = ({ j with journal := j.journal ++ [ent] }, h.tail) := by
  unfold hashAdd
  rw [Alloc.next_of_quiet hq]

theorem tail_quiet {h : Alloc} (hq : ∀ b ∈ h, b = true) : ∀ b ∈ h.tail, b = true :=
  fun b hb => hq b (List.mem_of_mem_tail hb)

variable (path : Path) (d : JournalTarget)

theorem incjCreate_quiet : KeepsQuiet fun j a h => j.incjCreate a h path d := by
  intro j a h hq
  show ∀ b ∈ (j.incjCreate a h path d).hashAlloc, b = true
  unfold incjCreate
  split
  · exact hq
  · split
    · exact hq
    · split
      · exact hq
      · split
        · exact hq
        · simp only [hashAdd_quiet hq]
          split
          · split <;> exact tail_quiet hq
          · exact tail_quiet hq

theorem incjModify_quiet : KeepsQuiet fun j a h => j.incjModify a h path d := by
  intro j a h hq
  show ∀ b ∈ (j.incjModify a h path d).hashAlloc, b = true
  unfold incjModify
  split
  · exact hq
  · split
    · exact hq
    · split
      · exact hq
      · split
        · exact hq
        · simp only [hashAdd_quiet hq]
          exact tail_quiet hq

theorem addDeletion_quiet (reason : JournalReason) :
    KeepsQuiet fun j a h => j.addDeletion a h path d reason := by
  intro j a h hq
  show ∀ b ∈ (j.addDeletion a h path d reason).hashAlloc, b = true
  unfold addDeletion
  split
  · exact hq
  · split
    · exact hq
    · split
      · exact hq
      · simp only [hashAdd_quiet hq]
        exact tail_quiet hq

theorem incjRmfile_quiet : KeepsQuiet fun j a h => j.incjRmfile a h path d := by
  intro j a h hq
  show ∀ b ∈ (j.incjRmfile a h path d).hashAlloc, b = true
  unfold incjRmfile
  split
  · exact hq
  · simp only
    split
    · exact hq
    · exact hq
    · split
      · exact hq
      · exact addDeletion_quiet path d _ _ a h hq

theorem incjRmdir_quiet : KeepsQuiet fun j a h => j.incjRmdir a h path d := by
  intro j a h hq
  show ∀ b ∈ (j.incjRmdir a h path d).hashAlloc, b = true
  unfold incjRmdir
  split
  · exact hq
  · simp only
    split
    · exact hq
    · exact addDeletion_quiet path d _ _ a h hq

end Journal

/-- `ltfs_set_dentry_dirty` sets the flag and may write to the journal. -/
structure Dirtied (fs fs' : State) (d : ℕ) : Prop where
  dentry : fs'.dentry = update fs.dentry d { fs.dentry d with dirty := true }
  root : fs'.root = fs.root
  inode : fs'.inodeNumber = fs.inodeNumber
  uid : fs'.uidNumber = fs.uidNumber
  fileCount : fs'.fileCount = fs.fileCount
  validBlocks : fs'.validBlocks = fs.validBlocks
  numhandles : fs'.numhandles = fs.numhandles
  quiet : HashQuiet fs → HashQuiet fs'
  silent : (fs.dentry d).dirty = true → fs'.journal = fs.journal
  noted : (fs.dentry d).dirty = false → fs'.journal.journalErr = true ∨
    ∃ a, fs'.journal = (fs.journal.incjModify a fs.hashAlloc
      (fs.layDirs (fs.inodeNumber + 1) none d) (fs.journalTarget d)).journal

/-- A path depends on the dentries only. -/
theorem layDirs_congr {fs fs' : State} (h : fs'.dentry = fs.dentry) (n : ℕ) (p : Option Path)
    (d : ℕ) : fs'.layDirs n p d = fs.layDirs n p d := by
  induction n generalizing p d with
  | zero => rfl
  | succ n ih =>
    unfold State.layDirs
    rw [h]
    dsimp only
    cases (fs.dentry d).parent with
    | none => rfl
    | some parent =>
      cases p with
      | none => exact ih _ _
      | some p => exact ih _ _

theorem setDentryDirty_spec (fs : State) (d : ℕ) : Dirtied fs (fs.ltfsSetDentryDirty d) d := by
  unfold State.ltfsSetDentryDirty
  by_cases hd : (fs.dentry d).dirty = true
  · dsimp only
    rw [if_pos hd]
    exact ⟨rfl, rfl, rfl, rfl, rfl, rfl, rfl, id, fun _ => rfl, fun h => by rw [hd] at h; cases h⟩
  · dsimp only
    rw [if_neg hd]
    rcases hm : fs.malloc with ⟨_ | _, fs₁⟩
    · obtain ⟨a, rfl⟩ := malloc_spec hm
      exact ⟨rfl, rfl, rfl, rfl, rfl, rfl, rfl, id, fun h => absurd h hd, fun _ => .inl rfl⟩
    · obtain ⟨a, rfl⟩ := malloc_spec hm
      have hpath := layDirs_congr (show ({ fs with alloc := a } : State).dentry = fs.dentry from rfl)
        (fs.inodeNumber + 1) none d
      refine ⟨rfl, rfl, rfl, rfl, rfl, rfl, rfl, fun h => ?_, fun h => absurd h hd,
        fun _ => .inr ⟨a, ?_⟩⟩
      · exact incjModify_quiet _ _ fs.journal a fs.hashAlloc h
      · rw [← hpath]
        rfl

namespace Dirtied

variable {fs fs' : State} {o : ℕ → ℕ} {d : ℕ}

theorem sameShape (D : Dirtied fs fs' d) : SameShape fs.toNamespace fs'.toNamespace := by
  have h : ∀ x, (fs'.dentry x).shape = (fs.dentry x).shape := by
    intro x
    rw [D.dentry]
    by_cases hx : x = d
    · rw [hx, update_self]
      rfl
    · rw [update_of_ne hx]
  exact ⟨D.root, D.inode.ge, fun x _ => h x, fun x _ => .inl (h x)⟩

theorem inv (D : Dirtied fs fs' d) (I : Inv fs o) : Inv fs' o :=
  I.sameShape D.sameShape D.numhandles (D.quiet I.quiet)

end Dirtied

/-! ## What may become of a dentry -/

/-- The attributes other than the two flags of the WORM kind. -/
def Dentry.otherXattrs (b : Dentry) : List XattrInfo :=
  b.xattrlist.filter fun x => !xattrIsWormEa x.key

/-- What setting or removing an attribute may make of a dentry. -/
structure XattrChange (wormCart : Bool) (b c : Dentry) : Prop where
  same : c = { b with
    xattrlist := c.xattrlist, isImmutable := c.isImmutable, isAppendonly := c.isAppendonly }
  others : b.isImmutable = true → c.otherXattrs = b.otherXattrs
  immutable : wormCart = true → b.isImmutable = true → c.isImmutable = true
  appendonly : wormCart = true → b.isAppendonly = true → c.isAppendonly = true

/-- What a property may rely on in a call: the WORM states the drive reports, that
an ASCII text is normalised already, that the counters and the journal are kept up. -/
structure Terms where
  carts : List Bool
  plain : Prop
  exact : Prop
  journal : Prop

/-- What a call may make of a dentry without moving it. -/
inductive Retouch (T : Terms) (b : Dentry) : Dentry → Prop
  | xattr {c : Dentry} (wormCart : Bool) (hw : wormCart ∈ T.carts) (h : XattrChange wormCart b c) :
      Retouch T b c
  | data (extentlist : List ExtentInfo) (size : ℕ) : Retouch T b { b with extentlist, size }
  | symlink (target : Path) : Retouch T b { b with target, isslink := true }
  | length (xattrlist : List XattrInfo) (h : T.plain → b.isImmutable = false) :
      Retouch T b { b with xattrlist }

theorem Retouch.shape {T : Terms} {b c : Dentry} (h : Retouch T b c) : c.shape = b.shape := by
  cases h with
  | xattr _ _ h =>
    rw [h.same]
    rfl
  | data => rfl
  | symlink => rfl
  | length => rfl

/-! ## What may become of the tree -/

/-- A dentry `ltfs_fsops_create` makes. -/
def newDentry (p : ℕ) (name : Path) (uid : ℕ) (isdir readonly : Bool) : Dentry :=
  { Dentry.zero with
    parent := some p
    platformSafeName := name
    uid
    isdir
    readonly
    linkCount := (if isdir then 1 else 0) + 1
    dirty := true }

/-- The new dentry `d` is linked into `p`, which was found at `dir`. -/
structure Created (fs fs' : State) (dir : Path) (p d : ℕ) (name : Path) (uid : ℕ)
    (isdir readonly : Bool) : Prop where
  link : Link fs.toNamespace fs'.toNamespace p d (newDentry p name uid isdir readonly)
  dirFound : fs.walk fs.root (pathNames dir) = some p
  attached : fs.Attached p
  detached : ¬ fs.Attached d
  le : d ≤ fs.inodeNumber
  isImmutable : (fs.dentry p).isImmutable = false
  unused : fs.child p name = none
  uid_eq : uid = fs.uidNumber
  uidNumber : fs'.uidNumber = fs.uidNumber
  fileCount : fs'.fileCount = fs.fileCount + if isdir then 0 else 1
  validBlocks : fs'.validBlocks = fs.validBlocks
  journal : ∃ a h, (∀ x ∈ h, x = true) ∧
    fs'.journal = (fs.journal.incjCreate a h dir ⟨d, uid, name, isdir⟩).journal

/-- The dentry `d`, which nothing protects and nothing depends on, is taken out of
`p`. -/
structure Detached (fs fs' : State) (p d : ℕ) : Prop where
  unlink : Unlink fs.toNamespace fs'.toNamespace p d
  parent : fs.parent d = some p
  found : FoundIn fs.toNamespace p d
  childless : (fs.dentry d).childList = []
  dirFree : fs.isWorm p = false
  free : fs.isWorm d = false
  uidNumber : fs'.uidNumber = fs.uidNumber

/-- The place `name` in `q` is made free for `d`. -/
inductive Cleared (T : Terms) (fs fs' : State) (q d : ℕ) (name : Path) : Prop
  | unused (heq : fs'.toNamespace = fs.toNamespace) (h : fs.child q name = none)
  | self (heq : fs'.toNamespace = fs.toNamespace) (h : fs.child q name = some d)
  | replaced (t : ℕ) (fs₁ : State) (hne : t ≠ d) (h : fs.child q name = some t)
      (hd : Detached fs fs₁ q t) (hk : Kept fs₁.toNamespace fs'.toNamespace)
      (hfile : fs₁.fileCount = fs.fileCount - if (fs.dentry q).isdir then 0 else 1)
      (hvalid : fs₁.validBlocks = fs.validBlocks) (hjournal : fs₁.journal = fs.journal)
      (hexact : T.exact →
        (fs.dentry t).isdir = (fs.dentry q).isdir ∧ (fs.dentry t).usedBlocks = 0)

/-- The dentry `d`, which nothing protects, may move from `p` to `q`, which does not lie
below it. -/
structure Ready (fs : State) (p q d : ℕ) : Prop where
  parent : fs.parent d = some p
  found : FoundIn fs.toNamespace p d
  attached : fs.Attached q
  notBelow : ¬ Climbs fs.parent q d
  dirsFree : fs.isWorm p = false ∧ fs.isWorm q = false
  free : fs.isWorm d = false

/-- The dentry `d` moves from `p`, found at the directory of `fromPath`, to `q`, found
at `toDir`. -/
structure Moved (fs fs' : State) (fromPath toDir : Path) (p q d : ℕ) (name : Path) : Prop where
  ready : Ready fs p q d
  move : Move fs.toNamespace fs'.toNamespace p q d name
  uidNumber : fs'.uidNumber = fs.uidNumber
  fileCount : fs'.fileCount = fs.fileCount
  validBlocks : fs'.validBlocks = fs.validBlocks
  journal : ∃ a a' h h', (∀ x ∈ h, x = true) ∧ (∀ x ∈ h', x = true) ∧
    fs'.journal = ((if (fs.dentry d).isdir then
        fs.journal.incjRmdir a h fromPath ⟨d, (fs.dentry d).uid, name, (fs.dentry d).isdir⟩
      else
        fs.journal.incjRmfile a h fromPath
          ⟨d, (fs.dentry d).uid, name, (fs.dentry d).isdir⟩).journal.incjCreate a' h' toDir
        ⟨d, (fs.dentry d).uid, name, (fs.dentry d).isdir⟩).journal

/-- Of the dentries in the tree, the removal of the directory `d` takes journal entries from
`d` only. -/
def DropsOwn (ns : Namespace) (path : Path) (d : ℕ) : Prop :=
  ∀ ent ∈ ns.journal.journal, Journal.startsWith ent.fullPath path = true →
    ∀ x, ent.dentry = some x → ns.Attached x → x = d

/-- What a call does to the tree, one piece at a time. -/
inductive Change (T : Terms) (fs fs' : State) : Prop
  | kept (h : Kept fs.toNamespace fs'.toNamespace)
  | touch (d : ℕ) (b : Dentry) (h : Touch fs fs' d b) (hb : Retouch T (fs.dentry d) b)
  | mark (d : ℕ) (b : Dentry) (fs₁ : State) (h : Touch fs fs₁ d b)
      (hb : Retouch T (fs.dentry d) b) (hd : Dirtied fs₁ fs' d) (hquiet : HashQuiet fs)
  | count (d : ℕ) (u : BitVec 64) (fs₁ : State)
      (h : Touch fs fs₁ d { fs.dentry d with usedBlocks := u })
      (hcount : fs'.toNamespace = { fs₁.toNamespace with
        validBlocks := fs.validBlocks + (u - (fs.dentry d).usedBlocks) } ∨
        fs'.toNamespace = fs₁.toNamespace ∧ (T.exact → u = (fs.dentry d).usedBlocks))
      (hexact : T.exact → fs.Attached d ∨ u = (fs.dentry d).usedBlocks)
  | create (dir : Path) (p d : ℕ) (name : Path) (uid : ℕ) (isdir readonly : Bool)
      (h : Created fs fs' dir p d name uid isdir readonly) (hfile : T.journal → isdir = false)
  | unlink (path : Path) (p d : ℕ) (h : Detached fs fs' p d)
      (hpath : fs.walk fs.root (pathNames path) = some d)
      (hfile : fs'.fileCount = fs.fileCount - if (fs.dentry d).isdir then 0 else 1)
      (hvalid : fs'.validBlocks = fs.validBlocks - (fs.dentry d).usedBlocks)
      (hjournal : ∃ a h, (∀ x ∈ h, x = true) ∧ fs'.journal =
        (if (fs.dentry d).isdir then
          fs.journal.incjRmdir a h path (fs.journalTarget d)
        else fs.journal.incjRmfile a h path (fs.journalTarget d)).journal)
      (hkeeps : T.journal → (fs.dentry d).isdir = true → DropsOwn fs.toNamespace path d)
  | rename (fromPath toDir : Path) (p q d : ℕ) (name : Path) (fs₁ : State)
      (hfrom : (fs.walk fs.root (pathNames (State.fsSplitPath fromPath).1)) = some p)
      (hname : fs.child p (State.fsSplitPath fromPath).2 = some d)
      (hto : fs.walk fs.root (pathNames toDir) = some q)
      (hc : Cleared T fs fs₁ q d name) (h : Moved fs₁ fs' fromPath toDir p q d name)
      (hfile : T.journal → (fs.dentry d).isdir = false)

/-- A sequence of changes. -/
def Changes (T : Terms) : State → State → Prop := Relation.ReflTransGen (Change T)

namespace Changes

variable {T : Terms} {fs fs₁ fs' : State}

theorem refl : Changes T fs fs := Relation.ReflTransGen.refl

theorem single (h : Change T fs fs') : Changes T fs fs' := Relation.ReflTransGen.single h

theorem tail (h : Changes T fs fs₁) (h' : Change T fs₁ fs') : Changes T fs fs' :=
  Relation.ReflTransGen.tail h h'

theorem trans (h : Changes T fs fs₁) (h' : Changes T fs₁ fs') : Changes T fs fs' :=
  Relation.ReflTransGen.trans h h'

theorem of_kept (h : Kept fs.toNamespace fs'.toNamespace) : Changes T fs fs' :=
  single (.kept h)

/-- What is equal up to reference counts and allocations. -/
theorem of_eq (h : fs'.toNamespace = fs.toNamespace) : Changes T fs fs' :=
  of_kept (Kept.of_eq h)

end Changes

/-! ## The tree is kept -/

section Tree

variable {T : Terms} {fs fs' : State} {p q d : ℕ} {name : Path}

theorem Namespace.TreeInv.parent_ne_self {ns : Namespace} (I : ns.TreeInv) (d : ℕ) :
    ns.parent d ≠ some d := by
  intro h
  -- a dentry that is its own parent never gets to the root
  have hloop : ∀ y, Climbs ns.parent d y → y = d := by
    intro y hy
    induction hy with
    | refl => rfl
    | tail _ hyz ih =>
      rw [ih, h] at hyz
      exact (Option.some.inj hyz).symm
  have hroot := hloop _ (I.climbs d (by simp [h]))
  have hnone := I.rootParent
  rw [hroot, h] at hnone
  cases hnone

theorem Created.relink {dir : Path} {uid : ℕ} {isdir readonly : Bool} (I : fs.TreeInv)
    (h : Created fs fs' dir p d name uid isdir readonly) :
    Relink fs.toNamespace fs'.toNamespace d (some p) := by
  have hp : fs.parent d = none := by
    by_contra hp
    exact h.detached (.inr hp)
  exact h.link.relink I hp h.le (I.childList_of_detached h.detached)

theorem Created.treeInv {dir : Path} {uid : ℕ} {isdir readonly : Bool} (I : fs.TreeInv)
    (h : Created fs fs' dir p d name uid isdir readonly) : fs'.TreeInv := by
  apply I.relink_some (h.relink I)
  · exact fun hroot => h.detached (.inl hroot)
  · exact h.attached
  · -- what lies above `p` is in the tree
    exact fun hc => h.detached (I.attached_of_climbs h.attached hc)
  · right
    constructor
    · exact h.detached
    · intro hdir
      rw [h.link.new] at hdir ⊢
      exact h.link.linkCount hdir

theorem child_none_iff {ns : Namespace} :
    ns.child p name = none ↔ ∀ e ∈ (ns.dentry p).childList, e.1 ≠ name := by
  unfold Namespace.child
  rw [Option.map_eq_none_iff, List.find?_eq_none]
  simp only [hasKey_iff]

theorem Created.namesUnique {dir : Path} {uid : ℕ} {isdir readonly : Bool} (I : fs.TreeInv)
    (h : Created fs fs' dir p d name uid isdir readonly) (hn : fs.NamesUnique) :
    fs'.NamesUnique := by
  apply hn.relink (h.relink I)
  intro x hx e he _
  cases hx
  rw [h.link.new]
  exact child_none_iff.mp h.unused e he

theorem Detached.relink (I : fs.TreeInv) (h : Detached fs fs' p d) :
    Relink fs.toNamespace fs'.toNamespace d none :=
  h.unlink.relink I h.parent h.found

theorem Detached.ne_root (I : fs.TreeInv) (h : Detached fs fs' p d) : d ≠ fs.root := by
  intro hroot
  have hnone := I.rootParent
  rw [← hroot, h.parent] at hnone
  cases hnone

theorem Detached.treeInv (I : fs.TreeInv) (h : Detached fs fs' p d) : fs'.TreeInv :=
  I.relink_none (h.relink I) (h.ne_root I) h.childless

theorem Detached.namesUnique (I : fs.TreeInv) (h : Detached fs fs' p d) (hn : fs.NamesUnique) :
    fs'.NamesUnique := by
  apply hn.relink (h.relink I)
  intro x hx
  cases hx

theorem Cleared.treeInv (I : fs.TreeInv) (h : Cleared T fs fs' q d name) : fs'.TreeInv := by
  cases h with
  | unused heq _ =>
    rw [heq]
    exact I
  | self heq _ =>
    rw [heq]
    exact I
  | replaced t fs₁ _ _ hd hk _ _ _ _ => exact hk.sameShape.treeInv (hd.treeInv I)

/-- Nothing but `d` itself has the name that was made free. -/
theorem Cleared.namesUnique (I : fs.TreeInv) (h : Cleared T fs fs' q d name)
    (hn : fs.NamesUnique) :
    fs'.NamesUnique ∧ ∀ e ∈ (fs'.dentry q).childList, e.2 ≠ d → e.1 ≠ name := by
  cases h with
  | unused heq h =>
    rw [heq]
    exact ⟨hn, fun e he _ => child_none_iff.mp h e he⟩
  | self heq h =>
    rw [heq]
    refine ⟨hn, fun e he hed hname => hed ?_⟩
    have hfound := List.mem_of_find?_eq_some (child_spec I h).1
    exact congrArg Prod.snd (List.inj_on_of_nodup_map (hn q) he hfound hname)
  | replaced t fs₁ _ h hd hk _ _ _ _ =>
    refine ⟨hk.sameShape.namesUnique (hd.treeInv I) (hd.namesUnique I hn), fun e he _ hname => ?_⟩
    rw [hk.sameShape.childList (hd.treeInv I)] at he
    -- the only entry of that name is the one that went
    rcases (hd.relink I).mem_list.mp he with ⟨hnone, -⟩ | ⟨het, he⟩
    · cases hnone
    · have hfound := List.mem_of_find?_eq_some (child_spec I h).1
      exact het (congrArg Prod.snd (List.inj_on_of_nodup_map (hn q) he hfound hname))

section Moved

variable {fromPath toDir : Path}

theorem Moved.relink (I : fs.TreeInv) (h : Moved fs fs' fromPath toDir p q d name) :
    Relink fs.toNamespace fs'.toNamespace d (some q) :=
  h.move.relink I h.ready.parent h.ready.found

theorem Moved.treeInv (I : fs.TreeInv) (h : Moved fs fs' fromPath toDir p q d name) :
    fs'.TreeInv := by
  apply I.relink_some (h.relink I)
  · intro hroot
    have hnone := I.rootParent
    rw [← hroot, h.ready.parent] at hnone
    cases hnone
  · exact h.ready.attached
  · exact h.ready.notBelow
  · left
    rw [h.move.moved]
    exact ⟨.inr (by simp [h.ready.parent]), rfl, rfl⟩

theorem Moved.namesUnique (I : fs.TreeInv) (h : Moved fs fs' fromPath toDir p q d name)
    (hn : fs.NamesUnique) (hu : ∀ e ∈ (fs.dentry q).childList, e.2 ≠ d → e.1 ≠ name) :
    fs'.NamesUnique := by
  apply hn.relink (h.relink I)
  intro x hx e he hed
  cases hx
  rw [h.move.moved]
  exact hu e he hed

end Moved

theorem Change.treeInv (I : fs.TreeInv) (h : Change T fs fs') : fs'.TreeInv := by
  cases h with
  | kept h => exact h.sameShape.treeInv I
  | touch d b h hb => exact (h.sameShape hb.shape).treeInv I
  | mark d b fs₁ h hb hd _ => exact hd.sameShape.treeInv ((h.sameShape hb.shape).treeInv I)
  | count d u fs₁ h hcount _ =>
    have I₁ := (h.sameShape rfl).treeInv I
    rcases hcount with hcount | ⟨hcount, -⟩
    · rw [hcount]
      exact ⟨I₁.rootParent, I₁.rootDir, I₁.rootLe, I₁.entry, I₁.listed, I₁.nodup, I₁.fresh,
        I₁.climbs, I₁.links⟩
    · rw [hcount]
      exact I₁
  | create dir p d name uid isdir readonly h _ => exact h.treeInv I
  | unlink path p d h _ _ _ _ _ => exact h.treeInv I
  | rename fromPath toDir p q d name fs₁ _ _ _ hc h _ => exact h.treeInv (hc.treeInv I)

theorem Change.namesUnique (I : fs.TreeInv) (h : Change T fs fs') (hn : fs.NamesUnique) :
    fs'.NamesUnique := by
  cases h with
  | kept h => exact h.sameShape.namesUnique I hn
  | touch d b h hb => exact (h.sameShape hb.shape).namesUnique I hn
  | mark d b fs₁ h hb hd _ =>
    have hs := h.sameShape hb.shape
    exact hd.sameShape.namesUnique (hs.treeInv I) (hs.namesUnique I hn)
  | count d u fs₁ h hcount _ =>
    have hn₁ := (h.sameShape rfl).namesUnique I hn
    rcases hcount with hcount | ⟨hcount, -⟩
    · rw [hcount]
      exact hn₁
    · rw [hcount]
      exact hn₁
  | create dir p d name uid isdir readonly h _ => exact h.namesUnique I hn
  | unlink path p d h _ _ _ _ _ => exact h.namesUnique I hn
  | rename fromPath toDir p q d name fs₁ _ _ _ hc h _ =>
    have hc' := hc.namesUnique I hn
    exact h.namesUnique (hc.treeInv I) hc'.1 hc'.2

theorem Changes.treeInv (I : fs.TreeInv) (h : Changes T fs fs') : fs'.TreeInv := by
  induction h with
  | refl => exact I
  | tail _ h ih => exact h.treeInv ih

/-- What every change of a tree keeps, a sequence of changes keeps. -/
theorem Changes.keeps {P : State → Prop}
    (hP : ∀ fs fs', fs.TreeInv → Change T fs fs' → P fs → P fs') (I : fs.TreeInv)
    (h : Changes T fs fs') (hs : P fs) : P fs' := by
  induction h with
  | refl => exact hs
  | tail hc h ih => exact hP _ _ (Changes.treeInv I hc) h ih

end Tree

end Ltfs.Fs

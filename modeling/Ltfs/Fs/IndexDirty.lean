import Ltfs.Fs.IncIndex
import Ltfs.Fs.JournalSpec

/-!
# Dirty flags over several indexes

`ltfs_set_dentry_dirty` writes to the journal only when it sets the flag, so what the journal
misses depends on who clears flags: the writer of an index, while it walks over the tree or
over the journal.

* `Event`, `runEvents` — calls and indexes, in any order.
* `full_indexed_iff` — a full index clears the flags of the files it gets to
  (`xmlWriteDirtree_file`), and no others (`xmlWriteDirtree_other`).
* `xmlWriteEntries_written` — an incremental index clears the flag of every dentry that has an
  entry, but not that of a new directory.
* `bookkeeping_of_run` — where these two do not matter, every index leaves the tree clean, and
  no dentry that was marked is missing from the journal.

An index is written with success here. One that fails may have cleared flags, and an
incremental one the journal as well.
-/

namespace Ltfs.Fs

open Function Namespace Lib.Forest Lib.Markup

/-! ## Runs with indexes -/

/-- `ltfs_write_index` with success, as far as dentries and journal go: a full index walks over
the tree, an incremental one over the journal. A null pointer ends the program. -/
def State.ltfsWriteIndex (fs : State) (volumeName : Option Path) (incremental : Bool) : State :=
  if incremental then
    match fs.xmlWriteIncJournal volumeName with
    | some (_, fs) => fs
    | none => fs
  else (State.xmlWriteDirtree volumeName (fs.inodeNumber + 1) fs fs.root).2.incjClear

/-- What happens on a mounted volume. -/
inductive Event where
  | call (c : Env × Request)
  | writeIndex (volumeName : Option Path) (incremental : Bool)

section Run

-- `pathname_normalize`: NFC by ICU, which is not part of the source
variable (normalize : List UInt8 → Except ℤ (List UInt8)) (blocksize : ℕ)

/-- One call, or one index. -/
def Event.exec : Event → System → System
  | .call c, s => step normalize blocksize c s
  | .writeIndex volumeName incremental, s =>
    { s with fs := s.fs.ltfsWriteIndex volumeName incremental }

/-- What holds of every event of a run and the state it starts from. -/
def AlongEvents (P : Event → System → Prop) : List Event → System → Prop
  | [], _ => True
  | e :: rest, s => P e s ∧ AlongEvents P rest (e.exec normalize blocksize s)

/-- A sequence of events. -/
def runEvents : List Event → System → System
  | [], s => s
  | e :: rest, s => runEvents rest (e.exec normalize blocksize s)

end Run

/-! ## What flags and journal are for -/

/-- Nothing changed since the last index. -/
structure Indexed (ns : Namespace) : Prop where
  clean : ∀ d, ns.Attached d → (ns.dentry d).dirty = false
  journal : ns.journal.journal = []
  createdDirs : ns.journal.createdDirs = []

/-- No change of a dentry is missing from the journal, and with memory none will be. -/
structure Bookkept (fs : State) : Prop where
  recorded : ∀ d, fs.Attached d → (fs.dentry d).dirty = true → HasEntry fs.journal d
  records : ∀ d, fs.Attached d → ∀ alloc hashAlloc : Alloc, (∀ b ∈ alloc, b = true) →
    (∀ b ∈ hashAlloc, b = true) →
    HasEntry (State.ltfsSetDentryDirty { fs with alloc, hashAlloc } d).journal d

/-- An incremental index has an entry for every dirty dentry, and a file in it as it is. -/
def Written (fs : State) (volumeName : Option Path) : Prop :=
  ∃ out fs', fs.xmlWriteIncJournal volumeName = some (out, fs') ∧
    ∀ d, fs.Attached d → (fs.dentry d).dirty = true → ∃ e ∈ out.entries, e.ent.dentry = some d ∧
      (e.ent.reason = .create ∨ e.ent.reason = .modify) ∧
      ((fs.dentry d).isdir = false → e.own = (fs.xmlWriteFile d).1)

/-- What an event leaves: a clean tree behind an index, the incremental one being complete; and
as long as there is memory for the journal, no change is missing from it. -/
structure Event.Kept (normalize : List UInt8 → Except ℤ (List UInt8)) (blocksize : ℕ) (e : Event)
    (s : System) : Prop where
  bookkept : (e.exec normalize blocksize s).fs.journal.journalErr = false →
    Bookkept (e.exec normalize blocksize s).fs
  indexed : ∀ volumeName incremental, e = .writeIndex volumeName incremental →
    Indexed (e.exec normalize blocksize s).fs.toNamespace ∧ Bookkept (e.exec normalize blocksize s).fs
  written : ∀ volumeName, e = .writeIndex volumeName true → Written s.fs volumeName

/-! ## When they are kept -/

/-- Only files are dirty, and no file lies below a file. -/
def FilesOnly (ns : Namespace) : Prop :=
  ∀ d, ns.Attached d → (ns.dentry d).dirty = true → (ns.dentry d).isdir = false ∧
    ∀ a, Climbs ns.parent d a → a ≠ d → (ns.dentry a).isdir = true

/-- The condition on an event. -/
structure Event.Calm (normalize : List UInt8 → Except ℤ (List UInt8)) (e : Event) (s : System) :
    Prop where
  call : ∀ c, e = .call c → Fs.Calm normalize c s.fs ∧ Noted normalize c s.fs
  memory : ∀ volumeName incremental, e = .writeIndex volumeName incremental →
    s.fs.journal.journalErr = false
  full : ∀ volumeName, e = .writeIndex volumeName false → FilesOnly s.fs.toNamespace
  incremental : ∀ volumeName, e = .writeIndex volumeName true →
    (s.fs.xmlWriteIncJournal volumeName).isSome = true ∧
      ∀ ent ∈ s.fs.journal.journal, (parentPath ent.fullPath).head? = some slash

/-! ## Clearing flags -/

namespace Cleans

variable {fs fs' : State} {d : ℕ}

theorem stays (h : Cleans fs fs') (hd : (fs.dentry d).dirty = false) :
    (fs'.dentry d).dirty = false := by
  rcases h.dentry d with h | h
  · rw [h]
    exact hd
  · rw [h]

theorem toNamespace (h : Cleans fs fs') :
    fs'.toNamespace = { fs.toNamespace with dentry := fs'.dentry } :=
  congrArg State.toNamespace h.frame

theorem sameShape (h : Cleans fs fs') : SameShape fs.toNamespace fs'.toNamespace := by
  have hshape : ∀ x, (fs'.dentry x).shape = (fs.dentry x).shape := by
    intro x
    rcases h.dentry x with h | h <;> rw [h]
    rfl
  constructor
  · rw [h.toNamespace]
  · rw [h.toNamespace]
  · exact fun x _ => hshape x
  · exact fun x _ => .inl (hshape x)

theorem journal (h : Cleans fs fs') : fs'.journal = fs.journal := by
  rw [h.toNamespace]

theorem inv {o : ℕ → ℕ} (h : Cleans fs fs') (I : Inv fs o) : Inv fs' o := by
  have hh : fs'.numhandles = fs.numhandles := by rw [h.frame]
  have hq : fs'.hashAlloc = fs.hashAlloc := by rw [h.frame]
  apply I.sameShape h.sameShape hh
  intro b hb
  rw [hq] at hb
  exact I.quiet b hb

/-- What is written for a file does not depend on flags. -/
theorem xmlWriteFile (h : Cleans fs fs') (d : ℕ) :
    (fs'.xmlWriteFile d).1 = (fs.xmlWriteFile d).1 := by
  unfold State.xmlWriteFile
  rcases h.dentry d with h | h
  · rw [h]
  · rw [h]
    rfl

theorem childrenByUid (h : Cleans fs fs') (d : ℕ) : fs'.childrenByUid d = fs.childrenByUid d := by
  have huid : ∀ x, (fs'.dentry x).uid = (fs.dentry x).uid := by
    intro x
    rcases h.dentry x with h | h <;> rw [h]
  have hlist : (fs'.dentry d).childList = (fs.dentry d).childList := by
    rcases h.dentry d with h | h <;> rw [h]
  unfold State.childrenByUid
  rw [hlist]
  simp only [huid]

end Cleans

theorem clean_self (fs : State) (d : ℕ) : ((fs.clean d).dentry d).dirty = false := by
  show (update fs.dentry d { fs.dentry d with dirty := false } d).dirty = false
  rw [update_self]

theorem incjClear_inv {fs : State} {o : ℕ → ℕ} (I : Inv fs o) : Inv fs.incjClear o :=
  I.sameShape ⟨rfl, le_refl _, fun _ _ => rfl, fun _ _ => .inl rfl⟩ rfl I.quiet

/-! ## A full index -/

section Full

variable {fs fs' : State} {d dir n m : ℕ} (volumeName : Option Path)

/-- One child in the loop of `_xml_write_dirtree`. -/
def writeChild (fuel : ℕ) (r : List XmlCall × State) (d : ℕ) : List XmlCall × State :=
  let w :=
    if (r.2.dentry d).isdir then State.xmlWriteDirtree volumeName fuel r.2 d
    else r.2.xmlWriteFile d
  (r.1 ++ w.1, w.2)

theorem xmlWriteDirtree_succ (fuel : ℕ) (fs : State) (dir : ℕ) :
    (State.xmlWriteDirtree volumeName (fuel + 1) fs dir).2 =
      ((fs.childrenByUid dir).foldl (writeChild volumeName fuel) ([], fs)).2 := rfl

theorem writeChild_cleans (fuel : ℕ) (r : List XmlCall × State) (d : ℕ) :
    Cleans r.2 (writeChild volumeName fuel r d).2 := by
  unfold writeChild
  dsimp only
  split
  · exact xmlWriteDirtree_cleans volumeName fuel r.2 d
  · exact Cleans.clean r.2 d

theorem writeChildren_cleans (fuel : ℕ) (l : List ℕ) : ∀ r : List XmlCall × State,
    Cleans r.2 (l.foldl (writeChild volumeName fuel) r).2 := by
  induction l with
  | nil => exact fun r => Cleans.refl r.2
  | cons c l ih => exact fun r => (writeChild_cleans volumeName fuel r c).trans (ih _)

/-- The file `d` lies `n` directories below the directory `dir`. -/
def FileBelow (fs : State) : ℕ → ℕ → ℕ → Prop
  | 0, dir, d => d ∈ fs.childrenByUid dir ∧ (fs.dentry d).isdir = false
  | n + 1, dir, d => ∃ c ∈ fs.childrenByUid dir, (fs.dentry c).isdir = true ∧ FileBelow fs n c d

theorem FileBelow.cleans (hc : Cleans fs fs') (h : FileBelow fs n dir d) :
    FileBelow fs' n dir d := by
  induction n generalizing dir with
  | zero =>
    refine ⟨?_, ?_⟩
    · rw [hc.childrenByUid]
      exact h.1
    · rw [hc.isdir]
      exact h.2
  | succ n ih =>
    obtain ⟨c, hmem, hdir, h⟩ := h
    refine ⟨c, ?_, ?_, ih h⟩
    · rw [hc.childrenByUid]
      exact hmem
    · rw [hc.isdir]
      exact hdir

theorem FileBelow.of_cleans (hc : Cleans fs fs') (h : FileBelow fs' n dir d) :
    FileBelow fs n dir d := by
  induction n generalizing dir with
  | zero =>
    unfold FileBelow at h
    rw [hc.childrenByUid, hc.isdir] at h
    exact h
  | succ n ih =>
    obtain ⟨c, hmem, hdir, h⟩ := h
    rw [hc.childrenByUid] at hmem
    rw [hc.isdir] at hdir
    exact ⟨c, hmem, hdir, ih h⟩

/-- What one child of a list clears is clean behind the whole list. -/
theorem writeChildren_clears {fuel c : ℕ}
    (hstep : ∀ r : List XmlCall × State, Cleans fs r.2 →
      ((writeChild volumeName fuel r c).2.dentry d).dirty = false) (l : List ℕ) (hc : c ∈ l) :
    ∀ r : List XmlCall × State, Cleans fs r.2 →
      ((l.foldl (writeChild volumeName fuel) r).2.dentry d).dirty = false := by
  induction l with
  | nil => cases hc
  | cons a l ih =>
    intro r hr
    rw [List.foldl_cons]
    rcases List.mem_cons.mp hc with rfl | hc
    · exact (writeChildren_cleans volumeName fuel l _).stays (hstep r hr)
    · exact ih hc _ (hr.trans (writeChild_cleans volumeName fuel r a))

/-- A full index clears the flag of every file it gets to. -/
theorem xmlWriteDirtree_file (fuel : ℕ) : ∀ {n : ℕ} {fs : State} {dir : ℕ}, FileBelow fs n dir d →
    n < fuel → ((State.xmlWriteDirtree volumeName fuel fs dir).2.dentry d).dirty = false := by
  induction fuel with
  | zero => exact fun _ hn => absurd hn (Nat.not_lt_zero _)
  | succ fuel ih =>
    intro n fs dir h hn
    rw [xmlWriteDirtree_succ]
    cases n with
    | zero =>
      refine writeChildren_clears volumeName (c := d) (fun r hr => ?_) _ h.1 _ (Cleans.refl fs)
      unfold writeChild
      rw [hr.isdir, h.2]
      exact clean_self r.2 d
    | succ n =>
      obtain ⟨c, hmem, hdir, h⟩ := h
      refine writeChildren_clears volumeName (c := c) (fun r hr => ?_) _ hmem _ (Cleans.refl fs)
      unfold writeChild
      rw [hr.isdir, hdir]
      exact ih (h.cleans hr) (by omega)

/-- It clears no other flag. -/
theorem xmlWriteDirtree_other (fuel : ℕ) : ∀ {fs : State} {dir : ℕ},
    (∀ n, ¬ FileBelow fs n dir d) →
    (State.xmlWriteDirtree volumeName fuel fs dir).2.dentry d = fs.dentry d := by
  induction fuel with
  | zero => exact fun _ => rfl
  | succ fuel ih =>
    intro fs dir h
    rw [xmlWriteDirtree_succ]
    suffices hl : ∀ l : List ℕ, (∀ c ∈ l, c ∈ fs.childrenByUid dir) →
        ∀ r : List XmlCall × State, Cleans fs r.2 → r.2.dentry d = fs.dentry d →
        (l.foldl (writeChild volumeName fuel) r).2.dentry d = fs.dentry d from
      hl _ (fun _ hc => hc) _ (Cleans.refl fs) rfl
    intro l
    induction l with
    | nil => exact fun _ _ _ hr => hr
    | cons c l ihl =>
      intro hl r hc hr
      refine ihl (fun c hc => hl c (List.mem_cons_of_mem _ hc)) _
        (hc.trans (writeChild_cleans volumeName fuel r c)) ?_
      have hmem := hl c List.mem_cons_self
      unfold writeChild
      dsimp only
      split
      · rename_i hdir
        rw [hc.isdir] at hdir
        rw [ih fun n hn => h (n + 1) ⟨c, hmem, hdir, hn.of_cleans hc⟩]
        exact hr
      · rename_i hfile
        rw [hc.isdir, Bool.not_eq_true] at hfile
        have hne : d ≠ c := by
          rintro rfl
          exact h 0 ⟨hmem, hfile⟩
        show update r.2.dentry c _ d = _
        rw [update_of_ne hne]
        exact hr

theorem mem_childrenByUid {e : Path × ℕ} (h : e ∈ (fs.dentry dir).childList) :
    e.2 ∈ fs.childrenByUid dir := by
  unfold State.childrenByUid
  rw [Lib.mem_hashSort]
  exact List.mem_map_of_mem (List.mem_reverse.mpr h)

theorem parent_of_childrenByUid (I : fs.TreeInv) {c : ℕ} (h : c ∈ fs.childrenByUid dir) :
    fs.parent c = some dir := by
  unfold State.childrenByUid at h
  rw [Lib.mem_hashSort] at h
  obtain ⟨e, he, rfl⟩ := List.mem_map.mp h
  exact (I.entry dir e (List.mem_reverse.mp he)).1

/-- Between a directory and a file below it there are directories. -/
theorem FileBelow.dirs (I : fs.TreeInv) (hdir : (fs.dentry dir).isdir = true)
    (habove : ∀ a, Climbs fs.parent dir a → (fs.dentry a).isdir = true)
    (h : FileBelow fs n dir d) : (fs.dentry d).isdir = false ∧
      ∀ a, Climbs fs.parent d a → a ≠ d → (fs.dentry a).isdir = true := by
  have hup : ∀ c, fs.parent c = some dir → ∀ a, Climbs fs.parent c a → a ≠ c →
      (fs.dentry a).isdir = true := by
    intro c hc a ha hne
    rcases ha.cases with rfl | ⟨b, hb, hba⟩
    · exact absurd rfl hne
    · rw [hc] at hb
      obtain rfl := Option.some.inj hb
      exact habove a hba
  induction n generalizing dir with
  | zero => exact ⟨h.2, hup d (parent_of_childrenByUid I h.1)⟩
  | succ n ih =>
    obtain ⟨c, hmem, hcdir, h⟩ := h
    have hc := hup c (parent_of_childrenByUid I hmem)
    have habove' : ∀ a, Climbs fs.parent c a → (fs.dentry a).isdir = true := by
      intro a ha
      by_cases hac : a = c
      · rw [hac]
        exact hcdir
      · exact hc a ha hac
    apply ih hcdir habove' h
    intro x hx a ha hne
    rcases ha.cases with rfl | ⟨b, hb, hba⟩
    · exact absurd rfl hne
    · rw [hx] at hb
      obtain rfl := Option.some.inj hb
      exact habove' a hba

/-- What lies below `p` lies below the root, over directories. -/
theorem FileBelow.root (I : fs.TreeInv) {p : ℕ} (hp : Height fs.parent p n) :
    ∀ {m : ℕ}, fs.Attached p → (∀ a, Climbs fs.parent p a → (fs.dentry a).isdir = true) →
      FileBelow fs m p d → FileBelow fs (m + n) fs.root d := by
  induction hp with
  | @top p hnone =>
    intro m ha _ h
    rcases ha with rfl | ha
    · exact h
    · exact absurd hnone ha
  | @up p q n hq _ ih =>
    intro m ha hdirs h
    have h' : FileBelow fs (m + 1) q d :=
      ⟨p, mem_childrenByUid (I.listed p q hq), hdirs p Climbs.refl, h⟩
    have hroot := ih (I.attached_of_parent hq) (fun a hc => hdirs a (Climbs.step hq hc)) h'
    rw [show m + (n + 1) = m + 1 + n by omega]
    exact hroot

/-- Every file of the tree that lies in directories is got to. -/
theorem fileBelow_root (I : fs.TreeInv) (hd : fs.Attached d) (hfile : (fs.dentry d).isdir = false)
    (hdirs : ∀ a, Climbs fs.parent d a → a ≠ d → (fs.dentry a).isdir = true) :
    ∃ n < fs.inodeNumber + 1, FileBelow fs n fs.root d := by
  have hparent : fs.parent d ≠ none := by
    rcases hd with rfl | hd
    · rw [I.rootDir] at hfile
      cases hfile
    · exact hd
  obtain ⟨p, hp⟩ := Option.ne_none_iff_exists'.mp hparent
  have hpa := I.attached_of_parent hp
  obtain ⟨n, hn⟩ := (I.climbs_of_attached hpa).height I.rootParent
  -- the dentries above `d` are all different
  have hlt := hn.lt_card (s := Finset.range (fs.inodeNumber + 1)) (fun y hy => by
    have := I.le_of_attached (I.attached_of_climbs hpa hy)
    exact Finset.mem_range.mpr (by omega))
  rw [Finset.card_range] at hlt
  refine ⟨n, hlt, ?_⟩
  have hbelow : FileBelow fs 0 p d := ⟨mem_childrenByUid (I.listed d p hp), hfile⟩
  have hroot := FileBelow.root I hn hpa (fun a hc => ?_) hbelow
  · rw [Nat.zero_add] at hroot
    exact hroot
  · apply hdirs a (Climbs.step hp hc)
    rintro rfl
    -- `d` itself does not lie above its parent
    obtain ⟨k, hk, hka⟩ := hn.of_climbs hc
    have := hka.unique (.up hp hn)
    omega

/-- Behind a full index the tree is clean if and only if only files were dirty. -/
theorem full_indexed_iff (I : fs.TreeInv) :
    Indexed (fs.ltfsWriteIndex volumeName false).toNamespace ↔ FilesOnly fs.toNamespace := by
  unfold State.ltfsWriteIndex
  rw [if_neg (by simp)]
  have hc := xmlWriteDirtree_cleans volumeName (fs.inodeNumber + 1) fs fs.root
  constructor
  · intro h d hd hdirty
    have hclean : ((State.xmlWriteDirtree volumeName (fs.inodeNumber + 1) fs
        fs.root).2.dentry d).dirty = false := h.clean d (hc.sameShape.attached_iff.mpr hd)
    -- a flag that was cleared is that of a file below the root
    have hbelow : ∃ n, FileBelow fs n fs.root d := by
      by_contra hnone
      rw [xmlWriteDirtree_other volumeName _ (not_exists.mp hnone), hdirty] at hclean
      cases hclean
    obtain ⟨n, hbelow⟩ := hbelow
    apply hbelow.dirs I I.rootDir
    intro a ha
    rw [← ha.eq_of_no_parent I.rootParent]
    exact I.rootDir
  · intro h
    refine ⟨fun d hd => ?_, rfl, rfl⟩
    have hd : fs.Attached d := hc.sameShape.attached_iff.mp hd
    show ((State.xmlWriteDirtree volumeName (fs.inodeNumber + 1) fs fs.root).2.dentry d).dirty =
      false
    cases hdirty : (fs.dentry d).dirty with
    | false => exact hc.stays hdirty
    | true =>
      obtain ⟨hfile, hdirs⟩ := h d hd hdirty
      obtain ⟨n, hn, hbelow⟩ := fileBelow_root I hd hfile hdirs
      exact xmlWriteDirtree_file volumeName _ hbelow hn

end Full

/-! ## An incremental index -/

section Incremental

variable {fs fs₀ fs' : State} {volumeName : Option Path}

theorem xmlOpenIncrementalDirs_cleans (dirs : List (Option ℕ)) : ∀ {fs : State}
    {r : List XmlCall × State}, fs.xmlOpenIncrementalDirs dirs = some r → Cleans fs r.2 := by
  induction dirs with
  | nil =>
    intro fs r h
    obtain rfl := Option.some.inj h
    exact Cleans.refl fs
  | cons d dirs ih =>
    intro fs r h
    cases d with
    | none => cases h
    | some dir =>
      unfold State.xmlOpenIncrementalDirs at h
      obtain ⟨r', hr', rfl⟩ := Option.map_eq_some_iff.mp h
      have hrest := ih hr'
      exact (Cleans.clean fs dir).trans hrest

theorem xmlGotoIncrementParent_cleans {ent : Jentry} {cur cur' : List ℕ} {travel : List XmlCall}
    (h : fs.xmlGotoIncrementParent ent cur = .arrived travel cur' fs') : Cleans fs fs' := by
  unfold State.xmlGotoIncrementParent at h
  dsimp only at h
  split at h
  · cases h
  · split at h
    · cases h
    · split at h
      · obtain ⟨-, -, rfl⟩ := State.Goto.arrived.inj h
        exact Cleans.refl fs
      · split at h
        · cases h
        · rename_i r hopen
          obtain ⟨-, -, rfl⟩ := State.Goto.arrived.inj h
          exact xmlOpenIncrementalDirs_cleans _ hopen

/-- The entry is for the dentry, and writing it clears its flag: it is not the creation of a
directory. -/
def Clears (fs : State) (ent : Jentry) (d : ℕ) : Prop :=
  ent.dentry = some d ∧
    (ent.reason = .modify ∨ ent.reason = .create ∧ (fs.dentry d).isdir = false)

/-- An entry clears the flag of its dentry; a file is written as it is. -/
theorem xmlWriteJentry_clears (hc : Cleans fs₀ fs) {ent : Jentry} {own : List XmlCall} {d : ℕ}
    (h : fs.xmlWriteJentry volumeName ent = some (own, fs')) (hd : Clears fs₀ ent d) :
    (fs'.dentry d).dirty = false ∧
      ((fs₀.dentry d).isdir = false → own = (fs₀.xmlWriteFile d).1) := by
  obtain ⟨hent, hr⟩ := hd
  have hfile : (fs₀.dentry d).isdir = false → some (fs.xmlWriteFile d) = some (own, fs') →
      (fs'.dentry d).dirty = false ∧
        ((fs₀.dentry d).isdir = false → own = (fs₀.xmlWriteFile d).1) := by
    intro _ heq
    have heq := Option.some.inj heq
    constructor
    · rw [show fs' = fs.clean d from (congrArg Prod.snd heq).symm]
      exact clean_self fs d
    · intro _
      rw [← hc.xmlWriteFile d, heq]
  unfold State.xmlWriteJentry at h
  rcases hr with hr | ⟨hr, hdir⟩
  · rw [hr, hent] at h
    dsimp only at h
    rw [hc.isdir] at h
    cases hdir : (fs₀.dentry d).isdir with
    | false =>
      rw [hdir, if_neg (by simp)] at h
      rw [hdir] at hfile
      exact hfile rfl h
    | true =>
      rw [hdir, if_pos rfl] at h
      have heq := Option.some.inj h
      constructor
      · rw [show fs' = fs.clean d from (congrArg Prod.snd heq).symm]
        exact clean_self fs d
      · intro hfalse
        cases hfalse
  · rw [hr, hent] at h
    dsimp only at h
    rw [hc.isdir, hdir, if_neg (by simp)] at h
    exact hfile hdir h

/-- With absolute paths every entry is written. -/
theorem xmlWriteEntries_written (l : List Jentry) : ∀ {fs : State} {cur : List ℕ}
    {es : List EntryCalls} {fs' : State}, Cleans fs₀ fs →
    (∀ ent ∈ l, (parentPath ent.fullPath).head? = some slash) →
    fs.xmlWriteEntries volumeName cur l = some (es, fs') →
    Cleans fs fs' ∧ ∀ ent ∈ l, ∀ d, Clears fs₀ ent d → (fs'.dentry d).dirty = false ∧
      ∃ e ∈ es, e.ent = ent ∧ ((fs₀.dentry d).isdir = false → e.own = (fs₀.xmlWriteFile d).1) := by
  induction l with
  | nil =>
    intro fs cur es fs' _ _ h
    obtain ⟨-, rfl⟩ := Prod.mk.inj (Option.some.inj h)
    exact ⟨Cleans.refl fs, by simp⟩
  | cons ent rest ih =>
    intro fs cur es fs' hc habs h
    unfold State.xmlWriteEntries at h
    cases hgoto : fs.xmlGotoIncrementParent ent cur with
    | undefined =>
      rw [hgoto] at h
      cases h
    | failed =>
      -- only a path that is not absolute fails
      exfalso
      unfold State.xmlGotoIncrementParent at hgoto
      dsimp only at hgoto
      rw [if_neg (by simpa using habs ent List.mem_cons_self)] at hgoto
      split at hgoto
      · cases hgoto
      · split at hgoto
        · cases hgoto
        · split at hgoto <;> cases hgoto
    | arrived travel cur' fs₁ =>
      rw [hgoto] at h
      dsimp only at h
      split at h
      · cases h
      · rename_i own fs₂ hown
        obtain ⟨r, hr, heq⟩ := Option.map_eq_some_iff.mp h
        obtain ⟨rfl, rfl⟩ := Prod.mk.inj heq
        have hc₁ := xmlGotoIncrementParent_cleans hgoto
        have hc₂ := xmlWriteJentry_cleans hown
        obtain ⟨hcr, hrest⟩ := ih ((hc.trans hc₁).trans hc₂)
          (fun e he => habs e (List.mem_cons_of_mem _ he)) hr
        refine ⟨(hc₁.trans hc₂).trans hcr, fun e he d hd => ?_⟩
        rcases List.mem_cons.mp he with rfl | he
        · obtain ⟨hclean, hfile⟩ := xmlWriteJentry_clears (hc.trans hc₁) hown hd
          exact ⟨hcr.stays hclean, _, List.mem_cons_self, rfl, hfile⟩
        · obtain ⟨hclean, e', he', hfile⟩ := hrest e he d hd
          exact ⟨hclean, e', List.mem_cons_of_mem _ he', hfile⟩

/-- Behind an incremental index the tree is clean if the journal was complete and no directory
was made. -/
theorem incremental_indexed (H : Journaled fs.toNamespace)
    (hsome : (fs.xmlWriteIncJournal volumeName).isSome = true)
    (habs : ∀ ent ∈ fs.journal.journal, (parentPath ent.fullPath).head? = some slash) :
    Written fs volumeName ∧ ∃ fs₁, Cleans fs fs₁ ∧
      fs.ltfsWriteIndex volumeName true = fs₁.incjClear ∧
      Indexed (fs.ltfsWriteIndex volumeName true).toNamespace := by
  obtain ⟨⟨out, fs'⟩, hout⟩ := Option.isSome_iff_exists.mp hsome
  obtain ⟨⟨es, fs₁⟩, hr, heq⟩ := Option.map_eq_some_iff.mp hout
  obtain ⟨rfl, rfl⟩ := Prod.mk.inj heq
  have hroot : Cleans fs (fs.xmlOpenIncrementalRoot volumeName).2 := Cleans.clean fs fs.root
  obtain ⟨hc, hentries⟩ := xmlWriteEntries_written _ hroot
    (fun ent hent => habs ent (mem_incjSort.mp hent)) hr
  have hc := hroot.trans hc
  -- the entry of a dirty dentry clears its flag
  have hclears : ∀ d, fs.Attached d → (fs.dentry d).dirty = true →
      ∃ ent ∈ incjSort fs.journal.journal, Clears fs ent d := by
    intro d ha hdirty
    obtain ⟨ent, hent, hd, hreason⟩ := H.own d ha hdirty
    refine ⟨ent, mem_incjSort.mpr hent, hd, ?_⟩
    rcases hreason with hreason | hreason
    · exact .inr ⟨hreason, H.file ent hent hreason d hd ha⟩
    · exact .inl hreason
  have hwrite : fs.ltfsWriteIndex volumeName true = fs₁.incjClear := by
    unfold State.ltfsWriteIndex
    rw [if_pos rfl, hout]
  refine ⟨⟨_, _, hout, fun d ha hdirty => ?_⟩, fs₁, hc, hwrite, ?_⟩
  · obtain ⟨ent, hent, hd⟩ := hclears d ha hdirty
    obtain ⟨-, e, he, rfl, hfile⟩ := hentries ent hent d hd
    refine ⟨e, he, hd.1, ?_, hfile⟩
    exact hd.2.symm.imp And.left id
  · rw [hwrite]
    refine ⟨fun d ha => ?_, rfl, rfl⟩
    have ha : fs.Attached d := hc.sameShape.attached_iff.mp ha
    show (fs₁.dentry d).dirty = false
    cases hdirty : (fs.dentry d).dirty with
    | false => exact hc.stays hdirty
    | true =>
      obtain ⟨ent, hent, hd⟩ := hclears d ha hdirty
      exact (hentries ent hent d hd).1

end Incremental

/-! ## Runs -/

theorem Indexed.journaled {ns : Namespace} (h : Indexed ns) : Journaled ns := by
  constructor
  · intro d ha hdirty
    rw [h.clean d ha] at hdirty
    cases hdirty
  · exact h.createdDirs
  · intro ent hent
    rw [h.journal] at hent
    cases hent
  · intro ent hent
    rw [h.journal] at hent
    cases hent

/-- With memory `incj_modify` has no error. -/
theorem incjModify_noErr {j : Journal} {a h : Alloc} {path : Path} {d : JournalTarget}
    (herr : j.journalErr = false) (ha : ∀ b ∈ a, b = true) (hq : ∀ b ∈ h, b = true) :
    (j.incjModify a h path d).journal.journalErr = false := by
  unfold Journal.incjModify
  rw [herr, if_neg (by simp), Alloc.next_of_quiet ha]
  split
  · exact herr
  · split
    · exact herr
    · simp only [hashAdd_quiet hq]

theorem Journaled.bookkept {fs : State} (H : Journaled fs.toNamespace)
    (herr : fs.journal.journalErr = false) : Bookkept fs := by
  refine ⟨H.own, fun d hd a h ha hq => ?_⟩
  cases hdirty : (fs.dentry d).dirty with
  | true =>
    have hsilent := (setDentryDirty_spec { fs with alloc := a, hashAlloc := h } d).silent hdirty
    rw [hsilent]
    exact H.own d hd hdirty
  | false =>
    unfold State.ltfsSetDentryDirty
    dsimp only
    rw [if_neg (by rw [hdirty]; simp)]
    unfold State.malloc
    dsimp only
    rw [Alloc.next_of_quiet ha]
    have ha' : ∀ b ∈ a.tail, b = true := fun b hb => ha b (List.mem_of_mem_tail hb)
    set fs₁ : State := { fs with alloc := a.tail, hashAlloc := h }
    rcases incjModify_appended (j := fs.journal) (fs₁.layDirs (fs.inodeNumber + 1) none d)
      (fs₁.journalTarget d) a.tail hq H.created with herr' | ⟨ent, happ, hent, hr⟩
    · rw [incjModify_noErr herr ha' hq] at herr'
      cases herr'
    · exact HasEntry.last happ hent (.inr hr)

section Run

variable {normalize : List UInt8 → Except ℤ (List UInt8)} {blocksize : ℕ}

/-- An index in the condition leaves a clean tree. -/
theorem writeIndex_indexed {volumeName : Option Path} {incremental : Bool} {s : System}
    (I : Inv s.fs s.opens) (H : JournalOk s.fs.toNamespace)
    (hcalm : Event.Calm normalize (.writeIndex volumeName incremental) s) :
    Inv (s.fs.ltfsWriteIndex volumeName incremental) s.opens ∧
      (s.fs.ltfsWriteIndex volumeName incremental).journal.journalErr = false ∧
      Indexed (s.fs.ltfsWriteIndex volumeName incremental).toNamespace ∧
      (incremental = true → Written s.fs volumeName) := by
  have herr := hcalm.memory volumeName incremental rfl
  have H := H.resolve_left (by rw [herr]; simp)
  cases incremental with
  | false =>
    have hc := xmlWriteDirtree_cleans volumeName (s.fs.inodeNumber + 1) s.fs s.fs.root
    refine ⟨incjClear_inv (hc.inv I), ?_, ?_, by simp⟩
    · show (State.xmlWriteDirtree volumeName _ s.fs s.fs.root).2.journal.journalErr = false
      rw [hc.journal]
      exact herr
    · exact (full_indexed_iff volumeName I.tree).mpr (hcalm.full volumeName rfl)
  | true =>
    obtain ⟨hsome, habs⟩ := hcalm.incremental volumeName rfl
    obtain ⟨hwritten, fs₁, hc, hwrite, hindexed⟩ := incremental_indexed H hsome habs
    refine ⟨?_, ?_, hindexed, fun _ => hwritten⟩
    · rw [hwrite]
      exact incjClear_inv (hc.inv I)
    · rw [hwrite]
      show fs₁.journal.journalErr = false
      rw [hc.journal]
      exact herr

/-- One event. -/
theorem event_kept {e : Event} {s : System} (I : Inv s.fs s.opens)
    (H : JournalOk s.fs.toNamespace) (hcalm : e.Calm normalize s) :
    Inv (e.exec normalize blocksize s).fs (e.exec normalize blocksize s).opens ∧
      JournalOk (e.exec normalize blocksize s).fs.toNamespace ∧ e.Kept normalize blocksize s := by
  cases e with
  | call c =>
    obtain ⟨hc, hnoted⟩ := hcalm.call c rfl
    obtain ⟨hchanges, I'⟩ := step_spec normalize blocksize (E := False) (J := True) I hc
      False.elim fun _ => hnoted
    have H' := hchanges.keeps (P := fun fs => JournalOk fs.toNamespace)
      (fun fs fs' I h H => h.journalOk trivial I H) I.tree H
    refine ⟨I', H', fun herr => ?_, by rintro _ _ ⟨⟩, by rintro _ ⟨⟩⟩
    have herr' : ¬ (step normalize blocksize c s).fs.journal.journalErr = true := by
      rw [show (step normalize blocksize c s).fs.journal.journalErr = false from herr]
      simp
    exact (H'.resolve_left herr').bookkept herr
  | writeIndex volumeName incremental =>
    obtain ⟨I', herr, hindexed, hwritten⟩ := writeIndex_indexed I H hcalm
    have hbook := hindexed.journaled.bookkept herr
    refine ⟨I', .inr hindexed.journaled, fun _ => hbook, ?_, ?_⟩
    · exact fun _ _ _ => ⟨hindexed, hbook⟩
    · rintro v ⟨⟩
      exact hwritten rfl

/-- **Incremental bookkeeping.** From a tree that has just been indexed, in every run of calm
events, every index leaves a clean tree and an empty journal, and no dentry that was marked is
missing from the journal or from the next incremental index. -/
theorem bookkeeping_of_run (normalize : List UInt8 → Except ℤ (List UInt8)) (blocksize : ℕ)
    (events : List Event) (s : System) (I : Inv s.fs s.opens) (hs : Indexed s.fs.toNamespace)
    (hcalm : AlongEvents normalize blocksize (fun e s => e.Calm normalize s) events s) :
    AlongEvents normalize blocksize (fun e s => e.Kept normalize blocksize s) events s := by
  have H : JournalOk s.fs.toNamespace := .inr hs.journaled
  clear hs
  induction events generalizing s with
  | nil => trivial
  | cons e rest ih =>
    obtain ⟨I', H', hkept⟩ := event_kept I H hcalm.1
    exact ⟨hkept, ih _ I' hcalm.2 H'⟩

/-- `ltfs_fsops_setxattr` with nothing unusual. -/
def setxattrCall (path name value : String) : Env × Request :=
  (fineEnv, .setxattr (ascii path) (ascii name) (ascii value) false false)

theorem emptyRoot_indexed (r : ℕ) : Indexed (emptyRoot r).fs.toNamespace := by
  refine ⟨fun d _ => ?_, rfl, rfl⟩
  show (update (fun _ => Dentry.zero) r rootDentry d).dirty = false
  rw [update_apply]
  split <;> rfl

/-- A file is made, indexed, modified, and indexed again. -/
theorem bookkeeping_of_run_file :
    AlongEvents .ok 1 (fun e s => e.Kept .ok 1 s)
      [.call (createCall "/f" false), .writeIndex none true,
        .call (setxattrCall "/f" "user.a" "1"), .writeIndex none true] (emptyRoot 1) := by
  apply bookkeeping_of_run
  · exact emptyRoot_inv 1
  · exact emptyRoot_indexed 1
  · refine ⟨?_, ?_, ?_, ?_, trivial⟩
    · refine ⟨?_, by rintro _ _ ⟨⟩, by rintro _ ⟨⟩, by rintro _ ⟨⟩⟩
      rintro _ ⟨⟩
      constructor
      · exact ⟨by decide, by rintro _ _ ⟨⟩, by rintro _ _ _ ⟨⟩⟩
      · exact ⟨by rintro _ _ _ _ _ ⟨⟩; rfl, by rintro _ _ ⟨⟩, by rintro _ _ _ ⟨⟩⟩
    · refine ⟨by rintro _ ⟨⟩, ?_, by rintro _ ⟨⟩, ?_⟩
      · rintro _ _ ⟨⟩
        decide +kernel
      · rintro _ ⟨⟩
        decide +kernel
    · refine ⟨?_, by rintro _ _ ⟨⟩, by rintro _ ⟨⟩, by rintro _ ⟨⟩⟩
      rintro _ ⟨⟩
      constructor
      · exact ⟨by decide, by rintro _ _ ⟨⟩, by rintro _ _ _ ⟨⟩⟩
      · exact ⟨by rintro _ _ _ _ _ ⟨⟩, by rintro _ _ ⟨⟩, by rintro _ _ _ ⟨⟩⟩
    · refine ⟨by rintro _ ⟨⟩, ?_, by rintro _ ⟨⟩, ?_⟩
      · rintro _ _ ⟨⟩
        decide +kernel
      · rintro _ ⟨⟩
        decide +kernel

/-- A new directory is still dirty behind a full index, and what is set on it afterwards never
gets to the journal. -/
theorem directory_stays_dirty :
    ¬ AlongEvents .ok 1 (fun e s => e.Kept .ok 1 s)
        [.call (createCall "/d" true), .writeIndex none false] (emptyRoot 1) ∧
      ((runEvents .ok 1 [.call (createCall "/d" true), .writeIndex none false,
        .call (setxattrCall "/d" "user.a" "1")] (emptyRoot 1)).fs.dentry 2).xattrlist =
          [⟨ascii "a", ascii "1"⟩] ∧
      (runEvents .ok 1 [.call (createCall "/d" true), .writeIndex none false,
        .call (setxattrCall "/d" "user.a" "1")] (emptyRoot 1)).fs.journal.journal = [] := by
  refine ⟨?_, by decide +kernel, by decide +kernel⟩
  rintro ⟨-, hkept, -⟩
  have hclean := (hkept.indexed none false rfl).1.clean 2 (by decide +kernel)
  revert hclean
  decide +kernel

end Run

end Ltfs.Fs

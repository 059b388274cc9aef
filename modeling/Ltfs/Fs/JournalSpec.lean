import Ltfs.Fs.Run

/-!
# What the journal has

While no directory is made or moved, `created_dirs` is empty, and every journal function
either fails for want of memory or adds one entry. `Journaled` is what the entries then say:
each dirty dentry of the tree has one of its own.

* `Appended` — one entry is added. `incjCreate_appended`, `incjModify_appended`,
  `incjRmfile_appended` and `incjRmdir_appended` are the journal functions.
* `Change.journaled` — the changes of a call keep `Journaled`, up to `journal_err`.
-/

namespace Ltfs.Fs

open Function Namespace Journal

/-! ## Journal functions -/

/-- The entry `ent` is added to the journal. -/
structure Appended (j j' : Journal) (ent : Jentry) : Prop where
  journal : j'.journal = j.journal ++ [ent]
  createdDirs : j'.createdDirs = j.createdDirs
  addr : ent.addr < j'.nextAddr
  nextAddr : j.nextAddr ≤ j'.nextAddr

section Functions

variable {j : Journal} {h : Alloc} (path : Path) (d : JournalTarget)

theorem inCreatedDirs_nil (hc : j.createdDirs = []) : j.inCreatedDirs path = false := by
  unfold inCreatedDirs
  rw [hc]
  rfl

/-- The key of `incj_modify` is the uid, and no entry has that. -/
theorem hashFind_uid (j : Journal) (n : ℕ) : j.hashFind (.uid n) = none := by
  unfold hashFind
  rw [List.find?_eq_none]
  intro ent _
  simp

/-- The key of `incj_rmfile` has the address of a new string, and no entry has that. -/
theorem hashFind_addr {a : ℕ} (hj : ∀ ent ∈ j.journal, ent.addr < a) :
    j.hashFind (.addr a) = none := by
  unfold hashFind
  rw [List.find?_eq_none]
  intro ent hent
  have := hj ent hent
  simp
  omega

theorem incjModify_appended (a : Alloc) (hq : ∀ b ∈ h, b = true) (hc : j.createdDirs = []) :
    (j.incjModify a h path d).journal.journalErr = true ∨
      ∃ ent, Appended j (j.incjModify a h path d).journal ent ∧ ent.dentry = some d.dentry ∧
        ent.reason = .modify := by
  unfold incjModify
  by_cases herr : j.journalErr = true
  · rw [if_pos herr]
    exact .inl herr
  · rw [if_neg herr, hashFind_uid, if_neg (by simp), inCreatedDirs_nil path hc, if_neg (by simp)]
    split
    · exact .inl rfl
    · simp only [hashAdd_quiet hq]
      exact .inr ⟨_, ⟨rfl, rfl, Nat.lt_succ_self _, Nat.le_succ _⟩, rfl, rfl⟩

/-- A dentry that is no directory leaves `created_dirs` alone. -/
theorem incjCreate_appended (a : Alloc) (hq : ∀ b ∈ h, b = true) (hc : j.createdDirs = [])
    (hdir : d.isdir = false) :
    (j.incjCreate a h path d).journal.journalErr = true ∨
      ∃ ent, Appended j (j.incjCreate a h path d).journal ent ∧ ent.dentry = some d.dentry ∧
        ent.reason = .create := by
  unfold incjCreate
  by_cases herr : j.journalErr = true
  · rw [if_pos herr]
    exact .inl herr
  · rw [if_neg herr, inCreatedDirs_nil path hc, if_neg (by simp)]
    split
    · exact .inl rfl
    · split
      · exact .inl rfl
      · simp only [hashAdd_quiet hq, hdir, Bool.false_eq_true, if_false]
        exact .inr ⟨_, ⟨rfl, rfl, Nat.lt_succ_self _, Nat.le_succ _⟩, rfl, rfl⟩

theorem addDeletion_appended (a : Alloc) (hq : ∀ b ∈ h, b = true) (reason : JournalReason) :
    (j.addDeletion a h path d reason).journal.journalErr = true ∨
      ∃ ent, Appended j (j.addDeletion a h path d reason).journal ent ∧ ent.dentry = none ∧
        ent.reason = reason := by
  unfold addDeletion
  split
  · exact .inl rfl
  · split
    · exact .inl rfl
    · split
      · exact .inl rfl
      · simp only [hashAdd_quiet hq]
        exact .inr ⟨_, ⟨rfl, rfl, Nat.lt_succ_self _, Nat.le_succ _⟩, rfl, rfl⟩

theorem incjRmfile_appended (a : Alloc) (hq : ∀ b ∈ h, b = true) (hc : j.createdDirs = [])
    (hj : ∀ ent ∈ j.journal, ent.addr < j.nextAddr) :
    (j.incjRmfile a h path d).journal.journalErr = true ∨
      ∃ ent, Appended j (j.incjRmfile a h path d).journal ent ∧ ent.dentry = none ∧
        ent.reason = .deleteFile := by
  unfold incjRmfile
  by_cases herr : j.journalErr = true
  · rw [if_pos herr]
    exact .inl herr
  · have hfind : hashFind { j with nextAddr := j.nextAddr + 1 } (.addr j.nextAddr) = none :=
      hashFind_addr hj
    rw [if_neg herr]
    dsimp only
    rw [hfind]
    dsimp only [Option.filter]
    rw [inCreatedDirs_nil (j := { j with nextAddr := j.nextAddr + 1 }) path hc, if_neg (by simp)]
    rcases addDeletion_appended (j := { j with nextAddr := j.nextAddr + 1 }) path d
      a hq .deleteFile with herr' | ⟨ent, happ, hent⟩
    · exact .inl herr'
    · refine .inr ⟨ent, ⟨happ.journal, happ.createdDirs, happ.addr, ?_⟩, hent⟩
      exact (Nat.le_succ _).trans happ.nextAddr

/-- The removal of a directory drops what has its path as a prefix. -/
theorem incjRmdir_appended (a : Alloc) (hq : ∀ b ∈ h, b = true) (hc : j.createdDirs = []) :
    (j.incjRmdir a h path d).journal.journalErr = true ∨
      ∃ ent, Appended { j with journal := j.journal.filter fun je => !startsWith je.fullPath path }
          (j.incjRmdir a h path d).journal ent ∧ ent.dentry = none ∧
        ent.reason = .deleteDirectory := by
  unfold incjRmdir
  by_cases herr : j.journalErr = true
  · rw [if_pos herr]
    exact .inl herr
  · have hscan : rmdirScan path j.createdDirs = ([], false) := by
      rw [hc]
      rfl
    rw [if_neg herr, hscan]
    dsimp only
    rw [if_neg (by simp)]
    have happ := addDeletion_appended path d a hq .deleteDirectory
      (j := { j with
        createdDirs := [], journal := j.journal.filter fun je => !startsWith je.fullPath path })
    rcases happ with herr' | ⟨ent, happ, hent⟩
    · exact .inl herr'
    · exact .inr ⟨ent, ⟨happ.journal, happ.createdDirs.trans hc.symm, happ.addr, happ.nextAddr⟩, hent⟩

theorem incjModify_err (a : Alloc) (herr : j.journalErr = true) :
    (j.incjModify a h path d).journal = j := by
  unfold incjModify
  rw [if_pos herr]

theorem incjCreate_err (a : Alloc) (herr : j.journalErr = true) :
    (j.incjCreate a h path d).journal = j := by
  unfold incjCreate
  rw [if_pos herr]

theorem incjRmfile_err (a : Alloc) (herr : j.journalErr = true) :
    (j.incjRmfile a h path d).journal = j := by
  unfold incjRmfile
  rw [if_pos herr]

theorem incjRmdir_err (a : Alloc) (herr : j.journalErr = true) :
    (j.incjRmdir a h path d).journal = j := by
  unfold incjRmdir
  rw [if_pos herr]

end Functions

/-! ## The invariant -/

/-- The dentry has an entry of its own: that it was made, or that it was modified. -/
def HasEntry (j : Journal) (d : ℕ) : Prop :=
  ∃ ent ∈ j.journal, ent.dentry = some d ∧ (ent.reason = .create ∨ ent.reason = .modify)

/-- Every dirty dentry of the tree has an entry of its own, and no directory was made. -/
structure Journaled (ns : Namespace) : Prop where
  own : ∀ d, ns.Attached d → (ns.dentry d).dirty = true → HasEntry ns.journal d
  created : ns.journal.createdDirs = []
  file : ∀ ent ∈ ns.journal.journal, ent.reason = .create → ∀ d, ent.dentry = some d →
    ns.Attached d → (ns.dentry d).isdir = false
  addr : ∀ ent ∈ ns.journal.journal, ent.addr < ns.journal.nextAddr

/-- `Journaled`, as long as there was memory for the journal. -/
def JournalOk (ns : Namespace) : Prop := ns.journal.journalErr = true ∨ Journaled ns

theorem HasEntry.append {j j' : Journal} {ent : Jentry} {d : ℕ} (h : HasEntry j d)
    (happ : Appended j j' ent) : HasEntry j' d := by
  obtain ⟨e, he, hd⟩ := h
  exact ⟨e, by rw [happ.journal]; exact List.mem_append_left _ he, hd⟩

theorem HasEntry.last {j j' : Journal} {ent : Jentry} {d : ℕ} (happ : Appended j j' ent)
    (hd : ent.dentry = some d) (hr : ent.reason = .create ∨ ent.reason = .modify) :
    HasEntry j' d :=
  ⟨ent, by rw [happ.journal]; simp, hd, hr⟩

namespace Journaled

variable {ns ns' : Namespace}

/-- Fewer dentries, and no new flags. -/
theorem mono (H : Journaled ns) (hj : ns'.journal = ns.journal)
    (hd : ∀ d, ns'.Attached d → ns.Attached d ∧ (ns'.dentry d).dirty = (ns.dentry d).dirty ∧
      (ns'.dentry d).isdir = (ns.dentry d).isdir) : Journaled ns' := by
  constructor
  · intro d ha hdirty
    obtain ⟨ha', hsame, -⟩ := hd d ha
    rw [hj]
    exact H.own d ha' (hsame ▸ hdirty)
  · rw [hj]
    exact H.created
  · rw [hj]
    intro ent hent hr d hed ha
    obtain ⟨ha', -, hsame⟩ := hd d ha
    rw [hsame]
    exact H.file ent hent hr d hed ha'
  · rw [hj]
    exact H.addr

/-- One more entry, with the flag of its dentry. `kept` is the journal without what the
function dropped. -/
theorem append (H : Journaled ns) {kept : Journal} {ent : Jentry}
    (happ : Appended kept ns'.journal ent) (hsub : ∀ e ∈ kept.journal, e ∈ ns.journal.journal)
    (hdirs : kept.createdDirs = ns.journal.createdDirs) (haddr : kept.nextAddr = ns.journal.nextAddr)
    (hown : ∀ d, ns'.Attached d → (ns'.dentry d).dirty = true →
      ent.dentry = some d ∧ (ent.reason = .create ∨ ent.reason = .modify) ∨ HasEntry kept d)
    (hent : ent.reason = .create → ∀ d, ent.dentry = some d → (ns'.dentry d).isdir = false)
    (hold : ∀ d, ns'.Attached d → ent.dentry = some d ∧ (ns'.dentry d).isdir = false ∨
      ns.Attached d ∧ (ns'.dentry d).isdir = (ns.dentry d).isdir) :
    Journaled ns' := by
  constructor
  · intro d ha hdirty
    rcases hown d ha hdirty with ⟨hd, hr⟩ | hold
    · exact HasEntry.last happ hd hr
    · exact hold.append happ
  · rw [happ.createdDirs, hdirs]
    exact H.created
  · intro e he hr d hd ha
    rw [happ.journal, List.mem_append, List.mem_singleton] at he
    rcases he with he | rfl
    · rcases hold d ha with ⟨-, hfile⟩ | ⟨ha', hsame⟩
      · exact hfile
      · rw [hsame]
        exact H.file e (hsub e he) hr d hd ha'
    · exact hent hr d hd
  · intro e he
    rw [happ.journal, List.mem_append, List.mem_singleton] at he
    rcases he with he | rfl
    · have hlt := H.addr e (hsub e he)
      have hle := happ.nextAddr
      omega
    · exact happ.addr

end Journaled

/-! ## Changes -/

section Changes

variable {T : Terms} {fs fs₁ fs' : State} {d p q : ℕ} {name : Path}

theorem Retouch.flags {b c : Dentry} (h : Retouch T b c) : c.dirty = b.dirty ∧ c.isdir = b.isdir := by
  cases h with
  | xattr _ _ h =>
    rw [h.same]
    exact ⟨rfl, rfl⟩
  | data => exact ⟨rfl, rfl⟩
  | symlink => exact ⟨rfl, rfl⟩
  | length => exact ⟨rfl, rfl⟩

/-- One dentry changes, but not its flag. -/
theorem Touch.journaled {b : Dentry} (h : Touch fs fs' d b) (hdirty : b.dirty = (fs.dentry d).dirty)
    (hshape : b.shape = (fs.dentry d).shape) (H : Journaled fs.toNamespace) :
    Journaled fs'.toNamespace := by
  apply H.mono h.journal
  intro x ha
  refine ⟨(h.sameShape hshape).attached_iff.mp ha, ?_⟩
  by_cases hx : x = d
  · subst hx
    rw [h.get]
    exact ⟨hdirty, congrArg (fun s => s.2.2.1) hshape⟩
  · rw [h.dentry, update_of_ne hx]
    exact ⟨rfl, rfl⟩

theorem Kept.journaled (h : Kept fs.toNamespace fs'.toNamespace) (H : Journaled fs.toNamespace) :
    Journaled fs'.toNamespace := by
  apply H.mono h.journal
  intro x ha
  have ha' := h.sameShape.attached_iff.mp ha
  rw [h.attached x ha']
  exact ⟨ha', rfl, rfl⟩

/-- A flag is set and noted, unless it was set before. -/
theorem Dirtied.journalOk (h : Dirtied fs fs' d) (hq : HashQuiet fs)
    (H : Journaled fs.toNamespace) : JournalOk fs'.toNamespace := by
  have hattached : ∀ x, fs'.Attached x ↔ fs.Attached x := fun x => h.sameShape.attached_iff
  have hisdir : ∀ x, (fs'.dentry x).isdir = (fs.dentry x).isdir := by
    intro x
    rw [h.dentry]
    by_cases hx : x = d
    · rw [hx, update_self]
    · rw [update_of_ne hx]
  have hothers : ∀ x, x ≠ d → (fs'.dentry x).dirty = (fs.dentry x).dirty := by
    intro x hx
    rw [h.dentry, update_of_ne hx]
  cases hd : (fs.dentry d).dirty with
  | true =>
    right
    apply H.mono (h.silent hd)
    intro x ha
    refine ⟨(hattached x).mp ha, ?_, hisdir x⟩
    by_cases hx : x = d
    · rw [hx, h.dentry, update_self, hd]
    · exact hothers x hx
  | false =>
    rcases h.noted hd with herr | ⟨a, hj⟩
    · exact .inl herr
    · rcases incjModify_appended (j := fs.journal)
        (fs.layDirs (fs.inodeNumber + 1) none d) (fs.journalTarget d) a hq H.created
        with herr | ⟨ent, happ, hent, hr⟩
      · rw [← hj] at herr
        exact .inl herr
      · rw [← hj] at happ
        right
        refine H.append happ (fun _ he => he) rfl rfl ?_ ?_ ?_
        · intro x ha hdirty
          by_cases hx : x = d
          · subst hx
            exact .inl ⟨hent, .inr hr⟩
          · rw [hothers x hx] at hdirty
            exact .inr (H.own x ((hattached x).mp ha) hdirty)
        · intro hcreate
          rw [hr] at hcreate
          cases hcreate
        · intro x ha
          exact .inr ⟨(hattached x).mp ha, hisdir x⟩

theorem Created.journalOk {dir : Path} {uid : ℕ} {readonly : Bool} (I : fs.TreeInv)
    (h : Created fs fs' dir p d name uid false readonly) (H : Journaled fs.toNamespace) :
    JournalOk fs'.toNamespace := by
  have hattached : ∀ x, x ≠ d → (fs'.Attached x ↔ fs.Attached x) :=
    fun x hx => (h.relink I).attached_iff hx
  -- the directory gets an entry in its list, the others get nothing
  have hothers : ∀ x, x ≠ d → (fs'.dentry x).dirty = (fs.dentry x).dirty ∧
      (fs'.dentry x).isdir = (fs.dentry x).isdir := by
    intro x hx
    by_cases hxp : x = p
    · rw [hxp, h.link.target]
      exact ⟨rfl, rfl⟩
    · rw [h.link.others x hxp hx]
      exact ⟨rfl, rfl⟩
  have hfile : (fs'.dentry d).isdir = false := by
    rw [h.link.new]
    rfl
  obtain ⟨a, l, hl, hj⟩ := h.journal
  rcases incjCreate_appended (j := fs.journal) dir ⟨d, uid, name, false⟩ a hl
    H.created rfl with herr | ⟨ent, happ, hent, hr⟩
  · rw [← hj] at herr
    exact .inl herr
  · rw [← hj] at happ
    right
    refine H.append happ (fun _ he => he) rfl rfl ?_ ?_ ?_
    · intro x ha hdirty
      by_cases hx : x = d
      · subst hx
        exact .inl ⟨hent, .inl hr⟩
      · rw [(hothers x hx).1] at hdirty
        exact .inr (H.own x ((hattached x hx).mp ha) hdirty)
    · intro _ x hx
      rw [hent] at hx
      obtain rfl := Option.some.inj hx
      exact hfile
    · intro x ha
      by_cases hx : x = d
      · subst hx
        exact .inl ⟨hent, hfile⟩
      · exact .inr ⟨(hattached x hx).mp ha, (hothers x hx).2⟩

/-- What is detached is no dentry of the tree any more. -/
theorem Detached.attached (I : fs.TreeInv) (h : Detached fs fs' p d) {x : ℕ} (ha : fs'.Attached x) :
    x ≠ d ∧ fs.Attached x ∧ (fs'.dentry x).dirty = (fs.dentry x).dirty ∧
      (fs'.dentry x).isdir = (fs.dentry x).isdir := by
  have hrel := h.relink I
  have hx : x ≠ d := by
    rintro rfl
    rcases ha with ha | ha
    · exact h.ne_root I (ha.trans hrel.root)
    · exact ha (by rw [hrel.parent, if_pos rfl])
  refine ⟨hx, (hrel.attached_iff hx).mp ha, ?_⟩
  by_cases hxp : x = p
  · rw [hxp, h.unlink.source]
    exact ⟨rfl, rfl⟩
  · rw [h.unlink.others x hxp hx]
    exact ⟨rfl, rfl⟩

/-- An unlink drops entries of the dentry that goes, and of none that stays. -/
theorem Detached.journalOk (I : fs.TreeInv) (h : Detached fs fs' p d) {path : Path}
    (hjournal : ∃ a h, (∀ x ∈ h, x = true) ∧ fs'.journal =
      (if (fs.dentry d).isdir then fs.journal.incjRmdir a h path (fs.journalTarget d)
        else fs.journal.incjRmfile a h path (fs.journalTarget d)).journal)
    (hkeeps : (fs.dentry d).isdir = true → DropsOwn fs.toNamespace path d)
    (H : Journaled fs.toNamespace) : JournalOk fs'.toNamespace := by
  obtain ⟨a, l, hl, hj⟩ := hjournal
  have hstays := fun x (ha : fs'.Attached x) => h.attached I ha
  cases hdir : (fs.dentry d).isdir with
  | false =>
    rw [hdir, if_neg (by simp)] at hj
    rcases incjRmfile_appended (j := fs.journal) path (fs.journalTarget d) a hl
      H.created H.addr with herr | ⟨ent, happ, hent, hr⟩
    · rw [← hj] at herr
      exact .inl herr
    · rw [← hj] at happ
      right
      refine H.append happ (fun _ he => he) rfl rfl ?_ ?_ ?_
      · intro x ha hdirty
        rw [(hstays x ha).2.2.1] at hdirty
        exact .inr (H.own x (hstays x ha).2.1 hdirty)
      · intro hcreate
        rw [hr] at hcreate
        cases hcreate
      · intro x ha
        exact .inr ⟨(hstays x ha).2.1, (hstays x ha).2.2.2⟩
  | true =>
    rw [hdir, if_pos rfl] at hj
    rcases incjRmdir_appended (j := fs.journal) path (fs.journalTarget d) a hl
      H.created with herr | ⟨ent, happ, hent, hr⟩
    · rw [← hj] at herr
      exact .inl herr
    · rw [← hj] at happ
      right
      refine H.append happ (fun _ he => List.mem_of_mem_filter he) rfl rfl ?_ ?_ ?_
      · intro x ha hdirty
        rw [(hstays x ha).2.2.1] at hdirty
        obtain ⟨e, he, hed, her⟩ := H.own x (hstays x ha).2.1 hdirty
        right
        refine ⟨e, ?_, hed, her⟩
        rw [List.mem_filter]
        refine ⟨he, ?_⟩
        -- an entry that is dropped would be one of the directory
        by_contra hdrop
        have hprefix : startsWith e.fullPath path = true := by simpa using hdrop
        exact (hstays x ha).1 (hkeeps hdir e he hprefix x hed (hstays x ha).2.1)
      · intro hcreate
        rw [hr] at hcreate
        cases hcreate
      · intro x ha
        exact .inr ⟨(hstays x ha).2.1, (hstays x ha).2.2.2⟩

/-- What stood at the destination leaves the tree, and the journal does not hear of it. -/
theorem Cleared.journaled (I : fs.TreeInv) (h : Cleared T fs fs' q d name)
    (H : Journaled fs.toNamespace) : Journaled fs'.toNamespace := by
  cases h with
  | unused heq _ =>
    rw [heq]
    exact H
  | self heq _ =>
    rw [heq]
    exact H
  | replaced t fs₁ _ _ hd hk _ _ hj _ =>
    apply Kept.journaled hk
    apply H.mono hj
    intro x ha
    exact (hd.attached I ha).2

theorem Cleared.isdir (h : Cleared T fs fs' q d name) (I : fs.TreeInv) (hd : fs'.Attached d) :
    (fs'.dentry d).isdir = (fs.dentry d).isdir := by
  cases h with
  | unused heq _ => rw [heq]
  | self heq _ => rw [heq]
  | replaced t fs₁ _ _ hdet hk _ _ _ _ =>
    have ha := hk.sameShape.attached_iff.mp hd
    rw [hk.attached d ha]
    exact (hdet.attached I ha).2.2.2

/-- A file that moves is deleted at its old place and made at the new one. -/
theorem Moved.journalOk {fromPath toDir : Path} (I : fs.TreeInv)
    (h : Moved fs fs' fromPath toDir p q d name) (hfile : (fs.dentry d).isdir = false)
    (H : Journaled fs.toNamespace) : JournalOk fs'.toNamespace := by
  have hrel := h.relink I
  have hothers : ∀ x, x ≠ d → (fs'.dentry x).dirty = (fs.dentry x).dirty ∧
      (fs'.dentry x).isdir = (fs.dentry x).isdir := by
    intro x hx
    by_cases hxq : x = q
    · rw [hxq, h.move.target]
      split
      · rename_i hqp
        rw [hqp]
        exact ⟨rfl, rfl⟩
      · exact ⟨rfl, rfl⟩
    · by_cases hxp : x = p
      · rw [hxp, h.move.source fun hpq => hxq (hxp.trans hpq)]
        exact ⟨rfl, rfl⟩
      · rw [h.move.others x hxp hxq hx]
        exact ⟨rfl, rfl⟩
  have hfile' : (fs'.dentry d).isdir = false := by
    rw [h.move.moved]
    exact hfile
  obtain ⟨a, a', l, l', hl, hl', hj⟩ := h.journal
  rw [hfile, if_neg (by simp)] at hj
  rcases incjRmfile_appended (j := fs.journal) fromPath
    ⟨d, (fs.dentry d).uid, name, false⟩ a hl H.created H.addr with herr | ⟨ent, happ, hent, hr⟩
  · rw [incjCreate_err _ _ a' herr] at hj
    rw [← hj] at herr
    exact .inl herr
  · rcases incjCreate_appended (j := (fs.journal.incjRmfile a l fromPath
        ⟨d, (fs.dentry d).uid, name, false⟩).journal) toDir
        ⟨d, (fs.dentry d).uid, name, false⟩ a' hl' (happ.createdDirs.trans H.created) rfl
      with herr | ⟨ent', happ', hent', hr'⟩
    · rw [← hj] at herr
      exact .inl herr
    · rw [← hj] at happ'
      right
      -- two entries, of which the second is that of the dentry
      have hattached : ∀ x, x ≠ d → (fs'.Attached x ↔ fs.Attached x) := fun x hx =>
        hrel.attached_iff hx
      constructor
      · intro x ha hdirty
        by_cases hx : x = d
        · subst hx
          exact HasEntry.last happ' hent' (.inl hr')
        · rw [(hothers x hx).1] at hdirty
          exact ((H.own x ((hattached x hx).mp ha) hdirty).append happ).append happ'
      · rw [happ'.createdDirs, happ.createdDirs]
        exact H.created
      · intro e he hcreate x hex ha
        by_cases hx : x = d
        · rw [hx]
          exact hfile'
        · rw [happ'.journal, happ.journal] at he
          simp only [List.mem_append, List.mem_singleton] at he
          rw [(hothers x hx).2]
          rcases he with (he | rfl) | rfl
          · exact H.file e he hcreate x hex ((hattached x hx).mp ha)
          · rw [hr] at hcreate
            cases hcreate
          · rw [hent'] at hex
            exact absurd (Option.some.inj hex).symm hx
      · intro e he
        rw [happ'.journal, happ.journal] at he
        simp only [List.mem_append, List.mem_singleton] at he
        have h₁ := happ.nextAddr
        have h₂ := happ'.nextAddr
        rcases he with (he | rfl) | rfl
        · have := H.addr e he
          omega
        · have := happ.addr
          omega
        · exact happ'.addr

/-- No change of a call brings the error flag down. -/
theorem Change.journalErr (h : Change T fs fs') (herr : fs.journal.journalErr = true) :
    fs'.journal.journalErr = true := by
  cases h with
  | kept h =>
    rw [h.journal]
    exact herr
  | touch d b h _ =>
    rw [h.journal]
    exact herr
  | mark d b fs₁ h _ hd _ =>
    rw [← h.journal] at herr
    cases hdirty : (fs₁.dentry d).dirty with
    | true =>
      rw [hd.silent hdirty]
      exact herr
    | false =>
      rcases hd.noted hdirty with herr' | ⟨a, hj⟩
      · exact herr'
      · rw [hj, incjModify_err _ _ a herr]
        exact herr
  | count d u fs₁ h hcount _ =>
    rw [← h.journal] at herr
    rcases hcount with hcount | ⟨hcount, -⟩
    · rw [hcount]
      exact herr
    · rw [hcount]
      exact herr
  | create dir p d name uid isdir readonly h _ =>
    obtain ⟨a, l, -, hj⟩ := h.journal
    rw [hj, incjCreate_err _ _ a herr]
    exact herr
  | unlink path p d h _ _ _ hj _ =>
    obtain ⟨a, l, -, hj⟩ := hj
    rw [hj]
    split
    · rw [incjRmdir_err _ _ a herr]
      exact herr
    · rw [incjRmfile_err _ _ a herr]
      exact herr
  | rename fromPath toDir p q d name fs₁ _ _ _ hc h _ =>
    obtain ⟨a, a', l, l', -, -, hj⟩ := h.journal
    have herr₁ : fs₁.journal.journalErr = true := by
      cases hc with
      | unused heq _ =>
        rw [heq]
        exact herr
      | self heq _ =>
        rw [heq]
        exact herr
      | replaced t fs₂ _ _ _ hk _ _ hj _ =>
        rw [hk.journal, hj]
        exact herr
    rw [hj]
    split
    · rw [incjRmdir_err _ _ a herr₁, incjCreate_err _ _ a' herr₁]
      exact herr₁
    · rw [incjRmfile_err _ _ a herr₁, incjCreate_err _ _ a' herr₁]
      exact herr₁

/-- The changes of a call keep the journal complete, where the terms say that it is kept up. -/
theorem Change.journalOk (hT : T.journal) (I : fs.TreeInv) (h : Change T fs fs')
    (H : JournalOk fs.toNamespace) : JournalOk fs'.toNamespace := by
  rcases H with herr | H
  · exact .inl (h.journalErr herr)
  · cases h with
    | kept h => exact .inr (Kept.journaled h H)
    | touch d b h hb => exact .inr (h.journaled hb.flags.1 hb.shape H)
    | mark d b fs₁ h hb hd hq =>
      exact hd.journalOk (h.quiet hq) (h.journaled hb.flags.1 hb.shape H)
    | count d u fs₁ h hcount _ =>
      have H₁ := h.journaled rfl rfl H
      right
      rcases hcount with hcount | ⟨hcount, -⟩
      · rw [hcount]
        exact ⟨H₁.own, H₁.created, H₁.file, H₁.addr⟩
      · rw [hcount]
        exact H₁
    | create dir p d name uid isdir readonly h hfile =>
      obtain rfl := hfile hT
      exact h.journalOk I H
    | unlink path p d h _ _ _ hj hkeeps => exact h.journalOk I hj (hkeeps hT) H
    | rename fromPath toDir p q d name fs₁ _ _ _ hc h hfile =>
      have hd : fs₁.Attached d := .inr (by simp [h.ready.parent])
      refine h.journalOk (hc.treeInv I) ?_ (hc.journaled I H)
      rw [hc.isdir I hd]
      exact hfile hT

end Changes

end Ltfs.Fs

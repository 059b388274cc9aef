import Ltfs.Fs.IndexXml

/-!
# The structure of an incremental index

Between its header and its end an incremental index is meant to be one tree of elements:
every journal entry is an element, below `directory` and `contents` elements for the
components of its parent path. The writer moves from the parent of one entry to the next by
closing and opening directories.

* `Structured` — the tree it is meant to be.
* `xmlWriteFile_element`, `xmlWriteDirtree_element` — what is written for a new object is an
  element of its own.
* `xmlOpenIncrementalDirs_calls` — opening directories leaves one element open for each of
  them, not two.
* `inc_journal_structured_iff` — so the tree is right only if every entry lies in the root.
-/

namespace Ltfs.Fs

open Lib.Markup

/-! ## What the index is meant to be -/

/-- An element that stands for a file or a directory. -/
def IsEntryTag (tag : Tag) : Prop := tag = .directory ∨ tag = .file

/-- The open elements are those of a parent path: a `contents` element in a `directory`
element for the root and for each component, which names it. -/
inductive AtParent : List Path → List (Opened Tag Leaf) → Prop
  | root {c d : Opened Tag Leaf} : c.tag = .contents → d.tag = .directory → AtParent [] [c, d]
  | child {names : List Path} {name : Path} {c d : Opened Tag Leaf} {s : List (Opened Tag Leaf)} :
      AtParent names s → c.tag = .contents → d.tag = .directory →
      d.leaves.head? = some (.nametype .name name) → AtParent (names ++ [name]) (c :: d :: s)

/-- The names of the open directories. -/
def directoryNames (s : List (Opened Tag Leaf)) : List (Option Leaf) :=
  (s.filter fun o => o.tag == .directory).map fun o => o.leaves.head?

/-- The directories that calls open, by the names of their paths: one is known when its name
is written. -/
def openedDirectories : List XmlCall → List (Opened Tag Leaf) → List (List (Option Leaf))
  | [], _ => []
  | c :: calls, s =>
    match c.step s with
    | none => []
    | some s' =>
      match c, s with
      | .leaf (.nametype .name _), ⟨.directory, []⟩ :: _ =>
        directoryNames s' :: openedDirectories calls s'
      | _, _ => openedDirectories calls s'

/-- The directories opened on the way to the parents of entries. -/
def openedOnWay : List EntryCalls → List (Opened Tag Leaf) → List (List (Option Leaf))
  | [], _ => []
  | e :: rest, s =>
    openedDirectories e.travel s ++ openedOnWay rest ((runCalls (e.travel ++ e.own) s).getD [])

/-- The calls written for a journal are one element; every entry is an element, at its parent;
and no directory is opened twice on the way. -/
structure IncOutput.Structured (out : IncOutput) (journal : List Jentry) : Prop where
  complete : out.entries.map EntryCalls.ent = journal
  balanced : IsElement (· = .directory) out.calls
  nested : ∀ before e after, out.entries = before ++ e :: after →
    ∃ s, runCalls (out.opening ++ before.flatMap (fun b => b.travel ++ b.own) ++ e.travel) [] = some s ∧
      AtParent (strtokNames (parentPath e.ent.fullPath)) s ∧ IsElement IsEntryTag e.own
  openedOnce : (openedOnWay out.entries ((runCalls out.opening []).getD [])).Nodup

/-! ## When it is -/

/-- The parent path of the entry is that of the root. -/
def liesInRoot (ent : Jentry) : Bool :=
  (parentPath ent.fullPath).head? == some slash &&
    (strtokNames (parentPath ent.fullPath)).isEmpty

/-- The entry is not the modification of a directory. Entries for a creation or a modification
have their dentry. -/
def writesElement (fs : State) (ent : Jentry) : Bool :=
  match ent.reason, ent.dentry with
  | .create, some _ => true
  | .modify, some d => !(fs.dentry d).isdir
  | .deleteFile, _ => true
  | .deleteDirectory, _ => true
  | _, none => false

/-! ## The elements -/

section Content

theorem content_leaves {l : List XmlCall} (h : ∀ c ∈ l, ∃ x, c = .leaf x) : Content l := by
  induction l with
  | nil => exact .nil
  | cons c l ih =>
    rcases h c (by simp) with ⟨x, rfl⟩
    exact .leaf x (ih fun c hc => h c (by simp [hc]))

theorem content_element (tag : Tag) {body : List XmlCall} (h : Content body) :
    Content (.start tag :: (body ++ [.stop])) :=
  .element tag h .nil

theorem xmlWriteDentryTimes_content : Content xmlWriteDentryTimes := by
  apply content_leaves
  simp [xmlWriteDentryTimes]

theorem xmlWriteXattr_content (b : Dentry) : Content (xmlWriteXattr b) := by
  unfold xmlWriteXattr
  split
  · exact .nil
  · apply content_element
    apply Content.flatMap
    intro xattr _
    unfold xmlWriteXattrEntry
    apply content_element
    apply Content.append
    · exact .leaf _ .nil
    · split
      · exact content_element .value .nil
      · split
        · exact .leaf _ .nil
        · exact content_element .value (.leaf _ .nil)

theorem incrementalAttributes_content (b : Dentry) : Content (State.incrementalAttributes b) := by
  unfold State.incrementalAttributes
  apply Content.append
  · apply Content.append
    · split
      · exact .leaf _ xmlWriteDentryTimes_content
      · exact .nil
    · exact .leaf _ .nil
  · split
    · exact xmlWriteXattr_content b
    · exact .nil

theorem directoryName_content (fs : State) (volumeName : Option Path) (dir : ℕ) :
    Content (fs.directoryName volumeName dir) := by
  unfold State.directoryName
  split
  · cases volumeName with
    | none => exact content_element .name .nil
    | some name => exact .leaf _ .nil
  · exact .leaf _ .nil

/-- A file is an element. -/
theorem xmlWriteFile_element (fs : State) (d : ℕ) : IsElement IsEntryTag (fs.xmlWriteFile d).1 := by
  refine ⟨.file, _, .inr rfl, ?_, rfl⟩
  have hextents : Content (if (fs.dentry d).isslink then
        [.leaf (.nametype .symlink (fs.dentry d).target)]
      else if (fs.dentry d).extentlist = [] then []
      else (.start .extentinfo :: ((fs.dentry d).extentlist.flatMap xmlWriteExtent ++ [.stop]) :
        List XmlCall)) := by
    split
    · exact .leaf _ .nil
    · split
      · exact .nil
      · apply content_element
        apply Content.flatMap
        intro extent _
        unfold xmlWriteExtent
        exact content_element .extent (.leaf _ (.leaf _ (.leaf _ (.leaf _ (.leaf _ .nil)))))
  refine Content.append (Content.append (Content.append (Content.append ?_ ?_) ?_) ?_) hextents
  · exact content_leaves (by simp)
  · exact xmlWriteDentryTimes_content
  · exact .leaf _ .nil
  · exact xmlWriteXattr_content _

/-- So is the deletion of an object. -/
theorem xmlWriteIncrementalDelete_element {tag : Tag} (h : IsEntryTag tag) (name : Path) :
    IsElement IsEntryTag (State.xmlWriteIncrementalDelete tag name) :=
  ⟨tag, _, h, .leaf _ (content_element .deleted .nil), rfl⟩

/-- A directory with everything below it, if what is written below it is content. -/
theorem xmlWriteDirtree_step {volumeName : Option Path} {fuel : ℕ}
    (ih : ∀ (fs : State) (dir : ℕ), Content (State.xmlWriteDirtree volumeName fuel fs dir).1)
    (fs : State) (dir : ℕ) :
    IsElement IsEntryTag (State.xmlWriteDirtree volumeName (fuel + 1) fs dir).1 := by
  have hchildren : ∀ (l : List ℕ) (r : List XmlCall × State), Content r.1 →
      Content (l.foldl (fun (r : List XmlCall × State) d =>
        let w :=
          if (r.2.dentry d).isdir then State.xmlWriteDirtree volumeName fuel r.2 d
          else r.2.xmlWriteFile d
        (r.1 ++ w.1, w.2)) r).1 := by
    intro l
    induction l with
    | nil => exact fun _ h => h
    | cons d l ihl =>
      intro r h
      refine ihl _ (h.append ?_)
      split
      · exact ih r.2 d
      · exact (xmlWriteFile_element r.2 d).content
  refine ⟨.directory, _, .inl rfl, ?_, rfl⟩
  refine Content.append (Content.append (Content.append (Content.append (Content.append ?_ ?_) ?_)
    ?_) ?_) (content_element .contents (hchildren _ _ .nil))
  · exact directoryName_content fs volumeName dir
  · exact .leaf _ .nil
  · exact xmlWriteDentryTimes_content
  · exact .leaf _ .nil
  · exact xmlWriteXattr_content _

theorem xmlWriteDirtree_content (volumeName : Option Path) (fuel : ℕ) : ∀ (fs : State) (dir : ℕ),
    Content (State.xmlWriteDirtree volumeName fuel fs dir).1 := by
  induction fuel with
  | zero => exact fun _ _ => .nil
  | succ fuel ih => exact fun fs dir => (xmlWriteDirtree_step ih fs dir).content

/-- So a directory with everything below it is an element as well. -/
theorem xmlWriteDirtree_element (volumeName : Option Path) (fuel : ℕ) (fs : State) (dir : ℕ) :
    IsElement IsEntryTag (State.xmlWriteDirtree volumeName (fuel + 1) fs dir).1 :=
  xmlWriteDirtree_step (xmlWriteDirtree_content volumeName fuel) fs dir

end Content

/-! ## Only dirty flags change -/

/-- Some dentries are not dirty any more. -/
structure Cleans (fs fs' : State) : Prop where
  dentry : ∀ d, fs'.dentry d = fs.dentry d ∨ fs'.dentry d = { fs.dentry d with dirty := false }
  frame : fs' = { fs with dentry := fs'.dentry }

namespace Cleans

variable {fs fs₁ fs' : State}

theorem refl (fs : State) : Cleans fs fs := ⟨fun _ => .inl rfl, rfl⟩

theorem trans (h : Cleans fs fs₁) (h' : Cleans fs₁ fs') : Cleans fs fs' := by
  constructor
  · intro d
    rcases h'.dentry d with h' | h' <;> rcases h.dentry d with h | h <;> rw [h', h]
    · exact .inl rfl
    · exact .inr rfl
    · exact .inr rfl
    · exact .inr rfl
  · rw [h'.frame, h.frame]

theorem isdir (h : Cleans fs fs') (d : ℕ) : (fs'.dentry d).isdir = (fs.dentry d).isdir := by
  rcases h.dentry d with h | h <;> rw [h]

theorem clean (fs : State) (d : ℕ) : Cleans fs (fs.clean d) := by
  constructor
  · intro x
    by_cases hx : x = d
    · subst hx
      exact .inr (by simp [State.clean, State.modify])
    · exact .inl (by simp [State.clean, State.modify, hx])
  · rfl

end Cleans

theorem xmlWriteDirtree_cleans (volumeName : Option Path) (fuel : ℕ) : ∀ (fs : State) (dir : ℕ),
    Cleans fs (State.xmlWriteDirtree volumeName fuel fs dir).2 := by
  induction fuel with
  | zero => exact fun fs _ => Cleans.refl fs
  | succ fuel ih =>
    intro fs dir
    show Cleans fs ((fs.childrenByUid dir).foldl _ ([], fs)).2
    generalize fs.childrenByUid dir = l
    generalize ([] : List XmlCall) = calls
    induction l generalizing fs calls with
    | nil => exact Cleans.refl fs
    | cons d l ihl =>
      rw [List.foldl_cons]
      split
      · exact (ih fs d).trans (ihl _ _)
      · exact (Cleans.clean fs d).trans (ihl _ _)

theorem xmlWriteJentry_cleans {fs fs' : State} {volumeName : Option Path} {ent : Jentry}
    {own : List XmlCall} (h : fs.xmlWriteJentry volumeName ent = some (own, fs')) :
    Cleans fs fs' := by
  unfold State.xmlWriteJentry at h
  split at h
  · split at h
    · rw [Option.some.injEq] at h
      have hc := xmlWriteDirtree_cleans volumeName (fs.inodeNumber + 1) fs ‹_›
      rw [h] at hc
      exact hc
    · obtain ⟨-, rfl⟩ := Prod.mk.inj (Option.some.inj h)
      exact Cleans.clean fs _
  · split at h
    · obtain ⟨-, rfl⟩ := Prod.mk.inj (Option.some.inj h)
      exact Cleans.clean fs _
    · obtain ⟨-, rfl⟩ := Prod.mk.inj (Option.some.inj h)
      exact Cleans.clean fs _
  · obtain ⟨-, rfl⟩ := Prod.mk.inj (Option.some.inj h)
    exact Cleans.refl fs
  · obtain ⟨-, rfl⟩ := Prod.mk.inj (Option.some.inj h)
    exact Cleans.refl fs
  · cases h

/-! ## Opening directories -/

/-- Each directory that is opened leaves one more element open: the one for its name is closed
at once. -/
theorem xmlOpenIncrementalDirs_calls (dirs : List (Option ℕ)) : ∀ {fs : State}
    {r : List XmlCall × State}, fs.xmlOpenIncrementalDirs dirs = some r →
    r.1.countP Call.isStart = r.1.countP Call.isStop + dirs.length := by
  induction dirs with
  | nil =>
    intro fs r h
    obtain rfl := Option.some.inj h
    rfl
  | cons d dirs ih =>
    intro fs r h
    cases d with
    | none => cases h
    | some dir =>
      unfold State.xmlOpenIncrementalDirs at h
      rcases Option.map_eq_some_iff.mp h with ⟨r', hr', rfl⟩
      have hrest := ih hr'
      have hattrs := (incrementalAttributes_content (fs.dentry dir)).countP
      simp only [State.xmlOpenIncrementalDir, State.xmlOpenIncrementalDirEnt, List.cons_append,
        List.countP_cons, List.countP_append, Call.isStart, Call.isStop, List.countP_nil,
        List.length_cons] at hrest hattrs ⊢
      simp
      omega

theorem pushDirectories_length (fs : State) (names : List Path) : ∀ {p : Option ℕ}
    {new : List (Option ℕ)}, fs.pushDirectories p names = some new → new.length = names.length := by
  induction names with
  | nil =>
    intro p new h
    unfold State.pushDirectories at h
    obtain rfl := Option.some.inj h
    rfl
  | cons name names ih =>
    intro p new h
    cases p with
    | none => cases h
    | some parent =>
      unfold State.pushDirectories at h
      split at h
      · cases h
      · rcases Option.map_eq_some_iff.mp h with ⟨rest, hrest, rfl⟩
        rw [List.length_cons, List.length_cons, ih hrest]

/-- From the root, the way to the root is no way, and any other way opens one element for each
component. -/
theorem xmlGotoIncrementParent_root {fs fs' : State} {ent : Jentry} {travel : List XmlCall}
    {cur : List ℕ} (h : fs.xmlGotoIncrementParent ent [] = .arrived travel cur fs') :
    (parentPath ent.fullPath).head? = some slash ∧
      (strtokNames (parentPath ent.fullPath) = [] ∧ travel = [] ∧ cur = [] ∧ fs' = fs ∨
        strtokNames (parentPath ent.fullPath) ≠ [] ∧ travel.countP Call.isStart
          = travel.countP Call.isStop + (strtokNames (parentPath ent.fullPath)).length) := by
  unfold State.xmlGotoIncrementParent at h
  dsimp only at h
  split at h
  · cases h
  · rename_i habs
    refine ⟨not_not.mp habs, ?_⟩
    generalize strtokNames (parentPath ent.fullPath) = names at h
    split at h
    · cases h
    · rename_i new hpush
      have hlen := pushDirectories_length fs names hpush
      have hzero : incjComparePath [] new = 0 := rfl
      rw [hzero, List.map_nil, List.drop_zero] at h
      split at h
      · rename_i hnew
        rw [hnew] at hlen
        obtain ⟨rfl, rfl, rfl⟩ := State.Goto.arrived.inj h
        exact .inl ⟨List.length_eq_zero_iff.mp hlen.symm, rfl, rfl, rfl⟩
      · rename_i hnew
        split at h
        · cases h
        · rename_i r hopen
          obtain ⟨rfl, -, -⟩ := State.Goto.arrived.inj h
          right
          constructor
          · rintro rfl
            exact hnew (List.length_eq_zero_iff.mp hlen)
          · have hcalls := xmlOpenIncrementalDirs_calls new hopen
            rw [hlen] at hcalls
            exact hcalls

theorem xmlGotoIncrementParent_lies {fs : State} {ent : Jentry} (h : liesInRoot ent = true) :
    fs.xmlGotoIncrementParent ent [] = .arrived [] [] fs := by
  unfold liesInRoot at h
  rw [Bool.and_eq_true, beq_iff_eq, List.isEmpty_iff] at h
  unfold State.xmlGotoIncrementParent
  dsimp only
  rw [if_neg (by simp [h.1]), h.2]
  rfl

/-! ## The entries -/

/-- An entry is written as an element unless it is the modification of a directory. -/
theorem xmlWriteJentry_element {fs₀ fs : State} (hc : Cleans fs₀ fs) (volumeName : Option Path)
    {ent : Jentry} (h : writesElement fs₀ ent = true) :
    ∃ own fs', fs.xmlWriteJentry volumeName ent = some (own, fs') ∧ IsElement IsEntryTag own := by
  unfold writesElement at h
  unfold State.xmlWriteJentry
  cases hreason : ent.reason with
  | create =>
    cases hd : ent.dentry with
    | none => simp [hreason, hd] at h
    | some d =>
      dsimp only
      split
      · exact ⟨_, _, rfl, xmlWriteDirtree_element volumeName fs.inodeNumber fs d⟩
      · exact ⟨_, _, rfl, xmlWriteFile_element fs d⟩
  | modify =>
    cases hd : ent.dentry with
    | none => simp [hreason, hd] at h
    | some d =>
      have hfile : (fs.dentry d).isdir = false := by
        rw [hc.isdir]
        simpa [hreason, hd] using h
      dsimp only
      rw [hfile]
      exact ⟨_, _, rfl, xmlWriteFile_element fs d⟩
  | deleteFile => exact ⟨_, _, rfl, xmlWriteIncrementalDelete_element (.inr rfl) ent.name⟩
  | deleteDirectory => exact ⟨_, _, rfl, xmlWriteIncrementalDelete_element (.inl rfl) ent.name⟩

theorem writesElement_of_element {fs₀ fs fs' : State} (hc : Cleans fs₀ fs)
    {volumeName : Option Path} {ent : Jentry} {own : List XmlCall}
    (h : fs.xmlWriteJentry volumeName ent = some (own, fs')) (hown : IsElement IsEntryTag own) :
    writesElement fs₀ ent = true := by
  unfold State.xmlWriteJentry at h
  unfold writesElement
  cases hreason : ent.reason with
  | create =>
    cases hd : ent.dentry with
    | none =>
      rw [hreason, hd] at h
      cases h
    | some d => rfl
  | modify =>
    cases hd : ent.dentry with
    | none =>
      rw [hreason, hd] at h
      cases h
    | some d =>
      rw [hreason, hd] at h
      dsimp only at h ⊢
      cases hdir : (fs.dentry d).isdir with
      | false =>
        rw [hc.isdir] at hdir
        rw [hdir]
        rfl
      | true =>
        -- the attributes of a directory do not start an element
        rw [hdir, if_pos rfl] at h
        obtain ⟨rfl, -⟩ := Prod.mk.inj (Option.some.inj h)
        rcases hown with ⟨tag, body, -, -, heq⟩
        unfold State.incrementalAttributes at heq
        cases hdirty : (fs.dentry d).dirty <;> simp [hdirty] at heq
  | deleteFile => rfl
  | deleteDirectory => rfl

theorem AtParent.length {names : List Path} {s : List (Opened Tag Leaf)} (h : AtParent names s) :
    s.length = 2 * names.length + 2 := by
  induction h with
  | root => rfl
  | child _ _ _ _ ih =>
    simp only [List.length_cons, List.length_append, List.length_nil]
    omega

variable {volumeName : Option Path}

/-- If every entry is plain, every entry is written in the root. -/
theorem xmlWriteEntries_plain (volumeName : Option Path) (l : List Jentry) : ∀ {fs₀ fs : State}, Cleans fs₀ fs →
    (∀ ent ∈ l, liesInRoot ent = true ∧ writesElement fs₀ ent = true) →
    ∃ es fs', fs.xmlWriteEntries volumeName [] l = some (es, fs') ∧ es.map EntryCalls.ent = l ∧
      ∀ e ∈ es, liesInRoot e.ent = true ∧ e.travel = [] ∧ IsElement IsEntryTag e.own := by
  induction l with
  | nil => exact fun _ _ => ⟨[], _, rfl, rfl, by simp⟩
  | cons ent rest ih =>
    intro fs₀ fs hc h
    obtain ⟨hlies, hwrites⟩ := h ent (by simp)
    obtain ⟨own, fs₁, hown, helement⟩ := xmlWriteJentry_element hc volumeName hwrites
    obtain ⟨es, fs', hes, hmap, hall⟩ := ih (hc.trans (xmlWriteJentry_cleans hown))
      fun e he => h e (by simp [he])
    refine ⟨⟨ent, [], own⟩ :: es, fs', ?_, by rw [List.map_cons, hmap], ?_⟩
    · unfold State.xmlWriteEntries
      rw [xmlGotoIncrementParent_lies hlies]
      dsimp only
      rw [hown]
      dsimp only
      rw [hes]
      rfl
    · intro e he
      rcases List.mem_cons.mp he with rfl | he
      · exact ⟨hlies, rfl, helement⟩
      · exact hall e he

/-- If every entry is written at its parent, every entry is plain: the first one that is not
would have too few elements around it, or be no element. -/
theorem xmlWriteEntries_needs (l : List Jentry) : ∀ {fs₀ fs fs' : State} {es : List EntryCalls}
    {s₀ : List (Opened Tag Leaf)}, Cleans fs₀ fs →
    fs.xmlWriteEntries volumeName [] l = some (es, fs') → es.map EntryCalls.ent = l →
    s₀.length = 2 →
    (∀ before e after, es = before ++ e :: after →
      ∃ s, runCalls (before.flatMap (fun b => b.travel ++ b.own) ++ e.travel) s₀ = some s ∧
        AtParent (strtokNames (parentPath e.ent.fullPath)) s ∧ IsElement IsEntryTag e.own) →
    ∀ ent ∈ l, liesInRoot ent = true ∧ writesElement fs₀ ent = true := by
  induction l with
  | nil => simp
  | cons ent rest ih =>
    intro fs₀ fs fs' es s₀ hc hes hmap hlen hnested
    unfold State.xmlWriteEntries at hes
    cases hgoto : fs.xmlGotoIncrementParent ent [] with
    | undefined =>
      rw [hgoto] at hes
      cases hes
    | failed =>
      -- nothing is written for the entry
      rw [hgoto] at hes
      obtain ⟨rfl, -⟩ := Prod.mk.inj (Option.some.inj hes)
      cases hmap
    | arrived travel cur fs₁ =>
      rw [hgoto] at hes
      dsimp only at hes
      split at hes
      · cases hes
      · rename_i own fs₂ hown
        rcases Option.map_eq_some_iff.mp hes with ⟨r, hr, heq⟩
        obtain ⟨rfl, rfl⟩ := Prod.mk.inj heq
        rw [List.map_cons, List.cons.injEq] at hmap
        obtain ⟨s, hs, hat, helement⟩ := hnested [] _ r.1 rfl
        rw [List.flatMap_nil, List.nil_append] at hs
        obtain ⟨habs, ⟨hnames, rfl, rfl, rfl⟩ | ⟨hnames, hcalls⟩⟩ := xmlGotoIncrementParent_root hgoto
        · have hlies : liesInRoot ent = true := by
            unfold liesInRoot
            rw [habs, hnames]
            rfl
          have hwrites := writesElement_of_element hc hown helement
          -- the element is closed again, so the others start from the same place
          have hrest : ∀ e ∈ rest, liesInRoot e = true ∧ writesElement fs₀ e = true := by
            refine ih (hc.trans (xmlWriteJentry_cleans hown)) hr hmap.2 hlen ?_
            rintro before e after hsplit
            obtain ⟨s', hs', h'⟩ := hnested (⟨ent, [], own⟩ :: before) e after (by rw [hsplit]; rfl)
            refine ⟨s', ?_, h'⟩
            rw [List.flatMap_cons, List.nil_append, List.append_assoc, runCalls_append,
              helement.run] at hs'
            exact hs'
          intro e he
          rcases List.mem_cons.mp he with rfl | he
          · exact ⟨hlies, hwrites⟩
          · exact hrest e he
        · exfalso
          have hopen := runCalls_length _ hs
          rw [hlen, hat.length] at hopen
          have hpos := List.length_pos_of_ne_nil hnames
          dsimp only at hopen hpos
          omega

/-! ## The whole journal -/

theorem xmlOpenIncrementalRoot_run (fs : State) (volumeName : Option Path) :
    ∃ leaves, runCalls (fs.xmlOpenIncrementalRoot volumeName).1 []
      = some [⟨.contents, []⟩, ⟨.directory, leaves⟩] := by
  have hcontent : Content (fs.directoryName volumeName fs.root
      ++ State.incrementalAttributes (fs.dentry fs.root)) :=
    (directoryName_content fs volumeName fs.root).append (incrementalAttributes_content _)
  obtain ⟨leaves, h⟩ := hcontent.run ⟨.directory, []⟩ []
  refine ⟨leaves, ?_⟩
  unfold State.xmlOpenIncrementalRoot State.xmlOpenIncrementalDirEnt
  dsimp only
  rw [runCalls_start, ← List.append_assoc, runCalls_append, h]
  rfl

theorem openedOnWay_nil (es : List EntryCalls) : ∀ s : List (Opened Tag Leaf),
    (∀ e ∈ es, e.travel = []) → openedOnWay es s = [] := by
  induction es with
  | nil => exact fun _ _ => rfl
  | cons e es ih =>
    intro s h
    unfold openedOnWay
    rw [ih _ fun e he => h e (by simp [he]), h e (by simp)]
    rfl

theorem mem_incjSort {ent : Jentry} {l : List Jentry} : ent ∈ incjSort l ↔ ent ∈ l :=
  (List.mergeSort_perm l byPath).mem_iff

theorem plain_of_structured {fs : State} (h : ∃ out fs', fs.xmlWriteIncJournal volumeName
    = some (out, fs') ∧ out.Structured (incjSort fs.journal.journal)) :
    ∀ ent ∈ fs.journal.journal, liesInRoot ent = true ∧ writesElement fs ent = true := by
  obtain ⟨leaves, hopening⟩ := xmlOpenIncrementalRoot_run fs volumeName
  have hroot : Cleans fs (fs.xmlOpenIncrementalRoot volumeName).2 := Cleans.clean fs fs.root
  obtain ⟨out, fs', hout, hstruct⟩ := h
  rcases Option.map_eq_some_iff.mp hout with ⟨r, hr, heq⟩
  obtain ⟨rfl, -⟩ := Prod.mk.inj heq
  -- the journal is written from the elements that are open in the root
  have hlen : [(⟨.contents, []⟩ : Opened Tag Leaf), ⟨.directory, leaves⟩].length = 2 := rfl
  have hneeds := xmlWriteEntries_needs _ hroot hr hstruct.complete hlen (by
    intro before e after hsplit
    obtain ⟨s, hs, h⟩ := hstruct.nested before e after hsplit
    refine ⟨s, ?_, h⟩
    rw [List.append_assoc, runCalls_append, hopening] at hs
    exact hs)
  exact fun ent hent => hneeds ent (mem_incjSort.mpr hent)

theorem structured_of_plain (volumeName : Option Path) {fs : State}
    (h : ∀ ent ∈ fs.journal.journal, liesInRoot ent = true ∧ writesElement fs ent = true) :
    ∃ out fs', fs.xmlWriteIncJournal volumeName = some (out, fs') ∧
      out.Structured (incjSort fs.journal.journal) := by
  obtain ⟨leaves, hopening⟩ := xmlOpenIncrementalRoot_run fs volumeName
  have hroot : Cleans fs (fs.xmlOpenIncrementalRoot volumeName).2 := Cleans.clean fs fs.root
  obtain ⟨es, fs', hes, hmap, hall⟩ := xmlWriteEntries_plain volumeName
    (incjSort fs.journal.journal) hroot fun ent hent => h ent (mem_incjSort.mp hent)
  have hflat : ∀ l : List EntryCalls, (∀ e ∈ l, e ∈ es) →
      Content (l.flatMap fun e => e.travel ++ e.own) := by
    intro l hl
    apply Content.flatMap
    intro e he
    obtain ⟨-, htravel, hown⟩ := hall e (hl e he)
    rw [htravel]
    exact hown.content
  refine ⟨⟨(fs.xmlOpenIncrementalRoot volumeName).1, es, State.xmlCloseIncrementalRoot⟩,
    fs'.incjClear, ?_, ?_⟩
  · unfold State.xmlWriteIncJournal
    dsimp only
    rw [hes]
    rfl
  · constructor
    · exact hmap
    · -- the entries are the contents of the root
      refine ⟨.directory, fs.directoryName volumeName fs.root
        ++ (State.incrementalAttributes (fs.dentry fs.root)
        ++ .start .contents :: (es.flatMap (fun e => e.travel ++ e.own) ++ [.stop])), rfl, ?_, ?_⟩
      · exact (directoryName_content fs volumeName fs.root).append
          ((incrementalAttributes_content _).append
            (content_element .contents (hflat es fun _ h => h)))
      · simp [IncOutput.calls, State.xmlOpenIncrementalRoot, State.xmlOpenIncrementalDirEnt,
          State.xmlCloseIncrementalRoot]
    · intro before e after hsplit
      dsimp only at hsplit ⊢
      have hmem : ∀ b ∈ before, b ∈ es := by
        intro b hb
        rw [hsplit]
        exact List.mem_append_left _ hb
      obtain ⟨hlies, htravel, hown⟩ := hall e (by rw [hsplit]; simp)
      unfold liesInRoot at hlies
      rw [Bool.and_eq_true, List.isEmpty_iff] at hlies
      obtain ⟨leaves', hrun⟩ := (hflat before hmem).run ⟨.contents, []⟩ [⟨.directory, leaves⟩]
      refine ⟨[⟨.contents, leaves'⟩, ⟨.directory, leaves⟩], ?_, ?_, hown⟩
      · rw [htravel, List.append_nil, runCalls_append, hopening]
        exact hrun
      · rw [hlies.2]
        exact .root rfl rfl
    · rw [openedOnWay_nil es _ fun e he => (hall e he).2.1]
      exact List.nodup_nil

/-- What is written for the journal is the tree it is meant to be if and only if every entry
lies in the root and none is the modification of a directory. -/
theorem inc_journal_structured_iff (fs : State) (volumeName : Option Path) :
    (∃ out fs', fs.xmlWriteIncJournal volumeName = some (out, fs') ∧
      out.Structured (incjSort fs.journal.journal)) ↔
    ∀ ent ∈ fs.journal.journal, liesInRoot ent = true ∧ writesElement fs ent = true :=
  ⟨plain_of_structured, structured_of_plain volumeName⟩

/-- A directory `a` in the root, a new file `f` in it, and the journal that says so. -/
def fileBelowDirectory : State where
  dentry := fun d =>
    if d = 0 then { Dentry.zero with isdir := true, childList := [([0x61], 1)] }
    else if d = 1 then
      { Dentry.zero with
        parent := some 0, platformSafeName := [0x61], uid := 2, isdir := true
        childList := [([0x66], 2)] }
    else { Dentry.zero with parent := some 1, platformSafeName := [0x66], uid := 3, dirty := true }
  root := 0
  inodeNumber := 2
  uidNumber := 3
  fileCount := 1
  validBlocks := 0
  journal := {
    journal := [⟨0, [0x2F, 0x61, 0x2F, 0x66], 3, .create, some 2, []⟩]
    createdDirs := []
    journalErr := false
    nextAddr := 1 }
  numhandles := fun _ => 1
  alloc := []
  hashAlloc := []

/-- The file ends up in a `contents` element of the root, behind an empty directory `a`. -/
theorem file_below_directory_misplaced :
    ¬ ∃ out fs', fileBelowDirectory.xmlWriteIncJournal none = some (out, fs') ∧
      out.Structured (incjSort fileBelowDirectory.journal.journal) := by
  intro h
  have hplain := plain_of_structured h ⟨0, [0x2F, 0x61, 0x2F, 0x66], 3, .create, some 2, []⟩
    (by simp [fileBelowDirectory])
  exact absurd hplain.1 (by decide)

end Ltfs.Fs

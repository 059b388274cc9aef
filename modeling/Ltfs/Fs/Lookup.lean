import Ltfs.Fs.Tree

/-!
# References and lookups

Who may rely on a dentry: the tree, for every dentry in it, and everybody who has it
open. `HandlesOk fs o` says that `numhandles` counts at least these, with `o` the
references that are held; `held o d` is one reference more. A release then never
disposes a dentry that is still used.

`Inv` puts the tree invariant and the references together. The lookup functions and
the release are specified with it: what they return, and that the tree is kept.
-/

namespace Ltfs.Fs

open Function Namespace

/-- One more reference to `d`. -/
def held (o : ℕ → ℕ) (d : ℕ) : ℕ → ℕ := update o d (o d + 1)

theorem held_apply (o : ℕ → ℕ) (d x : ℕ) : held o d x = o x + if x = d then 1 else 0 := by
  unfold held
  by_cases h : x = d
  · subst h
    simp
  · simp [h]

theorem held_comm (o : ℕ → ℕ) (a b : ℕ) : held (held o a) b = held (held o b) a := by
  funext x
  simp only [held_apply]
  omega

/-- The reference the tree itself has to a dentry. -/
def Namespace.treeRef (ns : Namespace) (d : ℕ) : ℤ := if ns.Attached d then 1 else 0

/-- Every dentry of the tree and every reference that is held is counted. -/
structure HandlesOk (fs : State) (o : ℕ → ℕ) : Prop where
  le : ∀ d, fs.treeRef d + o d ≤ fs.numhandles d
  fresh : ∀ d, fs.inodeNumber < d → o d = 0

/-- No allocation of the hash table functions will fail. -/
def HashQuiet (fs : State) : Prop := ∀ b ∈ fs.hashAlloc, b = true

/-- The invariant of a state in which the references `o` are held. -/
structure Inv (fs : State) (o : ℕ → ℕ) : Prop where
  tree : fs.TreeInv
  handles : HandlesOk fs o
  quiet : HashQuiet fs

theorem Alloc.next_of_quiet {a : Alloc} (h : ∀ b ∈ a, b = true) : a.next = (true, a.tail) := by
  cases a with
  | nil => rfl
  | cons b rest => rw [h b List.mem_cons_self]; rfl

namespace Inv

variable {fs fs' : State} {o : ℕ → ℕ} {d p : ℕ}

theorem weaken (I : Inv fs (held o d)) : Inv fs o := by
  refine ⟨I.tree, ⟨fun x => ?_, fun x hx => ?_⟩, I.quiet⟩
  · have := I.handles.le x
    rw [held_apply] at this
    omega
  · have := I.handles.fresh x hx
    rw [held_apply] at this
    omega

/-- The allocations of other functions do not matter. -/
theorem alloc (I : Inv fs o) (a : Alloc) : Inv { fs with alloc := a } o :=
  ⟨I.tree, ⟨I.handles.le, I.handles.fresh⟩, I.quiet⟩

theorem hashTail (I : Inv fs o) : Inv { fs with hashAlloc := fs.hashAlloc.tail } o :=
  ⟨I.tree, ⟨I.handles.le, I.handles.fresh⟩, fun b hb => I.quiet b (List.mem_of_mem_tail hb)⟩

theorem hold (I : Inv fs o) (hd : d ≤ fs.inodeNumber) : Inv (fs.hold d) (held o d) := by
  refine ⟨I.tree, ⟨fun x => ?_, fun x hx => ?_⟩, I.quiet⟩
  · have := I.handles.le x
    show fs.treeRef x + _ ≤ update fs.numhandles d (fs.numhandles d + 1) x
    rw [held_apply, update_apply]
    by_cases hx : x = d
    · subst hx
      simp only [if_pos]
      omega
    · simp only [if_neg hx]
      omega
  · have hx' : fs.inodeNumber < x := hx
    rw [held_apply, I.handles.fresh x hx, if_neg (by omega)]

theorem unhold (I : Inv fs (held o d)) : Inv (fs.unhold d) o := by
  refine ⟨I.tree, ⟨fun x => ?_, fun x hx => I.weaken.handles.fresh x hx⟩, I.quiet⟩
  have := I.handles.le x
  show fs.treeRef x + _ ≤ update fs.numhandles d (fs.numhandles d - 1) x
  rw [held_apply] at this
  rw [update_apply]
  by_cases hx : x = d
  · subst hx
    simp only [if_pos] at this ⊢
    omega
  · simp only [if_neg hx] at this ⊢
    omega

/-- A state that differs in dentries of the same shape and in things no reference is
about. -/
theorem sameShape (I : Inv fs o) (h : SameShape fs.toNamespace fs'.toNamespace)
    (hh : fs'.numhandles = fs.numhandles) (hq : HashQuiet fs') : Inv fs' o := by
  refine ⟨h.treeInv I.tree, ⟨fun x => ?_, fun x hx => ?_⟩, hq⟩
  · have hx : fs'.treeRef x = fs.treeRef x := by
      unfold Namespace.treeRef
      rw [if_congr h.attached_iff rfl rfl]
    rw [hh, hx]
    exact I.handles.le x
  · exact I.handles.fresh x (h.inode.trans_lt hx)

end Inv

/-! ## Release -/

section Release

variable {fs fs' : State} {o : ℕ → ℕ} {d p : ℕ}

/-- Disposing a dentry without parent and children clears that dentry only. -/
theorem fsDispose_of_childless (n : ℕ) (hp : fs.parent d = none)
    (hc : (fs.dentry d).childList = []) :
    fs.fsDisposeDentryContents (n + 1) d = fs.modify d fun _ => Dentry.zero := by
  have hp' : (fs.dentry d).parent = none := hp
  simp only [State.fsDisposeDentryContents, hc, List.foldl_nil, State.modify, update_self, hp',
    update_idem]

/-- Giving a reference back keeps the tree and all other references. -/
theorem fsReleaseDentry_spec (I : Inv fs (held o d)) :
    Kept fs.toNamespace (fs.fsReleaseDentry d).toNamespace ∧ Inv (fs.fsReleaseDentry d) o := by
  unfold State.fsReleaseDentry
  by_cases hz : (fs.unhold d).numhandles d = 0
  · -- nobody uses it: it is not in the tree
    have hle := I.unhold.handles.le d
    have hdet : ¬ fs.Attached d := by
      intro ha
      have href : (fs.unhold d).treeRef d = 1 := if_pos ha
      rw [href, hz] at hle
      omega
    have hp : fs.parent d = none := by
      by_contra hp
      exact hdet (.inr hp)
    have hc := I.tree.childList_of_detached hdet
    simp only [hz, ne_eq, not_true_eq_false, if_false]
    have hdispose : (fs.unhold d).fsDisposeDentryContents ((fs.unhold d).inodeNumber + 1) d =
        (fs.unhold d).modify d fun _ => Dentry.zero := fsDispose_of_childless _ hp hc
    rw [hdispose]
    have hk : Kept fs.toNamespace ((fs.unhold d).modify d fun _ => Dentry.zero).toNamespace := by
      refine ⟨rfl, le_refl _, fun x hx => ?_, fun x hx => ?_, rfl, rfl, rfl⟩
      · have hne : x ≠ d := fun h => hdet (h ▸ hx)
        exact update_of_ne hne _ _
      · by_cases hne : x = d
        · subst hne
          exact .inr (update_self _ _ _)
        · exact .inl (update_of_ne hne _ _)
    exact ⟨hk, I.unhold.sameShape hk.sameShape rfl I.quiet⟩
  · simp only [hz, ne_eq, not_false_eq_true, if_true]
    exact ⟨Kept.refl _, I.unhold⟩

end Release

/-! ## Hash tables -/

theorem hasKey_iff {name : Path} {e : Path × ℕ} : State.hasKey name e = true ↔ e.1 = name :=
  beq_iff_eq

section Lookup

variable {fs fs' : State} {o : ℕ → ℕ} {d p : ℕ} {name : Path}

/-- With memory, the hash table finds what is in it. -/
theorem fsFindKey_of_quiet (h : HashQuiet fs) (list : List (Path × ℕ)) :
    fs.fsFindKeyFromHashTable list name =
      ((list.find? (State.hasKey name)).map Prod.snd,
        { fs with hashAlloc := fs.hashAlloc.tail }) := by
  unfold State.fsFindKeyFromHashTable State.hashMalloc
  rw [Alloc.next_of_quiet h]

/-- With memory, an entry is added in front of the others. -/
theorem fsAddKey_of_quiet (h : HashQuiet fs) :
    fs.fsAddKeyToHashTable p d =
      (0, { fs.modify p fun b =>
              { b with childList := ((fs.dentry d).platformSafeName, d) :: b.childList } with
            hashAlloc := fs.hashAlloc.tail.tail.tail }) := by
  have h₁ : ∀ b ∈ fs.hashAlloc.tail, b = true := fun b hb => h b (List.mem_of_mem_tail hb)
  have h₂ : ∀ b ∈ fs.hashAlloc.tail.tail, b = true := fun b hb => h₁ b (List.mem_of_mem_tail hb)
  unfold State.fsAddKeyToHashTable State.hashMalloc
  simp only [Alloc.next_of_quiet h, Alloc.next_of_quiet h₁, Alloc.next_of_quiet h₂]
  rfl

/-- The child found under a name. -/
def Namespace.child (ns : Namespace) (p : ℕ) (name : Path) : Option ℕ :=
  ((ns.dentry p).childList.find? (State.hasKey name)).map Prod.snd

/-- What is found under a name is a child of that name. -/
theorem child_spec {ns : Namespace} (I : ns.TreeInv) (h : ns.child p name = some d) :
    (ns.dentry p).childList.find? (State.hasKey name) = some (name, d) ∧
      ns.parent d = some p ∧ (ns.dentry d).platformSafeName = name := by
  obtain ⟨e, he, rfl⟩ := Option.map_eq_some_iff.mp h
  have hkey := hasKey_iff.mp (List.find?_some he)
  have hent := I.entry p e (List.mem_of_find?_eq_some he)
  exact ⟨by rw [he, ← hkey], hent.1, hent.2.trans hkey⟩

/-- The three outcomes of a lookup in a directory. -/
theorem fsDirectoryLookup_spec (I : Inv fs o) (p : ℕ) (name : Path) :
    (fs.fsDirectoryLookup p name = (.error (-ltfsNametoolong), fs)) ∨
    (∃ fs', fs.fsDirectoryLookup p name = (.ok none, fs') ∧ fs.child p name = none ∧
      fs'.toNamespace = fs.toNamespace ∧ Inv fs' o) ∨
    (∃ d fs', fs.fsDirectoryLookup p name = (.ok (some d), fs') ∧ fs.child p name = some d ∧
      fs'.toNamespace = fs.toNamespace ∧ Inv fs' (held o d)) := by
  unfold State.fsDirectoryLookup
  split
  · exact .inl rfl
  · split
    · rename_i hlen
      have hnil := List.length_eq_zero_iff.mp hlen
      exact .inr (.inl ⟨fs, rfl, by rw [Namespace.child, hnil]; rfl, rfl, I⟩)
    · rw [fsFindKey_of_quiet I.quiet]
      cases hf : fs.child p name with
      | none =>
        have hf' : ((fs.dentry p).childList.find? (State.hasKey name)).map Prod.snd = none := hf
        rw [hf']
        exact .inr (.inl ⟨_, rfl, rfl, rfl, I.hashTail⟩)
      | some d =>
        have hf' : ((fs.dentry p).childList.find? (State.hasKey name)).map Prod.snd = some d := hf
        rw [hf']
        have hp := (child_spec I.tree hf).2.1
        have hle : d ≤ fs.inodeNumber :=
          I.tree.le_of_attached (.inr (by rw [hp]; exact Option.some_ne_none p))
        exact .inr (.inr ⟨d, _, rfl, rfl, rfl, I.hashTail.hold hle⟩)

/-- Going down from `d` along names. -/
def Namespace.walk (ns : Namespace) : ℕ → List Path → Option ℕ
  | d, [] => some d
  | d, name :: rest => (ns.child d name).bind fun c => ns.walk c rest

theorem Namespace.SameShape.child {ns ns' : Namespace} (h : SameShape ns ns') (I : ns.TreeInv) (p : ℕ) (name : Path) :
    ns'.child p name = ns.child p name := by
  unfold Namespace.child
  rw [h.childList I]

theorem Namespace.SameShape.walk {ns ns' : Namespace} (h : SameShape ns ns') (I : ns.TreeInv) (d : ℕ)
    (names : List Path) : ns'.walk d names = ns.walk d names := by
  induction names generalizing d with
  | nil => rfl
  | cons name rest ih =>
    unfold Namespace.walk
    rw [h.child I]
    cases ns.child d name with
    | none => rfl
    | some c => exact ih c

/-- The walk of a path lookup: it fails and gives all references back, or it ends at
a dentry that is held (with its parent, where the caller asked for that). -/
theorem fsPathWalk_spec (keepParent : Bool) (names : List Path) (I : Inv fs (held o d))
    (hd : fs.Attached d) :
    (∃ e fs', fs.fsPathWalk keepParent d names = (.error e, fs') ∧
      Kept fs.toNamespace fs'.toNamespace ∧ Inv fs' o) ∨
    (∃ c fs', fs.fsPathWalk keepParent d names = (.ok c, fs') ∧
      fs.walk d names = some c ∧ fs.Attached c ∧ fs'.toNamespace = fs.toNamespace ∧
      if keepParent = true ∧ names ≠ [] then
        ∃ p, fs.parent c = some p ∧ Inv fs' (held (held o p) c)
      else Inv fs' (held o c)) := by
  induction names generalizing fs d with
  | nil =>
    refine .inr ⟨d, fs, rfl, rfl, hd, rfl, ?_⟩
    rw [if_neg (by simp)]
    exact I
  | cons name rest ih =>
    unfold State.fsPathWalk
    rcases fsDirectoryLookup_spec I d name with h | ⟨fs₁, h, hnone, heq, I₁⟩ |
      ⟨c, fs₁, h, hsome, heq, I₁⟩
    · -- the name is too long
      rw [h]
      obtain ⟨hk, I'⟩ := fsReleaseDentry_spec I
      exact .inl ⟨_, _, rfl, hk, I'⟩
    · rw [h]
      obtain ⟨hk, I'⟩ := fsReleaseDentry_spec I₁
      exact .inl ⟨_, _, rfl, heq ▸ hk, I'⟩
    · rw [h]
      have hpc := (child_spec I.tree hsome).2.1
      have hc : fs.Attached c := .inr (by simp [hpc])
      rw [held_comm] at I₁
      dsimp only
      by_cases hrest : rest ≠ [] ∨ keepParent = false
      · -- the parent is not kept
        rw [if_pos hrest]
        have I₂ : Inv (fs₁.unhold d) (held o c) := I₁.unhold
        have heq₂ : (fs₁.unhold d).toNamespace = fs.toNamespace := heq
        have hc₂ : (fs₁.unhold d).Attached c := heq₂ ▸ hc
        rcases ih I₂ hc₂ with ⟨e, fs₂, h₂, hk, I₃⟩ | ⟨c₂, fs₂, h₂, hw, ha, heq₃, I₃⟩
        · exact .inl ⟨e, fs₂, h₂, heq₂ ▸ hk, I₃⟩
        · refine .inr ⟨c₂, fs₂, h₂, ?_, heq₂ ▸ ha, heq₃.trans heq₂, ?_⟩
          · rw [Namespace.walk, hsome, Option.bind_some, ← heq₂]
            exact hw
          · rcases hrest with hrest | hkeep
            · by_cases hk : keepParent = true
              · rw [if_pos ⟨hk, hrest⟩] at I₃
                rw [if_pos ⟨hk, List.cons_ne_nil _ _⟩]
                rwa [heq₂] at I₃
              · rw [if_neg (by simp [hk])] at I₃ ⊢
                exact I₃
            · rw [if_neg (by simp [hkeep])] at I₃ ⊢
              exact I₃
      · -- the last name, with its parent kept
        rw [if_neg hrest]
        obtain ⟨hnil, hkeep⟩ : rest = [] ∧ keepParent = true := by
          simpa only [ne_eq, not_or, not_not, Bool.not_eq_false] using hrest
        subst hnil
        refine .inr ⟨c, fs₁, rfl, ?_, hc, heq, ?_⟩
        · rw [Namespace.walk, hsome]
          rfl
        · rw [if_pos ⟨hkeep, List.cons_ne_nil _ _⟩]
          exact ⟨d, hpc, held_comm o c d ▸ I₁⟩

/-- The names of a path. -/
def pathNames (path : Path) : List Path :=
  if path = [] ∨ path = [slash] then [] else (path.drop 1).splitOn slash

/-- Looking up a path: like the walk from the root. -/
theorem fsPathLookup_spec (keepParent : Bool) (path : Path) (I : Inv fs o) :
    (∃ e fs', fs.fsPathLookup keepParent path = (.error e, fs') ∧
      Kept fs.toNamespace fs'.toNamespace ∧ Inv fs' o) ∨
    (∃ c fs', fs.fsPathLookup keepParent path = (.ok c, fs') ∧
      fs.walk fs.root (pathNames path) = some c ∧ fs.Attached c ∧
      fs'.toNamespace = fs.toNamespace ∧
      if keepParent = true ∧ pathNames path ≠ [] then
        ∃ p, fs.parent c = some p ∧ Inv fs' (held (held o p) c)
      else Inv fs' (held o c)) := by
  unfold State.fsPathLookup State.malloc
  have I₁ : Inv { fs with alloc := fs.alloc.next.2 } o := I.alloc _
  cases fs.alloc.next.1 with
  | false => exact .inl ⟨_, _, rfl, Kept.refl _, I₁⟩
  | true =>
    have I₂ := I₁.hold (d := fs.root) I.tree.rootLe
    have hroot : fs.Attached fs.root := .inl rfl
    simp only
    unfold pathNames
    split
    · rename_i hp
      refine .inr ⟨fs.root, _, rfl, rfl, hroot, rfl, ?_⟩
      rw [if_neg (by simp)]
      exact I₂
    · exact fsPathWalk_spec keepParent _ I₂ hroot

end Lookup

end Ltfs.Fs

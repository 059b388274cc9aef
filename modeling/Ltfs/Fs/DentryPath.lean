import Ltfs.Fs.Run
import Ltfs.Lib.SlashPath

/-!
# Paths of dentries

`fs_dentry_lookup` writes the path of a dentry, `fs_path_lookup` finds the dentry of a
path.

* `State.fsDentryLookup` — the names on the way up are copied, then put into a buffer whose
  size was counted before.
* `fsPathWalk_of_walk`, `fsPathWalk_handles` — what a lookup finds while there is memory, and
  what it does to the reference counts, with memory or without.
* `path_lookup_inverts` — the two functions are inverse to each other, and no lookup loses or
  leaves a reference.
-/

namespace Ltfs.Fs

open Function Namespace Lib Lib.Forest

/-! ## `fs_dentry_lookup` -/

/-- `strcat` into a buffer of `room` bytes; `none` is a write behind its end. -/
def strcat (room : ℕ) (tmpName name : Path) : Option Path :=
  if tmpName.length + name.length < room then some (tmpName ++ name) else none

/-- The last loop of `fs_dentry_lookup`, from the name `i` of `names` on. -/
def catNames (room names : ℕ) : ℕ → List Path → Path → Option Path
  | _, [], tmpName => some tmpName
  | i, name :: rest, tmpName => do
    let tmpName ← strcat room tmpName name
    let tmpName ← if 0 < i ∧ i < names - 1 then strcat room tmpName [slash] else some tmpName
    catNames room names (i + 1) rest tmpName

namespace State

/-- The name of a dentry in its path. A dentry without a name has the name `[]`. -/
def dentryLookupName (fs : State) (d : ℕ) : Except ℤ Path :=
  if (fs.dentry d).platformSafeName = [] then
    if (fs.dentry d).deleted ∨ (fs.dentry d).parent ≠ none then .error (-ltfsNoDentry)
    else .ok [slash]
  else .ok (fs.dentry d).platformSafeName

/-- The loop of `fs_dentry_lookup` that copies the names, from the dentry up to the root.
`none`: there is no memory for a copy, and `ret` is still `0`. -/
def copyNames : State → List Path → List ℕ → Except ℤ (Option (List Path)) × State
  | fs, names, [] => (.ok (some names), fs)
  | fs, names, d :: rest =>
    match fs.dentryLookupName d with
    | .error e => (.error e, fs)
    | .ok name =>
      match fs.malloc with
      | (false, fs) => (.ok none, fs)
      | (true, fs) => fs.copyNames (name :: names) rest

/-- `fs_dentry_lookup`: the code, `*name` and the new state; `none` when the buffer is
overrun. -/
def fsDentryLookup (fs : State) (dentry : ℕ) : Option (ℤ × Option Path × State) :=
  let chain := lineage (fun d => (fs.dentry d).parent) (fs.inodeNumber + 1) dentry
  match fs.malloc with
  | (false, fs) => some (-ltfsNoMemory, none, fs)
  | (true, fs) =>
    match fs.copyNames [] chain with
    | (.error e, fs) => some (e, none, fs)
    | (.ok none, fs) => some (0, none, fs)
    | (.ok (some dentryNames), fs) =>
      let namelen := (dentryNames.map List.length).sum
      match fs.malloc with
      | (false, fs) => some (-ltfsNoMemory, none, fs)
      | (true, fs) =>
        (catNames (namelen + chain.length) chain.length 0 dentryNames []).map fun tmpName =>
          (0, some tmpName, fs)

end State

/-! ## The namespace invariant -/

/-- A name a dentry can have. -/
structure NameOk (name : Path) : Prop where
  ne_nil : name ≠ []
  noSlash : slash ∉ name
  short : NameCodec.pathnameStrlen name ≤ NameCodec.ltfsFilenameMax

/-- What holds of the tree between two calls: its structure, its names, and a reference to
every dentry of it. -/
structure NamespaceInv (fs : State) : Prop where
  tree : fs.TreeInv
  unique : fs.NamesUnique
  rootName : (fs.dentry fs.root).platformSafeName = [slash]
  names : ∀ d, fs.parent d ≠ none → NameOk (fs.dentry d).platformSafeName
  handles : ∀ d, fs.Attached d → 1 ≤ fs.numhandles d

/-- No allocation will fail. -/
def MemoryLasts (fs : State) : Prop := (∀ b ∈ fs.alloc, b = true) ∧ HashQuiet fs

/-! ## What is built -/

theorem Alloc.mem_of_mem_next (a : Alloc) : ∀ b ∈ a.next.2, b ∈ a := by
  intro b hb
  cases a with
  | nil => cases hb
  | cons c a => exact List.mem_cons_of_mem c hb

theorem Alloc.false_mem {a : Alloc} (h : a.next.1 = false) : false ∈ a := by
  cases a with
  | nil => cases h
  | cons c a =>
    have hc : c = false := h
    rw [hc]
    exact List.mem_cons_self

section Build

variable {fs : State} {d p : ℕ}

/-- One name of the last loop. -/
theorem catNames_cons {room names i : ℕ} {name tmpName : Path} {rest : List Path}
    (hroom : tmpName.length + name.length < room) :
    catNames room names i (name :: rest) tmpName =
      (if 0 < i ∧ i < names - 1 then strcat room (tmpName ++ name) [slash]
        else some (tmpName ++ name)).bind (catNames room names (i + 1) rest) := by
  have hname : strcat room tmpName name = some (tmpName ++ name) := if_pos hroom
  rw [catNames, hname, Option.bind_eq_bind, Option.bind_some]
  split
  · rfl
  · rfl

/-- Behind the first name: the buffer is large enough, and the names come with a separator
between any two. -/
theorem catNames_rest {room names i : ℕ} {rest : List Path} {tmpName : Path} (hi : 0 < i)
    (hnames : i + rest.length = names)
    (hroom : tmpName.length + (joinPath slash rest).length < room + 1)
    (htmp : tmpName.length < room) :
    catNames room names i rest tmpName = some (tmpName ++ (joinPath slash rest).drop 1) := by
  induction rest generalizing i tmpName with
  | nil => simp [catNames]
  | cons name rest ih =>
    rw [joinPath_cons, List.length_append, List.length_cons] at hroom
    have hdrop : (joinPath slash (name :: rest)).drop 1 = name ++ joinPath slash rest := rfl
    rw [catNames_cons (by omega), hdrop]
    rw [List.length_cons] at hnames
    cases rest with
    | nil =>
      -- the last name has no separator behind it
      have hlast : ¬ (0 < i ∧ i < names - 1) := by
        simp only [List.length_nil] at hnames
        omega
      rw [if_neg hlast, Option.bind_some, catNames, joinPath_nil, List.append_nil]
    | cons next rest =>
      have hmid : 0 < i ∧ i < names - 1 := by
        rw [List.length_cons] at hnames
        omega
      rw [joinPath_cons, List.length_append, List.length_cons] at hroom
      have hsep : strcat room (tmpName ++ name) [slash] = some (tmpName ++ name ++ [slash]) := by
        refine if_pos ?_
        rw [List.length_append, List.length_singleton]
        omega
      rw [if_pos hmid, hsep, Option.bind_some, ih (by omega) (by omega)]
      · rw [joinPath_cons]
        simp
      · rw [joinPath_cons]
        simp only [List.length_append, List.length_cons, List.length_nil]
        omega
      · simp only [List.length_append, List.length_cons, List.length_nil]
        omega

/-- The text of a path: the root, then every name below it with a separator in front. -/
def pathText (names : List Path) : Path :=
  if names = [] then [slash] else joinPath slash names

/-- The buffer `fs_dentry_lookup` counted has room for the path. -/
theorem catNames_path (names : List Path) :
    catNames ((([slash] :: names).map List.length).sum + ([slash] :: names).length)
      ([slash] :: names).length 0 ([slash] :: names) [] = some (pathText names) := by
  have hlen : (joinPath slash names).length = (names.map List.length).sum + names.length := by
    induction names with
    | nil => rfl
    | cons name names ih =>
      rw [joinPath_cons, List.length_append, ih]
      simp only [List.length_cons, List.map_cons, List.sum_cons]
      omega
  rw [catNames_cons, if_neg (by simp), Option.bind_some, catNames_rest (by omega)]
  · unfold pathText
    cases names with
    | nil => rfl
    | cons name names => rfl
  · rw [List.length_cons]
    omega
  · show 1 + (joinPath slash names).length < _
    simp only [List.map_cons, List.sum_cons, List.length_cons, List.length_nil, hlen]
    omega
  · show 1 < _
    simp only [List.map_cons, List.sum_cons, List.length_cons, List.length_nil]
    omega
  · simp only [List.map_cons, List.sum_cons, List.length_cons, List.length_nil]
    omega

/-- Copying names takes memory and nothing else, and fails only without it. -/
theorem copyNames_spec {chain : List ℕ} {names : List Path} {name : ℕ → Path}
    (hname : ∀ d ∈ chain, fs.dentryLookupName d = .ok (name d)) :
    ∃ a, (∀ b ∈ a, b ∈ fs.alloc) ∧
      (fs.copyNames names chain
          = (.ok (some ((chain.map name).reverse ++ names)), { fs with alloc := a }) ∨
        fs.copyNames names chain = (.ok none, { fs with alloc := a }) ∧ false ∈ fs.alloc) := by
  induction chain generalizing fs names with
  | nil => exact ⟨fs.alloc, fun b hb => hb, .inl rfl⟩
  | cons d chain ih =>
    rw [State.copyNames, hname d List.mem_cons_self]
    unfold State.malloc
    have htail := Alloc.mem_of_mem_next fs.alloc
    cases hnext : fs.alloc.next.1 with
    | false => exact ⟨fs.alloc.next.2, htail, .inr ⟨rfl, Alloc.false_mem hnext⟩⟩
    | true =>
      obtain ⟨a, ha, h⟩ := @ih { fs with alloc := fs.alloc.next.2 } (name d :: names)
        fun c hc => hname c (List.mem_cons_of_mem d hc)
      refine ⟨a, fun b hb => htail b (ha b hb), ?_⟩
      rcases h with h | ⟨h, hfalse⟩
      · refine .inl (h.trans ?_)
        rw [List.map_cons, List.reverse_cons, List.append_assoc, List.singleton_append]
      · exact .inr ⟨h, htail false hfalse⟩

end Build

/-! ## The names of a dentry -/

section Names

variable {fs : State} {d p : ℕ}

theorem Namespace.walk_append (ns : Namespace) (d : ℕ) (names rest : List Path) :
    ns.walk d (names ++ rest) = (ns.walk d names).bind fun c => ns.walk c rest := by
  induction names generalizing d with
  | nil => rfl
  | cons name names ih =>
    rw [List.cons_append, Namespace.walk, Namespace.walk]
    cases ns.child d name with
    | none => rfl
    | some c => exact ih c

/-- Where names are unique, a dentry is what its parent has under its name. -/
theorem child_of_parent {ns : Namespace} (I : ns.TreeInv) (hn : ns.NamesUnique)
    (hp : ns.parent d = some p) : ns.child p (ns.dentry d).platformSafeName = some d := by
  have hmem := I.listed d p hp
  have hnd := hn p
  unfold Namespace.child
  generalize (ns.dentry p).childList = l at hmem hnd
  induction l with
  | nil => cases hmem
  | cons e l ih =>
    rw [List.map_cons, List.nodup_cons] at hnd
    rcases List.mem_cons.mp hmem with rfl | hmem
    · have hkey : State.hasKey (ns.dentry d).platformSafeName
          ((ns.dentry d).platformSafeName, d) = true := hasKey_iff.mpr rfl
      rw [List.find?_cons_of_pos hkey]
      rfl
    · have hne : e.1 ≠ (ns.dentry d).platformSafeName := by
        intro heq
        exact hnd.1 (heq ▸ List.mem_map_of_mem hmem)
      rw [List.find?_cons_of_neg (fun h => hne (hasKey_iff.mp h))]
      exact ih hmem hnd.2

/-- The names on the way up, with the root: they lead from the root to the dentry. -/
theorem lineage_names (I : NamespaceInv fs) (ha : fs.Attached d) {n fuel : ℕ}
    (hn : Height fs.parent d n) (hf : n < fuel) :
    ∃ names : List Path, (∀ c ∈ names, NameOk c) ∧ fs.walk fs.root names = some d ∧
      (∀ c ∈ lineage fs.parent fuel d,
        fs.dentryLookupName c = .ok (fs.dentry c).platformSafeName) ∧
      ((lineage fs.parent fuel d).map fun c => (fs.dentry c).platformSafeName).reverse
        = [slash] :: names := by
  have hname : ∀ c, (fs.dentry c).platformSafeName ≠ [] →
      fs.dentryLookupName c = .ok (fs.dentry c).platformSafeName := fun c hc => if_neg hc
  induction hn generalizing fuel with
  | @top d hd =>
    obtain ⟨fuel, rfl⟩ : ∃ k, fuel = k + 1 := ⟨fuel - 1, by omega⟩
    have hroot : d = fs.root := by
      rcases ha with ha | ha
      · exact ha
      · exact absurd hd ha
    subst hroot
    refine ⟨[], by simp, rfl, ?_, ?_⟩
    · rw [lineage_top fuel hd]
      intro c hc
      rw [List.mem_singleton] at hc
      subst hc
      refine hname fs.root ?_
      rw [I.rootName]
      exact List.cons_ne_nil _ _
    · rw [lineage_top fuel hd, List.map_singleton, List.reverse_singleton, I.rootName]
  | @up d p n hp hn ih =>
    obtain ⟨fuel, rfl⟩ : ∃ k, fuel = k + 1 := ⟨fuel - 1, by omega⟩
    obtain ⟨names, hok, hwalk, hlook, hrev⟩ := ih (I.tree.attached_of_parent hp)
      (show n < fuel by omega)
    have hown : NameOk (fs.dentry d).platformSafeName := I.names d (by simp [hp])
    refine ⟨names ++ [(fs.dentry d).platformSafeName], ?_, ?_, ?_, ?_⟩
    · intro c hc
      rcases List.mem_append.mp hc with hc | hc
      · exact hok c hc
      · rw [List.mem_singleton] at hc
        exact hc ▸ hown
    · -- the last step down is the one from the parent
      rw [Namespace.walk_append, hwalk, Option.bind_some, Namespace.walk,
        child_of_parent I.tree I.unique hp]
      rfl
    · rw [lineage_up fuel hp]
      intro c hc
      rcases List.mem_cons.mp hc with rfl | hc
      · exact hname c hown.ne_nil
      · exact hlook c hc
    · rw [lineage_up fuel hp, List.map_cons, List.reverse_cons, hrev, List.cons_append]

/-- The chain of a dentry of the tree is no longer than there are dentries. -/
theorem exists_height (I : fs.TreeInv) (ha : fs.Attached d) :
    ∃ n < fs.inodeNumber + 1, Height fs.parent d n := by
  obtain ⟨n, hn⟩ := (I.climbs_of_attached ha).height I.rootParent
  refine ⟨n, ?_, hn⟩
  have hlt := hn.lt_card (s := Finset.range (fs.inodeNumber + 1)) fun y hy => by
    have := I.le_of_attached (I.attached_of_climbs ha hy)
    exact Finset.mem_range.mpr (by omega)
  rwa [Finset.card_range] at hlt

/-- The path `fs_dentry_lookup` builds, and where its names lead. -/
theorem fsDentryLookup_spec (I : NamespaceInv fs) (ha : fs.Attached d) :
    ∃ names : List Path, (∀ c ∈ names, NameOk c) ∧ fs.walk fs.root names = some d ∧
      ∃ a ret path, (∀ b ∈ a, b ∈ fs.alloc) ∧
        fs.fsDentryLookup d = some (ret, path, { fs with alloc := a }) ∧
        (ret = 0 ∧ path = some (pathText names) ∨ path = none ∧ false ∈ fs.alloc) := by
  obtain ⟨n, hlt, hn⟩ := exists_height I.tree ha
  obtain ⟨names, hok, hwalk, hlook, hrev⟩ := lineage_names I ha hn hlt
  refine ⟨names, hok, hwalk, ?_⟩
  have hlength : (lineage fs.parent (fs.inodeNumber + 1) d).length = names.length + 1 := by
    rw [← List.length_cons (a := [slash]), ← hrev, List.length_reverse, List.length_map]
  have hparent : (fun d => (fs.dentry d).parent) = fs.parent := rfl
  unfold State.fsDentryLookup State.malloc
  rw [hparent]
  have htail := Alloc.mem_of_mem_next fs.alloc
  cases hnext : fs.alloc.next.1 with
  | false => exact ⟨_, _, _, htail, rfl, .inr ⟨rfl, Alloc.false_mem hnext⟩⟩
  | true =>
    have hcopy := @copyNames_spec { fs with alloc := fs.alloc.next.2 }
      (lineage fs.parent (fs.inodeNumber + 1) d) [] (fun c => (fs.dentry c).platformSafeName) hlook
    rw [List.append_nil, hrev] at hcopy
    obtain ⟨a, hsub, hcopy⟩ := hcopy
    have hsub' : ∀ b ∈ a, b ∈ fs.alloc := fun b hb => htail b (hsub b hb)
    rcases hcopy with hcopy | ⟨hcopy, hfalse⟩
    · -- every name is copied
      have hcat := catNames_path names
      rw [List.length_cons, ← hlength] at hcat
      have hsub'' : ∀ b ∈ a.next.2, b ∈ fs.alloc := fun b hb =>
        hsub' b (Alloc.mem_of_mem_next a b hb)
      cases hbuf : a.next.1 with
      | false =>
        refine ⟨a.next.2, -ltfsNoMemory, none, hsub'', ?_,
          .inr ⟨rfl, hsub' false (Alloc.false_mem hbuf)⟩⟩
        dsimp only
        rw [hcopy]
        dsimp only
        rw [hbuf]
      | true =>
        refine ⟨a.next.2, 0, some (pathText names), hsub'', ?_, .inl ⟨rfl, rfl⟩⟩
        dsimp only
        rw [hcopy]
        dsimp only
        rw [hbuf, hcat]
        rfl
    · refine ⟨a, 0, none, hsub', ?_, .inr ⟨rfl, htail false hfalse⟩⟩
      dsimp only
      rw [hcopy]

end Names

/-! ## What a lookup does to the reference counts -/

/-- One reference more to `d`. -/
def raised (n : ℕ → ℤ) (d : ℕ) : ℕ → ℤ := update n d (n d + 1)

section Handles

variable {fs : State} {n : ℕ → ℤ} {d p : ℕ}

theorem raised_apply (n : ℕ → ℤ) (d x : ℕ) : raised n d x = n x + if x = d then 1 else 0 := by
  unfold raised
  by_cases h : x = d
  · subst h
    simp
  · simp [h]

theorem raised_comm (n : ℕ → ℤ) (a b : ℕ) : raised (raised n a) b = raised (raised n b) a := by
  funext x
  simp only [raised_apply]
  omega

theorem numhandles_hold (fs : State) (d : ℕ) :
    (fs.hold d).numhandles = raised fs.numhandles d := rfl

theorem numhandles_unhold (h : fs.numhandles = raised n d) : (fs.unhold d).numhandles = n := by
  show update fs.numhandles d (fs.numhandles d - 1) = n
  rw [h, raised, update_self, update_idem]
  exact update_eq_self_iff.mpr (by omega)

/-- A dentry that others refer to is released without being disposed. -/
theorem fsReleaseDentry_handles (h : fs.numhandles = raised n d) (hn : 1 ≤ n d) :
    fs.fsReleaseDentry d = fs.unhold d := by
  have hback := numhandles_unhold h
  unfold State.fsReleaseDentry
  dsimp only
  rw [hback, if_pos (by omega)]

/-- The outcomes of a lookup in a directory, with memory or without. -/
theorem fsDirectoryLookup_handles (fs : State) (p : ℕ) (name : Path) :
    (∃ e, fs.fsDirectoryLookup p name = (.error e, fs)) ∨
    (∃ fs', fs.fsDirectoryLookup p name = (.ok none, fs') ∧
      fs'.toNamespace = fs.toNamespace ∧ fs'.numhandles = fs.numhandles) ∨
    (∃ d fs', fs.fsDirectoryLookup p name = (.ok (some d), fs') ∧ fs.child p name = some d ∧
      fs'.toNamespace = fs.toNamespace ∧ fs'.numhandles = raised fs.numhandles d) := by
  unfold State.fsDirectoryLookup State.fsFindKeyFromHashTable State.hashMalloc
  split
  · exact .inl ⟨_, rfl⟩
  · split
    · exact .inr (.inl ⟨fs, rfl, rfl, rfl⟩)
    · cases fs.hashAlloc.next.1 with
      | false => exact .inr (.inl ⟨_, rfl, rfl, rfl⟩)
      | true =>
        dsimp only
        cases hf : fs.child p name with
        | none =>
          have hf' : ((fs.dentry p).childList.find? (State.hasKey name)).map Prod.snd = none := hf
          rw [hf']
          exact .inr (.inl ⟨_, rfl, rfl, rfl⟩)
        | some d =>
          have hf' : ((fs.dentry p).childList.find? (State.hasKey name)).map Prod.snd
            = some d := hf
          rw [hf']
          exact .inr (.inr ⟨d, _, rfl, rfl, rfl, rfl⟩)

/-- The walk gives the reference to the directory it starts from back, and takes one to the
dentry it ends at, and to its parent where the caller asked for that. -/
theorem fsPathWalk_handles (keepParent : Bool) (names : List Path) (I : fs.TreeInv)
    (hn : ∀ x, fs.Attached x → 1 ≤ n x) (hd : fs.Attached d)
    (hc : fs.numhandles = raised n d) :
    (∃ e fs', fs.fsPathWalk keepParent d names = (.error e, fs') ∧
      fs'.toNamespace = fs.toNamespace ∧ fs'.numhandles = n) ∨
    (∃ c fs', fs.fsPathWalk keepParent d names = (.ok c, fs') ∧
      fs'.toNamespace = fs.toNamespace ∧ fs.Attached c ∧
      if keepParent = true ∧ names ≠ [] then
        ∃ p, fs.parent c = some p ∧ fs'.numhandles = raised (raised n p) c
      else fs'.numhandles = raised n c) := by
  induction names generalizing fs d with
  | nil =>
    refine .inr ⟨d, fs, rfl, rfl, hd, ?_⟩
    rw [if_neg (by simp)]
    exact hc
  | cons name rest ih =>
    unfold State.fsPathWalk
    rcases fsDirectoryLookup_handles fs d name with ⟨e, h⟩ | ⟨fs₁, h, heq, hh⟩ |
      ⟨c, fs₁, h, hsome, heq, hh⟩
    · rw [h]
      dsimp only
      rw [fsReleaseDentry_handles hc (hn d hd)]
      exact .inl ⟨e, _, rfl, rfl, numhandles_unhold hc⟩
    · rw [h]
      dsimp only
      rw [fsReleaseDentry_handles (hh.trans hc) (hn d hd)]
      exact .inl ⟨_, _, rfl, heq, numhandles_unhold (hh.trans hc)⟩
    · rw [h]
      dsimp only
      have hpc := (child_spec I hsome).2.1
      have hattached : fs.Attached c := .inr (by simp [hpc])
      have hboth : fs₁.numhandles = raised (raised n c) d := by
        rw [hh, hc]
        exact raised_comm n d c
      by_cases hrest : rest ≠ [] ∨ keepParent = false
      · -- the parent is given back
        rw [if_pos hrest]
        have heq' : (fs₁.unhold d).toNamespace = fs.toNamespace := heq
        have hone : (fs₁.unhold d).numhandles = raised n c := numhandles_unhold hboth
        have hrec := @ih (fs₁.unhold d) c (heq' ▸ I) (heq' ▸ hn) (heq' ▸ hattached) hone
        rw [heq'] at hrec
        rcases hrec with ⟨e, fs₂, h₂, heq₂, hh₂⟩ | ⟨c₂, fs₂, h₂, heq₂, ha₂, hh₂⟩
        · exact .inl ⟨e, fs₂, h₂, heq₂, hh₂⟩
        · refine .inr ⟨c₂, fs₂, h₂, heq₂, ha₂, ?_⟩
          by_cases hk : keepParent = true
          · have hne : rest ≠ [] := by simpa [hk] using hrest
            rw [if_pos ⟨hk, hne⟩] at hh₂
            rw [if_pos ⟨hk, List.cons_ne_nil _ _⟩]
            exact hh₂
          · rw [if_neg (by simp [hk])] at hh₂ ⊢
            exact hh₂
      · -- the last name, with its parent kept
        rw [if_neg hrest]
        obtain ⟨rfl, hkeep⟩ : rest = [] ∧ keepParent = true := by
          simpa only [ne_eq, not_or, not_not, Bool.not_eq_false] using hrest
        refine .inr ⟨c, fs₁, rfl, heq, hattached, ?_⟩
        rw [if_pos ⟨hkeep, List.cons_ne_nil _ _⟩]
        refine ⟨d, hpc, ?_⟩
        rw [hboth]
        exact raised_comm n c d

/-- Looking up a path: a failure changes no count. -/
theorem fsPathLookup_handles (keepParent : Bool) (path : Path) (I : fs.TreeInv)
    (hn : ∀ x, fs.Attached x → 1 ≤ fs.numhandles x) :
    (∃ e fs', fs.fsPathLookup keepParent path = (.error e, fs') ∧
      fs'.toNamespace = fs.toNamespace ∧ fs'.numhandles = fs.numhandles) ∨
    (∃ c fs', fs.fsPathLookup keepParent path = (.ok c, fs') ∧
      fs'.toNamespace = fs.toNamespace ∧ fs.Attached c ∧
      if keepParent = true ∧ pathNames path ≠ [] then
        ∃ p, fs.parent c = some p ∧ fs'.numhandles = raised (raised fs.numhandles p) c
      else fs'.numhandles = raised fs.numhandles c) := by
  unfold State.fsPathLookup State.malloc
  cases fs.alloc.next.1 with
  | false => exact .inl ⟨_, _, rfl, rfl, rfl⟩
  | true =>
    have hroot : fs.Attached fs.root := .inl rfl
    dsimp only
    unfold pathNames
    split
    · refine .inr ⟨fs.root, _, rfl, rfl, hroot, ?_⟩
      rw [if_neg (by simp)]
      rfl
    · exact @fsPathWalk_handles (State.hold { fs with alloc := fs.alloc.next.2 } fs.root) _ _
        keepParent _ I hn hroot rfl

end Handles

/-! ## Lookup inverts construction -/

section Inverse

variable {fs : State} {d : ℕ}

/-- With memory, a lookup finds what there is, as long as the names are short. -/
theorem fsPathWalk_of_walk (keepParent : Bool) {names : List Path} {c : ℕ} (hq : HashQuiet fs)
    (hok : ∀ name ∈ names, NameOk name) (hwalk : fs.walk d names = some c) :
    (fs.fsPathWalk keepParent d names).1 = .ok c := by
  induction names generalizing fs d with
  | nil =>
    obtain rfl := Option.some.inj hwalk
    rfl
  | cons name rest ih =>
    have hshort := (hok name List.mem_cons_self).short
    have hrest : ∀ name ∈ rest, NameOk name := fun x hx => hok x (List.mem_cons_of_mem name hx)
    rw [Namespace.walk, Option.bind_eq_some_iff] at hwalk
    obtain ⟨b, hchild, hwalk⟩ := hwalk
    have hne : (fs.dentry d).childList.length ≠ 0 := by
      intro hzero
      rw [Namespace.child, List.length_eq_zero_iff.mp hzero] at hchild
      cases hchild
    have hfind : ((fs.dentry d).childList.find? (State.hasKey name)).map Prod.snd = some b := hchild
    have htail : ∀ b ∈ fs.hashAlloc.tail, b = true := fun b hb => hq b (List.mem_of_mem_tail hb)
    rw [State.fsPathWalk, State.fsDirectoryLookup, if_neg (by omega), if_neg hne,
      fsFindKey_of_quiet hq, hfind]
    dsimp only
    split
    · exact ih htail hrest hwalk
    · exact ih htail hrest hwalk

/-- The names of a path that was built are the ones it was built from. -/
theorem pathNames_pathText {names : List Path} (hok : ∀ name ∈ names, NameOk name) :
    pathNames (pathText names) = names := by
  unfold pathText
  by_cases hnil : names = []
  · rw [if_pos hnil, hnil]
    rfl
  · rw [if_neg hnil]
    obtain ⟨name, rest, rfl⟩ := List.exists_cons_of_ne_nil hnil
    have hne := (hok name List.mem_cons_self).ne_nil
    have hsplit := splitOn_joinPath slash fun c hc => (hok c hc).noSlash
    have hpath : joinPath slash (name :: rest) = slash :: (name ++ joinPath slash rest) := rfl
    rw [hpath, splitOn_cons_sep, List.cons.injEq] at hsplit
    have hother : ¬ (joinPath slash (name :: rest) = [] ∨
        joinPath slash (name :: rest) = [slash]) := by
      rw [hpath]
      simp [hne]
    rw [pathNames, if_neg hother, hpath, List.drop_one, List.tail_cons]
    exact hsplit.2

/-- **Paths.** The path of a dentry leads back to it. A lookup refers to the dentry it finds, and
a failed one to nothing. -/
theorem path_lookup_inverts (I : NamespaceInv fs) :
    (∀ d, fs.Linked d →
      (∀ path fs₁, fs.fsDentryLookup d = some (0, some path, fs₁) → MemoryLasts fs₁ →
        ∀ keepParent, (fs₁.fsPathLookup keepParent path).1 = .ok d) ∧
      (MemoryLasts fs → ∃ path fs₁, fs.fsDentryLookup d = some (0, some path, fs₁) ∧
        MemoryLasts fs₁)) ∧
    (∀ path c fs', fs.fsPathLookup false path = (.ok c, fs') →
      fs'.numhandles = raised fs.numhandles c) ∧
    (∀ keepParent path e fs', fs.fsPathLookup keepParent path = (.error e, fs') →
      fs'.numhandles = fs.numhandles) := by
  refine ⟨fun d hd => ?_, fun path c fs' h => ?_, fun keepParent path e fs' h => ?_⟩
  · have ha := I.tree.attached_of_linked hd
    obtain ⟨names, hok, hwalk, a, ret, path, hsub, hlook, hcases⟩ := fsDentryLookup_spec I ha
    constructor
    · intro path' fs₁ h hmem keepParent
      rw [hlook] at h
      obtain ⟨rfl, rfl, rfl⟩ : ret = 0 ∧ path = some path' ∧ { fs with alloc := a } = fs₁ := by
        simpa using h
      rcases hcases with ⟨-, hpath⟩ | ⟨hnone, -⟩
      · obtain rfl := Option.some.inj hpath
        have hnames := pathNames_pathText hok
        unfold State.fsPathLookup State.malloc
        rw [Alloc.next_of_quiet hmem.1]
        dsimp only
        unfold pathNames at hnames
        split
        · -- the path of the root
          rename_i hroot
          rw [if_pos hroot] at hnames
          rw [← hnames] at hwalk
          obtain rfl := Option.some.inj hwalk
          rfl
        · rename_i hroot
          rw [if_neg hroot] at hnames
          rw [hnames]
          exact fsPathWalk_of_walk keepParent hmem.2 hok hwalk
      · cases hnone
    · intro hmem
      rcases hcases with ⟨rfl, rfl⟩ | ⟨-, hfalse⟩
      · exact ⟨_, _, hlook, fun b hb => hmem.1 b (hsub b hb), hmem.2⟩
      · exact absurd (hmem.1 false hfalse) (by simp)
  · rcases fsPathLookup_handles false path I.tree I.handles with ⟨e, fs₂, h₂, -, -⟩ |
      ⟨c₂, fs₂, h₂, -, -, hh⟩
    · rw [h₂] at h
      cases h
    · rw [h₂] at h
      cases h
      rw [if_neg (by simp)] at hh
      exact hh
  · rcases fsPathLookup_handles keepParent path I.tree I.handles with ⟨e₂, fs₂, h₂, -, hh⟩ |
      ⟨c₂, fs₂, h₂, -, -, -⟩
    · rw [h₂] at h
      cases h
      exact hh
    · rw [h₂] at h
      cases h

end Inverse

/-! ## A file in a directory -/

/-- A directory `/d` and a file `/d/f`. -/
def fileInDir : System := run .ok 1 [createCall "/d" true, createCall "/d/f" false] (emptyRoot 1)

theorem fileInDir_inv : NamespaceInv fileInDir.fs := by
  have hcalm : AlongRun .ok 1 (Calm .ok) [createCall "/d" true, createCall "/d/f" false]
      (emptyRoot 1) := by
    refine ⟨?_, ?_, trivial⟩
    · exact ⟨by decide, by rintro _ _ ⟨⟩, by rintro _ _ _ ⟨⟩⟩
    · exact ⟨by decide, by rintro _ _ ⟨⟩, by rintro _ _ _ ⟨⟩⟩
  have hnames : (emptyRoot 1).fs.NamesUnique := by
    intro p
    rw [emptyRoot_childList]
    exact List.nodup_nil
  obtain ⟨I, hunique⟩ := run_spec .ok 1 (E := False) (P := fun fs => fs.NamesUnique)
    (fun c fs hc => ⟨hc, False.elim⟩) (fun c fs fs' I hc hn => hc.namesUnique I hn)
    (emptyRoot_inv 1) hnames hcalm
  refine ⟨I.tree, hunique, by decide +kernel, fun d hd => ?_, fun d hd => ?_⟩
  · -- only the two that were made have a parent
    have hle : d ≤ 3 := by
      have hnumber : fileInDir.fs.inodeNumber = 3 := by decide +kernel
      by_contra hlt
      exact hd (I.tree.fresh d (hnumber.trans_lt (by omega)))
    obtain rfl | rfl | rfl | rfl : d = 0 ∨ d = 1 ∨ d = 2 ∨ d = 3 := by omega
    · exact absurd (show fileInDir.fs.parent 0 = none by decide +kernel) hd
    · exact absurd (show fileInDir.fs.parent 1 = none by decide +kernel) hd
    · exact ⟨by decide +kernel, by decide +kernel, by decide +kernel⟩
    · exact ⟨by decide +kernel, by decide +kernel, by decide +kernel⟩
  · have hle := I.handles.le d
    have href : (run .ok 1 [createCall "/d" true, createCall "/d/f" false]
      (emptyRoot 1)).fs.treeRef d = 1 := if_pos hd
    rw [href] at hle
    exact le_trans (by omega) hle

/-- The file has the path `/d/f`, and the path leads to the file. -/
theorem fileInDir_path :
    ∃ fs₁, fileInDir.fs.fsDentryLookup 3 = some (0, some (ascii "/d/f"), fs₁) ∧
      ∀ keepParent, (fs₁.fsPathLookup keepParent (ascii "/d/f")).1 = .ok 3 := by
  have hlinked : fileInDir.fs.Linked 3 :=
    .inr ⟨2, (ascii "f", 3), by decide +kernel, rfl⟩
  have hmem : MemoryLasts fileInDir.fs := by
    constructor
    · show ∀ b ∈ fileInDir.fs.alloc, b = true
      decide +kernel
    · show ∀ b ∈ fileInDir.fs.hashAlloc, b = true
      decide +kernel
  obtain ⟨hback, hbuilt⟩ := (path_lookup_inverts fileInDir_inv).1 3 hlinked
  obtain ⟨path, fs₁, h, hmem₁⟩ := hbuilt hmem
  have hpath : (fileInDir.fs.fsDentryLookup 3).bind (fun r => r.2.1) = some (ascii "/d/f") := by
    decide +kernel
  rw [h] at hpath
  obtain rfl : path = ascii "/d/f" := Option.some.inj hpath
  exact ⟨fs₁, h, hback _ fs₁ h hmem₁⟩

end Ltfs.Fs

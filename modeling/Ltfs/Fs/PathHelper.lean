import Ltfs.Fs.DentryPath
import Ltfs.Fs.IndexXml
import Ltfs.Fs.Xattr
import Ltfs.Lib.LinkedList

/-!
# Path helpers

`inc_journal.c`: the stack of directories that leads to the parent of a journal entry, kept as a
doubly linked list with its head, its tail and its length.

* `incjPushDirectory`, `incjPopDirectory`, `incjComparePath`, `incjGetPath` — the operations on the
  nodes; `Represents` says which stack they stand for.
* `push_holds`, `pop_holds` — what one operation does to the nodes; `runOps_holds` for a run, beside
  other helpers.
* `pathHelper_meets` — the stack survives exactly the runs that do not come back to the root; the
  path of anything but the root cannot be built; names that are missing are taken for the same.
* `incjCreatePathHelper_represents` — a new helper holds the dentries of `pushDirectories`.

The references that a helper holds on its dentries, and allocation failures, are left out.
-/

namespace Ltfs.Fs

open Lib.LinkedList

/-- The name and the dentry of `struct incj_path_element`. The dentry may be missing. -/
structure PathEntry where
  name : Path
  d : Option ℕ
deriving DecidableEq, Repr

/-- `struct incj_path_helper` -/
structure PathHelper where
  head : Option ℕ
  tail : Option ℕ
  elems : ℕ
deriving DecidableEq, Repr

abbrev PathHeap := Heap PathEntry

namespace PathHelper

/-- The helper of the root directory. -/
def root : PathHelper := ⟨none, none, 0⟩

/-- How an operation ends. -/
inductive Outcome where
  | done (h : PathHeap) (pm : PathHelper)
  /-- An error; the helper is as before. -/
  | refused (code : ℤ)
  /-- An error; the helper is destroyed. -/
  | destroyed (code : ℤ)
  /-- A null pointer was followed, or memory that is not there. -/
  | undefined

/-- `fs_directory_lookup`, which needs a directory. -/
def directoryLookup (fs : State) (basedir : Option ℕ) (name : Path) : Except ℤ (Option ℕ) :=
  match basedir with
  | none => .error (-ltfsNullArg)
  | some basedir => fs.lookupName basedir name

/-- `incj_push_directory`. -/
def incjPushDirectory (fs : State) (name : Path) (h : PathHeap) (pm : PathHelper) : Outcome :=
  let parent : Option (Option ℕ) :=
    if pm.elems = 0 then some (some fs.root)
    else (pm.tail.bind h.cells).map fun tail => tail.val.d
  match parent with
  | none => .undefined
  | some parent =>
    match directoryLookup fs parent name with
    | .error _ => .destroyed (-ltfsInvalidPath)
    | .ok d =>
      if pm.elems = 0 then
        .done (h.alloc ⟨none, none, ⟨name, d⟩⟩) ⟨some h.fresh, some h.fresh, 1⟩
      else
        match pm.tail with
        | none => .undefined
        | some curTail =>
          .done ((h.alloc ⟨some curTail, none, ⟨name, d⟩⟩).modify curTail fun n =>
            { n with next := some h.fresh }) ⟨pm.head, some h.fresh, pm.elems + 1⟩

/-- `incj_pop_directory`. -/
def incjPopDirectory (h : PathHeap) (pm : PathHelper) : Outcome :=
  -- Must have one or more elements
  if pm.elems = 0 then .refused (-ltfsUnexpectedValue)
  else
    match pm.tail with
    | none => .undefined
    | some curTail =>
      match (h.cells curTail).bind Node.prev with
      | none => .undefined
      | some newTail =>
        let elems := pm.elems - 1
        if h.cells newTail = none then .undefined
        else
          .done ((h.modify newTail fun n => { n with next := none }).free curTail)
            ⟨if elems = 0 then none else pm.head, some newTail, elems⟩

/-- The loop of `incj_compare_path`, for a number of rounds: the matches, and where it stops. -/
def compareLoop (h : PathHeap) : ℕ → Option ℕ → Option ℕ → ℕ →
    Option (ℕ × Option ℕ × Option ℕ)
  | 0, _, _, _ => none
  | rounds + 1, some cur1, some cur2, matched =>
    match h.cells cur1, h.cells cur2 with
    | some n1, some n2 =>
      if n1.val.d ≠ n2.val.d then some (matched, some cur1, some cur2)
      else compareLoop h rounds n1.next n2.next (matched + 1)
    | _, _ => none
  | _ + 1, cur1, cur2, matched => some (matched, cur1, cur2)

/-- The results of `incj_compare_path`. -/
structure Comparison where
  matched : ℕ
  pops : ℕ
  perfectMatch : Bool
deriving DecidableEq, Repr

/-- `incj_compare_path`. -/
def incjComparePath (h : PathHeap) (now next : PathHelper) : Option Comparison :=
  if now.head = none ∧ next.head = none then some ⟨0, 0, true⟩
  else
    (compareLoop h (now.elems + 1) now.head next.head 0).map fun (matched, cur1, cur2) =>
      ⟨matched, now.elems - matched, cur1.isNone && cur2.isNone⟩

/-- What `%s` prints for a path, or for the null pointer. -/
def formatPath : Option Path → Path
  | none => ascii "(null)"
  | some path => path

/-- The loop of `incj_get_path`. The cursor is an address of a node and a number of nodes behind
it; there is no node behind another one in its memory. -/
def getPathLoop (h : PathHeap) : ℕ → Option (ℕ × ℕ) → Option Path → Option Path
  | 0, _, _ => none
  | _ + 1, none, path => some (slash :: formatPath path)
  | rounds + 1, some (cur, behind), path =>
    if behind ≠ 0 then none
    else
      match h.cells cur with
      | none => none
      | some n =>
        -- `cur++`
        getPathLoop h rounds (some (cur, behind + 1)) (some (formatPath path ++ slash :: n.val.name))

/-- `incj_get_path`; `none` reads outside of every node. -/
def incjGetPath (h : PathHeap) (pm : PathHelper) : Option Path :=
  match pm.head with
  | none => some [slash]
  | some cur => getPathLoop h (pm.elems + 1) (some (cur, 0)) none

/-! ## Stacks -/

/-- The directories from the root on. -/
abbrev Stack := List PathEntry

/-- The text of a path. -/
def pathText (stack : Stack) : Path := slash :: [slash].intercalate (stack.map PathEntry.name)

/-- A helper with its nodes in memory. -/
structure Holds (h : PathHeap) (pm : PathHelper) (items : List (ℕ × PathEntry)) : Prop where
  owns : Owns h items
  head : pm.head = first items
  tail : pm.tail = last items
  elems : pm.elems = items.length

/-- The stack that a helper stands for. -/
def Represents (h : PathHeap) (pm : PathHelper) (stack : Stack) : Prop :=
  ∃ items, Holds h pm items ∧ items.map Prod.snd = stack

/-- Two lists without a common node. -/
def Apart (items others : List (ℕ × PathEntry)) : Prop := ∀ x ∈ items, ∀ y ∈ others, x.1 ≠ y.1

/-- One call on a stack of directories. -/
inductive PathOp where
  | push (name : Path)
  | pop

/-- The directory on top of a stack. -/
def top (fs : State) (stack : Stack) : Option ℕ :=
  match stack.getLast? with
  | none => some fs.root
  | some x => x.d

/-- What a call does to a stack, if it succeeds; a root is not popped. -/
def PathOp.apply (fs : State) (stack : Stack) : PathOp → Option Stack
  | .push name =>
    match directoryLookup fs (top fs stack) name with
    | .error _ => none
    | .ok d => some (stack ++ [⟨name, d⟩])
  | .pop => if stack = [] then none else some stack.dropLast

/-- A run on a stack. -/
def stackRun (fs : State) : List PathOp → Stack → Option Stack
  | [], stack => some stack
  | op :: ops, stack => (op.apply fs stack).bind (stackRun fs ops)

/-- One call on the nodes. -/
def PathOp.exec (fs : State) (h : PathHeap) (pm : PathHelper) : PathOp → Outcome
  | .push name => incjPushDirectory fs name h pm
  | .pop => incjPopDirectory h pm

/-- A run on the nodes, which ends with the first call that does not succeed. -/
def runOps (fs : State) : List PathOp → PathHeap → PathHelper → Outcome
  | [], h, pm => .done h pm
  | op :: ops, h, pm =>
    match op.exec fs h pm with
    | .done h pm => runOps fs ops h pm
    | outcome => outcome

/-- A run that starts at a depth takes the last directory off at some time. -/
def returnsToRoot : ℕ → List PathOp → Bool
  | _, [] => false
  | depth, .push _ :: ops => returnsToRoot (depth + 1) ops
  | depth, .pop :: ops => depth == 1 || returnsToRoot (depth - 1) ops

/-! ## One operation -/

theorem holds_root (h : PathHeap) : Holds h root [] := ⟨Owns.nil, rfl, rfl, rfl⟩

/-- The top of a stack is where the tail points to. -/
theorem Holds.top {h : PathHeap} {pm : PathHelper} {items : List (ℕ × PathEntry)} {a : ℕ}
    {x : PathEntry} (hh : Holds h pm (items ++ [(a, x)])) :
    pm.elems = items.length + 1 ∧ pm.tail = some a ∧ h.cells a = some ⟨last items, none, x⟩ := by
  refine ⟨?_, ?_, ?_⟩
  · rw [hh.elems, List.length_append, List.length_singleton]
  · rw [hh.tail, last_concat]
  · have hseg := hh.owns.seg
    rw [seg_append] at hseg
    simp only [Option.or_none] at hseg
    exact hseg.2.1

/-- A push that finds its directory puts the name on the stack. -/
theorem push_holds {fs : State} {h : PathHeap} {pm : PathHelper} {items : List (ℕ × PathEntry)}
    {name : Path} {d : Option ℕ} (hh : Holds h pm items)
    (hd : directoryLookup fs (PathHelper.top fs (items.map Prod.snd)) name = .ok d) :
    ∃ h' pm', incjPushDirectory fs name h pm = .done h' pm' ∧
      Holds h' pm' (items ++ [(h.fresh, ⟨name, d⟩)]) ∧
      ∀ b, b ≠ h.fresh → (∀ x ∈ items, b ≠ x.1) → h'.cells b = h.cells b := by
  have helems := hh.elems
  rcases List.eq_nil_or_concat items with rfl | ⟨below, ⟨a, x⟩, rfl⟩
  · -- the first directory
    have hd' : directoryLookup fs (some fs.root) name = .ok d := hd
    rw [List.length_nil] at helems
    refine ⟨_, ⟨some h.fresh, some h.fresh, 1⟩, ?_, ⟨Owns.singleton h _, rfl, rfl, rfl⟩,
      fun b hb _ => Heap.alloc_cells hb⟩
    rw [incjPushDirectory]
    simp only [helems, if_true, hd']
  · rw [List.concat_eq_append] at hh hd ⊢
    obtain ⟨hcount, htail, hcell⟩ := hh.top
    have hne : pm.elems ≠ 0 := by omega
    have hd' : directoryLookup fs x.d name = .ok d := by
      rw [PathHelper.top, List.map_append, List.getLast?_append] at hd
      exact hd
    refine ⟨_, ⟨pm.head, some h.fresh, pm.elems + 1⟩, ?_, ⟨hh.owns.append _, ?_, ?_, ?_⟩, ?_⟩
    · rw [incjPushDirectory]
      simp only [hne, if_false, htail, Option.bind_some, hcell, Option.map_some, hd']
    · rw [first_append, ← hh.head]
      have hsome : pm.head.isSome := by
        rw [hh.head]
        cases below <;> rfl
      exact (Option.or_of_isSome hsome).symm
    · rw [last_concat]
    · simp only [hh.elems, List.length_append, List.length_singleton]
    · intro b hb hitems
      rw [Heap.modify_cells (hitems (a, x) (by simp)), Heap.alloc_cells hb]

/-- A pop takes the top off, unless nothing is left below: then it follows a null pointer. -/
theorem pop_holds {h : PathHeap} {pm : PathHelper} {items : List (ℕ × PathEntry)}
    {x : ℕ × PathEntry} (hh : Holds h pm (items ++ [x])) :
    (items = [] ∧ incjPopDirectory h pm = .undefined) ∨
    (items ≠ [] ∧ ∃ h' pm', incjPopDirectory h pm = .done h' pm' ∧ Holds h' pm' items ∧
      ∀ b, (∀ y ∈ items ++ [x], b ≠ y.1) → h'.cells b = h.cells b) := by
  obtain ⟨a, x⟩ := x
  obtain ⟨hcount, htail, hcell⟩ := hh.top
  have hne : pm.elems ≠ 0 := by omega
  rcases List.eq_nil_or_concat items with rfl | ⟨below, ⟨t, w⟩, rfl⟩
  · -- the only one
    refine .inl ⟨rfl, ?_⟩
    rw [incjPopDirectory]
    simp only [hne, if_false, htail, Option.bind_some, hcell]
    rfl
  · rw [List.concat_eq_append] at hh hcell hcount ⊢
    rw [List.length_append, List.length_singleton] at hcount
    obtain ⟨n, hn⟩ := hh.owns.seg.exists_cell (t, w) (by simp)
    have hn' : h.cells t = some n := hn
    refine .inr ⟨by simp, _, ⟨pm.head, some t, pm.elems - 1⟩, ?_, ⟨hh.owns.dropLast, ?_, ?_, ?_⟩, ?_⟩
    · rw [incjPopDirectory]
      simp only [hne, if_false, htail, Option.bind_some, hcell, last_concat, hn', reduceCtorEq]
      rw [if_neg (by omega)]
    · rw [hh.head, first_append]
      refine Option.or_of_isSome ?_
      cases below <;> rfl
    · rw [last_concat]
    · simp only [hh.elems, List.length_append, List.length_singleton, Nat.add_sub_cancel]
    · intro b hb
      rw [Heap.free_cells (hb (a, x) (by simp)), Heap.modify_cells (hb (t, w) (by simp))]

/-! ## Runs -/

/-- A run that comes back to the root in between follows a null pointer; every other run leaves a
helper with the stack that it should have, and other helpers as they were. The induction is on the
calls. -/
theorem runOps_holds (fs : State) (ops : List PathOp) : ∀ {h : PathHeap} {pm : PathHelper}
    {items : List (ℕ × PathEntry)} {stack : Stack}, Holds h pm items →
    stackRun fs ops (items.map Prod.snd) = some stack →
    (returnsToRoot items.length ops = true ∧ runOps fs ops h pm = .undefined) ∨
    (returnsToRoot items.length ops = false ∧ ∃ h' pm' items', runOps fs ops h pm = .done h' pm' ∧
      Holds h' pm' items' ∧ items'.map Prod.snd = stack ∧
      ∀ others, Owns h others → Apart items others → Owns h' others ∧ Apart items' others) := by
  induction ops with
  | nil =>
    intro h pm items stack hh hrun
    rw [stackRun, Option.some.injEq] at hrun
    exact .inr ⟨rfl, h, pm, items, rfl, hh, hrun, fun others ho ha => ⟨ho, ha⟩⟩
  | cons op ops ih =>
    intro h pm items stack hh hrun
    cases op with
    | push name =>
      rw [stackRun, PathOp.apply] at hrun
      cases hd : directoryLookup fs (PathHelper.top fs (items.map Prod.snd)) name with
      | error code =>
        rw [hd] at hrun
        cases hrun
      | ok d =>
        rw [hd] at hrun
        obtain ⟨h₁, pm₁, hpush, hh₁, hframe⟩ := push_holds hh hd
        have hrun₁ : stackRun fs ops ((items ++ [(h.fresh, (⟨name, d⟩ : PathEntry))]).map Prod.snd)
            = some stack := by
          rw [List.map_append]
          exact hrun
        rw [runOps, PathOp.exec, hpush, returnsToRoot]
        have hlen : (items ++ [(h.fresh, (⟨name, d⟩ : PathEntry))]).length = items.length + 1 := by
          rw [List.length_append, List.length_singleton]
        rw [← hlen]
        refine (ih hh₁ hrun₁).imp id fun hrest => ?_
        obtain ⟨hroot, h', pm', items', hdone, hh', hstack, hothers⟩ := hrest
        refine ⟨hroot, h', pm', items', hdone, hh', hstack, fun others ho ha => ?_⟩
        -- the new node is nobody's
        have hfresh := ho.ne_fresh
        refine hothers others (ho.congr fun y hy => ?_) fun x hx y hy => ?_
        · exact hframe y.1 (hfresh y hy) fun x hx => (ha x hx y hy).symm
        · rcases List.mem_append.mp hx with hx | hx
          · exact ha x hx y hy
          · rw [List.mem_singleton.mp hx]
            exact (hfresh y hy).symm
    | pop =>
      rcases List.eq_nil_or_concat items with rfl | ⟨below, x, rfl⟩
      · cases hrun
      · rw [List.concat_eq_append] at hh hrun ⊢
        have hrun₁ : stackRun fs ops (below.map Prod.snd) = some stack := by
          rw [stackRun, PathOp.apply, List.map_append, List.map_singleton, if_neg (by simp),
            List.dropLast_concat] at hrun
          exact hrun
        rw [runOps, PathOp.exec, returnsToRoot, List.length_append, List.length_singleton,
          Nat.add_sub_cancel]
        rcases pop_holds hh with ⟨rfl, hpop⟩ | ⟨hne, h₁, pm₁, hpop, hh₁, hframe⟩
        · rw [hpop]
          exact .inl ⟨rfl, rfl⟩
        · have hdepth : (below.length + 1 == 1) = false := by
            have hpos := List.length_pos_of_ne_nil hne
            rw [beq_eq_false_iff_ne]
            omega
          rw [hpop, hdepth, Bool.false_or]
          refine (ih hh₁ hrun₁).imp id fun hrest => ?_
          obtain ⟨hroot, h', pm', items', hdone, hh', hstack, hothers⟩ := hrest
          refine ⟨hroot, h', pm', items', hdone, hh', hstack, fun others ho ha => ?_⟩
          refine hothers others (ho.congr fun y hy => ?_) fun z hz y hy => ?_
          · exact hframe y.1 fun z hz => (ha z hz y hy).symm
          · exact ha z (List.mem_append_left _ hz) y hy


/-! ## The text of a path -/

/-- The cursor leaves the first node and never finds another one. -/
theorem getPathLoop_eq_none (h : PathHeap) (rounds : ℕ) : ∀ (cur behind : ℕ) (path : Option Path),
    getPathLoop h rounds (some (cur, behind)) path = none := by
  induction rounds with
  | zero => exact fun _ _ _ => rfl
  | succ rounds ih =>
    intro cur behind path
    rw [getPathLoop]
    split
    · rfl
    · cases h.cells cur with
      | none => rfl
      | some n => exact ih cur (behind + 1) _

/-- The path of the root is the only one that is built. -/
theorem incjGetPath_iff {h : PathHeap} {pm : PathHelper} {stack : Stack}
    (hr : Represents h pm stack) : incjGetPath h pm = some (pathText stack) ↔ stack = [] := by
  obtain ⟨items, hh, rfl⟩ := hr
  cases items with
  | nil =>
    refine iff_of_true ?_ rfl
    rw [incjGetPath, hh.head]
    rfl
  | cons x items =>
    refine iff_of_false ?_ (List.cons_ne_nil _ _)
    rw [incjGetPath, hh.head, first_cons]
    dsimp only
    rw [getPathLoop_eq_none]
    exact nofun

/-! ## Comparing -/

/-- The dentries of a stack. -/
def dentries (stack : Stack) : List (Option ℕ) := stack.map PathEntry.d

/-- The names of a stack. -/
def names (stack : Stack) : List Path := stack.map PathEntry.name

/-- The loop counts the dentries in common, and comes to both ends only if there are no others. The
induction is on the rounds, of which there is one for each node and one for the end. -/
theorem compareLoop_eq {h : PathHeap} (rounds : ℕ) : ∀ {prev₁ prev₂ : Option ℕ}
    {items₁ items₂ : List (ℕ × PathEntry)} {m : ℕ}, items₁.length < rounds →
    Seg h prev₁ items₁ none → Seg h prev₂ items₂ none →
    ∃ c₁ c₂, compareLoop h rounds (first items₁) (first items₂) m
        = some (m + commonPrefix (dentries (items₁.map Prod.snd)) (dentries (items₂.map Prod.snd)),
          c₁, c₂) ∧
      ((c₁ = none ∧ c₂ = none) ↔
        dentries (items₁.map Prod.snd) = dentries (items₂.map Prod.snd)) := by
  induction rounds with
  | zero => exact fun h => absurd h (Nat.not_lt_zero _)
  | succ rounds ih =>
    intro prev₁ prev₂ items₁ items₂ m hlen hs₁ hs₂
    rcases items₁ with _ | ⟨⟨a, x⟩, rest₁⟩
    · rcases items₂ with _ | ⟨⟨b, y⟩, rest₂⟩
      · exact ⟨none, none, rfl, iff_of_true ⟨rfl, rfl⟩ rfl⟩
      · exact ⟨none, some b, rfl, iff_of_false (fun hc => nomatch hc.2) (fun hc => nomatch hc)⟩
    · rcases items₂ with _ | ⟨⟨b, y⟩, rest₂⟩
      · exact ⟨some a, none, rfl, iff_of_false (fun hc => nomatch hc.1) (fun hc => nomatch hc)⟩
      · obtain ⟨hcell₁, hrest₁⟩ := hs₁
        obtain ⟨hcell₂, hrest₂⟩ := hs₂
        rw [List.length_cons] at hlen
        simp only [first_cons, List.map_cons, dentries, compareLoop, hcell₁, hcell₂, Option.or_none]
        by_cases hd : x.d = y.d
        · obtain ⟨c₁, c₂, hloop, hends⟩ := @ih _ _ rest₁ rest₂ (m + 1) (by omega) hrest₁ hrest₂
          refine ⟨c₁, c₂, ?_, ?_⟩
          · rw [if_neg (not_not.mpr hd), hloop, commonPrefix, if_pos hd]
            simp only [dentries, Option.some.injEq, Prod.mk.injEq, and_true]
            omega
          · rw [hends, List.cons.injEq]
            exact ⟨fun hrest => ⟨hd, hrest⟩, fun hc => hc.2⟩
        · refine ⟨some a, some b, ?_, ?_⟩
          · rw [if_pos hd, commonPrefix, if_neg hd, Nat.add_zero]
          · rw [List.cons.injEq]
            exact iff_of_false (fun hc => nomatch hc.1) (fun hc => hd hc.1)

/-- What `incj_compare_path` reports is about dentries. -/
theorem incjComparePath_eq {h : PathHeap} {now next : PathHelper} {s₁ s₂ : Stack}
    (hr₁ : Represents h now s₁) (hr₂ : Represents h next s₂) :
    incjComparePath h now next = some ⟨commonPrefix (dentries s₁) (dentries s₂),
      s₁.length - commonPrefix (dentries s₁) (dentries s₂), decide (dentries s₁ = dentries s₂)⟩ := by
  obtain ⟨items₁, hh₁, rfl⟩ := hr₁
  obtain ⟨items₂, hh₂, rfl⟩ := hr₂
  obtain ⟨c₁, c₂, hloop, hends⟩ := @compareLoop_eq h (items₁.length + 1) none none items₁ items₂ 0
    (Nat.lt_succ_self _) hh₁.owns.seg hh₂.owns.seg
  have hperfect : (c₁.isNone && c₂.isNone)
      = decide (dentries (items₁.map Prod.snd) = dentries (items₂.map Prod.snd)) := by
    rw [Bool.eq_iff_iff, Bool.and_eq_true, Option.isNone_iff_eq_none, Option.isNone_iff_eq_none,
      decide_eq_true_eq, hends]
  unfold incjComparePath
  split
  · -- both are the root
    rename_i hroot
    rw [hh₁.head, hh₂.head] at hroot
    have hnil : ∀ items : List (ℕ × PathEntry), first items = none → items = [] := by
      intro items hitems
      cases items with
      | nil => rfl
      | cons x items => cases hitems
    rw [hnil _ hroot.1, hnil _ hroot.2]
    rfl
  · rw [hh₁.elems, hh₁.head, hh₂.head, hloop, Option.map_some, Nat.zero_add, List.length_map,
      ← hperfect]

/-- The dentries of a stack are found under its names, from a directory on. -/
def Resolved (fs : State) : Option ℕ → Stack → Prop
  | _, [] => True
  | dir, x :: rest => directoryLookup fs dir x.name = .ok x.d ∧ Resolved fs x.d rest

theorem resolved_append {fs : State} (stack : Stack) (x : PathEntry) : ∀ {dir : Option ℕ},
    Resolved fs dir (stack ++ [x]) ↔ Resolved fs dir stack ∧
      directoryLookup fs (match stack.getLast? with | none => dir | some y => y.d) x.name
        = .ok x.d := by
  induction stack with
  | nil =>
    intro dir
    show _ ∧ True ↔ True ∧ _
    rw [and_true, true_and]
    rfl
  | cons y stack ih =>
    intro dir
    rw [List.cons_append, Resolved, Resolved, ih, and_assoc, List.getLast?_cons]
    cases stack.getLast? <;> rfl

/-- A run keeps the stack resolved. -/
theorem stackRun_resolved {fs : State} (ops : List PathOp) : ∀ {stack stack' : Stack},
    Resolved fs (some fs.root) stack → stackRun fs ops stack = some stack' →
    Resolved fs (some fs.root) stack' := by
  induction ops with
  | nil =>
    intro stack stack' hr hrun
    rw [stackRun, Option.some.injEq] at hrun
    rwa [← hrun]
  | cons op ops ih =>
    intro stack stack' hr hrun
    rw [stackRun] at hrun
    obtain ⟨stack₁, hop, hrun⟩ := Option.bind_eq_some_iff.mp hrun
    refine ih ?_ hrun
    cases op with
    | push name =>
      rw [PathOp.apply] at hop
      split at hop
      · cases hop
      · rename_i d hd
        rw [Option.some.injEq] at hop
        rw [← hop, resolved_append]
        exact ⟨hr, hd⟩
    | pop =>
      rw [PathOp.apply] at hop
      split at hop
      · cases hop
      · rename_i hne
        rw [Option.some.injEq] at hop
        rw [← List.dropLast_append_getLast hne, resolved_append, hop] at hr
        exact hr.1

/-- Where two stacks part, they have different names but the same dentry. -/
def Confused (s₁ s₂ : Stack) : Prop :=
  ∃ (xs : Stack) (a b : PathEntry) (ys zs : Stack), s₁ = xs ++ a :: ys ∧ s₂ = xs ++ b :: zs ∧
    a.name ≠ b.name ∧ a.d = b.d

theorem Confused.cons {s₁ s₂ : Stack} (h : Confused s₁ s₂) (x : PathEntry) :
    Confused (x :: s₁) (x :: s₂) := by
  obtain ⟨xs, a, b, ys, zs, rfl, rfl, hname, hd⟩ := h
  exact ⟨x :: xs, a, b, ys, zs, rfl, rfl, hname, hd⟩

/-- Confused stacks have more dentries than names in common. -/
theorem Confused.lt {s₁ s₂ : Stack} (h : Confused s₁ s₂) :
    commonPrefix (names s₁) (names s₂) < commonPrefix (dentries s₁) (dentries s₂) := by
  obtain ⟨xs, a, b, ys, zs, rfl, rfl, hname, hd⟩ := h
  simp only [names, dentries, List.map_append, List.map_cons, commonPrefix_append, commonPrefix,
    if_neg hname, if_pos hd, List.length_map]
  omega

/-- Other stacks have the same names and dentries in common. The induction follows the stacks up to
where they part: up to there the directories are the same. -/
theorem commonPrefix_dentries {fs : State} (s₁ : Stack) : ∀ {s₂ : Stack} {dir : Option ℕ},
    Resolved fs dir s₁ → Resolved fs dir s₂ → ¬ Confused s₁ s₂ →
    commonPrefix (dentries s₁) (dentries s₂) = commonPrefix (names s₁) (names s₂) ∧
      (dentries s₁ = dentries s₂ ↔ names s₁ = names s₂) := by
  induction s₁ with
  | nil =>
    intro s₂ dir _ _ _
    cases s₂ with
    | nil => exact ⟨rfl, iff_of_true rfl rfl⟩
    | cons b s₂ => exact ⟨rfl, iff_of_false nofun nofun⟩
  | cons a s₁ ih =>
    intro s₂ dir hr₁ hr₂ hc
    cases s₂ with
    | nil => exact ⟨rfl, iff_of_false nofun nofun⟩
    | cons b s₂ =>
      simp only [dentries, names, List.map_cons, commonPrefix, List.cons.injEq]
      by_cases hname : a.name = b.name
      · -- the same name in the same directory
        have hd : a.d = b.d := by
          have h₁ := hr₁.1
          rw [hname, hr₂.1, Except.ok.injEq] at h₁
          exact h₁.symm
        have hab : a = b := by
          cases a
          cases b
          simp only at hname hd
          rw [hname, hd]
        have hrest := hr₂.2
        rw [← hd] at hrest
        obtain ⟨hcount, heq⟩ := ih hr₁.2 hrest fun hc' => hc (hab ▸ hc'.cons a)
        rw [if_pos hname, if_pos hd]
        exact ⟨congrArg (· + 1) hcount, and_congr (iff_of_true hd hname) heq⟩
      · have hd : a.d ≠ b.d := fun hd => hc ⟨[], a, b, s₁, s₂, rfl, rfl, hname, hd⟩
        rw [if_neg hname, if_neg hd]
        exact ⟨rfl, iff_of_false (fun h => hd h.1) (fun h => hname h.1)⟩

/-- A name that is found is the name of the dentry. -/
theorem directoryLookup_name {fs : State} (I : fs.TreeInv) {dir : Option ℕ} {name : Path} {d : ℕ}
    (h : directoryLookup fs dir name = .ok (some d)) : (fs.dentry d).platformSafeName = name := by
  cases dir with
  | none => cases h
  | some p =>
    have hlookup : (({ fs with hashAlloc := [] } : State).fsDirectoryLookup p name).1
        = .ok (some d) := h
    rcases fsDirectoryLookup_handles { fs with hashAlloc := [] } p name with ⟨e, he⟩ |
      ⟨fs', he, -⟩ | ⟨d', fs', he, hchild, -⟩
    · rw [he] at hlookup
      cases hlookup
    · rw [he] at hlookup
      cases hlookup
    · rw [he, Except.ok.injEq, Option.some.injEq] at hlookup
      rw [hlookup] at hchild
      exact (child_spec I hchild).2.2

/-- In a tree, stacks are confused only by two names that are both missing, at the ends of the
stacks. -/
theorem Confused.missing {fs : State} (I : fs.TreeInv) {s₁ s₂ : Stack} {dir : Option ℕ}
    (hr₁ : Resolved fs dir s₁) (hr₂ : Resolved fs dir s₂) (hc : Confused s₁ s₂) :
    ∃ xs a b, s₁ = xs ++ [a] ∧ s₂ = xs ++ [b] ∧ a.d = none ∧ b.d = none := by
  obtain ⟨xs, a, b, ys, zs, rfl, rfl, hname, hd⟩ := hc
  induction xs generalizing dir with
  | nil =>
    -- a dentry has one name only
    have hmissing : a.d = none := by
      cases hfound : a.d with
      | none => rfl
      | some d =>
        have ha := hr₁.1
        have hb := hr₂.1
        rw [hfound] at ha
        rw [← hd, hfound] at hb
        exact absurd ((directoryLookup_name I ha).symm.trans (directoryLookup_name I hb)) hname
    -- and nothing is found below a missing directory
    have hend : ∀ rest : Stack, Resolved fs none rest → rest = [] := by
      intro rest hrest
      cases rest with
      | nil => rfl
      | cons x rest => exact nomatch hrest.1
    have hys := hr₁.2
    have hzs := hr₂.2
    rw [hmissing] at hys
    rw [← hd, hmissing] at hzs
    rw [hend ys hys, hend zs hzs]
    exact ⟨[], a, b, rfl, rfl, hmissing, hd.symm.trans hmissing⟩
  | cons x xs ih =>
    obtain ⟨xs', a', b', h₁, h₂, ha, hb⟩ := ih hr₁.2 hr₂.2
    refine ⟨x :: xs', a', b', ?_, ?_, ha, hb⟩
    · rw [List.cons_append, h₁]
      rfl
    · rw [List.cons_append, h₂]
      rfl

/-! ## The helper as a whole -/

/-- What a comparison of two stacks is to report. -/
def compareNames (s₁ s₂ : Stack) : Comparison :=
  ⟨commonPrefix (names s₁) (names s₂), s₁.length - commonPrefix (names s₁) (names s₂),
    decide (names s₁ = names s₂)⟩

/-- The helper stands for the stack of a run if and only if the run does not take off the last
directory; then other helpers in memory are untouched. The path is built for the root only. Two
helpers are compared by their names if and only if they do not part at two names with the same
dentry, and these are names that are missing. -/
theorem pathHelper_meets (fs : State) :
    (∀ ops stack, stackRun fs ops [] = some stack → ∀ h,
      ((∃ h' pm, runOps fs ops h root = .done h' pm ∧ Represents h' pm stack ∧
          ∀ other s, Represents h other s → Represents h' other s) ↔
        returnsToRoot 0 ops = false)) ∧
    (∀ h pm stack, Represents h pm stack →
      (incjGetPath h pm = some (pathText stack) ↔ stack = [])) ∧
    ∀ ops₁ ops₂ s₁ s₂, stackRun fs ops₁ [] = some s₁ → stackRun fs ops₂ [] = some s₂ →
      ∀ h now next, Represents h now s₁ → Represents h next s₂ →
        (incjComparePath h now next = some (compareNames s₁ s₂) ↔ ¬ Confused s₁ s₂) := by
  refine ⟨?_, fun h pm stack hr => incjGetPath_iff hr, ?_⟩
  · intro ops stack hrun h
    rcases runOps_holds fs ops (holds_root h) hrun with ⟨hroot, hundef⟩ |
      ⟨hroot, h', pm, items, hdone, hh, hstack, hothers⟩
    · rw [List.length_nil] at hroot
      refine iff_of_false ?_ (by rw [hroot]; simp)
      rintro ⟨h', pm, hdone, -⟩
      rw [hundef] at hdone
      cases hdone
    · refine iff_of_true ⟨h', pm, hdone, ⟨items, hh, hstack⟩, ?_⟩ hroot
      rintro other s ⟨others, hh', hs⟩
      have howns := (hothers others hh'.owns fun x hx => nomatch hx).1
      exact ⟨others, ⟨howns, hh'.head, hh'.tail, hh'.elems⟩, hs⟩
  · intro ops₁ ops₂ s₁ s₂ hrun₁ hrun₂ h now next hr₁ hr₂
    have hs₁ := @stackRun_resolved fs ops₁ [] s₁ trivial hrun₁
    have hs₂ := @stackRun_resolved fs ops₂ [] s₂ trivial hrun₂
    rw [incjComparePath_eq hr₁ hr₂, Option.some.injEq, compareNames]
    constructor
    · intro heq hc
      have hlt := hc.lt
      rw [Comparison.mk.injEq] at heq
      omega
    · intro hc
      obtain ⟨hcount, heq⟩ := commonPrefix_dentries s₁ hs₁ hs₂ hc
      rw [hcount, decide_eq_decide.mpr heq]

/-- The empty heap. -/
def noNodes : PathHeap := ⟨fun _ => none, 0, fun _ _ => rfl⟩

/-- `pathHelper_meets` for two pushes and a pop. -/
theorem pathHelper_push_push_pop :
    ∃ h pm, runOps fileInDir.fs [.push (ascii "d"), .push (ascii "f"), .pop] noNodes root
        = .done h pm ∧ Represents h pm [⟨ascii "d", some 2⟩] := by
  obtain ⟨h, pm, hdone, hr, -⟩ := ((pathHelper_meets fileInDir.fs).1
    [.push (ascii "d"), .push (ascii "f"), .pop] [⟨ascii "d", some 2⟩] (by decide +kernel)
    noNodes).mpr rfl
  exact ⟨h, pm, hdone, hr⟩

/-- A directory is pushed and popped again: the helper follows a null pointer. -/
theorem pathHelper_push_pop :
    ¬ ∀ (fs : State) (ops : List PathOp) (stack : Stack), stackRun fs ops [] = some stack →
      ∀ h, ∃ h' pm, runOps fs ops h root = .done h' pm ∧ Represents h' pm stack ∧
        incjGetPath h' pm = some (pathText stack) := by
  intro hall
  have hstack : stackRun fileInDir.fs [.push (ascii "d"), .pop] [] = some [] := by decide +kernel
  obtain ⟨h', pm, hrun, -⟩ := hall fileInDir.fs [.push (ascii "d"), .pop] [] hstack noNodes
  rcases runOps_holds fileInDir.fs [.push (ascii "d"), .pop] (holds_root noNodes) hstack
    with ⟨-, hundef⟩ | ⟨hroot, -⟩
  · rw [hundef] at hrun
    cases hrun
  · cases hroot

/-! ## New helpers -/

/-- `incj_create_path_helper`. A push that fails destroys the helper, and it is destroyed again. -/
def incjCreatePathHelper (fs : State) (dpath : Path) (h : PathHeap) : Outcome :=
  -- Provided path must be a absolute path
  if dpath.head? ≠ some slash then .refused (-ltfsInvalidPath)
  else if dpath = [slash] then .done h root
  else
    match runOps fs ((strtokNames dpath).map .push) h root with
    | .done h pm => .done h pm
    | _ => .undefined

/-- The dentries that are pushed are the ones of `pushDirectories`. -/
theorem stackRun_pushes {fs : State} (path : List Path) : ∀ {stack : Stack} {new : List (Option ℕ)},
    fs.pushDirectories (top fs stack) path = some new →
    ∃ pushed, stackRun fs (path.map .push) stack = some (stack ++ pushed) ∧ names pushed = path ∧
      dentries pushed = new := by
  induction path with
  | nil =>
    intro stack new h
    rw [State.pushDirectories.eq_def] at h
    simp only [Option.some.injEq] at h
    exact ⟨[], by rw [List.append_nil]; rfl, rfl, h⟩
  | cons name path ih =>
    intro stack new h
    cases htop : top fs stack with
    | none =>
      rw [htop] at h
      cases h
    | some dir =>
      rw [htop, State.pushDirectories] at h
      split at h
      · cases h
      · rename_i d hd
        obtain ⟨rest, hrest, rfl⟩ := Option.map_eq_some_iff.mp h
        have htop' : top fs (stack ++ [⟨name, d⟩]) = d := by
          rw [top, List.getLast?_append]
          rfl
        rw [← htop'] at hrest
        obtain ⟨pushed, hrun, hnames, hdentries⟩ := ih hrest
        refine ⟨⟨name, d⟩ :: pushed, ?_, by rw [← hnames]; rfl, by rw [← hdentries]; rfl⟩
        have hlookup : directoryLookup fs (top fs stack) name = .ok d := by
          rw [htop]
          exact hd
        rw [List.map_cons, stackRun, PathOp.apply, hlookup]
        simp only [Option.bind_some, hrun, List.append_assoc, List.singleton_append]

theorem returnsToRoot_pushes (path : List Path) : ∀ depth,
    returnsToRoot depth (path.map .push) = false := by
  induction path with
  | nil => exact fun _ => rfl
  | cons name path ih => exact fun depth => ih (depth + 1)

/-- A new helper stands for the names of the path and their dentries, as far as all of them can be
looked up. -/
theorem incjCreatePathHelper_represents {fs : State} {dpath : Path} {new : List (Option ℕ)}
    (hroot : dpath.head? = some slash)
    (h : fs.pushDirectories (some fs.root) (strtokNames dpath) = some new) (heap : PathHeap) :
    ∃ heap' pm stack, incjCreatePathHelper fs dpath heap = .done heap' pm ∧
      Represents heap' pm stack ∧ names stack = strtokNames dpath ∧ dentries stack = new := by
  obtain ⟨pushed, hrun, hnames, hdentries⟩ := @stackRun_pushes fs _ [] new h
  rw [incjCreatePathHelper, if_neg (not_not.mpr hroot)]
  by_cases hslash : dpath = [slash]
  · rw [if_pos hslash]
    have hnone : strtokNames dpath = [] := by
      rw [hslash]
      decide +kernel
    rw [hnone] at hnames
    have hpushed : pushed = [] := List.map_eq_nil_iff.mp hnames
    rw [hpushed] at hdentries
    exact ⟨heap, root, [], rfl, ⟨[], holds_root heap, rfl⟩, hnone.symm, hdentries⟩
  · rw [if_neg hslash]
    rcases runOps_holds fs _ (holds_root heap) hrun with ⟨hback, -⟩ |
      ⟨-, heap', pm, items, hdone, hh, hstack, -⟩
    · rw [returnsToRoot_pushes] at hback
      cases hback
    · rw [hdone]
      exact ⟨heap', pm, pushed, rfl, ⟨items, hh, hstack⟩, hnames, hdentries⟩

end PathHelper

end Ltfs.Fs

import Ltfs.Error
import Ltfs.Lib.SlashPath
import Mathlib.Data.List.TakeWhile

/-!
# Symbolic link targets

`ltfs_fsops_target_absolute_path` makes an absolute path of the target of a symbolic link. Paths
are lists of bytes.

* `targetAbsolutePath` — the result is `none` where a search has found nothing, and its result is
  used as a string all the same.
* `lexicalTarget` — where the target leads, by the names alone.
* `target_path_iff` — when the one is the other.

Allocation failures are left out.
-/

namespace Ltfs.TargetPath

open Lib

abbrev Text : Type := List UInt8

def slash : UInt8 := 0x2F

def dot : Text := [0x2E]

def dotdot : Text := [0x2E, 0x2E]

/-! ## The function -/

/-- `strstr`: the text from the first match on. -/
def strstr (pattern : Text) : Text → Option Text
  | [] => if pattern = [] then some [] else none
  | c :: rest => if pattern.isPrefixOf (c :: rest) then some (c :: rest) else strstr pattern rest

/-- The tokens of `strtok` for `/`. -/
def strtok (s : Text) : List Text := (s.splitOn slash).filter (· ≠ [])

/-- The directory to begin with, and the target from there. -/
def workAndTarget (link target : Text) : Option (Text × Text) :=
  if target.head? = some slash then
    match strstr [0x2F, 0x2E] target with
    -- `temp_buf + 1` is no string
    | none => none
    | some temp => some (target.take (target.length - temp.length), temp.drop 1)
  else
    (beforeLast slash link).map fun work => (work, target)

/-- What comes of the loop over the tokens. -/
inductive Walk where
  | path (work : Text)
  /-- "out of ltfs range" -/
  | outside
  /-- There is no token for the file name. -/
  | noToken
deriving DecidableEq, Repr

/-- "Split target path directory then modify current directory with target path information". -/
def walk (work : Text) : List Text → Walk
  | [] => .noToken
  | [token] => .path (work ++ slash :: token)
  | token :: next :: rest =>
    if token = dotdot then
      match beforeLast slash work with
      | none => .outside
      | some work => walk work (next :: rest)
    else if token ≠ dot then walk (work ++ slash :: token) (next :: rest)
    else walk work (next :: rest)

/-- `ltfs_fsops_target_absolute_path`: the code it fails with, or the path in `buf`. -/
def targetAbsolutePath (link target : Text) (size : ℕ) : Option (Except ℤ Text) :=
  if link.head? ≠ some slash then some (.error (-ltfsBadArg))
  else if target.head? = some slash ∧ strstr [0x2E, 0x2F] target = none then
    if size < target.length + 1 then some (.error (-ltfsSmallBuffer)) else some (.ok target)
  else
    match workAndTarget link target with
    | none => none
    | some (work, targetBuf) =>
      match walk work (strtok targetBuf) with
      | .noToken => none
      | .outside => some (.ok [])
      | .path work =>
        if size < work.length + 1 then some (.error (-ltfsSmallBuffer)) else some (.ok work)

/-! ## What it should return -/

/-- `dirname`. Separators at the end do not count. -/
def dirname (link : Text) : Text :=
  (beforeLast slash (link.reverse.dropWhile (· == slash)).reverse).getD []

/-- The absolute path of a list of names. -/
def render (names : List Text) : Text := if names = [] then [slash] else joinPath slash names

/-- Where the target leads. -/
def lexicalTarget (link target : Text) : Text :=
  let path := if target.head? = some slash then target else dirname link ++ slash :: target
  render (resolve dot dotdot (path.splitOn slash))

/-- Whatever the size of the buffer is, an error is reported or the right path returned. -/
def ResolvesTarget (link target : Text) : Prop :=
  ∀ size, ∃ out, targetAbsolutePath link target size = some out ∧
    ∀ path, out = .ok path → path = lexicalTarget link target

/-! ## When it does -/

/-- The names lead to a file, do not leave the root, and leave nothing behind that is not proper:
`work` is the whole path in normal form, or the names leave it altogether. -/
structure Leads (work : Text) (whole : Prop) (names : List Text) : Prop where
  file : ∃ last, names.getLast? = some last ∧ Proper dot dotdot last
  inside : climb dot dotdot names.dropLast ≤ (work.splitOn slash).tail.length
  normal : (whole ∧ ∀ c ∈ (work.splitOn slash).tail, Proper dot dotdot c) ∨
    climb dot dotdot names.dropLast = (work.splitOn slash).tail.length

/-- The targets that are resolved. An absolute one without `./` has to be in normal form, any other
absolute one is followed from the first `/.` on, which has to be there. -/
def Resolvable (link target : Text) : Prop :=
  if target.head? = some slash then
    if strstr [0x2E, 0x2F] target = none then
      target = [slash] ∨ ∀ c ∈ (target.splitOn slash).tail, Proper dot dotdot c
    else ∃ temp, strstr [0x2F, 0x2E] target = some temp ∧
      Leads (target.take (target.length - temp.length)) True (strtok temp)
  else target ≠ [] ∧ ∃ work, beforeLast slash link = some work ∧
    Leads work (link.getLast? ≠ some slash) (strtok target)

/-! ## The loop over the tokens -/

theorem strtok_spec {s : Text} : ∀ c ∈ strtok s, c ≠ [] ∧ slash ∉ c := by
  intro c hc
  unfold strtok at hc
  rw [List.mem_filter] at hc
  exact ⟨by simpa using hc.2, not_mem_of_mem_splitOn hc.1⟩

theorem strtok_ne_nil {c : UInt8} {rest : Text} (hc : c ≠ slash) : strtok (c :: rest) ≠ [] := by
  have hsplit : (c :: rest).splitOn slash
      = (rest.splitOn slash).modifyHead (c :: ·) := by
    rw [List.splitOn_cons_eq_if_modifyHead, if_neg (by simpa using hc)]
  obtain ⟨d, ds, hrest⟩ := List.exists_cons_of_ne_nil (List.splitOn_ne_nil slash rest)
  unfold strtok
  rw [hsplit, hrest]
  simp

/-- Empty components lead nowhere. -/
theorem foldl_strtok (s : Text) (cs : List Text) :
    (s.splitOn slash).foldl (resolveStep dot dotdot) cs
      = (strtok s).foldl (resolveStep dot dotdot) cs := by
  unfold strtok
  generalize s.splitOn slash = names
  induction names generalizing cs with
  | nil => rfl
  | cons c names ih =>
    by_cases hc : c = []
    · rw [List.foldl_cons, List.filter_cons_of_neg (by simp [hc]), resolveStep, if_pos (.inl hc)]
      exact ih cs
    · rw [List.filter_cons_of_pos (by simp [hc]), List.foldl_cons, List.foldl_cons]
      exact ih _

/-- The loop, in terms of the components of the path. -/
theorem walk_eq (names : List Text) : ∀ (cs : List Text) (last : Text),
    (∀ c ∈ cs, slash ∉ c) → (∀ c ∈ names, c ≠ [] ∧ slash ∉ c) →
    walk (joinPath slash cs) (names ++ [last])
      = if climb dot dotdot names ≤ cs.length then
          .path (joinPath slash (cs.take (cs.length - climb dot dotdot names) ++
            (effect dot dotdot names).2 ++ [last]))
        else .outside := by
  induction names with
  | nil =>
    intro cs last _ _
    have hzero : climb dot dotdot ([] : List Text) = 0 := rfl
    have hnone : (effect dot dotdot ([] : List Text)).2 = [] := rfl
    rw [hzero, hnone, if_pos (Nat.zero_le _), Nat.sub_zero, List.take_length, List.append_nil,
      joinPath_append, joinPath_cons, joinPath_nil, List.append_nil]
    rfl
  | cons c names ih =>
    intro cs last hcs hnames
    obtain ⟨hne, hslash⟩ := hnames c List.mem_cons_self
    have hnames' : ∀ d ∈ names, d ≠ [] ∧ slash ∉ d := fun d hd =>
      hnames d (List.mem_cons_of_mem c hd)
    obtain ⟨next, rest, hrest⟩ : ∃ next rest, names ++ [last] = next :: rest :=
      List.exists_cons_of_ne_nil (by simp)
    rw [List.cons_append, hrest, walk, ← hrest]
    by_cases hup : c = dotdot
    · subst hup
      have heffect := @effect_cons_dotdot UInt8 _ dot dotdot (by decide) names
      have hclimb : climb dot dotdot (dotdot :: names) = climb dot dotdot names + 1 := by
        unfold climb
        rw [heffect]
      rw [if_pos rfl, beforeLast_joinPath slash hcs, hclimb, heffect]
      by_cases hnil : cs = []
      · subst hnil
        rw [if_pos rfl, if_neg (by simp)]
      · have hpos := List.length_pos_iff.mpr hnil
        rw [if_neg hnil]
        dsimp only
        rw [ih cs.dropLast last (fun d hd => hcs d (List.dropLast_subset cs hd)) hnames',
          List.length_dropLast, List.dropLast_eq_take, List.take_take]
        by_cases hle : climb dot dotdot names ≤ cs.length - 1
        · rw [if_pos hle, if_pos (by omega)]
          congr 5
          omega
        · rw [if_neg hle, if_neg (by omega)]
    · rw [if_neg hup]
      by_cases hstay : c = dot
      · have heffect := @effect_cons_stay UInt8 _ dot dotdot c (.inr hstay) names
        rw [if_neg (not_not_intro hstay), ih cs last hcs hnames']
        unfold climb
        rw [heffect]
      · have heffect := @effect_cons_proper UInt8 _ dot dotdot c ⟨hne, hstay, hup⟩ names
        have hcs' : ∀ d ∈ cs ++ [c], slash ∉ d := by
          intro d hd
          rcases List.mem_append.mp hd with hd | hd
          · exact hcs d hd
          · rw [List.mem_singleton.mp hd]
            exact hslash
        have hwork : joinPath slash cs ++ slash :: c = joinPath slash (cs ++ [c]) := by
          rw [joinPath_append, joinPath_cons, joinPath_nil, List.append_nil]
        rw [if_pos hstay, hwork, ih (cs ++ [c]) last hcs' hnames']
        unfold climb
        rw [heffect, List.length_append, List.length_singleton]
        generalize effect dot dotdot names = e
        rcases e with ⟨k, added⟩
        dsimp only
        by_cases hzero : k = 0
        · subst hzero
          have htake : (cs ++ [c]).take (cs.length + 1 - 0) = cs ++ [c] :=
            List.take_of_length_le (by simp)
          rw [if_pos rfl, if_pos (Nat.zero_le _), if_pos (Nat.zero_le _), htake]
          simp
        · rw [if_neg hzero]
          dsimp only
          by_cases hle : k ≤ cs.length + 1
          · rw [if_pos hle, if_pos (by omega), List.take_append_of_le_length (by omega)]
            congr 5
            omega
          · rw [if_neg hle, if_neg (by omega)]

theorem render_ne_nil (names : List Text) : render names ≠ [] := by
  unfold render
  split
  · simp
  · rename_i hne
    obtain ⟨c, cs, rfl⟩ := List.exists_cons_of_ne_nil hne
    simp [joinPath_cons]

/-- What is known of the place `dirs` where the directory `cs` leads. -/
structure Place (cs dirs : List Text) (whole : Prop) : Prop where
  length : dirs.length ≤ cs.length
  proper : dirs.length = cs.length → cs = [] ∨ whole ∧ ∀ c ∈ cs, Proper dot dotdot c
  same : whole → (∀ c ∈ cs, Proper dot dotdot c) → dirs = cs
  names : ∀ d ∈ dirs, Proper dot dotdot d ∧ slash ∉ d

/-- A list that is not empty and a path that is rendered. -/
theorem joinPath_eq_render {cs ds : List Text} (hcs : ∀ c ∈ cs, slash ∉ c)
    (hds : ∀ d ∈ ds, slash ∉ d) (hlast : ∃ last, cs.getLast? = some last ∧ last ≠ []) :
    joinPath slash cs = render ds ↔ cs = ds := by
  obtain ⟨last, hlast, hne⟩ := hlast
  unfold render
  by_cases hnil : ds = []
  · rw [if_pos hnil]
    refine iff_of_false ?_ ?_
    · intro h
      have hroot : joinPath slash cs = joinPath slash [[]] := h
      have hcs := joinPath_injective slash hcs (by simp) hroot
      rw [hcs] at hlast
      exact hne (Option.some.inj hlast).symm
    · rintro rfl
      rw [hnil] at hlast
      cases hlast
  · rw [if_neg hnil]
    constructor
    · exact joinPath_injective slash hcs hds
    · rintro rfl
      rfl

/-- The loop arrives where the names lead. -/
theorem walk_iff {cs dirs names : List Text} {whole : Prop} (hcs : ∀ c ∈ cs, slash ∉ c)
    (hplace : Place cs dirs whole) (hnames : ∀ c ∈ names, c ≠ [] ∧ slash ∉ c) (hne : names ≠ []) :
    walk (joinPath slash cs) names
        = .path (render (names.foldl (resolveStep dot dotdot) dirs)) ↔
      (∃ last, names.getLast? = some last ∧ Proper dot dotdot last) ∧
      climb dot dotdot names.dropLast ≤ cs.length ∧
      ((whole ∧ ∀ c ∈ cs, Proper dot dotdot c) ∨
        climb dot dotdot names.dropLast = cs.length) := by
  obtain ⟨names, last, rfl⟩ := (List.eq_nil_or_concat' names).resolve_left hne
  have hlast := hnames last (by simp)
  have hnames' : ∀ c ∈ names, c ≠ [] ∧ slash ∉ c := fun c hc => hnames c (by simp [hc])
  rw [walk_eq names cs last hcs hnames', List.foldl_append, List.foldl_cons, List.foldl_nil,
    foldl_resolveStep, List.dropLast_concat, List.getLast?_concat]
  -- the names that are added are proper ones
  have hadded : ∀ names : List Text, (∀ c ∈ names, c ≠ [] ∧ slash ∉ c) →
      ∀ c ∈ (effect dot dotdot names).2, Proper dot dotdot c ∧ slash ∉ c := by
    intro names hnames c hc
    have hmem : c ∈ resolve dot dotdot names := by
      unfold resolve
      rw [foldl_resolveStep, List.take_nil, List.nil_append]
      exact hc
    obtain ⟨hproper, hmem⟩ := proper_of_mem_resolve c hmem
    exact ⟨hproper, (hnames c hmem).2⟩
  have hadded := hadded names hnames'
  generalize hk : climb dot dotdot names = k
  generalize (effect dot dotdot names).2 = added at hadded
  have hleft : ∀ c ∈ cs.take (cs.length - k) ++ added ++ [last], slash ∉ c := by
    intro c hc
    rcases List.mem_append.mp hc with hc | hc
    · rcases List.mem_append.mp hc with hc | hc
      · exact hcs c (List.mem_of_mem_take hc)
      · exact (hadded c hc).2
    · rw [List.mem_singleton.mp hc]
      exact hlast.2
  have hbase : ∀ d ∈ dirs.take (dirs.length - k) ++ added, Proper dot dotdot d ∧ slash ∉ d := by
    intro d hd
    rcases List.mem_append.mp hd with hd | hd
    · exact hplace.names d (List.mem_of_mem_take hd)
    · exact hadded d hd
  by_cases hinside : k ≤ cs.length
  · rw [if_pos hinside, Walk.path.injEq]
    have hright : ∀ d ∈ resolveStep dot dotdot (dirs.take (dirs.length - k) ++ added) last,
        slash ∉ d := by
      intro d hd
      unfold resolveStep at hd
      split at hd
      · exact (hbase d hd).2
      · split at hd
        · exact (hbase d (List.dropLast_subset _ hd)).2
        · rcases List.mem_append.mp hd with hd | hd
          · exact (hbase d hd).2
          · rw [List.mem_singleton.mp hd]
            exact hlast.2
    rw [joinPath_eq_render hleft hright ⟨last, by simp, hlast.1⟩]
    by_cases hproper : Proper dot dotdot last
    · have hstep : ∀ ds : List Text, resolveStep dot dotdot ds last = ds ++ [last] := by
        intro ds
        unfold resolveStep
        rw [if_neg (not_or.mpr ⟨hproper.1, hproper.2.1⟩), if_neg hproper.2.2]
      rw [hstep, List.append_left_inj, List.append_left_inj]
      constructor
      · intro hsame
        refine ⟨⟨last, rfl, hproper⟩, hinside, ?_⟩
        have hlen := congrArg List.length hsame
        rw [List.length_take, List.length_take] at hlen
        have hle := hplace.length
        by_cases hall : k = cs.length
        · exact .inr hall
        · -- something is left of the directory, so that nothing was lost
          rcases hplace.proper (by omega) with hnil | hproper
          · rw [hnil] at hinside hall
            simp at hinside hall
            omega
          · exact .inl hproper
      · rintro ⟨-, -, ⟨hwhole, hall⟩ | hall⟩
        · rw [hplace.same hwhole hall]
        · have hle := hplace.length
          rw [hall, Nat.sub_self, Nat.sub_eq_zero_of_le hle]
          rfl
    · refine iff_of_false ?_ ?_
      · -- the last name would have to be a proper one
        intro hsame
        have hmem : last ∈ cs.take (cs.length - k) ++ added ++ [last] := by simp
        rw [hsame, resolveStep] at hmem
        split at hmem
        · exact hproper (hbase last hmem).1
        · rename_i hstay
          split at hmem
          · exact hproper (hbase last (List.dropLast_subset _ hmem)).1
          · rename_i hup
            rw [not_or] at hstay
            exact hproper ⟨hstay.1, hstay.2, hup⟩
      · rintro ⟨⟨last', hlast', hproper'⟩, -⟩
        cases hlast'
        exact hproper hproper'
  · rw [if_neg hinside]
    exact iff_of_false (by simp) fun h => hinside h.2.1


/-! ## Where the loop begins -/

/-- A path is empty or begins with a separator. -/
theorem joinPath_tail {s : Text} (h : s = [] ∨ s.head? = some slash) :
    s.splitOn slash = [] :: (s.splitOn slash).tail ∧
      joinPath slash (s.splitOn slash).tail = s := by
  rcases h with rfl | h
  · exact ⟨rfl, rfl⟩
  · cases s with
    | nil => cases h
    | cons c rest =>
      cases h
      rw [splitOn_cons_sep]
      exact ⟨rfl, joinPath_splitOn slash rest⟩

theorem slash_notMem_tail {s : Text} : ∀ c ∈ (s.splitOn slash).tail, slash ∉ c := fun _ hc =>
  not_mem_of_mem_splitOn (List.mem_of_mem_tail hc)

theorem resolve_cons_nil (cs : List Text) :
    resolve dot dotdot ([] :: cs) = resolve dot dotdot cs := by
  unfold resolve
  rw [List.foldl_cons, resolveStep, if_pos (.inl rfl)]

/-- A directory that is followed as a whole. -/
theorem Place.whole {cs : List Text} (hcs : ∀ c ∈ cs, slash ∉ c) {p : Prop} (hp : p) :
    Place cs (resolve dot dotdot cs) p := by
  obtain ⟨hle, hproper⟩ := @length_resolve UInt8 _ dot dotdot cs
  refine ⟨hle, fun h => .inr ⟨hp, hproper h⟩, fun _ hall => resolve_of_proper hall, ?_⟩
  intro d hd
  obtain ⟨hproper, hmem⟩ := proper_of_mem_resolve d hd
  exact ⟨hproper, hcs d hmem⟩

/-- A directory of which less is followed. -/
theorem Place.less {cs ds : List Text} (hds : ∀ d ∈ ds, slash ∉ d)
    (hlen : cs ≠ [] → ds.length < cs.length) (hnil : cs = [] → ds = []) {p : Prop} (hp : ¬ p) :
    Place cs (resolve dot dotdot ds) p := by
  obtain ⟨hle, -⟩ := @length_resolve UInt8 _ dot dotdot ds
  refine ⟨?_, ?_, fun h => absurd h hp, ?_⟩
  · by_cases h : cs = []
    · rw [hnil h]
      exact Nat.zero_le _
    · exact hle.trans (hlen h).le
  · intro h
    by_contra hcontra
    rw [not_or] at hcontra
    have := hlen hcontra.1
    omega
  · intro d hd
    obtain ⟨hproper, hmem⟩ := proper_of_mem_resolve d hd
    exact ⟨hproper, hds d hmem⟩

def stripped (s : Text) : Text := (s.reverse.dropWhile (· == slash)).reverse

theorem stripped_slash (s : Text) : stripped (s ++ [slash]) = stripped s := by
  unfold stripped
  rw [List.reverse_append, List.reverse_singleton, List.singleton_append,
    List.dropWhile_cons_of_pos (by simp)]

theorem stripped_append {s c : Text} (hc : slash ∉ c) (hne : c ≠ []) : stripped (s ++ c) = s ++ c := by
  unfold stripped
  obtain ⟨c, b, rfl⟩ := (List.eq_nil_or_concat' c).resolve_left hne
  have hb : b ≠ slash := by
    rintro rfl
    exact hc (by simp)
  rw [← List.append_assoc, List.reverse_append, List.reverse_singleton, List.singleton_append,
    List.dropWhile_cons_of_neg (by simpa using hb), ← List.singleton_append, List.reverse_append,
    List.reverse_reverse, List.reverse_singleton]

/-- The directory of a path is a shorter one. -/
theorem beforeLast_stripped {cs : List Text} (hcs : ∀ c ∈ cs, slash ∉ c) :
    ∃ ds, (beforeLast slash (stripped (joinPath slash cs))).getD [] = joinPath slash ds ∧
      (∀ d ∈ ds, slash ∉ d) ∧ (cs ≠ [] → ds.length < cs.length) ∧ (cs = [] → ds = []) := by
  induction cs using List.reverseRecOn with
  | nil => exact ⟨[], rfl, by simp, by simp, by simp⟩
  | append_singleton cs c ih =>
    have hcs' : ∀ d ∈ cs, slash ∉ d := fun d hd => hcs d (List.mem_append_left _ hd)
    have hc := hcs c (by simp)
    have hjoin : joinPath slash (cs ++ [c]) = joinPath slash cs ++ slash :: c := by
      rw [joinPath_append, joinPath_cons, joinPath_nil, List.append_nil]
    rw [hjoin]
    by_cases hnil : c = []
    · subst hnil
      rw [stripped_slash]
      obtain ⟨ds, hds, hmem, hlen, hempty⟩ := ih hcs'
      refine ⟨ds, hds, hmem, fun _ => ?_, by simp⟩
      rw [List.length_append, List.length_singleton]
      by_cases h : cs = []
      · rw [hempty h]
        exact Nat.succ_pos _
      · have := hlen h
        omega
    · have hcons : joinPath slash cs ++ slash :: c = (joinPath slash cs ++ [slash]) ++ c := by simp
      rw [hcons, stripped_append hc hnil, ← hcons, beforeLast_append slash _ hc]
      exact ⟨cs, rfl, hcs', by simp, by simp⟩

/-- The directory of the link. -/
theorem place_link {link work : Text} (hlink : link.head? = some slash)
    (hwork : beforeLast slash link = some work) :
    (work = [] ∨ work.head? = some slash) ∧
    Place (work.splitOn slash).tail (resolve dot dotdot ((dirname link).splitOn slash))
      (link.getLast? ≠ some slash) := by
  -- the link is the directory, a separator and a name
  obtain ⟨name, hname, rfl⟩ : ∃ name, slash ∉ name ∧ link = work ++ slash :: name := by
    have hmem : slash ∈ link.reverse := by
      rw [List.mem_reverse]
      by_contra hnot
      rw [beforeLast_of_not_mem slash hnot] at hwork
      cases hwork
    obtain ⟨name, before, hsplit, hname⟩ := List.eq_append_cons_of_mem hmem
    have hlink' : link = before.reverse ++ slash :: name.reverse := by
      rw [← List.reverse_reverse link, hsplit]
      simp
    have hname' : slash ∉ name.reverse := by simpa using hname
    rw [hlink', beforeLast_append slash _ hname'] at hwork
    cases hwork
    exact ⟨name.reverse, hname', hlink'⟩
  have hhead : work = [] ∨ work.head? = some slash := by
    cases work with
    | nil => exact .inl rfl
    | cons c work => exact .inr hlink
  refine ⟨hhead, ?_⟩
  obtain ⟨hsplit, hjoin⟩ := joinPath_tail hhead
  have hdirname : dirname (work ++ slash :: name)
      = (beforeLast slash (stripped (work ++ slash :: name))).getD [] := rfl
  by_cases hnil : name = []
  · subst hnil
    rw [hdirname, stripped_slash]
    obtain ⟨ds, hds, hmem, hlen, hempty⟩ := beforeLast_stripped slash_notMem_tail
    rw [hjoin] at hds
    rw [hds, splitOn_joinPath slash hmem, resolve_cons_nil]
    exact Place.less hmem hlen hempty (by simp)
  · have hcons : work ++ slash :: name = (work ++ [slash]) ++ name := by simp
    rw [hdirname, hcons, stripped_append hname hnil, ← hcons, beforeLast_append slash _ hname,
      Option.getD_some, hsplit, resolve_cons_nil, List.tail_cons]
    apply Place.whole slash_notMem_tail
    obtain ⟨name, b, rfl⟩ := (List.eq_nil_or_concat' name).resolve_left hnil
    rw [hcons, ← List.append_assoc, List.getLast?_concat]
    intro h
    cases h
    exact hname (by simp)

/-! ## The function -/

/-- From the loop on. -/
theorem resolvesTarget_iff_walk {link target work targetBuf : Text}
    (hlink : link.head? = some slash)
    (hbranch : ¬ (target.head? = some slash ∧ strstr [0x2E, 0x2F] target = none))
    (hstart : workAndTarget link target = some (work, targetBuf)) :
    ResolvesTarget link target ↔
      walk work (strtok targetBuf) = .path (lexicalTarget link target) := by
  have hcall : ∀ size, targetAbsolutePath link target size
      = match walk work (strtok targetBuf) with
        | .noToken => none
        | .outside => some (.ok [])
        | .path work =>
          if size < work.length + 1 then some (.error (-ltfsSmallBuffer)) else some (.ok work) := by
    intro size
    unfold targetAbsolutePath
    rw [if_neg (not_not_intro hlink), if_neg hbranch, hstart]
  unfold ResolvesTarget
  simp only [hcall]
  cases walk work (strtok targetBuf) with
  | noToken =>
    refine iff_of_false ?_ (by simp)
    intro h
    obtain ⟨out, hout, -⟩ := h 0
    cases hout
  | outside =>
    refine iff_of_false ?_ (by simp)
    intro h
    obtain ⟨out, hout, hpath⟩ := h 0
    cases hout
    exact render_ne_nil _ (hpath [] rfl).symm
  | path work =>
    rw [Walk.path.injEq]
    dsimp only
    constructor
    · -- a buffer that is large enough
      intro h
      obtain ⟨out, hout, hpath⟩ := h (work.length + 1)
      rw [if_neg (lt_irrefl _)] at hout
      cases hout
      exact hpath work rfl
    · intro hwork size
      by_cases hsmall : size < work.length + 1
      · rw [if_pos hsmall]
        refine ⟨_, rfl, fun path hpath => ?_⟩
        cases hpath
      · rw [if_neg hsmall]
        refine ⟨_, rfl, fun path hpath => ?_⟩
        cases hpath
        exact hwork

theorem strstr_spec {pattern s temp : Text} (h : strstr pattern s = some temp) :
    ∃ before, s = before ++ temp ∧ pattern <+: temp := by
  induction s with
  | nil =>
    unfold strstr at h
    split at h
    · rename_i hnil
      cases h
      exact ⟨[], rfl, hnil ▸ List.nil_prefix⟩
    · cases h
  | cons c rest ih =>
    unfold strstr at h
    split at h
    · rename_i hprefix
      cases h
      exact ⟨[], rfl, List.isPrefixOf_iff_prefix.mp hprefix⟩
    · obtain ⟨before, hs, hpre⟩ := ih h
      exact ⟨c :: before, by rw [hs]; rfl, hpre⟩

/-- An absolute target that is followed from the first `/.` on. -/
theorem absolute_iff {link target temp : Text} (hlink : link.head? = some slash)
    (htarget : target.head? = some slash) (hdots : strstr [0x2E, 0x2F] target ≠ none)
    (htemp : strstr [0x2F, 0x2E] target = some temp) :
    ResolvesTarget link target ↔
      Leads (target.take (target.length - temp.length)) True (strtok temp) := by
  obtain ⟨before, hbefore, hpre⟩ := strstr_spec htemp
  obtain ⟨rest, rfl⟩ : ∃ rest, temp = slash :: 0x2E :: rest := by
    obtain ⟨rest, hrest⟩ := hpre
    exact ⟨rest, hrest.symm⟩
  have htake : target.take (target.length - (slash :: 0x2E :: rest).length) = before := by
    rw [hbefore, List.length_append, Nat.add_sub_cancel, List.take_left]
  have hhead : before = [] ∨ before.head? = some slash := by
    cases before with
    | nil => exact .inl rfl
    | cons c before =>
      rw [hbefore] at htarget
      exact .inr htarget
  obtain ⟨hsplit, hjoin⟩ := joinPath_tail hhead
  have htok : strtok (slash :: 0x2E :: rest) = strtok (0x2E :: rest) := by
    unfold strtok
    rw [splitOn_cons_sep, List.filter_cons_of_neg (by simp)]
  have hstart : workAndTarget link target = some (before, 0x2E :: rest) := by
    unfold workAndTarget
    rw [if_pos htarget, htemp]
    dsimp only
    rw [htake]
    rfl
  have hlexical : lexicalTarget link target = render ((strtok (0x2E :: rest)).foldl
      (resolveStep dot dotdot) (resolve dot dotdot (before.splitOn slash).tail)) := by
    unfold lexicalTarget
    dsimp only
    rw [if_pos htarget, hbefore, List.splitOn_append_cons_self, resolve_append, foldl_strtok]
    conv_lhs => rw [hsplit, resolve_cons_nil]
  rw [resolvesTarget_iff_walk hlink (fun h => hdots h.2) hstart, hlexical, htake, htok]
  have hplace : Place (before.splitOn slash).tail
      (resolve dot dotdot (before.splitOn slash).tail) True :=
    Place.whole slash_notMem_tail trivial
  have hne : strtok (0x2E :: rest) ≠ [] := strtok_ne_nil (by decide)
  have hwalk := walk_iff slash_notMem_tail hplace strtok_spec hne
  rw [hjoin] at hwalk
  rw [hwalk]
  exact ⟨fun h => ⟨h.1, h.2.1, h.2.2⟩, fun h => ⟨h.file, h.inside, h.normal⟩⟩

/-- A relative target. -/
theorem relative_iff {link target work : Text} (hlink : link.head? = some slash)
    (htarget : target.head? ≠ some slash) (hne : target ≠ [])
    (hwork : beforeLast slash link = some work) :
    ResolvesTarget link target ↔ Leads work (link.getLast? ≠ some slash) (strtok target) := by
  obtain ⟨hhead, hplace⟩ := place_link hlink hwork
  obtain ⟨hsplit, hjoin⟩ := joinPath_tail hhead
  have hstart : workAndTarget link target = some (work, target) := by
    unfold workAndTarget
    rw [if_neg htarget, hwork]
    rfl
  have hlexical : lexicalTarget link target = render ((strtok target).foldl
      (resolveStep dot dotdot) (resolve dot dotdot ((dirname link).splitOn slash))) := by
    unfold lexicalTarget
    dsimp only
    rw [if_neg htarget, List.splitOn_append_cons_self, resolve_append, foldl_strtok]
  have htok : strtok target ≠ [] := by
    obtain ⟨c, rest, rfl⟩ := List.exists_cons_of_ne_nil hne
    exact strtok_ne_nil fun h => htarget (by rw [h]; rfl)
  have hwalk := walk_iff slash_notMem_tail hplace strtok_spec htok
  rw [hjoin] at hwalk
  rw [resolvesTarget_iff_walk hlink (fun h => htarget h.1) hstart, hlexical, hwalk]
  exact ⟨fun h => ⟨h.1, h.2.1, h.2.2⟩, fun h => ⟨h.file, h.inside, h.normal⟩⟩

/-- An absolute target that is returned as it is. -/
theorem verbatim_iff {link target : Text} (hlink : link.head? = some slash)
    (htarget : target.head? = some slash) (hdots : strstr [0x2E, 0x2F] target = none) :
    ResolvesTarget link target ↔
      target = [slash] ∨ ∀ c ∈ (target.splitOn slash).tail, Proper dot dotdot c := by
  obtain ⟨hsplit, hjoin⟩ := joinPath_tail (.inr htarget)
  have hlexical : lexicalTarget link target
      = render (resolve dot dotdot (target.splitOn slash).tail) := by
    unfold lexicalTarget
    dsimp only
    rw [if_pos htarget]
    conv_lhs => rw [hsplit, resolve_cons_nil]
  have hcall : ∀ size, targetAbsolutePath link target size
      = if size < target.length + 1 then some (.error (-ltfsSmallBuffer)) else some (.ok target) := by
    intro size
    unfold targetAbsolutePath
    rw [if_neg (not_not_intro hlink), if_pos ⟨htarget, hdots⟩]
  have hcopy : ResolvesTarget link target ↔ target = lexicalTarget link target := by
    unfold ResolvesTarget
    simp only [hcall]
    constructor
    · intro h
      obtain ⟨out, hout, hpath⟩ := h (target.length + 1)
      rw [if_neg (lt_irrefl _)] at hout
      cases hout
      exact hpath target rfl
    · intro hsame size
      by_cases hsmall : size < target.length + 1
      · rw [if_pos hsmall]
        refine ⟨_, rfl, fun path hpath => ?_⟩
        cases hpath
      · rw [if_neg hsmall]
        refine ⟨_, rfl, fun path hpath => ?_⟩
        cases hpath
        exact hsame
  rw [hcopy, hlexical]
  have hmem := slash_notMem_tail (s := target)
  have htail : (target.splitOn slash).tail ≠ [] := by
    intro hnil
    rw [hnil] at hjoin
    rw [← hjoin] at htarget
    cases htarget
  generalize (target.splitOn slash).tail = cs at hmem htail hjoin
  constructor
  · intro hsame
    unfold render at hsame
    split at hsame
    · exact .inl hsame
    · right
      rw [← hjoin] at hsame
      have hcs := joinPath_injective slash hmem
        (fun d hd => hmem d (proper_of_mem_resolve d hd).2) hsame
      intro c hc
      rw [hcs] at hc
      exact (proper_of_mem_resolve c hc).1
  · rintro (hroot | hproper)
    · have hcs : cs = [[]] := by
        rw [hroot] at hjoin
        exact joinPath_injective slash hmem (by simp) hjoin
      rw [hroot, hcs]
      rfl
    · rw [resolve_of_proper hproper]
      unfold render
      rw [if_neg htail]
      exact hjoin.symm

/-- A target is resolved in exactly the cases described. -/
theorem target_path_iff (link target : Text) :
    ResolvesTarget link target ↔ link.head? ≠ some slash ∨ Resolvable link target := by
  by_cases hlink : link.head? = some slash
  · rw [or_iff_right (not_not_intro hlink)]
    unfold Resolvable
    by_cases htarget : target.head? = some slash
    · rw [if_pos htarget]
      by_cases hdots : strstr [0x2E, 0x2F] target = none
      · rw [if_pos hdots]
        exact verbatim_iff hlink htarget hdots
      · rw [if_neg hdots]
        cases htemp : strstr [0x2F, 0x2E] target with
        | some temp =>
          rw [absolute_iff hlink htarget hdots htemp]
          exact ⟨fun h => ⟨temp, rfl, h⟩, fun ⟨_, htemp', h⟩ => by cases htemp'; exact h⟩
        | none =>
          -- the search has found nothing
          refine iff_of_false ?_ (by simp)
          intro h
          obtain ⟨out, hout, -⟩ := h 0
          unfold targetAbsolutePath workAndTarget at hout
          rw [if_neg (not_not_intro hlink), if_neg fun h => hdots h.2, if_pos htarget, htemp] at hout
          cases hout
    · rw [if_neg htarget]
      obtain ⟨work, hwork⟩ : ∃ work, beforeLast slash link = some work := by
        have hmem : slash ∈ link.reverse := by
          rw [List.mem_reverse]
          exact List.mem_of_mem_head? hlink
        obtain ⟨name, before, hsplit, hname⟩ := List.eq_append_cons_of_mem hmem
        refine ⟨before.reverse, ?_⟩
        have hlink' : link = before.reverse ++ slash :: name.reverse := by
          rw [← List.reverse_reverse link, hsplit]
          simp
        rw [hlink']
        exact beforeLast_append slash _ (by simpa using hname)
      by_cases hne : target = []
      · refine iff_of_false ?_ fun h => h.1 hne
        subst hne
        intro h
        obtain ⟨out, hout, -⟩ := h 0
        unfold targetAbsolutePath workAndTarget at hout
        rw [if_neg (not_not_intro hlink), if_neg (by simp), if_neg (by simp), hwork] at hout
        cases hout
      · rw [relative_iff hlink htarget hne hwork]
        exact ⟨fun h => ⟨hne, work, hwork, h⟩,
          fun ⟨_, work', hwork', h⟩ => by
            rw [hwork] at hwork'
            cases hwork'
            exact h⟩
  · refine iff_of_true ?_ (.inl hlink)
    intro size
    unfold targetAbsolutePath
    rw [if_pos hlink]
    refine ⟨_, rfl, fun path hpath => ?_⟩
    cases hpath

/-- The target `/a./b` ends a name in a dot, and there is no `/.` in it. -/
theorem target_dot_name : ¬ ResolvesTarget [slash, 0x6C] [slash, 0x61, 0x2E, slash, 0x62] := by
  intro h
  obtain ⟨out, hout, -⟩ := h 64
  have hnull : targetAbsolutePath [slash, 0x6C] [slash, 0x61, 0x2E, slash, 0x62] 64 = none := by
    decide
  rw [hnull] at hout
  cases hout


end Ltfs.TargetPath

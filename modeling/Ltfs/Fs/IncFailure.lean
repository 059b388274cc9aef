import Ltfs.Fs.IncIndex

/-!
# Failed calls under an incremental index

Every call to the XML writer can fail. The functions under `_xml_write_inc_journal` return at the
first failed call, `_xml_write_inc_journal` itself goes on: it empties the journal and closes the
root, and what the closing returns is what it returns.

* `mktags` — calls up to the first that fails.
* `xmlWriteIncJournalOn` — the function on a writer whose calls may fail.
* `plannedJournal` — the calls it makes if none fails, and how it gets through the journal.
* `Reported` — a failed call is reported, and the entries that were not written are still there.
* `incJournal_reported_iff` — this holds unless the first failed call is one of an entry.

A leaf counts as one call, also where it takes several of libxml2. The dirty flags behind a
failed call are left out.
-/

namespace Ltfs.Fs

/-! ## A writer whose calls may fail -/

/-- `xml_mktag` over calls, where `ok k` says whether the `k`-th call of the run succeeds and `n`
calls were made before: it returns at the first that fails. -/
def mktags (ok : ℕ → Bool) : ℕ → List XmlCall → Bool × ℕ
  | n, [] => (true, n)
  | n, _ :: calls => if ok n then mktags ok (n + 1) calls else (false, n + 1)

/-- What the loop of `_xml_write_inc_journal` comes to: the number of calls made so far, and the
entries it has not written, from the one that failed on. -/
structure EntriesResult where
  made : ℕ
  left : List Jentry

/-- What `_xml_write_inc_journal` comes to. -/
structure IncResult where
  ret : ℤ
  made : ℕ
  left : List Jentry
  journal : List Jentry
deriving DecidableEq, Repr

namespace State

variable (ok : ℕ → Bool) (volumeName : Option Path)

/-- The calls of `_xml_open_incremental_dirs` up to a null pointer: the element is open when the
name is read. -/
def openedBeforeNull : State → List (Option ℕ) → List XmlCall
  | _, [] => []
  | _, none :: _ => [.start .directory]
  | fs, some dir :: rest =>
    let r := fs.xmlOpenIncrementalDir dir
    r.1 ++ openedBeforeNull r.2 rest

/-- The calls of `_xml_goto_increment_parent` up to a null pointer. -/
def travelBeforeNull (fs : State) (ent : Jentry) (cur : List ℕ) : List XmlCall :=
  match fs.pushDirectories (some fs.root) (strtokNames (parentPath ent.fullPath)) with
  | none => []
  | some new =>
    let n := incjComparePath cur new
    xmlCloseIncrementalDirs (cur.length - n) ++ fs.openedBeforeNull (new.drop n)

/-- The parent path is the literal `"/"` and not a copy: the entry lies in the root. -/
def literalParent (path : Path) : Bool :=
  decide ((if slash ∈ path then (fsSplitPath path).1 else path) = [])

/-- The loop of `_xml_write_inc_journal`. Every entry leaves the journal, also behind one that
failed. -/
def xmlWriteEntriesOn : ℕ → State → List ℕ → List Jentry → Option EntriesResult
  | n, _, _, [] => some ⟨n, []⟩
  | n, fs, cur, ent :: rest =>
    match fs.xmlGotoIncrementParent ent cur with
    | .undefined =>
      -- a call that fails ends the function before the null pointer
      match mktags ok n (fs.travelBeforeNull ent cur) with
      | (false, n) => some ⟨n, ent :: rest⟩
      | (true, _) => none
    | .failed => some ⟨n, ent :: rest⟩
    | .arrived travel cur fs =>
      match mktags ok n travel with
      -- the path is freed if directories cannot be closed; to the root none are opened
      | (false, n) => if literalParent ent.fullPath then none else some ⟨n, ent :: rest⟩
      | (true, n) =>
        match fs.xmlWriteJentry volumeName ent with
        | none => none
        | some (own, fs) =>
          match mktags ok n own with
          | (false, n) => some ⟨n, ent :: rest⟩
          | (true, n) => xmlWriteEntriesOn n fs cur rest

/-- `_xml_write_inc_journal`. -/
def xmlWriteIncJournalOn (fs : State) : Option IncResult :=
  let root := fs.xmlOpenIncrementalRoot volumeName
  match mktags ok 0 root.1 with
  | (false, n) => some ⟨-1, n, fs.journal.journal, fs.journal.journal⟩
  | (true, n) =>
    (xmlWriteEntriesOn ok volumeName n root.2 [] (incjSort fs.journal.journal)).map fun r =>
      -- the journal is empty, and the root is closed whatever happened before
      let closed := mktags ok r.made xmlCloseIncrementalRoot
      ⟨if closed.1 then 0 else -1, closed.2, r.left, []⟩

end State

/-- A failed call makes the function fail, and the entries that were not written are still in the
journal. -/
def IncResult.Reported (ok : ℕ → Bool) (r : IncResult) : Prop :=
  (∃ k < r.made, ok k = false) → r.ret < 0 ∧ ∀ e ∈ r.left, e ∈ r.journal

/-! ## The first failed call -/

/-- The first failed call among the `len` calls from `n` on. -/
def firstFailed (ok : ℕ → Bool) (n len : ℕ) : Option ℕ := (List.range' n len).find? fun k => !ok k

section FirstFailed

variable {ok : ℕ → Bool} {n len : ℕ}

theorem firstFailed_append (a b : ℕ) :
    firstFailed ok n (a + b) = (firstFailed ok n a).or (firstFailed ok (n + a) b) := by
  unfold firstFailed
  rw [← List.range'_append_1, List.find?_append]

theorem firstFailed_some {k : ℕ} (h : firstFailed ok n len = some k) :
    n ≤ k ∧ k < n + len ∧ ok k = false := by
  have hmem := List.mem_of_find?_eq_some h
  rw [List.mem_range'_1] at hmem
  have hfailed := List.find?_some h
  exact ⟨hmem.1, hmem.2, by simpa using hfailed⟩

theorem firstFailed_none (h : firstFailed ok n len = none) {k : ℕ} (hk : n ≤ k)
    (hlt : k < n + len) : ok k = true := by
  have hgood := List.find?_eq_none.mp h k (List.mem_range'_1.mpr ⟨hk, hlt⟩)
  simpa using hgood

/-- The calls that were made are those up to the first that fails. -/
theorem mktags_eq (calls : List XmlCall) :
    mktags ok n calls =
      match firstFailed ok n calls.length with
      | none => (true, n + calls.length)
      | some k => (false, k + 1) := by
  induction calls generalizing n with
  | nil => rfl
  | cons c calls ih =>
    unfold mktags
    have hsplit : firstFailed ok n (c :: calls).length =
        (firstFailed ok n 1).or (firstFailed ok (n + 1) calls.length) := by
      rw [List.length_cons, Nat.add_comm]
      exact firstFailed_append 1 calls.length
    rw [hsplit, ih]
    by_cases hn : ok n = true
    · have hone : firstFailed ok n 1 = none := by simp [firstFailed, hn]
      rw [if_pos hn, hone, Option.none_or, List.length_cons, Nat.add_assoc, Nat.add_comm 1]
    · have hone : firstFailed ok n 1 = some n := by simp [firstFailed, hn]
      rw [if_neg hn, hone, Option.some_or]

end FirstFailed

/-! ## What is planned -/

/-- How the loop of `_xml_write_inc_journal` gets through the entries if no call fails. -/
inductive EntriesEnd where
  | written
  /-- The parent path of an entry is not absolute. -/
  | unreachable
  /-- A null pointer or freed memory is used. -/
  | undefined
deriving DecidableEq, Repr

/-- The calls of `_xml_write_inc_journal` if none fails, up to a null pointer. -/
structure JournalPlan extends IncOutput where
  stop : EntriesEnd

/-- The calls of the entries. -/
def IncOutput.entryCalls (out : IncOutput) : List XmlCall :=
  out.entries.flatMap fun e => e.travel ++ e.own

namespace State

/-- The calls of the loop if none fails. -/
def plannedEntries (volumeName : Option Path) : State → List ℕ → List Jentry →
    List EntryCalls × EntriesEnd
  | _, _, [] => ([], .written)
  | fs, cur, ent :: rest =>
    match fs.xmlGotoIncrementParent ent cur with
    | .undefined => ([⟨ent, fs.travelBeforeNull ent cur, []⟩], .undefined)
    | .failed => ([], .unreachable)
    | .arrived travel cur fs =>
      match fs.xmlWriteJentry volumeName ent with
      | none => ([⟨ent, travel, []⟩], .undefined)
      | some (own, fs) =>
        let r := plannedEntries volumeName fs cur rest
        (⟨ent, travel, own⟩ :: r.1, r.2)

/-- The calls of the function if none fails. -/
def plannedJournal (fs : State) (volumeName : Option Path) : JournalPlan :=
  let root := fs.xmlOpenIncrementalRoot volumeName
  let r := root.2.plannedEntries volumeName [] (incjSort fs.journal.journal)
  { opening := root.1
    entries := r.1
    closing := if r.2 = .undefined then [] else xmlCloseIncrementalRoot
    stop := r.2 }

end State

section Plan

variable {volumeName : Option Path}

theorem plannedEntries_of_write {fs fs' : State} {cur : List ℕ} {ents : List Jentry}
    {es : List EntryCalls} (h : fs.xmlWriteEntries volumeName cur ents = some (es, fs')) :
    (fs.plannedEntries volumeName cur ents).1 = es ∧
      (fs.plannedEntries volumeName cur ents).2 ≠ .undefined := by
  induction ents generalizing fs cur es with
  | nil =>
    cases h
    refine ⟨rfl, ?_⟩
    intro hend
    cases hend
  | cons ent rest ih =>
    unfold State.xmlWriteEntries at h
    unfold State.plannedEntries
    cases hgoto : fs.xmlGotoIncrementParent ent cur with
    | undefined =>
      rw [hgoto] at h
      cases h
    | failed =>
      rw [hgoto] at h
      cases h
      refine ⟨rfl, ?_⟩
      intro hend
      cases hend
    | arrived travel cur' fs₁ =>
      rw [hgoto] at h
      dsimp only at h ⊢
      cases hown : fs₁.xmlWriteJentry volumeName ent with
      | none =>
        rw [hown] at h
        cases h
      | some r =>
        obtain ⟨own, fs₂⟩ := r
        rw [hown] at h
        rcases Option.map_eq_some_iff.mp h with ⟨⟨es', fs₃⟩, hrest, heq⟩
        cases heq
        obtain ⟨hes, hend⟩ := ih hrest
        dsimp only
        rw [hes]
        exact ⟨rfl, hend⟩

/-- What is planned is what is written, where that is defined. -/
theorem plannedJournal_of_write {fs fs' : State} {out : IncOutput}
    (h : fs.xmlWriteIncJournal volumeName = some (out, fs')) :
    (fs.plannedJournal volumeName).toIncOutput = out ∧
      (fs.plannedJournal volumeName).stop ≠ .undefined := by
  unfold State.xmlWriteIncJournal at h
  rcases Option.map_eq_some_iff.mp h with ⟨⟨es, fs₁⟩, hentries, heq⟩
  cases heq
  obtain ⟨hes, hend⟩ := plannedEntries_of_write hentries
  unfold State.plannedJournal
  dsimp only
  rw [hes, if_neg hend]
  exact ⟨rfl, hend⟩

theorem xmlGotoIncrementParent_failed {fs : State} {ent : Jentry} {cur : List ℕ} :
    fs.xmlGotoIncrementParent ent cur = .failed ↔
      (parentPath ent.fullPath).head? ≠ some slash := by
  unfold State.xmlGotoIncrementParent
  dsimp only
  split
  · exact iff_of_true rfl ‹_›
  · refine iff_of_false ?_ ‹_›
    intro h
    split at h
    · cases h
    · split at h
      · cases h
      · split at h
        · cases h
        · cases h

/-- Without a null pointer all entries are written if and only if their paths are absolute. -/
theorem plannedEntries_written_iff {fs : State} {cur : List ℕ} {ents : List Jentry}
    (h : (fs.plannedEntries volumeName cur ents).2 ≠ .undefined) :
    (fs.plannedEntries volumeName cur ents).2 = .written ↔
      ∀ ent ∈ ents, (parentPath ent.fullPath).head? = some slash := by
  induction ents generalizing fs cur with
  | nil => exact iff_of_true rfl fun ent hent => absurd hent List.not_mem_nil
  | cons ent rest ih =>
    have hfailed := @xmlGotoIncrementParent_failed fs ent cur
    unfold State.plannedEntries at h ⊢
    rw [List.forall_mem_cons]
    cases hgoto : fs.xmlGotoIncrementParent ent cur with
    | undefined =>
      rw [hgoto] at h
      exact absurd rfl h
    | failed =>
      refine iff_of_false ?_ fun hall => hfailed.mp hgoto hall.1
      intro hwritten
      cases hwritten
    | arrived travel cur' fs₁ =>
      have habs : (parentPath ent.fullPath).head? = some slash := by
        by_contra hne
        have := hfailed.mpr hne
        rw [hgoto] at this
        cases this
      rw [hgoto] at h
      dsimp only at h ⊢
      rw [and_iff_right habs]
      cases hown : fs₁.xmlWriteJentry volumeName ent with
      | none =>
        rw [hown] at h
        exact absurd rfl h
      | some r =>
        rw [hown] at h
        exact ih h

end Plan

/-! ## Where the function stops -/

/-- Calls are made, never taken back. -/
theorem mktags_made (ok : ℕ → Bool) (n : ℕ) (calls : List XmlCall) :
    n ≤ (mktags ok n calls).2 := by
  rw [mktags_eq]
  cases hfail : firstFailed ok n calls.length with
  | none => exact Nat.le_add_right n _
  | some k =>
    obtain ⟨hge, -, -⟩ := firstFailed_some hfail
    exact Nat.le_succ_of_le hge

/-- What the loop comes to, by the first of its calls that fails and by its end if none does. -/
def EntriesEnd.Gives (stop : EntriesEnd) (failed : Option ℕ) (made : ℕ)
    (r : Option EntriesResult) : Prop :=
  match failed, stop with
  | some k, _ => r = none ∨ ∃ left, left ≠ [] ∧ r = some ⟨k + 1, left⟩
  | none, .written => r = some ⟨made, []⟩
  | none, .unreachable => ∃ left, left ≠ [] ∧ r = some ⟨made, left⟩
  | none, .undefined => r = none

section Run

variable (ok : ℕ → Bool) {volumeName : Option Path}

/-- The loop on a writer whose calls may fail: it makes the planned calls up to the first that
fails, and leaves the entry of that call, unless it frees a literal. -/
theorem xmlWriteEntriesOn_gives (fs : State) (cur : List ℕ) (ents : List Jentry) (n : ℕ) :
    (fs.plannedEntries volumeName cur ents).2.Gives
      (firstFailed ok n ((fs.plannedEntries volumeName cur ents).1.flatMap fun e =>
        e.travel ++ e.own).length)
      (n + ((fs.plannedEntries volumeName cur ents).1.flatMap fun e => e.travel ++ e.own).length)
      (fs.xmlWriteEntriesOn ok volumeName n cur ents) := by
  induction ents generalizing fs cur n with
  | nil => rfl
  | cons ent rest ih =>
    have hone : ∀ travel : List XmlCall, ([(⟨ent, travel, []⟩ : EntryCalls)].flatMap fun e =>
        e.travel ++ e.own).length = travel.length := by
      intro travel
      rw [List.flatMap_singleton, List.append_nil]
    unfold State.plannedEntries State.xmlWriteEntriesOn
    cases hgoto : fs.xmlGotoIncrementParent ent cur with
    | undefined =>
      dsimp only
      rw [hone, mktags_eq]
      cases firstFailed ok n (fs.travelBeforeNull ent cur).length with
      | some k => exact .inr ⟨ent :: rest, List.cons_ne_nil _ _, rfl⟩
      | none => rfl
    | failed => exact ⟨ent :: rest, List.cons_ne_nil _ _, rfl⟩
    | arrived travel cur' fs₁ =>
      have hliteral : ∀ k, (if State.literalParent ent.fullPath then none
          else some (⟨k + 1, ent :: rest⟩ : EntriesResult)) = none ∨
          ∃ left, left ≠ [] ∧ (if State.literalParent ent.fullPath then none
            else some (⟨k + 1, ent :: rest⟩ : EntriesResult)) = some ⟨k + 1, left⟩ := by
        intro k
        split
        · exact .inl rfl
        · exact .inr ⟨ent :: rest, List.cons_ne_nil _ _, rfl⟩
      dsimp only
      cases hown : fs₁.xmlWriteJentry volumeName ent with
      | none =>
        dsimp only
        rw [hone, mktags_eq]
        cases firstFailed ok n travel.length with
        | some k => exact hliteral k
        | none => rfl
      | some r =>
        obtain ⟨own, fs₂⟩ := r
        dsimp only
        -- the calls of the entry, and those of the rest
        have hrest := ih fs₂ cur' (n + travel.length + own.length)
        generalize hplan : fs₂.plannedEntries volumeName cur' rest = plan at hrest ⊢
        have hlen : ((⟨ent, travel, own⟩ :: plan.1).flatMap fun e => e.travel ++ e.own).length =
            travel.length + (own.length +
              (plan.1.flatMap fun e : EntryCalls => e.travel ++ e.own).length) := by
          rw [List.flatMap_cons, List.length_append, List.length_append, Nat.add_assoc]
        rw [hlen, firstFailed_append, firstFailed_append, mktags_eq travel]
        cases firstFailed ok n travel.length with
        | some k => exact hliteral k
        | none =>
          dsimp only
          rw [mktags_eq own, Option.none_or]
          cases firstFailed ok (n + travel.length) own.length with
          | some k => exact .inr ⟨ent :: rest, List.cons_ne_nil _ _, rfl⟩
          | none =>
            rw [Option.none_or, ← Nat.add_assoc, ← Nat.add_assoc]
            exact hrest

theorem xmlWriteIncJournalOn_opening {fs : State} {k : ℕ}
    (h : firstFailed ok 0 (fs.xmlOpenIncrementalRoot volumeName).1.length = some k) :
    fs.xmlWriteIncJournalOn ok volumeName =
      some ⟨-1, k + 1, fs.journal.journal, fs.journal.journal⟩ := by
  unfold State.xmlWriteIncJournalOn
  dsimp only
  rw [mktags_eq, h]

theorem xmlWriteIncJournalOn_entries {fs : State}
    (h : firstFailed ok 0 (fs.xmlOpenIncrementalRoot volumeName).1.length = none) :
    fs.xmlWriteIncJournalOn ok volumeName =
      ((fs.xmlOpenIncrementalRoot volumeName).2.xmlWriteEntriesOn ok volumeName
        (fs.xmlOpenIncrementalRoot volumeName).1.length [] (incjSort fs.journal.journal)).map
        fun r =>
          let closed := mktags ok r.made State.xmlCloseIncrementalRoot
          ⟨if closed.1 then 0 else -1, closed.2, r.left, []⟩ := by
  unfold State.xmlWriteIncJournalOn
  dsimp only
  rw [mktags_eq, h, Nat.zero_add]

/-- The function, by the first of its calls that fails. -/
theorem xmlWriteIncJournalOn_cases (fs : State) :
    let plan := fs.plannedJournal volumeName
    let closed := mktags ok (plan.opening.length + plan.entryCalls.length)
      State.xmlCloseIncrementalRoot
    (∃ k, firstFailed ok 0 plan.opening.length = some k ∧
      fs.xmlWriteIncJournalOn ok volumeName =
        some ⟨-1, k + 1, fs.journal.journal, fs.journal.journal⟩) ∨
    (firstFailed ok 0 plan.opening.length = none ∧
      ((∃ k, firstFailed ok plan.opening.length plan.entryCalls.length = some k ∧
          ∀ r, fs.xmlWriteIncJournalOn ok volumeName = some r →
            r.journal = [] ∧ k < r.made ∧ r.left ≠ []) ∨
        (firstFailed ok plan.opening.length plan.entryCalls.length = none ∧
          ((plan.stop = .undefined ∧ fs.xmlWriteIncJournalOn ok volumeName = none) ∨
            (plan.stop ≠ .undefined ∧ ∃ left, (left = [] ↔ plan.stop = .written) ∧
              fs.xmlWriteIncJournalOn ok volumeName =
                some ⟨if closed.1 then 0 else -1, closed.2, left, []⟩))))) := by
  intro plan closed
  have hgives : plan.stop.Gives (firstFailed ok plan.opening.length plan.entryCalls.length)
      (plan.opening.length + plan.entryCalls.length)
      ((fs.xmlOpenIncrementalRoot volumeName).2.xmlWriteEntriesOn ok volumeName
        (fs.xmlOpenIncrementalRoot volumeName).1.length [] (incjSort fs.journal.journal)) :=
    xmlWriteEntriesOn_gives ok _ [] (incjSort fs.journal.journal) plan.opening.length
  cases hopen : firstFailed ok 0 plan.opening.length with
  | some k => exact .inl ⟨k, rfl, xmlWriteIncJournalOn_opening ok hopen⟩
  | none =>
    rw [xmlWriteIncJournalOn_entries ok hopen]
    refine .inr ⟨rfl, ?_⟩
    dsimp only
    cases hmid : firstFailed ok plan.opening.length plan.entryCalls.length with
    | some k =>
      rw [hmid] at hgives
      refine .inl ⟨k, rfl, ?_⟩
      rcases hgives with hon | ⟨left, hleft, hon⟩
      · intro r hr
        rw [hon] at hr
        cases hr
      · intro r hr
        rw [hon] at hr
        cases hr
        exact ⟨rfl, Nat.lt_of_lt_of_le (Nat.lt_succ_self k) (mktags_made ok (k + 1) _), hleft⟩
    | none =>
      rw [hmid] at hgives
      refine .inr ⟨rfl, ?_⟩
      cases hstop : plan.stop with
      | written =>
        rw [hstop] at hgives
        rw [hgives]
        refine .inr ⟨?_, [], iff_of_true rfl rfl, rfl⟩
        intro hundefined
        cases hundefined
      | unreachable =>
        rw [hstop] at hgives
        obtain ⟨left, hleft, hon⟩ := hgives
        rw [hon]
        refine .inr ⟨?_, left, iff_of_false hleft ?_, rfl⟩
        · intro hundefined
          cases hundefined
        · intro hwritten
          cases hwritten
      | undefined =>
        rw [hstop] at hgives
        rw [hgives]
        exact .inl ⟨rfl, rfl⟩

end Run

/-- What is planned is what is written if no call fails. The function gets to its end, reports a
failed call and keeps what it has not written if and only if it meets no null pointer before a call
fails, and the first call that fails is one of those that open the root, or one of those that close
it while all parent paths are absolute. -/
theorem incJournal_reported_iff (ok : ℕ → Bool) (fs : State) (volumeName : Option Path) :
    (∀ out fs', fs.xmlWriteIncJournal volumeName = some (out, fs') →
      (fs.plannedJournal volumeName).toIncOutput = out ∧
        (fs.plannedJournal volumeName).stop ≠ .undefined) ∧
    ((∃ r, fs.xmlWriteIncJournalOn ok volumeName = some r ∧ r.Reported ok) ↔
      ((fs.plannedJournal volumeName).stop = .undefined →
        firstFailed ok 0 (fs.plannedJournal volumeName).calls.length ≠ none) ∧
      ∀ k, firstFailed ok 0 (fs.plannedJournal volumeName).calls.length = some k →
        k < (fs.plannedJournal volumeName).opening.length ∨
          ((fs.plannedJournal volumeName).opening.length +
              (fs.plannedJournal volumeName).entryCalls.length ≤ k ∧
            ∀ ent ∈ fs.journal.journal, (parentPath ent.fullPath).head? = some slash)) := by
  refine ⟨fun out fs' h => plannedJournal_of_write h, ?_⟩
  have hcases := @xmlWriteIncJournalOn_cases ok volumeName fs
  have hwritten : (fs.plannedJournal volumeName).stop ≠ .undefined →
      ((fs.plannedJournal volumeName).stop = .written ↔
        ∀ ent ∈ fs.journal.journal, (parentPath ent.fullPath).head? = some slash) := by
    intro hstop
    refine (plannedEntries_written_iff hstop).trans ?_
    exact forall_congr' fun ent => by rw [mem_incjSort]
  have hclosing : (fs.plannedJournal volumeName).closing =
      if (fs.plannedJournal volumeName).stop = .undefined then []
      else State.xmlCloseIncrementalRoot := rfl
  generalize fs.plannedJournal volumeName = plan at hcases hwritten hclosing ⊢
  dsimp only at hcases
  have hlen : plan.calls.length =
      plan.opening.length + (plan.entryCalls.length + plan.closing.length) := by
    unfold IncOutput.calls IncOutput.entryCalls
    rw [List.length_append, List.length_append, Nat.add_assoc]
  have hneg : (-1 : ℤ) < 0 := by decide
  rw [hlen, firstFailed_append, firstFailed_append, Nat.zero_add]
  rcases hcases with ⟨k, hopen, hon⟩ | ⟨hopen, hcases⟩
  · -- the function returns at once
    obtain ⟨-, hlt, -⟩ := firstFailed_some hopen
    rw [hon, hopen, Option.some_or]
    refine iff_of_true ⟨_, rfl, fun _ => ⟨hneg, fun e he => he⟩⟩ ⟨?_, ?_⟩
    · exact fun _ => Option.some_ne_none k
    · intro k' hk'
      cases hk'
      exact .inl (by omega)
  · rw [hopen, Option.none_or]
    rcases hcases with ⟨k, hmid, hlost⟩ | ⟨hmid, hcases⟩
    · -- the entry of the failed call is lost
      obtain ⟨hge, hlt, hfailed⟩ := firstFailed_some hmid
      rw [hmid, Option.some_or]
      refine iff_of_false ?_ ?_
      · rintro ⟨r, hon, hreported⟩
        obtain ⟨hempty, hmade, hleft⟩ := hlost r hon
        rcases List.exists_mem_of_ne_nil _ hleft with ⟨e, he⟩
        have hmem := (hreported ⟨k, hmade, hfailed⟩).2 e he
        rw [hempty] at hmem
        cases hmem
      · rintro ⟨-, hsafe⟩
        rcases hsafe k rfl with hk | ⟨hk, -⟩
        · omega
        · omega
    · rw [hmid, Option.none_or]
      rcases hcases with ⟨hstop, hon⟩ | ⟨hstop, left, hleft, hon⟩
      · -- no call is left behind the null pointer
        rw [hon, hclosing, if_pos hstop]
        refine iff_of_false ?_ ?_
        · rintro ⟨r, hr, -⟩
          cases hr
        · rintro ⟨hdefined, -⟩
          exact hdefined hstop rfl
      · rw [hon, hclosing, if_neg hstop, ← hwritten hstop, ← hleft, mktags_eq]
        cases hclose : firstFailed ok (plan.opening.length + plan.entryCalls.length)
            State.xmlCloseIncrementalRoot.length with
        | some k =>
          obtain ⟨hge, hlt, hfailed⟩ := firstFailed_some hclose
          constructor
          · rintro ⟨r, hr, hreported⟩
            cases hr
            refine ⟨fun h => absurd h hstop, fun k' hk' => ?_⟩
            cases hk'
            refine .inr ⟨hge, ?_⟩
            -- nothing may be left, as the journal is empty
            by_contra hne
            rcases List.exists_mem_of_ne_nil _ hne with ⟨e, he⟩
            have hmem := (hreported ⟨k, Nat.lt_succ_self k, hfailed⟩).2 e he
            cases hmem
          · rintro ⟨-, hsafe⟩
            refine ⟨_, rfl, fun _ => ?_⟩
            rcases hsafe k rfl with hk | ⟨-, rfl⟩
            · omega
            · exact ⟨hneg, fun e he => he⟩
        | none =>
          refine iff_of_true ⟨_, rfl, ?_⟩ ⟨fun h => absurd h hstop, ?_⟩
          · rintro ⟨k, hk, hfailed⟩
            exfalso
            have hok : ok k = true := by
              by_cases h1 : k < plan.opening.length
              · exact firstFailed_none hopen (Nat.zero_le k) (by omega)
              · by_cases h2 : k < plan.opening.length + plan.entryCalls.length
                · exact firstFailed_none hmid (by omega) h2
                · exact firstFailed_none hclose (by omega) hk
            rw [hok] at hfailed
            cases hfailed
          · intro k hk
            cases hk

theorem fileBelowDirectory_sorted :
    incjSort fileBelowDirectory.journal.journal = fileBelowDirectory.journal.journal :=
  List.mergeSort_singleton _

/-- `incJournal_reported_iff` where the last call of all fails. -/
theorem incJournal_last_call :
    ∃ r, fileBelowDirectory.xmlWriteIncJournalOn (fun k => k ≠ 22) none = some r ∧
      r.Reported fun k => k ≠ 22 := by
  have hplan : fileBelowDirectory.plannedJournal none =
      { opening := (fileBelowDirectory.xmlOpenIncrementalRoot none).1
        entries := ((fileBelowDirectory.xmlOpenIncrementalRoot none).2.plannedEntries none []
          fileBelowDirectory.journal.journal).1
        closing := State.xmlCloseIncrementalRoot
        stop := .written } := by
    unfold State.plannedJournal
    rw [fileBelowDirectory_sorted]
    rfl
  refine (incJournal_reported_iff (fun k => k ≠ 22) _ none).2.mpr ⟨?_, fun k hk => .inr ?_⟩
  · rw [hplan]
    intro h
    cases h
  · have hlast : k = 22 := by simpa using (firstFailed_some hk).2.2
    rw [hlast, hplan]
    -- five calls open the root, sixteen write the entry
    decide +kernel

/-- The first call of the entry fails: the function succeeds, and the entry is lost. -/
theorem incJournal_failure_swallowed :
    ¬ ∀ (ok : ℕ → Bool) (fs : State) (volumeName : Option Path) (r : IncResult),
      fs.xmlWriteIncJournalOn ok volumeName = some r → r.Reported ok := by
  intro h
  have hon : fileBelowDirectory.xmlWriteIncJournalOn (fun k => k ≠ 5) none =
      some ⟨0, 8, fileBelowDirectory.journal.journal, []⟩ := by
    unfold State.xmlWriteIncJournalOn
    rw [fileBelowDirectory_sorted]
    decide +kernel
  have hneg := (h _ _ _ _ hon ⟨5, by decide, by decide⟩).1
  exact absurd hneg (lt_irrefl 0)


end Ltfs.Fs

import Mathlib.Data.Set.Finite.Basic
import Mathlib.Order.WellFounded

/-!
# Files that include files

Lines take effect on a state one after the other, and some of them name another file whose lines
come first. Nothing remembers which files are open.

* `runFile` — the run of a file, with the depth of nested files as fuel.
* `ends_iff` — it ends if and only if no chain of files goes on forever.
* `ends_of_acyclic` — it ends for finitely many files none of which includes itself.
* `runFile_sim` — lines with related effects have related runs.
-/

namespace Ltfs.Lib.Include

/-- What comes of a line: another state, the end of the file with a code, or a file to be run, whose
failure may be ignored. -/
inductive Effect (Path S : Type*) where
  | next (s : S)
  | stop (code : ℤ) (s : S)
  | descend (path : Path) (lenient : Bool)

section Run

variable {Path Line S : Type*} (source : Path → Except ℤ (List Line))
  (effect : Line → S → Effect Path S)

/-- The lines of a file, where `call` runs the files they include. -/
def runLines (call : Bool → Path → S → Option (ℤ × S)) : List Line → S → Option (ℤ × S)
  | [], s => some (0, s)
  | line :: rest, s =>
    match effect line s with
    | .next s' => runLines call rest s'
    | .stop code s' => some (code, s')
    | .descend path lenient =>
      match call lenient path s with
      | none => none
      | some (ret, s') =>
        if ret < 0 ∧ lenient = false then some (ret, s') else runLines call rest s'

/-- A file; `lenient` if it does not have to be there. -/
def runFile : ℕ → Bool → Path → S → Option (ℤ × S)
  | 0, _, _, _ => none
  | fuel + 1, lenient, path, s =>
    match source path with
    | .error code => some (if lenient then 0 else code, s)
    | .ok lines => runLines effect (runFile fuel) lines s

/-- The run comes to an end. -/
def Ends (lenient : Bool) (path : Path) (s : S) : Prop :=
  ∃ fuel r, runFile source effect fuel lenient path s = some r

/-- From some state on, the lines come to an included file. -/
inductive Reach : List Line → S → Path → S → Prop where
  | here {line : Line} {rest : List Line} {s : S} {path : Path} {lenient : Bool} :
    effect line s = .descend path lenient → Reach (line :: rest) s path s
  | next {line : Line} {rest : List Line} {s s' t : S} {path : Path} :
    effect line s = .next s' → Reach rest s' path t → Reach (line :: rest) s path t
  | past {line : Line} {rest : List Line} {s s' t : S} {path nested : Path} {lenient : Bool}
      {fuel : ℕ} {ret : ℤ} :
    effect line s = .descend nested lenient →
    runFile source effect fuel lenient nested s = some (ret, s') →
    ¬ (ret < 0 ∧ lenient = false) → Reach rest s' path t → Reach (line :: rest) s path t

/-- A file, run from a state, is included by another one. -/
def CalledBy (x y : Path × S) : Prop :=
  ∃ lines, source y.1 = .ok lines ∧ Reach source effect lines y.2 x.1 x.2

/-- A file has a line that may include another one. -/
def Names (p q : Path) : Prop :=
  ∃ lines, source p = .ok lines ∧ ∃ line ∈ lines, ∃ s lenient, effect line s = .descend q lenient

end Run


/-! ## More fuel -/

section Fuel

variable {Path Line S : Type*} {source : Path → Except ℤ (List Line)}
  {effect : Line → S → Effect Path S}

theorem runLines_mono {call call' : Bool → Path → S → Option (ℤ × S)}
    (h : ∀ lenient path s r, call lenient path s = some r → call' lenient path s = some r) :
    ∀ (lines : List Line) (s : S) (r : ℤ × S),
      runLines effect call lines s = some r → runLines effect call' lines s = some r := by
  intro lines
  induction lines with
  | nil =>
    intro s r hrun
    exact hrun
  | cons line rest ih =>
    intro s r hrun
    unfold runLines at hrun ⊢
    cases heffect : effect line s with
    | next s' =>
      rw [heffect] at hrun
      exact ih s' r hrun
    | stop code s' =>
      rw [heffect] at hrun
      exact hrun
    | descend path lenient =>
      rw [heffect] at hrun
      dsimp only at hrun ⊢
      cases hcall : call lenient path s with
      | none =>
        rw [hcall] at hrun
        cases hrun
      | some result =>
        obtain ⟨ret, s'⟩ := result
        rw [hcall] at hrun
        rw [h lenient path s (ret, s') hcall]
        dsimp only at hrun ⊢
        by_cases hstop : ret < 0 ∧ lenient = false
        · rw [if_pos hstop] at hrun ⊢
          exact hrun
        · rw [if_neg hstop] at hrun ⊢
          exact ih s' r hrun

theorem runFile_succ {fuel : ℕ} : ∀ {lenient : Bool} {path : Path} {s : S} {r : ℤ × S},
    runFile source effect fuel lenient path s = some r →
      runFile source effect (fuel + 1) lenient path s = some r := by
  induction fuel with
  | zero =>
    intro lenient path s r hrun
    cases hrun
  | succ fuel ih =>
    intro lenient path s r hrun
    unfold runFile at hrun ⊢
    cases hsource : source path with
    | error code =>
      rw [hsource] at hrun
      exact hrun
    | ok lines =>
      rw [hsource] at hrun
      exact runLines_mono (fun _ _ _ _ h => ih h) lines s r hrun

theorem runFile_mono {fuel fuel' : ℕ} (hle : fuel ≤ fuel') {lenient : Bool} {path : Path} {s : S}
    {r : ℤ × S} (h : runFile source effect fuel lenient path s = some r) :
    runFile source effect fuel' lenient path s = some r := by
  induction hle with
  | refl => exact h
  | step _ ih => exact runFile_succ ih

/-- The result does not depend on the fuel. -/
theorem runFile_unique {fuel fuel' : ℕ} {lenient : Bool} {path : Path} {s : S} {r r' : ℤ × S}
    (h : runFile source effect fuel lenient path s = some r)
    (h' : runFile source effect fuel' lenient path s = some r') : r = r' := by
  have hmax := runFile_mono (le_max_left fuel fuel') h
  have hmax' := runFile_mono (le_max_right fuel fuel') h'
  rw [hmax, Option.some.injEq] at hmax'
  exact hmax'

/-! ## When a run ends -/

/-- In a run that ends, every file it comes to has ended. -/
theorem runLines_reach {fuel : ℕ} {lines : List Line} {s : S} {path : Path} {t : S}
    (hreach : Reach source effect lines s path t) : ∀ {r : ℤ × S},
      runLines effect (runFile source effect fuel) lines s = some r →
        ∃ lenient r', runFile source effect fuel lenient path t = some r' := by
  induction hreach with
  | here heffect =>
    intro r hrun
    unfold runLines at hrun
    rw [heffect] at hrun
    dsimp only at hrun
    split at hrun
    · cases hrun
    · rename_i hcall
      exact ⟨_, _, hcall⟩
  | next heffect _ ih =>
    intro r hrun
    unfold runLines at hrun
    rw [heffect] at hrun
    exact ih hrun
  | past heffect hnested hgoes _ ih =>
    intro r hrun
    unfold runLines at hrun
    rw [heffect] at hrun
    dsimp only at hrun
    split at hrun
    · cases hrun
    · rename_i hcall
      -- both runs of the nested file have the same result
      have hsame := runFile_unique hnested hcall
      cases hsame
      rw [if_neg hgoes] at hrun
      exact ih hrun

/-- If all files that the lines come to end, so do the lines. -/
theorem runLines_ends : ∀ (lines : List Line) {s : S},
    (∀ path t, Reach source effect lines s path t → ∀ lenient, Ends source effect lenient path t) →
      ∃ fuel r, runLines effect (runFile source effect fuel) lines s = some r := by
  intro lines
  induction lines with
  | nil =>
    intro s _
    exact ⟨0, _, rfl⟩
  | cons line rest ih =>
    intro s hends
    cases heffect : effect line s with
    | next s' =>
      obtain ⟨fuel, r, hrun⟩ := ih fun path t hreach => hends path t (.next heffect hreach)
      refine ⟨fuel, r, ?_⟩
      unfold runLines
      rw [heffect]
      exact hrun
    | stop code s' =>
      refine ⟨0, (code, s'), ?_⟩
      unfold runLines
      rw [heffect]
    | descend path lenient =>
      obtain ⟨fuel, ⟨ret, s'⟩, hnested⟩ := hends path s (.here heffect) lenient
      by_cases hstop : ret < 0 ∧ lenient = false
      · refine ⟨fuel, (ret, s'), ?_⟩
        unfold runLines
        rw [heffect]
        dsimp only
        rw [hnested]
        exact if_pos hstop
      · obtain ⟨fuel', r, hrun⟩ :=
          ih fun path' t hreach => hends path' t (.past heffect hnested hstop hreach)
        refine ⟨max fuel fuel', r, ?_⟩
        unfold runLines
        rw [heffect]
        dsimp only
        rw [runFile_mono (le_max_left fuel fuel') hnested]
        dsimp only
        rw [if_neg hstop]
        exact runLines_mono (fun _ _ _ _ h => runFile_mono (le_max_right fuel fuel') h) rest s' r hrun

/-- A run ends if and only if there is no infinite chain of files each of which comes to the next
one. -/
theorem ends_iff (lenient : Bool) (path : Path) (s : S) :
    Ends source effect lenient path s ↔ Acc (CalledBy source effect) (path, s) := by
  constructor
  · rintro ⟨fuel, r, hrun⟩
    induction fuel generalizing lenient path s r with
    | zero => cases hrun
    | succ fuel ih =>
      refine Acc.intro _ ?_
      rintro ⟨path', t⟩ ⟨lines, hsource, hreach⟩
      unfold runFile at hrun
      rw [hsource] at hrun
      obtain ⟨lenient', r', hnested⟩ := runLines_reach hreach hrun
      exact ih lenient' path' t r' hnested
  · intro hacc
    generalize hx : (path, s) = x at hacc
    induction hacc generalizing lenient path s with
    | intro x _ ih =>
      subst hx
      cases hsource : source path with
      | error code =>
        refine ⟨1, (if lenient then 0 else code, s), ?_⟩
        unfold runFile
        rw [hsource]
      | ok lines =>
        have hlines := runLines_ends lines (s := s) fun path' t hreach lenient' =>
          ih (path', t) ⟨lines, hsource, hreach⟩ lenient' path' t rfl
        obtain ⟨fuel, r, hrun⟩ := hlines
        refine ⟨fuel + 1, r, ?_⟩
        unfold runFile
        rw [hsource]
        exact hrun

theorem Reach.names {lines : List Line} {s : S} {path : Path} {t : S}
    (hreach : Reach source effect lines s path t) :
    ∃ line ∈ lines, ∃ u lenient, effect line u = .descend path lenient := by
  induction hreach with
  | here heffect => exact ⟨_, List.mem_cons_self, _, _, heffect⟩
  | next _ _ ih =>
    obtain ⟨line, hmem, hline⟩ := ih
    exact ⟨line, List.mem_cons_of_mem _ hmem, hline⟩
  | past _ _ _ _ ih =>
    obtain ⟨line, hmem, hline⟩ := ih
    exact ⟨line, List.mem_cons_of_mem _ hmem, hline⟩

/-- Finitely many files, none of which includes itself, not even through others. -/
theorem ends_of_acyclic (hfinite : {p | ∃ lines, source p = .ok lines}.Finite)
    (hacyclic : ∀ p, ¬ Relation.TransGen (Names source effect) p p) (lenient : Bool) (path : Path)
    (s : S) : Ends source effect lenient path s := by
  have hwf : ∀ p, Acc (fun q p => Names source effect p q) p := by
    intro p
    let back : {p | ∃ lines, source p = .ok lines} → {p | ∃ lines, source p = .ok lines} → Prop :=
      fun q p => Relation.TransGen (Names source effect) p.1 q.1
    have hback : WellFounded back := by
      have : Finite {p | ∃ lines, source p = .ok lines} := hfinite
      have : IsTrans _ back := ⟨fun _ _ _ h h' => h'.trans h⟩
      have : Std.Irrefl back := ⟨fun p => hacyclic p.1⟩
      exact Finite.wellFounded_of_trans_of_irrefl back
    -- a file that cannot be opened includes nothing
    have hclosed : ∀ p, (¬ ∃ lines, source p = .ok lines) →
        Acc (fun q p => Names source effect p q) p := by
      intro p hp
      refine Acc.intro _ ?_
      rintro q ⟨lines, hsource, -⟩
      exact absurd ⟨lines, hsource⟩ hp
    have hopen : ∀ x : {p | ∃ lines, source p = .ok lines},
        Acc (fun q p => Names source effect p q) x.1 := by
      intro x
      induction x using hback.induction with
      | h x ih =>
        refine Acc.intro _ ?_
        intro q hq
        by_cases hsource : ∃ lines, source q = .ok lines
        · exact ih ⟨q, hsource⟩ (.single hq)
        · exact hclosed q hsource
    by_cases hsource : ∃ lines, source p = .ok lines
    · exact hopen ⟨p, hsource⟩
    · exact hclosed p hsource
  rw [ends_iff]
  generalize hx : (path, s) = x
  have hacc := hwf path
  induction hacc generalizing s x with
  | intro path _ ih =>
    subst hx
    refine Acc.intro _ ?_
    rintro ⟨path', t⟩ ⟨lines, hsource, hreach⟩
    obtain ⟨line, hmem, u, lenient', heffect⟩ := hreach.names
    exact ih path' ⟨lines, hsource, line, hmem, u, lenient', heffect⟩ t _ rfl

/-- A file that comes to itself in the same state goes on forever. -/
theorem not_ends_of_loop {path : Path} {s : S}
    (hloop : Relation.TransGen (CalledBy source effect) (path, s) (path, s)) (lenient : Bool) :
    ¬ Ends source effect lenient path s := by
  rw [ends_iff]
  intro hacc
  have htrans := hacc.transGen
  generalize (path, s) = x at hloop htrans
  induction htrans with
  | intro x _ ih => exact ih x hloop hloop

end Fuel


/-! ## Related lines -/

section Sim

variable {Path Line S S' : Type*} {source : Path → Except ℤ (List Line)}
  {effect : Line → S → Effect Path S} {effect' : Line → S' → Effect Path S'}

/-- The same happens to related states. -/
inductive Related (R : S → S' → Prop) : Effect Path S → Effect Path S' → Prop where
  | next {s : S} {s' : S'} : R s s' → Related R (.next s) (.next s')
  | stop {code : ℤ} {s : S} {s' : S'} : R s s' → Related R (.stop code s) (.stop code s')
  | descend {path : Path} {lenient : Bool} : Related R (.descend path lenient) (.descend path lenient)

/-- The same code, and related states. -/
def SameResult (R : S → S' → Prop) (r : ℤ × S) (r' : ℤ × S') : Prop := r.1 = r'.1 ∧ R r.2 r'.2

variable {R : S → S' → Prop} (hstep : ∀ line s s', R s s' → Related R (effect line s) (effect' line s'))

include hstep

theorem runLines_sim {call : Bool → Path → S → Option (ℤ × S)}
    {call' : Bool → Path → S' → Option (ℤ × S')}
    (hcall : ∀ lenient path s s', R s s' →
      Option.Rel (SameResult R) (call lenient path s) (call' lenient path s')) :
    ∀ (lines : List Line) (s : S) (s' : S'), R s s' →
      Option.Rel (SameResult R) (runLines effect call lines s) (runLines effect' call' lines s') := by
  intro lines
  induction lines with
  | nil =>
    intro s s' hR
    exact .some ⟨rfl, hR⟩
  | cons line rest ih =>
    intro s s' hR
    have hline := hstep line s s' hR
    unfold runLines
    generalize effect line s = e at hline
    generalize effect' line s' = e' at hline
    cases hline with
    | next hR' => exact ih _ _ hR'
    | stop hR' => exact .some ⟨rfl, hR'⟩
    | @descend path lenient =>
      have hnested := hcall lenient path s s' hR
      dsimp only
      generalize call lenient path s = c at hnested
      generalize call' lenient path s' = c' at hnested
      cases hnested with
      | none => exact .none
      | @some r r' hsame =>
        obtain ⟨ret, t⟩ := r
        obtain ⟨ret', t'⟩ := r'
        obtain ⟨hret, hR'⟩ := hsame
        dsimp only at hret hR' ⊢
        subst hret
        by_cases hstop : ret < 0 ∧ lenient = false
        · rw [if_pos hstop, if_pos hstop]
          exact .some ⟨rfl, hR'⟩
        · rw [if_neg hstop, if_neg hstop]
          exact ih t t' hR'

/-- Related states stay related over a run, which ends in both or in neither. -/
theorem runFile_sim : ∀ (fuel : ℕ) (lenient : Bool) (path : Path) (s : S) (s' : S'), R s s' →
    Option.Rel (SameResult R) (runFile source effect fuel lenient path s)
      (runFile source effect' fuel lenient path s') := by
  intro fuel
  induction fuel with
  | zero =>
    intro lenient path s s' _
    exact .none
  | succ fuel ih =>
    intro lenient path s s' hR
    unfold runFile
    cases source path with
    | error code => exact .some ⟨rfl, hR⟩
    | ok lines => exact runLines_sim hstep ih lines s s' hR

end Sim

end Ltfs.Lib.Include

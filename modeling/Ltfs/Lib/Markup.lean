import Mathlib.Data.List.Basic
import Mathlib.Data.Nat.Notation

/-!
# Start and end calls of a markup writer

A writer of marked up text opens and closes elements and puts leaves in between. What it
has written so far is known by the elements that are still open.

* `Content` — calls that open and close elements properly: the content of an element.
* `runCalls` — the open elements after some calls, each with the leaves put into it.
* `Content.run`, `IsElement.run` — proper content leaves the open elements as they are.
* `runCalls_length` — how many elements are open, by counting.
-/

namespace Ltfs.Lib.Markup

/-- A call of the writer. -/
inductive Call (T L : Type) where
  | start (tag : T)
  | stop
  | leaf (l : L)
deriving DecidableEq, Repr

/-- An open element, with the leaves directly in it. -/
structure Opened (T L : Type) where
  tag : T
  leaves : List L
deriving DecidableEq, Repr

variable {T L : Type}

/-- Elements and leaves, one after the other, all closed. -/
inductive Content : List (Call T L) → Prop
  | nil : Content []
  | leaf (l : L) {rest : List (Call T L)} : Content rest → Content (.leaf l :: rest)
  | element (tag : T) {body rest : List (Call T L)} :
      Content body → Content rest → Content (.start tag :: (body ++ .stop :: rest))

/-- The calls write one element with one of these tags. -/
def IsElement (tags : T → Prop) (calls : List (Call T L)) : Prop :=
  ∃ tag body, tags tag ∧ Content body ∧ calls = .start tag :: (body ++ [.stop])

/-- The open elements after a call, the innermost first; `none` if there is none to close. -/
def Call.step : Call T L → List (Opened T L) → Option (List (Opened T L))
  | .start tag, s => some (⟨tag, []⟩ :: s)
  | .stop, [] => none
  | .stop, _ :: s => some s
  | .leaf _, [] => some []
  | .leaf l, o :: s => some (⟨o.tag, o.leaves ++ [l]⟩ :: s)

/-- The open elements after some calls. -/
def runCalls : List (Call T L) → List (Opened T L) → Option (List (Opened T L))
  | [], s => some s
  | c :: calls, s => (c.step s).bind (runCalls calls)

@[simp] theorem runCalls_nil (s : List (Opened T L)) : runCalls [] s = some s := rfl

@[simp] theorem runCalls_start (tag : T) (calls : List (Call T L)) (s : List (Opened T L)) :
    runCalls (.start tag :: calls) s = runCalls calls (⟨tag, []⟩ :: s) := rfl

@[simp] theorem runCalls_stop (calls : List (Call T L)) (o : Opened T L) (s : List (Opened T L)) :
    runCalls (.stop :: calls) (o :: s) = runCalls calls s := rfl

@[simp] theorem runCalls_leaf (l : L) (calls : List (Call T L)) (o : Opened T L)
    (s : List (Opened T L)) :
    runCalls (.leaf l :: calls) (o :: s) = runCalls calls (⟨o.tag, o.leaves ++ [l]⟩ :: s) := rfl

theorem runCalls_append (calls calls' : List (Call T L)) : ∀ s : List (Opened T L),
    runCalls (calls ++ calls') s = (runCalls calls s).bind (runCalls calls') := by
  induction calls with
  | nil => exact fun _ => rfl
  | cons c calls ih =>
    intro s
    show (c.step s).bind (runCalls (calls ++ calls')) = ((c.step s).bind (runCalls calls)).bind _
    cases c.step s with
    | none => rfl
    | some s' => exact ih s'

theorem Content.append {calls calls' : List (Call T L)} (h : Content calls) (h' : Content calls') :
    Content (calls ++ calls') := by
  induction h with
  | nil => exact h'
  | leaf l _ ih => exact .leaf l ih
  | element tag hbody _ _ ih =>
    rw [List.cons_append, List.append_assoc, List.cons_append]
    exact .element tag hbody ih

theorem Content.flatMap {α : Type} {l : List α} {f : α → List (Call T L)}
    (h : ∀ a ∈ l, Content (f a)) : Content (l.flatMap f) := by
  induction l with
  | nil => exact .nil
  | cons a l ih =>
    rw [List.flatMap_cons]
    exact (h a (by simp)).append (ih fun b hb => h b (by simp [hb]))

theorem IsElement.content {tags : T → Prop} {calls : List (Call T L)} (h : IsElement tags calls) :
    Content calls := by
  rcases h with ⟨tag, body, -, hbody, rfl⟩
  exact .element tag hbody .nil

/-- Content adds leaves to the element it is in, and nothing else. -/
theorem Content.run {calls : List (Call T L)} (h : Content calls) : ∀ (o : Opened T L)
    (s : List (Opened T L)), ∃ leaves, runCalls calls (o :: s) = some (⟨o.tag, leaves⟩ :: s) := by
  induction h with
  | nil => exact fun o s => ⟨o.leaves, rfl⟩
  | leaf l _ ih => exact fun o s => ih ⟨o.tag, o.leaves ++ [l]⟩ s
  | element tag _ _ ihbody ihrest =>
    intro o s
    rcases ihbody ⟨tag, []⟩ (o :: s) with ⟨leaves, hleaves⟩
    rw [runCalls_start, runCalls_append, hleaves]
    exact ihrest o s

/-- An element leaves no trace. -/
theorem IsElement.run {tags : T → Prop} {calls : List (Call T L)} (h : IsElement tags calls)
    (s : List (Opened T L)) : runCalls calls s = some s := by
  rcases h with ⟨tag, body, -, hbody, rfl⟩
  rcases hbody.run ⟨tag, []⟩ s with ⟨leaves, hleaves⟩
  rw [runCalls_start, runCalls_append, hleaves]
  rfl

def Call.isStart : Call T L → Bool
  | .start _ => true
  | _ => false

def Call.isStop : Call T L → Bool
  | .stop => true
  | _ => false

/-- Every call opens an element, closes one, or does neither. -/
theorem runCalls_length (calls : List (Call T L)) : ∀ {s s' : List (Opened T L)},
    runCalls calls s = some s' →
    s'.length + calls.countP Call.isStop = s.length + calls.countP Call.isStart := by
  induction calls with
  | nil =>
    intro s s' h
    rw [runCalls_nil, Option.some.injEq] at h
    rw [h]
    rfl
  | cons c calls ih =>
    intro s s' h
    cases c with
    | start tag =>
      have := ih h
      simp only [List.length_cons, Call.isStop, Call.isStart, List.countP_cons] at this ⊢
      simp
      omega
    | stop =>
      cases s with
      | nil => exact absurd h (by simp [runCalls, Call.step])
      | cons o s =>
        have := ih h
        simp only [List.length_cons, Call.isStop, Call.isStart, List.countP_cons] at this ⊢
        simp
        omega
    | leaf l =>
      cases s with
      | nil =>
        have := ih h
        simpa [Call.isStop, Call.isStart] using this
      | cons o s =>
        have := ih h
        simpa [Call.isStop, Call.isStart] using this

/-- In content every element is opened and closed. -/
theorem Content.countP {calls : List (Call T L)} (h : Content calls) :
    calls.countP Call.isStart = calls.countP Call.isStop := by
  induction h with
  | nil => rfl
  | leaf l _ ih => simpa [Call.isStart, Call.isStop] using ih
  | element tag _ _ ihbody ihrest =>
    simp only [List.countP_cons, List.countP_append, Call.isStart, Call.isStop, ihbody, ihrest]
    simp
    omega

end Ltfs.Lib.Markup

import Ltfs.Fs.OpenCount

/-!
# References

What a call does to the references to dentries depends on the counts, the parent pointers and the
root (`Refs`). `users fs d` is how many references there are to a dentry besides the one the name
tree has; a call that gives back what it takes changes no such number.

* `Refs` — one lemma for each step a call is made of.
* `unlink_users` — `ltfs_fsops_unlink`, whatever happens.
-/

namespace Ltfs.Fs

open Function Namespace

/-- The references to a dentry besides the one of the tree. -/
def users (fs : State) (d : ℕ) : ℤ := fs.numhandles d - fs.treeRef d

/-- What holds of the tree between two calls. Only directories have children, and the tree refers
to all of its dentries. -/
structure Settled (fs : State) : Prop where
  tree : fs.TreeInv
  childless : ∀ d, (fs.dentry d).isdir = false → (fs.dentry d).childList = []
  handles : ∀ d, fs.Attached d → 1 ≤ fs.numhandles d

/-! ## Counts and parents -/

/-- The counts, the parent pointers and the root. -/
structure Refs (fs : State) (n : ℕ → ℤ) (par : ℕ → Option ℕ) (root : ℕ) : Prop where
  numhandles : fs.numhandles = n
  parent : ∀ d, fs.parent d = par d
  root : fs.root = root

/-- The references besides the one of the tree. -/
def usersOf (n : ℕ → ℤ) (par : ℕ → Option ℕ) (root d : ℕ) : ℤ :=
  n d - if d = root ∨ par d ≠ none then 1 else 0

section Refs

variable {fs fs' : State} {n : ℕ → ℤ} {par : ℕ → Option ℕ} {root d p : ℕ}

theorem Refs.refl (fs : State) : Refs fs fs.numhandles fs.parent fs.root :=
  ⟨rfl, fun _ => rfl, rfl⟩

theorem Refs.users (R : Refs fs n par root) (d : ℕ) : users fs d = usersOf n par root d := by
  have hattached : fs.Attached d ↔ d = root ∨ par d ≠ none := by
    unfold Namespace.Attached
    rw [R.root, R.parent]
  have href : fs.treeRef d = if d = root ∨ par d ≠ none then 1 else 0 :=
    if_congr hattached rfl rfl
  unfold Fs.users usersOf
  rw [R.numhandles, href]

/-- A state that differs in other things. -/
theorem Refs.of_eq (R : Refs fs n par root) (hn : fs'.numhandles = fs.numhandles)
    (hp : ∀ d, fs'.parent d = fs.parent d) (hr : fs'.root = fs.root) : Refs fs' n par root :=
  ⟨hn.trans R.numhandles, fun d => (hp d).trans (R.parent d), hr.trans R.root⟩

/-- Changing a dentry, but not its parent. -/
theorem Refs.modify (R : Refs fs n par root) (d : ℕ) {f : Dentry → Dentry}
    (hf : ∀ b, (f b).parent = b.parent) : Refs (fs.modify d f) n par root := by
  refine R.of_eq rfl (fun x => ?_) rfl
  show (update fs.dentry d (f (fs.dentry d)) x).parent = (fs.dentry x).parent
  by_cases hx : x = d
  · subst hx
    rw [update_self, hf]
  · rw [update_of_ne hx]

/-- Changing the parent of a dentry. -/
theorem Refs.reparent (R : Refs fs n par root) (d : ℕ) {f : Dentry → Dentry} {v : Option ℕ}
    (hf : ∀ b, (f b).parent = v) : Refs (fs.modify d f) n (update par d v) root := by
  refine ⟨R.numhandles, fun x => ?_, R.root⟩
  show (update fs.dentry d (f (fs.dentry d)) x).parent = update par d v x
  by_cases hx : x = d
  · subst hx
    rw [update_self, update_self, hf]
  · rw [update_of_ne hx, update_of_ne hx]
    exact R.parent x

theorem Refs.journalize (R : Refs fs n par root) (f : Journal → Alloc → Alloc → Journal.Result) :
    Refs (fs.journalize f) n par root := R.of_eq rfl (fun _ => rfl) rfl

theorem Refs.hold (R : Refs fs n par root) (d : ℕ) : Refs (fs.hold d) (raised n d) par root := by
  refine ⟨?_, R.parent, R.root⟩
  rw [numhandles_hold, R.numhandles]

theorem Refs.unhold (R : Refs fs (raised n d) par root) : Refs (fs.unhold d) n par root :=
  ⟨numhandles_unhold R.numhandles, R.parent, R.root⟩

/-- A dentry with other references is released without being disposed. -/
theorem Refs.release (R : Refs fs (raised n d) par root) (hn : 1 ≤ n d) :
    Refs (fs.fsReleaseDentry d) n par root := by
  rw [fsReleaseDentry_handles R.numhandles hn]
  exact R.unhold

/-- A dentry that was removed is released, and disposed if nobody uses it. -/
theorem Refs.release_removed (R : Refs fs (raised n d) par root) (hp : par d = none)
    (hc : (fs.dentry d).childList = []) : Refs (fs.fsReleaseDentry d) n par root := by
  unfold State.fsReleaseDentry
  dsimp only
  split
  · exact R.unhold
  · have hp' : (fs.unhold d).parent d = none := (R.unhold.parent d).trans hp
    have hc' : ((fs.unhold d).dentry d).childList = [] := hc
    rw [fsDispose_of_childless _ hp' hc']
    have hmod := R.unhold.reparent d (f := fun _ => Dentry.zero) (v := none) fun _ => rfl
    rw [← hp, update_eq_self] at hmod
    exact hmod

end Refs

/-- One reference less to `d`. -/
def lowered (n : ℕ → ℤ) (d : ℕ) : ℕ → ℤ := update n d (n d - 1)

theorem raised_lowered (n : ℕ → ℤ) (d : ℕ) : raised (lowered n d) d = n := by
  unfold raised lowered
  rw [update_self, update_idem]
  exact update_eq_self_iff.mpr (by omega)

/-- The tree loses a dentry, and the dentry the reference of the tree. -/
theorem usersOf_removed {n : ℕ → ℤ} {par : ℕ → Option ℕ} {root d : ℕ} (hroot : d ≠ root)
    (hp : par d ≠ none) (x : ℕ) :
    usersOf (lowered n d) (update par d none) root x = usersOf n par root x := by
  unfold usersOf lowered
  by_cases hx : x = d
  · subst hx
    rw [update_self, update_self, if_neg (by simp [hroot]), if_pos (.inr hp)]
    omega
  · rw [update_of_ne hx, update_of_ne hx]

/-! ## Unlink -/

section Unlink

variable {fs fs' : State} {n : ℕ → ℤ} {par : ℕ → Option ℕ} {root d p : ℕ}

theorem Refs.of_namespace (R : Refs fs n par root) (h : fs'.toNamespace = fs.toNamespace)
    {m : ℕ → ℤ} (hm : fs'.numhandles = m) : Refs fs' m par root := by
  refine ⟨hm, fun x => ?_, ?_⟩
  · rw [h]
    exact R.parent x
  · rw [h]
    exact R.root

theorem dentry_modify_of_ne {x : ℕ} (f : Dentry → Dentry) (h : x ≠ d) :
    (fs.modify d f).dentry x = fs.dentry x := update_of_ne h _ _

/-- A dentry that is referred to once more is taken out of its directory. -/
theorem unlinkFound_refs (R : Refs fs (raised n d) par root) (pathNorm : Path) :
    Refs (fs.unlinkFound p d pathNorm) n (update par d none) root := by
  unfold State.unlinkFound
  have hdel : Refs (fs.hashDel p (fs.dentry d).platformSafeName) (raised n d) par root :=
    R.modify p fun _ => rfl
  have hgone := hdel.reparent d (f := fun b =>
    { b with deleted := true, parent := none, linkCount := b.linkCount - 1 }) (v := none)
    fun _ => rfl
  have hlink := hgone.modify p (f := fun b => { b with linkCount := b.linkCount - 1 }) fun _ => rfl
  dsimp only
  split
  · exact hlink.unhold.of_eq rfl (fun _ => rfl) rfl
  · exact hgone.unhold.of_eq rfl (fun _ => rfl) rfl

theorem unlinkFound_childList (hne : d ≠ p) (pathNorm : Path) :
    ((fs.unlinkFound p d pathNorm).dentry d).childList = (fs.dentry d).childList := by
  unfold State.unlinkFound
  dsimp only
  split
  · simp [State.journalize, State.unhold, State.modify, State.hashDel, hne]
  · simp [State.journalize, State.unhold, State.modify, State.hashDel, hne]

/-- Nothing is left of what `ltfs_fsops_unlink` holds between the lookup and its end. -/
theorem unlinkIn_users (S : Settled fs) (hd : fs.Attached d) (hp : fs.parent d = some p)
    (hR : Refs fs' (raised (raised fs.numhandles p) d) fs.parent fs.root)
    (hns : fs'.toNamespace = fs.toNamespace) (pathNorm : Path) (x : ℕ) :
    users (((fs'.unlinkIn p d pathNorm).2.fsReleaseDentry p).fsReleaseDentry d) x
      = users fs x := by
  have hpa : fs.Attached p := S.tree.attached_of_parent hp
  have hne : d ≠ p := by
    rintro rfl
    exact S.tree.parent_ne_self d hp
  -- both are released, and nothing else happened
  have hkept : ∀ fs₁ : State, Refs fs₁ (raised (raised fs.numhandles p) d) fs.parent fs.root →
      users ((fs₁.fsReleaseDentry p).fsReleaseDentry d) x = users fs x := by
    intro fs₁ R
    rw [raised_comm] at R
    have hle : 1 ≤ raised fs.numhandles d p := by
      have := S.handles p hpa
      rw [raised_apply]
      omega
    rw [((R.release hle).release (S.handles d hd)).users, (Refs.refl fs).users]
  unfold State.unlinkIn
  dsimp only
  split
  · exact hkept fs' hR
  · split
    · exact hkept fs' hR
    · split
      · exact hkept fs' hR
      · rename_i hfull
        unfold State.fsFindKeyFromHashTable State.hashMalloc
        have htail : Refs { fs' with hashAlloc := fs'.hashAlloc.next.2 }
            (raised (raised fs.numhandles p) d) fs.parent fs.root :=
          hR.of_eq rfl (fun _ => rfl) rfl
        cases fs'.hashAlloc.next.1 with
        | false => exact hkept _ htail
        | true =>
          dsimp only
          generalize ((fs'.dentry p).childList.find?
            (State.hasKey (fs'.dentry d).platformSafeName)).map Prod.snd = found
          cases found with
          | none => exact hkept _ htail
          | some found =>
            -- the tree lets the dentry go
            have hfound := unlinkFound_refs htail (p := p) pathNorm
            have hlist : ((State.unlinkFound { fs' with hashAlloc := fs'.hashAlloc.next.2 } p d
                pathNorm).dentry d).childList = [] := by
              rw [unlinkFound_childList hne]
              show (fs'.dentry d).childList = []
              rw [hns] at hfull ⊢
              cases hdir : (fs.dentry d).isdir with
              | true => simpa [hdir] using hfull
              | false => exact S.childless d hdir
            have hlet := fsReleaseDentry_handles hfound.numhandles (S.handles p hpa)
            have hone := hfound.release (S.handles p hpa)
            rw [← raised_lowered fs.numhandles d] at hone
            dsimp only
            have hzero := hone.release_removed (update_self _ _ _) (by rw [hlet]; exact hlist)
            have hroot : d ≠ fs.root := by
              rintro rfl
              rw [S.tree.rootParent] at hp
              cases hp
            rw [hzero.users, usersOf_removed hroot (by simp [hp]), (Refs.refl fs).users]

/-- **Unlink.** Every reference that is taken is given back, whatever happens. -/
theorem unlink_users (normalize : List UInt8 → Except ℤ (List UInt8)) (S : Settled fs) (env : Env)
    (path : Path) (x : ℕ) : users (fs.ltfsFsopsUnlink normalize env path).2 x = users fs x := by
  unfold State.ltfsFsopsUnlink
  split
  · rfl
  · split
    · rfl
    · split
      · rfl
      · rename_i pathNorm _
        split
        · rfl
        · rename_i hne
          split
          · rfl
          · rcases fsPathLookup_handles true pathNorm S.tree S.handles with ⟨e, fs₁, h, hns, hn⟩ |
              ⟨d, fs₁, h, hns, ha, hn⟩
            · rw [h]
              show users fs₁ x = users fs x
              rw [((Refs.refl fs).of_namespace hns hn).users, (Refs.refl fs).users]
            · rw [h]
              rw [if_pos ⟨rfl, pathNames_ne_nil hne⟩] at hn
              obtain ⟨p, hp, hn⟩ := hn
              dsimp only
              have hp₁ : (fs₁.dentry d).parent = some p := by
                rw [hns]
                exact hp
              rw [hp₁]
              exact unlinkIn_users S ha hp ((Refs.refl fs).of_namespace hns hn) hns pathNorm x

end Unlink

end Ltfs.Fs

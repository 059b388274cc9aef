import Ltfs.Fs.Change

/-!
# What attribute calls change

Setting or removing an attribute changes one dentry: its attributes, the two
protection flags and the dirty flag. `Worked` is such a piece of work on a dentry,
and `withDentry_spec` turns it into a call on a path.
-/

namespace Ltfs.Fs

open Function Namespace

theorem XattrChange.refl (wormCart : Bool) (b : Dentry) : XattrChange wormCart b b :=
  ⟨rfl, fun _ => rfl, fun _ h => h, fun _ h => h⟩

/-! ## The attribute functions -/

/-- Attributes of the WORM kind are the only ones these list functions touch. -/
theorem otherXattrs_replace {name : Path} (hw : xattrIsWormEa name = true) (value : List UInt8)
    (l : List XattrInfo) :
    (xattrReplace name value l).filter (fun x => !xattrIsWormEa x.key) =
      l.filter fun x => !xattrIsWormEa x.key := by
  induction l with
  | nil => rfl
  | cons x l ih =>
    unfold xattrReplace
    split
    · rename_i hx
      have hk : x.key = name := beq_iff_eq.mp hx
      rw [List.filter_cons_of_neg (by simp [hk, hw]), List.filter_cons_of_neg (by simp [hk, hw])]
    · rw [List.filter_cons, List.filter_cons, ih]

theorem otherXattrs_erase {name : Path} (hw : xattrIsWormEa name = true) (l : List XattrInfo) :
    (xattrErase name l).filter (fun x => !xattrIsWormEa x.key) =
      l.filter fun x => !xattrIsWormEa x.key := by
  unfold xattrErase
  induction l with
  | nil => rfl
  | cons x l ih =>
    by_cases hx : x.hasName name = true
    · have hk : x.key = name := beq_iff_eq.mp hx
      rw [List.eraseP_cons_of_pos hx, List.filter_cons_of_neg (by simp [hk, hw])]
    · rw [List.eraseP_cons_of_neg hx, List.filter_cons, List.filter_cons, ih]

section Functions

variable (fs : State) (env : Env) (d : ℕ) (name : Path) (value : List UInt8)

/-- `xattr_do_set` touches the attribute list. -/
theorem xattrDoSet_spec :
    ∃ l, Touch fs (fs.xattrDoSet d name value).2 d { fs.dentry d with xattrlist := l } ∧
      (xattrIsWormEa name = true → (l.filter fun x => !xattrIsWormEa x.key) =
        (fs.dentry d).xattrlist.filter fun x => !xattrIsWormEa x.key) := by
  have hsame : ∀ a, Touch fs { fs with alloc := a } d
      { fs.dentry d with xattrlist := (fs.dentry d).xattrlist } :=
    fun a => ⟨(update_eq_self d fs.dentry).symm, rfl, rfl, rfl, rfl, rfl, rfl, rfl, id⟩
  have hmod : ∀ a (f : List XattrInfo → List XattrInfo),
      Touch fs (State.modify { fs with alloc := a } d fun b =>
          { b with xattrlist := f b.xattrlist }) d
        { fs.dentry d with xattrlist := f (fs.dentry d).xattrlist } :=
    fun a f => ⟨rfl, rfl, rfl, rfl, rfl, rfl, rfl, rfl, id⟩
  -- the value is stored behind the last allocation, which an empty value does without
  have hvalue : ∀ fs₁, (∃ a, fs₁ = { fs with alloc := a }) →
      ∃ a, (if value = [] then (true, fs₁) else fs₁.malloc).2 = { fs with alloc := a } := by
    rintro _ ⟨a, rfl⟩
    split
    · exact ⟨a, rfl⟩
    · exact ⟨_, rfl⟩
  unfold State.xattrDoSet
  split
  · have hv := hvalue fs ⟨_, rfl⟩
    dsimp only
    generalize (if value = [] then (true, fs) else fs.malloc) = r at hv ⊢
    obtain ⟨stored, _⟩ := r
    obtain ⟨a, rfl⟩ := hv
    dsimp only
    split
    · exact ⟨_, hmod a (xattrReplace name value), fun hw => otherXattrs_replace hw _ _⟩
    · exact ⟨_, hmod a (xattrErase name), fun hw => otherXattrs_erase hw _⟩
  · rcases hm : fs.malloc with ⟨_ | _, fs₁⟩
    · obtain ⟨a, rfl⟩ := malloc_spec hm
      exact ⟨_, hsame a, fun _ => rfl⟩
    · obtain ⟨a, rfl⟩ := malloc_spec hm
      dsimp only
      rcases hm₂ : State.malloc { fs with alloc := a } with ⟨_ | _, fs₂⟩
      · obtain ⟨a₂, rfl⟩ := malloc_spec hm₂
        exact ⟨_, hsame a₂, fun _ => rfl⟩
      · obtain ⟨a₂, ha₂⟩ := malloc_spec hm₂
        have hv := hvalue fs₂ ⟨a₂, ha₂⟩
        dsimp only
        generalize (if value = [] then (true, fs₂) else fs₂.malloc) = r at hv ⊢
        obtain ⟨stored, _⟩ := r
        obtain ⟨a₃, rfl⟩ := hv
        dsimp only
        split
        · refine ⟨_, hmod a₃ (List.cons ⟨name, value⟩), fun hw => ?_⟩
          rw [List.filter_cons_of_neg (by simp [hw])]
        · exact ⟨_, hsame a₃, fun _ => rfl⟩

/-- Flags may be set at any time; they may be cleared where the name is not one of
the two, or nothing forbids it. -/
theorem XattrChange.of_flag {wormCart enable : Bool} {b : Dentry} {l : List XattrInfo}
    (hother : b.isImmutable = true →
      ({ b with xattrlist := l } : Dentry).otherXattrs = b.otherXattrs)
    (hon : wormCart = true → enable = true ∨ (b.isImmutable = false ∧ b.isAppendonly = false) ∨
      xattrIsWormEa name = false) :
    XattrChange wormCart b (State.setWormFlag name enable { b with xattrlist := l }) := by
  unfold State.setWormFlag
  split
  · rename_i hn
    refine ⟨rfl, hother, fun hw hi => ?_, fun _ h => h⟩
    rcases hon hw with h | h | h
    · exact h
    · rw [h.1] at hi
      cases hi
    · simp [xattrIsWormEa, hn] at h
  · split
    · rename_i hn
      refine ⟨rfl, hother, fun _ h => h, fun hw hi => ?_⟩
      rcases hon hw with h | h | h
      · exact h
      · rw [h.2] at hi
        cases hi
      · simp [xattrIsWormEa, hn] at h
    · exact ⟨rfl, hother, fun _ h => h, fun _ h => h⟩

/-- A piece of work on one dentry, with or without a dirty mark. -/
def Worked (T : Terms) (fs fs' : State) (d : ℕ) : Prop :=
  ∃ b fs₁, Touch fs fs₁ d b ∧ Retouch T (fs.dentry d) b ∧ (fs' = fs₁ ∨ Dirtied fs₁ fs' d)

theorem Worked.changes {T : Terms} {fs fs' : State} {d : ℕ} (W : Worked T fs fs' d)
    (hq : HashQuiet fs) : Changes T fs fs' := by
  obtain ⟨b, fs₁, h, hb, rfl | hd⟩ := W
  · exact .single (.touch d b h hb)
  · exact .single (.mark d b fs₁ h hb hd hq)

theorem Worked.sameShape {T : Terms} {fs fs' : State} {d : ℕ} (W : Worked T fs fs' d) :
    SameShape fs.toNamespace fs'.toNamespace := by
  obtain ⟨b, fs₁, h, hb, rfl | hd⟩ := W
  · exact h.sameShape hb.shape
  · exact (h.sameShape hb.shape).trans hd.sameShape

theorem Worked.inv {T : Terms} {fs fs' : State} {d : ℕ} {o : ℕ → ℕ} (W : Worked T fs fs' d)
    (I : Inv fs o) : Inv fs' o := by
  obtain ⟨b, fs₁, h, hb, rfl | hd⟩ := W
  · exact h.inv hb.shape I
  · exact hd.inv (h.inv hb.shape I)

variable {T : Terms} (hw : env.wormStatus.2 ∈ T.carts)

include hw

theorem Worked.refused : Worked T fs fs d :=
  ⟨_, fs, Touch.refl fs d, .xattr _ hw (XattrChange.refl _ _), .inl rfl⟩

/-- Flags and dirty mark after an attribute was changed. -/
theorem Worked.flagged {fs₁ : State} {enable : Bool} {l : List XattrInfo}
    (h : Touch fs fs₁ d { fs.dentry d with xattrlist := l })
    (hc : XattrChange env.wormStatus.2 (fs.dentry d)
      (State.setWormFlag name enable { fs.dentry d with xattrlist := l })) :
    Worked T fs ((fs₁.modify d (State.setWormFlag name enable)).ltfsSetDentryDirty d) d := by
  have h₁ := Touch.modify fs₁ d (State.setWormFlag name enable)
  rw [h.get] at h₁
  exact ⟨_, _, h.trans h₁, .xattr _ hw hc, .inr (setDentryDirty_spec _ d)⟩

/-- `xattr_set` changes the dentry in a way its protection allows. -/
theorem xattrSet_spec (create replace : Bool) :
    Worked T fs (fs.xattrSet env d name value create replace).2 d := by
  have hrefused : Worked T fs fs d := Worked.refused fs env d hw
  unfold State.xattrSet
  simp only
  split
  · exact hrefused
  · split
    · exact hrefused
    · split
      · exact hrefused
      · rename_i hguard
        split
        · exact hrefused
        · split
          · exact hrefused
          · split
            · exact hrefused
            · split
              · exact hrefused
              · split
                · exact hrefused
                · rename_i hdis
                  -- what is left of the protection: the name is one of the two
                  have hname : (fs.dentry d).isImmutable = true → xattrIsWormEa name = true := by
                    intro hi
                    by_contra hw
                    simp [hi, hw] at hguard
                  set stored := if (xattrIsWormEa name &&
                    !(xattrIsWormEa name && State.disablesWormEa value)) = true then ascii "1"
                    else value
                  obtain ⟨l, h, hl⟩ := xattrDoSet_spec fs d name stored
                  have hother : (fs.dentry d).isImmutable = true →
                      ({ fs.dentry d with xattrlist := l } : Dentry).otherXattrs =
                        (fs.dentry d).otherXattrs := fun hi => hl (hname hi)
                  split
                  · rename_i fs₁ hdo
                    rw [hdo] at h
                    refine Worked.flagged fs env d name hw h (XattrChange.of_flag name hother ?_)
                    intro hcart
                    by_cases hworm : xattrIsWormEa name = true
                    · refine .inl ?_
                      simpa [hcart, hworm] using hdis
                    · exact .inr (.inr (by simpa using hworm))
                  · rename_i ret fs₁ _ hdo
                    rw [hdo] at h
                    exact ⟨_, _, h, .xattr _ hw ⟨rfl, hother, fun _ h => h, fun _ h => h⟩, .inl rfl⟩

/-- `xattr_remove` likewise. -/
theorem xattrRemove_spec : Worked T fs (fs.xattrRemove env d name).2 d := by
  have hrefused : Worked T fs fs d := Worked.refused fs env d hw
  unfold State.xattrRemove
  simp only
  split
  · exact hrefused
  · split
    · exact hrefused
    · rename_i hguard
      split
      · exact hrefused
      · split
        · exact hrefused
        · split
          · exact hrefused
          · have hname : (fs.dentry d).isImmutable = true → xattrIsWormEa name = true := by
              intro hi
              by_contra hworm
              simp [hi, hworm] at hguard
            have h := Touch.modify fs d fun b =>
              { b with xattrlist := xattrErase name b.xattrlist }
            refine Worked.flagged fs env d name hw h (XattrChange.of_flag name
              (fun hi => otherXattrs_erase (hname hi) _) fun hcart => .inr (.inl ?_))
            simpa [hcart] using hguard

end Functions

/-! ## The two calls -/

section Calls

variable {T : Terms} {fs fs' : State} {o : ℕ → ℕ}

/-- Looking a dentry up, working on it and letting it go. -/
theorem withDentry_spec (I : Inv fs o) (path : Path) {work : State → ℕ → ℤ × State}
    (hwork : ∀ fs d, Worked T fs (work fs d).2 d) :
    Changes T fs (fs.withDentry path work).2 ∧
      SameShape fs.toNamespace (fs.withDentry path work).2.toNamespace ∧
      Inv (fs.withDentry path work).2 o := by
  unfold State.withDentry
  rcases fsPathLookup_spec false path I with ⟨e, fs₁, h, hk, I₁⟩ | ⟨d, fs₁, h, -, ha, heq, I₁⟩
  · rw [h]
    exact ⟨.of_kept hk, hk.sameShape, I₁⟩
  · rw [h]
    rw [if_neg (by simp)] at I₁
    have W := hwork fs₁ d
    obtain ⟨hk, I₂⟩ := fsReleaseDentry_spec (W.inv I₁)
    refine ⟨((Changes.of_eq heq).trans (W.changes I₁.quiet)).trans (Changes.of_kept hk), ?_, I₂⟩
    rw [← heq]
    exact W.sameShape.trans hk.sameShape

variable (normalize : List UInt8 → Except ℤ (List UInt8)) (env : Env) (path name : Path)
  (hw : env.wormStatus.2 ∈ T.carts)

include hw

/-- `ltfs_fsops_setxattr` works on one dentry. -/
theorem ltfsFsopsSetxattr_spec (I : Inv fs o) (value : List UInt8) (create replace : Bool) :
    Changes T fs (fs.ltfsFsopsSetxattr normalize env path name value create replace).2 ∧
      SameShape fs.toNamespace
        (fs.ltfsFsopsSetxattr normalize env path name value create replace).2.toNamespace ∧
      Inv (fs.ltfsFsopsSetxattr normalize env path name value create replace).2 o := by
  have hrefused : Changes T fs fs ∧ SameShape fs.toNamespace fs.toNamespace ∧ Inv fs o :=
    ⟨.refl, SameShape.refl _, I⟩
  unfold State.ltfsFsopsSetxattr
  split
  · exact hrefused
  · split
    · exact hrefused
    · split
      · exact hrefused
      · split
        · exact hrefused
        · split
          · exact hrefused
          · split
            · exact hrefused
            · split
              · exact hrefused
              · exact withDentry_spec I _ fun fs d => xattrSet_spec fs env d _ value hw create replace

/-- `ltfs_fsops_removexattr` likewise. -/
theorem ltfsFsopsRemovexattr_spec (I : Inv fs o) :
    Changes T fs (fs.ltfsFsopsRemovexattr normalize env path name).2 ∧
      SameShape fs.toNamespace
        (fs.ltfsFsopsRemovexattr normalize env path name).2.toNamespace ∧
      Inv (fs.ltfsFsopsRemovexattr normalize env path name).2 o := by
  have hrefused : Changes T fs fs ∧ SameShape fs.toNamespace fs.toNamespace ∧ Inv fs o :=
    ⟨.refl, SameShape.refl _, I⟩
  unfold State.ltfsFsopsRemovexattr
  split
  · exact hrefused
  · split
    · exact hrefused
    · split
      · exact hrefused
      · split
        · exact hrefused
        · split
          · exact hrefused
          · exact withDentry_spec I _ fun fs d => xattrRemove_spec fs env d _ hw

end Calls

end Ltfs.Fs

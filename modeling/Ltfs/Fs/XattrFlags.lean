import Ltfs.Fs.ParseXattr
import Ltfs.Fs.Run

/-!
# The protection flags of a dentry

A dentry is immutable or append-only by a flag, and it shows so by an attribute. The flag follows
from the value that `xattr_set` is called with, the attribute keeps a value of its own, and the
parser makes the flag again from the text in the index.

* `FlagsInStep` — a flag is up when its attribute is stored with a value other than "0", and the
  parser puts up the same flags.
* `Call.Safe` — the calls that keep it: the two attributes get no value that is empty or a "0"
  before a NUL, and there is memory for a value that replaces another.
* `xattrCalls_iff` — from dentries in step, the calls of a run fail without a trace and leave every
  dentry in step exactly when each of them is safe.
-/

namespace Ltfs.Fs.Worm

open Function

/-! ## Reading the attributes of a dentry -/

/-- What `_xml_parse_xattrs` puts into a dentry. -/
structure ReadXattrs where
  xattrlist : List ParsedXattr
  isImmutable : Bool
  isAppendonly : Bool
deriving DecidableEq, Repr

/-- One more attribute, unless its key was bad. -/
def ReadXattrs.add (r : ReadXattrs) : Option ParsedXattr → ReadXattrs
  | none => r
  | some x =>
    { xattrlist := r.xattrlist ++ [x]
      isImmutable := r.isImmutable || x.isImmutable
      isAppendonly := r.isAppendonly || x.isAppendonly }

/-- `_xml_parse_xattrs`, into a new dentry. -/
def xmlParseXattrs (elements : List (List XattrChild)) : Except XattrError ReadXattrs :=
  elements.foldlM (fun r e => (parseOneXattr e).map r.add) ⟨[], false, false⟩

/-- The attribute elements that a dentry is written with. `breaks` are the line breaks in each of
the base64 texts. -/
def writtenXattrs (breaks : XattrInfo → List (List UInt8)) (l : List XattrInfo) :
    List (List XattrChild) :=
  l.map fun x => writtenXattr (breaks x) x.key (storedValue x.value)

/-! ## In step -/

/-- A flag is up exactly when its attribute is stored with a value other than "0". -/
def FlagFollows (b : Dentry) (flag : Bool) (ea : Path) : Prop :=
  flag = true ↔ ∃ x, xattrSeek b ea = some x ∧ x.value ≠ ascii "0"

/-- Both flags follow their attributes, and the index brings them back. -/
structure FlagsInStep (b : Dentry) : Prop where
  immutable : FlagFollows b b.isImmutable immutableEa
  appendonly : FlagFollows b b.isAppendonly appendonlyEa
  readBack : ∀ breaks : XattrInfo → List (List UInt8),
    (∀ x, ∀ br ∈ breaks x, ∀ c ∈ br, c = 0x0D ∨ c = 0x0A) →
    ∃ r, xmlParseXattrs (writtenXattrs breaks b.xattrlist) = .ok r ∧
      r.isImmutable = b.isImmutable ∧ r.isAppendonly = b.isAppendonly

/-- `strcmp` finds a "1" in it: the byte, and then the end or a NUL. -/
def readsAsOne : List UInt8 → Bool
  | [] => false
  | [b] => b == 0x31
  | b :: c :: _ => b == 0x31 && c == 0

/-- The parser's comparison on the buffer of a written value. -/
theorem valueIsOne_written {breaks : List (List UInt8)}
    (hbreaks : ∀ br ∈ breaks, ∀ c ∈ br, base64Blank c = true) (key : Path)
    {value : List UInt8} (hvalue : value ≠ []) :
    ∃ x, parseXattrValue (xmlWriteXattrValue breaks (some value)) ⟨some key, none, 0⟩ = .ok x ∧
      x.key = some key ∧ valueIsOne x.value = .ok (readsAsOne value) := by
  by_cases hvalid : pathnameValidateXattrValue value = true
  · -- as text, with a terminator behind it
    refine ⟨⟨some key, some (value ++ [0]), value.length⟩, ?_, rfl, ?_⟩
    · rw [xmlWriteXattrValue, if_pos hvalid, takeWhile_of_valid value hvalid]
      rw [parseXattrValue_ofText, readXattrText, if_neg (by simp)]
    · rcases value with _ | ⟨b, _ | ⟨c, rest⟩⟩
      · exact absurd rfl hvalue
      · simp [valueIsOne, readsAsOne]
      · simp [valueIsOne, readsAsOne]
  · -- in base64: the value is not a "1"
    have hone : value ≠ [0x31] := by
      rintro rfl
      exact hvalid (by simp [pathnameValidateXattrValue, Lib.Utf8.next, charsValidInXml])
    have hlen : value.length ≠ 0 := fun h => hvalue (List.length_eq_zero_iff.mp h)
    refine ⟨⟨some key, some value, value.length⟩, ?_, rfl, ?_⟩
    · rw [xmlWriteXattrValue, if_neg hvalid]
      rw [parseXattrValue_ofText, readXattrText, if_pos rfl, base64Decode_lines hvalue hbreaks]
      simp only [hlen, if_false]
    · rcases value with _ | ⟨b, _ | ⟨c, rest⟩⟩
      · exact absurd rfl hvalue
      · have hb : b ≠ 0x31 := fun h => hone (by rw [h])
        simp [valueIsOne, readsAsOne, hb]
      · simp [valueIsOne, readsAsOne]

/-- An attribute that the parser can compare: one of the two has a value. -/
def Readable (x : XattrInfo) : Prop := ¬ (WormKey x.key ∧ x.value = [])

instance (x : XattrInfo) : Decidable (Readable x) := inferInstanceAs (Decidable (¬ _))

/-- What the parser takes from an attribute for one of the flags. -/
def raises (ea : Path) (x : XattrInfo) : Bool := x.hasName ea && readsAsOne x.value

/-- A written attribute comes back with its flags. -/
theorem parseOneXattr_written {breaks : List (List UInt8)}
    (hbreaks : ∀ br ∈ breaks, ∀ c ∈ br, c = 0x0D ∨ c = 0x0A) {x : XattrInfo} (hx : Readable x) :
    ∃ r, parseOneXattr (writtenXattr breaks x.key (storedValue x.value)) = .ok (some r) ∧
      r.isImmutable = raises immutableEa x ∧ r.isAppendonly = raises appendonlyEa x := by
  have hblank : ∀ br ∈ breaks, ∀ c ∈ br, base64Blank c = true := by
    intro br hbr c hc
    rcases hbreaks br hbr c hc with rfl | rfl
    · decide
    · decide
  have hkeys : immutableEa ≠ appendonlyEa := by decide
  have htype : (xmlWriteXattrValue breaks (storedValue x.value)).type ≠ some .unknown := by
    unfold xmlWriteXattrValue
    split
    · simp
    · split <;> simp
  rw [writtenXattr, parseOneXattr_eq x.key (by simp [Closes]), if_neg htype]
  by_cases hempty : x.value = []
  · -- nothing to compare: the key is another one
    have hworm : ¬ WormKey x.key := fun h => hx ⟨h, hempty⟩
    have h1 : x.key ≠ immutableEa := fun h => hworm (Or.inl h)
    have h2 : x.key ≠ appendonlyEa := fun h => hworm (Or.inr h)
    refine ⟨⟨x.key, none, 0, false, false⟩, ?_, ?_, ?_⟩
    · simp [storedValue, hempty, xmlWriteXattrValue, parseXattrValue, finishXattr, Except.bind,
        h1, h2]
    · simp [raises, hempty, readsAsOne]
    · simp [raises, hempty, readsAsOne]
  · obtain ⟨⟨key, value, size⟩, hparse, hkey, hval⟩ := valueIsOne_written hblank x.key hempty
    simp only at hkey hval
    rw [storedValue, if_neg hempty, hparse, hkey]
    refine ⟨⟨x.key, value, size, raises immutableEa x, raises appendonlyEa x⟩, ?_, rfl, rfl⟩
    by_cases h1 : x.key = immutableEa
    · simp [Except.bind, finishXattr, raises, XattrInfo.hasName, h1, hval, hkeys]
    · by_cases h2 : x.key = appendonlyEa
      · simp [Except.bind, finishXattr, raises, XattrInfo.hasName, h2, hval, hkeys.symm]
      · simp [Except.bind, finishXattr, raises, XattrInfo.hasName, h1, h2]

/-- One of the two attributes without a value stops the parser. -/
theorem parseOneXattr_unreadable (breaks : List (List UInt8)) {x : XattrInfo}
    (hx : ¬ Readable x) :
    parseOneXattr (writtenXattr breaks x.key (storedValue x.value)) = .error .wildRead := by
  obtain ⟨hworm, hempty⟩ := not_not.mp hx
  rw [hempty]
  refine (parseOneXattr_wildRead_iff x.key _ _).mpr ⟨by simp [Closes], ?_, .inl ⟨hworm, .inl rfl⟩⟩
  intro h
  cases h

section Lists

variable {breaks : XattrInfo → List (List UInt8)} (r : ReadXattrs) (l : List XattrInfo)

/-- The loop over the attributes, from what has been read so far. -/
theorem readAll (hbreaks : ∀ x, ∀ br ∈ breaks x, ∀ c ∈ br, c = 0x0D ∨ c = 0x0A)
    (hl : ∀ x ∈ l, Readable x) :
    ∃ r', (writtenXattrs breaks l).foldlM (fun r e => (parseOneXattr e).map r.add) r = .ok r' ∧
      r'.isImmutable = (r.isImmutable || l.any (raises immutableEa)) ∧
      r'.isAppendonly = (r.isAppendonly || l.any (raises appendonlyEa)) := by
  induction l generalizing r with
  | nil => exact ⟨r, rfl, by simp, by simp⟩
  | cons x l ih =>
    obtain ⟨p, hp, hi, ha⟩ := parseOneXattr_written (hbreaks x) (hl x (List.mem_cons_self ..))
    obtain ⟨r', hr, hri, hra⟩ := ih (r.add (some p)) fun y hy => hl y (List.mem_cons_of_mem _ hy)
    refine ⟨r', ?_, ?_, ?_⟩
    · rw [writtenXattrs, List.map_cons, List.foldlM_cons, hp]
      exact hr
    · rw [hri, List.any_cons, ← hi]
      simp [ReadXattrs.add, Bool.or_assoc]
    · rw [hra, List.any_cons, ← ha]
      simp [ReadXattrs.add, Bool.or_assoc]

/-- The loop ends early at an attribute it cannot compare. -/
theorem readAll_unreadable (hbreaks : ∀ x, ∀ br ∈ breaks x, ∀ c ∈ br, c = 0x0D ∨ c = 0x0A)
    (hl : ∃ x ∈ l, ¬ Readable x) :
    (writtenXattrs breaks l).foldlM (fun r e => (parseOneXattr e).map r.add) r =
      .error .wildRead := by
  induction l generalizing r with
  | nil =>
    rcases hl with ⟨x, hx, _⟩
    cases hx
  | cons x l ih =>
    rw [writtenXattrs, List.map_cons, List.foldlM_cons]
    by_cases hx : Readable x
    · obtain ⟨p, hp, -, -⟩ := parseOneXattr_written (hbreaks x) hx
      rw [hp]
      refine ih (r.add (some p)) ?_
      rcases hl with ⟨y, hy, hbad⟩
      rcases List.mem_cons.mp hy with rfl | hy
      · exact absurd hx hbad
      · exact ⟨y, hy, hbad⟩
    · rw [parseOneXattr_unreadable (breaks x) hx]
      rfl

end Lists


/-! ## One attribute and its flag -/

/-- No name occurs twice. -/
def DistinctKeys (b : Dentry) : Prop := (b.xattrlist.map XattrInfo.key).Nodup

/-- A flag agrees with what is stored for it, and with what the parser will make of that. -/
def FlagOk (flag : Bool) : Option XattrInfo → Prop
  | none => flag = false
  | some x => x.value ≠ [] ∧ (flag = true ↔ x.value ≠ ascii "0") ∧ flag = readsAsOne x.value

theorem find_of_mem {ea : Path} {l : List XattrInfo} (hl : (l.map XattrInfo.key).Nodup)
    {x : XattrInfo} (hx : x ∈ l) (hkey : x.key = ea) :
    l.find? (XattrInfo.hasName ea) = some x := by
  induction l with
  | nil => cases hx
  | cons y l ih =>
    rw [List.map_cons, List.nodup_cons] at hl
    rcases List.mem_cons.mp hx with rfl | hx
    · rw [List.find?_cons_of_pos (by simp [XattrInfo.hasName, hkey])]
    · have hne : y.key ≠ ea := by
        intro h
        exact hl.1 (List.mem_map.mpr ⟨x, hx, hkey.trans h.symm⟩)
      rw [List.find?_cons_of_neg (by simp [XattrInfo.hasName, hne])]
      exact ih hl.2 hx

theorem key_of_find {ea : Path} {l : List XattrInfo} {x : XattrInfo}
    (h : l.find? (XattrInfo.hasName ea) = some x) : x.key = ea := by
  have hname := List.find?_some h
  exact beq_iff_eq.mp hname

/-- With distinct names, the flag the parser raises is that of the attribute found first. -/
theorem any_raises {ea : Path} {l : List XattrInfo} (hl : (l.map XattrInfo.key).Nodup) :
    l.any (raises ea) =
      match l.find? (XattrInfo.hasName ea) with
      | none => false
      | some x => readsAsOne x.value := by
  cases hfind : l.find? (XattrInfo.hasName ea) with
  | none =>
    rw [List.any_eq_false]
    intro x hx
    have hname := List.find?_eq_none.mp hfind x hx
    simp [raises, hname]
  | some x =>
    have hmem := List.mem_of_find?_eq_some hfind
    have hname : x.hasName ea = true := List.find?_some hfind
    by_cases hone : readsAsOne x.value = true
    · simp only [hone]
      rw [List.any_eq_true]
      exact ⟨x, hmem, by simp [raises, hname, hone]⟩
    · simp only [hone]
      rw [List.any_eq_false]
      intro y hy
      by_cases hkey : y.hasName ea = true
      · -- it is the same attribute
        have hsame := find_of_mem hl hy (beq_iff_eq.mp hkey)
        rw [hfind] at hsame
        cases hsame
        simp [raises, hone]
      · simp [raises, hkey]

variable {b : Dentry}

/-- Both flags, one attribute at a time. -/
theorem flagsInStep_iff (hkeys : DistinctKeys b) :
    FlagsInStep b ↔ FlagOk b.isImmutable (xattrSeek b immutableEa) ∧
      FlagOk b.isAppendonly (xattrSeek b appendonlyEa) := by
  have hfollow : ∀ flag ea, FlagOk flag (xattrSeek b ea) → FlagFollows b flag ea := by
    intro flag ea h
    unfold FlagFollows
    cases hseek : xattrSeek b ea with
    | none =>
      rw [hseek] at h
      have hflag : flag = false := h
      simp [hflag]
    | some x =>
      rw [hseek] at h
      rw [h.2.1]
      simp
  constructor
  · intro h
    obtain ⟨himm, happ, hread⟩ := h
    have hnone : ∀ x, ∀ br ∈ (fun _ : XattrInfo => ([] : List (List UInt8))) x, ∀ c ∈ br,
        c = (0x0D : UInt8) ∨ c = 0x0A := by simp
    obtain ⟨r, hr, hri, hra⟩ := hread _ hnone
    -- what was parsed could be compared
    have hall : ∀ x ∈ b.xattrlist, Readable x := by
      by_contra hnot
      push Not at hnot
      have herr := readAll_unreadable ⟨[], false, false⟩ b.xattrlist hnone hnot
      rw [xmlParseXattrs] at hr
      rw [herr] at hr
      cases hr
    obtain ⟨r', hr', hi, ha⟩ := readAll ⟨[], false, false⟩ b.xattrlist hnone hall
    rw [xmlParseXattrs, hr', Except.ok.injEq] at hr
    subst hr
    have hok : ∀ flag ea, (ea = immutableEa ∨ ea = appendonlyEa) → FlagFollows b flag ea →
        b.xattrlist.any (raises ea) = flag → FlagOk flag (xattrSeek b ea) := by
      intro flag ea hea hfollows hflag
      rw [any_raises hkeys] at hflag
      cases hseek : xattrSeek b ea with
      | none =>
        rw [xattrSeek] at hseek
        rw [hseek] at hflag
        exact hflag.symm
      | some x =>
        have hkey := key_of_find hseek
        refine ⟨?_, ?_, ?_⟩
        · intro hempty
          refine hall x (List.mem_of_find?_eq_some hseek) ⟨?_, hempty⟩
          rw [hkey]
          exact hea
        · refine Iff.trans hfollows ?_
          rw [hseek]
          simp
        · rw [xattrSeek] at hseek
          rw [hseek] at hflag
          exact hflag.symm
    refine ⟨hok _ _ (.inl rfl) himm ?_, hok _ _ (.inr rfl) happ ?_⟩
    · rw [← hri, hi]
      simp
    · rw [← hra, ha]
      simp
  · rintro ⟨himm, happ⟩
    refine ⟨hfollow _ _ himm, hfollow _ _ happ, fun breaks hbreaks => ?_⟩
    have hall : ∀ x ∈ b.xattrlist, Readable x := by
      rintro x hx ⟨hworm, hempty⟩
      rcases hworm with hkey | hkey
      · have hseek : xattrSeek b immutableEa = some x := find_of_mem hkeys hx hkey
        rw [hseek] at himm
        exact himm.1 hempty
      · have hseek : xattrSeek b appendonlyEa = some x := find_of_mem hkeys hx hkey
        rw [hseek] at happ
        exact happ.1 hempty
    have hflag : ∀ flag ea, FlagOk flag (xattrSeek b ea) → b.xattrlist.any (raises ea) = flag := by
      intro flag ea h
      rw [any_raises hkeys]
      unfold xattrSeek at h
      cases hfind : b.xattrlist.find? (XattrInfo.hasName ea) with
      | none =>
        rw [hfind] at h
        exact h.symm
      | some x =>
        rw [hfind] at h
        exact h.2.2.symm
    obtain ⟨r, hr, hi, ha⟩ := readAll ⟨[], false, false⟩ b.xattrlist hbreaks hall
    refine ⟨r, hr, ?_, ?_⟩
    · rw [hi, hflag _ _ himm]
      simp
    · rw [ha, hflag _ _ happ]
      simp

/-! ## Calls -/

/-- The two calls on the attributes of a dentry. -/
inductive Call where
  | set (env : Env) (d : ℕ) (name : Path) (value : List UInt8) (create replace : Bool)
  | remove (env : Env) (d : ℕ) (name : Path)

def Call.exec (fs : State) : Call → ℤ × State
  | .set env d name value create replace => fs.xattrSet env d name value create replace
  | .remove env d name => fs.xattrRemove env d name

/-- The attributes and the two flags are what they were. -/
def Untouched (b b' : Dentry) : Prop :=
  b'.xattrlist = b.xattrlist ∧ b'.isImmutable = b.isImmutable ∧ b'.isAppendonly = b.isAppendonly

/-- A call that fails changes nothing. -/
def Call.FailsCleanly (fs : State) (c : Call) : Prop :=
  (c.exec fs).1 < 0 → ∀ d, Untouched (fs.dentry d) ((c.exec fs).2.dentry d)

/-- A call that fails changes nothing, and every dentry is in step behind it. -/
def Call.Meets (fs : State) (c : Call) : Prop :=
  ((c.exec fs).1 < 0 → ∀ d, Untouched (fs.dentry d) ((c.exec fs).2.dentry d)) ∧
    ∀ d, FlagsInStep ((c.exec fs).2.dentry d)

/-- The next `n` allocations succeed. -/
def grants (fs : State) : ℕ → Bool
  | 0 => true
  | n + 1 => fs.malloc.1 && grants fs.malloc.2 n

/-- The checks of `xattr_set` in front of `xattr_do_set`. -/
def Admits (fs : State) (env : Env) (d : ℕ) (name : Path) (value : List UInt8)
    (create replace : Bool) : Prop :=
  value.length ≤ ltfsMaxXattrSize ∧ 0 ≤ env.wormStatus.1 ∧
    ((env.wormStatus.2 && ((fs.dentry d).isImmutable ||
        ((fs.dentry d).isAppendonly && name ≠ immutableEa))) ||
      (!env.wormStatus.2 && ((fs.dentry d).isImmutable || (fs.dentry d).isAppendonly) &&
        !xattrIsWormEa name)) = false ∧
    xattrIsVirtual fs env d name = false ∧ xattrIsReserved name = false ∧
    (create && (xattrSeek (fs.dentry d) name).isSome) = false ∧
    (replace && (xattrSeek (fs.dentry d) name).isNone) = false ∧
    (env.wormStatus.2 && (xattrIsWormEa name && State.disablesWormEa value)) = false

instance (fs : State) (env : Env) (d : ℕ) (name : Path) (value : List UInt8)
    (create replace : Bool) : Decidable (Admits fs env d name value create replace) :=
  inferInstanceAs (Decidable (_ ∧ _))

/-- The value that is kept for one of `size` bytes. -/
def kept (name : Path) (value : List UInt8) : List UInt8 :=
  if xattrIsWormEa name && !State.disablesWormEa value then ascii "1" else value

/-- What `xattr_do_set` allocates: an attribute with its name, and a value that is not empty. -/
def setAllocs (b : Dentry) (name : Path) (value : List UInt8) : ℕ :=
  (if (xattrSeek b name).isSome then 0 else 2) + if kept name value = [] then 0 else 1

/-- Memory does not run out for an attribute that is there. -/
def Call.FailSafe (fs : State) : Call → Prop
  | .set env d name value create replace =>
    Admits fs env d name value create replace →
      grants fs (setAllocs (fs.dentry d) name value) = false →
      (xattrSeek (fs.dentry d) name).isNone = true
  | .remove .. => True

/-- A call that the two properties survive. One of the two attributes is set to a value other than
"0" where that is not what switches it off; and memory does not run out for an attribute that is
there. -/
def Call.Safe (fs : State) : Call → Prop
  | .set env d name value create replace =>
    Admits fs env d name value create replace →
      if grants fs (setAllocs (fs.dentry d) name value) then
        xattrIsWormEa name = true → State.disablesWormEa value = true → value = ascii "0"
      else (xattrSeek (fs.dentry d) name).isNone = true
  | .remove .. => True

instance (fs : State) : ∀ c : Call, Decidable (c.Safe fs)
  | .set env d name value create replace =>
    inferInstanceAs (Decidable (Admits fs env d name value create replace → ite _ _ _))
  | .remove .. => inferInstanceAs (Decidable True)

/-- Every call of a run meets the two properties. -/
def RunMeets : State → List Call → Prop
  | _, [] => True
  | fs, c :: calls => c.Meets fs ∧ RunMeets (c.exec fs).2 calls

/-- Every call of a run is safe in the state it comes in. -/
def RunSafe : State → List Call → Prop
  | _, [] => True
  | fs, c :: calls => c.Safe fs ∧ RunSafe (c.exec fs).2 calls

instance : ∀ (fs : State) (calls : List Call), Decidable (RunSafe fs calls)
  | _, [] => inferInstanceAs (Decidable True)
  | fs, c :: calls =>
    have := instDecidableRunSafe (c.exec fs).2 calls
    inferInstanceAs (Decidable (_ ∧ _))


/-! ## What the calls do -/

/-- `b` with another attribute list. -/
def withList (b : Dentry) (l : List XattrInfo) : Dentry := { b with xattrlist := l }

section Functions

variable (fs : State) (env : Env) (d : ℕ) (name : Path) (value : List UInt8)

theorem malloc_dentry : fs.malloc.2.dentry = fs.dentry := rfl

theorem grants_add_two (n : ℕ) :
    grants fs (2 + n) = (fs.malloc.1 && (fs.malloc.2.malloc.1 && grants fs.malloc.2.malloc.2 n)) := by
  rw [Nat.add_comm]
  rfl

/-- An attribute that is there takes the new value, or it is gone. -/
theorem xattrDoSet_present (hsome : (xattrSeek (fs.dentry d) name).isSome = true) :
    if grants fs (if value = [] then 0 else 1) then
      (fs.xattrDoSet d name value).1 = 0 ∧ (fs.xattrDoSet d name value).2.dentry =
        update fs.dentry d (withList (fs.dentry d)
          (xattrReplace name value (fs.dentry d).xattrlist))
    else
      (fs.xattrDoSet d name value).1 = -ltfsNoMemory ∧ (fs.xattrDoSet d name value).2.dentry =
        update fs.dentry d (withList (fs.dentry d)
          (xattrErase name (fs.dentry d).xattrlist)) := by
  by_cases hempty : value = []
  · simp only [State.xattrDoSet, hsome, hempty, if_true, grants]
    exact ⟨trivial, rfl⟩
  · -- one allocation, for the value
    have hmalloc := malloc_dentry fs
    rcases hm : fs.malloc with ⟨_ | _, fs₁⟩
    · rw [hm] at hmalloc
      simp only [State.xattrDoSet, hsome, hempty, if_true, if_false, grants, hm, Bool.false_and,
        Bool.false_eq_true]
      refine ⟨trivial, ?_⟩
      rw [← hmalloc]
      rfl
    · rw [hm] at hmalloc
      simp only [State.xattrDoSet, hsome, hempty, if_true, if_false, grants, hm, Bool.true_and]
      refine ⟨trivial, ?_⟩
      rw [← hmalloc]
      rfl

/-- An attribute that is not there is put in front, or nothing happens. -/
theorem xattrDoSet_absent (hsome : (xattrSeek (fs.dentry d) name).isSome = false) :
    if grants fs (2 + if value = [] then 0 else 1) then
      (fs.xattrDoSet d name value).1 = 0 ∧ (fs.xattrDoSet d name value).2.dentry =
        update fs.dentry d (withList (fs.dentry d) (⟨name, value⟩ :: (fs.dentry d).xattrlist))
    else
      (fs.xattrDoSet d name value).1 = -ltfsNoMemory ∧
        (fs.xattrDoSet d name value).2.dentry = fs.dentry := by
  rw [grants_add_two]
  -- the attribute and its name
  have hmalloc := malloc_dentry fs
  rcases hm : fs.malloc with ⟨_ | _, fs₁⟩
  · rw [hm] at hmalloc
    simp only [State.xattrDoSet, hsome, hm, Bool.false_and, Bool.false_eq_true, if_false]
    exact ⟨trivial, hmalloc⟩
  · rw [hm] at hmalloc
    have hmalloc₂ := malloc_dentry fs₁
    rcases hm₂ : fs₁.malloc with ⟨_ | _, fs₂⟩
    · rw [hm₂] at hmalloc₂
      simp only [State.xattrDoSet, hsome, hm, hm₂, Bool.false_and, Bool.true_and,
        Bool.false_eq_true, if_false]
      exact ⟨trivial, hmalloc₂.trans hmalloc⟩
    · rw [hm₂] at hmalloc₂
      by_cases hempty : value = []
      · simp only [State.xattrDoSet, hsome, hm, hm₂, hempty, grants, Bool.true_and, if_true,
          Bool.false_eq_true, if_false]
        refine ⟨trivial, ?_⟩
        rw [← hmalloc, ← hmalloc₂]
        rfl
      · -- and the value
        have hmalloc₃ := malloc_dentry fs₂
        rcases hm₃ : fs₂.malloc with ⟨_ | _, fs₃⟩
        · rw [hm₃] at hmalloc₃
          simp only [State.xattrDoSet, hsome, hm, hm₂, hm₃, hempty, grants, Bool.true_and,
            Bool.false_and, Bool.false_eq_true, if_false]
          exact ⟨trivial, (hmalloc₃.trans hmalloc₂).trans hmalloc⟩
        · rw [hm₃] at hmalloc₃
          simp only [State.xattrDoSet, hsome, hm, hm₂, hm₃, hempty, grants, Bool.true_and,
            Bool.false_eq_true, if_true, if_false]
          refine ⟨trivial, ?_⟩
          rw [← hmalloc, ← hmalloc₂, ← hmalloc₃]
          rfl

/-- A call that the checks refuse leaves everything as it was. -/
theorem xattrSet_refused {create replace : Bool}
    (h : ¬ Admits fs env d name value create replace) :
    (fs.xattrSet env d name value create replace).2 = fs := by
  unfold State.xattrSet
  simp only
  split
  · rfl
  · split
    · rfl
    · split
      · rfl
      · split
        · rfl
        · split
          · rfl
          · split
            · rfl
            · split
              · rfl
              · split
                · rfl
                · rename_i h1 h2 h3 h4 h5 h6 h7 h8
                  exact absurd ⟨not_lt.mp h1, not_lt.mp h2, eq_false_of_ne_true h3,
                    eq_false_of_ne_true h4, eq_false_of_ne_true h5, eq_false_of_ne_true h6,
                    eq_false_of_ne_true h7, eq_false_of_ne_true h8⟩ h

/-- Behind the checks, `xattr_set` is `xattr_do_set` with the flag behind it. -/
theorem xattrSet_admitted {create replace : Bool} (h : Admits fs env d name value create replace) :
    fs.xattrSet env d name value create replace =
      match fs.xattrDoSet d name (kept name value) with
      | (0, fs) =>
        (0, (fs.modify d (State.setWormFlag name
          !(xattrIsWormEa name && State.disablesWormEa value))).ltfsSetDentryDirty d)
      | (ret, fs) => (ret, fs) := by
  obtain ⟨h1, h2, h3, h4, h5, h6, h7, h8⟩ := h
  have hkept : (if (xattrIsWormEa name && !(xattrIsWormEa name && State.disablesWormEa value)) =
      true then ascii "1" else value) = kept name value := by
    unfold kept
    cases xattrIsWormEa name
    · rfl
    · rfl
  unfold State.xattrSet
  dsimp only
  rw [if_neg (not_lt.mpr h1), if_neg (not_lt.mpr h2), h3, h4, h5, h6, h7, h8, hkept]
  rfl

end Functions


/-! ## The lists that the calls make -/

section Keys

variable {name ea : Path} {value : List UInt8} {l : List XattrInfo}

theorem keys_replace : (xattrReplace name value l).map XattrInfo.key = l.map XattrInfo.key := by
  induction l with
  | nil => rfl
  | cons x l ih =>
    unfold xattrReplace
    split
    · rfl
    · rw [List.map_cons, List.map_cons, ih]

theorem find_replace_self (h : (l.find? (XattrInfo.hasName name)).isSome = true) :
    (xattrReplace name value l).find? (XattrInfo.hasName name) = some ⟨name, value⟩ := by
  induction l with
  | nil => cases h
  | cons x l ih =>
    unfold xattrReplace
    by_cases hx : x.hasName name = true
    · have hkey : x.key = name := beq_iff_eq.mp hx
      rw [if_pos hx, List.find?_cons_of_pos (by simp [XattrInfo.hasName, hkey]), hkey]
    · rw [List.find?_cons_of_neg hx] at h
      rw [if_neg hx, List.find?_cons_of_neg hx]
      exact ih h

theorem find_replace_of_ne (hne : name ≠ ea) :
    (xattrReplace name value l).find? (XattrInfo.hasName ea) =
      l.find? (XattrInfo.hasName ea) := by
  induction l with
  | nil => rfl
  | cons x l ih =>
    unfold xattrReplace
    split
    · rename_i hx
      have hkey : x.key = name := beq_iff_eq.mp hx
      rw [List.find?_cons_of_neg (by simp [XattrInfo.hasName, hkey, hne]),
        List.find?_cons_of_neg (by simp [XattrInfo.hasName, hkey, hne])]
    · rw [List.find?_cons, List.find?_cons, ih]

theorem find_erase_self (hl : (l.map XattrInfo.key).Nodup) :
    (xattrErase name l).find? (XattrInfo.hasName name) = none := by
  unfold xattrErase
  induction l with
  | nil => rfl
  | cons x l ih =>
    rw [List.map_cons, List.nodup_cons] at hl
    by_cases hx : x.hasName name = true
    · have hkey : x.key = name := beq_iff_eq.mp hx
      rw [List.eraseP_cons_of_pos hx, List.find?_eq_none]
      intro y hy hname
      exact hl.1 (List.mem_map.mpr ⟨y, hy, (beq_iff_eq.mp hname).trans hkey.symm⟩)
    · rw [List.eraseP_cons_of_neg hx, List.find?_cons_of_neg hx]
      exact ih hl.2

theorem find_erase_of_ne (hne : name ≠ ea) :
    (xattrErase name l).find? (XattrInfo.hasName ea) = l.find? (XattrInfo.hasName ea) := by
  unfold xattrErase
  induction l with
  | nil => rfl
  | cons x l ih =>
    by_cases hx : x.hasName name = true
    · have hkey : x.key = name := beq_iff_eq.mp hx
      rw [List.eraseP_cons_of_pos hx,
        List.find?_cons_of_neg (by simp [XattrInfo.hasName, hkey, hne])]
    · rw [List.eraseP_cons_of_neg hx, List.find?_cons, List.find?_cons, ih]

theorem keys_erase (hl : (l.map XattrInfo.key).Nodup) :
    ((xattrErase name l).map XattrInfo.key).Nodup :=
  hl.sublist ((List.eraseP_sublist ..).map _)

/-- What is found is taken out. -/
theorem erase_ne (h : (l.find? (XattrInfo.hasName name)).isSome = true) :
    xattrErase name l ≠ l := by
  intro heq
  rcases Option.isSome_iff_exists.mp h with ⟨x, hx⟩
  have hlen := List.length_eraseP_of_mem (List.mem_of_find?_eq_some hx) (List.find?_some hx)
  rw [xattrErase] at heq
  rw [heq] at hlen
  have hpos := List.length_pos_of_mem (List.mem_of_find?_eq_some hx)
  omega

end Keys

/-! ## One dentry -/

section Dentries

variable {b b' : Dentry}

/-- The flags after one of them was set or cleared. -/
structure Flagged (b b' : Dentry) (name : Path) (enable : Bool) : Prop where
  isImmutable : b'.isImmutable = if name = immutableEa then enable else b.isImmutable
  isAppendonly : b'.isAppendonly = if name = appendonlyEa then enable else b.isAppendonly

theorem setWormFlag_flagged (name : Path) (enable : Bool) (l : List XattrInfo) :
    Flagged b { State.setWormFlag name enable (withList b l) with dirty := true } name enable := by
  have hkeys : immutableEa ≠ appendonlyEa := by decide
  unfold State.setWormFlag withList
  by_cases h1 : name = immutableEa
  · rw [if_pos h1]
    constructor
    · simp [h1]
    · simp [h1, hkeys]
  · rw [if_neg h1]
    by_cases h2 : name = appendonlyEa
    · rw [if_pos h2]
      constructor
      · simp [h2, hkeys.symm]
      · simp [h2]
    · rw [if_neg h2]
      constructor
      · simp [h1]
      · simp [h2]

@[simp]
theorem setWormFlag_xattrlist (name : Path) (enable : Bool) :
    (State.setWormFlag name enable b).xattrlist = b.xattrlist := by
  unfold State.setWormFlag
  split
  · rfl
  · split <;> rfl

/-- Of a change to one attribute only that attribute matters. -/
theorem Flagged.inStep_iff {name : Path} {enable : Bool} (F : Flagged b b' name enable)
    (hkeys : DistinctKeys b) (hkeys' : DistinctKeys b') (hb : FlagsInStep b)
    (hother : ∀ ea, name ≠ ea → xattrSeek b' ea = xattrSeek b ea) :
    FlagsInStep b' ↔ (xattrIsWormEa name = true → FlagOk enable (xattrSeek b' name)) := by
  have hne : immutableEa ≠ appendonlyEa := by decide
  rw [flagsInStep_iff hkeys', F.isImmutable, F.isAppendonly]
  obtain ⟨himm, happ⟩ := (flagsInStep_iff hkeys).mp hb
  by_cases h1 : name = immutableEa
  · subst h1
    rw [if_pos rfl, if_neg hne, hother _ hne]
    simp [xattrIsWormEa, happ]
  · rw [if_neg h1, hother _ h1]
    by_cases h2 : name = appendonlyEa
    · subst h2
      rw [if_pos rfl]
      simp [xattrIsWormEa, himm]
    · rw [if_neg h2, hother _ h2]
      simp [xattrIsWormEa, h1, h2, himm, happ]

/-- What `xattr_set` keeps goes with the flag unless a strange value switched it off. -/
theorem flagOk_kept {name value : Path} (hname : xattrIsWormEa name = true) :
    FlagOk (!(xattrIsWormEa name && State.disablesWormEa value)) (some ⟨name, kept name value⟩) ↔
      (State.disablesWormEa value = true → value = ascii "0") := by
  unfold kept FlagOk
  rw [hname]
  by_cases hdis : State.disablesWormEa value = true
  · simp only [hdis, Bool.and_self, Bool.not_true, Bool.and_false, Bool.false_eq_true, if_false,
      false_iff, not_not, true_imp_iff]
    constructor
    · intro h
      exact h.2.1
    · rintro rfl
      decide
  · simp only [hdis, Bool.and_false, Bool.not_false, Bool.and_true, if_true]
    exact iff_of_true (by decide) fun h => (nomatch h)

end Dentries


/-! ## One call -/

section Calls

variable (fs : State) (env : Env) (d : ℕ) (name : Path) (value : List UInt8)
  (create replace : Bool)

/-- A value that was stored: the list, the flag and the dirty mark. -/
theorem xattrSet_stored (hcheck : Admits fs env d name value create replace)
    (hgrant : grants fs (setAllocs (fs.dentry d) name value) = true) :
    ∃ l b, (fs.xattrSet env d name value create replace).1 = 0 ∧
      (fs.xattrSet env d name value create replace).2.dentry = update fs.dentry d b ∧
      b.xattrlist = l ∧
      Flagged (fs.dentry d) b name (!(xattrIsWormEa name && State.disablesWormEa value)) ∧
      l = if (xattrSeek (fs.dentry d) name).isSome
        then xattrReplace name (kept name value) (fs.dentry d).xattrlist
        else ⟨name, kept name value⟩ :: (fs.dentry d).xattrlist := by
  have hdo : ∃ l, (fs.xattrDoSet d name (kept name value)).1 = 0 ∧
      (fs.xattrDoSet d name (kept name value)).2.dentry =
        update fs.dentry d (withList (fs.dentry d) l) ∧
      l = if (xattrSeek (fs.dentry d) name).isSome
        then xattrReplace name (kept name value) (fs.dentry d).xattrlist
        else ⟨name, kept name value⟩ :: (fs.dentry d).xattrlist := by
    unfold setAllocs at hgrant
    cases hsome : (xattrSeek (fs.dentry d) name).isSome with
    | true =>
      have h := xattrDoSet_present fs d name (kept name value) hsome
      rw [hsome, if_pos rfl, Nat.zero_add] at hgrant
      rw [if_pos hgrant] at h
      exact ⟨_, h.1, h.2, rfl⟩
    | false =>
      have h := xattrDoSet_absent fs d name (kept name value) hsome
      rw [hsome, if_neg (by simp)] at hgrant
      rw [if_pos hgrant] at h
      exact ⟨_, h.1, h.2, rfl⟩
  obtain ⟨l, hret, hdentry, hl⟩ := hdo
  rw [xattrSet_admitted fs env d name value hcheck]
  rcases hr : fs.xattrDoSet d name (kept name value) with ⟨ret, fs₁⟩
  rw [hr] at hret hdentry
  simp only at hret hdentry
  subst hret
  set enable := !(xattrIsWormEa name && State.disablesWormEa value)
  have hmodify := Touch.modify fs₁ d (State.setWormFlag name enable)
  have hdirty := (setDentryDirty_spec (fs₁.modify d (State.setWormFlag name enable)) d).dentry
  rw [hmodify.dentry, hdentry, update_self, update_self, update_idem, update_idem] at hdirty
  refine ⟨l, _, rfl, hdirty, ?_, setWormFlag_flagged name enable l, hl⟩
  simp [withList]

/-- A value that found no memory: the attribute is gone when it was there. -/
theorem xattrSet_noMemory (hcheck : Admits fs env d name value create replace)
    (hgrant : grants fs (setAllocs (fs.dentry d) name value) = false) :
    (fs.xattrSet env d name value create replace).1 = -ltfsNoMemory ∧
      (fs.xattrSet env d name value create replace).2.dentry =
        if (xattrSeek (fs.dentry d) name).isSome then
          update fs.dentry d (withList (fs.dentry d) (xattrErase name (fs.dentry d).xattrlist))
        else fs.dentry := by
  have hdo : (fs.xattrDoSet d name (kept name value)).1 = -ltfsNoMemory ∧
      (fs.xattrDoSet d name (kept name value)).2.dentry =
        if (xattrSeek (fs.dentry d) name).isSome then
          update fs.dentry d (withList (fs.dentry d) (xattrErase name (fs.dentry d).xattrlist))
        else fs.dentry := by
    unfold setAllocs at hgrant
    cases hsome : (xattrSeek (fs.dentry d) name).isSome with
    | true =>
      have h := xattrDoSet_present fs d name (kept name value) hsome
      rw [hsome, if_pos rfl, Nat.zero_add] at hgrant
      rw [if_neg (by simp [hgrant])] at h
      exact h
    | false =>
      have h := xattrDoSet_absent fs d name (kept name value) hsome
      rw [hsome, if_neg (by simp)] at hgrant
      rw [if_neg (by simp [hgrant])] at h
      exact h
  rw [xattrSet_admitted fs env d name value hcheck]
  rcases hr : fs.xattrDoSet d name (kept name value) with ⟨ret, fs₁⟩
  rw [hr] at hdo
  simp only at hdo
  obtain ⟨rfl, hdentry⟩ := hdo
  exact ⟨rfl, hdentry⟩

/-- `xattr_remove` leaves everything as it was, or it takes the attribute and its flag away. -/
theorem xattrRemove_cases :
    (fs.xattrRemove env d name).2 = fs ∨
    ∃ b, (fs.xattrRemove env d name).1 = 0 ∧
      (fs.xattrRemove env d name).2.dentry = update fs.dentry d b ∧
      b.xattrlist = xattrErase name (fs.dentry d).xattrlist ∧
      Flagged (fs.dentry d) b name false := by
  unfold State.xattrRemove
  simp only
  split
  · exact .inl rfl
  · split
    · exact .inl rfl
    · split
      · exact .inl rfl
      · split
        · exact .inl rfl
        · split
          · exact .inl rfl
          · right
            set l := xattrErase name (fs.dentry d).xattrlist
            have hlist : (fs.modify d fun b =>
                { b with xattrlist := xattrErase name b.xattrlist }).dentry =
                update fs.dentry d (withList (fs.dentry d) l) := rfl
            have hdirty := (setDentryDirty_spec ((fs.modify d fun b =>
              { b with xattrlist := xattrErase name b.xattrlist }).modify d
                (State.setWormFlag name false)) d).dentry
            rw [(Touch.modify _ d (State.setWormFlag name false)).dentry, hlist, update_self,
              update_self, update_idem, update_idem] at hdirty
            refine ⟨_, rfl, hdirty, ?_, setWormFlag_flagged name false l⟩
            simp [withList]

end Calls


/-! ## Steps and runs -/

/-- Distinct names and flags in step, in every dentry. -/
structure AllInStep (fs : State) : Prop where
  keys : ∀ d, DistinctKeys (fs.dentry d)
  flags : ∀ d, FlagsInStep (fs.dentry d)

section Steps

variable {fs fs' : State}

/-- The names are distinct behind a change to one dentry. -/
theorem AllInStep.distinct_update {d : ℕ} {b : Dentry} (h : AllInStep fs)
    (hdentry : fs'.dentry = update fs.dentry d b) (hkeys : DistinctKeys b) :
    ∀ x, DistinctKeys (fs'.dentry x) := by
  intro x
  rw [hdentry]
  by_cases hx : x = d
  · rw [hx, update_self]
    exact hkeys
  · rw [update_of_ne hx]
    exact h.keys x

/-- One dentry has changed, and it is in step. -/
theorem AllInStep.update {d : ℕ} {b : Dentry} (h : AllInStep fs)
    (hdentry : fs'.dentry = update fs.dentry d b) (hkeys : DistinctKeys b)
    (hflags : FlagsInStep b) : AllInStep fs' := by
  refine ⟨h.distinct_update hdentry hkeys, fun x => ?_⟩
  rw [hdentry]
  by_cases hx : x = d
  · rw [hx, update_self]
    exact hflags
  · rw [update_of_ne hx]
    exact h.flags x

theorem failsCleanly_of_same {c : Call} (hsame : (c.exec fs).2.dentry = fs.dentry) :
    c.FailsCleanly fs := by
  intro _ x
  rw [hsame]
  exact ⟨rfl, rfl, rfl⟩

theorem failsCleanly_of_zero {c : Call} (hret : (c.exec fs).1 = 0) : c.FailsCleanly fs := by
  intro hneg
  rw [hret] at hneg
  exact absurd hneg (lt_irrefl 0)

/-- A call that leaves the dentries alone meets the two properties. -/
theorem meets_of_same (h : AllInStep fs) {c : Call} (hsame : (c.exec fs).2.dentry = fs.dentry) :
    c.Meets fs := by
  refine ⟨failsCleanly_of_same hsame, ?_⟩
  rw [hsame]
  exact h.flags

/-- A call fails without a trace exactly when it does not run out of memory for an attribute that
is there, whatever the dentries are. -/
theorem failsCleanly_iff (fs : State) (c : Call) : c.FailsCleanly fs ↔ c.FailSafe fs := by
  cases c with
  | remove env d name =>
    refine iff_of_true ?_ trivial
    rcases xattrRemove_cases fs env d name with hsame | ⟨b, hret, -⟩
    · have hexec : ((Call.remove env d name).exec fs).2 = fs := hsame
      exact failsCleanly_of_same (by rw [hexec])
    · exact failsCleanly_of_zero hret
  | set env d name value create replace =>
    by_cases hcheck : Admits fs env d name value create replace
    · cases hgrant : grants fs (setAllocs (fs.dentry d) name value) with
      | true =>
        obtain ⟨l, b, hret, -⟩ := xattrSet_stored fs env d name value create replace hcheck hgrant
        refine iff_of_true (failsCleanly_of_zero hret) (fun _ hno => ?_)
        rw [hgrant] at hno
        cases hno
      | false =>
        obtain ⟨hret, hdentry⟩ := xattrSet_noMemory fs env d name value create replace hcheck hgrant
        have hneg : ((Call.set env d name value create replace).exec fs).1 < 0 := by
          have hcode : ((Call.set env d name value create replace).exec fs).1 = -ltfsNoMemory := hret
          rw [hcode]
          decide
        cases hsome : (xattrSeek (fs.dentry d) name).isSome with
        | true =>
          -- the attribute is gone
          rw [hsome, if_pos rfl] at hdentry
          have hexec : ((Call.set env d name value create replace).exec fs).2.dentry =
            update fs.dentry d (withList (fs.dentry d)
              (xattrErase name (fs.dentry d).xattrlist)) := hdentry
          refine iff_of_false (fun hclean => ?_) (fun hsafe => ?_)
          · have hlist := (hclean hneg d).1
            rw [hexec, update_self] at hlist
            exact erase_ne hsome hlist
          · have habsent := hsafe hcheck hgrant
            rw [Option.isNone_iff_eq_none] at habsent
            rw [habsent] at hsome
            cases hsome
        | false =>
          rw [hsome, if_neg (by simp)] at hdentry
          refine iff_of_true (failsCleanly_of_same hdentry) (fun _ _ => ?_)
          simpa using hsome
    · have hexec : ((Call.set env d name value create replace).exec fs).2 = fs :=
        xattrSet_refused fs env d name value hcheck
      exact iff_of_true (failsCleanly_of_same (by rw [hexec])) fun ha => absurd ha hcheck

/-- A removal is always in order. -/
theorem remove_meets (h : AllInStep fs) (env : Env) (d : ℕ) (name : Path) :
    (Call.remove env d name).Meets fs ∧ AllInStep ((Call.remove env d name).exec fs).2 := by
  rcases xattrRemove_cases fs env d name with hsame | ⟨b, hret, hdentry, hlist, hflag⟩
  · have hexec : ((Call.remove env d name).exec fs).2 = fs := hsame
    refine ⟨meets_of_same h (by rw [hexec]), ?_⟩
    rw [hexec]
    exact h
  · have hkeys : DistinctKeys b := by
      unfold DistinctKeys
      rw [hlist]
      exact keys_erase (h.keys d)
    have hflags : FlagsInStep b := by
      refine (hflag.inStep_iff (h.keys d) hkeys (h.flags d) ?_).mpr ?_
      · intro ea hne
        rw [xattrSeek, hlist]
        exact find_erase_of_ne hne
      · intro _
        rw [xattrSeek, hlist, find_erase_self (h.keys d)]
        rfl
    have hall := h.update hdentry hkeys hflags
    exact ⟨⟨failsCleanly_of_zero hret, hall.flags⟩, hall⟩

section Set

variable (env : Env) (d : ℕ) (name : Path) (value : List UInt8) (create replace : Bool)
  (h : AllInStep fs) (hcheck : Admits fs env d name value create replace)

include h hcheck

/-- With memory for it, the value is stored; the flag goes with it for all but some values. -/
theorem set_granted (hgrant : grants fs (setAllocs (fs.dentry d) name value) = true) :
    ((Call.set env d name value create replace).Meets fs ↔
        (xattrIsWormEa name = true → State.disablesWormEa value = true → value = ascii "0")) ∧
      ∀ x, DistinctKeys (((Call.set env d name value create replace).exec fs).2.dentry x) := by
  obtain ⟨l, b, hret, hdentry, hlist, hflag, hl⟩ :=
    xattrSet_stored fs env d name value create replace hcheck hgrant
  -- where the name was, and where it is now
  have hnew : DistinctKeys b ∧ xattrSeek b name = some ⟨name, kept name value⟩ ∧
      ∀ ea, name ≠ ea → xattrSeek b ea = xattrSeek (fs.dentry d) ea := by
    unfold DistinctKeys xattrSeek
    rw [hlist, hl]
    cases hsome : (xattrSeek (fs.dentry d) name).isSome with
    | true =>
      rw [if_pos rfl]
      refine ⟨?_, find_replace_self hsome, fun ea hne => find_replace_of_ne hne⟩
      rw [keys_replace]
      exact h.keys d
    | false =>
      rw [if_neg (by simp)]
      refine ⟨?_, ?_, fun ea hne => ?_⟩
      · rw [List.map_cons, List.nodup_cons]
        refine ⟨?_, h.keys d⟩
        intro hmem
        rcases List.mem_map.mp hmem with ⟨x, hx, hkey⟩
        rw [xattrSeek, find_of_mem (h.keys d) hx hkey] at hsome
        cases hsome
      · rw [List.find?_cons_of_pos (by simp [XattrInfo.hasName])]
      · rw [List.find?_cons_of_neg (by simp [XattrInfo.hasName, hne])]
  obtain ⟨hkeys, hseek, hother⟩ := hnew
  have hiff := hflag.inStep_iff (h.keys d) hkeys (h.flags d) hother
  have hexec : ((Call.set env d name value create replace).exec fs).2.dentry =
      update fs.dentry d b := hdentry
  constructor
  · have hsafe : FlagsInStep b ↔
        (xattrIsWormEa name = true → State.disablesWormEa value = true → value = ascii "0") := by
      rw [hiff, hseek]
      exact forall_congr' fun hworm => flagOk_kept hworm
    rw [← hsafe]
    constructor
    · rintro ⟨-, hflags⟩
      have hb := hflags d
      rw [hexec, update_self] at hb
      exact hb
    · intro hb
      exact ⟨failsCleanly_of_zero hret, (h.update hexec hkeys hb).flags⟩
  · exact h.distinct_update hexec hkeys

/-- Without memory, an attribute that is there is lost. -/
theorem set_refusedMemory (hgrant : grants fs (setAllocs (fs.dentry d) name value) = false) :
    ((Call.set env d name value create replace).Meets fs ↔
        (xattrSeek (fs.dentry d) name).isNone = true) ∧
      ∀ x, DistinctKeys (((Call.set env d name value create replace).exec fs).2.dentry x) := by
  obtain ⟨-, hdentry⟩ := xattrSet_noMemory fs env d name value create replace hcheck hgrant
  have hclean := failsCleanly_iff fs (.set env d name value create replace)
  cases hsome : (xattrSeek (fs.dentry d) name).isSome with
  | true =>
    rw [hsome, if_pos rfl] at hdentry
    have hpresent : ¬ (xattrSeek (fs.dentry d) name).isNone = true := by
      rw [Option.isNone_iff_eq_none]
      exact Option.isSome_iff_ne_none.mp hsome
    constructor
    · exact iff_of_false (fun hmeets => hpresent (hclean.mp hmeets.1 hcheck hgrant)) hpresent
    · exact h.distinct_update hdentry (keys_erase (h.keys d))
  | false =>
    rw [hsome, if_neg (by simp)] at hdentry
    have hexec : ((Call.set env d name value create replace).exec fs).2.dentry =
      fs.dentry := hdentry
    constructor
    · refine iff_of_true (meets_of_same h hexec) ?_
      simpa using hsome
    · rw [hexec]
      exact h.keys

end Set

/-- Setting an attribute meets the two properties exactly when it is safe. -/
theorem set_meets_iff (h : AllInStep fs) (env : Env) (d : ℕ) (name : Path) (value : List UInt8)
    (create replace : Bool) :
    ((Call.set env d name value create replace).Meets fs ↔
        (Call.set env d name value create replace).Safe fs) ∧
      ∀ x, DistinctKeys (((Call.set env d name value create replace).exec fs).2.dentry x) := by
  by_cases hcheck : Admits fs env d name value create replace
  · cases hgrant : grants fs (setAllocs (fs.dentry d) name value) with
    | true =>
      obtain ⟨hiff, hkeys⟩ := set_granted env d name value create replace h hcheck hgrant
      refine ⟨hiff.trans ?_, hkeys⟩
      simp only [Call.Safe, hgrant, if_true, hcheck, true_imp_iff]
    | false =>
      obtain ⟨hiff, hkeys⟩ := set_refusedMemory env d name value create replace h hcheck hgrant
      refine ⟨hiff.trans ?_, hkeys⟩
      simp only [Call.Safe, hgrant, Bool.false_eq_true, if_false, hcheck, true_imp_iff]
  · have hexec : ((Call.set env d name value create replace).exec fs).2 = fs :=
      xattrSet_refused fs env d name value hcheck
    constructor
    · exact iff_of_true (meets_of_same h (by rw [hexec])) fun ha => absurd ha hcheck
    · rw [hexec]
      exact h.keys

/-- One call, of either kind. -/
theorem call_meets_iff (h : AllInStep fs) (c : Call) :
    (c.Meets fs ↔ c.Safe fs) ∧ (c.Meets fs → AllInStep (c.exec fs).2) := by
  cases c with
  | set env d name value create replace =>
    obtain ⟨hiff, hkeys⟩ := set_meets_iff h env d name value create replace
    exact ⟨hiff, fun hmeets => ⟨hkeys, hmeets.2⟩⟩
  | remove env d name =>
    obtain ⟨hmeets, hall⟩ := remove_meets h env d name
    exact ⟨iff_of_true hmeets trivial, fun _ => hall⟩

end Steps

theorem runMeets_iff_runSafe (fs : State) (h : AllInStep fs) (calls : List Call) :
    RunMeets fs calls ↔ RunSafe fs calls := by
  induction calls generalizing fs with
  | nil => exact Iff.rfl
  | cons c calls ih =>
    obtain ⟨hiff, hnext⟩ := call_meets_iff h c
    constructor
    · rintro ⟨hmeets, hrest⟩
      exact ⟨hiff.mp hmeets, (ih _ (hnext hmeets)).mp hrest⟩
    · rintro ⟨hsafe, hrest⟩
      have hmeets := hiff.mpr hsafe
      exact ⟨hmeets, (ih _ (hnext hmeets)).mpr hrest⟩

/-- A call fails without a trace exactly when memory does not run out for an attribute that is
there. From dentries in step, the calls of a run do so and leave every dentry in step exactly when
each of them is safe in the state it comes in. -/
theorem xattrCalls_iff (fs : State) :
    (∀ c : Call, c.FailsCleanly fs ↔ c.FailSafe fs) ∧
    (AllInStep fs → ∀ calls : List Call, RunMeets fs calls ↔ RunSafe fs calls) :=
  ⟨failsCleanly_iff fs, runMeets_iff_runSafe fs⟩

/-- Dentries without one of the two attributes are in step when no flag is up. -/
theorem flagsInStep_of_absent {b : Dentry} (hkeys : DistinctKeys b)
    (himm : xattrSeek b immutableEa = none) (happ : xattrSeek b appendonlyEa = none)
    (hflags : b.isImmutable = false ∧ b.isAppendonly = false) : FlagsInStep b := by
  rw [flagsInStep_iff hkeys, himm, happ]
  exact hflags

/-- An empty volume whose root has one attribute; `alloc` is what the allocations to come will
meet. -/
def labelledRoot (l : List XattrInfo) (alloc : Alloc) : State :=
  { (emptyRoot 1).fs with
    dentry := update (fun _ => Dentry.zero) 1 (withList rootDentry l)
    alloc }

theorem labelledRoot_inStep {l : List XattrInfo} {alloc : Alloc}
    (hkeys : (l.map XattrInfo.key).Nodup)
    (himm : l.find? (XattrInfo.hasName immutableEa) = none)
    (happ : l.find? (XattrInfo.hasName appendonlyEa) = none) :
    AllInStep (labelledRoot l alloc) := by
  have hzero : DistinctKeys Dentry.zero ∧ FlagsInStep Dentry.zero := by
    have hk : DistinctKeys Dentry.zero := List.nodup_nil
    exact ⟨hk, flagsInStep_of_absent hk rfl rfl ⟨rfl, rfl⟩⟩
  have hroot : DistinctKeys (withList rootDentry l) ∧ FlagsInStep (withList rootDentry l) :=
    ⟨hkeys, flagsInStep_of_absent hkeys himm happ ⟨rfl, rfl⟩⟩
  constructor
  · intro d
    show DistinctKeys (update (fun _ => Dentry.zero) 1 (withList rootDentry l) d)
    rw [update_apply]
    split
    · exact hroot.1
    · exact hzero.1
  · intro d
    show FlagsInStep (update (fun _ => Dentry.zero) 1 (withList rootDentry l) d)
    rw [update_apply]
    split
    · exact hroot.2
    · exact hzero.2

/-- `xattrCalls_iff` for a root that becomes immutable, is opened up again and loses the
attribute. -/
theorem xattrCalls_immutable :
    RunMeets (labelledRoot [] []) [.set fineEnv 1 immutableEa (ascii "yes") false false,
      .set fineEnv 1 immutableEa (ascii "0") false true, .remove fineEnv 1 immutableEa] :=
  ((xattrCalls_iff _).2 (labelledRoot_inStep (l := []) List.nodup_nil rfl rfl) _).mpr
    (by decide +kernel)

/-- An attribute is lost when there is no memory for its new value; and an immutable attribute
without a value is stored while the flag stays down. -/
theorem xattr_set_not_atomic :
    (¬ ∀ fs, AllInStep fs → ∀ c : Call, (c.exec fs).1 < 0 →
      ∀ d, Untouched (fs.dentry d) ((c.exec fs).2.dentry d)) ∧
    ¬ ∀ fs, AllInStep fs → ∀ c : Call, ∀ d, FlagsInStep ((c.exec fs).2.dentry d) := by
  constructor
  · intro h
    have hlost := (h (labelledRoot [⟨ascii "k", ascii "a"⟩] [false])
      (labelledRoot_inStep (by decide +kernel) (by decide +kernel) (by decide +kernel))
      (.set fineEnv 1 (ascii "k") (ascii "b") false false) (by decide +kernel) 1).1
    exact absurd hlost (by decide +kernel)
  · intro h
    have hflags := (h (labelledRoot [] []) (labelledRoot_inStep (l := []) List.nodup_nil rfl rfl)
      (.set fineEnv 1 immutableEa [] false false) 1).immutable
    have hset : (((Call.set fineEnv 1 immutableEa [] false false).exec
        (labelledRoot [] [])).2.dentry 1).isImmutable = false ∧
        xattrSeek (((Call.set fineEnv 1 immutableEa [] false false).exec
          (labelledRoot [] [])).2.dentry 1) immutableEa = some ⟨immutableEa, []⟩ := by
      decide +kernel
    have hup := hflags.mpr ⟨_, hset.2, by decide⟩
    rw [hset.1] at hup
    cases hup


end Ltfs.Fs.Worm

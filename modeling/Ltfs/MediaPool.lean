import Mathlib.Data.List.Basic
import Ltfs.TapeAttr

/-!
# Name and additional information of the media pool

Both are kept in one attribute of the cartridge memory, as `name[info]`. Other
applications write the attribute as well, so any text may be found there.

* `tapeGetMediaPoolInfo`, `tapeSetMediaPoolInfo` — the code.
* `WellFormed` — the texts the splitter takes apart as the composer put them together;
  every other text is a name as a whole.
* `callMeets_iff` — when one call stores what is read back; `runMeets_iff` for a run,
  and `wellFormed_runMeets` for a run from a well-formed text.
-/

namespace Ltfs

/-- `[` and `]`. -/
def lbracket : UInt8 := 91
def rbracket : UInt8 := 93

/-! ## The code -/

/-- The loop of `tape_get_media_pool_info` over the text without its last byte: whether
there is additional information, and where its bracket stands. -/
def scanBrackets : List UInt8 → ℕ → Bool → ℕ → Bool × ℕ
  | [], _, isAddInfo, addStart => (isAddInfo, addStart)
  | c :: rest, i, isAddInfo, addStart =>
    if c = lbracket then
      -- double [ situation
      if isAddInfo then (false, addStart) else scanBrackets rest (i + 1) true i
    else if c = rbracket then (false, addStart)
    else scanBrackets rest (i + 1) isAddInfo addStart

/-- `tape_get_media_pool_info`: the return code, the name and the additional
information; `none` leaves the caller's pointer alone. -/
def tapeGetMediaPoolInfo (t : TapeAttr) : ℤ × Option (List UInt8) × Option (List UInt8) :=
  let pool := t.mediaPool.bytes
  if pool.length = 0 then (-1, none, none)
  else
    let r := if pool.getLast? = some rbracket then scanBrackets pool.dropLast 0 false 0
      else (false, 0)
    if r.1 then
      (0, if r.2 ≠ 0 then some (pool.take r.2) else none, some (pool.drop (r.2 + 1)).dropLast)
    else (0, some pool, none)

/-- The text `tape_set_media_pool_info` composes. -/
def composePool (v : List UInt8) (isName : Bool) (curName curInfo : Option (List UInt8)) :
    List UInt8 :=
  if isName then
    match curInfo with
    | some info => v ++ lbracket :: info ++ [rbracket]
    | none => v
  else
    match curName with
    | some name => name ++ lbracket :: v ++ [rbracket]
    | none => lbracket :: v ++ [rbracket]

/-- `tape_set_media_pool_info`. The value may hold a NUL; the text made of it ends
there. -/
def tapeSetMediaPoolInfo (env : AttrEnv) (volumeName newVal : List UInt8) (isName : Bool)
    (t : TapeAttr) : ℤ × TapeAttr :=
  if ! env.callocOk then (-ltfsNoMemory, t)
  else
    let v := cstr newVal
    if lbracket ∈ v ∨ rbracket ∈ v then (-ltfsBadArg, t)
    else
      let cur := tapeGetMediaPoolInfo t
      let value := composePool v isName cur.2.1 cur.2.2
      if ! env.asprintfOk then (-ltfsNoMemory, t)
      else updateTapeAttribute env volumeName (some value) .mediaPool value.length t

/-! ## Well-formed texts -/

def BracketFree (l : List UInt8) : Prop := lbracket ∉ l ∧ rbracket ∉ l

instance (l : List UInt8) : Decidable (BracketFree l) :=
  inferInstanceAs (Decidable (lbracket ∉ l ∧ rbracket ∉ l))

/-- `name[info]`. -/
def pairText (name info : List UInt8) : List UInt8 := name ++ lbracket :: info ++ [rbracket]

/-- `pool` is `name[info]` without any other bracket. -/
structure SpellsPair (pool name info : List UInt8) : Prop where
  nameFree : BracketFree name
  infoFree : BracketFree info
  text : pool = pairText name info

/-- What the composer makes of bracket-free parts: a name alone, or `name[info]`. -/
def WellFormed (pool : List UInt8) : Prop :=
  BracketFree pool ∨ ∃ name info, SpellsPair pool name info

theorem bracketFree_cons {c : UInt8} {l : List UInt8} :
    BracketFree (c :: l) ↔ c ≠ lbracket ∧ c ≠ rbracket ∧ BracketFree l := by
  unfold BracketFree
  simp only [List.mem_cons, not_or, ne_eq]
  constructor
  · rintro ⟨⟨h1, h2⟩, h3, h4⟩
    exact ⟨fun h => h1 h.symm, fun h => h3 h.symm, h2, h4⟩
  · rintro ⟨h1, h3, h2, h4⟩
    exact ⟨⟨fun h => h1 h.symm, h2⟩, fun h => h3 h.symm, h4⟩

/-- The last `[` of a text is where two readings of it meet. -/
theorem append_lbracket_inj {a b p v : List UInt8} (hb : BracketFree b) (hv : BracketFree v)
    (h : p ++ lbracket :: v = a ++ lbracket :: b) : p = a ∧ v = b := by
  rcases List.append_eq_append_iff.mp h with ⟨c, hc, hrest⟩ | ⟨c, hc, hrest⟩
  · rcases c with - | ⟨x, c⟩
    · rw [List.append_nil] at hc
      exact ⟨hc.symm, (List.cons.inj hrest).2⟩
    · have hmem : lbracket ∈ v := by
        rw [(List.cons.inj hrest).2]
        exact List.mem_append_right _ List.mem_cons_self
      exact absurd hmem hv.1
  · rcases c with - | ⟨x, c⟩
    · rw [List.append_nil] at hc
      exact ⟨hc, (List.cons.inj hrest).2.symm⟩
    · have hmem : lbracket ∈ b := by
        rw [(List.cons.inj hrest).2]
        exact List.mem_append_right _ List.mem_cons_self
      exact absurd hmem hb.1

theorem SpellsPair.unique {pool a b a' b' : List UInt8} (h : SpellsPair pool a b)
    (h' : SpellsPair pool a' b') : a = a' ∧ b = b' := by
  have htext := h.text.symm.trans h'.text
  unfold pairText at htext
  exact append_lbracket_inj h'.infoFree h.infoFree (List.append_cancel_right htext)

theorem SpellsPair.not_bracketFree {pool a b : List UInt8} (h : SpellsPair pool a b) :
    ¬ BracketFree pool := by
  intro hfree
  apply hfree.1
  rw [h.text]
  unfold pairText
  simp

/-! ## The splitter -/

/-- Behind the opening bracket the scan looks for any other bracket. -/
theorem scanBrackets_info (l : List UInt8) (i st : ℕ) :
    (BracketFree l ∧ scanBrackets l i true st = (true, st)) ∨
    (¬ BracketFree l ∧ (scanBrackets l i true st).1 = false) := by
  induction l generalizing i with
  | nil => exact .inl ⟨⟨List.not_mem_nil, List.not_mem_nil⟩, rfl⟩
  | cons c rest ih =>
    unfold scanBrackets
    rw [bracketFree_cons]
    by_cases hl : c = lbracket
    · rw [if_pos hl]
      exact .inr ⟨fun h => h.1 hl, rfl⟩
    rw [if_neg hl]
    by_cases hr : c = rbracket
    · rw [if_pos hr]
      exact .inr ⟨fun h => h.2.1 hr, rfl⟩
    rw [if_neg hr]
    rcases ih (i + 1) with ⟨hfree, hscan⟩ | ⟨hfree, hscan⟩
    · exact .inl ⟨⟨hl, hr, hfree⟩, hscan⟩
    · exact .inr ⟨fun h => hfree h.2.2, hscan⟩

/-- The scan finds additional information exactly in a text with one `[` and no `]`. -/
theorem scanBrackets_name (l : List UInt8) (i : ℕ) :
    (∃ a b, BracketFree a ∧ BracketFree b ∧ l = a ++ lbracket :: b ∧
      scanBrackets l i false 0 = (true, i + a.length)) ∨
    ((∀ a b, BracketFree a → BracketFree b → l ≠ a ++ lbracket :: b) ∧
      (scanBrackets l i false 0).1 = false) := by
  induction l generalizing i with
  | nil => exact .inr ⟨by simp, rfl⟩
  | cons c rest ih =>
    unfold scanBrackets
    by_cases hl : c = lbracket
    · -- the bracket is here: what follows is the information
      rw [if_pos hl, if_neg (by decide)]
      subst hl
      rcases scanBrackets_info rest (i + 1) i with ⟨hfree, hscan⟩ | ⟨hfree, hscan⟩
      · exact .inl ⟨[], rest, ⟨List.not_mem_nil, List.not_mem_nil⟩, hfree, rfl, hscan⟩
      · refine .inr ⟨?_, hscan⟩
        rintro (- | ⟨x, a⟩) b ha hb heq
        · exact hfree ((List.cons.inj heq).2 ▸ hb)
        · exact (bracketFree_cons.mp ha).1 (List.cons.inj heq).1.symm
    rw [if_neg hl]
    by_cases hr : c = rbracket
    · rw [if_pos hr]
      subst hr
      refine .inr ⟨?_, rfl⟩
      rintro (- | ⟨x, a⟩) b ha hb heq
      · exact absurd (List.cons.inj heq).1 (by decide)
      · exact (bracketFree_cons.mp ha).2.1 (List.cons.inj heq).1.symm
    rw [if_neg hr]
    rcases ih (i + 1) with ⟨a, b, ha, hb, heq, hscan⟩ | ⟨hnone, hscan⟩
    · refine .inl ⟨c :: a, b, bracketFree_cons.mpr ⟨hl, hr, ha⟩, hb, by rw [heq]; rfl, ?_⟩
      rw [hscan, List.length_cons]
      congr 1
      omega
    · refine .inr ⟨?_, hscan⟩
      rintro (- | ⟨x, a⟩) b ha hb heq
      · exact hl (List.cons.inj heq).1
      · exact hnone a b (bracketFree_cons.mp ha).2.2 hb (List.cons.inj heq).2

/-- `name[info]` is taken apart, every other text is a name. An absent part is left
out of the result. -/
theorem tapeGetMediaPoolInfo_cases (t : TapeAttr) :
    (∃ a b, SpellsPair t.mediaPool.bytes a b ∧
      tapeGetMediaPoolInfo t = (0, if a = [] then none else some a, some b)) ∨
    ((∀ a b, ¬ SpellsPair t.mediaPool.bytes a b) ∧
      (tapeGetMediaPoolInfo t).2 =
        (if t.mediaPool.bytes = [] then none else some t.mediaPool.bytes, none)) := by
  unfold tapeGetMediaPoolInfo
  generalize t.mediaPool.bytes = pool
  dsimp only
  by_cases hempty : pool.length = 0
  · have hnil := List.length_eq_zero_iff.mp hempty
    subst hnil
    refine .inr ⟨?_, rfl⟩
    intro a b h
    have := h.text
    simp [pairText] at this
  rw [if_neg hempty]
  have hne : pool ≠ [] := fun h => hempty (by rw [h]; rfl)
  by_cases hlast : pool.getLast? = some rbracket
  · -- a closing bracket at the end: the scan decides
    have hpool : pool = pool.dropLast ++ [rbracket] :=
      (List.dropLast_append_getLast? rbracket hlast).symm
    rw [if_pos hlast]
    rcases scanBrackets_name pool.dropLast 0 with ⟨a, b, ha, hb, heq, hscan⟩ | ⟨hnone, hscan⟩
    · left
      refine ⟨a, b, ⟨ha, hb, by rw [hpool, heq]; rfl⟩, ?_⟩
      rw [hscan, hpool, heq]
      simp only [Nat.zero_add, if_true]
      congr 2
      · rcases a with - | ⟨x, a⟩
        · rfl
        · simp
      · have hdrop : List.drop (a.length + 1) (a ++ lbracket :: b ++ [rbracket]) =
            b ++ [rbracket] := by
          rw [List.append_assoc, List.drop_append]
          simp
        rw [hdrop]
        simp
    · right
      constructor
      · intro a b h
        apply hnone a b h.nameFree h.infoFree
        have htext := h.text
        rw [hpool] at htext
        exact List.append_cancel_right htext
      · rw [hscan]
        simp [hne]
  · right
    constructor
    · intro a b h
      apply hlast
      rw [h.text]
      unfold pairText
      exact List.getLast?_concat
    · rw [if_neg hlast]
      simp [hne]

/-! ## One call -/

/-- The parts read back, an absent one as the empty text. -/
def poolName (t : TapeAttr) : List UInt8 := (tapeGetMediaPoolInfo t).2.1.getD []

def poolInfo (t : TapeAttr) : List UInt8 := (tapeGetMediaPoolInfo t).2.2.getD []

/-- A call of `tape_set_media_pool_info`. -/
structure SetCall where
  env : AttrEnv
  volumeName : List UInt8
  newVal : List UInt8
  isName : Bool

def SetCall.exec (c : SetCall) (t : TapeAttr) : ℤ × TapeAttr :=
  tapeSetMediaPoolInfo c.env c.volumeName c.newVal c.isName t

/-- After a successful call the part just set reads back as the new value and the
other one as before. -/
def CallMeets (t : TapeAttr) (c : SetCall) : Prop :=
  BracketFree c.newVal → 0 ≤ (c.exec t).1 →
    if c.isName then
      poolName (c.exec t).2 = c.newVal ∧ poolInfo (c.exec t).2 = poolInfo t
    else poolInfo (c.exec t).2 = c.newVal ∧ poolName (c.exec t).2 = poolName t

/-- The text the call composes. -/
def SetCall.text (c : SetCall) (t : TapeAttr) : List UInt8 :=
  composePool (cstr c.newVal) c.isName (tapeGetMediaPoolInfo t).2.1 (tapeGetMediaPoolInfo t).2.2

/-- No error stands in the way: there is memory, the text fits, and the cartridge
memory takes it. -/
structure SetCall.Accepted (c : SetCall) (t : TapeAttr) : Prop where
  callocOk : c.env.callocOk = true
  asprintfOk : c.env.asprintfOk = true
  fits : (c.text t).length ≤ 160
  written : 0 ≤ c.env.writeAttribute

/-- The value is a C string; and a call for the additional information finds a text
that it can add to. -/
def CallSafe (t : TapeAttr) (c : SetCall) : Prop :=
  0 ∉ c.newVal ∧ (c.isName = true ∨ WellFormed t.mediaPool.bytes)

theorem cstr_bracketFree {l : List UInt8} (h : BracketFree l) : BracketFree (cstr l) :=
  ⟨fun hmem => h.1 ((List.takeWhile_sublist _).subset hmem),
    fun hmem => h.2 ((List.takeWhile_sublist _).subset hmem)⟩

theorem get_noNul (t : TapeAttr) :
    (∀ name, (tapeGetMediaPoolInfo t).2.1 = some name → 0 ∉ name) ∧
      ∀ info, (tapeGetMediaPoolInfo t).2.2 = some info → 0 ∉ info := by
  have hnul := t.mediaPool.noNul
  rcases tapeGetMediaPoolInfo_cases t with ⟨a, b, hs, hget⟩ | ⟨-, hget⟩
  · rw [hs.text] at hnul
    unfold pairText at hnul
    simp only [List.mem_append, List.mem_cons, not_or] at hnul
    rw [hget]
    constructor
    · intro name hname
      split at hname
      · cases hname
      · cases hname
        exact hnul.1.1
    · rintro info ⟨⟩
      exact hnul.1.2.2
  · rw [hget]
    constructor
    · intro name hname
      split at hname
      · cases hname
      · cases hname
        exact hnul
    · rintro info ⟨⟩

theorem SetCall.text_noNul (c : SetCall) (t : TapeAttr) : 0 ∉ c.text t := by
  have hv := cstr_noNul c.newVal
  have hl : (0 : UInt8) ≠ lbracket := by decide
  have hr : (0 : UInt8) ≠ rbracket := by decide
  have hget := get_noNul t
  unfold SetCall.text composePool
  split
  · split
    · next info hinfo =>
      have := hget.2 info hinfo
      simp [hv, hl, hr, this]
    · exact hv
  · split
    · next name hname =>
      have := hget.1 name hname
      simp [hv, hl, hr, this]
    · simp [hv, hl, hr]

/-- A call that gets as far as the update keeps the composed text, whatever the
cartridge memory makes of it. -/
theorem SetCall.exec_eq {c : SetCall} {t : TapeAttr} (hcalloc : c.env.callocOk = true)
    (hprint : c.env.asprintfOk = true) (hv : BracketFree (cstr c.newVal))
    (hfits : (c.text t).length ≤ 160) :
    c.exec t = (c.env.writeAttribute,
      { t with mediaPool := CString.strncpy 160 (c.text t) (c.text t).length }) := by
  have htext : composePool (cstr c.newVal) c.isName (tapeGetMediaPoolInfo t).2.1
      (tapeGetMediaPoolInfo t).2.2 = c.text t := rfl
  unfold SetCall.exec tapeSetMediaPoolInfo updateTapeAttribute
  simp only [hcalloc, hprint, Bool.not_true, Bool.false_eq_true, if_false, htext]
  rw [if_neg (not_or.mpr hv), if_neg (Nat.not_lt.mpr hfits)]
  rfl

/-- Any other call is refused, and changes nothing. -/
theorem SetCall.exec_declined {c : SetCall} (t : TapeAttr)
    (h : c.env.callocOk = true → c.env.asprintfOk = true → BracketFree (cstr c.newVal) →
      ¬ (c.text t).length ≤ 160) : (c.exec t).1 < 0 ∧ (c.exec t).2 = t := by
  have htext : composePool (cstr c.newVal) c.isName (tapeGetMediaPoolInfo t).2.1
      (tapeGetMediaPoolInfo t).2.2 = c.text t := rfl
  unfold SetCall.exec tapeSetMediaPoolInfo updateTapeAttribute
  by_cases hcalloc : (! c.env.callocOk) = true
  · rw [if_pos hcalloc]
    exact ⟨(by decide : -ltfsNoMemory < 0), rfl⟩
  rw [if_neg hcalloc]
  dsimp only
  by_cases hv : lbracket ∈ cstr c.newVal ∨ rbracket ∈ cstr c.newVal
  · rw [if_pos hv]
    exact ⟨(by decide : -ltfsBadArg < 0), rfl⟩
  rw [if_neg hv]
  by_cases hprint : (! c.env.asprintfOk) = true
  · rw [if_pos hprint]
    exact ⟨(by decide : -ltfsNoMemory < 0), rfl⟩
  have hlong := h (by simpa using hcalloc) (by simpa using hprint) (not_or.mp hv)
  rw [if_neg hprint, htext, if_pos (Nat.lt_of_not_le hlong)]
  exact ⟨(by decide : -ltfsLargeXattr < 0), rfl⟩

/-- A call for a bracket-free text succeeds exactly when nothing stands in the way,
and then the composed text is what the volume keeps. -/
theorem SetCall.exec_cases (c : SetCall) (t : TapeAttr) (hv : BracketFree (cstr c.newVal)) :
    (c.Accepted t ∧ 0 ≤ (c.exec t).1 ∧ (c.exec t).2.mediaPool.bytes = c.text t) ∨
    (¬ c.Accepted t ∧ (c.exec t).1 < 0 ∧
      ((c.exec t).2 = t ∨ (c.exec t).2.mediaPool.bytes = c.text t)) := by
  by_cases hpass : c.env.callocOk = true ∧ c.env.asprintfOk = true ∧ (c.text t).length ≤ 160
  · -- the text fits, so `strncpy` keeps all of it
    have hcopy := CString.strncpy_bytes (c.text_noNul t) hpass.2.2
    rw [SetCall.exec_eq hpass.1 hpass.2.1 hv hpass.2.2]
    by_cases hwritten : 0 ≤ c.env.writeAttribute
    · exact .inl ⟨⟨hpass.1, hpass.2.1, hpass.2.2, hwritten⟩, hwritten, hcopy⟩
    · exact .inr ⟨fun h => hwritten h.written, Int.not_le.mp hwritten, Or.inr hcopy⟩
  · right
    have hdeclined := SetCall.exec_declined t fun h1 h2 _ h4 => hpass ⟨h1, h2, h4⟩
    exact ⟨fun h => hpass ⟨h.callocOk, h.asprintfOk, h.fits⟩, hdeclined.1, Or.inl hdeclined.2⟩

/-! ## What is read back -/

theorem poolParts_pair {t : TapeAttr} {a b : List UInt8} (h : SpellsPair t.mediaPool.bytes a b) :
    poolName t = a ∧ poolInfo t = b := by
  unfold poolName poolInfo
  rcases tapeGetMediaPoolInfo_cases t with ⟨a', b', h', hget⟩ | ⟨hnone, -⟩
  · obtain ⟨rfl, rfl⟩ := h.unique h'
    rw [hget]
    constructor
    · rcases a with - | ⟨x, a⟩
      · rfl
      · rfl
    · rfl
  · exact absurd h (hnone a b)

theorem poolParts_plain {t : TapeAttr} (h : ∀ a b, ¬ SpellsPair t.mediaPool.bytes a b) :
    poolName t = t.mediaPool.bytes ∧ poolInfo t = [] := by
  unfold poolName poolInfo
  rcases tapeGetMediaPoolInfo_cases t with ⟨a, b, h', -⟩ | ⟨-, hget⟩
  · exact absurd h' (h a b)
  · rw [hget]
    constructor
    · dsimp only
      split
      · next hnil => exact hnil.symm
      · rfl
    · rfl

theorem poolParts_free {t : TapeAttr} (h : BracketFree t.mediaPool.bytes) :
    poolName t = t.mediaPool.bytes ∧ poolInfo t = [] :=
  poolParts_plain fun _ _ hs => hs.not_bracketFree h

/-- The composed text, in terms of the parts read back before. -/
theorem SetCall.text_eq (c : SetCall) (t : TapeAttr) :
    c.text t =
      if c.isName then
        if (tapeGetMediaPoolInfo t).2.2.isSome then pairText (cstr c.newVal) (poolInfo t)
        else cstr c.newVal
      else pairText (poolName t) (cstr c.newVal) := by
  unfold SetCall.text composePool pairText poolName poolInfo
  split
  · cases (tapeGetMediaPoolInfo t).2.2 with
    | none => rfl
    | some info => rfl
  · cases (tapeGetMediaPoolInfo t).2.1 with
    | none => rfl
    | some name => rfl

/-- The name of a well-formed text holds no bracket; that of any other text does. -/
theorem wellFormed_iff (t : TapeAttr) :
    WellFormed t.mediaPool.bytes ↔ BracketFree (poolName t) := by
  unfold WellFormed
  rcases tapeGetMediaPoolInfo_cases t with ⟨a, b, h, -⟩ | ⟨hnone, -⟩
  · rw [(poolParts_pair h).1]
    exact iff_of_true (.inr ⟨a, b, h⟩) h.nameFree
  · rw [(poolParts_plain hnone).1]
    exact or_iff_left (fun ⟨a, b, h⟩ => hnone a b h)

/-- Setting the name works on every text. -/
theorem setName_parts {c : SetCall} {t t' : TapeAttr} (hname : c.isName = true)
    (hv : BracketFree (cstr c.newVal)) (ht : t'.mediaPool.bytes = c.text t) :
    poolName t' = cstr c.newVal ∧ poolInfo t' = poolInfo t := by
  rw [SetCall.text_eq, if_pos hname] at ht
  rcases tapeGetMediaPoolInfo_cases t with ⟨a, b, h, hget⟩ | ⟨hnone, hget⟩
  · -- the old information is carried over
    rw [hget, (poolParts_pair h).2] at ht
    simp only [Option.isSome_some, if_true] at ht
    rw [(poolParts_pair h).2]
    exact poolParts_pair ⟨hv, h.infoFree, ht⟩
  · -- the old text was a name as a whole, and goes
    rw [hget] at ht
    simp only [Option.isSome_none, Bool.false_eq_true, if_false] at ht
    have hfree' : BracketFree t'.mediaPool.bytes := ht ▸ hv
    rw [(poolParts_plain hnone).2, ← ht]
    exact poolParts_free hfree'

/-- Setting the information works on well-formed texts only: with a bracket in the
name, all of the new text is a name. -/
theorem setInfo_parts {c : SetCall} {t t' : TapeAttr} (hname : c.isName = false)
    (hv : BracketFree (cstr c.newVal)) (ht : t'.mediaPool.bytes = c.text t) :
    (WellFormed t.mediaPool.bytes ∧ poolInfo t' = cstr c.newVal ∧ poolName t' = poolName t) ∨
    (¬ WellFormed t.mediaPool.bytes ∧ poolName t' ≠ poolName t) := by
  rw [SetCall.text_eq, hname] at ht
  simp only [Bool.false_eq_true, if_false] at ht
  rw [wellFormed_iff]
  by_cases hn : BracketFree (poolName t)
  · have hparts := poolParts_pair ⟨hn, hv, ht⟩
    exact .inl ⟨hn, hparts.2, hparts.1⟩
  · right
    have hnone : ∀ a b, ¬ SpellsPair t'.mediaPool.bytes a b := by
      intro a b h
      have htext := ht.symm.trans h.text
      unfold pairText at htext
      have hinj := append_lbracket_inj h.infoFree hv (List.append_cancel_right htext)
      exact hn (hinj.1 ▸ h.nameFree)
    refine ⟨hn, fun heq => ?_⟩
    -- the new name is longer than the old one by the brackets
    have hlen := congrArg List.length ((poolParts_plain hnone).1.symm.trans heq)
    rw [ht] at hlen
    unfold pairText at hlen
    simp only [List.length_append, List.length_cons] at hlen
    omega

/-- When a call stores what is read back. -/
theorem callMeets_iff (t : TapeAttr) (c : SetCall) :
    CallMeets t c ↔ (BracketFree c.newVal → c.Accepted t → CallSafe t c) := by
  unfold CallMeets CallSafe
  by_cases hfree : BracketFree c.newVal
  case neg => exact iff_of_true (fun h => absurd h hfree) (fun h => absurd h hfree)
  simp only [hfree, forall_const]
  rcases c.exec_cases t (cstr_bracketFree hfree) with ⟨hacc, hret, htext⟩ | ⟨hacc, hret, -⟩
  case inr =>
    exact iff_of_true (fun h => absurd h (by omega)) (fun h => absurd h hacc)
  simp only [hret, hacc, forall_const]
  cases hname : c.isName with
  | true =>
    simp only [if_true, true_or, and_true]
    have hparts := setName_parts hname (cstr_bracketFree hfree) htext
    rw [hparts.1, hparts.2, cstr_eq_self_iff]
    exact and_iff_left rfl
  | false =>
    simp only [Bool.false_eq_true, if_false, false_or]
    rcases setInfo_parts hname (cstr_bracketFree hfree) htext with ⟨hwf, hinfo, hold⟩ | ⟨hwf, hold⟩
    · rw [hinfo, hold, cstr_eq_self_iff]
      exact ⟨fun h => ⟨h.1, hwf⟩, fun h => ⟨h.1, rfl⟩⟩
    · exact iff_of_false (fun h => hold h.2) (fun h => hwf h.2)

/-! ## Runs -/

/-- Every call of a run stores what is read back. -/
def RunMeets (t : TapeAttr) : List SetCall → Prop
  | [] => True
  | c :: rest => CallMeets t c ∧ RunMeets (c.exec t).2 rest

/-- Every call that is carried out is safe in the state it finds. -/
def RunSafe (t : TapeAttr) : List SetCall → Prop
  | [] => True
  | c :: rest =>
    (BracketFree c.newVal → c.Accepted t → CallSafe t c) ∧ RunSafe (c.exec t).2 rest

theorem runMeets_iff (t : TapeAttr) (calls : List SetCall) : RunMeets t calls ↔ RunSafe t calls := by
  induction calls generalizing t with
  | nil => exact Iff.rfl
  | cons c rest ih => exact and_congr (callMeets_iff t c) (ih (c.exec t).2)

/-- No call leaves a stray bracket behind. -/
theorem SetCall.exec_wellFormed (c : SetCall) {t : TapeAttr} (h : WellFormed t.mediaPool.bytes) :
    WellFormed (c.exec t).2.mediaPool.bytes := by
  by_cases hv : BracketFree (cstr c.newVal)
  case neg =>
    -- a text with a bracket is refused
    rw [(c.exec_declined t fun _ _ h3 _ => hv h3).2]
    exact h
  have hname := (wellFormed_iff t).mp h
  -- both parts of the composed text are free of brackets
  have htext : WellFormed (c.text t) := by
    rw [c.text_eq]
    cases c.isName with
    | true =>
      simp only [if_true]
      split
      · next hinfo =>
        rcases tapeGetMediaPoolInfo_cases t with ⟨a, b, hs, -⟩ | ⟨-, hget⟩
        · rw [(poolParts_pair hs).2]
          exact .inr ⟨_, _, hv, hs.infoFree, rfl⟩
        · rw [hget] at hinfo
          cases hinfo
      · exact .inl hv
    | false => exact .inr ⟨_, _, hname, hv, rfl⟩
  rcases c.exec_cases t hv with ⟨-, -, heq⟩ | ⟨-, -, heq | heq⟩
  · rw [heq]
    exact htext
  · rw [heq]
    exact h
  · rw [heq]
    exact htext

/-- From a well-formed text on, also the empty one, every run works, failing calls
included. -/
theorem wellFormed_runMeets {t : TapeAttr} {calls : List SetCall}
    (h : WellFormed t.mediaPool.bytes) (hvalues : ∀ c ∈ calls, 0 ∉ c.newVal) :
    RunMeets t calls := by
  induction calls generalizing t with
  | nil => trivial
  | cons c rest ih =>
    constructor
    · rw [callMeets_iff]
      intro _ _
      exact ⟨hvalues c List.mem_cons_self, Or.inr h⟩
    · exact ih (c.exec_wellFormed h) fun c' hc' => hvalues c' (List.mem_cons_of_mem c hc')

/-- A cartridge with the pool text `a[b`, and a call which sets the information `x`. -/
def strayBracket : TapeAttr where
  mediumLabel := ⟨[], List.not_mem_nil, by decide⟩
  barcode := ⟨[], List.not_mem_nil, by decide⟩
  vollock := 0
  mediaPool := ⟨[97, 91, 98], by decide, by decide⟩

def setX : SetCall where
  env := ⟨0, true, true, true, fun _ _ => none⟩
  volumeName := []
  newVal := [120]
  isName := false

/-- The name reads back as `a[b[x]`. -/
theorem strayBracket_lost : ¬ ∀ t calls, RunMeets t calls := by
  intro h
  have hmeets := (h strayBracket [setX]).1 (by decide) (by decide)
  revert hmeets
  decide

end Ltfs

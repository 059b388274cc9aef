import Ltfs.Sched.Lists

/-!
# Writes larger than a cache block

`_unified_insert_new_request` copies at most one cache block, but reports all
the bytes it was offered as stored, and the loops of `unified_write` believe it.
A write loses its tail when more than one cache block of it is left for a new
request.

* `leftover` — how many bytes of a write the requests of the list leave for a new
  one.
* `Lands` — the invariant of the walk: the stored bytes of the write are held by
  requests before the cursor, up to the point `K` where the tail is lost, and from
  `K` on no request holds a byte that it did not hold before.
* `Phase` — where the walk stands, with what `leftover` says about the rest.

The lists are arbitrary here: nothing asks the requests to be sorted or disjoint.
-/

namespace Ltfs.Sched

open RequestState

/-! ## Bytes that requests hold -/

/-- The request has byte `b` for the file offset `x`. -/
def WriteRequest.Holds (r : WriteRequest) (x : ℕ) (b : UInt8) : Prop :=
  r.offset ≤ x ∧ r.data[x - r.offset]? = some b

instance (r : WriteRequest) (x : ℕ) (b : UInt8) : Decidable (r.Holds x b) :=
  inferInstanceAs (Decidable (_ ∧ _))

/-- Some request of the list has it. -/
def HeldIn (l : List WriteRequest) (x : ℕ) (b : UInt8) : Prop := ∃ r ∈ l, r.Holds x b

instance (l : List WriteRequest) (x : ℕ) (b : UInt8) : Decidable (HeldIn l x b) :=
  inferInstanceAs (Decidable (∃ r ∈ l, r.Holds x b))

@[simp] theorem holds_promote (p : Option ℕ) (r : WriteRequest) (x : ℕ) (b : UInt8) :
    (promote p r).Holds x b ↔ r.Holds x b := by
  simp [WriteRequest.Holds]

@[simp] theorem heldIn_nil (x : ℕ) (b : UInt8) : ¬ HeldIn [] x b := by
  simp [HeldIn]

@[simp] theorem heldIn_cons (r : WriteRequest) (l : List WriteRequest) (x : ℕ) (b : UInt8) :
    HeldIn (r :: l) x b ↔ r.Holds x b ∨ HeldIn l x b := by
  simp [HeldIn]

@[simp] theorem heldIn_append (l l' : List WriteRequest) (x : ℕ) (b : UInt8) :
    HeldIn (l ++ l') x b ↔ HeldIn l x b ∨ HeldIn l' x b := by
  unfold HeldIn
  constructor
  · rintro ⟨r, hr, hb⟩
    rcases List.mem_append.mp hr with hr | hr
    · exact Or.inl ⟨r, hr, hb⟩
    · exact Or.inr ⟨r, hr, hb⟩
  · rintro (⟨r, hr, hb⟩ | ⟨r, hr, hb⟩)
    · exact ⟨r, List.mem_append_left _ hr, hb⟩
    · exact ⟨r, List.mem_append_right _ hr, hb⟩

@[simp] theorem heldIn_map_promote (p : Option ℕ) (l : List WriteRequest) (x : ℕ) (b : UInt8) :
    HeldIn (l.map (promote p)) x b ↔ HeldIn l x b := by
  simp [HeldIn]

theorem holds_iff {r : WriteRequest} {x : ℕ} {b : UInt8} :
    r.Holds x b ↔ reqMap [r] x = some (r.isIp, b) := by
  rw [reqMap_singleton, WriteRequest.Holds]
  by_cases h : r.offset ≤ x
  · simp [h]
  · simp [h]

theorem WriteRequest.Holds.lt_limit {r : WriteRequest} {x : ℕ} {b : UInt8} (h : r.Holds x b) :
    x < r.limit := by
  have hlt := (List.getElem?_eq_some_iff.mp h.2).1
  have hle := h.1
  unfold WriteRequest.limit WriteRequest.count
  omega

/-- A cut front holds no other bytes. -/
theorem holds_of_take {r : WriteRequest} {n x : ℕ} {b : UInt8}
    (h : WriteRequest.Holds { r with data := r.data.take n } x b) : r.Holds x b := by
  rcases h with ⟨hle, hb⟩
  rw [List.getElem?_take] at hb
  refine ⟨hle, ?_⟩
  split at hb
  · exact hb
  · cases hb

/-- Nor does a cut end, at its new offset. -/
theorem holds_of_drop {r r' : WriteRequest} {n x : ℕ} {b : UInt8}
    (hoff : r'.offset = r.offset + n) (hdata : r'.data = r.data.drop n) (h : r'.Holds x b) :
    r.Holds x b := by
  rcases h with ⟨hle, hb⟩
  rw [hdata, List.getElem?_drop, hoff] at hb
  rw [hoff] at hle
  exact ⟨by omega, by rwa [show n + (x - (r.offset + n)) = x - r.offset by omega] at hb⟩

/-! ## What is left for a new request -/

/-- The same once a full request, or one for the index partition with room left
(`ip`), ends where the write goes on. -/
def leftoverBehind (cs : ℕ) : Bool → List WriteRequest → ℕ → ℕ → ℕ
  | _, [], _, size => size
  | ip, r :: rest, offset, size =>
    if r.limit ≤ offset then
      leftoverBehind cs ip rest offset size
    else if offset < r.offset then
      size
    else if r.state = requestIp then
      if ip ∨ offset + size < r.limit then size else leftoverBehind cs ip rest offset size
    else if size ≤ cs then
      0
    else
      leftoverBehind cs false rest (offset + cs) (size - cs)

/-- Bytes of a write of `size` bytes at `offset` that a walk over the list leaves for
a new request. Requests in the way of the write take what fits into their cache
blocks, requests for the index partition make way. -/
def leftoverWalk (cs : ℕ) : List WriteRequest → ℕ → ℕ → ℕ
  | [], _, size => size
  | r :: rest, offset, size =>
    if r.limit < offset then
      leftoverWalk cs rest offset size
    else if offset < r.offset then
      size
    else if r.state = requestIp then
      if offset = r.limit then
        leftoverBehind cs (decide (r.count < cs)) rest offset size
      else if offset + size < r.limit then
        size
      else if offset = r.offset then
        leftoverWalk cs rest offset size
      else
        leftoverBehind cs true rest offset size
    else if offset = r.limit ∧ r.count = cs then
      leftoverBehind cs false rest offset size
    else if size ≤ r.offset + cs - offset then
      0
    else
      leftoverBehind cs false rest (r.offset + cs) (size - (r.offset + cs - offset))

/-- Bytes of a write that the list leaves for a new request: a write behind the last
request only tries that one. -/
def leftover (cs : ℕ) (requests : List WriteRequest) (offset size : ℕ) : ℕ :=
  match requests.getLast? with
  | none => size
  | some r =>
    if r.limit ≤ offset then
      if r.limit = offset ∧ r.state ≠ requestIp then size - (cs - r.count) else size
    else
      leftoverWalk cs requests offset size

theorem leftoverBehind_le (cs : ℕ) (l : List WriteRequest) : ∀ (ip : Bool) (offset size : ℕ),
    leftoverBehind cs ip l offset size ≤ size := by
  induction l with
  | nil => exact fun ip offset size => le_refl _
  | cons r rest ih =>
    intro ip offset size
    unfold leftoverBehind
    split
    · exact ih ip offset size
    · split
      · exact le_refl _
      · split
        · split
          · exact le_refl _
          · exact ih ip offset size
        · split
          · exact Nat.zero_le _
          · exact le_trans (ih false _ _) (Nat.sub_le _ _)

/-- Promotions change no request that the walk would treat differently. -/
@[simp] theorem leftoverBehind_map_promote (cs : ℕ) (p : Option ℕ) (l : List WriteRequest) :
    ∀ (ip : Bool) (offset size : ℕ),
      leftoverBehind cs ip (l.map (promote p)) offset size = leftoverBehind cs ip l offset size := by
  induction l with
  | nil => exact fun ip offset size => rfl
  | cons r rest ih =>
    intro ip offset size
    simp only [List.map_cons, leftoverBehind, promote_limit, promote_offset, promote_state_ip, ih]

/-- Requests that end before the write goes on take nothing. -/
theorem leftoverBehind_skip {cs : ℕ} {l : List WriteRequest} (ip : Bool) {offset : ℕ} (size : ℕ)
    (h : ∀ r ∈ l, r.limit < offset) : leftoverBehind cs ip l offset size = size := by
  induction l with
  | nil => rfl
  | cons r rest ih =>
    rw [leftoverBehind, if_pos (h r (by simp)).le]
    exact ih fun s hs => h s (by simp [hs])

/-! ## Merging -/

section Merge

variable {cs : ℕ}

/-- What a trimmed request is: the rest of the old one. -/
structure Trimmed (n : ℕ) (src src' : WriteRequest) : Prop where
  offset : src'.offset = src.offset + n
  data : src'.data = src.data.drop n
  isIp : src'.isIp = src.isIp

theorem Trimmed.count {n : ℕ} {src src' : WriteRequest} (h : Trimmed n src src') :
    src'.count = src.count - n := by
  unfold WriteRequest.count
  rw [h.data, List.length_drop]

theorem trimSource_cases (n : ℕ) (dest src : WriteRequest) (b : Bool) (p : Option ℕ) :
    (trimSource n dest src b p).ret = 2 ∧ 0 < n ∧ src.count ≤ n ∨
    (trimSource n dest src b p).ret ≠ 2 ∧ (0 < n → n < src.count) ∧
      Trimmed n src (trimSource n dest src b p).src := by
  unfold trimSource
  by_cases hpos : n > 0
  · rw [if_pos hpos]
    by_cases hlt : n < src.count
    · rw [if_pos hlt]
      dsimp only
      refine Or.inr ?_
      split
      · rename_i hdp
        refine ⟨by simp, fun _ => hlt, rfl, rfl, ?_⟩
        simp [WriteRequest.isIp, hdp]
      · exact ⟨by simp, fun _ => hlt, rfl, rfl, rfl⟩
    · rw [if_neg hlt]
      exact Or.inl ⟨rfl, hpos, Nat.le_of_not_lt hlt⟩
  · rw [if_neg hpos]
    have hzero : n = 0 := by omega
    subst hzero
    exact Or.inr ⟨by simp, fun h => absurd h (lt_irrefl 0), rfl, rfl, rfl⟩

@[simp] theorem trimSource_promoted (n : ℕ) (dest src : WriteRequest) (b : Bool) (p : Option ℕ) :
    (trimSource n dest src b p).promoted = p := by
  unfold trimSource
  split
  · split
    · dsimp only
      split <;> rfl
    · rfl
  · rfl

/-- What a merge does to the bytes. Nothing is assumed about the order of the two. -/
structure MergeHolds (cs : ℕ) (dest src : WriteRequest) (m : MergeResult) : Prop where
  dest_offset : m.dest.offset = dest.offset
  dest_isIp : m.dest.isIp = dest.isIp
  dest_ge : dest.limit ≤ m.dest.limit
  dest_count : dest.count ≤ cs → m.dest.count ≤ cs
  keeps : ∀ x b, dest.Holds x b → m.dest.Holds x b
  source : ∀ x b, m.dest.Holds x b → dest.Holds x b ∨ src.Holds x b
  kept : m.ret ≠ 2 → (0 < src.count → 0 < m.src.count) ∧ m.src.count ≤ src.count ∧
    m.src.isIp = src.isIp ∧ m.src.limit = src.limit ∧
    (src.offset ≤ dest.limit → m.dest.limit ≤ m.src.offset) ∧
    ∀ x b, m.src.Holds x b → src.Holds x b

theorem mergeRequests_holds (cs : ℕ) (dest src : WriteRequest) :
    MergeHolds cs dest src (mergeRequests cs dest src) := by
  have htrim : ∀ {n : ℕ} {d s : WriteRequest} {b : Bool} {p : Option ℕ},
      s.offset = src.offset → s.data = src.data → s.isIp = src.isIp →
      (src.offset ≤ dest.limit → d.limit ≤ src.offset + n) →
      (trimSource n d s b p).ret ≠ 2 →
      (0 < src.count → 0 < (trimSource n d s b p).src.count) ∧
        (trimSource n d s b p).src.count ≤ src.count ∧
        (trimSource n d s b p).src.isIp = src.isIp ∧
        (trimSource n d s b p).src.limit = src.limit ∧
        (src.offset ≤ dest.limit → d.limit ≤ (trimSource n d s b p).src.offset) ∧
        ∀ x b', (trimSource n d s b p).src.Holds x b' → src.Holds x b' := by
    intro n d s b p hoff hdata hip hreach hret
    rcases trimSource_cases n d s b p with ⟨h2, -⟩ | ⟨-, hlt, ht⟩
    · exact absurd h2 hret
    · have hs : s.count = src.count := by
        unfold WriteRequest.count
        rw [hdata]
      have hcount := ht.count
      have hoffset := ht.offset
      refine ⟨by omega, by omega, ht.isIp.trans hip, ?_, fun h => ?_, ?_⟩
      · unfold WriteRequest.limit
        rw [hcount, hoffset, hoff, hs]
        rw [hs] at hlt
        omega
      · rw [hoffset, hoff]
        exact hreach h
      · intro x b' hb
        exact holds_of_drop (by rw [hoffset, hoff]) (by rw [ht.data, hdata]) hb
  unfold mergeRequests
  by_cases hgap : src.offset > dest.limit
  · rw [if_pos hgap]
    exact ⟨rfl, rfl, le_refl _, id, fun _ _ h => h, fun _ _ h => Or.inl h, fun _ =>
      ⟨id, le_refl _, rfl, rfl, fun h => absurd h (by omega), fun _ _ h => h⟩⟩
  · rw [if_neg hgap]
    dsimp only
    split
    · -- the bytes behind `dest` are appended to it
      rename_i hcopy
      rcases hcopy with ⟨htarget, hroom, hmore⟩
      have hlimit : src.offset + (dest.limit - src.offset) = dest.limit := by omega
      rw [hlimit]
      have hlo : dest.offset ≤ dest.limit := Nat.le_add_right _ _
      have hu := updateRequest_spec cs (src.data.drop (dest.limit - src.offset)) hlo (le_refl _)
      set u := updateRequest cs (src.data.drop (dest.limit - src.offset)) dest.limit dest
      have hul := hu.limit_eq
      have hut := hu.taken
      have huo := hu.offset_eq
      rw [List.length_drop] at hut
      have hbytes : ∀ x, reqMap [u.2.1] x = (bytesMap dest.isIp dest.limit
          ((src.data.drop (dest.limit - src.offset)).take u.1) x).or (reqMap [dest] x) := hu.map_eq
      refine ⟨by simp [huo], by simpa using hu.isIp_eq, by simp [hul], ?_, ?_, ?_, ?_⟩
      · intro hle
        rw [trimSource_dest]
        have h1 : u.2.1.limit = u.2.1.offset + u.2.1.count := rfl
        have h2 : dest.limit = dest.offset + dest.count := rfl
        omega
      · intro x b hb
        have hx := hb.lt_limit
        rw [trimSource_dest, holds_iff, hbytes, bytesMap_eq_none_iff.mpr (Or.inl hx), hu.isIp_eq]
        exact holds_iff.mp hb
      · intro x b hb
        rw [trimSource_dest, holds_iff, hbytes, hu.isIp_eq] at hb
        rcases Option.or_eq_some_iff.mp hb with hnew | ⟨-, hold⟩
        · -- a byte that came from `src`
          refine Or.inr ?_
          unfold bytesMap at hnew
          split at hnew
          · rename_i hle
            rw [Option.map_eq_some_iff] at hnew
            rcases hnew with ⟨b', hb', heq⟩
            cases heq
            rw [List.getElem?_take] at hb'
            split at hb'
            · rw [List.getElem?_drop] at hb'
              refine ⟨by omega, ?_⟩
              rwa [show dest.limit - src.offset + (x - dest.limit) = x - src.offset by omega] at hb'
            · cases hb'
          · cases hnew
        · exact Or.inl (holds_iff.mpr hold)
      · rw [trimSource_dest]
        exact htrim (by simp) (by simp) (by simp) (fun _ => by omega)
    · refine ⟨by simp, by simp, by simp, by simp, fun x b h => by simpa using h,
        fun x b h => Or.inl (by simpa using h), ?_⟩
      rw [trimSource_dest]
      exact htrim rfl rfl rfl fun _ => by omega

end Merge

/-! ## The invariant of the walk -/

/-- The walk at a cursor, for a write of `buf` at `o`. What is stored of the write is held
by requests before the cursor, except for the bytes from `K` on; these come from `old`. -/
structure Lands (cs o K : ℕ) (buf : List UInt8) (old : List WriteRequest) (w : WriteState)
    (after : List WriteRequest) : Prop where
  sized : ∀ r ∈ w.before ++ after, 0 < r.count ∧ r.count ≤ cs
  held : ∀ x b, o ≤ x → x < w.offset → x < K → buf[x - o]? = some b → HeldIn w.before x b
  source : ∀ x b, K ≤ x → HeldIn (w.before ++ after) x b → HeldIn old x b
  fileSize : o < w.offset → min w.offset K ≤ w.fileSize
  buf_eq : w.buf = buf.drop (w.offset - o)
  offset_ge : o ≤ w.offset

/-- Where the walk stands, and that `N` bytes of the write will be left for a new request. -/
inductive Phase (cs o N : ℕ) (w : WriteState) (after : List WriteRequest) : Prop where
  /-- No request was in the way so far. -/
  | seeking (hoffset : w.offset = o) (hprev : w.prev = none) (hpassed : w.passed = [])
      (hskipped : ∀ r ∈ w.skipped, r.limit < o)
      (hleft : N = leftoverWalk cs after o w.buf.length)
  /-- `prev_req` ends where the write goes on and takes no bytes of it. With `ip` set, it
  has room for more bytes for the index partition. -/
  | behind (P : WriteRequest) (ip : Bool) (hprev : w.prev = some P) (hlimit : P.limit = w.offset)
      (hfull : ip = false → P.count = cs)
      (hroom : ip = true → P.isIp = true ∧ P.count < cs ∧ w.offset = o ∧
        ∀ r ∈ w.passed, r.limit < o)
      (hskipped : ∀ r ∈ w.skipped, r.limit < w.offset)
      (hleft : N = leftoverBehind cs ip after w.offset w.buf.length)
  /-- `prev_req` has taken bytes of its successor where the write has to go. -/
  | grown (P : WriteRequest) (hprev : w.prev = some P) (hip : P.isIp = true) (hstart : P.offset < o)
      (hlimit : o < P.limit) (hoffset : w.offset = o) (hpassed : ∀ r ∈ w.passed, r.limit < o)
      (hskipped : ∀ r ∈ w.skipped, r.limit < o) (hleft : N = w.buf.length)
  /-- Nothing is left to store. -/
  | tidy (hbuf : w.buf = [])

/-- What a visit leaves behind, with at most `len` requests to go. No byte is lost before
the write waits. -/
def VisitLands (cs o K N : ℕ) (buf : List UInt8) (old : List WriteRequest) (len : ℕ) :
    Visit → Prop
  | .next w after => Lands cs o K buf old w after ∧ Phase cs o N w after ∧ after.length ≤ len
  | .out w after => Lands cs o K buf old w after ∧ w.buf = []
  | .restart w after => Lands cs o K buf old w after ∧ w.offset ≤ K
  | .noMemory w after => Lands cs o K buf old w after

section Walk

variable {cs o K N : ℕ} {buf : List UInt8} {old : List WriteRequest}

/-- The rest of the write ends where the write does. -/
theorem Lands.stop_eq {w : WriteState} {after : List WriteRequest}
    (h : Lands cs o K buf old w after) (hbuf : w.buf ≠ []) :
    w.offset + w.buf.length = o + buf.length := by
  have hpos : 0 < w.buf.length := List.length_pos_iff.mpr hbuf
  have hlen : w.buf.length = buf.length - (w.offset - o) := by
    rw [h.buf_eq, List.length_drop]
  have hge := h.offset_ge
  omega

/-- Bytes may only move within the list, or vanish if they were not written just now. -/
theorem Lands.congr {w w' : WriteState} {after after' : List WriteRequest}
    (h : Lands cs o K buf old w after)
    (hsized : ∀ r ∈ w'.before ++ after', 0 < r.count ∧ r.count ≤ cs)
    (hheld : ∀ x b, HeldIn w.before x b → HeldIn w'.before x b)
    (hsource : ∀ x b, HeldIn (w'.before ++ after') x b → HeldIn (w.before ++ after) x b)
    (hbuf : w'.buf = w.buf) (hoffset : w'.offset = w.offset)
    (hfileSize : w.fileSize ≤ w'.fileSize) : Lands cs o K buf old w' after' := by
  refine ⟨hsized, ?_, ?_, ?_, ?_, ?_⟩
  · intro x b h1 h2 h3 h4
    rw [hoffset] at h2
    exact hheld x b (h.held x b h1 h2 h3 h4)
  · intro x b hx hb
    exact h.source x b hx (hsource x b hb)
  · rw [hoffset]
    exact fun hlt => le_trans (h.fileSize hlt) hfileSize
  · rw [hbuf, hoffset]
    exact h.buf_eq
  · rw [hoffset]
    exact h.offset_ge

/-- The cursor moves on. -/
theorem Lands.step {w w' : WriteState} {req : WriteRequest} {after : List WriteRequest}
    (h : Lands cs o K buf old w (req :: after)) (hbefore : w'.before = w.before ++ [req])
    (hbuf : w'.buf = w.buf) (hoffset : w'.offset = w.offset) (hfileSize : w'.fileSize = w.fileSize) :
    Lands cs o K buf old w' after := by
  have hlist : w'.before ++ after = w.before ++ req :: after := by
    rw [hbefore, List.append_assoc]
    rfl
  refine h.congr ?_ ?_ ?_ hbuf hoffset hfileSize.ge
  · rw [hlist]
    exact h.sized
  · intro x b hb
    rw [hbefore, heldIn_append]
    exact Or.inl hb
  · intro x b hb
    rwa [hlist] at hb

theorem Lands.advance {w : WriteState} {req : WriteRequest} {after : List WriteRequest}
    (h : Lands cs o K buf old w (req :: after)) : Lands cs o K buf old (w.advance req) after :=
  h.step (before_advance w req) rfl rfl rfl

theorem Lands.skip {w : WriteState} {req : WriteRequest} {after : List WriteRequest}
    (h : Lands cs o K buf old w (req :: after)) :
    Lands cs o K buf old { w with skipped := w.skipped ++ [req] } after :=
  h.step (before_skip w req) rfl rfl rfl

/-- Nothing has changed but the rest of the scheduler. -/
theorem Lands.same {w w' : WriteState} {after : List WriteRequest}
    (h : Lands cs o K buf old w after) (hs : SamePlace w w') (hf : w.fileSize ≤ w'.fileSize) :
    Lands cs o K buf old w' after := by
  refine h.congr ?_ ?_ ?_ hs.buf hs.offset hf
  · rw [hs.before]
    exact h.sized
  · intro x b hb
    rwa [hs.before]
  · intro x b hb
    rwa [hs.before] at hb

theorem Phase.same {w w' : WriteState} {after : List WriteRequest} (h : Phase cs o N w after)
    (hs : SamePlace w w') : Phase cs o N w' after := by
  cases h with
  | seeking hoffset hprev hpassed hskipped hleft =>
    refine .seeking (hs.offset.trans hoffset) (hs.prev.trans hprev) (hs.passed.trans hpassed) ?_ ?_
    · rwa [hs.skipped]
    · rwa [hs.buf]
  | behind P ip hprev hlimit hfull hroom hskipped hleft =>
    refine .behind P ip (hs.prev.trans hprev) (hlimit.trans hs.offset.symm) hfull ?_ ?_ ?_
    · rwa [hs.offset, hs.passed]
    · rwa [hs.offset, hs.skipped]
    · rwa [hs.offset, hs.buf]
  | grown P hprev hip hstart hlimit hoffset hpassed hskipped hleft =>
    refine .grown P (hs.prev.trans hprev) hip hstart hlimit (hs.offset.trans hoffset) ?_ ?_ ?_
    · rwa [hs.passed]
    · rwa [hs.skipped]
    · rwa [hs.buf]
  | tidy hbuf => exact .tidy (hs.buf.trans hbuf)

/-- The current request leaves the list or is cut. -/
theorem Lands.replace {w : WriteState} {req : WriteRequest} {after : List WriteRequest}
    (h : Lands cs o K buf old w (req :: after)) (new : List WriteRequest)
    (hsized : ∀ r ∈ new, 0 < r.count ∧ r.count ≤ cs)
    (hsource : ∀ x b, HeldIn new x b → req.Holds x b) : Lands cs o K buf old w (new ++ after) := by
  refine h.congr ?_ (fun x b hb => hb) ?_ rfl rfl (le_refl _)
  · intro r hr
    rcases List.mem_append.mp hr with hr | hr
    · exact h.sized r (by simp [hr])
    · rcases List.mem_append.mp hr with hr | hr
      · exact hsized r hr
      · exact h.sized r (by simp [hr])
  · intro x b hb
    simp only [heldIn_append, heldIn_cons] at hb ⊢
    rcases hb with hb | hb | hb
    · exact Or.inl hb
    · exact Or.inr (Or.inl (hsource x b hb))
    · exact Or.inr (Or.inr hb)

/-! ### The merge step -/

/-- The state after `prev_req` has become `m.dest`. -/
structure AtMerge (m : MergeResult) (w w' : WriteState) : Prop where
  passed : w'.passed = w.passed.map (promote m.promoted)
  prev : w'.prev = some m.dest
  skipped : w'.skipped = w.skipped.map (promote m.promoted)
  buf : w'.buf = w.buf
  offset : w'.offset = w.offset
  fileSize : w.fileSize ≤ w'.fileSize

theorem mergeStep_some {w : WriteState} {P : WriteRequest} (hprev : w.prev = some P)
    (req : WriteRequest) (after : List WriteRequest) :
    ∃ w', AtMerge (mergeRequests cs P req) w w' ∧ mergeStep cs w req after
      = (if (mergeRequests cs P req).ret = 2 then none
          else some (decide ((mergeRequests cs P req).ret = 1), (mergeRequests cs P req).src),
        w', after.map (promote (mergeRequests cs P req).promoted)) := by
  set m := mergeRequests cs P req
  have hmerged : AtMerge m w (w.merged m req after) := by
    refine ⟨rfl, rfl, rfl, rfl, rfl, ?_⟩
    show w.fileSize ≤ if m.updated then max w.fileSize m.dest.limit else w.fileSize
    split
    · exact le_max_left _ _
    · exact le_refl _
  unfold mergeStep
  simp only [hprev]
  by_cases hret : m.ret = 2
  · rcases release_samePlace (w.merged m req after) req with ⟨hs, hf⟩
    refine ⟨(w.merged m req after).release req, ⟨?_, ?_, ?_, ?_, ?_, ?_⟩, ?_⟩
    · exact hs.passed
    · exact hs.prev
    · exact hs.skipped
    · exact hs.buf
    · exact hs.offset
    · rw [hf]
      exact hmerged.fileSize
    · rw [if_pos hret, if_pos hret]
  · refine ⟨w.merged m req after, hmerged, ?_⟩
    rw [if_neg hret, if_neg hret]

/-- A merge keeps what was written just now. -/
theorem Lands.merged {w w' : WriteState} {P req : WriteRequest} {after : List WriteRequest}
    (h : Lands cs o K buf old w (req :: after)) (hprev : w.prev = some P)
    (hm : AtMerge (mergeRequests cs P req) w w') :
    Lands cs o K buf old w' ((if (mergeRequests cs P req).ret = 2 then []
      else [(mergeRequests cs P req).src]) ++
        after.map (promote (mergeRequests cs P req).promoted)) := by
  have hspec := mergeRequests_holds cs P req
  set m := mergeRequests cs P req
  have hbefore : w.before = w.passed ++ (P :: w.skipped) := by
    simp [WriteState.before, hprev]
  have hbefore' : w'.before = w.passed.map (promote m.promoted)
      ++ (m.dest :: w.skipped.map (promote m.promoted)) := by
    simp [WriteState.before, hm.prev, hm.passed, hm.skipped]
  have hP := h.sized P (by simp [hbefore])
  have hreq := h.sized req (by simp)
  refine h.congr ?_ ?_ ?_ hm.buf hm.offset hm.fileSize
  · intro r hr
    rw [hbefore', List.append_assoc, List.mem_append, List.cons_append, List.mem_cons,
      List.mem_append, List.mem_append] at hr
    -- a promoted request has the size it had
    have hmap : ∀ l : List WriteRequest, (∀ s ∈ l, s ∈ w.before ++ req :: after) →
        r ∈ l.map (promote m.promoted) → 0 < r.count ∧ r.count ≤ cs := by
      intro l hl hr
      rcases List.mem_map.mp hr with ⟨s, hs, rfl⟩
      simpa using h.sized s (hl s hs)
    rcases hr with hr | rfl | hr | hr | hr
    · exact hmap _ (fun s hs => by simp [hbefore, hs]) hr
    · have hge := hspec.dest_ge
      have hoff := hspec.dest_offset
      unfold WriteRequest.limit at hge
      exact ⟨by omega, hspec.dest_count hP.2⟩
    · exact hmap _ (fun s hs => by simp [hbefore, hs]) hr
    · by_cases hret : m.ret = 2
      · simp [hret] at hr
      · rw [if_neg hret, List.mem_singleton] at hr
        subst hr
        have hk := hspec.kept hret
        exact ⟨hk.1 hreq.1, le_trans hk.2.1 hreq.2⟩
    · exact hmap _ (fun s hs => by simp [hs]) hr
  · intro x b hb
    rw [hbefore']
    rw [hbefore] at hb
    simp only [heldIn_append, heldIn_cons, heldIn_map_promote] at hb ⊢
    rcases hb with hb | hb | hb
    · exact Or.inl hb
    · exact Or.inr (Or.inl (hspec.keeps x b hb))
    · exact Or.inr (Or.inr hb)
  · intro x b hb
    have hsrc : HeldIn (if m.ret = 2 then [] else [m.src]) x b → req.Holds x b := by
      intro hs
      by_cases hret : m.ret = 2
      · simp [hret] at hs
      · rw [if_neg hret, heldIn_cons] at hs
        rcases hs with hs | hs
        · exact (hspec.kept hret).2.2.2.2.2 x b hs
        · exact absurd hs (heldIn_nil x b)
    rw [hbefore'] at hb
    rw [hbefore]
    simp only [heldIn_append, heldIn_cons, heldIn_map_promote] at hb ⊢
    rcases hb with (hb | hb | hb) | hb | hb
    · exact Or.inl (Or.inl hb)
    · rcases hspec.source x b hb with hb | hb
      · exact Or.inl (Or.inr (Or.inl hb))
      · exact Or.inr (Or.inl hb)
    · exact Or.inl (Or.inr (Or.inr hb))
    · exact Or.inr (Or.inl (hsrc hb))
    · exact Or.inr (Or.inr hb)

/-! ### Storing bytes -/

/-- A new request takes one cache block of the rest, and the write goes on as if it had
taken all. -/
theorem Lands.inserted {w w' : WriteState} {new : WriteRequest} {after : List WriteRequest}
    (h : Lands cs o K buf old w after) (hcs : 0 < cs) (hK : K + (N - cs) = o + buf.length)
    (hbuf : w.buf ≠ []) (hleft : N = w.buf.length) (hnoffset : new.offset = w.offset)
    (hndata : new.data = w.buf.take cs) (hbefore : w'.before = w.before ++ [new])
    (hbuf' : w'.buf = []) (hoffset : w'.offset = w.offset + w.buf.length)
    (hsize : w.offset + (w.buf.take cs).length ≤ w'.fileSize) : Lands cs o K buf old w' after := by
  have hstop := h.stop_eq hbuf
  have hlen : 0 < w.buf.length := List.length_pos_iff.mpr hbuf
  have hge := h.offset_ge
  have hncount : new.count = min cs w.buf.length := by
    unfold WriteRequest.count
    rw [hndata, List.length_take]
  -- the new request ends at `K`
  have hnlimit : w.offset + (w.buf.take cs).length = K := by
    rw [List.length_take]
    omega
  have htake : (w.buf.take cs).length = min cs w.buf.length := List.length_take
  refine ⟨?_, ?_, ?_, ?_, ?_, ?_⟩
  · intro r hr
    rw [hbefore, List.append_assoc, List.mem_append, List.mem_append, List.mem_singleton] at hr
    rcases hr with hr | rfl | hr
    · exact h.sized r (List.mem_append_left _ hr)
    · omega
    · exact h.sized r (List.mem_append_right _ hr)
  · intro x b h1 h2 h3 hb
    rw [hbefore, heldIn_append]
    by_cases hx : x < w.offset
    · exact Or.inl (h.held x b h1 hx h3 hb)
    · refine Or.inr ⟨new, by simp, by omega, ?_⟩
      rw [hndata, List.getElem?_take_of_lt (by omega), hnoffset, h.buf_eq, List.getElem?_drop]
      rwa [show w.offset - o + (x - w.offset) = x - o by omega]
  · intro x b hx hb
    apply h.source x b hx
    rw [hbefore, List.append_assoc] at hb
    simp only [heldIn_append, heldIn_cons, heldIn_nil, or_false] at hb ⊢
    rcases hb with hb | hb | hb
    · exact Or.inl hb
    · -- the new request has nothing from `K` on
      have hlt := hb.lt_limit
      unfold WriteRequest.limit at hlt
      omega
    · exact Or.inr hb
  · intro _
    refine le_trans (min_le_right _ _) ?_
    rwa [← hnlimit]
  · rw [hbuf', List.drop_of_length_le (by omega)]
  · omega

/-- "Insert request(s) before the current one". -/
theorem insertBefore_lands {w : WriteState} {req : WriteRequest} {after : List WriteRequest}
    (hK : K + (N - cs) = o + buf.length) (hbuf : w.buf ≠ []) (hleft : N = w.buf.length)
    (h : Lands cs o K buf old w (req :: after)) :
    VisitLands cs o K N buf old after.length (insertBefore cs w req after) := by
  have hreq := h.sized req (by simp)
  have hnew := insertNewRequest_stored cs w.buf w.offset false w
  unfold insertBefore
  cases hins : insertNewRequest cs w.buf w.offset false w with
  | noMemory w' =>
    rw [hins] at hnew
    exact h.same hnew.1 hnew.2.ge
  | wait w' =>
    rw [hins] at hnew
    have hstop := h.stop_eq hbuf
    have hoff := hnew.1.offset
    exact ⟨h.same hnew.1 hnew.2.ge, by omega⟩
  | inserted new w' =>
    rw [hins] at hnew
    rcases hnew with ⟨hs, hsize, hnoff, hndata, -⟩
    dsimp only
    set w₂ : WriteState := { w'.advance new with buf := [], offset := w'.offset + w'.buf.length }
    have hbefore : w₂.before = w.before ++ [new] := by
      rw [← hs.before]
      exact before_advance w' new
    have hoffset : w₂.offset = w.offset + w.buf.length := by
      show w'.offset + w'.buf.length = _
      rw [hs.offset, hs.buf]
    have hfile : w.offset + (w.buf.take cs).length ≤ w₂.fileSize := by
      show _ ≤ w'.fileSize
      rw [hsize]
      exact le_max_right _ _
    have h₂ : Lands cs o K buf old w₂ (req :: after) :=
      h.inserted (lt_of_lt_of_le hreq.1 hreq.2) hK hbuf hleft hnoff hndata hbefore rfl hoffset hfile
    have hprev : w₂.prev = some new := rfl
    rcases mergeStep_some hprev req after with ⟨w₃, hm, heq⟩
    have h₃ := h₂.merged hprev hm
    have hbuf₃ : w₃.buf = [] := hm.buf
    rw [heq]
    set m := mergeRequests cs new req
    by_cases hret : m.ret = 2
    · rw [if_pos hret] at h₃ ⊢
      exact ⟨by simpa using h₃, .tidy hbuf₃, by simp⟩
    · rw [if_neg hret] at h₃ ⊢
      unfold finishVisit
      dsimp only
      split
      · exact ⟨h₃.advance, hbuf₃⟩
      · exact ⟨h₃.advance, .tidy hbuf₃, by simp⟩

/-- Which bytes an updated request holds. -/
theorem updateRequest_holds (cs : ℕ) (rest : List UInt8) {offset : ℕ} {req : WriteRequest}
    (hlo : req.offset ≤ offset) (hhi : offset ≤ req.limit) (x : ℕ) (b : UInt8) :
    (updateRequest cs rest offset req).2.1.Holds x b ↔
      (offset ≤ x ∧ (rest.take (updateRequest cs rest offset req).1)[x - offset]? = some b) ∨
        (x < offset ∨ offset + (updateRequest cs rest offset req).1 ≤ x) ∧ req.Holds x b := by
  have hu := updateRequest_spec cs rest hlo hhi
  set u := updateRequest cs rest offset req
  have htaken := hu.taken
  have hshort : (rest.take u.1).length = u.1 := by
    rw [List.length_take]
    omega
  rw [holds_iff, holds_iff, hu.map_eq, hu.isIp_eq]
  by_cases hin : offset ≤ x ∧ x < offset + u.1
  · have hlt : x - offset < (rest.take u.1).length := by omega
    rw [bytesMap, if_pos hin.1, List.getElem?_eq_getElem hlt]
    simp only [Option.map_some, Option.some_or, Option.some.injEq, Prod.mk.injEq, true_and, hin.1]
    constructor
    · exact Or.inl
    · rintro (hb | ⟨hb, -⟩)
      · exact hb
      · omega
  · rw [bytesMap_eq_none_iff.mpr (by omega), Option.none_or]
    constructor
    · exact fun hb => Or.inr ⟨by omega, hb⟩
    · rintro (⟨hle, hb⟩ | ⟨-, hb⟩)
      · have hlt := (List.getElem?_eq_some_iff.mp hb).1
        omega
      · exact hb

/-- The current request takes bytes of the write; `N` of the others are left over. -/
theorem Lands.updated {w w' : WriteState} {req : WriteRequest} {after : List WriteRequest}
    (h : Lands cs o K buf old w (req :: after)) (hK : K + (N - cs) = o + buf.length)
    (hbuf : w.buf ≠ []) (hlo : req.offset ≤ w.offset) (hhi : w.offset ≤ req.limit)
    (hleft : N ≤ w.buf.length - (updateRequest cs w.buf w.offset req).1)
    (hbefore : w'.before = w.before.map (promote (updateRequest cs w.buf w.offset req).2.2)
      ++ [(updateRequest cs w.buf w.offset req).2.1])
    (hbuf' : w'.buf = w.buf.drop (updateRequest cs w.buf w.offset req).1)
    (hoffset : w'.offset = w.offset + (updateRequest cs w.buf w.offset req).1)
    (hsize : (updateRequest cs w.buf w.offset req).2.1.limit ≤ w'.fileSize) :
    Lands cs o K buf old w'
      (after.map (promote (updateRequest cs w.buf w.offset req).2.2)) := by
  have hstop := h.stop_eq hbuf
  have hlen : 0 < w.buf.length := List.length_pos_iff.mpr hbuf
  have hreq := h.sized req (by simp)
  have hge := h.offset_ge
  have hu := updateRequest_spec cs w.buf hlo hhi
  have hbytes := updateRequest_holds cs w.buf hlo hhi
  set u := updateRequest cs w.buf w.offset req
  have htaken := hu.taken
  have hulimit := hu.limit_eq
  have huoff := hu.offset_eq
  have hcount : u.2.1.limit = u.2.1.offset + u.2.1.count := rfl
  have hreqlimit : req.limit = req.offset + req.count := rfl
  refine ⟨?_, ?_, ?_, ?_, ?_, ?_⟩
  · intro r hr
    have hmap : ∀ l : List WriteRequest, (∀ s ∈ l, s ∈ w.before ++ req :: after) →
        r ∈ l.map (promote u.2.2) → 0 < r.count ∧ r.count ≤ cs := by
      intro l hl hr
      rcases List.mem_map.mp hr with ⟨s, hs, rfl⟩
      simpa using h.sized s (hl s hs)
    rw [hbefore, List.append_assoc, List.mem_append, List.mem_append, List.mem_singleton] at hr
    rcases hr with hr | rfl | hr
    · exact hmap _ (fun s hs => by simp [hs]) hr
    · omega
    · exact hmap _ (fun s hs => by simp [hs]) hr
  · intro x b h1 h2 h3 hb
    rw [hbefore]
    simp only [heldIn_append, heldIn_map_promote, heldIn_cons, heldIn_nil, or_false]
    by_cases hx : x < w.offset
    · exact Or.inl (h.held x b h1 hx h3 hb)
    · -- a byte of the write that was stored just now
      refine Or.inr ((hbytes x b).mpr (Or.inl ⟨by omega, ?_⟩))
      rw [List.getElem?_take_of_lt (by omega), h.buf_eq, List.getElem?_drop]
      rwa [show w.offset - o + (x - w.offset) = x - o by omega]
  · intro x b hx hb
    apply h.source x b hx
    rw [hbefore] at hb
    simp only [heldIn_append, heldIn_map_promote, heldIn_cons, heldIn_nil, or_false] at hb ⊢
    rcases hb with (hb | hb) | hb
    · exact Or.inl hb
    · rcases (hbytes x b).mp hb with ⟨hle, hnew⟩ | ⟨-, hold⟩
      · -- the request does not take bytes from `K` on
        have hlt := (List.getElem?_eq_some_iff.mp hnew).1
        rw [List.length_take] at hlt
        omega
      · exact Or.inr (Or.inl hold)
    · exact Or.inr (Or.inr hb)
  · intro _
    refine le_trans (min_le_left _ _) ?_
    omega
  · rw [hbuf', hoffset, h.buf_eq, List.drop_drop]
    congr 1
    omega
  · omega

/-- "Update this request with bytes from the new write": it takes what its cache block has
room for. -/
theorem updateVisit_lands {w : WriteState} {req : WriteRequest} {after : List WriteRequest}
    (hK : K + (N - cs) = o + buf.length) (hbuf : w.buf ≠ []) (hlo : req.offset ≤ w.offset)
    (hhi : w.offset ≤ req.limit) (hroom : w.offset < req.offset + cs)
    (hleft : N = if w.buf.length ≤ req.offset + cs - w.offset then 0 else
      leftoverBehind cs false after (req.offset + cs) (w.buf.length - (req.offset + cs - w.offset)))
    (h : Lands cs o K buf old w (req :: after)) :
    VisitLands cs o K N buf old after.length (updateVisit cs w req after) := by
  have hreq := h.sized req (by simp)
  have hu := updateRequest_spec cs w.buf hlo hhi
  have htaken := hu.taken
  have hulimit := hu.limit_eq
  have huoff := hu.offset_eq
  have hreqlimit : req.limit = req.offset + req.count := rfl
  -- what is left over afterwards is at most what was not taken
  have hN : N ≤ w.buf.length - (updateRequest cs w.buf w.offset req).1 := by
    split at hleft
    · omega
    · have hle := leftoverBehind_le cs after false (req.offset + cs)
        (w.buf.length - (req.offset + cs - w.offset))
      omega
  have hnext : Lands cs o K buf old
      ((w.updated (updateRequest cs w.buf w.offset req) req after).advance
        (updateRequest cs w.buf w.offset req).2.1)
      (after.map (promote (updateRequest cs w.buf w.offset req).2.2)) :=
    h.updated hK hbuf hlo hhi hN (by simp) rfl rfl (le_max_right _ _)
  unfold updateVisit
  set u := updateRequest cs w.buf w.offset req
  have hcount : u.2.1.limit = u.2.1.offset + u.2.1.count := rfl
  have hfinish : finishVisit true (w.updated u req after) u.2.1 (after.map (promote u.2.2))
      = .next ((w.updated u req after).advance u.2.1) (after.map (promote u.2.2)) := by
    unfold finishVisit
    rw [if_neg (by simp)]
  dsimp only
  rw [hfinish]
  refine ⟨hnext, ?_, by simp⟩
  by_cases hall : w.buf.length ≤ req.offset + cs - w.offset
  · refine .tidy ?_
    show w.buf.drop u.1 = []
    rw [List.drop_of_length_le (by omega)]
  · rw [if_neg hall] at hleft
    refine .behind u.2.1 false rfl ?_ (fun _ => by omega) (fun hip => absurd hip (by decide)) ?_ ?_
    · show u.2.1.limit = w.offset + u.1
      omega
    · exact fun r hr => absurd hr (List.not_mem_nil)
    · show N = leftoverBehind cs false (after.map (promote u.2.2)) (w.offset + u.1)
        (w.buf.drop u.1).length
      rw [leftoverBehind_map_promote, List.length_drop, hleft]
      congr 1
      · omega
      · omega

/-- "Truncate, split or remove this request": nothing is lost but bytes that the write
replaces. -/
theorem overlapIp_lands {w : WriteState} {req : WriteRequest} {after : List WriteRequest}
    (hK : K + (N - cs) = o + buf.length) (hbuf : w.buf ≠ []) (hlo : req.offset ≤ w.offset)
    (hhi : w.offset < req.limit) (hip : req.isIp = true)
    (hremove : w.offset = req.offset → req.limit ≤ w.offset + w.buf.length →
      Phase cs o N w after)
    (hcut : req.offset < w.offset → req.limit ≤ w.offset + w.buf.length →
      ∀ r : WriteRequest, r.limit = w.offset → r.count < cs → r.isIp = true →
        Phase cs o N (w.advance r) after)
    (hinsert : w.offset + w.buf.length < req.limit → N = w.buf.length)
    (didMerge : Bool) (h : Lands cs o K buf old w (req :: after)) :
    VisitLands cs o K N buf old after.length (overlapIp cs didMerge w req after) := by
  have hlen : 0 < w.buf.length := List.length_pos_iff.mpr hbuf
  have hreq := h.sized req (by simp)
  have hreqlimit : req.limit = req.offset + req.count := rfl
  have hcount : req.data.length = req.count := rfl
  -- the front of the request, up to the write
  set front : WriteRequest := { req with data := req.data.take (w.offset - req.offset) }
  have hfront : front.count = w.offset - req.offset := by
    show (req.data.take (w.offset - req.offset)).length = _
    rw [List.length_take]
    omega
  have hfrontlimit : front.limit = w.offset := by
    show req.offset + front.count = _
    omega
  unfold overlapIp
  dsimp only
  split
  · -- all of it goes
    rename_i hall
    rcases release_samePlace w req with ⟨hs, hf⟩
    have hs' : SamePlace w { w.release req with log := w.log ++ [⟨false, requestIp⟩] } :=
      ⟨hs.passed, hs.prev, hs.skipped, hs.buf, hs.offset⟩
    have hrest : Lands cs o K buf old w ([] ++ after) :=
      h.replace [] (by simp) (fun x b hb => absurd hb (heldIn_nil x b))
    exact ⟨hrest.same hs' hf.ge, (hremove hall.1 (by omega)).same hs', le_refl _⟩
  · split
    · -- its front goes
      rename_i hpart heq
      set rest : WriteRequest :=
        { req with offset := req.offset + w.buf.length, data := req.data.drop w.buf.length }
      have hrest : Lands cs o K buf old w ([rest] ++ after) := by
        refine h.replace [rest] ?_ ?_
        · intro r hr
          rw [List.mem_singleton] at hr
          subst hr
          show 0 < (req.data.drop w.buf.length).length ∧ (req.data.drop w.buf.length).length ≤ cs
          rw [List.length_drop]
          omega
        · intro x b hb
          rw [heldIn_cons] at hb
          exact holds_of_drop rfl rfl (hb.resolve_right (heldIn_nil x b))
      exact insertBefore_lands hK hbuf (hinsert (by omega)) hrest
    · rename_i hpart hne
      split
      · -- its end goes
        rename_i hend
        have hrest : Lands cs o K buf old w ([front] ++ after) := by
          refine h.replace [front] ?_ ?_
          · intro r hr
            rw [List.mem_singleton] at hr
            subst hr
            omega
          · intro x b hb
            rw [heldIn_cons] at hb
            exact holds_of_take (hb.resolve_right (heldIn_nil x b))
        have hnext : finishVisit didMerge w front after = .next (w.advance front) after := by
          unfold finishVisit
          rw [if_neg (by simp [hbuf])]
        rw [hnext]
        refine ⟨Lands.advance hrest, ?_, le_refl _⟩
        exact hcut (by omega) hend front hfrontlimit (by omega) hip
      · -- it is split: the end becomes a request of its own
        rename_i hend
        have hnew := insertNewRequest_stored cs (req.data.drop (w.offset - req.offset + w.buf.length))
          (req.offset + (w.offset - req.offset + w.buf.length)) true w
        revert hnew
        rcases insertNewRequest cs (req.data.drop (w.offset - req.offset + w.buf.length))
          (req.offset + (w.offset - req.offset + w.buf.length)) true w with ⟨piece, w'⟩ | w' | w'
        · rintro ⟨hs, hsize, hoff, hdata, -⟩
          dsimp only
          have hcuts : Lands cs o K buf old w ([front, piece] ++ after) := by
            refine h.replace [front, piece] ?_ ?_
            · intro r hr
              simp only [List.mem_cons, List.not_mem_nil, or_false] at hr
              rcases hr with rfl | rfl
              · omega
              · unfold WriteRequest.count
                rw [hdata, List.length_take, List.length_drop]
                omega
            · intro x b hb
              simp only [heldIn_cons, heldIn_nil, or_false] at hb
              rcases hb with hb | hb
              · exact holds_of_take hb
              · have hdrop : piece.data = req.data.drop (w.offset - req.offset + w.buf.length) := by
                  rw [hdata, List.take_of_length_le]
                  rw [List.length_drop]
                  omega
                exact holds_of_drop hoff hdrop hb
          have hplaced : Lands cs o K buf old w' (front :: piece :: after) :=
            Lands.same hcuts hs (by omega)
          have hskip := hplaced.skip
          have hfront' : ({ req with data := req.data.take (w'.offset - req.offset) } : WriteRequest)
              = front := by
            rw [hs.offset]
          rw [hfront']
          have hbuf' : w'.buf ≠ [] := by
            rw [hs.buf]
            exact hbuf
          refine insertBefore_lands hK hbuf' ?_ hskip
          show N = w'.buf.length
          rw [hs.buf]
          exact hinsert (by omega)
        · rintro ⟨hs, hsize⟩
          have hstop := h.stop_eq hbuf
          have hoff := hs.offset
          have hN := hinsert (by omega)
          exact ⟨h.same hs hsize.ge, by omega⟩
        · rintro ⟨hs, hsize⟩
          exact h.same hs hsize.ge

/-! ### One visit in each phase -/

theorem isIp_iff {r : WriteRequest} : r.isIp = true ↔ r.state = requestIp := by
  simp [WriteRequest.isIp]

/-- The write goes on before the current request. -/
theorem visit_before_lands {w : WriteState} {req : WriteRequest} {after : List WriteRequest}
    (hK : K + (N - cs) = o + buf.length) (hbuf : w.buf ≠ []) (hleft : N = w.buf.length)
    (hlt : w.offset < req.offset) (h : Lands cs o K buf old w (req :: after)) :
    VisitLands cs o K N buf old after.length (visit cs w req after) := by
  have hlimit : req.limit = req.offset + req.count := rfl
  unfold visit
  rw [if_neg (by omega), if_pos ⟨List.length_pos_iff.mpr hbuf, hlt⟩]
  exact insertBefore_lands hK hbuf hleft h

theorem visit_seeking_lands {w : WriteState} {req : WriteRequest} {after : List WriteRequest}
    (hK : K + (N - cs) = o + buf.length) (hbuf : w.buf ≠ []) (hoffset : w.offset = o)
    (hprev : w.prev = none) (hpassed : w.passed = []) (hskipped : ∀ r ∈ w.skipped, r.limit < o)
    (hleft : N = leftoverWalk cs (req :: after) o w.buf.length)
    (h : Lands cs o K buf old w (req :: after)) :
    VisitLands cs o K N buf old after.length (visit cs w req after) := by
  have hreq := h.sized req (by simp)
  have hlimit : req.limit = req.offset + req.count := rfl
  have hlen : 0 < w.buf.length := List.length_pos_iff.mpr hbuf
  by_cases hpast : req.limit < o
  · -- the request ends before the write
    rw [leftoverWalk, if_pos hpast] at hleft
    unfold visit
    rw [if_pos (by omega)]
    refine ⟨h.skip, .seeking hoffset hprev hpassed ?_ hleft, le_refl _⟩
    intro r hr
    rcases List.mem_append.mp hr with hr | hr
    · exact hskipped r hr
    · rw [List.mem_singleton] at hr
      rwa [hr]
  · rw [leftoverWalk, if_neg hpast] at hleft
    by_cases hlt : o < req.offset
    · rw [if_pos hlt] at hleft
      exact visit_before_lands hK hbuf hleft (by omega) h
    · rw [if_neg hlt] at hleft
      -- everything before the request ends before the write
      have hbefore : ∀ r ∈ w.before, r.limit < o := by
        intro r hr
        simp only [WriteState.before, hpassed, hprev, Option.toList_none, List.nil_append] at hr
        exact hskipped r hr
      have hmerge : mergeStep cs w req after = (some (false, req), w, after) := by
        simp [mergeStep, hprev]
      unfold visit
      rw [if_neg (by omega), if_neg (by omega), hmerge]
      dsimp only
      unfold overlapVisit
      rw [if_neg (by omega), if_neg (by omega)]
      by_cases hip : req.state = requestIp
      · rw [if_pos hip] at hleft
        rw [if_neg (by simp [hip])]
        by_cases hin : w.offset < req.limit
        · rw [if_pos ⟨hip, hin⟩]
          rw [if_neg (by omega)] at hleft
          refine overlapIp_lands hK hbuf (by omega) hin (isIp_iff.mpr hip) ?_ ?_ ?_ false h
          · intro heq hall
            rw [if_neg (by omega), if_pos (by omega)] at hleft
            exact .seeking hoffset hprev hpassed hskipped hleft
          · intro hpart hall r hrlimit hrcount hrip
            rw [if_neg (by omega), if_neg (by omega)] at hleft
            refine .behind r true rfl hrlimit (fun hf => absurd hf (by decide)) ?_ ?_ ?_
            · exact fun _ => ⟨hrip, hrcount, hoffset, hbefore⟩
            · exact fun r hr => absurd hr List.not_mem_nil
            · show N = leftoverBehind cs true after w.offset w.buf.length
              rw [hoffset]
              exact hleft
          · intro hend
            rwa [if_pos (by omega)] at hleft
        · -- the request for the index partition ends where the write starts
          rw [if_neg (by omega)]
          rw [if_pos (by omega)] at hleft
          unfold finishVisit
          rw [if_neg (by simp [hbuf])]
          refine ⟨h.advance, ?_, le_refl _⟩
          refine .behind req (decide (req.count < cs)) rfl (by show req.limit = w.offset; omega) ?_ ?_
            ?_ ?_
          · intro hf
            have hfull := of_decide_eq_false hf
            omega
          · exact fun hroom => ⟨isIp_iff.mpr hip, of_decide_eq_true hroom, hoffset, hbefore⟩
          · exact fun r hr => absurd hr List.not_mem_nil
          · show N = leftoverBehind cs _ after w.offset w.buf.length
            rw [hoffset]
            exact hleft
      · rw [if_neg hip] at hleft
        by_cases hfull : o = req.limit ∧ req.count = cs
        · -- a full request ends where the write starts
          rw [if_pos hfull] at hleft
          rw [if_neg (by omega), if_neg (by tauto)]
          unfold finishVisit
          rw [if_neg (by simp [hbuf])]
          refine ⟨h.advance, ?_, le_refl _⟩
          refine .behind req false rfl (by show req.limit = w.offset; omega) (fun _ => hfull.2)
            (fun hf => absurd hf (by decide)) ?_ ?_
          · exact fun r hr => absurd hr List.not_mem_nil
          · show N = leftoverBehind cs false after w.offset w.buf.length
            rw [hoffset]
            exact hleft
        · rw [if_neg hfull] at hleft
          rw [if_pos ⟨hip, by omega⟩]
          refine updateVisit_lands hK hbuf (by omega) (by omega) (by omega) ?_ h
          rw [hoffset]
          exact hleft

/-- A request that may not move to its predecessor loses the part that it shares with it. -/
theorem mergeRequests_trim {P req : WriteRequest} (hreach : req.offset ≤ P.limit)
    (hno : ¬ (sameTarget P req ∧ P.count < cs ∧ req.count > P.limit - req.offset)) :
    mergeRequests cs P req = trimSource (P.limit - req.offset) P req false none := by
  unfold mergeRequests
  rw [if_neg (by omega)]
  dsimp only
  rw [if_neg hno]

/-- The visit of a request that starts where the write goes on, after the merge. -/
theorem overlap_behind_lands {w : WriteState} {req P : WriteRequest} {after : List WriteRequest}
    {ip : Bool} (hK : K + (N - cs) = o + buf.length) (hbuf : w.buf ≠ []) (hprev : w.prev = some P)
    (hlimit : P.limit = w.offset) (hfull : ip = false → P.count = cs)
    (hroom : ip = true → P.isIp = true ∧ P.count < cs ∧ w.offset = o ∧
      ∀ r ∈ w.passed, r.limit < o)
    (hskipped : ∀ r ∈ w.skipped, r.limit < w.offset) (hstart : req.offset = w.offset)
    (hno : req.isIp = true → ip = false)
    (hleft : N = leftoverBehind cs ip (req :: after) w.offset w.buf.length) (didMerge : Bool)
    (h : Lands cs o K buf old w (req :: after)) :
    VisitLands cs o K N buf old after.length (overlapVisit cs didMerge w req after) := by
  have hreq := h.sized req (by simp)
  have hreqlimit : req.limit = req.offset + req.count := rfl
  have hlen : 0 < w.buf.length := List.length_pos_iff.mpr hbuf
  rw [leftoverBehind, if_neg (by omega), if_neg (by omega)] at hleft
  unfold overlapVisit
  rw [if_neg (by omega), if_neg (by omega)]
  by_cases hip : req.state = requestIp
  · rw [if_pos hip] at hleft
    rw [if_neg (by simp [hip]), if_pos ⟨hip, by omega⟩]
    have hipf := hno (isIp_iff.mpr hip)
    refine overlapIp_lands hK hbuf (by omega) (by omega) (isIp_iff.mpr hip) ?_ ?_ ?_ didMerge h
    · intro _ hall
      rw [if_neg (by simp [hipf]; omega)] at hleft
      exact .behind P ip hprev hlimit hfull hroom hskipped hleft
    · intro hpart
      omega
    · intro hend
      rwa [if_pos (Or.inr hend)] at hleft
  · rw [if_neg hip] at hleft
    rw [if_pos ⟨hip, by omega⟩]
    refine updateVisit_lands hK hbuf (by omega) (by omega) (by omega) ?_ h
    rw [hstart, show w.offset + cs - w.offset = cs by omega]
    exact hleft

/-- A merge into a request for the index partition promotes nothing. -/
theorem mergeRequests_promoted_dest (cs : ℕ) {P : WriteRequest} (hP : P.isIp = true)
    (req : WriteRequest) :
    (mergeRequests cs P req).promoted = none := by
  by_cases hreach : req.offset ≤ P.limit
  · by_cases hcopy : sameTarget P req ∧ P.count < cs ∧ req.count > P.limit - req.offset
    · exact mergeRequests_promoted_ip ((sameTarget_iff.mp hcopy.1).symm.trans hP)
    · rw [mergeRequests_trim hreach hcopy, trimSource_promoted]
  · unfold mergeRequests
    rw [if_pos (by omega)]

/-- Once the predecessor has grown into the place of the write, whatever is left of its
successor starts behind that place. -/
theorem grown_lands {w w' : WriteState} {req P : WriteRequest} {after : List WriteRequest}
    (hK : K + (N - cs) = o + buf.length) (hbuf : w.buf ≠ []) (hprev : w.prev = some P)
    (hip : P.isIp = true) (hstart : P.offset < o) (hoffset : w.offset = o)
    (hpassed : ∀ r ∈ w.passed, r.limit < o) (hskipped : ∀ r ∈ w.skipped, r.limit < o)
    (hleft : N = w.buf.length) (hreach : req.offset ≤ P.limit)
    (hgrow : o < (mergeRequests cs P req).dest.limit)
    (hm : AtMerge (mergeRequests cs P req) w w') (h : Lands cs o K buf old w (req :: after)) :
    VisitLands cs o K N buf old after.length
      (match (if (mergeRequests cs P req).ret = 2 then none
          else some (decide ((mergeRequests cs P req).ret = 1), (mergeRequests cs P req).src),
        w', after.map (promote (mergeRequests cs P req).promoted)) with
      | (none, w, after) => .next w after
      | (some (didMerge, req), w, after) => overlapVisit cs didMerge w req after) := by
  have h' := h.merged hprev hm
  have hspec := mergeRequests_holds cs P req
  have hnone := mergeRequests_promoted_dest cs hip req
  have hmp := hm.passed
  have hms := hm.skipped
  set m := mergeRequests cs P req
  rw [hnone, map_promote_none] at h' hmp hms
  rw [hnone, map_promote_none]
  have hbuf' : w'.buf ≠ [] := by
    rw [hm.buf]
    exact hbuf
  by_cases hret : m.ret = 2
  · rw [if_pos hret] at h' ⊢
    refine ⟨by simpa using h', ?_, le_refl _⟩
    refine .grown m.dest hm.prev (hspec.dest_isIp.trans hip) ?_ hgrow (hm.offset.trans hoffset) ?_ ?_ ?_
    · rw [hspec.dest_offset]
      exact hstart
    · rw [hmp]
      exact hpassed
    · rw [hms]
      exact hskipped
    · rw [hm.buf]
      exact hleft
  · rw [if_neg hret] at h' ⊢
    have hkept := (hspec.kept hret).2.2.2.2.1 hreach
    have hlen' : 0 < w'.buf.length := List.length_pos_iff.mpr hbuf'
    have hoff' := hm.offset
    dsimp only
    unfold overlapVisit
    rw [if_neg (by omega), if_pos (by omega)]
    refine insertBefore_lands hK hbuf' ?_ h'
    rw [hm.buf]
    exact hleft

theorem visit_behind_lands {w : WriteState} {req P : WriteRequest} {after : List WriteRequest}
    {ip : Bool} (hK : K + (N - cs) = o + buf.length) (hbuf : w.buf ≠ []) (hprev : w.prev = some P)
    (hlimit : P.limit = w.offset) (hfull : ip = false → P.count = cs)
    (hroom : ip = true → P.isIp = true ∧ P.count < cs ∧ w.offset = o ∧
      ∀ r ∈ w.passed, r.limit < o)
    (hskipped : ∀ r ∈ w.skipped, r.limit < w.offset)
    (hleft : N = leftoverBehind cs ip (req :: after) w.offset w.buf.length)
    (h : Lands cs o K buf old w (req :: after)) :
    VisitLands cs o K N buf old after.length (visit cs w req after) := by
  have hreq := h.sized req (by simp)
  have hreqlimit : req.limit = req.offset + req.count := rfl
  have hlen : 0 < w.buf.length := List.length_pos_iff.mpr hbuf
  by_cases hpast : req.limit < w.offset
  · rw [leftoverBehind, if_pos hpast.le] at hleft
    unfold visit
    rw [if_pos hpast]
    refine ⟨h.skip, .behind P ip hprev hlimit hfull hroom ?_ hleft, le_refl _⟩
    intro r hr
    rcases List.mem_append.mp hr with hr | hr
    · exact hskipped r hr
    · rw [List.mem_singleton] at hr
      rwa [hr]
  · by_cases hlt : w.offset < req.offset
    · rw [leftoverBehind, if_neg (by omega), if_pos hlt] at hleft
      exact visit_before_lands hK hbuf hleft hlt h
    · rcases mergeStep_some hprev req after with ⟨w', hm, heq⟩
      unfold visit
      rw [if_neg (by omega), if_neg (by omega), heq]
      by_cases hgrows : ip = true ∧ req.isIp = true ∧ w.offset < req.limit ∧ P.count < cs
      · -- two requests for the index partition: the first one takes bytes of the second
        rcases hgrows with ⟨hip, hreqip, hmore, hless⟩
        rcases hroom hip with ⟨hPip, -, hoffset, hpassed⟩
        rw [leftoverBehind, if_neg (by omega), if_neg hlt, if_pos (isIp_iff.mp hreqip),
          if_pos (Or.inl hip)] at hleft
        have hPpos := (h.sized P (by simp [WriteState.before, hprev])).1
        have hPlimit : P.limit = P.offset + P.count := rfl
        refine grown_lands hK hbuf hprev hPip (by omega) hoffset hpassed
          (fun r hr => hoffset ▸ hskipped r hr) hleft (by omega) ?_ hm h
        unfold mergeRequests
        rw [if_neg (by omega)]
        dsimp only
        rw [if_pos ⟨sameTarget_iff.mpr (hPip.trans hreqip.symm), hless, by omega⟩, trimSource_dest]
        have hreach : req.offset + (P.limit - req.offset) = P.limit := by omega
        have hlo : P.offset ≤ P.limit := by omega
        rw [hreach]
        have hu := updateRequest_spec cs (req.data.drop (P.limit - req.offset)) hlo (le_refl _)
        have htaken := hu.taken
        have hul := hu.limit_eq
        rw [List.length_drop] at htaken
        have hdata : req.data.length = req.count := rfl
        omega
      · -- the request only loses the part before the write
        have hno : ¬ (sameTarget P req ∧ P.count < cs ∧ req.count > P.limit - req.offset) := by
          rintro ⟨htarget, hless, hmore⟩
          have hip : ip = true := by
            by_contra hf
            have hc := hfull (by simpa using hf)
            omega
          exact hgrows ⟨hip, (sameTarget_iff.mp htarget).symm.trans (hroom hip).1, by omega, hless⟩
        have htrim := mergeRequests_trim (by omega : req.offset ≤ P.limit) hno
        have hdest : (mergeRequests cs P req).dest = P := by rw [htrim, trimSource_dest]
        have hnone : (mergeRequests cs P req).promoted = none := by rw [htrim, trimSource_promoted]
        have h' := h.merged hprev hm
        have hmp := hm.passed
        have hms := hm.skipped
        have hmprev := hm.prev
        have hcases := trimSource_cases (P.limit - req.offset) P req false none
        rw [← htrim] at hcases
        set m := mergeRequests cs P req
        rw [hnone, map_promote_none] at h' hmp hms
        rw [hdest] at hmprev
        rw [hnone, map_promote_none]
        have hroom' : ip = true → P.isIp = true ∧ P.count < cs ∧ w'.offset = o ∧
            ∀ r ∈ w'.passed, r.limit < o := by
          rw [hm.offset, hmp]
          exact hroom
        have hskipped' : ∀ r ∈ w'.skipped, r.limit < w'.offset := by
          rw [hm.offset, hms]
          exact hskipped
        rcases hcases with ⟨hret, hpos, hall⟩ | ⟨hret, hless, ht⟩
        · -- nothing is left of it
          rw [leftoverBehind, if_pos (by omega)] at hleft
          rw [if_pos hret] at h' ⊢
          refine ⟨by simpa using h', ?_, le_refl _⟩
          refine .behind P ip hmprev (hlimit.trans hm.offset.symm) hfull hroom' hskipped' ?_
          rw [hm.offset, hm.buf]
          exact hleft
        · rw [if_neg hret] at h' ⊢
          dsimp only
          have hsrcoff := ht.offset
          have hsrccount := ht.count
          have hsrclimit : m.src.limit = m.src.offset + m.src.count := rfl
          have hoff' := hm.offset
          have hmore : ¬ req.limit ≤ w.offset := by
            by_cases hz : 0 < P.limit - req.offset
            · have hlt' := hless hz
              omega
            · omega
          -- what is left of it starts where the write goes on
          refine overlap_behind_lands hK (by rw [hm.buf]; exact hbuf) hmprev
            (hlimit.trans hm.offset.symm) hfull hroom' hskipped' (by omega) ?_ ?_ _ h'
          · intro hsrc
            have hreqip : req.isIp = true := ht.isIp.symm.trans hsrc
            by_contra hf
            have hip : ip = true := by simpa using hf
            exact hgrows ⟨hip, hreqip, by omega, (hroom hip).2.1⟩
          · have hst : m.src.state = requestIp ↔ req.state = requestIp := by
              rw [← isIp_iff, ← isIp_iff, ht.isIp]
            have hlim : m.src.limit = req.limit := by omega
            have hreach : ¬ w.offset < m.src.offset := by omega
            rw [hleft, hm.offset, hm.buf]
            simp only [leftoverBehind, hlim, hst, if_neg hlt, if_neg hreach]

theorem visit_grown_lands {w : WriteState} {req P : WriteRequest} {after : List WriteRequest}
    (hK : K + (N - cs) = o + buf.length) (hbuf : w.buf ≠ []) (hprev : w.prev = some P)
    (hip : P.isIp = true) (hstart : P.offset < o) (hlimit : o < P.limit) (hoffset : w.offset = o)
    (hpassed : ∀ r ∈ w.passed, r.limit < o) (hskipped : ∀ r ∈ w.skipped, r.limit < o)
    (hleft : N = w.buf.length) (h : Lands cs o K buf old w (req :: after)) :
    VisitLands cs o K N buf old after.length (visit cs w req after) := by
  by_cases hpast : req.limit < o
  · unfold visit
    rw [if_pos (by omega)]
    refine ⟨h.skip, .grown P hprev hip hstart hlimit hoffset hpassed ?_ hleft, le_refl _⟩
    intro r hr
    rcases List.mem_append.mp hr with hr | hr
    · exact hskipped r hr
    · rw [List.mem_singleton] at hr
      rwa [hr]
  · by_cases hlt : o < req.offset
    · exact visit_before_lands hK hbuf hleft (by omega) h
    · rcases mergeStep_some hprev req after with ⟨w', hm, heq⟩
      unfold visit
      rw [if_neg (by omega), if_neg (by omega), heq]
      exact grown_lands hK hbuf hprev hip hstart hoffset hpassed hskipped hleft (by omega)
        (lt_of_lt_of_le hlimit (mergeRequests_holds cs P req).dest_ge) hm h

/-- With nothing left to store, the walk only merges. -/
theorem visit_tidy_lands {w : WriteState} {req : WriteRequest} {after : List WriteRequest}
    (hbuf : w.buf = []) (h : Lands cs o K buf old w (req :: after)) :
    VisitLands cs o K N buf old after.length (visit cs w req after) := by
  have hfinish : ∀ {w' : WriteState} {req' : WriteRequest} {after' : List WriteRequest}
      (didMerge : Bool), w'.buf = [] → after'.length = after.length →
      Lands cs o K buf old w' (req' :: after') →
      VisitLands cs o K N buf old after.length (overlapVisit cs didMerge w' req' after') := by
    intro w' req' after' didMerge hb hlen h'
    unfold overlapVisit
    rw [if_pos (by simp [hb])]
    unfold finishVisit
    split
    · exact ⟨h'.advance, hb⟩
    · exact ⟨h'.advance, .tidy hb, hlen.le⟩
  unfold visit
  split
  · exact ⟨h.skip, .tidy hbuf, le_refl _⟩
  · rw [if_neg (by simp [hbuf])]
    cases hprev : w.prev with
    | none =>
      have hmerge : mergeStep cs w req after = (some (false, req), w, after) := by
        simp [mergeStep, hprev]
      rw [hmerge]
      exact hfinish false hbuf rfl h
    | some P =>
      rcases mergeStep_some hprev req after with ⟨w', hm, heq⟩
      have h' := h.merged hprev hm
      have hbuf' : w'.buf = [] := hm.buf.trans hbuf
      rw [heq]
      set m := mergeRequests cs P req
      by_cases hret : m.ret = 2
      · rw [if_pos hret] at h' ⊢
        exact ⟨by simpa using h', .tidy hbuf', by simp⟩
      · rw [if_neg hret] at h' ⊢
        exact hfinish _ hbuf' (by simp) h'

/-- One visit keeps the invariant, in every phase. -/
theorem visit_lands (hK : K + (N - cs) = o + buf.length) {w : WriteState} {req : WriteRequest}
    {after : List WriteRequest} (h : Lands cs o K buf old w (req :: after))
    (hphase : Phase cs o N w (req :: after)) :
    VisitLands cs o K N buf old after.length (visit cs w req after) := by
  by_cases hbuf : w.buf = []
  · exact visit_tidy_lands hbuf h
  · cases hphase with
    | seeking hoffset hprev hpassed hskipped hleft =>
      exact visit_seeking_lands hK hbuf hoffset hprev hpassed hskipped hleft h
    | behind P ip hprev hlimit hfull hroom hskipped hleft =>
      exact visit_behind_lands hK hbuf hprev hlimit hfull hroom hskipped hleft h
    | grown P hprev hip hstart hlimit hoffset hpassed hskipped hleft =>
      exact visit_grown_lands hK hbuf hprev hip hstart hlimit hoffset hpassed hskipped hleft h
    | tidy hbuf' => exact absurd hbuf' hbuf

/-- So does the walk, and it ends at the end of the list if it is not interrupted. -/
theorem walk_lands (hK : K + (N - cs) = o + buf.length) (n : ℕ) :
    ∀ {w : WriteState} {after : List WriteRequest}, after.length ≤ n →
      Lands cs o K buf old w after → Phase cs o N w after →
      VisitLands cs o K N buf old 0 (walk cs n w after) := by
  induction n with
  | zero =>
    intro w after hlen h hphase
    have hnil : after = [] := List.length_eq_zero_iff.mp (Nat.le_zero.mp hlen)
    subst hnil
    rw [walk_nil]
    exact ⟨h, hphase, le_refl _⟩
  | succ n ih =>
    intro w after hlen h hphase
    cases after with
    | nil =>
      rw [walk_nil]
      exact ⟨h, hphase, le_refl _⟩
    | cons req after =>
      rw [walk_cons]
      have hvisit := visit_lands hK h hphase
      revert hvisit
      cases visit cs w req after with
      | next w' after' =>
        rintro ⟨h', hphase', hle⟩
        rw [List.length_cons] at hlen
        exact ih (by omega) h' hphase'
      | out w' after' => exact fun h => h
      | restart w' after' => exact fun h => h
      | noMemory w' after' => exact fun h => h

/-! ## The whole edit -/

/-- The invariant for a list without a cursor. -/
def LandsIn (cs o K : ℕ) (buf : List UInt8) (old l : List WriteRequest) (w : WriteState) : Prop :=
  Lands cs o K buf old { w with passed := l, prev := none, skipped := [] } []

theorem LandsIn.stop_eq {l : List WriteRequest} {w : WriteState}
    (h : LandsIn cs o K buf old l w) (hbuf : w.buf ≠ []) :
    w.offset + w.buf.length = o + buf.length := by
  have hl : Lands cs o K buf old { w with passed := l, prev := none, skipped := [] } [] := h
  exact hl.stop_eq hbuf

theorem Lands.list {w : WriteState} {after : List WriteRequest}
    (h : Lands cs o K buf old w after) : LandsIn cs o K buf old (w.before ++ after) w := by
  have hl : WriteState.before { w with passed := w.before ++ after, prev := none, skipped := [] }
      = w.before ++ after := by
    simp [WriteState.before]
  refine Lands.congr h ?_ ?_ ?_ rfl rfl (le_refl _)
  · rw [hl, List.append_nil]
    exact h.sized
  · intro x b hb
    rw [hl, heldIn_append]
    exact Or.inl hb
  · intro x b hb
    rwa [hl, List.append_nil] at hb

/-- Before anything is stored, the cursor may be anywhere in the list. -/
theorem LandsIn.split {l after : List WriteRequest} {w w' : WriteState}
    (h : LandsIn cs o K buf old l w) (hoffset : w.offset = o) (hl : w'.before ++ after = l)
    (hbuf' : w'.buf = w.buf) (hoffset' : w'.offset = w.offset) :
    Lands cs o K buf old w' after := by
  have hl' : WriteState.before { w with passed := l, prev := none, skipped := [] } ++ [] = l := by
    simp [WriteState.before]
  have hsized := h.sized
  have hsource := h.source
  rw [hl'] at hsized hsource
  refine ⟨?_, ?_, ?_, ?_, ?_, ?_⟩
  · rwa [hl]
  · intro x b h1 h2
    omega
  · rwa [hl]
  · intro hlt
    omega
  · rw [hbuf', hoffset']
    exact h.buf_eq
  · omega

/-- What an attempt leaves behind. -/
structure ResultLands (cs o K : ℕ) (buf : List UInt8) (old : List WriteRequest) (r : WriteResult) :
    Prop where
  lands : LandsIn cs o K buf old r.requests r.state
  done : r.outcome = .done → r.state.buf = []
  waits : r.outcome = .restart → r.state.offset ≤ K

theorem appendRequests_lands {l : List WriteRequest} {w : WriteState} (hcs : 0 < cs)
    (hK : K + (N - cs) = o + buf.length) (hleft : w.buf ≠ [] → N = w.buf.length)
    (h : LandsIn cs o K buf old l w) : ResultLands cs o K buf old (appendRequests cs l w) := by
  unfold appendRequests
  by_cases hbuf : w.buf = []
  · rw [if_neg (by simp [hbuf])]
    exact ⟨h, fun _ => hbuf, fun hd => (by cases hd)⟩
  · rw [if_pos (List.length_pos_iff.mpr hbuf)]
    have hnew := insertNewRequest_stored cs w.buf w.offset false w
    revert hnew
    rcases insertNewRequest cs w.buf w.offset false w with ⟨new, w'⟩ | w' | w'
    · rintro ⟨hs, hsize, hnoff, hndata, -⟩
      refine ⟨?_, fun _ => rfl, fun hd => (by cases hd)⟩
      refine Lands.inserted h hcs hK hbuf (hleft hbuf) hnoff hndata ?_ rfl ?_ ?_
      · simp [WriteState.before]
      · show w'.offset + w'.buf.length = w.offset + w.buf.length
        rw [hs.offset, hs.buf]
      · show w.offset + (w.buf.take cs).length ≤ w'.fileSize
        rw [hsize]
        exact le_max_right _ _
    · rintro ⟨hs, hsize⟩
      refine ⟨Lands.same h ⟨rfl, rfl, rfl, hs.buf, hs.offset⟩ hsize.ge, fun hd => (by cases hd), ?_⟩
      intro _
      have hstop := h.stop_eq hbuf
      have hN := hleft hbuf
      show w'.offset ≤ K
      rw [hs.offset]
      omega
    · rintro ⟨hs, hsize⟩
      exact ⟨Lands.same h ⟨rfl, rfl, rfl, hs.buf, hs.offset⟩ hsize.ge, fun hd => (by cases hd),
        fun hd => (by cases hd)⟩

/-- A write behind the last request. Before anything is stored the last request may take
bytes, afterwards it may not. -/
theorem appendAtEnd_lands {l : List WriteRequest} {w : WriteState} (hcs : 0 < cs)
    (hK : K + (N - cs) = o + buf.length) (hbuf : w.buf ≠ [])
    (hend : ∀ r, l.getLast? = some r → r.limit ≤ w.offset)
    (hleft : w.offset = o ∧ N = leftover cs l w.offset w.buf.length ∨
      N = w.buf.length ∧ ∀ r, l.getLast? = some r →
        ¬ (r.count < cs ∧ w.offset = r.limit ∧ r.state ≠ requestIp))
    (h : LandsIn cs o K buf old l w) : ResultLands cs o K buf old (appendAtEnd cs l w) := by
  unfold appendAtEnd
  cases hlast : l.getLast? with
  | none =>
    refine appendRequests_lands hcs hK (fun _ => ?_) h
    rcases hleft with ⟨-, hN⟩ | ⟨hN, -⟩
    · rwa [leftover, hlast] at hN
    · exact hN
  | some req =>
    dsimp only
    have hreq : 0 < req.count ∧ req.count ≤ cs :=
      h.sized req (by simpa [WriteState.before] using List.mem_of_getLast? hlast)
    have hreqlimit : req.limit = req.offset + req.count := rfl
    have hle := hend req hlast
    have hlen : 0 < w.buf.length := List.length_pos_iff.mpr hbuf
    split
    · rename_i htakes
      rcases htakes with ⟨hroom, hoff, hip⟩
      rcases hleft with ⟨hfirst, hN⟩ | ⟨-, hno⟩
      · -- the last request takes what it has room for
        rw [leftover, hlast] at hN
        dsimp only at hN
        rw [if_pos hle, if_pos ⟨hoff.symm, hip⟩] at hN
        rcases List.getLast?_eq_some_iff.mp hlast with ⟨before, rfl⟩
        have hw : Lands cs o K buf old { w with passed := before, prev := none, skipped := [] }
            [req] := h.split hfirst (by simp [WriteState.before]) rfl rfl
        have hlo : req.offset ≤ w.offset := by omega
        have hu := updateRequest_spec cs w.buf hlo hoff.le
        have htaken := hu.taken
        set u := updateRequest cs w.buf w.offset req
        refine appendRequests_lands hcs hK ?_ ?_
        · intro _
          show N = (w.buf.drop u.1).length
          rw [List.length_drop]
          omega
        · rw [List.dropLast_concat]
          refine hw.updated hK hbuf hlo hoff.le ?_ ?_ rfl rfl (le_max_right _ _)
          · show N ≤ w.buf.length - u.1
            omega
          · simp [WriteState.before, u]
      · exact absurd ⟨hroom, hoff, hip⟩ (hno req hlast)
    · rename_i hno
      refine appendRequests_lands hcs hK (fun _ => ?_) h
      rcases hleft with ⟨-, hN⟩ | ⟨hN, -⟩
      · rw [leftover, hlast] at hN
        dsimp only at hN
        rw [if_pos hle] at hN
        split at hN
        · rename_i hat
          have hfull : req.count = cs := by
            by_contra hne
            exact hno ⟨by omega, hat.1.symm, hat.2⟩
          omega
        · exact hN
      · exact hN

theorem leftoverWalk_skip {l : List WriteRequest} {offset : ℕ} (h : ∀ r ∈ l, r.limit < offset)
    (l' : List WriteRequest) (size : ℕ) :
    leftoverWalk cs (l ++ l') offset size = leftoverWalk cs l' offset size := by
  induction l with
  | nil => rfl
  | cons r rest ih =>
    rw [List.cons_append, leftoverWalk, if_pos (h r (by simp))]
    exact ih fun s hs => h s (by simp [hs])

/-- The last request before the cursor. -/
theorem last_cases {w : WriteState} {P r : WriteRequest} (hprev : w.prev = some P)
    (hlast : w.before.getLast? = some r) : r = P ∨ r ∈ w.skipped := by
  have hbefore : w.before = w.passed ++ (P :: w.skipped) := by
    simp [WriteState.before, hprev]
  have hsome : (P :: w.skipped).getLast? = some r := by
    rw [hbefore, List.getLast?_append, List.getLast?_cons] at hlast
    rw [List.getLast?_cons]
    simpa using hlast
  have hmem := List.mem_of_getLast? hsome
  rcases List.mem_cons.mp hmem with h | h
  · exact Or.inl h
  · exact Or.inr h

/-- A finished attempt has stored everything up to `K`, an interrupted one everything up to
where it goes on. -/
theorem doAppend_lands (hcs : 0 < cs) (hK : K + (N - cs) = o + buf.length) (fuel : ℕ) :
    ∀ {l : List WriteRequest} {w : WriteState}, w.buf ≠ [] →
      (w.offset = o ∧ N = leftover cs l w.offset w.buf.length ∨
        N = w.buf.length ∧ ∀ r, l.getLast? = some r → r.limit ≤ w.offset ∧
          ¬ (r.count < cs ∧ w.offset = r.limit ∧ r.state ≠ requestIp)) →
      LandsIn cs o K buf old l w → ResultLands cs o K buf old (doAppend cs fuel l w) := by
  induction fuel with
  | zero => exact fun _ _ h => ⟨h, fun hd => (by cases hd), fun hd => (by cases hd)⟩
  | succ fuel ih =>
    intro l w hbuf hleft h
    unfold doAppend
    dsimp only
    by_cases hend : ∀ r, l.getLast? = some r → r.limit ≤ w.offset
    · -- the write starts behind the last request
      rw [if_pos]
      · refine appendAtEnd_lands hcs hK hbuf hend ?_ h
        rcases hleft with hfirst | ⟨hN, hlast⟩
        · exact Or.inl hfirst
        · exact Or.inr ⟨hN, fun r hr => (hlast r hr).2⟩
      · cases hlast : l.getLast? with
        | none => exact Nat.zero_le _
        | some r => exact hend r hlast
    · -- the list has to be walked; nothing is stored yet
      have hfirst : w.offset = o ∧ N = leftover cs l w.offset w.buf.length := by
        rcases hleft with hfirst | ⟨-, hlast⟩
        · exact hfirst
        · exact absurd (fun r hr => (hlast r hr).1) hend
      obtain ⟨last, hlast, hpast⟩ : ∃ r, l.getLast? = some r ∧ w.offset < r.limit := by
        simpa using hend
      rw [if_neg (by rw [hlast]; exact Nat.not_le.mpr hpast)]
      rcases hfirst with ⟨hoff, hN⟩
      rw [leftover, hlast] at hN
      dsimp only at hN
      rw [if_neg (by omega), hoff] at hN
      have hstart : Lands cs o K buf old { w with passed := [], prev := none, skipped := [] } l :=
        h.split hoff rfl rfl rfl
      have hwalk := walk_lands hK l.length (le_refl _) hstart
        (.seeking hoff rfl rfl (fun r hr => absurd hr List.not_mem_nil) hN)
      revert hwalk
      rcases walk cs l.length { w with passed := [], prev := none, skipped := [] } l
        with ⟨w', after⟩ | ⟨w', after⟩ | ⟨w', after⟩ | ⟨w', after⟩
      · rintro ⟨h', hphase, hnil⟩
        have hnil : after = [] := List.length_eq_zero_iff.mp (Nat.le_zero.mp hnil)
        subst hnil
        dsimp only
        by_cases hbuf' : w'.buf = []
        · rw [if_neg (by simp [hbuf'])]
          exact ⟨h'.list, fun _ => hbuf', fun hd => (by cases hd)⟩
        · rw [if_pos (List.length_pos_iff.mpr hbuf')]
          refine ih hbuf' ?_ h'.list
          rw [List.append_nil]
          cases hphase with
          | seeking hoffset hprev hpassed hskipped hN' =>
            refine Or.inr ⟨hN', ?_⟩
            intro r hr
            have hmem := List.mem_of_getLast? hr
            simp only [WriteState.before, hpassed, hprev, Option.toList_none, List.nil_append] at hmem
            have hlt := hskipped r hmem
            exact ⟨by omega, by omega⟩
          | behind P ip hprev hlimit hfull hroom hskipped hN' =>
            refine Or.inr ⟨hN', ?_⟩
            intro r hr
            rcases last_cases hprev hr with rfl | hr
            · refine ⟨hlimit.le, ?_⟩
              rintro ⟨hless, -, hip⟩
              cases ip with
              | false => exact absurd (hfull rfl) hless.ne
              | true => exact hip (isIp_iff.mp (hroom rfl).1)
            · have hlt := hskipped r hr
              exact ⟨hlt.le, by omega⟩
          | grown P hprev hip hstart' hlimit hoffset hpassed hskipped hN' =>
            -- the list is walked again, and the request that has grown makes way
            refine Or.inl ⟨hoffset, ?_⟩
            rw [hN', hoffset]
            symm
            unfold leftover
            cases hlast' : w'.before.getLast? with
            | none => rfl
            | some r =>
              dsimp only
              rcases last_cases hprev hlast' with rfl | hr
              · rw [if_neg (by omega)]
                have hbefore : w'.before = w'.passed ++ (r :: w'.skipped) := by
                  simp [WriteState.before, hprev]
                rw [hbefore, leftoverWalk_skip hpassed, leftoverWalk, if_neg (by omega),
                  if_neg (by omega), if_pos (isIp_iff.mp hip), if_neg (by omega)]
                split
                · rfl
                · rw [if_neg (by omega)]
                  exact leftoverBehind_skip true _ hskipped
              · have hlt := hskipped r hr
                rw [if_pos hlt.le, if_neg (by omega)]
          | tidy hempty => exact absurd hempty hbuf'
      · rintro ⟨h', hbuf'⟩
        exact ⟨h'.list, fun _ => hbuf', fun hd => (by cases hd)⟩
      · rintro ⟨h', hle⟩
        exact ⟨h'.list, fun hd => (by cases hd), fun _ => hle⟩
      · exact fun h' => ⟨h'.list, fun hd => (by cases hd), fun hd => (by cases hd)⟩

theorem leftoverWalk_le (cs : ℕ) (l : List WriteRequest) : ∀ offset size : ℕ,
    leftoverWalk cs l offset size ≤ size := by
  induction l with
  | nil => exact fun offset size => le_refl _
  | cons r rest ih =>
    intro offset size
    unfold leftoverWalk
    split
    · exact ih offset size
    · split
      · exact le_refl _
      · split
        · split
          · exact leftoverBehind_le _ _ _ _ _
          · split
            · exact le_refl _
            · split
              · exact ih offset size
              · exact leftoverBehind_le _ _ _ _ _
        · split
          · exact leftoverBehind_le _ _ _ _ _
          · split
            · exact Nat.zero_le _
            · exact le_trans (leftoverBehind_le _ _ _ _ _) (Nat.sub_le _ _)

theorem leftover_le (cs : ℕ) (l : List WriteRequest) (offset size : ℕ) :
    leftover cs l offset size ≤ size := by
  unfold leftover
  split
  · exact le_refl _
  · split
    · split
      · exact Nat.sub_le _ _
      · exact le_refl _
    · exact leftoverWalk_le cs l offset size

/-- Where the bytes of a write are lost. -/
def lostFrom (cs : ℕ) (l : List WriteRequest) (offset size : ℕ) : ℕ :=
  offset + size - (leftover cs l offset size - cs)

/-- The whole edit, from a list without empty or oversized requests. -/
theorem doAppend_start {fuel : ℕ} {l : List WriteRequest} {w : WriteState} (hcs : 0 < cs)
    (hbuf : w.buf ≠ []) (hsized : ∀ r ∈ l, 0 < r.count ∧ r.count ≤ cs) :
    ResultLands cs w.offset (lostFrom cs l w.offset w.buf.length) w.buf l
      (doAppend cs fuel l w) := by
  have hle := leftover_le cs l w.offset w.buf.length
  refine doAppend_lands (N := leftover cs l w.offset w.buf.length) hcs ?_ fuel hbuf
    (Or.inl ⟨rfl, rfl⟩) ?_
  · unfold lostFrom
    omega
  · have hl : WriteState.before { w with passed := l, prev := none, skipped := [] } ++ [] = l := by
      simp [WriteState.before]
    refine ⟨?_, ?_, ?_, ?_, ?_, ?_⟩
    · rwa [hl]
    · intro x b h1 h2
      exact absurd h2 (Nat.not_lt.mpr h1)
    · rw [hl]
      exact fun x b _ hb => hb
    · exact fun hlt => absurd hlt (lt_irrefl _)
    · simp
    · exact le_refl _

end Walk

end Ltfs.Sched

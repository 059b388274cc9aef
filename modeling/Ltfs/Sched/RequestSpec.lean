import Ltfs.Sched.Request

/-!
# What the edits of a request list mean

A request list denotes a map from file bytes to cached bytes, each tagged with
whether it is only waiting for the index partition (`reqMap`). Here is what
`updateRequest`, `mergeRequests` and `insertNewRequest` do to that map and to
the list invariant `ReqsOk`.
-/

namespace Ltfs.Sched

open Lib Lib.Segment RequestState

/-! ## Denotation and invariant -/

/-- The request is targeted at the index partition. -/
def WriteRequest.isIp (r : WriteRequest) : Bool := decide (r.state = requestIp)

/-- Cached byte at file offset `x`. -/
def WriteRequest.value (r : WriteRequest) (x : ℕ) : Bool × UInt8 :=
  (r.isIp, r.data.getD (x - r.offset) 0)

/-- The cached bytes of a request list. -/
def reqMap (l : List WriteRequest) : ℕ → Option (Bool × UInt8) := segMap WriteRequest.value l

/-- Request list invariant: sorted, disjoint, no request empty or larger than a
cache block. -/
structure ReqsOk (cs : ℕ) (l : List WriteRequest) : Prop where
  ordered : Ordered l
  count_pos : ∀ r ∈ l, 0 < r.count
  count_le : ∀ r ∈ l, r.count ≤ cs

@[simp] theorem reqMap_nil (x : ℕ) : reqMap [] x = none := rfl

theorem reqMap_append (l l' : List WriteRequest) (x : ℕ) :
    reqMap (l ++ l') x = (reqMap l x).or (reqMap l' x) :=
  segMap_append _ l l' x

theorem reqMap_cons (r : WriteRequest) (l : List WriteRequest) (x : ℕ) :
    reqMap (r :: l) x = (reqMap [r] x).or (reqMap l x) :=
  reqMap_append [r] l x

/-- The map of one request, read off its bytes. -/
theorem reqMap_singleton (r : WriteRequest) (x : ℕ) :
    reqMap [r] x = if r.offset ≤ x then (r.data[x - r.offset]?).map (Prod.mk r.isIp) else none := by
  by_cases hc : Covers r x
  · rcases WriteRequest.covers_iff.mp hc with ⟨hle, hlt⟩
    have hlen : x - r.offset < r.data.length := by
      unfold WriteRequest.limit WriteRequest.count at hlt
      omega
    rw [reqMap, segMap_cons_pos hc, if_pos hle, WriteRequest.value, List.getD_eq_getElem?_getD,
      List.getElem?_eq_getElem hlen]
    rfl
  · rw [reqMap, segMap_cons_neg hc, segMap_nil]
    by_cases hle : r.offset ≤ x
    · have hlen : r.data.length ≤ x - r.offset := by
        rw [WriteRequest.covers_iff] at hc
        unfold WriteRequest.limit WriteRequest.count at hc
        omega
      rw [if_pos hle, List.getElem?_eq_none hlen]
      rfl
    · rw [if_neg hle]

theorem reqMap_eq_none_of_le {l : List WriteRequest} {x : ℕ} (h : ∀ r ∈ l, r.limit ≤ x) :
    reqMap l x = none :=
  segMap_eq_none_of_le h

theorem reqMap_eq_none_of_lt {l : List WriteRequest} {x : ℕ} (h : ∀ r ∈ l, x < r.offset) :
    reqMap l x = none :=
  segMap_eq_none_of_lt h

/-- `len` bytes of a write at `offset`, as a map. -/
def bytesMap (ip : Bool) (offset : ℕ) (buf : List UInt8) (x : ℕ) : Option (Bool × UInt8) :=
  if offset ≤ x then (buf[x - offset]?).map (Prod.mk ip) else none

theorem reqMap_singleton_eq (r : WriteRequest) : reqMap [r] = bytesMap r.isIp r.offset r.data :=
  funext (reqMap_singleton r)

theorem bytesMap_eq_none_iff {ip : Bool} {offset : ℕ} {buf : List UInt8} {x : ℕ} :
    bytesMap ip offset buf x = none ↔ x < offset ∨ offset + buf.length ≤ x := by
  unfold bytesMap
  by_cases h : offset ≤ x
  · rw [if_pos h, Option.map_eq_none_iff, List.getElem?_eq_none_iff]
    omega
  · rw [if_neg h]
    simp only [true_iff]
    omega

@[simp] theorem bytesMap_nil (ip : Bool) (offset x : ℕ) : bytesMap ip offset [] x = none := by
  rw [bytesMap_eq_none_iff]
  simp only [List.length_nil]
  omega

/-- The bytes of a write split at `n`. -/
theorem bytesMap_split (ip : Bool) (offset : ℕ) (buf : List UInt8) {n : ℕ} (hn : n ≤ buf.length)
    (x : ℕ) : bytesMap ip offset buf x
      = (bytesMap ip offset (buf.take n) x).or (bytesMap ip (offset + n) (buf.drop n) x) := by
  unfold bytesMap
  by_cases h1 : offset ≤ x
  · rw [if_pos h1, if_pos h1, List.getElem?_take]
    by_cases h2 : x - offset < n
    · have hlt : x - offset < buf.length := by omega
      rw [if_pos h2, List.getElem?_eq_getElem hlt]
      rfl
    · rw [if_neg h2, if_pos (by omega : offset + n ≤ x), List.getElem?_drop]
      rw [show n + (x - (offset + n)) = x - offset by omega]
      rfl
  · rw [if_neg h1, if_neg h1, if_neg (by omega)]
    rfl

/-! ## Promotion

A promotion turns `requestPartial` into `requestDp` and touches nothing else. -/

@[simp] theorem promote_offset (p : Option ℕ) (r : WriteRequest) :
    (promote p r).offset = r.offset := by
  cases p with
  | none => rfl
  | some offset =>
    simp only [promote]
    split <;> rfl

@[simp] theorem promote_data (p : Option ℕ) (r : WriteRequest) : (promote p r).data = r.data := by
  cases p with
  | none => rfl
  | some offset =>
    simp only [promote]
    split <;> rfl

@[simp] theorem promote_isIp (p : Option ℕ) (r : WriteRequest) : (promote p r).isIp = r.isIp := by
  cases p with
  | none => rfl
  | some offset =>
    simp only [promote]
    split
    · rename_i h
      simp [WriteRequest.isIp, h.1]
    · rfl

@[simp] theorem promote_limit (p : Option ℕ) (r : WriteRequest) :
    (promote p r).limit = r.limit := by
  simp only [WriteRequest.limit, WriteRequest.count, promote_offset, promote_data]

@[simp] theorem promote_count (p : Option ℕ) (r : WriteRequest) :
    (promote p r).count = r.count := by
  simp only [WriteRequest.count, promote_data]

@[simp] theorem promote_state_ip (p : Option ℕ) (r : WriteRequest) :
    (promote p r).state = requestIp ↔ r.state = requestIp := by
  have h := promote_isIp p r
  simpa [WriteRequest.isIp] using h

@[simp] theorem reqMap_map_promote (p : Option ℕ) (l : List WriteRequest) :
    reqMap (l.map (promote p)) = reqMap l := by
  funext x
  induction l with
  | nil => rfl
  | cons r l ih =>
    rw [List.map_cons, reqMap_cons, reqMap_cons r, ih, reqMap_singleton_eq, reqMap_singleton_eq,
      promote_isIp, promote_offset, promote_data]

@[simp] theorem reqMap_promote (p : Option ℕ) (r : WriteRequest) :
    reqMap [promote p r] = reqMap [r] :=
  reqMap_map_promote p [r]

theorem ReqsOk.map_promote {cs : ℕ} {l : List WriteRequest} (h : ReqsOk cs l) (p : Option ℕ) :
    ReqsOk cs (l.map (promote p)) := by
  refine ⟨?_, ?_, ?_⟩
  · have hord := h.ordered
    unfold Ordered at hord ⊢
    rw [List.pairwise_map]
    simpa using hord
  · simpa using h.count_pos
  · simpa using h.count_le

/-! ## The list invariant piece by piece -/

theorem ReqsOk.nil (cs : ℕ) : ReqsOk cs [] := ⟨ordered_nil, by simp, by simp⟩

theorem reqsOk_append {cs : ℕ} {l l' : List WriteRequest} :
    ReqsOk cs (l ++ l') ↔
      ReqsOk cs l ∧ ReqsOk cs l' ∧ ∀ r ∈ l, ∀ s ∈ l', r.limit ≤ s.offset := by
  constructor
  · rintro ⟨hord, hpos, hle⟩
    rcases ordered_append.mp hord with ⟨h1, h2, h3⟩
    exact ⟨⟨h1, fun r hr => hpos r (by simp [hr]), fun r hr => hle r (by simp [hr])⟩,
      ⟨h2, fun r hr => hpos r (by simp [hr]), fun r hr => hle r (by simp [hr])⟩, h3⟩
  · rintro ⟨h1, h2, h3⟩
    refine ⟨ordered_append.mpr ⟨h1.ordered, h2.ordered, h3⟩, ?_, ?_⟩
    · intro r hr
      rcases List.mem_append.mp hr with hr | hr
      · exact h1.count_pos r hr
      · exact h2.count_pos r hr
    · intro r hr
      rcases List.mem_append.mp hr with hr | hr
      · exact h1.count_le r hr
      · exact h2.count_le r hr

theorem reqsOk_singleton {cs : ℕ} {r : WriteRequest} :
    ReqsOk cs [r] ↔ 0 < r.count ∧ r.count ≤ cs := by
  constructor
  · intro h
    exact ⟨h.count_pos r (by simp), h.count_le r (by simp)⟩
  · rintro ⟨h1, h2⟩
    exact ⟨by simp [Ordered], by simpa using h1, by simpa using h2⟩

theorem reqsOk_cons {cs : ℕ} {r : WriteRequest} {l : List WriteRequest} :
    ReqsOk cs (r :: l) ↔
      0 < r.count ∧ r.count ≤ cs ∧ (∀ s ∈ l, r.limit ≤ s.offset) ∧ ReqsOk cs l := by
  rw [← List.singleton_append, reqsOk_append, reqsOk_singleton]
  simp only [List.mem_singleton, forall_eq]
  tauto

/-! ## Updating -/

/-- What `updateRequest` does to the request. -/
structure UpdateSpec (cs : ℕ) (buf : List UInt8) (offset : ℕ) (req : WriteRequest)
    (u : ℕ × WriteRequest × Option ℕ) : Prop where
  taken : u.1 = min buf.length (req.offset + cs - offset)
  offset_eq : u.2.1.offset = req.offset
  limit_eq : u.2.1.limit = max req.limit (offset + u.1)
  isIp_eq : u.2.1.isIp = req.isIp
  map_eq : ∀ x, reqMap [u.2.1] x
    = (bytesMap req.isIp offset (buf.take u.1) x).or (reqMap [req] x)

theorem copyInto_map {cs : ℕ} {buf : List UInt8} {offset : ℕ} {req : WriteRequest}
    (hlo : req.offset ≤ offset) (hhi : offset ≤ req.limit) (x : ℕ) :
    reqMap [(copyInto cs buf offset req).2] x
      = (bytesMap req.isIp offset (buf.take (copyInto cs buf offset req).1) x).or
          (reqMap [req] x) := by
  simp only [reqMap_singleton, copyInto, WriteRequest.isIp]
  set c := min buf.length (req.offset + cs - offset) with hc
  unfold WriteRequest.limit WriteRequest.count at hhi
  have htake : (buf.take c).length = c := by
    rw [List.length_take]
    omega
  have hfront : (req.data.take (offset - req.offset)).length = offset - req.offset := by
    rw [List.length_take]
    omega
  by_cases h1 : req.offset ≤ x
  · rw [if_pos h1, if_pos h1]
    by_cases h2 : x < offset
    · -- before the new bytes
      rw [bytesMap_eq_none_iff.mpr (Or.inl h2), List.append_assoc,
        List.getElem?_append_left (by rw [hfront]; omega), List.getElem?_take,
        if_pos (by omega)]
      rfl
    · by_cases h3 : x < offset + c
      · -- a new byte
        rw [List.getElem?_append_left (by rw [List.length_append, hfront, htake]; omega),
          List.getElem?_append_right (by rw [hfront]; omega), hfront, bytesMap,
          if_pos (by omega : offset ≤ x),
          show x - req.offset - (offset - req.offset) = x - offset by omega]
        rw [List.getElem?_eq_getElem (by rw [htake]; omega)]
        rfl
      · -- behind the new bytes
        rw [List.getElem?_append_right (by rw [List.length_append, hfront, htake]; omega),
          List.getElem?_drop, List.length_append, hfront, htake,
          bytesMap_eq_none_iff.mpr (Or.inr (by rw [htake]; omega)),
          show offset - req.offset + c + (x - req.offset - (offset - req.offset + c))
            = x - req.offset by omega]
        rfl
  · rw [if_neg h1, if_neg h1, bytesMap_eq_none_iff.mpr (Or.inl (by omega))]
    rfl

theorem copyInto_limit {cs : ℕ} {buf : List UInt8} {offset : ℕ} {req : WriteRequest}
    (hlo : req.offset ≤ offset) (hhi : offset ≤ req.limit) :
    (copyInto cs buf offset req).2.limit
      = max req.limit (offset + (copyInto cs buf offset req).1) := by
  simp only [WriteRequest.limit, WriteRequest.count, copyInto, List.length_append,
    List.length_take, List.length_drop] at hhi ⊢
  omega

theorem updateRequest_spec (cs : ℕ) (buf : List UInt8) {offset : ℕ} {req : WriteRequest}
    (hlo : req.offset ≤ offset) (hhi : offset ≤ req.limit) :
    UpdateSpec cs buf offset req (updateRequest cs buf offset req) := by
  unfold updateRequest
  by_cases hbuf : buf.length = 0
  · rw [if_pos hbuf]
    have hnil : buf = [] := List.eq_nil_of_length_eq_zero hbuf
    subst hnil
    refine ⟨by simp, rfl, by simp only; omega, rfl, ?_⟩
    intro x
    simp
  · rw [if_neg hbuf]
    refine ⟨rfl, by simp [copyInto], ?_, by simp [copyInto, WriteRequest.isIp], ?_⟩
    · simpa using copyInto_limit hlo hhi
    · intro x
      simpa using copyInto_map hlo hhi x

/-! ## Merging -/

theorem sameTarget_iff {dest src : WriteRequest} :
    sameTarget dest src ↔ dest.isIp = src.isIp := by
  unfold sameTarget WriteRequest.isIp
  cases dest.state <;> cases src.state <;> simp

/-- Dropping the front of `src` does not show where `d` covers it. -/
theorem reqMap_trim {d src src' : WriteRequest} {n : ℕ} (hstart : d.offset ≤ src.offset)
    (hn : src.offset + n ≤ d.limit) (hle : n ≤ src.count) (hip : src'.isIp = src.isIp)
    (hoff : src'.offset = src.offset + n) (hdata : src'.data = src.data.drop n) (x : ℕ) :
    (reqMap [d] x).or (reqMap [src'] x) = (reqMap [d] x).or (reqMap [src] x) := by
  cases hd : reqMap [d] x with
  | some v => rfl
  | none =>
    have hout : x < d.offset ∨ d.limit ≤ x := by
      rw [reqMap_singleton_eq, bytesMap_eq_none_iff] at hd
      unfold WriteRequest.limit WriteRequest.count
      exact hd
    have hfront : bytesMap src.isIp src.offset (src.data.take n) x = none := by
      rw [bytesMap_eq_none_iff, List.length_take]
      omega
    rw [reqMap_singleton_eq src', reqMap_singleton_eq src, hip, hoff, hdata,
      bytesMap_split src.isIp src.offset src.data hle x, hfront, Option.none_or, Option.none_or]

/-- What `mergeRequests` does: `dest` may grow into `src`, what is left of `src`
starts behind it, and the bytes stay the same. -/
structure MergeSpec (cs : ℕ) (dest src : WriteRequest) (m : MergeResult) : Prop where
  dest_offset : m.dest.offset = dest.offset
  dest_isIp : m.dest.isIp = dest.isIp
  dest_ge : dest.limit ≤ m.dest.limit
  dest_le : m.dest.limit ≤ max dest.limit src.limit
  dest_count : m.dest.count ≤ cs
  not_updated : m.updated = false → m.dest = dest
  freed : m.ret = 2 → m.dest.limit = max dest.limit src.limit ∧
    ∀ x, reqMap [m.dest] x = (reqMap [dest] x).or (reqMap [src] x)
  kept : m.ret ≠ 2 → m.src.offset = max src.offset m.dest.limit ∧
    m.src.limit = src.limit ∧ 0 < m.src.count ∧ m.src.isIp = src.isIp ∧
    ∀ x, (reqMap [m.dest] x).or (reqMap [m.src] x) = (reqMap [dest] x).or (reqMap [src] x)
  untouched : m.ret = 0 → m.src.data = src.data ∧ m.src.offset = src.offset

@[simp] theorem trimSource_dest (n : ℕ) (dest src : WriteRequest) (b : Bool) (p : Option ℕ) :
    (trimSource n dest src b p).dest = dest := by
  unfold trimSource
  split
  · split
    · dsimp only
      split <;> rfl
    · rfl
  · rfl

@[simp] theorem trimSource_updated (n : ℕ) (dest src : WriteRequest) (b : Bool) (p : Option ℕ) :
    (trimSource n dest src b p).updated = b := by
  unfold trimSource
  split
  · split
    · dsimp only
      split <;> rfl
    · rfl
  · rfl

/-- Trimming the part of `src` that `d` reaches into. -/
theorem trimSource_spec {d src : WriteRequest} (hstart : d.offset ≤ src.offset)
    (hreach : src.offset ≤ d.limit) (hpos : 0 < src.count) (b : Bool) (p : Option ℕ) :
    let m := trimSource (d.limit - src.offset) d src b p
    (m.ret = 2 → src.limit ≤ d.limit ∧
      ∀ x, reqMap [d] x = (reqMap [d] x).or (reqMap [src] x)) ∧
    (m.ret ≠ 2 → m.src.offset = max src.offset d.limit ∧ m.src.limit = src.limit ∧
      0 < m.src.count ∧ m.src.isIp = src.isIp ∧
      ∀ x, (reqMap [d] x).or (reqMap [m.src] x) = (reqMap [d] x).or (reqMap [src] x)) ∧
    (m.ret = 0 → m.src.data = src.data ∧ m.src.offset = src.offset) := by
  intro m
  have hm : m = trimSource (d.limit - src.offset) d src b p := rfl
  clear_value m
  unfold trimSource at hm
  by_cases hzero : d.limit - src.offset > 0
  · rw [if_pos hzero] at hm
    by_cases hlt : d.limit - src.offset < src.count
    · -- the front of `src` goes
      rw [if_pos hlt] at hm
      have hsrc : m.ret = 1 ∧ m.src.offset = src.offset + (d.limit - src.offset) ∧
          m.src.data = src.data.drop (d.limit - src.offset) ∧ m.src.isIp = src.isIp := by
        dsimp only at hm
        split at hm
        · rename_i hdp
          subst hm
          exact ⟨rfl, rfl, rfl, by simp [WriteRequest.isIp, hdp]⟩
        · subst hm
          exact ⟨rfl, rfl, rfl, rfl⟩
      rcases hsrc with ⟨hret, hoff, hdata, hip⟩
      have hcount : m.src.count = src.count - (d.limit - src.offset) := by
        unfold WriteRequest.count
        rw [hdata, List.length_drop]
      refine ⟨by omega, fun _ => ⟨by omega, ?_, by omega, hip, ?_⟩, by omega⟩
      · have h1 : m.src.limit = m.src.offset + m.src.count := rfl
        have h2 : src.limit = src.offset + src.count := rfl
        omega
      · intro x
        exact reqMap_trim hstart (by omega) (by omega) hip hoff hdata x
    · -- `src` lies inside `d`
      rw [if_neg hlt] at hm
      subst hm
      have hle : src.limit ≤ d.limit := by
        have : src.limit = src.offset + src.count := rfl
        omega
      refine ⟨fun _ => ⟨hle, ?_⟩, by simp, by simp⟩
      intro x
      cases hd : reqMap [d] x with
      | some v => rfl
      | none =>
        have hout := hd
        rw [reqMap_singleton_eq, bytesMap_eq_none_iff] at hout
        have hnone : reqMap [src] x = none := by
          rw [reqMap_singleton_eq, bytesMap_eq_none_iff]
          unfold WriteRequest.limit WriteRequest.count at hle
          omega
        rw [hnone]
        rfl
  · rw [if_neg hzero] at hm
    subst hm
    refine ⟨by simp, fun _ => ⟨by simp only; omega, rfl, hpos, rfl, fun _ => rfl⟩, ?_⟩
    exact fun _ => ⟨rfl, rfl⟩

/-- Bytes of `src` copied to the end of `dest` do not show in front of `src`. -/
theorem reqMap_update_src {dest src d : WriteRequest} {n c : ℕ}
    (hd : ∀ x, reqMap [d] x
      = (bytesMap dest.isIp (src.offset + n) ((src.data.drop n).take c) x).or (reqMap [dest] x))
    (hip : dest.isIp = src.isIp) (hmid : src.offset + n = dest.limit) (hc : n + c ≤ src.count)
    (x : ℕ) :
    (reqMap [d] x).or (reqMap [src] x) = (reqMap [dest] x).or (reqMap [src] x) := by
  rw [hd x, hip]
  have hlen : ((src.data.drop n).take c).length = c := by
    unfold WriteRequest.count at hc
    rw [List.length_take, List.length_drop]
    omega
  cases hb : bytesMap src.isIp (src.offset + n) ((src.data.drop n).take c) x with
  | none => rw [Option.none_or]
  | some v =>
    -- a copied byte: behind `dest`, and the same byte of `src`
    have hin : ¬ (x < src.offset + n ∨ src.offset + n + c ≤ x) := by
      intro h
      have hnone : bytesMap src.isIp (src.offset + n) ((src.data.drop n).take c) x = none := by
        rw [bytesMap_eq_none_iff, hlen]
        exact h
      rw [hnone] at hb
      cases hb
    have hdest : reqMap [dest] x = none := by
      apply reqMap_eq_none_of_le
      intro r hr
      rw [List.mem_singleton.mp hr]
      omega
    have hfront : bytesMap src.isIp src.offset (src.data.take n) x = none := by
      rw [bytesMap_eq_none_iff, List.length_take]
      omega
    have hsrc : reqMap [src] x = some v := by
      unfold WriteRequest.count at hc
      rw [reqMap_singleton_eq, bytesMap_split src.isIp src.offset src.data (by omega : n ≤ _) x,
        hfront, Option.none_or,
        bytesMap_split src.isIp _ (src.data.drop n) (n := c) (by rw [List.length_drop]; omega) x, hb]
      rfl
    rw [hdest, hsrc]
    rfl

theorem mergeRequests_spec {cs : ℕ} {dest src : WriteRequest} (hstart : dest.offset ≤ src.offset)
    (hpos : 0 < src.count) (hdest : dest.count ≤ cs) :
    MergeSpec cs dest src (mergeRequests cs dest src) := by
  unfold mergeRequests
  by_cases hfar : src.offset > dest.limit
  · -- a gap between the two
    rw [if_pos hfar]
    exact ⟨rfl, rfl, le_refl _, le_max_left _ _, hdest, fun _ => rfl, by simp,
      fun _ => ⟨(max_eq_left hfar.le).symm, rfl, hpos, rfl, fun _ => rfl⟩, fun _ => ⟨rfl, rfl⟩⟩
  · rw [if_neg hfar]
    have hreach : src.offset ≤ dest.limit := by omega
    dsimp only
    set n := dest.limit - src.offset with hn
    have hmid : src.offset + n = dest.limit := by omega
    by_cases hcopy : sameTarget dest src ∧ dest.count < cs ∧ src.count > n
    · rw [if_pos hcopy]
      rcases hcopy with ⟨htarget, hroom, hmore⟩
      rw [sameTarget_iff] at htarget
      have hlim : dest.limit = dest.offset + dest.count := rfl
      have hlo : dest.offset ≤ src.offset + n := by omega
      have hu := updateRequest_spec cs (src.data.drop n) hlo (by omega)
      set u := updateRequest cs (src.data.drop n) (src.offset + n) dest with hudef
      have htaken : u.1 = min (src.count - n) (cs - dest.count) := by
        rw [hu.taken, List.length_drop]
        unfold WriteRequest.count
        unfold WriteRequest.count at hlim
        omega
      have hdlim : u.2.1.limit = dest.limit + u.1 := by
        have := hu.limit_eq
        omega
      have hmap : ∀ x, (reqMap [u.2.1] x).or (reqMap [src] x)
          = (reqMap [dest] x).or (reqMap [src] x) := by
        intro x
        exact reqMap_update_src hu.map_eq htarget hmid (by omega) x
      have htotal : n + u.1 = u.2.1.limit - src.offset := by omega
      have hslim : src.limit = src.offset + src.count := rfl
      have hulim : u.2.1.limit = u.2.1.offset + u.2.1.count := rfl
      have hoff := hu.offset_eq
      rw [htotal]
      have hstart' : u.2.1.offset ≤ (promote u.2.2 src).offset := by
        rw [promote_offset]
        omega
      rcases trimSource_spec hstart' (by rw [promote_offset]; omega) (by simpa using hpos) true
        u.2.2 with ⟨h1, h2, h3⟩
      simp only [promote_limit, promote_offset, promote_isIp, promote_data, reqMap_promote] at h1 h2 h3
      refine ⟨by simpa using hoff, by simpa using hu.isIp_eq, ?_, ?_, ?_, by simp, ?_, ?_, h3⟩
      · rw [trimSource_dest]
        omega
      · rw [trimSource_dest]
        omega
      · rw [trimSource_dest]
        omega
      · intro hret
        rcases h1 hret with ⟨hle, hm⟩
        rw [trimSource_dest]
        refine ⟨by omega, fun x => ?_⟩
        rw [hm x, hmap x]
      · intro hret
        rcases h2 hret with ⟨k1, k2, k3, k4, k5⟩
        rw [trimSource_dest]
        refine ⟨k1, k2, k3, k4, fun x => ?_⟩
        rw [k5 x, hmap x]
    · rw [if_neg hcopy]
      rcases trimSource_spec hstart hreach hpos false none with ⟨h1, h2, h3⟩
      refine ⟨by simp, by simp, by simp, by simp, by simpa using hdest, by simp, ?_, ?_, h3⟩
      · intro hret
        rcases h1 hret with ⟨hle, hmap⟩
        simp only [trimSource_dest]
        exact ⟨by omega, hmap⟩
      · simpa using h2

end Ltfs.Sched

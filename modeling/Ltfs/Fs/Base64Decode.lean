import Ltfs.Lib.Base64

/-!
# The base64 decoder

`base64_decode` of `base64.c`. One pass over the input looks for characters out of place and counts
the blanks; a second one puts the rest together, four characters at a time.

* `base64Decode` — the decoder; a read in front of its input is the error `wildRead`.
* `base64Decode_eq_ok_iff` — what it accepts: with the blanks taken out, the text of a byte string;
  no blank may stand behind padding.
* `base64Decode_meets` — the decoder against the standard encoding.
* `base64Decode_lines` — it undoes the encoding, whatever line breaks stand before the groups.
-/

namespace Ltfs.Fs

open Lib.Base64

/-! ## The decoder -/

/-- `base64_decode` fails, or reads outside of its input. -/
inductive Base64Error where
  | invalid
  | wildRead
deriving DecidableEq, Repr

/-- The blanks that the decoder skips. -/
def base64Blank (c : UInt8) : Bool := c == 0x0D || c == 0x0A || c == 0x20 || c == 0x09

/-- "Check for out-of-place '=' and invalid characters", from a place of the input on; `prev` is the
character before it. Returns `nequal` and `nbytes_real`. -/
def base64Check : Option UInt8 → List UInt8 → ℕ → ℕ → Except Base64Error (ℕ × ℕ)
  | _, [], nequal, nreal => .ok (nequal, nreal)
  | prev, c :: rest, nequal, nreal =>
    if rest = [pad] ∧ c = pad then
      base64Check (some c) rest 2 nreal
    else if rest = [] ∧ c = pad then
      match prev with
      | none => .error .wildRead
      | some p => base64Check (some c) rest (if p ≠ pad then 1 else nequal) nreal
    else if base64Blank c then
      base64Check (some c) rest nequal (nreal - 1)
    else if digitValue c = none then
      .error .invalid
    else
      base64Check (some c) rest nequal nreal

/-- `base64_dec`, with `UCHAR_MAX` for what is no digit. -/
def base64Dec (c : UInt8) : ℕ := (digitValue c).getD 255

/-- The output for one full `cur_quad`. -/
def base64Quad (q₀ q₁ q₂ q₃ : ℕ) : List UInt8 :=
  UInt8.ofNat (q₀ * 4 + q₁ % 64 / 16) ::
    if q₂ = 255 then []
    else UInt8.ofNat (q₁ % 16 * 16 + q₂ % 64 / 4) ::
      if q₃ = 255 then [] else [UInt8.ofNat (q₂ % 4 * 64 + q₃)]

/-- "Generate output". -/
def base64Output : List UInt8 → List UInt8
  | a :: b :: c :: d :: rest =>
    base64Quad (base64Dec a) (base64Dec b) (base64Dec c) (base64Dec d) ++ base64Output rest
  | _ => []

/-- `base64_decode`: the size it returns and its output buffer. -/
def base64Decode (enc : List UInt8) : Except Base64Error (ℕ × List UInt8) :=
  if enc = [] then .error .invalid
  else
    match base64Check none enc 0 enc.length with
    | .error e => .error e
    | .ok (nequal, nreal) =>
      if nreal % 4 ≠ 0 then .error .invalid
      else .ok (3 * (nreal / 4) - nequal, base64Output (enc.filter fun c => !base64Blank c))

/-! ## The passes -/

theorem base64Dec_digit {n : ℕ} (h : n < 64) : base64Dec (digit n) = n := by
  rw [base64Dec, digitValue_digit n h, Option.getD_some]

theorem base64Dec_pad : base64Dec pad = 255 := by
  rw [base64Dec, digitValue_pad, Option.getD_none]

/-- A digit is no blank. -/
theorem base64Blank_digit : ∀ n < 64, base64Blank (digit n) = false := by decide +kernel

theorem digit_ne_pad {n : ℕ} (h : n < 64) : digit n ≠ pad :=
  ne_pad_of_digitValue (digitValue_digit n h)

theorem base64Check_digit {n : ℕ} (h : n < 64) (prev : Option UInt8) (rest : List UInt8)
    (nequal nreal : ℕ) :
    base64Check prev (digit n :: rest) nequal nreal
      = base64Check (some (digit n)) rest nequal nreal := by
  rw [base64Check.eq_def]
  dsimp only
  rw [if_neg (fun hc => digit_ne_pad h hc.2), if_neg (fun hc => digit_ne_pad h hc.2),
    if_neg (by simp [base64Blank_digit n h]), if_neg (by simp [digitValue_digit n h])]

theorem base64Check_blank {c : UInt8} (h : base64Blank c = true) (prev : Option UInt8)
    (rest : List UInt8) (nequal nreal : ℕ) :
    base64Check prev (c :: rest) nequal nreal
      = base64Check (some c) rest nequal (nreal - 1) := by
  have hne : c ≠ pad := by
    rintro rfl
    exact absurd h (by decide)
  rw [base64Check.eq_def]
  dsimp only
  rw [if_neg (fun hc => hne hc.2), if_neg (fun hc => hne hc.2), if_pos h]

/-- Padding is accepted at the end. -/
theorem base64Check_pad {p : UInt8} (hp : p ≠ pad) (nequal nreal : ℕ) :
    base64Check (some p) [pad] nequal nreal = .ok (1, nreal) := by
  rw [base64Check.eq_def]
  dsimp only
  rw [if_neg (by simp), if_pos ⟨rfl, rfl⟩, if_pos hp, base64Check]

theorem base64Check_pad_pad (prev : Option UInt8) (nequal nreal : ℕ) :
    base64Check prev [pad, pad] nequal nreal = .ok (2, nreal) := by
  rw [base64Check.eq_def]
  dsimp only
  rw [if_pos ⟨rfl, rfl⟩, base64Check.eq_def]
  simp [base64Check, pad]

theorem base64Output_four (x y z w : UInt8) (rest : List UInt8) :
    base64Output (x :: y :: z :: w :: rest)
      = base64Quad (base64Dec x) (base64Dec y) (base64Dec z) (base64Dec w) ++ base64Output rest :=
  rfl

/-- The digits of three bytes give the bytes back. -/
theorem base64Quad_digits (a b c : UInt8) :
    base64Quad (a.toNat / 4) (a.toNat % 4 * 16 + b.toNat / 16) (b.toNat % 16 * 4 + c.toNat / 64)
      (c.toNat % 64) = [a, b, c] := by
  obtain ⟨-, -, h2, h3⟩ := digits_lt a b c
  have ha := a.toNat_lt
  have hb := b.toNat_lt
  have hc := c.toNat_lt
  have e0 : a.toNat / 4 * 4 + (a.toNat % 4 * 16 + b.toNat / 16) % 64 / 16 = a.toNat := by omega
  have e1 : (a.toNat % 4 * 16 + b.toNat / 16) % 16 * 16
      + (b.toNat % 16 * 4 + c.toNat / 64) % 64 / 4 = b.toNat := by omega
  have e2 : (b.toNat % 16 * 4 + c.toNat / 64) % 4 * 64 + c.toNat % 64 = c.toNat := by omega
  rw [base64Quad, if_neg (by omega), if_neg (by omega), e0, e1, e2, UInt8.ofNat_toNat,
    UInt8.ofNat_toNat, UInt8.ofNat_toNat]

/-- Two bytes and the bits that one padding character leaves over. -/
theorem base64Quad_two (a b : UInt8) {r : ℕ} (hr : r < 4) :
    base64Quad (a.toNat / 4) (a.toNat % 4 * 16 + b.toNat / 16) (b.toNat % 16 * 4 + r) 255
      = [a, b] := by
  have ha := a.toNat_lt
  have hb := b.toNat_lt
  have e0 : a.toNat / 4 * 4 + (a.toNat % 4 * 16 + b.toNat / 16) % 64 / 16 = a.toNat := by omega
  have e1 : (a.toNat % 4 * 16 + b.toNat / 16) % 16 * 16 + (b.toNat % 16 * 4 + r) % 64 / 4
      = b.toNat := by omega
  rw [base64Quad, if_neg (by omega), if_pos rfl, e0, e1, UInt8.ofNat_toNat, UInt8.ofNat_toNat]

/-- One byte and the bits that two padding characters leave over. -/
theorem base64Quad_one (a : UInt8) {r : ℕ} (hr : r < 16) :
    base64Quad (a.toNat / 4) (a.toNat % 4 * 16 + r) 255 255 = [a] := by
  have ha := a.toNat_lt
  have e0 : a.toNat / 4 * 4 + (a.toNat % 4 * 16 + r) % 64 / 16 = a.toNat := by omega
  rw [base64Quad, if_pos rfl, e0, UInt8.ofNat_toNat]

/-- The output for the text of a byte string. -/
theorem base64Output_spells {text bytes : List UInt8} (h : Spells text bytes) :
    base64Output text = bytes := by
  induction h with
  | nil => rfl
  | one a hr =>
    obtain ⟨h0, -, -, -⟩ := digits_lt a 0 0
    rw [base64Output_four, base64Dec_digit h0, base64Dec_digit (by omega), base64Dec_pad,
      base64Quad_one a hr]
    rfl
  | two a b hr =>
    obtain ⟨h0, h1, -, -⟩ := digits_lt a b 0
    rw [base64Output_four, base64Dec_digit h0, base64Dec_digit h1, base64Dec_digit (by omega),
      base64Dec_pad, base64Quad_two a b hr]
    rfl
  | three a b c _ ih =>
    obtain ⟨h0, h1, h2, h3⟩ := digits_lt a b c
    rw [base64Output_four, base64Dec_digit h0, base64Dec_digit h1, base64Dec_digit h2,
      base64Dec_digit h3, base64Quad_digits, ih]
    rfl

/-! ## Blanks -/

/-- The characters that are no blanks. -/
def significant (enc : List UInt8) : List UInt8 := enc.filter fun c => !base64Blank c

/-- No blank stands behind the first `=`. -/
def TightPadding (enc : List UInt8) : Prop := ∀ c ∈ enc.dropWhile (· != pad), base64Blank c = false

instance (enc : List UInt8) : Decidable (TightPadding enc) :=
  inferInstanceAs (Decidable (∀ c ∈ enc.dropWhile (· != pad), base64Blank c = false))

/-- The part of an accepted input in front of the padding. -/
def Plain (body : List UInt8) : Prop := ∀ c ∈ body, base64Blank c = true ∨ ∃ n < 64, c = digit n

theorem base64Blank_pad : base64Blank pad = false := by decide

theorem significant_cons {c : UInt8} {rest : List UInt8} :
    significant (c :: rest) = if base64Blank c then significant rest else c :: significant rest := by
  rw [significant, List.filter_cons]
  cases base64Blank c <;> rfl

theorem significant_append (s t : List UInt8) :
    significant (s ++ t) = significant s ++ significant t := List.filter_append ..

/-- A text without blanks. -/
theorem significant_eq_self {s : List UInt8} (h : ∀ c ∈ s, base64Blank c = false) :
    significant s = s := by
  rw [significant, List.filter_eq_self]
  intro c hc
  rw [h c hc]
  rfl

theorem significant_pads (k : ℕ) : significant (List.replicate k pad) = List.replicate k pad :=
  significant_eq_self fun c hc => by rw [List.eq_of_mem_replicate hc, base64Blank_pad]

theorem significant_blanks {s : List UInt8} (h : ∀ c ∈ s, base64Blank c = true) :
    significant s = [] := by
  rw [significant, List.filter_eq_nil_iff]
  intro c hc
  rw [h c hc]
  exact Bool.false_ne_true

theorem Plain.ne_pad {body : List UInt8} (h : Plain body) {c : UInt8} (hc : c ∈ body) :
    c ≠ pad := by
  rintro rfl
  rcases h pad hc with hblank | ⟨n, hn, hdigit⟩
  · rw [base64Blank_pad] at hblank
    cases hblank
  · exact digit_ne_pad hn hdigit.symm

theorem Plain.digits {body : List UInt8} (h : Plain body) :
    ∀ c ∈ significant body, ∃ n < 64, c = digit n := by
  intro c hc
  rw [significant, List.mem_filter] at hc
  refine (h c hc.1).resolve_left ?_
  intro hblank
  rw [hblank] at hc
  exact absurd hc.2 Bool.false_ne_true

/-- With tight padding, an input is a plain part and its padding. -/
theorem exists_plain (enc : List UInt8) : ∀ {digits : List UInt8} {k : ℕ},
    significant enc = digits ++ List.replicate k pad → (∀ c ∈ digits, ∃ n < 64, c = digit n) →
    TightPadding enc →
    ∃ body, enc = body ++ List.replicate k pad ∧ Plain body ∧ significant body = digits := by
  induction enc with
  | nil =>
    intro digits k hsig _ _
    obtain ⟨rfl, hk⟩ := List.append_eq_nil_iff.mp hsig.symm
    exact ⟨[], hk.symm, fun c hc => (nomatch hc), rfl⟩
  | cons c rest ih =>
    intro digits k hsig hdigits htight
    rw [significant_cons] at hsig
    by_cases hpad : c = pad
    · -- the padding begins: there are no blanks any more
      subst hpad
      have hnone : ∀ c ∈ pad :: rest, base64Blank c = false := by
        intro c hc
        refine htight c ?_
        rw [List.dropWhile_cons_of_neg (by simp)]
        exact hc
      have hrest : significant rest = rest :=
        significant_eq_self fun c hc => hnone c (List.mem_cons_of_mem _ hc)
      rw [base64Blank_pad, if_neg Bool.false_ne_true, hrest] at hsig
      cases digits with
      | nil => exact ⟨[], hsig, fun c hc => (nomatch hc), rfl⟩
      | cons d digits =>
        obtain ⟨n, hn, hd⟩ := hdigits d List.mem_cons_self
        rw [List.cons_append, List.cons.injEq] at hsig
        exact absurd (hd.symm.trans hsig.1.symm) (digit_ne_pad hn)
    · have htight' : TightPadding rest := by
        intro b hb
        refine htight b ?_
        rw [List.dropWhile_cons_of_pos (by simpa using hpad)]
        exact hb
      by_cases hblank : base64Blank c = true
      · rw [if_pos hblank] at hsig
        obtain ⟨body, rfl, hplain, hbody⟩ := ih hsig hdigits htight'
        refine ⟨c :: body, rfl, ?_, ?_⟩
        · exact List.forall_mem_cons.mpr ⟨.inl hblank, hplain⟩
        · rw [significant_cons, if_pos hblank, hbody]
      · rw [if_neg hblank] at hsig
        cases digits with
        | nil =>
          -- what is left is padding
          have hmem : c ∈ List.replicate k pad := by
            rw [List.nil_append] at hsig
            rw [← hsig]
            exact List.mem_cons_self
          exact absurd (List.eq_of_mem_replicate hmem) hpad
        | cons d digits =>
          rw [List.cons_append, List.cons.injEq] at hsig
          obtain ⟨hc, hsig⟩ := hsig
          rw [List.forall_mem_cons] at hdigits
          obtain ⟨body, rfl, hplain, hbody⟩ := ih hsig hdigits.2 htight'
          refine ⟨c :: body, rfl, ?_, ?_⟩
          · exact List.forall_mem_cons.mpr ⟨.inr (hc ▸ hdigits.1), hplain⟩
          · rw [significant_cons, if_neg hblank, hbody, hc]

theorem TightPadding.append_plain {body tail : List UInt8} (h : Plain body)
    (htail : TightPadding tail) : TightPadding (body ++ tail) := by
  intro c hc
  rw [List.dropWhile_append_of_pos (fun b hb => by simpa using h.ne_pad hb)] at hc
  exact htail c hc

theorem tightPadding_pads (k : ℕ) : TightPadding (List.replicate k pad) := by
  intro c hc
  have hmem := (List.dropWhile_sublist _).mem hc
  rw [List.eq_of_mem_replicate hmem, base64Blank_pad]

/-! ## The first pass -/

/-- Over the plain part the pass counts the blanks. -/
theorem base64Check_plain (body : List UInt8) : ∀ {prev : Option UInt8} (tail : List UInt8)
    (nequal nreal : ℕ), Plain body →
    base64Check prev (body ++ tail) nequal (nreal + body.length)
      = base64Check (body.getLast?.or prev) tail nequal (nreal + (significant body).length) := by
  induction body with
  | nil => exact fun _ _ _ _ => rfl
  | cons c body ih =>
    intro prev tail nequal nreal hplain
    obtain ⟨hc, hbody⟩ := List.forall_mem_cons.mp hplain
    have hlast : (c :: body).getLast?.or prev = body.getLast?.or (some c) := by
      rw [List.getLast?_cons]
      cases body.getLast? <;> rfl
    rw [hlast, significant_cons, List.cons_append]
    rcases hc with hblank | ⟨n, hn, rfl⟩
    · rw [base64Check_blank hblank, if_pos hblank, ← ih tail nequal nreal hbody, List.length_cons]
      rfl
    · rw [base64Check_digit hn, base64Blank_digit n hn, if_neg Bool.false_ne_true,
        List.length_cons, List.length_cons, ← Nat.add_assoc, Nat.add_right_comm,
        ih tail nequal (nreal + 1) hbody, Nat.add_right_comm, Nat.add_assoc]

/-- What the pass counts in a plain part and its padding. -/
theorem base64Check_append {body : List UInt8} (hplain : Plain body) {k : ℕ} (hk : k ≤ 2)
    (hbody : k = 1 → body ≠ []) :
    base64Check none (body ++ List.replicate k pad) 0 (body.length + k)
      = .ok (k, (significant body).length + k) := by
  rw [Nat.add_comm, base64Check_plain body _ 0 k hplain, Nat.add_comm k]
  obtain rfl | rfl | rfl : k = 0 ∨ k = 1 ∨ k = 2 := by omega
  · rfl
  · -- the last character in front of a single padding character is none
    have hlast := List.getLast?_eq_some_getLast (hbody rfl)
    rw [hlast]
    exact base64Check_pad (hplain.ne_pad (List.getLast_mem _)) 0 _
  · exact base64Check_pad_pad _ 0 _

/-- An input that passes is a plain part and at most two padding characters. -/
theorem base64Check_eq_ok (enc : List UInt8) : ∀ {prev : Option UInt8}
    {nequal nreal : ℕ} {r : ℕ × ℕ}, base64Check prev enc nequal nreal = .ok r →
    ∃ body k, enc = body ++ List.replicate k pad ∧ Plain body ∧ k ≤ 2 ∧
      (k = 1 → body ≠ [] ∨ prev ≠ none) := by
  induction enc with
  | nil => exact fun _ => ⟨[], 0, rfl, fun c hc => (nomatch hc), by omega, by omega⟩
  | cons c rest ih =>
    intro prev nequal nreal r h
    rw [base64Check.eq_def] at h
    dsimp only at h
    split at h
    · -- the first of two padding characters
      rename_i hc
      rw [hc.1, hc.2]
      exact ⟨[], 2, rfl, fun c hc => (nomatch hc), Nat.le_refl 2, by omega⟩
    · split at h
      · -- a padding character at the end
        rename_i hc
        rw [hc.1, hc.2]
        refine ⟨[], 1, rfl, fun c hc => (nomatch hc), by omega, fun _ => .inr ?_⟩
        rintro rfl
        cases h
      · have hcons : base64Blank c = true ∨ (∃ n < 64, c = digit n) →
            (∃ n, base64Check (some c) rest nequal n = .ok r) →
            ∃ body k, c :: rest = body ++ List.replicate k pad ∧ Plain body ∧ k ≤ 2 ∧
              (k = 1 → body ≠ [] ∨ prev ≠ none) := by
          rintro hc ⟨_, h⟩
          obtain ⟨body, k, rfl, hplain, hk, _⟩ := ih h
          exact ⟨c :: body, k, rfl, List.forall_mem_cons.mpr ⟨hc, hplain⟩, hk,
            fun _ => .inl (List.cons_ne_nil _ _)⟩
        split at h
        · rename_i hblank
          exact hcons (.inl hblank) ⟨_, h⟩
        · split at h
          · cases h
          · rename_i hdigit
            obtain ⟨n, hn⟩ := Option.ne_none_iff_exists'.mp hdigit
            obtain ⟨hlt, hd⟩ := digit_of_digitValue hn
            exact hcons (.inr ⟨n, hlt, hd.symm⟩) ⟨_, h⟩

/-! ## The decoder -/

/-- What the decoder accepts, and what it makes of it: without its blanks the input is the text of
a byte string, and there are no blanks in its padding. -/
theorem base64Decode_eq_ok_iff (enc : List UInt8) (size : ℕ) (bytes : List UInt8) :
    base64Decode enc = .ok (size, bytes) ↔
      enc ≠ [] ∧ TightPadding enc ∧ Spells (significant enc) bytes ∧ size = bytes.length := by
  constructor
  · intro h
    unfold base64Decode at h
    split at h
    · cases h
    · rename_i hne
      split at h
      · cases h
      · rename_i k' nreal hcheck
        split at h
        · cases h
        · rename_i hfour
          obtain ⟨body, k, rfl, hplain, hk, hbody⟩ := base64Check_eq_ok enc hcheck
          have hbody' : k = 1 → body ≠ [] := fun hk1 => (hbody hk1).resolve_right (by simp)
          rw [List.length_append, List.length_replicate, base64Check_append hplain hk hbody'] at hcheck
          simp only [Except.ok.injEq, Prod.mk.injEq] at hcheck h
          obtain ⟨rfl, rfl⟩ := hcheck
          have hsig : significant (body ++ List.replicate k pad)
              = significant body ++ List.replicate k pad := by
            rw [significant_append, significant_pads]
          obtain ⟨m, hm⟩ : ∃ m, (significant body).length + k = 4 * m :=
            ⟨((significant body).length + k) / 4, by omega⟩
          obtain ⟨bytes', hspells, hpadding⟩ := exists_spells m hplain.digits hk hm
          have hout := base64Output_spells hspells
          obtain ⟨m', hlen, hthree⟩ := hspells.length
          rw [List.length_append, List.length_replicate] at hlen
          rw [← significant, hsig, hout] at h
          obtain ⟨hsize, rfl⟩ := h
          refine ⟨hne, .append_plain hplain (tightPadding_pads k), hsig ▸ hspells, ?_⟩
          rw [← hsize]
          omega
  · rintro ⟨hne, htight, hspells, rfl⟩
    obtain ⟨digits, hdigits, hdigit⟩ := hspells.digits
    obtain ⟨body, henc, hplain, hbody⟩ := exists_plain enc hdigits hdigit htight
    obtain ⟨m, hlen, hthree⟩ := hspells.length
    have hk := padding_le bytes
    have hbody' : padding bytes = 1 → body ≠ [] := by
      rintro hone rfl
      rw [hdigits, ← hbody, hone] at hlen
      simp [significant] at hlen
      omega
    have hcheck := base64Check_append hplain hk hbody'
    rw [hdigits, List.length_append, List.length_replicate, ← hbody] at hlen
    have hout := base64Output_spells hspells
    have hreal : enc.length = body.length + padding bytes := by
      rw [henc, List.length_append, List.length_replicate]
    rw [← henc, ← hreal] at hcheck
    rw [base64Decode, if_neg hne, hcheck]
    dsimp only
    rw [if_neg (by omega), ← significant, hout]
    congr 2
    omega


/-- The size that the decoder returns is the number of bytes in its buffer. -/
theorem base64Decode_size {enc : List UInt8} {size : ℕ} {bytes : List UInt8}
    (h : base64Decode enc = .ok (size, bytes)) : bytes.length = size :=
  ((base64Decode_eq_ok_iff enc size bytes).mp h).2.2.2.symm

/-! ## Lines -/

/-- Groups in lines are the same text without the breaks, and no break stands in the padding. The
induction follows the groups. -/
theorem lines_groups (value : List UInt8) : ∀ {breaks : List (List UInt8)},
    (∀ br ∈ breaks, ∀ c ∈ br, base64Blank c = true) →
    significant (lines breaks (groups value)) = encode value ∧
      TightPadding (lines breaks (groups value)) := by
  have hhead : ∀ {breaks : List (List UInt8)}, (∀ br ∈ breaks, ∀ c ∈ br, base64Blank c = true) →
      ∀ c ∈ breaks.headD [], base64Blank c = true := by
    intro breaks hbreaks c hc
    cases breaks with
    | nil => cases hc
    | cons br _ => exact hbreaks br List.mem_cons_self c hc
  -- one group: its break and its digits, in front of the rest
  have hgroup : ∀ {blanks digits tail : List UInt8}, (∀ c ∈ blanks, base64Blank c = true) →
      (∀ c ∈ digits, ∃ n < 64, c = digit n) → TightPadding tail →
      significant (blanks ++ (digits ++ tail)) = digits ++ significant tail ∧
        TightPadding (blanks ++ (digits ++ tail)) := by
    intro blanks digits tail hblanks hdigits htail
    constructor
    · have hself : significant digits = digits := by
        refine significant_eq_self fun c hc => ?_
        obtain ⟨n, hn, rfl⟩ := hdigits c hc
        exact base64Blank_digit n hn
      rw [significant_append, significant_append, significant_blanks hblanks, hself,
        List.nil_append]
    · exact .append_plain (fun c hc => .inl (hblanks c hc))
        (.append_plain (fun c hc => .inr (hdigits c hc)) htail)
  induction value using groups.induct with
  | case1 => exact fun _ => ⟨rfl, fun c hc => absurd hc List.not_mem_nil⟩
  | case2 a =>
    intro breaks hbreaks
    obtain ⟨h0, -, -, -⟩ := digits_lt a 0 0
    refine @hgroup (breaks.headD []) [digit (a.toNat / 4), digit (a.toNat % 4 * 16)] [pad, pad]
      (hhead hbreaks) ?_ (tightPadding_pads 2)
    rw [List.forall_mem_cons, List.forall_mem_singleton]
    exact ⟨⟨_, h0, rfl⟩, _, by omega, rfl⟩
  | case3 a b =>
    intro breaks hbreaks
    obtain ⟨h0, h1, -, -⟩ := digits_lt a b 0
    refine @hgroup (breaks.headD []) [digit (a.toNat / 4),
      digit (a.toNat % 4 * 16 + b.toNat / 16), digit (b.toNat % 16 * 4)] [pad]
      (hhead hbreaks) ?_ (tightPadding_pads 1)
    rw [List.forall_mem_cons, List.forall_mem_cons, List.forall_mem_singleton]
    exact ⟨⟨_, h0, rfl⟩, ⟨_, h1, rfl⟩, _, by omega, rfl⟩
  | case4 a b c rest ih =>
    intro breaks hbreaks
    obtain ⟨h0, h1, h2, h3⟩ := digits_lt a b c
    obtain ⟨hsig, htight⟩ := @ih breaks.tail fun br hbr => hbreaks br (List.mem_of_mem_tail hbr)
    have h := @hgroup (breaks.headD []) [digit (a.toNat / 4),
      digit (a.toNat % 4 * 16 + b.toNat / 16), digit (b.toNat % 16 * 4 + c.toNat / 64),
      digit (c.toNat % 64)] _ (hhead hbreaks) ?_ htight
    · rw [hsig] at h
      exact h
    · simp only [List.forall_mem_cons]
      exact ⟨⟨_, h0, rfl⟩, ⟨_, h1, rfl⟩, ⟨_, h2, rfl⟩, ⟨_, h3, rfl⟩, fun c hc => absurd hc List.not_mem_nil⟩

/-- The decoder undoes the encoding, whatever line breaks stand before the groups. -/
theorem base64Decode_lines {value : List UInt8} (hne : value ≠ []) {breaks : List (List UInt8)}
    (hbreaks : ∀ br ∈ breaks, ∀ c ∈ br, base64Blank c = true) :
    base64Decode (lines breaks (groups value)) = .ok (value.length, value) := by
  obtain ⟨hsig, htight⟩ := lines_groups value hbreaks
  rw [base64Decode_eq_ok_iff, hsig]
  refine ⟨?_, htight, spells_encode value, rfl⟩
  intro hnil
  rw [hnil] at hsig
  have hout := base64Output_spells (spells_encode value)
  rw [← hsig] at hout
  exact hne hout.symm

/-! ## Reads and writes -/

/-- The check reads in front of its input only for a single padding character. -/
theorem base64Check_ne_wildRead (enc : List UInt8) : ∀ {p : UInt8} {nequal nreal : ℕ},
    base64Check (some p) enc nequal nreal ≠ .error .wildRead := by
  induction enc with
  | nil => exact fun h => (nomatch h)
  | cons c rest ih =>
    intro p nequal nreal h
    rw [base64Check.eq_def] at h
    dsimp only at h
    split at h
    · exact ih h
    · split at h
      · exact ih h
      · split at h
        · exact ih h
        · split at h
          · cases h
          · exact ih h

theorem base64Decode_wildRead_iff (enc : List UInt8) :
    base64Decode enc = .error .wildRead ↔ enc = [pad] := by
  constructor
  · intro h
    unfold base64Decode at h
    split at h
    · cases h
    · rename_i hne
      split at h
      · rename_i e hcheck
        rw [Except.error.injEq] at h
        rw [h] at hcheck
        obtain ⟨c, rest, rfl⟩ := List.exists_cons_of_ne_nil hne
        rw [base64Check.eq_def] at hcheck
        dsimp only at hcheck
        split at hcheck
        · exact absurd hcheck (base64Check_ne_wildRead _)
        · split at hcheck
          · rename_i hc
            rw [hc.1, hc.2]
          · split at hcheck
            · exact absurd hcheck (base64Check_ne_wildRead _)
            · split at hcheck
              · cases hcheck
              · exact absurd hcheck (base64Check_ne_wildRead _)
      · split at h
        · cases h
        · cases h
  · rintro rfl
    rfl

/-- The places of the output that one full `cur_quad` writes to, from `out_pos` on. -/
def base64QuadWrites (outPos q₀ q₁ q₂ q₃ : ℕ) : List (UInt8 × ℕ) :=
  (base64Quad q₀ q₁ q₂ q₃).zipIdx outPos

/-- What "generate output" writes, and where. -/
def base64Writes : ℕ → List UInt8 → List (UInt8 × ℕ)
  | outPos, a :: b :: c :: d :: rest =>
    base64QuadWrites outPos (base64Dec a) (base64Dec b) (base64Dec c) (base64Dec d)
      ++ base64Writes (outPos + 3) rest
  | _, _ => []

/-- For the text of a byte string, the bytes are written one behind the other. -/
theorem base64Writes_spells {text bytes : List UInt8} (h : Spells text bytes) :
    ∀ outPos, base64Writes outPos text = bytes.zipIdx outPos := by
  induction h with
  | nil => exact fun _ => rfl
  | one a hr =>
    intro outPos
    obtain ⟨h0, -, -, -⟩ := digits_lt a 0 0
    rw [base64Writes, base64QuadWrites, base64Dec_digit h0, base64Dec_digit (by omega),
      base64Dec_pad, base64Quad_one a hr]
    rfl
  | two a b hr =>
    intro outPos
    obtain ⟨h0, h1, -, -⟩ := digits_lt a b 0
    rw [base64Writes, base64QuadWrites, base64Dec_digit h0, base64Dec_digit h1,
      base64Dec_digit (by omega), base64Dec_pad, base64Quad_two a b hr]
    rfl
  | three a b c _ ih =>
    obtain ⟨h0, h1, h2, h3⟩ := digits_lt a b c
    intro outPos
    rw [base64Writes, base64QuadWrites, base64Dec_digit h0, base64Dec_digit h1, base64Dec_digit h2,
      base64Dec_digit h3, base64Quad_digits, ih]
    rfl

/-! ## The standard encoding -/

/-- What `base64_decode` returns: 0 is an error. -/
def base64Return (enc : List UInt8) : ℕ :=
  match base64Decode enc with
  | .ok (size, _) => size
  | .error _ => 0

/-- The length is reported for the text of a byte string only. -/
theorem base64Return_eq_zero {enc : List UInt8}
    (h : ¬ ∃ bytes, bytes ≠ [] ∧ Spells (significant enc) bytes) : base64Return enc = 0 := by
  unfold base64Return
  cases hdec : base64Decode enc with
  | error e => rfl
  | ok r =>
    obtain ⟨-, -, hspells, hsize⟩ := (base64Decode_eq_ok_iff enc r.1 r.2).mp hdec
    refine Decidable.byContradiction fun hne => h ⟨r.2, ?_, hspells⟩
    intro hnil
    rw [hnil] at hsize
    exact hne hsize

/-- A blank behind the first padding character makes the decoder give up, although blanks are to be
ignored. -/
theorem base64Return_not_tight {enc : List UInt8} (h : ¬ TightPadding enc) :
    base64Return enc = 0 := by
  unfold base64Return
  cases hdec : base64Decode enc with
  | error e => rfl
  | ok r => exact absurd ((base64Decode_eq_ok_iff enc r.1 r.2).mp hdec).2.1 h

/-- The decoder gives a byte string back from its standard encoding with blanks in it, none of
them behind the first padding character. It takes no text for anything else: four
characters to the group, the padding at the end; the bits that the padding leaves over may be
anything. All its writes are inside of the buffer. -/
theorem base64Decode_meets (enc : List UInt8) :
    (∀ bytes ≠ [], significant enc = encode bytes → TightPadding enc →
      base64Decode enc = .ok (bytes.length, bytes)) ∧
    ((¬ ∃ bytes, bytes ≠ [] ∧ Spells (significant enc) bytes) → base64Return enc = 0) ∧
    ∀ size bytes, base64Decode enc = .ok (size, bytes) →
      ∀ w ∈ base64Writes 0 (significant enc), w.2 < size := by
  refine ⟨?_, base64Return_eq_zero, ?_⟩
  · intro bytes hne hsig htight
    rw [base64Decode_eq_ok_iff, hsig]
    refine ⟨?_, htight, spells_encode bytes, rfl⟩
    rintro rfl
    have hout := base64Output_spells (spells_encode bytes)
    rw [← hsig] at hout
    exact hne hout.symm
  · intro size bytes hdec w hw
    obtain ⟨-, -, hspells, rfl⟩ := (base64Decode_eq_ok_iff enc size bytes).mp hdec
    rw [base64Writes_spells hspells] at hw
    have hlt := List.snd_lt_add_of_mem_zipIdx hw
    omega

/-- `base64Decode_meets` for "QU\nI=". -/
theorem base64Decode_meets_lines :
    base64Decode [0x51, 0x55, 0x0A, 0x49, 0x3D] = .ok (2, [0x41, 0x42]) :=
  (base64Decode_meets _).1 [0x41, 0x42] (by decide) (by decide +kernel) (by decide +kernel)

/-- "QR==" is read as "A", whose encoding is "QQ==". -/
theorem base64Decode_not_strict :
    ¬ ∀ enc : List UInt8,
      (∀ bytes, significant enc = encode bytes → base64Decode enc = .ok (bytes.length, bytes)) ∧
      ((¬ ∃ bytes, significant enc = encode bytes) → base64Return enc = 0) := by
  intro h
  have hzero := (h [0x51, 0x52, 0x3D, 0x3D]).2 ?_
  · revert hzero
    decide +kernel
  · rintro ⟨bytes, hbytes⟩
    have hout := base64Output_spells (spells_encode bytes)
    rw [← hbytes] at hout
    have hbyte : bytes = [0x41] := by
      rw [← hout]
      decide +kernel
    rw [hbyte] at hbytes
    revert hbytes
    decide +kernel

end Ltfs.Fs

import Ltfs.Time
import Mathlib.Data.List.TakeWhile

/-! # The text of a time stamp

`xml_format_time` writes a time stamp with `sprintf` and `xml_parse_time` reads it back with
`sscanf`. Of both only the conversions of the two format strings are modelled. The result is
`xmlParseTime_xmlFormatTime`, and with it `calendar_round_trip`.
-/

namespace Ltfs.Time

open Calendar

/-- `struct ltfs_timespec`. -/
structure LtfsTimespec where
  tvSec : ℤ
  tvNsec : ℤ
  deriving DecidableEq, Repr

def ltfsTimeTMax : ℤ := 253402300799
def ltfsTimeTMin : ℤ := -62167219200
def ltfsTimeOutOfRange : ℤ := 1
def ltfsNsecMax : ℤ := 999999999
def ltfsNsecMin : ℤ := 0

/-- `normalize_ltfs_time`. -/
def normalizeLtfsTime (t : LtfsTimespec) : ℤ × LtfsTimespec :=
  if t.tvSec > ltfsTimeTMax then (ltfsTimeOutOfRange, ⟨ltfsTimeTMax, ltfsNsecMax⟩)
  else if t.tvSec < ltfsTimeTMin then (ltfsTimeOutOfRange, ⟨ltfsTimeTMin, ltfsNsecMin⟩)
  else (0, t)

/-! ## sprintf and sscanf -/

/-- The conversion `%0<width>d`. -/
def printInt (width : ℕ) (n : ℤ) : List Char :=
  if n < 0 then '-' :: (Nat.toDigits 10 n.natAbs).leftpad (width - 1) '0'
  else (Nat.toDigits 10 n.natAbs).leftpad width '0'

/-- A directive of a `scanf` format: `%d`, `%<width>d`, or a character that is no space. -/
inductive Directive where
  | int (width : Option ℕ)
  | char (c : Char)

/-- `isspace` in the C locale. -/
def isspace (c : Char) : Bool := c = ' ' || (9 ≤ c.toNat && c.toNat ≤ 13)

/-- The characters a conversion of this width may use. -/
def scanField : Option ℕ → List Char → List Char
  | none, s => s
  | some w, s => s.take w

/-- Whether the number is negative, and the length of its sign. -/
def scanSign : List Char → Bool × ℕ
  | '-' :: _ => (true, 1)
  | '+' :: _ => (false, 1)
  | _ => (false, 0)

/-- One integer conversion: the spaces before the number do not count in its width, the sign
does. -/
def scanInt (width : Option ℕ) (s : List Char) : Option (ℤ × List Char) :=
  let s := s.dropWhile isspace
  let field := scanField width s
  let (neg, signs) := scanSign field
  let digits := (field.drop signs).takeWhile Char.isDigit
  if digits = [] then none
  else
    let n : ℤ := Nat.ofDigitChars 10 digits 0
    some (if neg then -n else n, s.drop (signs + digits.length))

/-- `sscanf`: the numbers that are assigned; it returns how many they are. -/
def sscanf : List Directive → List Char → List ℤ
  | [], _ => []
  | .char _ :: _, [] => []
  | .char c :: fmt, x :: s => if x = c then sscanf fmt s else []
  | .int width :: fmt, s =>
    match scanInt width s with
    | none => []
    | some (n, s) => n :: sscanf fmt s

/-! ## Time stamps of the index -/

/-- The format of `xml_format_time`, `"%04d-%02d-%02dT%02d:%02d:%02d.%09ldZ"`. -/
def timeText (tm : Tm) (nsec : ℤ) : List Char :=
  printInt 4 (tm.year + 1900) ++ '-' :: (printInt 2 (tm.mon + 1) ++ '-' :: (printInt 2 tm.mday ++
    'T' :: (printInt 2 tm.hour ++ ':' :: (printInt 2 tm.min ++ ':' :: (printInt 2 tm.sec ++
      '.' :: (printInt 9 nsec ++ ['Z']))))))

/-- `xml_format_time`: the result and `out`. The allocation of the buffer may fail. -/
def xmlFormatTime (calloc : Bool) (t : LtfsTimespec) : ℤ × Option (List Char) :=
  let (normalized, t) := normalizeLtfsTime t
  let tm := ltfsGmtime t.tvSec
  if calloc then (normalized, some (timeText tm t.tvNsec)) else (-1, none)

/-- The format of `xml_parse_time`, `"%d-%2d-%2dT%2d:%2d:%2d.%9ldZ"`. -/
def parseFormat : List Directive :=
  [.int none, .char '-', .int (some 2), .char '-', .int (some 2), .char 'T', .int (some 2),
    .char ':', .int (some 2), .char ':', .int (some 2), .char '.', .int (some 9), .char 'Z']

/-- `xml_parse_time`: the result and `rawtime`. The fields of `tm` that are not parsed do not
count in `ltfs_timegm`. -/
def xmlParseTime (fmtTime : List Char) (rawtime : LtfsTimespec) : ℤ × LtfsTimespec :=
  match sscanf parseFormat fmtTime with
  | [year, mon, mday, hour, min, sec, nsec] =>
    let tm : Tm :=
      { sec, min, hour, mday, mon := mon - 1, year := year - 1900,
        wday := 0, yday := 0, isdst := 0 }
    normalizeLtfsTime ⟨ltfsTimegm tm, nsec⟩
  | _ => (-1, rawtime)

/-! ## Reading back one number -/

theorem printInt_eq {width : ℕ} {n : ℤ} (hn : 0 ≤ n) :
    printInt width n = List.replicate (width - (Nat.toDigits 10 n.toNat).length) '0' ++
      Nat.toDigits 10 n.toNat := by
  unfold printInt
  rw [if_neg (by omega), List.leftpad, show n.natAbs = n.toNat by omega]

theorem length_printInt {width : ℕ} {n : ℤ} (hwidth : 0 < width) (hn : 0 ≤ n)
    (hn' : n < 10 ^ width) : (printInt width n).length = width := by
  have hlen : (Nat.toDigits 10 n.toNat).length ≤ width := by
    rw [Nat.length_toDigits_le_iff (by decide) hwidth]
    rw [Int.toNat_lt hn]
    exact_mod_cast hn'
  rw [printInt_eq hn, List.length_append, List.length_replicate]
  omega

theorem isDigit_of_mem_printInt {width : ℕ} {n : ℤ} (hn : 0 ≤ n) :
    ∀ c ∈ printInt width n, c.isDigit = true := by
  intro c hc
  rw [printInt_eq hn, List.mem_append] at hc
  rcases hc with hc | hc
  · rw [List.eq_of_mem_replicate hc]
    rfl
  · exact Nat.isDigit_of_mem_toDigits (by decide) (by decide) hc

theorem ofDigitChars_printInt {width : ℕ} {n : ℤ} (hn : 0 ≤ n) :
    (Nat.ofDigitChars 10 (printInt width n) 0 : ℤ) = n := by
  rw [printInt_eq hn, Nat.ofDigitChars_append, Nat.ofDigitChars_replicate_zero, mul_zero,
    Nat.ofDigitChars_ten_toDigits]
  omega

theorem isDigit_spec {c : Char} (hc : c.isDigit = true) :
    isspace c = false ∧ c ≠ '-' ∧ c ≠ '+' := by
  simp only [Char.isDigit, Bool.and_eq_true, decide_eq_true_eq, UInt32.le_iff_toNat_le,
    ge_iff_le] at hc
  have hrange : 48 ≤ c.toNat ∧ c.toNat ≤ 57 := hc
  refine ⟨?_, ?_, ?_⟩
  · have hblank : c ≠ ' ' := by
      rintro rfl
      simp at hrange
    simp [isspace, hblank]
    omega
  · rintro rfl
    simp at hrange
  · rintro rfl
    simp at hrange

theorem scanSign_digit {c : Char} (hc : c.isDigit = true) (s : List Char) :
    scanSign (c :: s) = (false, 0) := by
  obtain ⟨-, hminus, hplus⟩ := isDigit_spec hc
  unfold scanSign
  split
  · simp_all
  · simp_all
  · rfl

/-- A field of digits is read whole, when its width ends it or no digit follows. -/
theorem scanInt_digits {width : Option ℕ} {digits rest : List Char} (hne : digits ≠ [])
    (hdigits : ∀ c ∈ digits, c.isDigit = true)
    (hwidth : width = some digits.length ∨ width = none ∧ ∀ c ∈ rest.head?, c.isDigit = false) :
    scanInt width (digits ++ rest) = some ((Nat.ofDigitChars 10 digits 0 : ℤ), rest) := by
  obtain ⟨c, cs, rfl⟩ := List.exists_cons_of_ne_nil hne
  have hc : c.isDigit = true := hdigits c List.mem_cons_self
  -- neither spaces nor a sign stand before the digits
  have hspace : (c :: cs ++ rest).dropWhile isspace = c :: cs ++ rest := by
    rw [List.cons_append, List.dropWhile_cons_of_neg]
    simp [(isDigit_spec hc).1]
  obtain ⟨more, hfield, htake⟩ : ∃ more, scanField width (c :: cs ++ rest) = c :: more ∧
      (c :: more).takeWhile Char.isDigit = c :: cs := by
    rcases hwidth with rfl | ⟨rfl, hrest⟩
    · refine ⟨cs, List.take_left, ?_⟩
      exact List.takeWhile_eq_self_iff.mpr hdigits
    · refine ⟨cs ++ rest, rfl, ?_⟩
      rw [← List.cons_append, List.takeWhile_append_of_pos hdigits]
      cases rest with
      | nil => simp
      | cons x rest =>
        rw [List.takeWhile_cons_of_neg (by simpa using hrest x), List.append_nil]
  unfold scanInt
  simp only [hspace, hfield, scanSign_digit hc, List.drop_zero, htake]
  rw [if_neg hne, zero_add, if_neg Bool.false_ne_true, List.drop_left]

theorem scanInt_printInt {width : ℕ} {n : ℤ} (hwidth : 0 < width) (hn : 0 ≤ n)
    (hn' : n < 10 ^ width) (rest : List Char) :
    scanInt (some width) (printInt width n ++ rest) = some (n, rest) := by
  have hlen := length_printInt hwidth hn hn'
  have hne : printInt width n ≠ [] := by
    rw [← List.length_pos_iff, hlen]
    exact hwidth
  rw [scanInt_digits hne (isDigit_of_mem_printInt hn) (.inl (by rw [hlen])),
    ofDigitChars_printInt hn]

/-! ## Reading back a time stamp -/

theorem sscanf_field {width : ℕ} {n : ℤ} (hwidth : 0 < width) (hn : 0 ≤ n ∧ n < 10 ^ width)
    (c : Char) (fmt : List Directive) (s : List Char) :
    sscanf (.int (some width) :: .char c :: fmt) (printInt width n ++ c :: s) =
      n :: sscanf fmt s := by
  rw [sscanf, scanInt_printInt hwidth hn.1 hn.2]
  simp [sscanf]

/-- The year is read without a width: the minus sign ends it. -/
theorem sscanf_year {n : ℤ} (hn : 0 ≤ n ∧ n < 10 ^ 4) (fmt : List Directive) (s : List Char) :
    sscanf (.int none :: .char '-' :: fmt) (printInt 4 n ++ '-' :: s) = n :: sscanf fmt s := by
  have hlen := length_printInt (show 0 < 4 by decide) hn.1 hn.2
  have hne : printInt 4 n ≠ [] := by
    rw [← List.length_pos_iff, hlen]
    decide
  have hscan := @scanInt_digits none _ ('-' :: s) hne (isDigit_of_mem_printInt hn.1)
    (.inr ⟨rfl, by simp⟩)
  rw [sscanf, hscan, ofDigitChars_printInt hn.1]
  simp [sscanf]

theorem sscanf_timeText {tm : Tm} {nsec : ℤ} (hyear : 0 ≤ tm.year + 1900 ∧ tm.year + 1900 ≤ 9999)
    (hvalid : tm.Valid) (hnsec : 0 ≤ nsec ∧ nsec < 10 ^ 9) :
    sscanf parseFormat (timeText tm nsec) =
      [tm.year + 1900, tm.mon + 1, tm.mday, tm.hour, tm.min, tm.sec, nsec] := by
  have hmonth := monthLength_le (tm.year + 1900) tm.mon.toNat
  obtain ⟨hsec, hmin, hhour, hmon, hmday, -, -⟩ := hvalid
  unfold parseFormat timeText
  rw [sscanf_year (by omega), sscanf_field (by decide) (by omega),
    sscanf_field (by decide) (by omega), sscanf_field (by decide) (by omega),
    sscanf_field (by decide) (by omega), sscanf_field (by decide) (by omega),
    sscanf_field (by decide) hnsec]
  rfl

/-! ## The round trips -/

/-- The supported range is that of the years 0 to 9999. -/
theorem year_of_range {M : Moment} (hlow : ltfsTimeTMin ≤ sinceEpoch M)
    (hhigh : sinceEpoch M ≤ ltfsTimeTMax) : 0 ≤ M.date.year ∧ M.date.year ≤ 9999 := by
  have hday := M.date.yearday_nonneg
  have hday' := M.date.yearday_lt
  have hsucc := yearStart_succ M.date.year
  unfold ltfsTimeTMin ltfsTimeTMax sinceEpoch Moment.seconds Date.dayNumber at *
  constructor
  · by_contra hneg
    have : yearStart (M.date.year + 1) ≤ 0 := by
      unfold yearStart
      omega
    omega
  · by_contra hbig
    have : 3652425 ≤ yearStart M.date.year := by
      unfold yearStart
      omega
    omega

theorem ltfsGmtime_sinceEpoch (M : Moment) : ltfsGmtime (sinceEpoch M) = Tm.ofMoment M := by
  obtain ⟨N, hN, hgmtime⟩ := ltfsGmtime_spec (sinceEpoch M)
  rw [hgmtime, sinceEpoch_injective hN]

theorem xmlParseTime_xmlFormatTime {ts : LtfsTimespec} (rawtime : LtfsTimespec)
    (hsec : ltfsTimeTMin ≤ ts.tvSec ∧ ts.tvSec ≤ ltfsTimeTMax)
    (hnsec : 0 ≤ ts.tvNsec ∧ ts.tvNsec < 10 ^ 9) :
    ∃ s, xmlFormatTime true ts = (0, some s) ∧ xmlParseTime s rawtime = (0, ts) := by
  obtain ⟨M, hM, hgmtime⟩ := ltfsGmtime_spec ts.tvSec
  have hyear := year_of_range (M := M) (by omega) (by omega)
  have hnorm : normalizeLtfsTime ts = (0, ts) := by
    unfold normalizeLtfsTime
    rw [if_neg (by omega), if_neg (by omega)]
  have hscan : sscanf parseFormat (timeText (Tm.ofMoment M) ts.tvNsec) =
      [M.date.year - 1900 + 1900, (M.date.month : ℕ) + 1, M.date.day + 1, M.hour, M.minute,
        M.second, ts.tvNsec] :=
    sscanf_timeText (by simpa [Tm.ofMoment] using hyear) (Tm.ofMoment_valid M) hnsec
  refine ⟨timeText (Tm.ofMoment M) ts.tvNsec, ?_, ?_⟩
  · unfold xmlFormatTime
    rw [hnorm]
    simp only [hgmtime, if_true]
  · have htimegm := ltfsTimegm_spec M (by omega)
    unfold xmlParseTime
    rw [hscan]
    dsimp only
    rw [add_sub_cancel_right, add_sub_cancel_right]
    have hread : ltfsTimegm ⟨M.second, M.minute, M.hour, M.date.day + 1, (M.date.month : ℕ),
        M.date.year - 1900, 0, 0, 0⟩ = ts.tvSec := by
      rw [← hM, ← htimegm]
      rfl
    rw [hread]
    exact hnorm

/-- `ltfs_gmtime` and `ltfs_timegm` are inverse to each other on the valid times of the
supported range, and a time stamp of that range survives its text form. -/
theorem calendar_round_trip :
    (∀ t, ltfsTimeTMin ≤ t → t ≤ ltfsTimeTMax →
      (ltfsGmtime t).Valid ∧ ltfsTimegm (ltfsGmtime t) = t) ∧
    (∀ tm : Tm, tm.Valid → 0 ≤ tm.year + 1900 → tm.year + 1900 ≤ 9999 →
      ltfsGmtime (ltfsTimegm tm) = { tm with isdst := -1 }) ∧
    ∀ ts rawtime : LtfsTimespec, ltfsTimeTMin ≤ ts.tvSec → ts.tvSec ≤ ltfsTimeTMax →
      0 ≤ ts.tvNsec → ts.tvNsec < 10 ^ 9 →
      ∃ s, xmlFormatTime true ts = (0, some s) ∧ xmlParseTime s rawtime = (0, ts) := by
  refine ⟨?_, ?_, ?_⟩
  · intro t hlow hhigh
    obtain ⟨M, rfl, hgmtime⟩ := ltfsGmtime_spec t
    have hyear := year_of_range hlow hhigh
    rw [hgmtime]
    exact ⟨Tm.ofMoment_valid M, ltfsTimegm_spec M (by omega)⟩
  · intro tm hvalid hlow hhigh
    obtain ⟨M, hM⟩ := hvalid.exists_moment
    have hyear : M.date.year = tm.year + 1900 := by
      have := congrArg Tm.year hM
      simp only [Tm.ofMoment] at this
      omega
    -- the field that the moment does not have is not read
    have htimegm : ltfsTimegm tm = sinceEpoch M := by
      rw [← ltfsTimegm_spec M (by omega), ← hM]
      rfl
    rw [htimegm, hM, ltfsGmtime_sinceEpoch]
  · intro ts rawtime hlow hhigh hnsec hnsec'
    exact xmlParseTime_xmlFormatTime rawtime ⟨hlow, hhigh⟩ ⟨hnsec, hnsec'⟩

/-- 29 February of the years 2000 and 0, and the last nanosecond of the range. -/
theorem calendar_round_trip_leap_days :
    ltfsTimegm (ltfsGmtime 951782400) = 951782400 ∧
    ltfsGmtime (ltfsTimegm ⟨0, 0, 0, 29, 1, -1900, 2, 59, -1⟩) =
      ⟨0, 0, 0, 29, 1, -1900, 2, 59, -1⟩ ∧
    ∃ s, xmlFormatTime true ⟨ltfsTimeTMax, 999999999⟩ = (0, some s) ∧
      xmlParseTime s ⟨0, 0⟩ = (0, ⟨ltfsTimeTMax, 999999999⟩) :=
  ⟨(calendar_round_trip.1 951782400 (by decide) (by decide)).2,
    calendar_round_trip.2.1 ⟨0, 0, 0, 29, 1, -1900, 2, 59, -1⟩
      ⟨by decide, by decide, by decide, by decide, by decide, by decide, by decide⟩
      (by decide) (by decide),
    calendar_round_trip.2.2 ⟨ltfsTimeTMax, 999999999⟩ ⟨0, 0⟩ (by decide) (by decide)
      (by decide) (by decide)⟩

end Ltfs.Time

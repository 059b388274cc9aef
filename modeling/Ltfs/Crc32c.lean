import Ltfs.Lib.Crc
import Mathlib.Data.Nat.Digits.Defs

/-!
# The CRC-32C of a block

Drives of one kind protect every block on the way to and from the host by a CRC-32C
behind it. `crc32c_crc.c` computes it with a table, or with the instructions of
SSE 4.2, which take a word at a time once the pointer is aligned; and it computes it
in place or while copying.

* `Sse42` — what is assumed about the two instructions.
* `crc32c`, `memcpyCrc32c` — the two loops, with either engine.
* `crc32cEnc`, `crc32cCheck` and their `memcpy` variants.
* `crc32cBitwise` — the definition, bit by bit.
* `crc32c_agrees` — all ways to compute it agree, and what one host encodes another
  accepts.
-/

namespace Ltfs.Crc32c

open Lib Lib.Crc

/-! ## The table -/

/-- `crc32c_table`. -/
def crc32cTable : List (BitVec 32) := [
  0x00000000, 0xF26B8303, 0xE13B70F7, 0x1350F3F4, 0xC79A971F, 0x35F1141C,
  0x26A1E7E8, 0xD4CA64EB, 0x8AD958CF, 0x78B2DBCC, 0x6BE22838, 0x9989AB3B,
  0x4D43CFD0, 0xBF284CD3, 0xAC78BF27, 0x5E133C24, 0x105EC76F, 0xE235446C,
  0xF165B798, 0x030E349B, 0xD7C45070, 0x25AFD373, 0x36FF2087, 0xC494A384,
  0x9A879FA0, 0x68EC1CA3, 0x7BBCEF57, 0x89D76C54, 0x5D1D08BF, 0xAF768BBC,
  0xBC267848, 0x4E4DFB4B, 0x20BD8EDE, 0xD2D60DDD, 0xC186FE29, 0x33ED7D2A,
  0xE72719C1, 0x154C9AC2, 0x061C6936, 0xF477EA35, 0xAA64D611, 0x580F5512,
  0x4B5FA6E6, 0xB93425E5, 0x6DFE410E, 0x9F95C20D, 0x8CC531F9, 0x7EAEB2FA,
  0x30E349B1, 0xC288CAB2, 0xD1D83946, 0x23B3BA45, 0xF779DEAE, 0x05125DAD,
  0x1642AE59, 0xE4292D5A, 0xBA3A117E, 0x4851927D, 0x5B016189, 0xA96AE28A,
  0x7DA08661, 0x8FCB0562, 0x9C9BF696, 0x6EF07595, 0x417B1DBC, 0xB3109EBF,
  0xA0406D4B, 0x522BEE48, 0x86E18AA3, 0x748A09A0, 0x67DAFA54, 0x95B17957,
  0xCBA24573, 0x39C9C670, 0x2A993584, 0xD8F2B687, 0x0C38D26C, 0xFE53516F,
  0xED03A29B, 0x1F682198, 0x5125DAD3, 0xA34E59D0, 0xB01EAA24, 0x42752927,
  0x96BF4DCC, 0x64D4CECF, 0x77843D3B, 0x85EFBE38, 0xDBFC821C, 0x2997011F,
  0x3AC7F2EB, 0xC8AC71E8, 0x1C661503, 0xEE0D9600, 0xFD5D65F4, 0x0F36E6F7,
  0x61C69362, 0x93AD1061, 0x80FDE395, 0x72966096, 0xA65C047D, 0x5437877E,
  0x4767748A, 0xB50CF789, 0xEB1FCBAD, 0x197448AE, 0x0A24BB5A, 0xF84F3859,
  0x2C855CB2, 0xDEEEDFB1, 0xCDBE2C45, 0x3FD5AF46, 0x7198540D, 0x83F3D70E,
  0x90A324FA, 0x62C8A7F9, 0xB602C312, 0x44694011, 0x5739B3E5, 0xA55230E6,
  0xFB410CC2, 0x092A8FC1, 0x1A7A7C35, 0xE811FF36, 0x3CDB9BDD, 0xCEB018DE,
  0xDDE0EB2A, 0x2F8B6829, 0x82F63B78, 0x709DB87B, 0x63CD4B8F, 0x91A6C88C,
  0x456CAC67, 0xB7072F64, 0xA457DC90, 0x563C5F93, 0x082F63B7, 0xFA44E0B4,
  0xE9141340, 0x1B7F9043, 0xCFB5F4A8, 0x3DDE77AB, 0x2E8E845F, 0xDCE5075C,
  0x92A8FC17, 0x60C37F14, 0x73938CE0, 0x81F80FE3, 0x55326B08, 0xA759E80B,
  0xB4091BFF, 0x466298FC, 0x1871A4D8, 0xEA1A27DB, 0xF94AD42F, 0x0B21572C,
  0xDFEB33C7, 0x2D80B0C4, 0x3ED04330, 0xCCBBC033, 0xA24BB5A6, 0x502036A5,
  0x4370C551, 0xB11B4652, 0x65D122B9, 0x97BAA1BA, 0x84EA524E, 0x7681D14D,
  0x2892ED69, 0xDAF96E6A, 0xC9A99D9E, 0x3BC21E9D, 0xEF087A76, 0x1D63F975,
  0x0E330A81, 0xFC588982, 0xB21572C9, 0x407EF1CA, 0x532E023E, 0xA145813D,
  0x758FE5D6, 0x87E466D5, 0x94B49521, 0x66DF1622, 0x38CC2A06, 0xCAA7A905,
  0xD9F75AF1, 0x2B9CD9F2, 0xFF56BD19, 0x0D3D3E1A, 0x1E6DCDEE, 0xEC064EED,
  0xC38D26C4, 0x31E6A5C7, 0x22B65633, 0xD0DDD530, 0x0417B1DB, 0xF67C32D8,
  0xE52CC12C, 0x1747422F, 0x49547E0B, 0xBB3FFD08, 0xA86F0EFC, 0x5A048DFF,
  0x8ECEE914, 0x7CA56A17, 0x6FF599E3, 0x9D9E1AE0, 0xD3D3E1AB, 0x21B862A8,
  0x32E8915C, 0xC083125F, 0x144976B4, 0xE622F5B7, 0xF5720643, 0x07198540,
  0x590AB964, 0xAB613A67, 0xB831C993, 0x4A5A4A90, 0x9E902E7B, 0x6CFBAD78,
  0x7FAB5E8C, 0x8DC0DD8F, 0xE330A81A, 0x115B2B19, 0x020BD8ED, 0xF0605BEE,
  0x24AA3F05, 0xD6C1BC06, 0xC5914FF2, 0x37FACCF1, 0x69E9F0D5, 0x9B8273D6,
  0x88D28022, 0x7AB90321, 0xAE7367CA, 0x5C18E4C9, 0x4F48173D, 0xBD23943E,
  0xF36E6F75, 0x0105EC76, 0x12551F82, 0xE03E9C81, 0x34F4F86A, 0xC69F7B69,
  0xD5CF889D, 0x27A40B9E, 0x79B737BA, 0x8BDCB4B9, 0x988C474D, 0x6AE7C44E,
  0xBE2DA0A5, 0x4C4623A6, 0x5F16D052, 0xAD7D5351]

/-- `crc32c_calc`. -/
def crc32cCalc (c : UInt8) (reg : BitVec 32) : BitVec 32 :=
  (reg >>> 8) ^^^ crc32cTable.getD (c.toBitVec.setWidth 32 ^^^ (reg &&& 0xff)).toNat 0

/-! ## The instructions -/

/-- The polynomial of the CRC-32C. -/
def castagnoli : BitVec 32 := 0x82F63B78

/-- A word in the byte order of the machine. -/
def loadWord (bytes : List UInt8) : ℕ := Nat.ofDigits 256 (bytes.map UInt8.toNat)

/-- `_mm_crc32_u8`, and `_mm_crc32_u32` or `_mm_crc32_u64` on a register as wide as the
word of `calcSize` bytes. Both make the step of the CRC-32C for each byte in memory
order. -/
structure Sse42 where
  calcSize : ℕ
  calcSize_pos : 0 < calcSize
  Native : Type
  /-- `reg_native = reg` and back -/
  widen : BitVec 32 → Native
  narrow : Native → BitVec 32
  crcU8 : BitVec 32 → UInt8 → BitVec 32
  crcWord : Native → ℕ → Native
  narrow_widen : ∀ reg, narrow (widen reg) = reg
  crcU8_eq : ∀ reg c, crcU8 reg c = byteStep castagnoli reg c
  crcWord_eq : ∀ reg (bytes : List UInt8), bytes.length = calcSize →
    narrow (crcWord reg (loadWord bytes)) = bytes.foldl (byteStep castagnoli) (narrow reg)

/-- `is_sse4_2_supported`: the instructions, where there are any. -/
abbrev Engine := Option Sse42

/-! ## The loops -/

section Loops

variable (sse : Sse42)

/-- The bytes before the first aligned address; what is left of the block. -/
def headLoop : List UInt8 → ℕ → BitVec 32 → List UInt8 × BitVec 32
  | [], _, reg => ([], reg)
  | c :: rest, addr, reg =>
    if addr % sse.calcSize > 0 then headLoop rest (addr + 1) (sse.crcU8 reg c) else (c :: rest, reg)

/-- Whole words. There are at most `rounds` of them. -/
def wordLoop : (rounds : ℕ) → List UInt8 → sse.Native → List UInt8 × sse.Native
  | 0, block, reg => (block, reg)
  | rounds + 1, block, reg =>
    if sse.calcSize ≤ block.length then
      wordLoop rounds (block.drop sse.calcSize)
        (sse.crcWord reg (loadWord (block.take sse.calcSize)))
    else (block, reg)

/-- The SSE 4.2 branch, for a block at address `addr`. -/
def crcSse (addr : ℕ) (block : List UInt8) : BitVec 32 :=
  let head := headLoop sse block addr 0xffffffff
  let words := wordLoop sse head.1.length head.1 (sse.widen head.2)
  words.1.foldl sse.crcU8 (sse.narrow words.2)

end Loops

/-- `crc32c`, on the first `n` bytes of `buf`. -/
def crc32c (engine : Engine) (addr : ℕ) (buf : List UInt8) (n : ℕ) : BitVec 32 :=
  match engine with
  | some sse => ~~~ crcSse sse addr (buf.take n)
  | none => ~~~ (buf.take n).foldl (fun reg c => crc32cCalc c reg) 0xffffffff

/-- The loop of `memcpy_crc32c` with the table: byte `i` is stored, then counted. -/
def copyLoop : List UInt8 → (i : ℕ) → (dest : List UInt8) → BitVec 32 → List UInt8 × BitVec 32
  | [], _, dest, reg => (dest, reg)
  | c :: rest, i, dest, reg => copyLoop rest (i + 1) (dest.set i c) (crc32cCalc c reg)

/-- `memcpy_crc32c`: the destination and the value. `addr` is the address of the source. -/
def memcpyCrc32c (engine : Engine) (addr : ℕ) (dest src : List UInt8) (n : ℕ) :
    List UInt8 × BitVec 32 :=
  match engine with
  | some sse => (src.take n ++ dest.drop n, ~~~ crcSse sse addr (src.take n))
  | none =>
    let r := copyLoop (src.take n) 0 dest 0xffffffff
    (r.1, ~~~ r.2)

/-! ## Encoding and checking -/

/-- The value behind the block, least significant byte first. -/
def injectCrc (buf : List UInt8) (n : ℕ) (reg : BitVec 32) : List UInt8 :=
  let byte (shift : ℕ) : UInt8 := ⟨(reg >>> shift).setWidth 8⟩
  (((buf.set n (byte 0)).set (n + 1) (byte 8)).set (n + 2) (byte 16)).set (n + 3) (byte 24)

/-- The four bytes behind the block. -/
def extractCrc (buf : List UInt8) (n : ℕ) : BitVec 32 :=
  let byte (i : ℕ) : BitVec 32 := ((buf.getD (n + i) 0).toBitVec).setWidth 32
  byte 0 ||| byte 1 <<< 8 ||| byte 2 <<< 16 ||| byte 3 <<< 24

/-- The conversion of a `size_t` to the `int` that is returned. -/
def toInt (n : ℕ) : ℤ := (BitVec.ofNat 32 n).toInt

/-- `crc32c_enc`. -/
def crc32cEnc (engine : Engine) (addr : ℕ) (buf : List UInt8) (n : ℕ) : List UInt8 :=
  injectCrc buf n (crc32c engine addr buf n)

/-- `memcpy_crc32c_enc`: the destination. -/
def memcpyCrc32cEnc (engine : Engine) (addr : ℕ) (dest src : List UInt8) (n : ℕ) : List UInt8 :=
  let r := memcpyCrc32c engine addr dest src n
  injectCrc r.1 n r.2

/-- `crc32c_check`. -/
def crc32cCheck (engine : Engine) (addr : ℕ) (buf : List UInt8) (n : ℕ) : ℤ :=
  if extractCrc buf n ≠ crc32c engine addr buf n then -1 else toInt n

/-- `memcpy_crc32c_check`: the destination and the return value. -/
def memcpyCrc32cCheck (engine : Engine) (addr : ℕ) (dest src : List UInt8) (n : ℕ) :
    List UInt8 × ℤ :=
  let r := memcpyCrc32c engine addr dest src n
  (r.1, if extractCrc src n ≠ r.2 then -1 else toInt n)

/-! ## The value -/

/-- The CRC-32C, bit by bit: the remainder of the message, with the register inverted
before and after. -/
def crc32cBitwise (message : List UInt8) : BitVec 32 :=
  ~~~ message.foldl (byteStep castagnoli) 0xffffffff

/-- The check value of the standard, for the text `123456789`. -/
example : crc32cBitwise [49, 50, 51, 52, 53, 54, 55, 56, 57] = 0xE3069283 := by decide +kernel

/-- The table holds the remainders of the bytes. -/
theorem crc32cTable_eq (i : ℕ) (hi : i < 256) :
    crc32cTable.getD i 0 = steps castagnoli 8 (BitVec.ofNat 32 i) := by
  have hall : ∀ i < 256, crc32cTable.getD i 0 = steps castagnoli 8 (BitVec.ofNat 32 i) := by
    decide +kernel
  exact hall i hi

theorem crc32cCalc_eq (c : UInt8) (reg : BitVec 32) :
    crc32cCalc c reg = byteStep castagnoli reg c := by
  have hindex : c.toBitVec.setWidth 32 ^^^ (reg &&& 0xff) =
      (c.toBitVec ^^^ reg.setWidth 8).setWidth 32 := by
    rw [BitVec.setWidth_xor]
    congr 1
    -- the mask keeps the low byte
    refine (BitVec.and_setWidth_allOnes 24 8 reg).trans ?_
    exact (BitVec.setWidth_eq_append (by decide : 8 ≤ 32)).symm
  unfold crc32cCalc
  rw [hindex, byteStep_eq (by decide)]
  generalize c.toBitVec ^^^ reg.setWidth 8 = low
  have hlow : (low.setWidth 32).toNat = low.toNat := by
    rw [BitVec.toNat_setWidth]
    exact Nat.mod_eq_of_lt (Nat.lt_of_lt_of_le low.isLt (by decide))
  have hentry : BitVec.ofNat 32 low.toNat = low.setWidth 32 := by
    refine BitVec.eq_of_toNat_eq ?_
    rw [hlow, BitVec.toNat_ofNat]
    exact Nat.mod_eq_of_lt (Nat.lt_of_lt_of_le low.isLt (by decide))
  rw [hlow, crc32cTable_eq low.toNat low.isLt, hentry]

/-- The bytes of a word, least significant first. -/
def wordBytes : ℕ → ℕ → List UInt8
  | 0, _ => []
  | k + 1, word => UInt8.ofNat (word % 256) :: wordBytes k (word / 256)

theorem wordBytes_loadWord (bytes : List UInt8) :
    wordBytes bytes.length (loadWord bytes) = bytes := by
  induction bytes with
  | nil => rfl
  | cons c rest ih =>
    have hc : c.toNat < 256 := c.toNat_lt
    have hword : loadWord (c :: rest) = c.toNat + 256 * loadWord rest := by
      unfold loadWord
      rw [List.map_cons, Nat.ofDigits_cons]
    have hmod : (c.toNat + 256 * loadWord rest) % 256 = c.toNat := by omega
    have hdiv : (c.toNat + 256 * loadWord rest) / 256 = loadWord rest := by omega
    rw [List.length_cons, wordBytes, hword, hmod, hdiv, ih, UInt8.ofNat_toNat]

/-- Instructions as they are documented. -/
def Sse42.documented (calcSize : ℕ) (h : 0 < calcSize) : Sse42 where
  calcSize := calcSize
  calcSize_pos := h
  Native := BitVec 32
  widen := id
  narrow := id
  crcU8 := byteStep castagnoli
  crcWord := fun reg word => (wordBytes calcSize word).foldl (byteStep castagnoli) reg
  narrow_widen := fun _ => rfl
  crcU8_eq := fun _ _ => rfl
  crcWord_eq := by
    intro reg bytes hlen
    rw [← hlen, wordBytes_loadWord]
    rfl

/-- An unaligned block of eleven bytes: three up to the boundary, one word of eight. -/
example : crc32c (some (Sse42.documented 8 (by decide))) 5 [1, 2, 3, 4, 5, 6, 7, 8, 9, 10, 11] 11 =
    crc32c none 0 [1, 2, 3, 4, 5, 6, 7, 8, 9, 10, 11] 11 := by decide +kernel

section Loops

variable (sse : Sse42)

theorem headLoop_spec (block : List UInt8) (addr : ℕ) (reg : BitVec 32) :
    (headLoop sse block addr reg).1.foldl (byteStep castagnoli) (headLoop sse block addr reg).2 =
      block.foldl (byteStep castagnoli) reg := by
  induction block generalizing addr reg with
  | nil => rfl
  | cons c rest ih =>
    unfold headLoop
    split
    · rw [ih, sse.crcU8_eq]
      rfl
    · rfl

theorem wordLoop_spec (rounds : ℕ) (block : List UInt8) (reg : sse.Native) :
    (wordLoop sse rounds block reg).1.foldl (byteStep castagnoli)
        (sse.narrow (wordLoop sse rounds block reg).2) =
      block.foldl (byteStep castagnoli) (sse.narrow reg) := by
  induction rounds generalizing block reg with
  | zero => rfl
  | succ rounds ih =>
    unfold wordLoop
    split
    · next hlen =>
      have hword : (block.take sse.calcSize).length = sse.calcSize := List.length_take_of_le hlen
      rw [ih, sse.crcWord_eq _ _ hword, ← List.foldl_append, List.take_append_drop]
    · rfl

/-- The rounds are enough: the loop stops with less than a word left. -/
theorem wordLoop_ends (rounds : ℕ) (block : List UInt8) (reg : sse.Native)
    (h : block.length ≤ rounds) : (wordLoop sse rounds block reg).1.length < sse.calcSize := by
  have hpos := sse.calcSize_pos
  induction rounds generalizing block reg with
  | zero =>
    unfold wordLoop
    dsimp only
    omega
  | succ rounds ih =>
    unfold wordLoop
    split
    · refine ih _ _ ?_
      rw [List.length_drop]
      omega
    · next hlen => exact Nat.lt_of_not_le hlen

theorem crcSse_eq (addr : ℕ) (block : List UInt8) :
    crcSse sse addr block = block.foldl (byteStep castagnoli) 0xffffffff := by
  have hcrcU8 : sse.crcU8 = byteStep castagnoli := by
    funext reg c
    exact sse.crcU8_eq reg c
  unfold crcSse
  dsimp only
  rw [hcrcU8, wordLoop_spec, sse.narrow_widen, headLoop_spec]

end Loops

theorem crc32c_eq (engine : Engine) (addr : ℕ) (buf : List UInt8) (n : ℕ) :
    crc32c engine addr buf n = crc32cBitwise (buf.take n) := by
  unfold crc32c crc32cBitwise
  cases engine with
  | some sse =>
    dsimp only
    rw [crcSse_eq]
  | none => simp only [crc32cCalc_eq]

theorem copyLoop_eq (block done dest : List UInt8) (reg : BitVec 32)
    (h : block.length ≤ dest.length) :
    copyLoop block done.length (done ++ dest) reg =
      (done ++ block ++ dest.drop block.length,
        block.foldl (byteStep castagnoli) reg) := by
  induction block generalizing done dest reg with
  | nil => simp [copyLoop]
  | cons c rest ih =>
    rcases dest with - | ⟨d, dest⟩
    · cases h
    · have hset : (done ++ d :: dest).set done.length c = done ++ [c] ++ dest := by
        rw [List.set_append_right done.length c (Nat.le_refl _), Nat.sub_self]
        simp
      have hlen : done.length + 1 = (done ++ [c]).length := by simp
      unfold copyLoop
      rw [hset, hlen, ih (done ++ [c]) dest _ (Nat.le_of_succ_le_succ h), crc32cCalc_eq]
      simp

theorem memcpyCrc32c_eq (engine : Engine) (addr : ℕ) {dest src : List UInt8} {n : ℕ}
    (hsrc : n ≤ src.length) (hdest : n ≤ dest.length) :
    memcpyCrc32c engine addr dest src n =
      (src.take n ++ dest.drop n, crc32cBitwise (src.take n)) := by
  unfold memcpyCrc32c crc32cBitwise
  cases engine with
  | some sse =>
    dsimp only
    rw [crcSse_eq]
  | none =>
    have hlen : (src.take n).length = n := List.length_take_of_le hsrc
    have hcopy := copyLoop_eq (src.take n) [] dest 0xffffffff (by omega)
    rw [List.nil_append, List.nil_append, hlen] at hcopy
    dsimp only
    rw [show (0 : ℕ) = ([] : List UInt8).length from rfl, hcopy]

/-! ## The bytes behind the block -/

theorem length_injectCrc (buf : List UInt8) (n : ℕ) (reg : BitVec 32) :
    (injectCrc buf n reg).length = buf.length := by
  simp [injectCrc]

theorem take_injectCrc (buf : List UInt8) (n : ℕ) (reg : BitVec 32) :
    (injectCrc buf n reg).take n = buf.take n := by
  unfold injectCrc
  simp only [List.take_set]
  rw [List.set_eq_of_length_le (by simp), List.set_eq_of_length_le (by simp),
    List.set_eq_of_length_le (by simp), List.set_eq_of_length_le (by simp)]

/-- A register is its four bytes. -/
theorem join_bytes (reg : BitVec 32) :
    (((reg >>> 0).setWidth 8).setWidth 32 ||| ((reg >>> 8).setWidth 8).setWidth 32 <<< 8 |||
      ((reg >>> 16).setWidth 8).setWidth 32 <<< 16 |||
      ((reg >>> 24).setWidth 8).setWidth 32 <<< 24) = reg := by
  refine BitVec.eq_of_getLsbD_eq fun i hi => ?_
  simp only [BitVec.getLsbD_or, BitVec.getLsbD_shiftLeft, BitVec.getLsbD_setWidth,
    BitVec.getLsbD_ushiftRight, hi, decide_true, Bool.true_and]
  -- exactly one of the four bytes holds bit `i`
  by_cases h8 : i < 8
  · simp [h8, show i < 16 by omega, show i < 24 by omega]
  by_cases h16 : i < 16
  · simp [h8, h16, show i < 24 by omega, show i - 8 < 8 by omega, show i - 8 < 32 by omega,
      show 8 + (i - 8) = i by omega]
  by_cases h24 : i < 24
  · simp [h8, h16, h24, show ¬ i - 8 < 8 by omega, show i - 16 < 8 by omega,
      show i - 16 < 32 by omega, show 16 + (i - 16) = i by omega]
  · simp [h8, h16, h24, show ¬ i - 8 < 8 by omega, show ¬ i - 16 < 8 by omega,
      show i - 24 < 8 by omega, show i - 24 < 32 by omega, show 24 + (i - 24) = i by omega]

theorem extract_injectCrc {buf : List UInt8} {n : ℕ} (h : n + 4 ≤ buf.length) (reg : BitVec 32) :
    extractCrc (injectCrc buf n reg) n = reg := by
  have hbyte : ∀ i < 4, (injectCrc buf n reg).getD (n + i) 0 = ⟨(reg >>> (8 * i)).setWidth 8⟩ := by
    intro i hi
    unfold injectCrc
    rw [List.getD_eq_getElem?_getD]
    simp only [List.getElem?_set, List.length_set]
    have hcases : i = 0 ∨ i = 1 ∨ i = 2 ∨ i = 3 := by omega
    rcases hcases with rfl | rfl | rfl | rfl
    · simp [show n < buf.length by omega]
    · simp [show n + 1 < buf.length by omega]
    · simp [show n + 2 < buf.length by omega]
    · simp [show n + 3 < buf.length by omega]
  unfold extractCrc
  dsimp only
  rw [hbyte 0 (by decide), hbyte 1 (by decide), hbyte 2 (by decide), hbyte 3 (by decide)]
  exact join_bytes reg

theorem toInt_eq {n : ℕ} (h : n < 2 ^ 31) : toInt n = n := by
  unfold toInt
  have hlt : n % 2 ^ 32 = n := Nat.mod_eq_of_lt (by omega)
  rw [BitVec.toInt_eq_toNat_of_lt (by rw [BitVec.toNat_ofNat, hlt]; omega), BitVec.toNat_ofNat, hlt]

/-! ## Agreement -/

/-- An engine computes the CRC-32C, whatever the alignment, and copies the block while
doing so. -/
structure Computes (engine : Engine) : Prop where
  value : ∀ addr (buf : List UInt8) n, n ≤ buf.length →
    crc32c engine addr buf n = crc32cBitwise (buf.take n)
  copied : ∀ addr (dest src : List UInt8) n, n ≤ src.length → n ≤ dest.length →
    memcpyCrc32c engine addr dest src n =
      (src.take n ++ dest.drop n, crc32cBitwise (src.take n))

/-- What one engine encodes another accepts, in place and by way of copies. -/
structure Accepts (engine engine' : Engine) : Prop where
  inPlace : ∀ addr addr' (buf : List UInt8) n, n < 2 ^ 31 → n + 4 ≤ buf.length →
    (crc32cEnc engine addr buf n).take n = buf.take n ∧
      crc32cCheck engine' addr' (crc32cEnc engine addr buf n) n = n
  copies : ∀ addr addr' (dest src dest' : List UInt8) n, n < 2 ^ 31 → n ≤ src.length →
    n + 4 ≤ dest.length → n ≤ dest'.length →
    (memcpyCrc32cEnc engine addr dest src n).take n = src.take n ∧
      memcpyCrc32cCheck engine' addr' dest' (memcpyCrc32cEnc engine addr dest src n) n =
        (src.take n ++ dest'.drop n, (n : ℤ))

theorem crc32cCheck_enc (engine engine' : Engine) (addr addr' : ℕ) {buf : List UInt8} {n : ℕ}
    (hn : n < 2 ^ 31) (h : n + 4 ≤ buf.length) :
    crc32cCheck engine' addr' (crc32cEnc engine addr buf n) n = n := by
  unfold crc32cCheck crc32cEnc
  rw [extract_injectCrc h, crc32c_eq, crc32c_eq, take_injectCrc, if_neg (by simp), toInt_eq hn]

theorem memcpyCrc32cEnc_take (engine : Engine) (addr : ℕ) {dest src : List UInt8} {n : ℕ}
    (hsrc : n ≤ src.length) (hdest : n ≤ dest.length) :
    (memcpyCrc32cEnc engine addr dest src n).take n = src.take n := by
  unfold memcpyCrc32cEnc
  dsimp only
  rw [take_injectCrc, memcpyCrc32c_eq engine addr hsrc hdest,
    List.take_append_of_le_length (by rw [List.length_take_of_le hsrc]), List.take_take,
    Nat.min_self]

theorem memcpyCrc32cCheck_enc (engine engine' : Engine) (addr addr' : ℕ)
    {dest src dest' : List UInt8} {n : ℕ} (hn : n < 2 ^ 31) (hsrc : n ≤ src.length)
    (hdest : n + 4 ≤ dest.length) (hdest' : n ≤ dest'.length) :
    memcpyCrc32cCheck engine' addr' dest' (memcpyCrc32cEnc engine addr dest src n) n =
      (src.take n ++ dest'.drop n, (n : ℤ)) := by
  have htake := memcpyCrc32cEnc_take engine addr hsrc (by omega : n ≤ dest.length)
  -- the encoded block is as long as the destination
  have hlen : (src.take n ++ dest.drop n).length = dest.length := by
    rw [List.length_append, List.length_take_of_le hsrc, List.length_drop]
    omega
  have hextract : extractCrc (memcpyCrc32cEnc engine addr dest src n) n =
      crc32cBitwise (src.take n) := by
    unfold memcpyCrc32cEnc
    rw [memcpyCrc32c_eq engine addr hsrc (by omega)]
    exact extract_injectCrc (hlen ▸ hdest) _
  have hlen' : n ≤ (memcpyCrc32cEnc engine addr dest src n).length := by
    unfold memcpyCrc32cEnc
    rw [memcpyCrc32c_eq engine addr hsrc (by omega), length_injectCrc]
    dsimp only
    omega
  unfold memcpyCrc32cCheck
  dsimp only
  rw [memcpyCrc32c_eq engine' addr' hlen' hdest', htake, hextract, if_neg (by simp), toInt_eq hn]

/-- All engines agree with the definition, and so with each other. -/
theorem crc32c_agrees (engine engine' : Engine) : Computes engine ∧ Accepts engine engine' := by
  constructor
  · constructor
    · intro addr buf n _
      exact crc32c_eq engine addr buf n
    · intro addr dest src n hsrc hdest
      exact memcpyCrc32c_eq engine addr hsrc hdest
  · constructor
    · intro addr addr' buf n hn h
      constructor
      · exact take_injectCrc buf n _
      · exact crc32cCheck_enc engine engine' addr addr' hn h
    · intro addr addr' dest src dest' n hn hsrc hdest hdest'
      constructor
      · exact memcpyCrc32cEnc_take engine addr hsrc (by omega)
      · exact memcpyCrc32cCheck_enc engine engine' addr addr' hn hsrc hdest hdest'

end Ltfs.Crc32c

import Mathlib.Data.List.Basic
import Mathlib.Tactic.NormNum
import Mathlib.Tactic.Linarith

namespace Stir.ADPCMEncoder

/-- Modelled from the spec: `INDEX_MAX` is declared in audioencoder.h, which is not among the
sources. The spec clamps the step index to [0, 88], the last entry of the 89-entry table. -/
def INDEX_MAX : Int := 88

/-- The 89 `uint16_t` step sizes of `encodeSample`. -/
def stepSizeTable : List Nat :=
  [7,8,9,10,11,12,13,14,16,17,19,21,23,25,28,31,
    34,37,41,45,50,55,60,66,73,80,88,97,107,118,130,
    143,157,173,190,209,230,253,279,307,337,371,408,449,
    494,544,598,658,724,796,876,963,1060,1166,1282,1411,
    1552,1707,1878,2066,2272,2499,2749,3024,3327,3660,4026,
    4428,4871,5358,5894,6484,7132,7845,8630,9493,10442,11487,
    12635,13899,15289,16818,18500,20350,22385,24623,27086,29794,32767]

/-- The 16 words of `codeTable`, as the source writes them before `static_cast<int>`. -/
def codeTable : List Nat :=
  [0xFFFFFF01,0xFFFFFF03,0xFFFFFF05,0xFFFFFF07,0x00000209,0x0000040B,0x0000060D,0x0000080F,
    0xFFFFFFFF,0xFFFFFFFD,0xFFFFFFFB,0xFFFFFFF9,0x000002F7,0x000004F5,0x000006F3,0x000008F1]

/-- `static_cast<int>` of a 32-bit word. -/
def toInt32 (x : Nat) : Int := if x < 2^31 then x else (x : Int)-2^32

/-- Conversion of an `int` to `int8_t`: the low byte, signed. -/
def toInt8 (x : Int) : Int := if x%256 < 128 then x%256 else x%256-256

/-- Conversion of an `int` to `int16_t`: the low 16 bits, signed. -/
def toInt16 (x : Int) : Int := if x%65536 < 32768 then x%65536 else x%65536-65536

/-- Conversion of an `int` to `unsigned`. -/
def toUInt32 (x : Int) : Nat := (x%2^32).toNat

/-- `codeTable[code]`, as the `int` the source reads. -/
def codeWord (code : Nat) : Int := toInt32 (codeTable.getD code 0)

/-- `int8_t(codeTable[code])`: the spec's signed multiplier `m(c)`. -/
def multiplier (code : Nat) : Int := toInt8 (codeWord code)

/-- `codeTable[code] >> 8`: the spec's index adjustment `adj(c)`. -/
def adjustment (code : Nat) : Int := Int.shiftRight (codeWord code) 8

/-- `int(unsigned(int8_t(codeTable[code])) * unsigned(step)) >> 3`, the delta of a candidate
code, in the unsigned multiply and arithmetic shift the target decoder uses. -/
def codeDiff (code step : Nat) : Int := Int.shiftRight (toInt32 (toUInt32 (multiplier code)*step%2^32)) 3

theorem stepSizeTable_le (i : Nat) : stepSizeTable.getD i 0 ≤ 32767 := by
  rw [List.getD_eq_getElem?_getD]
  cases h : stepSizeTable[i]? with
  | none => simp
  | some x =>
    have hx : x∈stepSizeTable := List.getElem?_mem h
    have hall : ∀ y∈stepSizeTable, y ≤ 32767 := by decide
    simpa using hall x hx

theorem toInt16_range (x : Int) : -32768 ≤ toInt16 x ∧ toInt16 x ≤ 32767 := by
  unfold toInt16; split_ifs <;> omega

theorem multiplier_range (code : Nat) : -128 ≤ multiplier code ∧ multiplier code ≤ 127 := by
  unfold multiplier toInt8; split_ifs <;> omega

/-- Reading back a product that fits in 31 bits through `unsigned` and `int` is exact. -/
theorem toInt32_mul (m : Int) (step : Nat) (hm : -128 ≤ m ∧ m ≤ 127) (hs : step < 2^16) :
    toInt32 (toUInt32 m*step%2^32)=m*step := by
  have hlo : -128*(step : Int) ≤ m*step := Int.mul_le_mul_of_nonneg_right hm.1 (by omega)
  have hhi : m*(step : Int) ≤ 127*step := Int.mul_le_mul_of_nonneg_right hm.2 (by omega)
  have hcast : ((toUInt32 m*step%2^32 : Nat) : Int)=m*step%2^32 := by
    unfold toUInt32
    push_cast
    rw [Int.toNat_of_nonneg (by omega),Int.mul_emod,Int.emod_emod,← Int.mul_emod]
  unfold toInt32
  split_ifs with h <;> omega

/-- The source's unsigned delta is the spec's `floor(m(c)*step/8)`. -/
theorem codeDiff_eq (code step : Nat) (hs : step < 2^16) :
    codeDiff code step=multiplier code*step/8 := by
  rw [codeDiff,toInt32_mul _ _ (multiplier_range code) hs,← Int.shiftRight_eq,Int.shiftRight_eq_div_pow]
  rfl

end Stir.ADPCMEncoder

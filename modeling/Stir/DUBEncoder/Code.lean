import Stir.DUBEncoder.BitBuffer
import Mathlib.Data.Nat.Log

namespace Stir.DUBEncoder

/-- `Code::type`. -/
inductive CodeType
  | DELTA
  | REF
  | REPEAT
  | INVALID
  deriving DecidableEq, Repr

/-- `DUBEncoder::Code`: a type and an `int` value. -/
structure Code where
  type : CodeType
  value : Int
  deriving DecidableEq, Repr

/-- Conversion of an `int` to the `unsigned` that `appendVar` takes. -/
def toUnsigned (x : Int) : Nat := (x%2^32).toNat

/-- `packCode(code, bits)` with `chunk = 3`; `INVALID` is an `assert(0)` and appends nothing. -/
def packCode (code : Code) (bits : BitBuffer) : BitBuffer :=
  match code.type with
  | .DELTA =>
    if code.value < 0 then ((bits.append 0 1).append 1 1).appendVar (toUnsigned (-code.value)) 3
    else ((bits.append 0 1).append 0 1).appendVar (toUnsigned code.value) 3
  | .REF => (bits.append 1 1).appendVar (toUnsigned code.value) 3
  | .REPEAT => bits.appendVar (toUnsigned code.value) 3
  | .INVALID => bits

/-- `codeLen(code)`: the count of a scratch buffer after `packCode`. -/
def codeLen (code : Code) : Nat := (packCode code BitBuffer.empty).getCount

/-- The bits `packCode` appends for `code`. -/
def codeBits (code : Code) : List Bool := (packCode code BitBuffer.empty).bits

/-- The DELTA code `findBestCode` starts from: the tile itself when the dictionary is empty,
else `(int)tile - (int)dict.back()`. -/
def deltaCode (dict : List UInt16) (tile : UInt16) : Code :=
  if dict.isEmpty then ⟨.DELTA,tile.toNat⟩ else ⟨.DELTA,(tile.toNat : Int)-(dict.getLastD 0).toNat⟩

/-- The REF loop over the remaining `i`: the first `dict[dict.size() - 1 - i] == tile` whose
REF code is no longer than `bestLength` replaces `code` and ends the loop. -/
def refScan (dict : List UInt16) (tile : UInt16) (code : Code) (bestLength : Nat) : List Nat → Code
  | [] => code
  | i :: is =>
    if tile=dict.getD (dict.length-1-i) 0 then
      if codeLen ⟨.REF,i⟩ ≤ bestLength then ⟨.REF,i⟩ else refScan dict tile code bestLength is
    else refScan dict tile code bestLength is

/-- `DUBEncoder::findBestCode`. -/
def findBestCode (dict : List UInt16) (tile : UInt16) : Code :=
  refScan dict tile (deltaCode dict tile) (codeLen (deltaCode dict tile)) (List.range dict.length)

@[simp] theorem empty_push_bits (bs : List Bool) : (BitBuffer.empty.push bs).bits=bs := rfl

theorem packCode_eq (code : Code) (b : BitBuffer) : packCode code b=b.push (codeBits code) := by
  rcases code with ⟨_ | _ | _ | _, v⟩ <;>
    simp only [codeBits,packCode,BitBuffer.append,appendVar_eq,push_push,empty_push_bits]
  · split_ifs <;> simp only [push_push,empty_push_bits]
  · exact (push_nil b).symm

theorem codeLen_eq (code : Code) : codeLen code=(codeBits code).length := rfl

theorem codeBits_DELTA (v : Int) : codeBits ⟨.DELTA,v⟩=
    if v < 0 then false :: true :: varCode 3 (toUnsigned (-v)) (toUnsigned (-v))
    else false :: false :: varCode 3 (toUnsigned v) (toUnsigned v) := by
  simp only [codeBits,packCode,BitBuffer.append,appendVar_eq,push_push,empty_push_bits]
  split_ifs <;> rfl

theorem codeBits_REF (v : Int) : codeBits ⟨.REF,v⟩=true :: varCode 3 (toUnsigned v) (toUnsigned v) := by
  simp only [codeBits,packCode,BitBuffer.append,appendVar_eq,push_push,empty_push_bits]
  rfl

theorem codeBits_REPEAT (v : Int) : codeBits ⟨.REPEAT,v⟩=varCode 3 (toUnsigned v) (toUnsigned v) := by
  simp only [codeBits,packCode,appendVar_eq,empty_push_bits]

theorem codeBits_ne_nil {c : Code} (hc : c.type=.DELTA ∨ c.type=.REF) : codeBits c ≠ [] := by
  rcases c with ⟨t,v⟩
  rcases hc with h | h <;> simp only at h <;> subst h
  · rw [codeBits_DELTA]; split_ifs <;> simp
  · simp [codeBits_REF]

theorem toUnsigned_of_lt {x : Int} (h0 : 0 ≤ x) (h : x < 2^32) : (toUnsigned x : Int)=x := by
  rw [toUnsigned,Int.emod_eq_of_lt h0 h,Int.toNat_of_nonneg h0]

/-- `appendVar` writes one flag and one `chunk`-bit group per base-`2^chunk` digit, once its loop
has room for every digit. -/
theorem varCode_length (chunk : Nat) (hc : 0 < chunk) (fuel value : Nat)
    (h : Nat.log (2^chunk) value ≤ fuel) :
    (varCode chunk fuel value).length=(chunk+1)*(Nat.log (2^chunk) value+1) := by
  have hb : 1 < 2^chunk := Nat.one_lt_two_pow (by omega)
  induction fuel generalizing value with
  | zero => simp [varCode,Nat.le_zero.mp h]
  | succ fuel ih =>
    simp only [varCode]
    split_ifs with hv
    · have hl : Nat.log (2^chunk) value=0 :=
        Nat.log_of_lt ((Nat.div_eq_zero_iff (by omega)).mp hv)
      simp [hl]
    · have hl := Nat.log_of_one_lt_of_le hb
        (Nat.le_of_not_lt fun hlt => hv (Nat.div_eq_of_lt hlt))
      rw [hl] at h ⊢
      simp only [List.length_cons,List.length_append,bitsOf_length,ih (value/2^chunk) (by omega),Nat.mul_succ]
      omega

/-- The length of a variable-length field written by `appendVar(value, 3)`. -/
theorem varCode_three_length (value : Nat) :
    (varCode 3 value value).length=4*(Nat.log 8 value+1) :=
  varCode_length 3 (by norm_num) value value (Nat.log_le_self _ _)

theorem codeLen_REF {i : Nat} (h : i < 2^32) : codeLen ⟨.REF,i⟩=1+4*(Nat.log 8 i+1) := by
  have hu : toUnsigned i=i := by have := toUnsigned_of_lt (x := i) (by omega) (by omega); omega
  rw [codeLen_eq,codeBits_REF,hu,List.length_cons,varCode_three_length]
  omega

theorem codeLen_REPEAT {m : Nat} (h : m < 2^32) : codeLen ⟨.REPEAT,m⟩=4*(Nat.log 8 m+1) := by
  have hu : toUnsigned m=m := by have := toUnsigned_of_lt (x := m) (by omega) (by omega); omega
  rw [codeLen_eq,codeBits_REPEAT,hu,varCode_three_length]

theorem codeLen_DELTA {v : Int} (h1 : -2^32 < v) (h2 : v < 2^32) :
    codeLen ⟨.DELTA,v⟩=2+4*(Nat.log 8 v.natAbs+1) := by
  rw [codeLen_eq,codeBits_DELTA]
  split_ifs with hv
  · have hu : toUnsigned (-v)=v.natAbs := by
      have := toUnsigned_of_lt (x := -v) (by omega) (by omega); omega
    simp only [hu,List.length_cons,varCode_three_length]; omega
  · have hu : toUnsigned v=v.natAbs := by
      have := toUnsigned_of_lt (x := v) (by omega) (by omega); omega
    simp only [hu,List.length_cons,varCode_three_length]; omega

/-- A longer back-reference index never packs shorter: the premise of the loop's `break`. -/
theorem codeLen_REF_mono {i j : Nat} (hij : i ≤ j) (hj : j < 2^32) :
    codeLen ⟨.REF,i⟩ ≤ codeLen ⟨.REF,j⟩ := by
  rw [codeLen_REF (by omega),codeLen_REF hj]
  have := Nat.log_mono_right (b := 8) hij
  omega

/-- `dict[dict.size() - 1 - i] == tile`: REF `i` reproduces `tile`. -/
def RefMatches (dict : List UInt16) (tile : UInt16) (i : Nat) : Prop :=
  dict.getD (dict.length-1-i) 0=tile

instance (dict : List UInt16) (tile : UInt16) (i : Nat) : Decidable (RefMatches dict tile i) :=
  inferInstanceAs (Decidable (_=_))

/-- One turn of the REF loop: stop at `i` when it matches and packs no longer than
`bestLength`. -/
theorem refScan_cons (dict : List UInt16) (tile : UInt16) (code : Code) (L i : Nat) (is : List Nat) :
    refScan dict tile code L (i :: is)=
      if RefMatches dict tile i ∧ codeLen ⟨.REF,i⟩ ≤ L then ⟨.REF,i⟩ else refScan dict tile code L is := by
  by_cases hm : RefMatches dict tile i
  · rw [refScan,if_pos hm.symm]
    by_cases hl : codeLen ⟨.REF,i⟩ ≤ L
    · rw [if_pos hl,if_pos ⟨hm,hl⟩]
    · rw [if_neg hl,if_neg fun h => hl h.2]
  · rw [refScan,if_neg (Ne.symm hm),if_neg fun h => hm h.1]

/-- The REF loop over `[s, s+n)` returns the first REF that matches and is no longer than
`bestLength`, or keeps `code` when there is none. -/
theorem refScan_range' (dict : List UInt16) (tile : UInt16) (code : Code) (L s n : Nat) :
    (refScan dict tile code L (List.range' s n)=code ∧
      ∀ i, s ≤ i → i < s+n → RefMatches dict tile i → L < codeLen ⟨.REF,i⟩) ∨
    ∃ i, s ≤ i ∧ i < s+n ∧ refScan dict tile code L (List.range' s n)=⟨.REF,i⟩ ∧
      RefMatches dict tile i ∧ codeLen ⟨.REF,i⟩ ≤ L ∧
      ∀ j, s ≤ j → j < i → RefMatches dict tile j → L < codeLen ⟨.REF,j⟩ := by
  induction n generalizing s with
  | zero => exact .inl ⟨rfl,fun i h1 h2 => by omega⟩
  | succ n ih =>
    rw [List.range'_succ,refScan_cons]
    by_cases hs : RefMatches dict tile s ∧ codeLen ⟨.REF,s⟩ ≤ L
    · exact .inr ⟨s,le_refl _,by omega,if_pos hs,hs.1,hs.2,fun j h1 h2 => by omega⟩
    · rw [if_neg hs]
      have hs' : RefMatches dict tile s → L < codeLen ⟨.REF,s⟩ := fun hm =>
        Nat.lt_of_not_le fun h => hs ⟨hm,h⟩
      rcases ih (s+1) with ⟨he,hn⟩ | ⟨i,h1,h2,he,hm,hl,hj⟩
      · refine .inl ⟨he,fun i h1 h2 => ?_⟩
        rcases Nat.eq_or_lt_of_le h1 with rfl | h1
        · exact hs'
        · exact hn i h1 (by omega)
      · refine .inr ⟨i,by omega,by omega,he,hm,hl,fun j h1 h2 => ?_⟩
        rcases Nat.eq_or_lt_of_le h1 with rfl | h1
        · exact hs'
        · exact hj j h1 h2

/-- What `findBestCode` promises: a code that rebuilds the tile, no longer than the DELTA
candidate or any matching REF, and the first matching REF whenever some REF ties the DELTA. -/
structure BestCode (dict : List UInt16) (tile : UInt16) (code : Code) : Prop where
  reproduces : code=deltaCode dict tile ∨ ∃ i < dict.length, code=⟨.REF,i⟩ ∧ RefMatches dict tile i
  le_delta : codeLen code ≤ codeLen (deltaCode dict tile)
  le_refs : ∀ i < dict.length, RefMatches dict tile i → codeLen code ≤ codeLen ⟨.REF,i⟩
  ref_on_tie : (∃ i < dict.length, RefMatches dict tile i ∧ codeLen ⟨.REF,i⟩ ≤ codeLen (deltaCode dict tile)) →
    ∃ i < dict.length, code=⟨.REF,i⟩ ∧ RefMatches dict tile i ∧ ∀ j < i, ¬RefMatches dict tile j

theorem findBestCode_eq (dict : List UInt16) (tile : UInt16) : findBestCode dict tile=
    refScan dict tile (deltaCode dict tile) (codeLen (deltaCode dict tile)) (List.range' 0 dict.length) := by
  rw [findBestCode,List.range_eq_range']

/-- The code `findBestCode` returns: the DELTA candidate, or a matching REF no longer than it. -/
theorem findBestCode_cases (dict : List UInt16) (tile : UInt16) :
    findBestCode dict tile=deltaCode dict tile ∨
    ∃ i < dict.length, findBestCode dict tile=⟨.REF,i⟩ ∧ RefMatches dict tile i ∧
      codeLen ⟨.REF,i⟩ ≤ codeLen (deltaCode dict tile) := by
  rcases refScan_range' dict tile (deltaCode dict tile) (codeLen (deltaCode dict tile)) 0 dict.length
    with ⟨he,-⟩ | ⟨i,-,h2,he,hm,hl,-⟩
  · exact .inl ((findBestCode_eq _ _).trans he)
  · exact .inr ⟨i,by omega,(findBestCode_eq _ _).trans he,hm,hl⟩

theorem findBestCode_le_delta (dict : List UInt16) (tile : UInt16) :
    codeLen (findBestCode dict tile) ≤ codeLen (deltaCode dict tile) := by
  rcases findBestCode_cases dict tile with h | ⟨i,-,h,-,hl⟩ <;> rw [h]
  exact hl

/-- DUB code choice is optimal. -/
theorem findBestCode_optimal (dict : List UInt16) (tile : UInt16) (hd : dict.length < 2^32) :
    BestCode dict tile (findBestCode dict tile) := by
  rw [findBestCode_eq]
  rcases refScan_range' dict tile (deltaCode dict tile) (codeLen (deltaCode dict tile)) 0 dict.length
    with ⟨he,hn⟩ | ⟨i,-,hi,he,hm,hl,hj⟩ <;> rw [he]
  · have hn : ∀ i < dict.length, RefMatches dict tile i →
        codeLen (deltaCode dict tile) < codeLen ⟨.REF,i⟩ := fun i hi => hn i (Nat.zero_le _) (by omega)
    exact ⟨.inl rfl,le_refl _,fun i hi hm => (hn i hi hm).le,
      fun ⟨i,hi,hm,hl⟩ => absurd hl (Nat.not_le.mpr (hn i hi hm))⟩
  · have hi : i < dict.length := by omega
    have first : ∀ j < i, ¬RefMatches dict tile j := fun j hji hmj => by
      have := hj j (Nat.zero_le _) hji hmj
      have := codeLen_REF_mono hji.le (by omega)
      omega
    exact ⟨.inr ⟨i,hi,rfl,hm⟩,hl,
      fun j hj' hmj => codeLen_REF_mono (Nat.le_of_not_lt fun h => first j h hmj) (by omega),
      fun _ => ⟨i,hi,rfl,hm,first⟩⟩

theorem findBestCode_optimal_repeat : ([5] : List UInt16).length < 2^32 ∧
    BestCode [5] 5 (findBestCode [5] 5) :=
  ⟨by decide,findBestCode_optimal [5] 5 (by decide)⟩

end Stir.DUBEncoder

import Stir.DUBEncoder.Encoder

namespace Stir.DUBEncoder

/-! Modelled from the spec: the DUB decoder runs on the device and is not among the sources.
It reads the bits `packCode` appends, most significant bit first, and rebuilds a block's tiles
from its codes. -/

/-- Modelled from the spec: an `n`-bit field, most significant bit first. -/
def readBits : Nat → List Bool → Option (Nat × List Bool)
  | 0, bits => some (0,bits)
  | _+1, [] => none
  | n+1, b :: bits => (readBits n bits).map fun r => (b.toNat*2^n+r.1,r.2)

/-- Modelled from the spec: the reader of `appendVar(value, chunk)`: a flag, then a `chunk`-bit
group, least significant group first, while the flag is 1; `fuel` bounds the groups after the
first. -/
def readVar (chunk : Nat) : Nat → List Bool → Option (Nat × List Bool)
  | _, [] => none
  | 0, more :: bits => if more then none else readBits chunk bits
  | fuel+1, more :: bits => (readBits chunk bits).bind fun r =>
    if more then (readVar chunk fuel r.2).map fun s => (r.1+2^chunk*s.1,s.2) else some r

/-- Modelled from the spec: one DELTA code (`0`, a sign bit, the magnitude) or REF code (`1`,
the index), with the variable-length field read with the bits left as fuel. -/
def readCode : List Bool → Option (Code × List Bool)
  | false :: sign :: bits =>
    (readVar 3 bits.length bits).map fun r => (⟨.DELTA,if sign then -(r.1 : Int) else r.1⟩,r.2)
  | true :: bits => (readVar 3 bits.length bits).map fun r => (⟨.REF,r.1⟩,r.2)
  | _ => none

/-- Modelled from the spec: the tile a code stands for after the tiles `dict`: the last tile
(0 before the first) plus the DELTA modulo `2^16`, or the tile the REF counts back to. -/
def applyCode (dict : List UInt16) (c : Code) : UInt16 :=
  match c.type with
  | .REF => dict.getD (dict.length-1-c.value.toNat) 0
  | _ => UInt16.ofNat ((((dict.getLastD 0).toNat : Int)+c.value)%65536).toNat

/-- Modelled from the spec: the tiles after `codes`, each code applied to the tiles before it. -/
def applyCodes (dict : List UInt16) (codes : List Code) : List UInt16 :=
  codes.foldl (fun dict c => dict++[applyCode dict c]) dict

/-- Modelled from the spec: codes are read until the block's `n` tiles are known; the second of
two identical codes in a row is followed by a REPEAT count of further copies. `prev` is the
code just read when it may start such a pair. -/
def decodeTiles (n : Nat) : Nat → List UInt16 → Option Code → List Bool → Option (List UInt16)
  | 0, _, _, _ => none
  | fuel+1, dict, prev, bits =>
    if n ≤ dict.length then some dict
    else match readCode bits with
      | none => none
      | some (c,bits) =>
        if prev=some c then
          match readVar 3 bits.length bits with
          | none => none
          | some (m,bits) => decodeTiles n fuel (applyCodes (dict++[applyCode dict c]) (List.replicate m c)) none bits
        else decodeTiles n fuel (dict++[applyCode dict c]) (some c) bits

/-- Modelled from the spec: the `n` tiles of a block from the bits of its payload. -/
def decodeBlock (n : Nat) (bits : List Bool) : Option (List UInt16) := decodeTiles n (n+1) [] none bits

/-! The readers invert the writers. -/

theorem toNat_decide_mod_two (n : Nat) : (decide (n%2=1)).toNat=n%2 := by
  rcases Nat.mod_two_eq_zero_or_one n with h | h <;> simp [h]

theorem readBits_bitsOf (value n : Nat) (rest : List Bool) :
    readBits n (bitsOf value n++rest)=some (value%2^n,rest) := by
  induction n with
  | zero => simp [readBits,bitsOf,Nat.mod_one]
  | succ n ih =>
    rw [bitsOf,List.cons_append,readBits,ih,Option.map_some',toNat_decide_mod_two,Nat.mod_pow_succ,
      Nat.add_comm,Nat.mul_comm]

/-- A last group: flag 0, then the group. -/
theorem readVar_last (chunk fuel : Nat) {value : Nat} (hv : value < 2^chunk) (rest : List Bool) :
    readVar chunk fuel (false :: bitsOf value chunk++rest)=some (value,rest) := by
  cases fuel <;> simp [readVar,readBits_bitsOf,Nat.mod_eq_of_lt hv]

/-- `readVar` reads back what `appendVar` wrote, given fuel for every group after the first. -/
theorem readVar_varCode (chunk : Nat) (hc : 0 < chunk) (f fuel value : Nat) (rest : List Bool)
    (hf : Nat.log (2^chunk) value ≤ f) (hfuel : Nat.log (2^chunk) value ≤ fuel) :
    readVar chunk fuel (varCode chunk f value++rest)=some (value,rest) := by
  have hb : 1 < 2^chunk := Nat.one_lt_two_pow (by omega)
  have hlt : ∀ v, Nat.log (2^chunk) v=0 → v < 2^chunk := fun v h =>
    by simpa [h] using Nat.lt_pow_succ_log_self hb v
  induction f generalizing value fuel with
  | zero => exact readVar_last chunk fuel (hlt value (by omega)) rest
  | succ f ih =>
    simp only [varCode]
    split_ifs with hv
    · rw [readVar_last chunk fuel (Nat.mod_lt _ (by omega)),
        Nat.mod_eq_of_lt ((Nat.div_eq_zero_iff (by omega)).mp hv)]
    · have hl := Nat.log_of_one_lt_of_le hb (Nat.le_of_not_lt fun hlt => hv (Nat.div_eq_of_lt hlt))
      obtain ⟨fuel,rfl⟩ : ∃ k, fuel=k+1 := ⟨fuel-1,by omega⟩
      simp only [List.cons_append,List.append_assoc]
      rw [readVar,readBits_bitsOf,Option.some_bind]
      simp only [if_true,ih fuel (value/2^chunk) (by omega) (by omega),Option.map_some',Nat.mod_mod,Nat.mod_add_div]

theorem readVar_three (value : Nat) (rest : List Bool) :
    readVar 3 (varCode 3 value value++rest).length (varCode 3 value value++rest)=some (value,rest) := by
  have := varCode_three_length value
  exact readVar_varCode 3 (by norm_num) value _ value rest (Nat.log_le_self _ _) (by simp; omega)

/-- The codes `readCode` reads back: a DELTA of magnitude, or a REF of index, below `2^32`. -/
def Readable (c : Code) : Prop :=
  c.type=.DELTA ∧ c.value.natAbs < 2^32 ∨ c.type=.REF ∧ 0 ≤ c.value ∧ c.value < 2^32

theorem readCode_codeBits {c : Code} (hc : Readable c) (rest : List Bool) :
    readCode (codeBits c++rest)=some (c,rest) := by
  rcases c with ⟨t,v⟩
  rcases hc with ⟨rfl,hv⟩ | ⟨rfl,h0,hv⟩ <;> dsimp only at *
  · rw [codeBits_DELTA]
    split_ifs with hneg
    · have := toUnsigned_of_lt (x := -v) (by omega) (by omega)
      simp only [List.cons_append,readCode,readVar_three,Option.map_some',if_true,Option.some.injEq,
        Prod.mk.injEq,Code.mk.injEq,and_true,true_and]
      omega
    · have := toUnsigned_of_lt (x := v) (by omega) (by omega)
      simp only [List.cons_append,readCode,readVar_three,Option.map_some',Bool.false_eq_true,if_false,
        Option.some.injEq,Prod.mk.injEq,Code.mk.injEq,and_true,true_and]
      omega
  · have := toUnsigned_of_lt (x := v) h0 hv
    simp only [codeBits_REF,List.cons_append,readCode,readVar_three,Option.map_some',Option.some.injEq,
      Prod.mk.injEq,Code.mk.injEq,and_true,true_and]
    omega

/-- `codeLen` counts exactly the bits `packCode` appends, for every code and buffer; for a DELTA or
REF code those bits read back as the code whatever follows them: a prefix-free format. -/
theorem packCode_readCode (c : Code) (b : BitBuffer) :
    (packCode c b).getCount=b.getCount+codeLen c ∧
    (Readable c → ∀ rest, readCode ((packCode c b).bits.drop b.getCount++rest)=some (c,rest)) := by
  rw [packCode_eq]
  simp only [BitBuffer.getCount,push_bits,List.length_append,codeLen_eq,List.drop_left]
  exact ⟨trivial,readCode_codeBits⟩

theorem readVar_REPEAT {m : Nat} (hm : m < 2^32) (rest : List Bool) :
    readVar 3 (codeBits ⟨.REPEAT,m⟩++rest).length (codeBits ⟨.REPEAT,m⟩++rest)=some (m,rest) := by
  have hu : toUnsigned m=m := by have := toUnsigned_of_lt (x := m) (by omega) (by omega); omega
  rw [codeBits_REPEAT,hu,readVar_three]

/-! Codes rebuild their tiles. -/

@[simp] theorem applyCodes_nil (dict : List UInt16) : applyCodes dict []=dict := rfl

theorem applyCodes_cons (dict : List UInt16) (c : Code) (cs : List Code) :
    applyCodes dict (c :: cs)=applyCodes (dict++[applyCode dict c]) cs := rfl

theorem applyCodes_append (dict : List UInt16) (xs ys : List Code) :
    applyCodes dict (xs++ys)=applyCodes (applyCodes dict xs) ys := List.foldl_append _ _ _ _

@[simp] theorem applyCodes_length (dict : List UInt16) (codes : List Code) :
    (applyCodes dict codes).length=dict.length+codes.length := by
  induction codes generalizing dict with
  | nil => rfl
  | cons c cs ih => rw [applyCodes_cons,ih]; simp; omega

theorem applyCode_findBestCode (dict : List UInt16) (tile : UInt16) : applyCode dict (findBestCode dict tile)=tile := by
  rcases findBestCode_cases dict tile with h | ⟨i,-,h,hm,-⟩ <;> rw [h]
  · have ht : tile.toNat < 65536 := tile.toBitVec.isLt
    apply UInt16.toNat.inj
    unfold deltaCode applyCode
    split_ifs with he
    · rw [List.isEmpty_iff.mp he]
      simp only [List.getLastD_nil,UInt16.toNat_zero]
      rw [UInt16.toNat_ofNat_of_lt (by simp only [UInt16.size]; omega)]
      omega
    · dsimp only
      rw [UInt16.toNat_ofNat_of_lt (by simp only [UInt16.size]; omega)]
      omega
  · exact hm

theorem applyCodes_codesFrom (dict ts : List UInt16) : applyCodes dict (codesFrom dict ts)=dict++ts := by
  induction ts generalizing dict with
  | nil => simp [codesFrom]
  | cons t ts ih => rw [codesFrom,applyCodes_cons,applyCode_findBestCode,ih,List.append_assoc,List.singleton_append]

theorem findBestCode_readable (dict : List UInt16) (tile : UInt16) (hd : dict.length < 2^32) :
    Readable (findBestCode dict tile) := by
  rcases findBestCode_cases dict tile with h | ⟨i,hi,h,-⟩ <;> rw [h]
  · have ht : tile.toNat < 65536 := tile.toBitVec.isLt
    have hl : (dict.getLastD 0).toNat < 65536 := (dict.getLastD 0).toBitVec.isLt
    unfold deltaCode
    split_ifs <;> exact .inl ⟨rfl,by dsimp only; omega⟩
  · exact .inr ⟨rfl,by dsimp only; omega,by dsimp only; omega⟩

/-- The code `findBestCode` picks is lossless: its bits read back as it whatever follows them,
and applied to the dictionary it rebuilds the tile. -/
theorem findBestCode_lossless (dict : List UInt16) (tile : UInt16) (hd : dict.length < 2^32) (rest : List Bool) :
    readCode (codeBits (findBestCode dict tile)++rest)=some (findBestCode dict tile,rest) ∧
    applyCode dict (findBestCode dict tile)=tile :=
  ⟨readCode_codeBits (findBestCode_readable dict tile hd) rest,applyCode_findBestCode dict tile⟩

theorem findBestCode_lossless_repeat : ([5] : List UInt16).length < 2^32 ∧
    (readCode (codeBits (findBestCode [5] 5)++[])=some (findBestCode [5] 5,[]) ∧
    applyCode [5] (findBestCode [5] 5)=5) :=
  ⟨by norm_num,findBestCode_lossless [5] 5 (by norm_num) []⟩

theorem codesFrom_readable (dict ts : List UInt16) (h : dict.length+ts.length < 2^32) :
    ∀ c ∈ codesFrom dict ts, Readable c := by
  induction ts generalizing dict with
  | nil => simp [codesFrom]
  | cons t ts ih =>
    simp only [List.length_cons] at h
    simp only [codesFrom,List.mem_cons,forall_eq_or_imp]
    exact ⟨findBestCode_readable dict t (by omega),ih _ (by simp; omega)⟩

@[simp] theorem codesFrom_length (dict ts : List UInt16) : (codesFrom dict ts).length=ts.length := by
  induction ts generalizing dict <;> simp [codesFrom, *]

/-! One step of the block decoder, then one run of codes. -/

section Steps

variable {n fuel : Nat} {dict : List UInt16} {prev : Option Code} {bits : List Bool}

theorem decodeTiles_done (h : n ≤ dict.length) : decodeTiles n (fuel+1) dict prev bits=some dict := by
  simp [decodeTiles,h]

theorem decodeTiles_code {c : Code} {rest : List Bool} (h : dict.length < n)
    (hr : readCode bits=some (c,rest)) (hp : prev ≠ some c) :
    decodeTiles n (fuel+1) dict prev bits=decodeTiles n fuel (dict++[applyCode dict c]) (some c) rest := by
  simp [decodeTiles,Nat.not_le.mpr h,hr,hp]

theorem decodeTiles_repeat {c : Code} {m : Nat} {rest rest' : List Bool} (h : dict.length < n)
    (hr : readCode bits=some (c,rest)) (hm : readVar 3 rest.length rest=some (m,rest')) :
    decodeTiles n (fuel+1) dict (some c) bits=
      decodeTiles n fuel (applyCodes (dict++[applyCode dict c]) (List.replicate m c)) none rest' := by
  simp [decodeTiles,Nat.not_le.mpr h,hr,hm]

/-- The tokens of a run of `k` codes `c` rebuild its `k` tiles and leave the decoder expecting a
new pair exactly when no REPEAT closed the run. -/
theorem decodeTiles_runToken {c : Code} {k : Nat} (hk : 1 ≤ k) (hk' : k < 2^32+2) (hc : Readable c)
    (hp : prev ≠ some c) (hn : dict.length+k ≤ n) (rest : List Bool) :
    decodeTiles n (fuel+min k 2) dict prev ((runToken c k).flatMap codeBits++rest)=
      decodeTiles n fuel (applyCodes dict (List.replicate k c)) (if 2 ≤ k then none else some c) rest := by
  unfold runToken
  split_ifs with h2
  · obtain ⟨j,rfl⟩ : ∃ j, k=j+2 := ⟨k-2,by omega⟩
    simp only [List.flatMap_cons,List.flatMap_nil,List.append_nil,List.append_assoc,
      show min (j+2) 2=1+1 by omega,← Nat.add_assoc,Nat.add_sub_cancel]
    rw [decodeTiles_code (by omega) (readCode_codeBits hc _) hp,
      decodeTiles_repeat (by simp; omega) (readCode_codeBits hc _) (readVar_REPEAT (by omega) rest)]
    rfl
  · obtain rfl : k=1 := by omega
    simp only [List.flatMap_cons,List.flatMap_nil,List.append_nil]
    exact decodeTiles_code (by omega) (readCode_codeBits hc _) hp

end Steps

/-- The tokens of a run of `k` codes `c` and of the runs of `ds` after it rebuild their tiles. -/
theorem decodeTiles_rleRun (ds : List Code) (hds : ∀ d ∈ ds, Readable d) {c : Code} (hc : Readable c)
    {k n fuel : Nat} {dict : List UInt16} {prev : Option Code} (hk : 1 ≤ k) (hp : prev ≠ some c)
    (hl : k+ds.length < 2^32) (hn : n=dict.length+k+ds.length) (hfuel : k+ds.length < fuel) (rest : List Bool) :
    decodeTiles n fuel dict prev ((rleRun c k ds).flatMap codeBits++rest)=some (applyCodes dict (List.replicate k c++ds)) := by
  induction ds generalizing c k dict prev fuel with
  | nil =>
    simp only [List.length_nil,Nat.add_zero] at hn hfuel
    obtain ⟨f,rfl⟩ : ∃ f, fuel=f+1+min k 2 := ⟨fuel-1-min k 2,by omega⟩
    rw [rleRun,decodeTiles_runToken hk (by omega) hc hp (by omega),List.append_nil,
      decodeTiles_done (by simp; omega)]
  | cons d ds ih =>
    have hd := hds d (List.mem_cons_self _ _)
    have hds' := fun e he => hds e (List.mem_cons_of_mem d he)
    simp only [List.length_cons] at hl hn hfuel
    rw [rleRun]
    split_ifs with hdc
    · subst hdc
      rw [ih hds' hc (by omega) hp (by omega) (by omega) (by omega),List.replicate_succ',List.append_assoc,
        List.singleton_append]
    · obtain ⟨f,rfl⟩ : ∃ f, fuel=f+min k 2 := ⟨fuel-min k 2,by omega⟩
      have hprev : (if 2 ≤ k then none else some c) ≠ some d := by
        split_ifs <;> simp [Ne.symm hdc]
      rw [List.flatMap_append,List.append_assoc,decodeTiles_runToken hk (by omega) hc hp (by omega),
        ih hds' hd (le_refl 1) hprev (by omega) (by simp; omega) (by omega),← applyCodes_append,
        List.replicate_one,List.singleton_append]

/-- The block decoder inverts the run-length tokens of any readable codes. -/
theorem decodeBlock_rleTokens (codes : List Code) (hc : ∀ c ∈ codes, Readable c) (hl : codes.length < 2^32)
    (rest : List Bool) : decodeBlock codes.length ((rleTokens codes).flatMap codeBits++rest)=some (applyCodes [] codes) := by
  cases codes with
  | nil => rfl
  | cons c cs =>
    simp only [List.length_cons] at hl
    rw [decodeBlock,List.length_cons]
    exact decodeTiles_rleRun cs (fun d hd => hc d (List.mem_cons_of_mem c hd)) (hc c (List.mem_cons_self _ _))
      (le_refl 1) Option.noConfusion (by omega) (by simp only [List.length_nil]; omega) (by omega) rest

/-- A block's tiles come back from its reference payload, whatever words follow it. -/
theorem decodeBlock_referencePayload (ts : List UInt16) (hl : ts.length < 2^32) (more : List UInt16) :
    decodeBlock ts.length (bitsOfWords (referencePayload ts++more))=some ts := by
  have hd := decodeBlock_rleTokens (codesFrom [] ts) (codesFrom_readable [] ts (by simpa using hl)) (by simpa using hl)
    (List.replicate ((16-((rleTokens (codesFrom [] ts)).flatMap codeBits).length%16)%16) false++bitsOfWords more)
  rw [codesFrom_length,applyCodes_codesFrom,List.nil_append] at hd
  rw [bitsOfWords_append,referencePayload,bitsOfWords_packWords,padBits,List.append_assoc,hd]

/-- Equal-length tile lists with the same payload are the same: the payload loses nothing. -/
theorem referencePayload_inj {ts us : List UInt16} (hl : ts.length=us.length) (hs : ts.length < 2^32)
    (h : referencePayload ts=referencePayload us) : ts=us := by
  have hd := decodeBlock_referencePayload ts hs []
  rw [h,hl,decodeBlock_referencePayload us (hl ▸ hs) []] at hd
  exact (Option.some.inj hd).symm

/-- DUB block round trip: the words `encodeBlock` writes, whatever follows them, decode back to
the block's `width*height` tiles, read from `topLeft` with row stride `mWidth`. -/
theorem decodeBlock_encodeBlock (tiles : List UInt16) (topLeft mWidth width height : Nat)
    (hsize : width*height < 2^32) (more : List UInt16) :
    decodeBlock (width*height) (bitsOfWords (encodeBlock tiles topLeft mWidth width height++more))=
      some (blockTiles tiles topLeft mWidth width height) := by
  have h := decodeBlock_referencePayload (blockTiles tiles topLeft mWidth width height)
    (by rw [blockTiles_length,Nat.mul_comm]; exact hsize) more
  rwa [blockTiles_length,Nat.mul_comm,← encodeBlock_eq_referencePayload] at h

theorem decodeBlock_encodeBlock_row : 2*1 < 2^32 ∧
    decodeBlock (2*1) (bitsOfWords (encodeBlock [7,7,9] 1 3 2 1++[]))=some (blockTiles [7,7,9] 1 3 2 1) :=
  ⟨by norm_num,decodeBlock_encodeBlock [7,7,9] 1 3 2 1 (by norm_num) []⟩

end Stir.DUBEncoder

import Mathlib.Data.List.Basic
import Mathlib.Tactic.NormNum
import Mathlib.Tactic.Linarith

namespace Stir

/-- A low part below `2^k` ORed with a high part shifted left by `k` is their sum: how both
encoders pack a byte or a word from its halves. -/
theorem lor_shiftLeft (a b k : Nat) (ha : a < 2^k) : a ||| b<<<k=a+2^k*b := by
  rw [Nat.or_comm,Nat.shiftLeft_eq,Nat.mul_comm,← Nat.mul_add_lt_is_or ha,Nat.add_comm]

end Stir

namespace Stir.DUBEncoder

/-- Modelled from the spec: `BitBuffer` is declared in a header that is not among the sources.
The spec's MSB-first accumulator, as the bits it holds, oldest first. `peak` is ghost state,
not in the source: the largest `getCount()` the buffer has reached. -/
@[ext] structure BitBuffer where
  bits : List Bool
  peak : Nat
  count_le_peak : bits.length ≤ peak

/-- A fresh `BitBuffer bits;`. -/
def BitBuffer.empty : BitBuffer := ⟨[],0,le_refl _⟩

/-- The `n` low bits of `value`, most significant first. -/
def bitsOf (value : Nat) : Nat → List Bool
  | 0 => []
  | n+1 => (value/2^n%2=1) :: bitsOf value n

/-- The `n` low bits of `value`, least significant first: the bits of a flushed word. -/
def lowBits : Nat → Nat → List Bool
  | 0, _ => []
  | n+1, value => (value%2=1) :: lowBits n (value/2)

/-- The number whose bits, least significant first, are `bits`. -/
def fromLowBits : List Bool → Nat
  | [] => 0
  | b :: bs => b.toNat+2*fromLowBits bs

/-- One flushed word: the oldest of its 16 bits lands in bit 0. -/
def wordOf (bits : List Bool) : UInt16 := UInt16.ofNat (fromLowBits bits)

/-- The 16 bits of a word, in the order they were appended. -/
def bitsOfWord (w : UInt16) : List Bool := lowBits 16 w.toNat

/-- The bits of a word sequence, in order. -/
def bitsOfWords (ws : List UInt16) : List Bool := ws.flatMap bitsOfWord

/-- `n` words from the front of `bits`. -/
def takeWords (bits : List Bool) : Nat → List UInt16
  | 0 => []
  | n+1 => wordOf (bits.take 16) :: takeWords (bits.drop 16) n

/-- `bits` right-padded with zeros to a whole number of words. -/
def padBits (bits : List Bool) : List Bool := bits++List.replicate ((16-bits.length%16)%16) false

theorem padBits_length_mod (bits : List Bool) : (padBits bits).length%16=0 := by
  simp only [padBits,List.length_append,List.length_replicate]
  omega

def BitBuffer.getCount (b : BitBuffer) : Nat := b.bits.length

/-- Appending `bs` to the buffer, the high-water mark following the count. -/
def BitBuffer.push (b : BitBuffer) (bs : List Bool) : BitBuffer :=
  ⟨b.bits++bs,max b.peak (b.bits.length+bs.length),by simp only [List.length_append]; omega⟩

/-- `append(value, n)`: the low `n` bits of `value`, most significant first. -/
def BitBuffer.append (b : BitBuffer) (value n : Nat) : BitBuffer := b.push (bitsOf value n)

/-- The loop of `appendVar`: a continuation flag, then the low `chunk` bits of what is left;
`fuel` bounds the groups, and reaching 0 writes the last one. -/
def BitBuffer.appendVarLoop (chunk : Nat) : Nat → Nat → BitBuffer → BitBuffer
  | 0, value, b => (b.append 0 1).append value chunk
  | fuel+1, value, b =>
    if value/2^chunk=0 then (b.append 0 1).append (value%2^chunk) chunk
    else appendVarLoop chunk fuel (value/2^chunk) ((b.append 1 1).append (value%2^chunk) chunk)

/-- `appendVar(value, chunk)`: `chunk`-bit groups, least significant first, each after a flag
that is 1 when more groups follow; at least one group. -/
def BitBuffer.appendVar (b : BitBuffer) (value chunk : Nat) : BitBuffer :=
  appendVarLoop chunk value value b

/-- `flush(into, final)`: whole words move to `data`; with `final` the rest is zero-padded to
a word first. -/
def BitBuffer.flush (b : BitBuffer) (data : List UInt16) (final : Bool) : BitBuffer × List UInt16 :=
  let bits := if final then padBits b.bits else b.bits
  (⟨bits.drop (16*(bits.length/16)),b.peak,by
    have := b.count_le_peak
    have := padBits_length_mod b.bits
    cases final <;> simp only [bits,List.length_drop,if_true,if_false,Bool.false_eq_true] <;> omega⟩,
    data++takeWords bits (bits.length/16))

/-- The bits `appendVarLoop` appends. -/
def varCode (chunk : Nat) : Nat → Nat → List Bool
  | 0, value => false :: bitsOf value chunk
  | fuel+1, value =>
    if value/2^chunk=0 then false :: bitsOf (value%2^chunk) chunk
    else true :: bitsOf (value%2^chunk) chunk++varCode chunk fuel (value/2^chunk)

@[simp] theorem bitsOf_length (value n : Nat) : (bitsOf value n).length=n := by
  induction n <;> simp [bitsOf, *]

@[simp] theorem lowBits_length (n value : Nat) : (lowBits n value).length=n := by
  induction n generalizing value <;> simp [lowBits, *]

@[simp] theorem push_bits (b : BitBuffer) (bs : List Bool) : (b.push bs).bits=b.bits++bs := rfl

@[simp] theorem push_peak (b : BitBuffer) (bs : List Bool) :
    (b.push bs).peak=max b.peak (b.bits.length+bs.length) := rfl

theorem push_push (b : BitBuffer) (xs ys : List Bool) : (b.push xs).push ys=b.push (xs++ys) := by
  ext1 <;> simp only [push_bits,push_peak,List.append_assoc,List.length_append]
  omega

@[simp] theorem push_nil (b : BitBuffer) : b.push []=b := by
  have := b.count_le_peak
  ext1 <;> simp only [push_bits,push_peak,List.append_nil,List.length_nil]
  omega

theorem appendVarLoop_eq (chunk fuel value : Nat) (b : BitBuffer) :
    BitBuffer.appendVarLoop chunk fuel value b=b.push (varCode chunk fuel value) := by
  induction fuel generalizing value b with
  | zero => simp [BitBuffer.appendVarLoop,varCode,BitBuffer.append,push_push,bitsOf]
  | succ fuel ih =>
    simp only [BitBuffer.appendVarLoop,varCode]
    split_ifs
    · simp [BitBuffer.append,push_push,bitsOf]
    · simp [ih,BitBuffer.append,push_push,bitsOf]

theorem appendVar_eq (b : BitBuffer) (value chunk : Nat) :
    b.appendVar value chunk=b.push (varCode chunk value value) := appendVarLoop_eq _ _ _ _

theorem fromLowBits_lt (bs : List Bool) : fromLowBits bs < 2^bs.length := by
  induction bs with
  | nil => simp [fromLowBits]
  | cons b bs ih => cases b <;> simp [fromLowBits,pow_succ] <;> omega

theorem lowBits_fromLowBits (bs : List Bool) : lowBits bs.length (fromLowBits bs)=bs := by
  induction bs with
  | nil => rfl
  | cons b bs ih =>
    simp only [List.length_cons,lowBits,fromLowBits]
    cases b <;> simp [Nat.add_mul_div_left,ih]

theorem fromLowBits_lowBits (n value : Nat) : fromLowBits (lowBits n value)=value%2^n := by
  induction n generalizing value with
  | zero => simp [lowBits,fromLowBits,Nat.mod_one]
  | succ n ih =>
    have hb : (decide (value%2=1)).toNat=value%2 := by
      rcases Nat.mod_two_eq_zero_or_one value with hv | hv <;> simp [hv]
    rw [lowBits,fromLowBits,ih,pow_succ',Nat.mod_mul,hb]

theorem bitsOfWord_wordOf (bs : List Bool) (h : bs.length=16) : bitsOfWord (wordOf bs)=bs := by
  have hl := fromLowBits_lt bs
  rw [h] at hl
  rw [bitsOfWord,wordOf,UInt16.toNat_ofNat_of_lt (by simpa [UInt16.size] using hl),← h,
    lowBits_fromLowBits]

theorem wordOf_bitsOfWord (w : UInt16) : wordOf (bitsOfWord w)=w := by
  have hw : w.toNat < 2^16 := w.toBitVec.isLt
  rw [wordOf,bitsOfWord,fromLowBits_lowBits,Nat.mod_eq_of_lt hw]
  exact UInt16.toNat.inj (UInt16.toNat_ofNat_of_lt hw)

@[simp] theorem bitsOfWord_length (w : UInt16) : (bitsOfWord w).length=16 := lowBits_length _ _

@[simp] theorem bitsOfWords_append (xs ys : List UInt16) :
    bitsOfWords (xs++ys)=bitsOfWords xs++bitsOfWords ys := by
  simp [bitsOfWords]

@[simp] theorem bitsOfWords_length (ws : List UInt16) : (bitsOfWords ws).length=16*ws.length := by
  induction ws with
  | nil => rfl
  | cons w ws ih =>
    simp only [bitsOfWords,List.flatMap_cons,List.length_append,bitsOfWord_length] at ih ⊢
    simp only [List.length_cons]
    omega

@[simp] theorem takeWords_length (bits : List Bool) (n : Nat) : (takeWords bits n).length=n := by
  induction n generalizing bits <;> simp [takeWords, *]

theorem bitsOfWords_takeWords (bits : List Bool) (n : Nat) (h : 16*n ≤ bits.length) :
    bitsOfWords (takeWords bits n)=bits.take (16*n) := by
  induction n generalizing bits with
  | zero => rfl
  | succ n ih =>
    have hd := ih (bits.drop 16) (by simp; omega)
    simp only [bitsOfWords,takeWords,List.flatMap_cons] at hd ⊢
    rw [hd,bitsOfWord_wordOf _ (by simp; omega),show 16*(n+1)=16+16*n by omega,List.take_add]

theorem takeWords_bitsOfWords (ws : List UInt16) : takeWords (bitsOfWords ws) ws.length=ws := by
  induction ws with
  | nil => rfl
  | cons w ws ih =>
    simp only [bitsOfWords,List.flatMap_cons,List.length_cons,takeWords] at ih ⊢
    rw [List.take_left' (bitsOfWord_length w),List.drop_left' (bitsOfWord_length w),
      wordOf_bitsOfWord,ih]

@[simp] theorem flush_peak (b : BitBuffer) (data : List UInt16) (final : Bool) :
    (b.flush data final).1.peak=b.peak := rfl

/-- A flush keeps the stream: the words written, then the bits held, are unchanged. -/
theorem flush_stream (b : BitBuffer) (data : List UInt16) :
    bitsOfWords (b.flush data false).2++(b.flush data false).1.bits=bitsOfWords data++b.bits := by
  simp only [BitBuffer.flush,if_false,Bool.false_eq_true,bitsOfWords_append,List.append_assoc,
    bitsOfWords_takeWords _ _ (Nat.mul_div_le _ _),List.take_append_drop]

theorem flush_count (b : BitBuffer) (data : List UInt16) : (b.flush data false).1.bits.length < 16 := by
  simp only [BitBuffer.flush,if_false,Bool.false_eq_true,List.length_drop]
  omega

/-- The final flush writes every bit held, zero-padded to a word, and empties the buffer. -/
theorem flush_final (b : BitBuffer) (data : List UInt16) :
    (b.flush data true).1.bits=[] ∧ bitsOfWords (b.flush data true).2=bitsOfWords data++padBits b.bits := by
  have hp := padBits_length_mod b.bits
  simp only [BitBuffer.flush,if_true,bitsOfWords_append,
    bitsOfWords_takeWords _ _ (Nat.mul_div_le _ _),Nat.mul_div_cancel' (Nat.dvd_of_mod_eq_zero hp),
    List.take_length,List.drop_length,and_self]

end Stir.DUBEncoder

import Stir.DUBEncoder.Block
import Mathlib.Data.List.Nodup
import Mathlib.Tactic.Ring

namespace Stir.DUBEncoder

/-- `DUBEncoder::BLOCK_SIZE`. -/
def BLOCK_SIZE : Nat := 8

end Stir.DUBEncoder

namespace Stir

/-- The members of `DUBEncoder` that dubencoder.cpp reads and writes; the class is declared in
dubencoder.h, which is not among the sources. -/
structure DUBEncoder where
  mWidth : Nat
  mHeight : Nat
  mFrames : Nat
  indexResult : List UInt16
  blockResult : List UInt16
  mIndex16 : Bool

end Stir

namespace Stir.DUBEncoder

/-- Modelled from the spec: the constructor is declared in dubencoder.h; an encoder starts with
its three dimensions and empty index and block data. -/
def new (width height frames : Nat) : DUBEncoder := ⟨width,height,frames,[],[],false⟩

/-- `DUBEncoder::getIndexSize`: the index, in words. `unsigned s = indexResult.size()` keeps the
size's low 32 bits, and `(s + 1) / 2` is `unsigned` too. -/
def getIndexSize (enc : DUBEncoder) : Nat :=
  let s := enc.indexResult.length%2^32
  if enc.mIndex16 then s else (s+1)%2^32/2

/-- `DUBEncoder::packIndex`: `getIndexSize() + indexResult[i] - nextWord` in `unsigned`. -/
def packIndex (enc : DUBEncoder) (i : Nat) : Nat :=
  let nextWord : Nat := if enc.mIndex16 then (i+1)%2^32 else (i+2)%2^32/2
  (((getIndexSize enc+(enc.indexResult.getD i 0).toNat : Nat)-(nextWord : Int))%2^32).toNat

/-- `DUBEncoder::isTooLarge`: the `unsigned` index size plus `blockResult.size()`, summed in
`size_t`. -/
def isTooLarge (enc : DUBEncoder) : Bool := 0x10000 ≤ getIndexSize enc+enc.blockResult.length

/-- `DUBEncoder::isIndex16`. -/
def isIndex16 (enc : DUBEncoder) : Bool := enc.mIndex16

/-- `DUBEncoder::getCompressedWords`, returned as `unsigned`. -/
def getCompressedWords (enc : DUBEncoder) : Nat := (getIndexSize enc+enc.blockResult.length)%2^32

/-- The loops of `encodeTiles`: frames, block rows `y = 0, 8, ...`, block columns `x = 0, 8, ...`. -/
def blockOrigins (width height frames : Nat) : List (Nat × Nat × Nat) :=
  (List.range frames).flatMap fun f => (List.range ((height+BLOCK_SIZE-1)/BLOCK_SIZE)).flatMap fun j =>
    (List.range ((width+BLOCK_SIZE-1)/BLOCK_SIZE)).map fun i => (f,j*BLOCK_SIZE,i*BLOCK_SIZE)

/-- One block loop of `encodeTiles`, `for (unsigned x = 0; x < limit; x += BLOCK_SIZE)`, run for at
most `fuel` turns from `x`: the values `x` takes, or `none` if the loop has not ended by then. -/
def blockLoop (limit : Nat) : Nat → Nat → Option (List Nat)
  | 0, _ => none
  | fuel+1, x => if x < limit then (blockLoop limit fuel ((x+BLOCK_SIZE)%2^32)).map (x :: ·) else some []

/-- `encodeBlock(&tiles[x + y*mWidth + f*mWidth*mHeight], w, h, blockData)` for the block at
`(f, y, x)`, clipped to `w = min(BLOCK_SIZE, mWidth - x)` and `h = min(BLOCK_SIZE, mHeight - y)`. -/
def blockPayload (tiles : List UInt16) (width height : Nat) (o : Nat × Nat × Nat) : List UInt16 :=
  encodeBlock tiles ((o.2.2+o.2.1*width+o.1*width*height)%2^32) width
    (min BLOCK_SIZE (width-o.2.2)) (min BLOCK_SIZE (height-o.2.1))

/-- The deduplication of one payload against `dedupeMemo`: a unique block is stored at
`uint16_t addr = blockResult.size()`, a duplicate reuses its address. -/
def storeBlock (st : DUBEncoder × List (List UInt16 × UInt16)) (blockData : List UInt16) :
    DUBEncoder × List (List UInt16 × UInt16) :=
  match st.2.lookup blockData with
  | none =>
    let addr := UInt16.ofNat st.1.blockResult.length
    ({ st.1 with indexResult := st.1.indexResult++[addr], blockResult := st.1.blockResult++blockData },
      st.2++[(blockData,addr)])
  | some addr => ({ st.1 with indexResult := st.1.indexResult++[addr] },st.2)

/-- `DUBEncoder::encodeTiles`: every block encoded and deduplicated, then the index width chosen
by probing `packIndex` under the 8-bit hypothesis, for `I` below `E = indexResult.size()` as
`unsigned`. -/
def encodeTiles (enc : DUBEncoder) (tiles : List UInt16) : DUBEncoder :=
  let enc := ((blockOrigins enc.mWidth enc.mHeight enc.mFrames).foldl
    (fun st o => storeBlock st (blockPayload tiles enc.mWidth enc.mHeight o)) (enc,[])).1
  let index16 := (List.range (enc.indexResult.length%2^32)).any
    fun i => 0x100 ≤ packIndex { enc with mIndex16 := false } i
  { enc with mIndex16 := index16 }

/-- The 8-bit index of `getResult`: a zero byte when the count is odd (`index8.size() & 1`), then
`index8[I] | (index8[I+1] << 8)` for `I = 0, 2, ...` below `E = index8.size()` as `unsigned`. -/
def packBytes (index8 : List UInt8) : List UInt16 :=
  let index8 := if index8.length%2=1 then index8++[0] else index8
  (List.range (index8.length%2^32/2)).map
    fun j => UInt16.ofNat ((index8.getD (2*j) 0).toNat ||| (index8.getD (2*j+1) 0).toNat<<<8)

/-- `DUBEncoder::getResult`: the relocated index, then the block data (the words appended to
`result`); the index loops run `I` below `E = indexResult.size()` as `unsigned`. -/
def getResult (enc : DUBEncoder) : List UInt16 :=
  let n := enc.indexResult.length%2^32
  let index := if enc.mIndex16 then (List.range n).map fun i => UInt16.ofNat (packIndex enc i)
    else packBytes ((List.range n).map fun i => UInt8.ofNat (packIndex enc i))
  index++enc.blockResult

/-! The deduplicated block data, as the spec describes it. -/

/-- The payloads of the blocks, in the order of `encodeTiles`' loops. -/
def blockPayloads (tiles : List UInt16) (width height frames : Nat) : List (List UInt16) :=
  (blockOrigins width height frames).map (blockPayload tiles width height)

/-- The distinct payloads, in first-occurrence order. -/
def uniqueInOrder (ps : List (List UInt16)) : List (List UInt16) :=
  ps.foldl (fun u p => if p ∈ u then u else u++[p]) []

/-- The word offset at which `p` starts in the concatenation of `u`. -/
def offsetIn (p : List UInt16) : List (List UInt16) → Nat
  | [] => 0
  | q :: u => if q=p then 0 else q.length+offsetIn p u

/-- Modelled from the spec: the decoder's read of index entry `i`, a word of a 16-bit index or
byte `i % 2` (little-endian) of word `i / 2` of an 8-bit one. -/
def indexEntry (index16 : Bool) (words : List UInt16) (i : Nat) : Nat :=
  if index16 then (words.getD i 0).toNat else (words.getD (i/2) 0).toNat/256^(i%2)%256

/-- The word just past the slot of entry `i`. -/
def nextWordOf (index16 : Bool) (i : Nat) : Nat := if index16 then i+1 else i/2+1

/-- Where entry `i` of the index of `getResult` points. -/
def blockPointer (enc : DUBEncoder) (i : Nat) : Nat :=
  nextWordOf (isIndex16 enc) i+indexEntry (isIndex16 enc) (getResult enc) i

theorem blockPointer_eq (enc : DUBEncoder) (i : Nat) :
    nextWordOf (isIndex16 enc) i+indexEntry (isIndex16 enc) (getResult enc) i=blockPointer enc i := rfl

/-! Distinct payloads and their offsets. -/

theorem uniqueInOrder_append (ps : List (List UInt16)) (p : List UInt16) :
    uniqueInOrder (ps++[p])=if p ∈ uniqueInOrder ps then uniqueInOrder ps else uniqueInOrder ps++[p] := by
  simp [uniqueInOrder]

theorem uniqueInOrder_nodup (ps : List (List UInt16)) : (uniqueInOrder ps).Nodup := by
  induction ps using List.reverseRecOn with
  | nil => exact List.nodup_nil
  | append_singleton ps p ih =>
    rw [uniqueInOrder_append]
    split_ifs with h
    · exact ih
    · exact List.nodup_append.mpr ⟨ih,List.nodup_singleton p,by simpa using h⟩

theorem mem_uniqueInOrder {ps : List (List UInt16)} {p : List UInt16} : p ∈ uniqueInOrder ps ↔ p ∈ ps := by
  induction ps using List.reverseRecOn with
  | nil => simp [uniqueInOrder]
  | append_singleton ps q ih =>
    rw [uniqueInOrder_append,List.mem_append,List.mem_singleton,← ih]
    split_ifs with h
    · exact ⟨Or.inl,by rintro (hp | rfl); exacts [hp,h]⟩
    · simp

theorem offsetIn_append_of_mem {p : List UInt16} {u : List (List UInt16)} (v : List (List UInt16)) (h : p ∈ u) :
    offsetIn p (u++v)=offsetIn p u := by
  induction u with
  | nil => simp at h
  | cons q u ih =>
    simp only [List.cons_append,offsetIn,List.append_eq]
    split_ifs with hq
    · rfl
    · rw [ih (by simpa [Ne.symm hq] using h)]

theorem offsetIn_append_self {p : List UInt16} {u : List (List UInt16)} (h : p ∉ u) :
    offsetIn p (u++[p])=u.flatten.length := by
  induction u with
  | nil => simp [offsetIn]
  | cons q u ih =>
    have hq : q ≠ p := fun e => h (by simp [e])
    simp only [List.cons_append,offsetIn,if_neg hq,List.flatten_cons,List.length_append,List.append_eq]
    rw [ih (fun hm => h (List.mem_cons_of_mem _ hm))]

/-- The concatenation, from the offset of one of its payloads, starts with that payload. -/
theorem drop_offsetIn {p : List UInt16} {u : List (List UInt16)} (h : p ∈ u) :
    ∃ rest, u.flatten.drop (offsetIn p u)=p++rest := by
  induction u with
  | nil => simp at h
  | cons q u ih =>
    simp only [offsetIn,List.flatten_cons]
    split_ifs with hq
    · exact ⟨u.flatten,by simp [hq]⟩
    · obtain ⟨rest,hr⟩ := ih (by simpa [Ne.symm hq] using h)
      exact ⟨rest,by rw [List.drop_append_eq_append_drop,List.drop_of_length_le (by omega)]; simpa using hr⟩

theorem offsetIn_add_length_le {p : List UInt16} {u : List (List UInt16)} (h : p ∈ u) :
    offsetIn p u+p.length ≤ u.flatten.length := by
  induction u with
  | nil => simp at h
  | cons q u ih =>
    simp only [offsetIn,List.flatten_cons,List.length_append]
    split_ifs with hq
    · subst hq; omega
    · have := ih (by simpa [Ne.symm hq] using h); omega

/-- Distinct non-empty payloads start at distinct offsets. -/
theorem offsetIn_inj {u : List (List UInt16)} (hn : u.Nodup) (he : ∀ q ∈ u, q ≠ [])
    {p q : List UInt16} (hp : p ∈ u) (hq : q ∈ u) (h : offsetIn p u=offsetIn q u) : p=q := by
  induction u with
  | nil => simp at hp
  | cons a u ih =>
    have ha : a ≠ [] := he a (List.mem_cons_self _ _)
    have hu := fun r hr => he r (List.mem_cons_of_mem a hr)
    obtain ⟨han,hnu⟩ := List.nodup_cons.mp hn
    have hl := List.length_pos.mpr ha
    simp only [offsetIn] at h
    by_cases hap : a=p
    · subst hap
      by_cases haq : a=q
      · exact haq
      · simp only [eq_self_iff_true,if_true,if_neg haq] at h; omega
    · by_cases haq : a=q
      · subst haq; simp only [eq_self_iff_true,if_true,if_neg hap] at h; omega
      · simp only [if_neg hap,if_neg haq] at h
        exact ih hnu hu (by simpa [Ne.symm hap] using hp) (by simpa [Ne.symm haq] using hq) (by omega)

theorem lookup_map_self (u : List (List UInt16)) (f : List UInt16 → UInt16) (p : List UInt16) :
    (u.map fun q => (q,f q)).lookup p=if p ∈ u then some (f p) else none := by
  induction u with
  | nil => rfl
  | cons q u ih =>
    simp only [List.map_cons,List.lookup_cons,List.mem_cons]
    by_cases hpq : p=q
    · subst hpq; simp
    · have hb : (p == q)=false := by simp [hpq]
      simp only [hb,ih,hpq,false_or]

/-! The run of `encodeTiles`. -/

/-- `dedupeMemo`, `blockResult` and `indexResult` after the payloads `ps`: the distinct payloads
in first-occurrence order, each at its offset in their concatenation. -/
structure MemoInv (st : DUBEncoder × List (List UInt16 × UInt16)) (ps : List (List UInt16)) : Prop where
  memo : st.2=(uniqueInOrder ps).map fun p => (p,UInt16.ofNat (offsetIn p (uniqueInOrder ps)))
  blocks : st.1.blockResult=(uniqueInOrder ps).flatten
  index : st.1.indexResult=ps.map fun p => UInt16.ofNat (offsetIn p (uniqueInOrder ps))

theorem storeBlock_inv {st : DUBEncoder × List (List UInt16 × UInt16)} {ps : List (List UInt16)}
    (h : MemoInv st ps) (p : List UInt16) : MemoInv (storeBlock st p) (ps++[p]) := by
  have hl : st.2.lookup p=if p ∈ uniqueInOrder ps then some (UInt16.ofNat (offsetIn p (uniqueInOrder ps)))
      else none := by rw [h.memo,lookup_map_self]
  unfold storeBlock
  rw [hl]
  by_cases hp : p ∈ uniqueInOrder ps
  · simp only [if_pos hp]
    refine ⟨?_,?_,?_⟩ <;> simp only [uniqueInOrder_append,if_pos hp]
    · exact h.memo
    · exact h.blocks
    · simp [h.index]
  · have keep : ∀ q ∈ uniqueInOrder ps, offsetIn q (uniqueInOrder ps++[p])=offsetIn q (uniqueInOrder ps) :=
      fun q hq => offsetIn_append_of_mem _ hq
    have top : offsetIn p (uniqueInOrder ps++[p])=st.1.blockResult.length := by
      rw [offsetIn_append_self hp,h.blocks]
    simp only [if_neg hp]
    refine ⟨?_,?_,?_⟩ <;> simp only [uniqueInOrder_append,if_neg hp]
    · simp only [h.memo,List.map_append,List.map_singleton,top]
      congr 1
      exact List.map_congr_left fun q hq => by rw [keep q hq]
    · simp [h.blocks]
    · simp only [h.index,List.map_append,List.map_singleton,top]
      congr 1
      exact List.map_congr_left fun q hq => by rw [keep q (mem_uniqueInOrder.mpr hq)]

theorem foldl_storeBlock_inv (ps : List (List UInt16)) {st : DUBEncoder × List (List UInt16 × UInt16)}
    {qs : List (List UInt16)} (h : MemoInv st qs) : MemoInv (ps.foldl storeBlock st) (qs++ps) := by
  induction ps generalizing st qs with
  | nil => simpa using h
  | cons p ps ih => simpa using ih (storeBlock_inv h p)

theorem encodeTiles_memo (tiles : List UInt16) (width height frames : Nat) :
    MemoInv ((blockOrigins width height frames).foldl
      (fun st o => storeBlock st (blockPayload tiles width height o)) (new width height frames,[]))
      (blockPayloads tiles width height frames) := by
  have h := foldl_storeBlock_inv (blockPayloads tiles width height frames)
    (⟨rfl,rfl,rfl⟩ : MemoInv (new width height frames,[]) [])
  rw [List.nil_append] at h
  rw [← List.foldl_map]
  exact h

theorem encodeTiles_blockResult (tiles : List UInt16) (width height frames : Nat) :
    (encodeTiles (new width height frames) tiles).blockResult=
      (uniqueInOrder (blockPayloads tiles width height frames)).flatten :=
  (encodeTiles_memo tiles width height frames).blocks

theorem encodeTiles_indexResult (tiles : List UInt16) (width height frames : Nat) :
    (encodeTiles (new width height frames) tiles).indexResult=(blockPayloads tiles width height frames).map
      fun p => UInt16.ofNat (offsetIn p (uniqueInOrder (blockPayloads tiles width height frames))) :=
  (encodeTiles_memo tiles width height frames).index

/-! The words `getResult` writes. -/

/-- Below `2^32 - 1` entries the `unsigned` narrowing of the index size changes nothing. -/
theorem getIndexSize_of_lt {enc : DUBEncoder} (hn : enc.indexResult.length+1 < 2^32) :
    getIndexSize enc=if enc.mIndex16 then enc.indexResult.length else (enc.indexResult.length+1)/2 := by
  simp only [getIndexSize]
  split_ifs <;> omega

theorem packBytes_length (bytes : List UInt8) :
    (packBytes bytes).length=(bytes.length+bytes.length%2)%2^32/2 := by
  unfold packBytes
  split_ifs with h
  · rw [List.length_map,List.length_range,List.length_append,List.length_singleton,h]
  · rw [List.length_map,List.length_range]
    omega

/-- Byte `i % 2` of word `i / 2` of the packed index is byte `i`, away from the `unsigned` wrap. -/
theorem packBytes_byte (bytes : List UInt8) {i : Nat} (hw : bytes.length+1 < 2^32) (hi : i < bytes.length) :
    ((packBytes bytes).getD (i/2) 0).toNat/256^(i%2)%256=(bytes.getD i 0).toNat := by
  set padded := if bytes.length%2=1 then bytes++[0] else bytes with hpad
  have hlen : padded.length=2*((bytes.length+1)/2) := by
    rw [hpad]
    split_ifs with h
    · simp; omega
    · omega
  have hget : ∀ k < bytes.length, padded.getD k 0=bytes.getD k 0 := fun k hk => by
    rw [hpad]; split_ifs
    · exact List.getD_append _ _ _ _ hk
    · rfl
  have hword : (packBytes bytes).getD (i/2) 0=
      UInt16.ofNat ((padded.getD (2*(i/2)) 0).toNat ||| (padded.getD (2*(i/2)+1) 0).toNat<<<8) := by
    have : i/2 < padded.length%2^32/2 := by omega
    simp only [packBytes,List.getD_eq_getElem?_getD,List.getElem?_map,List.getElem?_range this]
    rfl
  have hb : ∀ k, (padded.getD k 0).toNat < 256 := fun k => (padded.getD k 0).toBitVec.isLt
  have h0 := hb (2*(i/2))
  have h1 := hb (2*(i/2)+1)
  rw [hword,lor_shiftLeft _ _ 8 h0,UInt16.toNat_ofNat_of_lt (by simp only [UInt16.size]; omega),← hget i hi]
  rcases Nat.mod_two_eq_zero_or_one i with h | h
  · rw [show 2*(i/2)=i by omega,h] at *; omega
  · rw [show 2*(i/2)+1=i by omega,h] at *; omega

theorem nextWordOf_le (enc : DUBEncoder) {i : Nat} (hn : enc.indexResult.length+1 < 2^32)
    (hi : i < enc.indexResult.length) : nextWordOf enc.mIndex16 i ≤ getIndexSize enc := by
  rw [getIndexSize_of_lt hn]
  unfold nextWordOf
  split_ifs <;> omega

/-- Away from the 32-bit wraps, the packed entry is the distance from the word after its slot to
the block's address past the index. -/
theorem nextWordOf_add_packIndex (enc : DUBEncoder) {i : Nat} (hn : enc.indexResult.length+1 < 2^32)
    (hi : i < enc.indexResult.length) (hw : getIndexSize enc+(enc.indexResult.getD i 0).toNat < 2^32) :
    nextWordOf enc.mIndex16 i+packIndex enc i=getIndexSize enc+(enc.indexResult.getD i 0).toNat := by
  have := nextWordOf_le enc hn hi
  unfold packIndex
  dsimp only
  unfold nextWordOf at this ⊢
  split_ifs at this ⊢ <;> omega

/-- The index `getResult` writes has `getIndexSize()` words, for every encoder state: the source's
`assert`. -/
theorem getResult_eq (enc : DUBEncoder) :
    ∃ index, getResult enc=index++enc.blockResult ∧ index.length=getIndexSize enc := by
  refine ⟨_,rfl,?_⟩
  simp only [getIndexSize]
  split_ifs
  · simp
  · simp [packBytes_length]; omega

theorem getResult_length (enc : DUBEncoder) : (getResult enc).length=getIndexSize enc+enc.blockResult.length := by
  obtain ⟨index,h,hl⟩ := getResult_eq enc
  rw [h,List.length_append,hl]

theorem getResult_drop (enc : DUBEncoder) : (getResult enc).drop (getIndexSize enc)=enc.blockResult := by
  obtain ⟨index,h,hl⟩ := getResult_eq enc
  rw [h,← hl,List.drop_left]

/-- What the decoder reads for entry `i` is `packIndex(i)` narrowed to the index width. -/
theorem indexEntry_getResult (enc : DUBEncoder) {i : Nat} (hn : enc.indexResult.length+1 < 2^32)
    (hi : i < enc.indexResult.length) :
    indexEntry enc.mIndex16 (getResult enc) i=packIndex enc i%(if enc.mIndex16 then 65536 else 256) := by
  have hm : enc.indexResult.length%2^32=enc.indexResult.length := Nat.mod_eq_of_lt (by omega)
  unfold indexEntry getResult
  dsimp only
  rw [hm]
  split_ifs with h
  · rw [List.getD_append _ _ _ _ (by simpa using hi)]
    simp [hi,UInt16.toNat,UInt16.ofNat,BitVec.toNat_ofNat]
  · have hb : i/2 < (packBytes ((List.range enc.indexResult.length).map
        fun i => UInt8.ofNat (packIndex enc i))).length := by rw [packBytes_length]; simp; omega
    rw [List.getD_append _ _ _ _ hb,packBytes_byte _ (by simpa using hn) (by simpa using hi)]
    simp [hi,UInt8.toNat,UInt8.ofNat,BitVec.toNat_ofNat]

/-- The layout of `getResult`, for every encoder state: `getIndexSize()` index words (the source's
`assert`), then the block data as is; `getCompressedWords()` is that length as `unsigned`, and
`isTooLarge` is the check that the result has `0x10000` words or more. Below `2^32 - 1` entries,
entry `i` reads back as `packIndex(i)` narrowed to the index width. -/
theorem getResult_layout (enc : DUBEncoder) :
    ∃ index, getResult enc=index++enc.blockResult ∧ index.length=getIndexSize enc ∧
      getCompressedWords enc=(getResult enc).length%2^32 ∧
      (isTooLarge enc=true ↔ 0x10000 ≤ (getResult enc).length) ∧
      (enc.indexResult.length+1 < 2^32 → ∀ i < enc.indexResult.length,
        indexEntry enc.mIndex16 (getResult enc) i=packIndex enc i%(if enc.mIndex16 then 65536 else 256)) := by
  obtain ⟨index,h,hl⟩ := getResult_eq enc
  have hlen := getResult_length enc
  exact ⟨index,h,hl,by rw [getCompressedWords,hlen],by rw [hlen,isTooLarge,decide_eq_true_iff],
    fun hn i hi => indexEntry_getResult enc hn hi⟩

/-! Deduplication and relocation. -/

theorem mem_blockOrigins {width height frames : Nat} {o : Nat × Nat × Nat}
    (h : o ∈ blockOrigins width height frames) : o.2.2 < width ∧ o.2.1 < height := by
  simp only [blockOrigins,BLOCK_SIZE,List.mem_flatMap,List.mem_map,List.mem_range] at h
  obtain ⟨f,-,j,hj,i,hi,rfl⟩ := h
  dsimp only
  omega

theorem blockOrigins_eq (width height frames : Nat) : blockOrigins width height frames=
    (List.range (frames*((height+7)/8*((width+7)/8)))).map fun b =>
      (b/((height+7)/8*((width+7)/8)),b%((height+7)/8*((width+7)/8))/((width+7)/8)*8,
        b%((height+7)/8*((width+7)/8))%((width+7)/8)*8) := by
  have hw : (width+BLOCK_SIZE-1)/BLOCK_SIZE=(width+7)/8 := by simp only [BLOCK_SIZE]; omega
  have hh : (height+BLOCK_SIZE-1)/BLOCK_SIZE=(height+7)/8 := by simp only [BLOCK_SIZE]; omega
  simp only [blockOrigins,hw,hh,range_flatMap_map]
  rfl

/-- The payload of the block at `(f, j, i)`, counted as `encodeTiles` counts blocks. -/
theorem blockPayloads_getD (tiles : List UInt16) (width height frames : Nat) {f j i : Nat} (hf : f < frames)
    (hj : j < (height+7)/8) (hi : i < (width+7)/8) :
    (f*((height+7)/8)+j)*((width+7)/8)+i < (blockPayloads tiles width height frames).length ∧
    (blockPayloads tiles width height frames).getD ((f*((height+7)/8)+j)*((width+7)/8)+i) []=
      blockPayload tiles width height (f,j*8,i*8) := by
  have hb : (f*((height+7)/8)+j)*((width+7)/8)+i=f*((height+7)/8*((width+7)/8))+(j*((width+7)/8)+i) := by ring
  have hc : j*((width+7)/8)+i < (height+7)/8*((width+7)/8) := mul_add_lt hj hi
  have hlt := mul_add_lt hf hc
  have hl : (blockPayloads tiles width height frames).length=frames*((height+7)/8*((width+7)/8)) := by
    simp [blockPayloads,blockOrigins_eq]
  refine ⟨by rw [hl,hb]; exact hlt,?_⟩
  rw [List.getD_eq_getElem _ _ (by rw [hl,hb]; exact hlt)]
  simp only [blockPayloads,blockOrigins_eq,List.getElem_map,List.getElem_range,hb,(divMod_mul_add hc).1,
    (divMod_mul_add hc).2,(divMod_mul_add hi).1,(divMod_mul_add hi).2]

/-- Every block of the frame has a tile, so a payload of at least one word. -/
theorem blockPayloads_ne_nil {tiles : List UInt16} {width height frames : Nat} {p : List UInt16}
    (h : p ∈ blockPayloads tiles width height frames) : p ≠ [] := by
  obtain ⟨o,ho,rfl⟩ := List.mem_map.mp h
  have := mem_blockOrigins ho
  rw [blockPayload,encodeBlock_eq_referencePayload]
  apply referencePayload_ne_nil
  rw [← List.length_pos,blockTiles_length]
  exact Nat.mul_pos (by simp [BLOCK_SIZE]; omega) (by simp [BLOCK_SIZE]; omega)

/-- The probe of `encodeTiles`, read off the encoder it returns. -/
theorem encodeTiles_mIndex16 (enc : DUBEncoder) (tiles : List UInt16) :
    (encodeTiles enc tiles).mIndex16=(List.range ((encodeTiles enc tiles).indexResult.length%2^32)).any
      fun i => 0x100 ≤ packIndex { encodeTiles enc tiles with mIndex16 := false } i := rfl

/-- Under the 8-bit index every packed entry the probe reached is below 256. -/
theorem packIndex_lt_of_index8 (enc : DUBEncoder) (tiles : List UInt16) (h : (encodeTiles enc tiles).mIndex16=false)
    {i : Nat} (hi : i < (encodeTiles enc tiles).indexResult.length%2^32) : packIndex (encodeTiles enc tiles) i < 256 := by
  have hp := encodeTiles_mIndex16 enc tiles
  generalize encodeTiles enc tiles=E at h hi hp ⊢
  cases E
  subst h
  rw [eq_comm,List.any_eq_false] at hp
  simpa using hp i (List.mem_range.mpr hi)

/-- An asset has at most `width*height*frames` blocks. -/
theorem blockPayloads_length_le (tiles : List UInt16) (width height frames : Nat) :
    (blockPayloads tiles width height frames).length ≤ width*height*frames := by
  rw [blockPayloads,List.length_map,blockOrigins_eq,List.length_map,List.length_range]
  calc frames*((height+7)/8*((width+7)/8)) ≤ frames*(height*width) :=
        Nat.mul_le_mul_left _ (Nat.mul_le_mul (by omega) (by omega))
    _=width*height*frames := by ring

theorem foldl_dedup_head (q : List UInt16) (u ps : List (List UInt16)) :
    ∃ t, ps.foldl (fun u p => if p ∈ u then u else u++[p]) (q :: u)=q :: t := by
  induction ps generalizing u with
  | nil => exact ⟨u,rfl⟩
  | cons p ps ih =>
    simp only [List.foldl_cons]
    split_ifs
    · exact ih u
    · exact ih (u++[p])

/-- The first payload is stored first, at offset 0. -/
theorem offsetIn_uniqueInOrder_cons (p : List UInt16) (ps : List (List UInt16)) :
    offsetIn p (uniqueInOrder (p :: ps))=0 := by
  obtain ⟨t,ht⟩ := foldl_dedup_head p [] ps
  simp only [uniqueInOrder,List.foldl_cons,List.not_mem_nil,if_false,List.nil_append]
  rw [ht,offsetIn,if_pos rfl]

theorem encodeTiles_index_length (tiles : List UInt16) (width height frames : Nat) :
    (encodeTiles (new width height frames) tiles).indexResult.length=(blockPayloads tiles width height frames).length := by
  rw [encodeTiles_indexResult,List.length_map]

/-- Past the size check, an asset of fewer than `2^32` tiles keeps its index clear of the
`unsigned` wrap of `(s + 1) / 2`: at `2^32 - 1` entries that wraps to 0, so the 8-bit probe sees
entry 0 point before the index and picks the 16-bit index, which alone is too large. -/
theorem encodeTiles_index_lt {tiles : List UInt16} {width height frames : Nat}
    (hsize : width*height*frames < 2^32) (h : isTooLarge (encodeTiles (new width height frames) tiles)=false) :
    (blockPayloads tiles width height frames).length+1 < 2^32 := by
  have hle := blockPayloads_length_le tiles width height frames
  have hlen := encodeTiles_index_length tiles width height frames
  by_contra hc
  have hn : (encodeTiles (new width height frames) tiles).indexResult.length=2^32-1 := by omega
  obtain ⟨p,ps,hps⟩ := List.exists_cons_of_length_pos (by omega : 0 < (blockPayloads tiles width height frames).length)
  have h0 : ((encodeTiles (new width height frames) tiles).indexResult.getD 0 0).toNat=0 := by
    rw [encodeTiles_indexResult,hps,List.map_cons,List.getD_cons_zero,offsetIn_uniqueInOrder_cons]
    rfl
  have h16 : (encodeTiles (new width height frames) tiles).mIndex16=true := by
    rw [encodeTiles_mIndex16,List.any_eq_true]
    refine ⟨0,List.mem_range.mpr (by rw [hn]; norm_num),?_⟩
    simp only [packIndex,getIndexSize,h0,hn]
    norm_num
  simp [isTooLarge,getIndexSize,h16,hn] at h
  omega

/-- What `getResult`'s index promises for the blocks `ps`: the block data is the distinct
payloads once each, in first-occurrence order; each entry survives its narrowing and points at
its block's payload inside the block data; two entries agree exactly on equal payloads. -/
structure IndexRelocates (enc : DUBEncoder) (ps : List (List UInt16)) : Prop where
  blocks : enc.blockResult=(uniqueInOrder ps).flatten
  nodup : (uniqueInOrder ps).Nodup
  lossless : ∀ i < ps.length, indexEntry (isIndex16 enc) (getResult enc) i=packIndex enc i
  pointer : ∀ i < ps.length, blockPointer enc i=getIndexSize enc+offsetIn (ps.getD i []) (uniqueInOrder ps)
  inside : ∀ i < ps.length, getIndexSize enc ≤ blockPointer enc i ∧ blockPointer enc i < (getResult enc).length ∧
    ps.getD i [] <+: (getResult enc).drop (blockPointer enc i)
  shared : ∀ i < ps.length, ∀ j < ps.length, blockPointer enc i=blockPointer enc j ↔ ps.getD i []=ps.getD j []

theorem getD_mem_uniqueInOrder {ps : List (List UInt16)} {i : Nat} (hi : i < ps.length) :
    ps.getD i [] ∈ uniqueInOrder ps := by
  rw [mem_uniqueInOrder,List.getD_eq_getElem _ _ hi]
  exact List.getElem_mem hi

/-- A stored payload starts strictly inside the block data. -/
theorem offsetIn_lt {tiles : List UInt16} {width height frames i : Nat}
    (hi : i < (blockPayloads tiles width height frames).length) :
    offsetIn ((blockPayloads tiles width height frames).getD i []) (uniqueInOrder (blockPayloads tiles width height frames)) <
      (encodeTiles (new width height frames) tiles).blockResult.length := by
  have hm := getD_mem_uniqueInOrder hi
  have hl := offsetIn_add_length_le hm
  have hp := List.length_pos.mpr (blockPayloads_ne_nil (mem_uniqueInOrder.mp hm))
  rw [encodeTiles_blockResult]
  omega

/-- The `uint16_t` address of block `i` is its payload's offset, below `2^16` words. -/
theorem encodeTiles_addr {tiles : List UInt16} {width height frames i : Nat}
    (hi : i < (blockPayloads tiles width height frames).length)
    (hw : (encodeTiles (new width height frames) tiles).blockResult.length < 65536) :
    ((encodeTiles (new width height frames) tiles).indexResult.getD i 0).toNat=
      offsetIn ((blockPayloads tiles width height frames).getD i []) (uniqueInOrder (blockPayloads tiles width height frames)) := by
  have ho := offsetIn_lt hi
  rw [encodeTiles_indexResult,List.getD_eq_getElem _ _ (by simpa using hi),List.getElem_map,
    ← List.getD_eq_getElem _ [] hi]
  exact UInt16.toNat_ofNat_of_lt (by simp only [UInt16.size]; omega)

/-- Past the size check, entry `i` plus the word after its slot is the payload's offset past the
index. -/
theorem encodeTiles_nextWord_add {tiles : List UInt16} {width height frames i : Nat}
    (hsize : width*height*frames < 2^32) (h : isTooLarge (encodeTiles (new width height frames) tiles)=false)
    (hi : i < (blockPayloads tiles width height frames).length) :
    nextWordOf (encodeTiles (new width height frames) tiles).mIndex16 i+packIndex (encodeTiles (new width height frames) tiles) i=
      getIndexSize (encodeTiles (new width height frames) tiles)+
        offsetIn ((blockPayloads tiles width height frames).getD i []) (uniqueInOrder (blockPayloads tiles width height frames)) := by
  have hsmall : getIndexSize (encodeTiles (new width height frames) tiles)+
      (encodeTiles (new width height frames) tiles).blockResult.length < 65536 := by simpa [isTooLarge] using h
  have hlen := encodeTiles_index_length tiles width height frames
  have hn := encodeTiles_index_lt hsize h
  have ha := encodeTiles_addr hi (by omega)
  have ho := offsetIn_lt hi
  rw [nextWordOf_add_packIndex _ (by omega) (by omega) (by omega),ha]

/-- Past the size check, no entry loses bits to its narrowing. -/
theorem encodeTiles_indexEntry {tiles : List UInt16} {width height frames i : Nat}
    (hsize : width*height*frames < 2^32) (h : isTooLarge (encodeTiles (new width height frames) tiles)=false)
    (hi : i < (blockPayloads tiles width height frames).length) :
    indexEntry (isIndex16 (encodeTiles (new width height frames) tiles)) (getResult (encodeTiles (new width height frames) tiles)) i=
      packIndex (encodeTiles (new width height frames) tiles) i := by
  have hsmall : getIndexSize (encodeTiles (new width height frames) tiles)+
      (encodeTiles (new width height frames) tiles).blockResult.length < 65536 := by simpa [isTooLarge] using h
  have hlen := encodeTiles_index_length tiles width height frames
  have hn := encodeTiles_index_lt hsize h
  have hsum := encodeTiles_nextWord_add hsize h hi
  have := offsetIn_lt hi
  rw [isIndex16,indexEntry_getResult _ (by omega) (by omega)]
  cases h16 : (encodeTiles (new width height frames) tiles).mIndex16
  · exact Nat.mod_eq_of_lt (packIndex_lt_of_index8 _ _ h16 (by rw [Nat.mod_eq_of_lt (by omega)]; omega))
  · show _%65536=_
    exact Nat.mod_eq_of_lt (by omega)

theorem encodeTiles_blockPointer {tiles : List UInt16} {width height frames i : Nat}
    (hsize : width*height*frames < 2^32) (h : isTooLarge (encodeTiles (new width height frames) tiles)=false)
    (hi : i < (blockPayloads tiles width height frames).length) :
    blockPointer (encodeTiles (new width height frames) tiles) i=getIndexSize (encodeTiles (new width height frames) tiles)+
      offsetIn ((blockPayloads tiles width height frames).getD i []) (uniqueInOrder (blockPayloads tiles width height frames)) := by
  rw [blockPointer,encodeTiles_indexEntry hsize h hi,isIndex16,encodeTiles_nextWord_add hsize h hi]

/-- The words from block `i`'s pointer start with its payload. -/
theorem getResult_drop_blockPointer {tiles : List UInt16} {width height frames i : Nat}
    (hsize : width*height*frames < 2^32) (h : isTooLarge (encodeTiles (new width height frames) tiles)=false)
    (hi : i < (blockPayloads tiles width height frames).length) :
    ∃ rest, (getResult (encodeTiles (new width height frames) tiles)).drop
      (blockPointer (encodeTiles (new width height frames) tiles) i)=(blockPayloads tiles width height frames).getD i []++rest := by
  obtain ⟨rest,hr⟩ := drop_offsetIn (getD_mem_uniqueInOrder hi)
  refine ⟨rest,?_⟩
  rw [encodeTiles_blockPointer hsize h hi,← List.drop_drop,getResult_drop,encodeTiles_blockResult,hr]

/-- DUB deduplication and index relocation. -/
theorem encodeTiles_relocates (tiles : List UInt16) (width height frames : Nat)
    (hsize : width*height*frames < 2^32) (h : isTooLarge (encodeTiles (new width height frames) tiles)=false) :
    IndexRelocates (encodeTiles (new width height frames) tiles) (blockPayloads tiles width height frames) := by
  refine ⟨encodeTiles_blockResult _ _ _ _,uniqueInOrder_nodup _,fun i hi => encodeTiles_indexEntry hsize h hi,
    fun i hi => encodeTiles_blockPointer hsize h hi,fun i hi => ?_,fun i hi j hj => ?_⟩
  · obtain ⟨rest,hr⟩ := getResult_drop_blockPointer hsize h hi
    have := offsetIn_lt hi
    rw [hr,encodeTiles_blockPointer hsize h hi,getResult_length]
    exact ⟨by omega,by omega,⟨rest,rfl⟩⟩
  · rw [encodeTiles_blockPointer hsize h hi,encodeTiles_blockPointer hsize h hj,Nat.add_left_cancel_iff]
    exact ⟨offsetIn_inj (uniqueInOrder_nodup _) (fun q hq => blockPayloads_ne_nil (mem_uniqueInOrder.mp hq))
      (getD_mem_uniqueInOrder hi) (getD_mem_uniqueInOrder hj),fun he => by rw [he]⟩


theorem encodeTiles_relocates_halves : 16*2*1 < 2^32 ∧
    isTooLarge (encodeTiles (new 16 2 1) ([1,2,1,1,1,1,1,1,1,2,1,1,1,1,1,1]++List.replicate 16 1))=false ∧
    IndexRelocates (encodeTiles (new 16 2 1) ([1,2,1,1,1,1,1,1,1,2,1,1,1,1,1,1]++List.replicate 16 1)) (blockPayloads ([1,2,1,1,1,1,1,1,1,2,1,1,1,1,1,1]++List.replicate 16 1) 16 2 1) :=
  have h : isTooLarge (encodeTiles (new 16 2 1) ([1,2,1,1,1,1,1,1,1,2,1,1,1,1,1,1]++List.replicate 16 1))=false := by decide
  ⟨by norm_num,h,encodeTiles_relocates ([1,2,1,1,1,1,1,1,1,2,1,1,1,1,1,1]++List.replicate 16 1) 16 2 1 (by norm_num) h⟩

/-! The `unsigned` wrap of the index size. -/

theorem blockTiles_replicate_zero (n topLeft mWidth width height : Nat) :
    blockTiles (List.replicate n 0) topLeft mWidth width height=List.replicate (height*width) 0 := by
  refine List.eq_replicate_iff.mpr ⟨blockTiles_length _ _ _ _ _,fun t ht => ?_⟩
  simp only [blockTiles,List.mem_flatMap,List.mem_map] at ht
  obtain ⟨-,-,-,-,rfl⟩ := ht
  rw [List.getD_eq_getElem?_getD,List.getElem?_getD_replicate_default_eq]

/-- In a strip of zero tiles 16 wide and 1 high, every block is a row of 8 zeros. -/
theorem blockPayloads_zero_strip (n frames : Nat) :
    blockPayloads (List.replicate n 0) 16 1 frames=List.replicate (2*frames) (referencePayload (List.replicate 8 0)) := by
  refine List.eq_replicate_iff.mpr ⟨?_,fun p hp => ?_⟩
  · rw [blockPayloads,List.length_map,blockOrigins_eq,List.length_map,List.length_range]
    omega
  · obtain ⟨o,ho,rfl⟩ := List.mem_map.mp hp
    simp only [blockOrigins,BLOCK_SIZE,List.mem_flatMap,List.mem_map,List.mem_range] at ho
    obtain ⟨f,-,j,hj,i,hi,rfl⟩ := ho
    obtain rfl : j=0 := by omega
    rw [blockPayload,encodeBlock_eq_referencePayload,blockTiles_replicate_zero]
    rcases (by omega : i=0 ∨ i=1) with rfl | rfl <;> rfl

theorem uniqueInOrder_replicate (p : List UInt16) (k : Nat) : uniqueInOrder (List.replicate (k+1) p)=[p] := by
  induction k with
  | zero => rfl
  | succ k ih => rw [List.replicate_succ',uniqueInOrder_append,ih,if_pos (List.mem_singleton_self p)]

/-- A strip of zero tiles 16 wide and 1 high with `2^31` frames has `2^32` blocks, all one payload.
Narrowed to `unsigned`, the index size is 0: the probe reads no entry, `getIndexSize()` is 0, the
size check passes and `getResult` writes no index, so the entry the decoder reads for block 0 does
not point at its payload. -/
theorem encodeTiles_index_wraps :
    isTooLarge (encodeTiles (new 16 1 (2^31)) (List.replicate (16*1*2^31) 0))=false ∧
    getResult (encodeTiles (new 16 1 (2^31)) (List.replicate (16*1*2^31) 0))=
      (encodeTiles (new 16 1 (2^31)) (List.replicate (16*1*2^31) 0)).blockResult ∧
    ¬IndexRelocates (encodeTiles (new 16 1 (2^31)) (List.replicate (16*1*2^31) 0))
      (blockPayloads (List.replicate (16*1*2^31) 0) 16 1 (2^31)) := by
  have hps : blockPayloads (List.replicate (16*1*2^31) 0) 16 1 (2^31)=
      List.replicate (2^32-1+1) (referencePayload (List.replicate 8 0)) := blockPayloads_zero_strip _ _
  have hu := uniqueInOrder_replicate (referencePayload (List.replicate 8 0)) (2^32-1)
  have hlen : (encodeTiles (new 16 1 (2^31)) (List.replicate (16*1*2^31) 0)).indexResult.length=2^32 := by
    rw [encodeTiles_index_length,hps,List.length_replicate]
    norm_num
  have h16 : (encodeTiles (new 16 1 (2^31)) (List.replicate (16*1*2^31) 0)).mIndex16=false := by
    rw [encodeTiles_mIndex16,hlen]
    rfl
  have hsize : getIndexSize (encodeTiles (new 16 1 (2^31)) (List.replicate (16*1*2^31) 0))=0 := by
    rw [getIndexSize,hlen,h16]
    rfl
  have hblocks : (encodeTiles (new 16 1 (2^31)) (List.replicate (16*1*2^31) 0)).blockResult=
      referencePayload (List.replicate 8 0) := by
    rw [encodeTiles_blockResult,hps,hu,List.flatten_singleton]
  obtain ⟨index,hr,hl⟩ := getResult_eq (encodeTiles (new 16 1 (2^31)) (List.replicate (16*1*2^31) 0))
  rw [hsize,List.length_eq_zero] at hl
  refine ⟨by rw [isTooLarge,hsize,hblocks]; decide,by rw [hr,hl,List.nil_append],fun hR => ?_⟩
  have hp := hR.pointer 0 (by rw [hps,List.length_replicate]; norm_num)
  have hg : (List.replicate (2^32-1+1) (referencePayload (List.replicate 8 0))).getD 0 []=
      referencePayload (List.replicate 8 0) := rfl
  have h1 : nextWordOf false 0=1 := rfl
  rw [hsize,hps,hu,hg,offsetIn,if_pos rfl,← blockPointer_eq,isIndex16,h16,h1] at hp
  omega

/-! The block loops. -/

theorem blockLoop_run (limit : Nat) (hl : limit ≤ 2^32-BLOCK_SIZE) :
    ∀ m k fuel, k+m=(limit+BLOCK_SIZE-1)/BLOCK_SIZE → m < fuel →
      blockLoop limit fuel (k*BLOCK_SIZE)=some ((List.range' k m).map (·*BLOCK_SIZE)) := by
  unfold BLOCK_SIZE at *
  intro m
  induction m with
  | zero =>
    intro k fuel hk hf
    obtain ⟨fuel,rfl⟩ : ∃ f, fuel=f+1 := ⟨fuel-1,by omega⟩
    rw [blockLoop,if_neg (by omega)]
    rfl
  | succ m ih =>
    intro k fuel hk hf
    obtain ⟨fuel,rfl⟩ : ∃ f, fuel=f+1 := ⟨fuel-1,by omega⟩
    have hx : (k*8+8)%2^32=(k+1)*8 := by omega
    rw [blockLoop,if_pos (by omega),BLOCK_SIZE,hx,ih (k+1) fuel (by omega) (by omega)]
    rfl

theorem blockLoop_wraps (limit : Nat) (hl : 2^32-BLOCK_SIZE < limit) :
    ∀ fuel x, x%BLOCK_SIZE=0 → x < 2^32 → blockLoop limit fuel x=none := by
  unfold BLOCK_SIZE at *
  intro fuel
  induction fuel with
  | zero => exact fun _ _ _ => rfl
  | succ fuel ih =>
    intro x h8 hx
    rw [blockLoop,if_pos (by omega),BLOCK_SIZE,ih _ (by omega) (by omega)]
    rfl

/-- The block loops of `encodeTiles` in `unsigned` arithmetic: for a limit up to
`2^32 - BLOCK_SIZE` they visit `0, BLOCK_SIZE, ...` below it and stop, the columns and rows
`blockOrigins` takes; past that `x` wraps from `2^32 - BLOCK_SIZE` back to 0 and the loop never
ends. -/
theorem blockLoop_spec (limit : Nat) :
    (limit ≤ 2^32-BLOCK_SIZE → ∀ fuel, (limit+BLOCK_SIZE-1)/BLOCK_SIZE < fuel →
      blockLoop limit fuel 0=some ((List.range ((limit+BLOCK_SIZE-1)/BLOCK_SIZE)).map (·*BLOCK_SIZE))) ∧
    (2^32-BLOCK_SIZE < limit → ∀ fuel, blockLoop limit fuel 0=none) := by
  refine ⟨fun hl fuel hf => ?_,fun hl fuel => blockLoop_wraps limit hl fuel 0 rfl (by norm_num)⟩
  rw [List.range_eq_range',← blockLoop_run limit hl _ 0 fuel (Nat.zero_add _) hf,Nat.zero_mul]

end Stir.DUBEncoder

import Stir.DUBEncoder.Decoder
import Mathlib.Algebra.BigOperators.Ring.List

namespace Stir.DUBEncoder

/-- Modelled from the spec: tile `p` of the asset, in frame, row, column order. It is tile
`(x % 8, y % 8)` of the block at `(f, y / 8, x / 8)`, clipped to the asset, whose payload starts
where the block's index entry points once relocated past its slot. -/
def decodeTile (width height : Nat) (index16 : Bool) (words : List UInt16) (p : Nat) : Option UInt16 :=
  let f := p/(width*height)
  let y := p%(width*height)/width
  let x := p%width
  let b := (f*((height+7)/8)+y/8)*((width+7)/8)+x/8
  let w := min 8 (width-x/8*8)
  let h := min 8 (height-y/8*8)
  (decodeBlock (w*h) (bitsOfWords (words.drop (nextWordOf index16 b+indexEntry index16 words b)))).map
    fun ts => ts.getD (x%8+y%8*w) 0

/-- Modelled from the spec: the `width*height*frames` tiles of a DUB stream, with the dimensions
and the index width given out of band. -/
def decode (width height frames : Nat) (index16 : Bool) (words : List UInt16) : Option (List UInt16) :=
  (List.range (width*height*frames)).mapM (decodeTile width height index16 words)

/-! Where each tile of the asset lands. -/

/-- Tile `p` lies at column `x` and row `y` of frame `f`, `x` and `y` split at the block grid. -/
theorem tile_offset (width height p : Nat) :
    p%width/8*8+p%(width*height)/width/8*8*width+p/(width*height)*width*height+
      (p%width%8+p%(width*height)/width%8*width)=p := by
  have hy : p%(width*height)/width/8*8*width+p%(width*height)/width%8*width=p%(width*height)/width*width := by
    rw [← Nat.add_mul,Nat.div_add_mod']
  have h1 := Nat.div_add_mod' p (width*height)
  have h2 := Nat.div_add_mod' (p%(width*height)) width
  have h3 : p/(width*height)*width*height=p/(width*height)*(width*height) := Nat.mul_assoc _ _ _
  rw [Nat.mod_mul_right_mod] at h2
  omega

theorem mapM_eq_some_map {α β : Type} {f : α → Option β} {g : α → β} :
    ∀ {l : List α}, (∀ a ∈ l, f a=some (g a)) → l.mapM f=some (l.map g)
  | [], _ => rfl
  | a :: l, h => by
    rw [List.mapM_cons,h a (List.mem_cons_self _ _),mapM_eq_some_map fun b hb => h b (List.mem_cons_of_mem _ hb)]
    rfl

theorem map_getD_range (l : List UInt16) : (List.range l.length).map (fun p => l.getD p 0)=l :=
  List.ext_getElem (by simp) fun i _ hi => by
    rw [List.getElem_map,List.getElem_range,List.getD_eq_getElem _ _ hi]

/-- Tile `p` of an asset below `2^32` tiles, split into frame `f`, row `y` and column `x`, lies at
`(x % 8, y % 8)` inside the block at `(f, y / 8 * 8, x / 8 * 8)`, at the position `encodeTiles`
reads it from. -/
theorem tile_split {width height frames p : Nat} (hsize : width*height*frames < 2^32) (hp : p < width*height*frames) :
    p%width < width ∧ p%(width*height)/width < height ∧ p/(width*height) < frames ∧
    (p%width/8*8+p%(width*height)/width/8*8*width+p/(width*height)*width*height)%2^32+
      (p%width%8+p%(width*height)/width%8*width)%2^32=p := by
  have hWH : 0 < width*height := Nat.pos_of_ne_zero fun h0 => by simp [h0] at hp
  have hW : 0 < width := Nat.pos_of_ne_zero fun h0 => by simp [h0] at hWH
  have hoff := tile_offset width height p
  exact ⟨Nat.mod_lt _ hW,Nat.div_lt_of_lt_mul (Nat.mod_lt _ hWH),Nat.div_lt_of_lt_mul hp,by omega⟩

/-- Every tile of an asset whose stream passed the size check decodes back from that stream. -/
theorem decodeTile_encodeTiles {tiles : List UInt16} {width height frames p : Nat}
    (hsize : width*height*frames < 2^32) (h : isTooLarge (encodeTiles (new width height frames) tiles)=false)
    (hp : p < width*height*frames) :
    decodeTile width height (isIndex16 (encodeTiles (new width height frames) tiles))
      (getResult (encodeTiles (new width height frames) tiles)) p=some (tiles.getD p 0) := by
  obtain ⟨hxw,hyh,hff,hbase⟩ := tile_split hsize hp
  unfold decodeTile
  dsimp only
  set f := p/(width*height) with hf
  set y := p%(width*height)/width with hy
  set x := p%width with hx
  obtain ⟨hb,hpay⟩ := blockPayloads_getD tiles width height frames hff (j := y/8) (i := x/8) (by omega) (by omega)
  obtain ⟨rest,hr⟩ := getResult_drop_blockPointer hsize h hb
  have hn : min 8 (width-x/8*8)*min 8 (height-y/8*8)=(blockTiles tiles ((x/8*8+y/8*8*width+f*width*height)%2^32)
      width (min 8 (width-x/8*8)) (min 8 (height-y/8*8))).length := by
    rw [blockTiles_length,Nat.mul_comm]
  have hsmall : min 8 (width-x/8*8)*min 8 (height-y/8*8) < 2^32 :=
    lt_of_le_of_lt (Nat.mul_le_mul (min_le_left _ _) (min_le_left _ _)) (by norm_num)
  rw [blockPointer_eq,hr,hpay,blockPayload,encodeBlock_eq_referencePayload]
  dsimp only [BLOCK_SIZE]
  rw [hn,decodeBlock_referencePayload _ (hn ▸ hsmall),Option.map_some',
    blockTiles_getD _ _ _ (by omega : x%8 < min 8 (width-x/8*8)) (by omega : y%8 < min 8 (height-y/8*8)),hbase]

/-- DUB round trip. -/
theorem decode_encodeTiles (tiles : List UInt16) (width height frames : Nat)
    (hlen : tiles.length=width*height*frames) (hsize : width*height*frames < 2^32)
    (h : isTooLarge (encodeTiles (new width height frames) tiles)=false) :
    decode width height frames (isIndex16 (encodeTiles (new width height frames) tiles))
      (getResult (encodeTiles (new width height frames) tiles))=some tiles := by
  rw [decode,mapM_eq_some_map fun p hp => decodeTile_encodeTiles hsize h (List.mem_range.mp hp),← hlen,
    map_getD_range]

theorem decode_encodeTiles_halves :
    ([1,2,1,1,1,1,1,1,1,2,1,1,1,1,1,1]++List.replicate 16 1 : List UInt16).length=16*2*1 ∧ 16*2*1 < 2^32 ∧
    isTooLarge (encodeTiles (new 16 2 1) ([1,2,1,1,1,1,1,1,1,2,1,1,1,1,1,1]++List.replicate 16 1))=false ∧
    decode 16 2 1 (isIndex16 (encodeTiles (new 16 2 1) ([1,2,1,1,1,1,1,1,1,2,1,1,1,1,1,1]++List.replicate 16 1)))
      (getResult (encodeTiles (new 16 2 1) ([1,2,1,1,1,1,1,1,1,2,1,1,1,1,1,1]++List.replicate 16 1)))=
      some ([1,2,1,1,1,1,1,1,1,2,1,1,1,1,1,1]++List.replicate 16 1) :=
  have h : isTooLarge (encodeTiles (new 16 2 1) ([1,2,1,1,1,1,1,1,1,2,1,1,1,1,1,1]++List.replicate 16 1))=false := by decide
  ⟨rfl,by norm_num,h,decode_encodeTiles ([1,2,1,1,1,1,1,1,1,2,1,1,1,1,1,1]++List.replicate 16 1) 16 2 1 rfl (by norm_num) h⟩

/-! Deduplication, seen from the tiles. -/

/-- The tiles of the block at `(f, y, x)`, as `encodeTiles` hands them to `encodeBlock`. -/
def blockTilesAt (tiles : List UInt16) (width height : Nat) (o : Nat × Nat × Nat) : List UInt16 :=
  blockTiles tiles ((o.2.2+o.2.1*width+o.1*width*height)%2^32) width
    (min BLOCK_SIZE (width-o.2.2)) (min BLOCK_SIZE (height-o.2.1))

theorem blockTilesAt_length_lt (tiles : List UInt16) (width height : Nat) (o : Nat × Nat × Nat) :
    (blockTilesAt tiles width height o).length < 2^32 := by
  rw [blockTilesAt,blockTiles_length]
  exact lt_of_le_of_lt (Nat.mul_le_mul (min_le_left _ _) (min_le_left _ _)) (by norm_num [BLOCK_SIZE])

theorem blockPayloads_getD_origin (tiles : List UInt16) (width height frames : Nat) {i : Nat}
    (hi : i < (blockOrigins width height frames).length) :
    (blockPayloads tiles width height frames).getD i []=
      referencePayload (blockTilesAt tiles width height ((blockOrigins width height frames).getD i (0,0,0))) := by
  rw [blockPayloads,List.getD_eq_getElem _ _ (by simpa using hi),List.getElem_map,
    List.getD_eq_getElem _ _ hi,blockPayload,encodeBlock_eq_referencePayload]
  rfl

/-- DUB deduplication is exact on tiles: past the size check, two blocks with as many tiles
share their index pointer exactly when their tiles are the same. -/
theorem encodeTiles_shares_iff_tiles (tiles : List UInt16) (width height frames : Nat)
    (hsize : width*height*frames < 2^32) (h : isTooLarge (encodeTiles (new width height frames) tiles)=false) {i j : Nat}
    (hi : i < (blockOrigins width height frames).length) (hj : j < (blockOrigins width height frames).length)
    (hl : (blockTilesAt tiles width height ((blockOrigins width height frames).getD i (0,0,0))).length=
      (blockTilesAt tiles width height ((blockOrigins width height frames).getD j (0,0,0))).length) :
    blockPointer (encodeTiles (new width height frames) tiles) i=
        blockPointer (encodeTiles (new width height frames) tiles) j ↔
      blockTilesAt tiles width height ((blockOrigins width height frames).getD i (0,0,0))=
        blockTilesAt tiles width height ((blockOrigins width height frames).getD j (0,0,0)) := by
  have hi' : i < (blockPayloads tiles width height frames).length := by simpa [blockPayloads] using hi
  have hj' : j < (blockPayloads tiles width height frames).length := by simpa [blockPayloads] using hj
  rw [encodeTiles_blockPointer hsize h hi',encodeTiles_blockPointer hsize h hj',Nat.add_left_cancel_iff]
  constructor
  · intro ho
    have hp := offsetIn_inj (uniqueInOrder_nodup _) (fun q hq => blockPayloads_ne_nil (mem_uniqueInOrder.mp hq))
      (getD_mem_uniqueInOrder hi') (getD_mem_uniqueInOrder hj') ho
    rw [blockPayloads_getD_origin _ _ _ _ hi,blockPayloads_getD_origin _ _ _ _ hj] at hp
    exact referencePayload_inj hl (blockTilesAt_length_lt _ _ _ _) hp
  · intro ht
    rw [blockPayloads_getD_origin _ _ _ _ hi,blockPayloads_getD_origin _ _ _ _ hj,ht]

theorem encodeTiles_shares_iff_tiles_halves : 16*2*1 < 2^32 ∧
    isTooLarge (encodeTiles (new 16 2 1) ([1,2,1,1,1,1,1,1,1,2,1,1,1,1,1,1]++List.replicate 16 1))=false ∧
    0 < (blockOrigins 16 2 1).length ∧ 1 < (blockOrigins 16 2 1).length ∧
    (blockTilesAt ([1,2,1,1,1,1,1,1,1,2,1,1,1,1,1,1]++List.replicate 16 1) 16 2 ((blockOrigins 16 2 1).getD 0 (0,0,0))).length=
      (blockTilesAt ([1,2,1,1,1,1,1,1,1,2,1,1,1,1,1,1]++List.replicate 16 1) 16 2 ((blockOrigins 16 2 1).getD 1 (0,0,0))).length ∧
    (blockPointer (encodeTiles (new 16 2 1) ([1,2,1,1,1,1,1,1,1,2,1,1,1,1,1,1]++List.replicate 16 1)) 0=
        blockPointer (encodeTiles (new 16 2 1) ([1,2,1,1,1,1,1,1,1,2,1,1,1,1,1,1]++List.replicate 16 1)) 1 ↔
      blockTilesAt ([1,2,1,1,1,1,1,1,1,2,1,1,1,1,1,1]++List.replicate 16 1) 16 2 ((blockOrigins 16 2 1).getD 0 (0,0,0))=
        blockTilesAt ([1,2,1,1,1,1,1,1,1,2,1,1,1,1,1,1]++List.replicate 16 1) 16 2 ((blockOrigins 16 2 1).getD 1 (0,0,0))) :=
  have h : isTooLarge (encodeTiles (new 16 2 1) ([1,2,1,1,1,1,1,1,1,2,1,1,1,1,1,1]++List.replicate 16 1))=false := by decide
  have hl : (blockTilesAt ([1,2,1,1,1,1,1,1,1,2,1,1,1,1,1,1]++List.replicate 16 1) 16 2 ((blockOrigins 16 2 1).getD 0 (0,0,0))).length=
      (blockTilesAt ([1,2,1,1,1,1,1,1,1,2,1,1,1,1,1,1]++List.replicate 16 1) 16 2 ((blockOrigins 16 2 1).getD 1 (0,0,0))).length := by decide
  ⟨by norm_num,h,by decide,by decide,hl,encodeTiles_shares_iff_tiles ([1,2,1,1,1,1,1,1,1,2,1,1,1,1,1,1]++List.replicate 16 1) 16 2 1 (by norm_num) h (by decide) (by decide) hl⟩

end Stir.DUBEncoder

import Stir.DUBEncoder.Code
import Mathlib.Data.List.GetD

namespace Stir.DUBEncoder

/-- The locals of `encodeBlock`: bit buffer, payload, dictionary and run state. -/
structure BlockState where
  bits : BitBuffer
  data : List UInt16
  dict : List UInt16
  prevCode : Code
  repeatCount : Nat
  repeating : Bool

/-- `Code prevCode = { Code::INVALID }`, `repeatCount = 0`, `repeating = false`. -/
def BlockState.init : BlockState := ⟨BitBuffer.empty,[],[],⟨.INVALID,0⟩,0,false⟩

/-- `packCode(code, bits); bits.flush(data);` -/
def BlockState.emit (s : BlockState) (code : Code) : BlockState :=
  let r := (packCode code s.bits).flush s.data false
  { s with bits := r.1, data := r.2 }

/-- The run handling of one code, after `prevCode = code`: extend a run (`continue`), break it
with its REPEAT, start one, or just emit. -/
def encodeCode (s : BlockState) (code : Code) : BlockState :=
  let sameCode := code.type=s.prevCode.type ∧ code.value=s.prevCode.value
  let s := { s with prevCode := code }
  if s.repeating then
    if sameCode then { s with repeatCount := s.repeatCount+1 }
    else ({ s.emit ⟨.REPEAT,s.repeatCount⟩ with repeating := false }).emit code
  else if sameCode then ({ s with repeating := true, repeatCount := 0 }).emit code
  else s.emit code

/-- One turn of the tile loop: `findBestCode`, `dict.push_back(tile)`, then the run handling. -/
def encodeTile (s : BlockState) (tile : UInt16) : BlockState :=
  encodeCode { s with dict := s.dict++[tile] } (findBestCode s.dict tile)

/-- `encodeBlock`'s buffer and payload after the loops, the final REPEAT and the padding flush;
`pTopLeft[x + y*mWidth]` is `tiles[topLeft + (x + y*mWidth)]` in `unsigned` arithmetic. -/
def encodeBlockFinal (tiles : List UInt16) (topLeft mWidth width height : Nat) : BitBuffer × List UInt16 :=
  let s := (List.range height).foldl (fun s y => (List.range width).foldl
    (fun s x => encodeTile s (tiles.getD (topLeft+(x+y*mWidth)%2^32) 0)) s) BlockState.init
  let bits := if s.repeating then packCode ⟨.REPEAT,s.repeatCount⟩ s.bits else s.bits
  bits.flush s.data true

/-- `DUBEncoder::encodeBlock`: the words appended to `data`. -/
def encodeBlock (tiles : List UInt16) (topLeft mWidth width height : Nat) : List UInt16 :=
  (encodeBlockFinal tiles topLeft mWidth width height).2

/-! The plain run-length reference. -/

/-- The tiles of a block in the order `encodeBlock` reads them. -/
def blockTiles (tiles : List UInt16) (topLeft mWidth width height : Nat) : List UInt16 :=
  (List.range height).flatMap fun y => (List.range width).map fun x => tiles.getD (topLeft+(x+y*mWidth)%2^32) 0

/-- `c_k = findBestCode([t_1..t_{k-1}], t_k)`, after the tiles `dict`. -/
def codesFrom (dict : List UInt16) : List UInt16 → List Code
  | [] => []
  | t :: ts => findBestCode dict t :: codesFrom (dict++[t]) ts

/-- The tokens of a maximal run of `k ≥ 1` codes `c`. -/
def runToken (c : Code) (k : Nat) : List Code :=
  if 2 ≤ k then [c,c,⟨.REPEAT,(k-2 : Nat)⟩] else [c]

/-- The tokens of the run of `k` codes `c` so far, extended over `rest`, then of the runs after it. -/
def rleRun (c : Code) (k : Nat) : List Code → List Code
  | [] => runToken c k
  | d :: ds => if d=c then rleRun c (k+1) ds else runToken c k++rleRun d 1 ds

/-- Every maximal run of `k ≥ 2` equal codes replaced by `c, c, REPEAT(k-2)`. -/
def rleTokens : List Code → List Code
  | [] => []
  | c :: cs => rleRun c 1 cs

/-- Zero-padding to a multiple of 16 bits, split into words. -/
def packWords (bits : List Bool) : List UInt16 := takeWords (padBits bits) ((padBits bits).length/16)

/-- The reference payload of a block's tiles. -/
def referencePayload (tiles : List UInt16) : List UInt16 :=
  packWords ((rleTokens (codesFrom [] tiles)).flatMap codeBits)

/-- Every REPEAT token comes right after two identical codes of another type. -/
def RepeatsAfterPairs (toks : List Code) : Prop :=
  ∀ xs r ys, toks=xs++r :: ys → r.type=.REPEAT → ∃ c xs', xs=xs'++[c,c] ∧ c.type ≠ .REPEAT

/-! Step lemmas of the encoder. -/

/-- Everything the block has emitted: the flushed words, then the bits still buffered. -/
def BlockState.stream (s : BlockState) : List Bool := bitsOfWords s.data++s.bits.bits

theorem sameCode_iff (c p : Code) : (c.type=p.type ∧ c.value=p.value) ↔ c=p := by
  cases c; cases p; simp

theorem emit_stream (s : BlockState) (c : Code) : (s.emit c).stream=s.stream++codeBits c := by
  have := flush_stream (packCode c s.bits) s.data
  simp only [BlockState.emit,BlockState.stream,packCode_eq,push_bits] at this ⊢
  rw [this,List.append_assoc]

theorem emit_count (s : BlockState) (c : Code) : (s.emit c).bits.bits.length < 16 :=
  flush_count (packCode c s.bits) s.data

theorem emit_peak (s : BlockState) (c : Code) :
    (s.emit c).bits.peak=max s.bits.peak (s.bits.bits.length+codeLen c) := by
  simp [BlockState.emit,packCode_eq,codeLen_eq]

@[simp] theorem emit_dict (s : BlockState) (c : Code) : (s.emit c).dict=s.dict := rfl
@[simp] theorem emit_prevCode (s : BlockState) (c : Code) : (s.emit c).prevCode=s.prevCode := rfl
@[simp] theorem emit_repeatCount (s : BlockState) (c : Code) : (s.emit c).repeatCount=s.repeatCount := rfl
@[simp] theorem emit_repeating (s : BlockState) (c : Code) : (s.emit c).repeating=s.repeating := rfl

/-- The pending REPEAT of an open run, written at the run's end. -/
def BlockState.closeRun (s : BlockState) : BlockState :=
  if s.repeating then { s.emit ⟨.REPEAT,s.repeatCount⟩ with repeating := false } else s

theorem encodeCode_extend {s : BlockState} {c : Code} (hr : s.repeating) (hp : s.prevCode=c) :
    encodeCode s c={ s with repeatCount := s.repeatCount+1 } := by
  subst hp
  simp [encodeCode,hr]

theorem encodeCode_start {s : BlockState} {c : Code} (hr : ¬s.repeating) (hp : s.prevCode=c) :
    encodeCode s c=({ s with repeating := true, repeatCount := 0 }).emit c := by
  subst hp
  simp [encodeCode,hr]

theorem encodeCode_new {s : BlockState} {c : Code} (hp : s.prevCode ≠ c) :
    encodeCode s c=({ s with prevCode := c }.closeRun).emit c := by
  have hs : ¬(c.type=s.prevCode.type ∧ c.value=s.prevCode.value) := by
    rw [sameCode_iff]; exact Ne.symm hp
  unfold encodeCode BlockState.closeRun
  cases s.repeating <;> simp only [hs,if_false,if_true,Bool.false_eq_true]

/-- The dictionary is not read by the run handling. -/
theorem encodeCode_dict (s : BlockState) (c : Code) (d : List UInt16) :
    encodeCode { s with dict := d } c={ encodeCode s c with dict := d } := by
  unfold encodeCode
  dsimp only
  split_ifs <;> rfl

theorem encodeTile_dict (s : BlockState) (t : UInt16) : (encodeTile s t).dict=s.dict++[t] := by
  unfold encodeTile encodeCode
  dsimp only
  split_ifs <;> rfl

theorem foldl_encodeTile (s : BlockState) (ts : List UInt16) :
    ts.foldl encodeTile s=(codesFrom s.dict ts).foldl encodeCode { s with dict := s.dict++ts } := by
  induction ts generalizing s with
  | nil => simp [codesFrom]
  | cons t ts ih =>
    rw [List.foldl_cons,ih,codesFrom,List.foldl_cons,encodeTile_dict,encodeTile,← encodeCode_dict]
    simp

theorem foldl_flatMap_eq {α β γ : Type} (f : γ → β → γ) (g : α → List β) (l : List α) (s : γ) :
    (l.flatMap g).foldl f s=l.foldl (fun s a => (g a).foldl f s) s := by
  induction l generalizing s <;> simp [*]

/-- The two loops of `encodeBlock` visit `blockTiles`. -/
theorem encodeBlock_loops (tiles : List UInt16) (topLeft mWidth width height : Nat) (s : BlockState) :
    (List.range height).foldl (fun s y => (List.range width).foldl
      (fun s x => encodeTile s (tiles.getD (topLeft+(x+y*mWidth)%2^32) 0)) s) s=
    (blockTiles tiles topLeft mWidth width height).foldl encodeTile s := by
  simp only [blockTiles,foldl_flatMap_eq,List.foldl_map]

/-! Where the loops of `encodeBlock` read each tile. -/

theorem divMod_mul_add {q r n : Nat} (hr : r < n) : (q*n+r)/n=q ∧ (q*n+r)%n=r := by
  rw [Nat.add_comm,Nat.add_mul_div_right _ _ (by omega),Nat.div_eq_of_lt hr,Nat.add_mul_mod_self_right,
    Nat.mod_eq_of_lt hr]
  exact ⟨Nat.zero_add q,rfl⟩

theorem mul_add_lt {q Q r n : Nat} (hq : q < Q) (hr : r < n) : q*n+r < Q*n :=
  calc q*n+r < q*n+n := by omega
    _ = (q+1)*n := (Nat.succ_mul q n).symm
    _ ≤ Q*n := Nat.mul_le_mul_right n hq

/-- Two nested counting loops are one loop over `m*n`, split by `/ n` and `% n`. -/
theorem range_flatMap_map {α : Type} (m n : Nat) (g : Nat → Nat → α) :
    (List.range m).flatMap (fun a => (List.range n).map (g a))=
      (List.range (m*n)).map fun b => g (b/n) (b%n) := by
  induction m with
  | zero => simp
  | succ m ih =>
    rw [List.range_succ,List.flatMap_append,ih,Nat.succ_mul,List.range_add,List.map_append,List.map_map]
    congr 1
    simp only [List.flatMap_cons,List.flatMap_nil,List.append_nil]
    exact List.map_congr_left fun r hr => by
      rw [Function.comp_apply,(divMod_mul_add (List.mem_range.mp hr)).1,(divMod_mul_add (List.mem_range.mp hr)).2]

@[simp] theorem blockTiles_length (tiles : List UInt16) (topLeft mWidth width height : Nat) :
    (blockTiles tiles topLeft mWidth width height).length=height*width := by
  rw [blockTiles,range_flatMap_map,List.length_map,List.length_range]

/-- Tile `(x, y)` of a block read from `topLeft` with row stride `mWidth`. -/
theorem blockTiles_getD (tiles : List UInt16) (topLeft mWidth : Nat) {width height x y : Nat} (hx : x < width)
    (hy : y < height) : (blockTiles tiles topLeft mWidth width height).getD (x+y*width) 0=
      tiles.getD (topLeft+(x+y*mWidth)%2^32) 0 := by
  have hl : y*width+x < height*width := mul_add_lt hy hx
  rw [blockTiles,range_flatMap_map,Nat.add_comm,List.getD_eq_getElem _ _ (by simpa using hl),List.getElem_map,
    List.getElem_range,(divMod_mul_add hx).1,(divMod_mul_add hx).2]

/-! The encoder follows the reference run by run. -/

@[simp] theorem stream_mk_self (s : BlockState) (dict : List UInt16) (prevCode : Code) (repeatCount : Nat)
    (repeating : Bool) : (BlockState.mk s.bits s.data dict prevCode repeatCount repeating).stream=s.stream := rfl

theorem closeRun_stream_eq (s : BlockState) :
    s.closeRun.stream=s.stream++if s.repeating then codeBits ⟨.REPEAT,s.repeatCount⟩ else [] := by
  unfold BlockState.closeRun
  split_ifs <;> simp [emit_stream]

theorem closeRun_repeating (s : BlockState) : s.closeRun.repeating=false := by
  unfold BlockState.closeRun
  split_ifs with h <;> simp [h]

/-- The encoder is inside a run of `k` codes `c`, with `P` the bits of the runs before it. -/
structure InRun (s : BlockState) (c : Code) (k : Nat) (P : List Bool) : Prop where
  pos : 1 ≤ k
  prev : s.prevCode=c
  repeating : s.repeating=decide (2 ≤ k)
  count : 2 ≤ k → s.repeatCount=k-2
  stream : s.stream=P++codeBits c++if 2 ≤ k then codeBits c else []

/-- Closing a run writes its reference tokens. -/
theorem InRun.close {s : BlockState} {c : Code} {k : Nat} {P : List Bool} (h : InRun s c k P) :
    s.closeRun.stream=P++(runToken c k).flatMap codeBits := by
  rw [closeRun_stream_eq,h.stream,h.repeating,runToken]
  by_cases hk : 2 ≤ k
  · simp [hk,h.count hk]
  · simp [hk]

theorem InRun.extend {s : BlockState} {c : Code} {k : Nat} {P : List Bool} (h : InRun s c k P) :
    InRun (encodeCode s c) c (k+1) P := by
  by_cases hk : 2 ≤ k
  · have hr : s.repeating := by simpa [hk] using h.repeating
    rw [encodeCode_extend hr h.prev]
    exact ⟨by omega,h.prev,by simp [hr]; omega,fun _ => by simp [h.count hk]; omega,
      by simpa [hk,show 2 ≤ k+1 by omega] using h.stream⟩
  · have hr : ¬s.repeating := by simpa [hk] using h.repeating
    obtain rfl : k=1 := by have := h.pos; omega
    rw [encodeCode_start hr h.prev]
    refine ⟨by omega,h.prev,rfl,fun _ => rfl,?_⟩
    rw [emit_stream,stream_mk_self,h.stream]
    simp

theorem InRun.next {s : BlockState} {c d : Code} {k : Nat} {P : List Bool} (h : InRun s c k P)
    (hd : d ≠ c) : InRun (encodeCode s d) d 1 (P++(runToken c k).flatMap codeBits) := by
  have hc : InRun { s with prevCode := c } c k P := ⟨h.pos,rfl,h.repeating,h.count,h.stream⟩
  have hclose : { s with prevCode := d }.closeRun.stream=P++(runToken c k).flatMap codeBits := by
    rw [closeRun_stream_eq,← hc.close,closeRun_stream_eq]; rfl
  rw [encodeCode_new (h.prev ▸ Ne.symm hd)]
  refine ⟨le_refl _,?_,by simp [closeRun_repeating],fun h2 => absurd h2 (by omega),?_⟩
  · unfold BlockState.closeRun; split_ifs <;> rfl
  · rw [emit_stream,hclose]; simp

theorem InRun.start {s : BlockState} {c : Code} (hp : s.prevCode ≠ c) (hr : ¬s.repeating) :
    InRun (encodeCode s c) c 1 s.stream := by
  rw [encodeCode_new hp]
  have hc : { s with prevCode := c }.closeRun={ s with prevCode := c } := by
    simp [BlockState.closeRun,hr]
  refine ⟨le_refl _,?_,?_,fun h2 => absurd h2 (by omega),?_⟩
  · rw [hc]; rfl
  · rw [hc]; simpa using hr
  · rw [emit_stream,hc]; simp

/-- From inside a run, the codes still to come close every run as the reference does. -/
theorem InRun.run {s : BlockState} {c : Code} {k : Nat} {P : List Bool} (h : InRun s c k P) (rest : List Code) :
    (rest.foldl encodeCode s).closeRun.stream=P++(rleRun c k rest).flatMap codeBits := by
  induction rest generalizing s c k P with
  | nil => exact h.close
  | cons d ds ih =>
    rw [List.foldl_cons,rleRun]
    split_ifs with hd
    · subst hd; exact ih h.extend
    · rw [ih (h.next hd),List.flatMap_append,List.append_assoc]

theorem findBestCode_type (dict : List UInt16) (tile : UInt16) :
    (findBestCode dict tile).type=.DELTA ∨ (findBestCode dict tile).type=.REF := by
  rcases findBestCode_cases dict tile with h | ⟨i,-,h,-⟩ <;> rw [h]
  · unfold deltaCode; split_ifs <;> simp
  · simp

theorem codesFrom_type (dict ts : List UInt16) :
    ∀ c ∈ codesFrom dict ts, c.type=.DELTA ∨ c.type=.REF := by
  induction ts generalizing dict with
  | nil => simp [codesFrom]
  | cons t ts ih =>
    simp only [codesFrom,List.mem_cons,forall_eq_or_imp]
    exact ⟨findBestCode_type dict t,ih _⟩

/-- From a state with no run and an `INVALID` previous code, the encoder emits the reference's
tokens, up to the pending REPEAT. -/
theorem encodeCodes_stream (s : BlockState) (hp : s.prevCode.type=.INVALID) (hr : ¬s.repeating)
    (codes : List Code) (hc : ∀ c ∈ codes, c.type ≠ .INVALID) :
    (codes.foldl encodeCode s).closeRun.stream=s.stream++(rleTokens codes).flatMap codeBits := by
  cases codes with
  | nil => simp [BlockState.closeRun,hr,rleTokens]
  | cons c cs =>
    have hne : s.prevCode ≠ c := fun he => hc c (List.mem_cons_self _ _) (he ▸ hp)
    rw [List.foldl_cons,(InRun.start hne hr).run cs]
    rfl

theorem padBits_append {xs : List Bool} (ys : List Bool) (h : xs.length%16=0) :
    padBits (xs++ys)=xs++padBits ys := by
  simp only [padBits,List.length_append,List.append_assoc]
  congr 3
  omega

theorem eq_packWords {ws : List UInt16} {bits : List Bool} (h : bitsOfWords ws=padBits bits) :
    ws=packWords bits := by
  have hl := congrArg List.length h
  rw [bitsOfWords_length] at hl
  rw [packWords,← hl,Nat.mul_div_cancel_left _ (by norm_num),← h,takeWords_bitsOfWords]

theorem bitsOfWords_packWords (bits : List Bool) : bitsOfWords (packWords bits)=padBits bits := by
  have hp := padBits_length_mod bits
  rw [packWords,bitsOfWords_takeWords _ _ (Nat.mul_div_le _ _),Nat.mul_div_cancel' (Nat.dvd_of_mod_eq_zero hp),
    List.take_length]

/-- The final REPEAT and the padding flush write the closed stream, padded. -/
theorem encodeBlockFinal_words (s : BlockState) :
    bitsOfWords ((if s.repeating then packCode ⟨.REPEAT,s.repeatCount⟩ s.bits else s.bits).flush s.data true).2=
      padBits s.closeRun.stream := by
  rw [(flush_final _ _).2,closeRun_stream_eq,BlockState.stream,List.append_assoc,padBits_append _ (by simp)]
  split_ifs <;> simp [packCode_eq]

/-! REPEAT tokens of the reference stand after pairs. -/

theorem split_at {toks xs ys : List Code} {r : Code} (h : toks=xs++r :: ys) :
    toks.take xs.length=xs ∧ toks[xs.length]?=some r := by
  subst h
  exact ⟨List.take_left' rfl,by rw [List.getElem?_append_right (le_refl _)]; simp⟩

theorem repeatsAfterPairs_runToken (c : Code) (k : Nat) (hc : c.type ≠ .REPEAT) :
    RepeatsAfterPairs (runToken c k) := by
  intro xs r ys h hr
  obtain ⟨ht,hg⟩ := split_at h
  unfold runToken at ht hg
  rcases hn : xs.length with _ | _ | _ | n <;> rw [hn] at ht hg <;> split_ifs at ht hg <;>
    simp at ht hg
  · exact absurd (hg ▸ hr) hc
  · exact absurd (hg ▸ hr) hc
  · exact absurd (hg ▸ hr) hc
  · exact ⟨c,[],ht.symm,hc⟩

theorem repeatsAfterPairs_append {A B : List Code} (hA : RepeatsAfterPairs A) (hB : RepeatsAfterPairs B)
    (hh : ∀ r ∈ B.head?, r.type ≠ .REPEAT) : RepeatsAfterPairs (A++B) := by
  intro xs r ys h hr
  rcases List.append_eq_append_iff.mp h with ⟨a',hx,hb⟩ | ⟨c',ha,hy⟩
  · cases a' with
    | nil => exact absurd hr (hh r (by simp [hb]))
    | cons a as =>
      obtain ⟨c,xs',hxs,hc⟩ := hB (a :: as) r ys hb hr
      exact ⟨c,A++xs',by rw [hx,hxs,List.append_assoc],hc⟩
  · cases c' with
    | nil => exact absurd hr (hh r (by rw [List.nil_append] at hy; rw [← hy]; rfl))
    | cons a as =>
      obtain ⟨rfl,-⟩ := List.cons_eq_cons.mp hy
      exact hA xs r as ha hr

theorem rleRun_head (c : Code) (k : Nat) (rest : List Code) : (rleRun c k rest).head?=some c := by
  induction rest generalizing k with
  | nil => unfold rleRun runToken; split_ifs <;> rfl
  | cons d ds ih =>
    rw [rleRun]
    split_ifs
    · exact ih (k+1)
    · unfold runToken; split_ifs <;> rfl

theorem repeatsAfterPairs_rleRun (c : Code) (k : Nat) (rest : List Code) (hc : c.type ≠ .REPEAT)
    (hr : ∀ d ∈ rest, d.type ≠ .REPEAT) : RepeatsAfterPairs (rleRun c k rest) := by
  induction rest generalizing c k with
  | nil => exact repeatsAfterPairs_runToken c k hc
  | cons d ds ih =>
    have hd := hr d (List.mem_cons_self _ _)
    have hds := fun e he => hr e (List.mem_cons_of_mem _ he)
    rw [rleRun]
    split_ifs
    · exact ih c (k+1) hc hds
    · exact repeatsAfterPairs_append (repeatsAfterPairs_runToken c k hc) (ih d 1 hd hds)
        (by rw [rleRun_head]; simpa using hd)

theorem codesFrom_ne_INVALID {dict ts : List UInt16} {c : Code} (hc : c ∈ codesFrom dict ts) : c.type ≠ .INVALID := by
  rcases codesFrom_type dict ts c hc with h | h <;> simp [h]

theorem codesFrom_ne_REPEAT {dict ts : List UInt16} {c : Code} (hc : c ∈ codesFrom dict ts) : c.type ≠ .REPEAT := by
  rcases codesFrom_type dict ts c hc with h | h <;> simp [h]

/-- The payload `encodeBlock` writes is the reference payload of the tiles it reads. -/
theorem encodeBlock_eq_referencePayload (tiles : List UInt16) (topLeft mWidth width height : Nat) :
    encodeBlock tiles topLeft mWidth width height=referencePayload (blockTiles tiles topLeft mWidth width height) := by
  apply eq_packWords
  rw [encodeBlock,encodeBlockFinal,encodeBlockFinal_words,encodeBlock_loops,foldl_encodeTile,
    encodeCodes_stream _ rfl Bool.false_ne_true _ fun c hc => codesFrom_ne_INVALID hc]
  rfl

theorem repeatsAfterPairs_rleTokens (dict ts : List UInt16) : RepeatsAfterPairs (rleTokens (codesFrom dict ts)) := by
  have nr : ∀ d ∈ codesFrom dict ts, d.type ≠ .REPEAT := fun d hd => codesFrom_ne_REPEAT hd
  cases hcs : codesFrom dict ts with
  | nil => intro xs r ys h; simp [rleTokens] at h
  | cons c cs =>
    rw [hcs] at nr
    exact repeatsAfterPairs_rleRun c 1 cs (nr c (List.mem_cons_self _ _)) fun d hd => nr d (List.mem_cons_of_mem _ hd)

theorem packWords_ne_nil {bits : List Bool} (h : bits ≠ []) : packWords bits ≠ [] := by
  have hp := padBits_length_mod bits
  have hl : bits.length ≤ (padBits bits).length := by simp [padBits]
  have := List.length_pos.mpr h
  rw [← List.length_pos,packWords,takeWords_length]
  omega

/-- A block with a tile has a payload of at least one word. -/
theorem referencePayload_ne_nil {ts : List UInt16} (h : ts ≠ []) : referencePayload ts ≠ [] := by
  obtain ⟨t,ts,rfl⟩ := List.exists_cons_of_ne_nil h
  apply packWords_ne_nil
  have hh := rleRun_head (findBestCode [] t) 1 (codesFrom [t] ts)
  rw [codesFrom,rleTokens,List.nil_append]
  cases hl : rleRun (findBestCode [] t) 1 (codesFrom [t] ts) with
  | nil => simp [hl] at hh
  | cons a rest =>
    simp only [hl,List.head?_cons,Option.some.injEq] at hh
    subst hh
    simp [codeBits_ne_nil (findBestCode_type [] t)]

/-- DUB block encoder refines the plain run-length reference. -/
theorem encodeBlock_eq_reference (tiles : List UInt16) (topLeft mWidth width height : Nat) :
    encodeBlock tiles topLeft mWidth width height=
      referencePayload (blockTiles tiles topLeft mWidth width height) ∧
    RepeatsAfterPairs (rleTokens (codesFrom [] (blockTiles tiles topLeft mWidth width height))) :=
  ⟨encodeBlock_eq_referencePayload tiles topLeft mWidth width height,repeatsAfterPairs_rleTokens _ _⟩

end Stir.DUBEncoder

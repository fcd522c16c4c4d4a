import Stir.DUBEncoder.Block

namespace Stir.DUBEncoder

theorem log_eight_le {n : Nat} (h : n < 2^18) : Nat.log 8 n ≤ 5 := by
  rcases Nat.eq_zero_or_pos n with rfl | hn
  · simp
  · exact Nat.lt_succ_iff.mp (Nat.log_lt_of_lt_pow (by omega) (by norm_num; omega))

/-- A DELTA of two 16-bit tiles is at most 2 header bits and six 3-bit groups with their flags. -/
theorem codeLen_deltaCode_le (dict : List UInt16) (tile : UInt16) : codeLen (deltaCode dict tile) ≤ 26 := by
  have ht : tile.toNat < 2^16 := tile.toBitVec.isLt
  have hl : (dict.getLastD 0).toNat < 2^16 := (dict.getLastD 0).toBitVec.isLt
  unfold deltaCode
  split_ifs
  · rw [codeLen_DELTA (by omega) (by omega)]
    have := log_eight_le (n := (tile.toNat : Int).natAbs) (by omega)
    omega
  · rw [codeLen_DELTA (by omega) (by omega)]
    have := log_eight_le (n := ((tile.toNat : Int)-(dict.getLastD 0).toNat).natAbs) (by omega)
    omega

theorem codeLen_findBestCode_le (dict : List UInt16) (tile : UInt16) : codeLen (findBestCode dict tile) ≤ 26 :=
  (findBestCode_le_delta dict tile).trans (codeLen_deltaCode_le dict tile)

theorem codeLen_REPEAT_le {m : Nat} (h : m < 2^18) : codeLen ⟨.REPEAT,m⟩ ≤ 24 := by
  rw [codeLen_REPEAT (by omega)]
  have := log_eight_le h
  omega

/-- Fewer than 16 bits wait between emissions, and the buffer has never held more than 41. -/
def BlockState.Bounded (s : BlockState) : Prop := s.bits.bits.length < 16 ∧ s.bits.peak ≤ 41

theorem emit_bounded {s : BlockState} {c : Code} (hs : s.Bounded) (hc : codeLen c ≤ 26) :
    (s.emit c).Bounded := by
  obtain ⟨h1,h2⟩ := hs
  have := emit_peak s c
  exact ⟨emit_count s c,by omega⟩

theorem closeRun_bounded {s : BlockState} (hs : s.Bounded) (hr : codeLen ⟨.REPEAT,s.repeatCount⟩ ≤ 26) :
    s.closeRun.Bounded := by
  unfold BlockState.closeRun
  split_ifs
  · exact emit_bounded hs hr
  · exact hs

/-- One code adds at most one emission to the bits held after a flush, plus a REPEAT flushed
before it. -/
theorem encodeCode_bounded {s : BlockState} {c : Code} (hs : s.Bounded) (hc : codeLen c ≤ 26)
    (hr : codeLen ⟨.REPEAT,s.repeatCount⟩ ≤ 26) : (encodeCode s c).Bounded := by
  by_cases hp : s.prevCode=c
  · by_cases hrep : s.repeating
    · rw [encodeCode_extend hrep hp]; exact hs
    · rw [encodeCode_start hrep hp]; exact emit_bounded hs hc
  · rw [encodeCode_new hp]
    exact emit_bounded (closeRun_bounded (s := { s with prevCode := c }) hs hr) hc

theorem encodeCode_repeatCount_le (s : BlockState) (c : Code) :
    (encodeCode s c).repeatCount ≤ s.repeatCount+1 := by
  by_cases hp : s.prevCode=c
  · by_cases hrep : s.repeating
    · rw [encodeCode_extend hrep hp]
    · rw [encodeCode_start hrep hp]; simp
  · rw [encodeCode_new hp]
    unfold BlockState.closeRun
    split_ifs <;> simp

/-- Over a whole block of fewer than `2^18` tiles the buffer stays bounded, since every run
count stays below the number of tiles read. -/
theorem foldl_encodeTile_bounded (ts : List UInt16) (s : BlockState) (hs : s.Bounded)
    (hc : s.repeatCount ≤ s.dict.length) (hn : s.dict.length+ts.length < 2^18) :
    (ts.foldl encodeTile s).Bounded ∧ (ts.foldl encodeTile s).repeatCount < 2^18 := by
  induction ts generalizing s with
  | nil => exact ⟨hs,by rw [List.foldl_nil]; simp only [List.length_nil] at hn; omega⟩
  | cons t ts ih =>
    simp only [List.length_cons] at hn
    have hr : s.repeatCount < 2^18 := by omega
    have hb : (encodeTile s t).Bounded :=
      encodeCode_bounded hs (codeLen_findBestCode_le _ _) ((codeLen_REPEAT_le hr).trans (by norm_num))
    have hcount : (encodeTile s t).repeatCount ≤ s.repeatCount+1 :=
      encodeCode_repeatCount_le { s with dict := s.dict++[t] } (findBestCode s.dict t)
    have hd : (encodeTile s t).dict.length=s.dict.length+1 := by
      rw [encodeTile_dict,List.length_append,List.length_singleton]
    rw [List.foldl_cons]
    exact ih _ hb (by omega) (by omega)

/-- DUB bit accumulator bound. -/
theorem encodeBlock_peak_le (tiles : List UInt16) (topLeft mWidth width height : Nat)
    (h : width*height < 2^18) : (encodeBlockFinal tiles topLeft mWidth width height).1.peak ≤ 41 := by
  have hrun := foldl_encodeTile_bounded (blockTiles tiles topLeft mWidth width height) BlockState.init
    ⟨by decide,by decide⟩ (le_refl _) (by simp [BlockState.init]; rw [Nat.mul_comm]; exact h)
  rw [← encodeBlock_loops] at hrun
  obtain ⟨⟨hl,hp⟩,hr⟩ := hrun
  rw [encodeBlockFinal,flush_peak]
  split_ifs
  · have := codeLen_REPEAT_le hr
    rw [packCode_eq,push_peak]
    rw [codeLen_eq] at this
    omega
  · exact hp

/-- A full-scale DELTA, then one back, holds 36 bits at once. -/
theorem encodeBlock_peak_le_swing : 2*1 < 2^18 ∧ (encodeBlockFinal [65535,0] 0 2 2 1).1.peak=36 ∧
    (encodeBlockFinal [65535,0] 0 2 2 1).1.peak ≤ 41 :=
  ⟨by norm_num,by decide,encodeBlock_peak_le [65535,0] 0 2 2 1 (by norm_num)⟩

end Stir.DUBEncoder

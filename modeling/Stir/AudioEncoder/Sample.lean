import Mathlib.Tactic.IntervalCases
import Stir.AudioEncoder.Tables

namespace Stir.ADPCMEncoder

/-- Codec state: the predictor `sample` (an `int16_t`) and the step-table `index`. -/
@[ext] structure State where
  sample : Int
  index : Int
  deriving DecidableEq, Repr

/-- The spec's invariant: sample in `int16_t` range, index inside the 89-entry table. -/
def State.Valid (state : State) : Prop :=
  -32768 ≤ state.sample ∧ state.sample ≤ 32767 ∧ 0 ≤ state.index ∧ state.index ≤ INDEX_MAX

instance (state : State) : Decidable state.Valid := inferInstanceAs (Decidable (_ ∧ _))

theorem State.valid_mk {sample index : Int} (h1 : -32768 ≤ sample) (h2 : sample ≤ 32767) (h3 : 0 ≤ index)
    (h4 : index ≤ INDEX_MAX) : (⟨sample,index⟩ : State).Valid := ⟨h1,h2,h3,h4⟩

/-- One pass of the nybble loop: keep `code` when its error is no worse (`<=`, so the later
code wins a tie). The pair is `(bestCode, bestDiff)`. -/
def searchStep (step : Nat) (diff : Int) (best : Nat × Int) (code : Nat) : Nat × Int :=
  let thisDiff := codeDiff code step
  let thisError := max (thisDiff-diff) (diff-thisDiff)
  let bestError := max (best.2-diff) (diff-best.2)
  if thisError ≤ bestError then (code,thisDiff) else best

/-- `for (code = 0; code < 16; ++code)` from `bestCode = 0, bestDiff = 0x100000`. -/
def bestNybble (step : Nat) (diff : Int) : Nat × Int :=
  (List.range 16).foldl (searchStep step diff) (0,0x100000)

/-- `ADPCMEncoder::encodeSample`: the nybble chosen for `sample` and the updated state. -/
def encodeSample (state : State) (sample : Int) : Nat × State :=
  let index := state.index
  let step := stepSizeTable.getD index.toNat 0
  let prevSample := state.sample
  let diff := sample-prevSample
  let best := bestNybble step diff
  (best.1,⟨min 32767 (max (-32768) (prevSample+best.2)),
    min INDEX_MAX (max 0 (index+adjustment best.1))⟩)

/-- The spec's decoder step for one nybble `c`: add `floor(m(c)*step/8)` and `adj(c)`,
both clamped. -/
def decodeSample (state : State) (c : Nat) : State :=
  ⟨min 32767 (max (-32768) (state.sample+multiplier c*stepSizeTable.getD state.index.toNat 0/8)),
    min 88 (max 0 (state.index+adjustment c))⟩

/-- A pass either takes the new code with its own delta or keeps the pair. -/
theorem searchStep_cases (step : Nat) (diff : Int) (best : Nat × Int) (code : Nat) :
    searchStep step diff best code=(code,codeDiff code step) ∨ searchStep step diff best code=best := by
  unfold searchStep
  dsimp only
  split_ifs
  · exact .inl rfl
  · exact .inr rfl

theorem encodeSample_valid (state : State) (sample : Int) : (encodeSample state sample).2.Valid := by
  simp only [encodeSample, State.Valid, INDEX_MAX]
  omega

theorem encodeSample_code_lt (state : State) (sample : Int) : (encodeSample state sample).1 < 16 := by
  have h : ∀ (codes : List Nat) (best : Nat × Int), best.1 < 16 → (∀ c∈codes, c < 16) →
      (codes.foldl (searchStep (stepSizeTable.getD state.index.toNat 0)
        (sample-state.sample)) best).1 < 16 := by
    intro codes
    induction codes with
    | nil => intro best hb _; exact hb
    | cons c cs ih =>
      intro best hb hc
      apply ih _ _ (fun x hx => hc x (by simp [hx]))
      rcases searchStep_cases _ _ best c with h | h <;> rw [h]
      · exact hc c (by simp)
      · exact hb
  exact h _ _ (by decide) (fun c hc => by simpa using hc)

/-- Once a real candidate is held, the pair stays a code with its own delta. -/
theorem foldl_searchStep_diff (step : Nat) (diff : Int) (codes : List Nat) (best : Nat × Int)
    (h : best.2=codeDiff best.1 step) :
    (codes.foldl (searchStep step diff) best).2=
      codeDiff (codes.foldl (searchStep step diff) best).1 step := by
  induction codes generalizing best with
  | nil => exact h
  | cons c cs ih =>
    apply ih
    rcases searchStep_cases step diff best c with h' | h' <;> rw [h']
    exact h

/-- Code 0 beats the sentinel `0x100000` whenever the difference is a 17-bit one. -/
theorem searchStep_sentinel (step : Nat) (diff : Int) (hs : step < 2^16) (hd : -65535 ≤ diff ∧ diff ≤ 65535) :
    searchStep step diff (0,0x100000) 0=(0,codeDiff 0 step) := by
  have h0 : codeDiff 0 step=step/8 := by
    rw [codeDiff_eq 0 step hs,show multiplier 0=1 by decide,one_mul]
  unfold searchStep
  rw [if_pos]
  simp only [h0]
  omega

/-- The sentinel loses to code 0, so `bestDiff` always belongs to `bestCode`. -/
theorem bestNybble_diff (step : Nat) (diff : Int) (hs : step < 2^16) (hd : -65535 ≤ diff ∧ diff ≤ 65535) :
    (bestNybble step diff).2=codeDiff (bestNybble step diff).1 step := by
  unfold bestNybble
  rw [List.range_succ_eq_map,List.foldl_cons,searchStep_sentinel step diff hs hd]
  exact foldl_searchStep_diff _ _ _ _ rfl

/-- Code `code` is, among the codes below `k`, one whose delta lands nearest `diff`, and the
highest such: the search keeps a later code on a tie (`thisError <= bestError`). -/
structure NearestAmong (step : Nat) (diff : Int) (k code : Nat) : Prop where
  lt : code < k
  nearest : ∀ c < k, |codeDiff code step-diff| ≤ |codeDiff c step-diff|
  last : ∀ c < k, code < c → |codeDiff code step-diff| < |codeDiff c step-diff|

theorem max_sub_sub (a b : Int) : max (a-b) (b-a)=|a-b| := by
  rw [abs_eq_max_neg,neg_sub]

/-- One pass of the nybble loop extends the nearest code from `[0, k)` to `[0, k]`. -/
theorem searchStep_nearest {step : Nat} {diff : Int} {k : Nat} {best : Nat × Int}
    (hd : best.2=codeDiff best.1 step) (h : NearestAmong step diff k best.1) :
    (searchStep step diff best k).2=codeDiff (searchStep step diff best k).1 step ∧
      NearestAmong step diff (k+1) (searchStep step diff best k).1 := by
  have hk := h.lt
  unfold searchStep
  dsimp only
  rw [max_sub_sub,max_sub_sub,hd]
  split_ifs with hle
  · refine ⟨rfl,⟨Nat.lt_succ_self k,fun c hc => ?_,fun c hc hkc => absurd hc (by omega)⟩⟩
    rcases Nat.lt_succ_iff_lt_or_eq.mp hc with hc | rfl
    · exact hle.trans (h.nearest c hc)
    · exact le_rfl
  · have hlt := lt_of_not_le hle
    refine ⟨hd,⟨by omega,fun c hc => ?_,fun c hc hbc => ?_⟩⟩ <;>
      rcases Nat.lt_succ_iff_lt_or_eq.mp hc with hc | rfl
    · exact h.nearest c hc
    · exact hlt.le
    · exact h.last c hc hbc
    · exact hlt

/-- The loop over the 16 codes ends on the nearest code, the highest one on a tie. -/
theorem bestNybble_nearest (step : Nat) (diff : Int) (hs : step < 2^16) (hd : -65535 ≤ diff ∧ diff ≤ 65535) :
    NearestAmong step diff 16 (bestNybble step diff).1 := by
  have hrun : ∀ k, ((List.range (k+1)).foldl (searchStep step diff) (0,0x100000)).2=
      codeDiff ((List.range (k+1)).foldl (searchStep step diff) (0,0x100000)).1 step ∧
      NearestAmong step diff (k+1) ((List.range (k+1)).foldl (searchStep step diff) (0,0x100000)).1 := by
    intro k
    induction k with
    | zero =>
      rw [List.range_succ,List.range_zero,List.nil_append,List.foldl_cons,List.foldl_nil,
        searchStep_sentinel step diff hs hd]
      refine ⟨rfl,⟨Nat.zero_lt_one,fun c hc => ?_,fun c hc h0 => absurd hc (by omega)⟩⟩
      obtain rfl : c=0 := by omega
      exact le_rfl
    | succ k ih =>
      rw [List.range_succ,List.foldl_append,List.foldl_cons,List.foldl_nil]
      exact searchStep_nearest ih.1 ih.2
  exact (hrun 15).2

/-- The spec decoder, fed the nybble the encoder chose, lands on the encoder's state. -/
theorem decodeSample_encodeSample (state : State) (sample : Int) (hv : state.Valid)
    (hs : -32768 ≤ sample ∧ sample ≤ 32767) :
    decodeSample state (encodeSample state sample).1=(encodeSample state sample).2 := by
  have hstep := stepSizeTable_le state.index.toNat
  have hd := bestNybble_diff (stepSizeTable.getD state.index.toNat 0) (sample-state.sample)
    (by omega) (by unfold State.Valid at hv; omega)
  simp only [encodeSample, decodeSample, State.mk.injEq, INDEX_MAX]
  rw [hd,codeDiff_eq _ _ (by omega)]
  exact ⟨rfl,trivial⟩

/-- The nybble `encodeSample` writes is the one whose delta lands nearest the sample, among all 16
codes, and the highest such nybble on a tie. -/
theorem encodeSample_nearest (state : State) (sample : Int) (hv : state.Valid)
    (hs : -32768 ≤ sample ∧ sample ≤ 32767) :
    NearestAmong (stepSizeTable.getD state.index.toNat 0) (sample-state.sample) 16 (encodeSample state sample).1 :=
  bestNybble_nearest _ _ (by have := stepSizeTable_le state.index.toNat; omega) (by unfold State.Valid at hv; omega)

theorem encodeSample_nearest_zero : (⟨0,0⟩ : State).Valid ∧ (-32768 ≤ (100 : Int) ∧ (100 : Int) ≤ 32767) ∧
    NearestAmong (stepSizeTable.getD (0 : Int).toNat 0) (100-0) 16 (encodeSample ⟨0,0⟩ 100).1 :=
  ⟨by decide,by decide,encodeSample_nearest ⟨0,0⟩ 100 (by decide) (by decide)⟩

/-! How far the predictor lands from the sample. -/

/-- A value between 0 and the last of `n+1` candidates, the first within `q+1` of 0 and each within
`2q+2` of the one before, is within `q+1` of one of them. -/
theorem exists_near_candidate (v : Nat → Int) (q x : Int) (h0 : 0 ≤ x) (hv0 : v 0 ≤ q+1) :
    ∀ n, (∀ j < n, v (j+1)-v j ≤ 2*q+2) → x ≤ v n → ∃ j ≤ n, |v j-x| ≤ q+1
  | 0, _, hx => ⟨0,le_rfl,abs_le.mpr ⟨by omega,by omega⟩⟩
  | n+1, hs, hx => by
    by_cases hn : x ≤ v n
    · obtain ⟨j,hj,h⟩ := exists_near_candidate v q x h0 hv0 n (fun j hj => hs j (by omega)) hn
      exact ⟨j,by omega,h⟩
    · have := hs n (by omega)
      by_cases hc : x-v n ≤ q+1
      · exact ⟨n,by omega,abs_le.mpr ⟨by omega,by omega⟩⟩
      · exact ⟨n+1,le_rfl,abs_le.mpr ⟨by omega,by omega⟩⟩

/-- Consecutive candidate deltas, `floor(a/8)` and `floor((a+2s)/8)`, are at most `2*(s/8)+2`
apart, and so are their mirror images. -/
theorem ediv_eight_gap (a s : Int) : (a+2*s)/8-a/8 ≤ 2*(s/8)+2 ∧ -(-(a+2*s)/8)-(-(-a/8)) ≤ 2*(s/8)+2 := by
  constructor <;> omega

theorem multiplier_eq : ∀ c < 16, multiplier c=if c < 8 then 2*(c : Int)+1 else -(2*((c : Int)-8)+1) := by
  decide

/-- Some code lands within `step/8 + 1` of any difference within the reach of the largest code. -/
theorem exists_code_near (step : Nat) (d : Int) (hs : step < 2^16) (hd : |d| ≤ 15*(step : Int)/8) :
    ∃ c < 16, |codeDiff c step-d| ≤ step/8+1 := by
  have hdiff : ∀ c < 16, codeDiff c step=multiplier c*step/8 := fun c _ => codeDiff_eq c step hs
  have hnext : ∀ j : Nat, (2*((j+1 : Nat) : Int)+1)*step=(2*(j : Int)+1)*step+2*step := fun j => by
    rw [show 2*((j+1 : Nat) : Int)+1=(2*j+1)+2 by omega,add_mul]
  obtain ⟨hl,hu⟩ := abs_le.mp hd
  rcases le_or_lt 0 d with h0 | h0
  · have hv : ∀ j < 8, codeDiff j step=(2*(j : Int)+1)*step/8 := fun j hj => by
      rw [hdiff j (by omega),multiplier_eq j (by omega),if_pos hj]
    obtain ⟨j,hj,h⟩ := exists_near_candidate (fun j => codeDiff j step) (step/8) d h0
      (by dsimp only; rw [hv 0 (by omega)]; omega) 7
      (fun j hj => by dsimp only; rw [hv j (by omega),hv (j+1) (by omega),hnext]; exact (ediv_eight_gap _ _).1)
      (by dsimp only; rw [hv 7 (by omega)]; exact hu)
    exact ⟨j,by omega,h⟩
  · have hv : ∀ j < 8, codeDiff (8+j) step=-((2*(j : Int)+1)*step)/8 := fun j hj => by
      rw [hdiff (8+j) (by omega),multiplier_eq (8+j) (by omega),if_neg (by omega),Nat.cast_add,
        Nat.cast_ofNat,add_sub_cancel_left,neg_mul]
    obtain ⟨j,hj,h⟩ := exists_near_candidate (fun j => -codeDiff (8+j) step) (step/8) (-d) (by omega)
      (by dsimp only; rw [hv 0 (by omega)]; omega) 7
      (fun j hj => by dsimp only; rw [hv j (by omega),hv (j+1) (by omega),hnext]; exact (ediv_eight_gap _ _).2)
      (by dsimp only; rw [hv 7 (by omega)]; omega)
    refine ⟨8+j,by omega,?_⟩
    rwa [show -codeDiff (8+j) step - -d=-(codeDiff (8+j) step-d) by omega,abs_neg] at h

/-- The quantisation error of `encodeSample`: when the sample is within the reach of the largest
code, `15*step/8` from the predictor, the new predictor lands within `step/8 + 1` of it. -/
theorem encodeSample_error_le (state : State) (sample : Int) (hv : state.Valid)
    (hs : -32768 ≤ sample ∧ sample ≤ 32767)
    (hd : |sample-state.sample| ≤ 15*(stepSizeTable.getD state.index.toNat 0 : Int)/8) :
    |(encodeSample state sample).2.sample-sample| ≤ (stepSizeTable.getD state.index.toNat 0 : Int)/8+1 := by
  have hstep : stepSizeTable.getD state.index.toNat 0 < 2^16 := by
    have := stepSizeTable_le state.index.toNat; omega
  have hdr : -65535 ≤ sample-state.sample ∧ sample-state.sample ≤ 65535 := by
    unfold State.Valid at hv; omega
  obtain ⟨c,hc,hnear⟩ := exists_code_near _ _ hstep hd
  have hbest := ((bestNybble_nearest _ _ hstep hdr).nearest c hc).trans hnear
  rw [← bestNybble_diff _ _ hstep hdr] at hbest
  obtain ⟨h1,h2⟩ := abs_le.mp hbest
  show |min 32767 (max (-32768) (state.sample+(bestNybble _ (sample-state.sample)).2))-sample| ≤ _
  exact abs_le.mpr ⟨by omega,by omega⟩

theorem encodeSample_error_le_zero : (⟨0,0⟩ : State).Valid ∧ (-32768 ≤ (10 : Int) ∧ (10 : Int) ≤ 32767) ∧
    |(10 : Int)-(⟨0,0⟩ : State).sample| ≤ 15*(stepSizeTable.getD (⟨0,0⟩ : State).index.toNat 0 : Int)/8 ∧
    |(encodeSample ⟨0,0⟩ 10).2.sample-10| ≤ (stepSizeTable.getD (⟨0,0⟩ : State).index.toNat 0 : Int)/8+1 :=
  ⟨by decide,by decide,by decide,encodeSample_error_le ⟨0,0⟩ 10 (by decide) (by decide) (by decide)⟩

end Stir.ADPCMEncoder

import Stir.AudioEncoder.Stream

namespace Stir.ADPCMEncoder

/-- `int16_t(in[0] | (in[1] << 8))`: the first sample, the initial predictor. -/
def firstSample (input : List UInt8) : Int :=
  toInt16 ((input.getD 0 0).toNat ||| (input.getD 1 0).toNat<<<8)

/-- The error metric `optimizeIC` minimises: `encodeWithIC` over at most 100 samples,
`std::min<unsigned>(200, in.size())`. -/
def prefixError (input : List UInt8) (state : State) : Nat :=
  (encodeWithIC state input (min 200 (input.length%2^32))).1

/-- One turn of the index scan: keep `index` on a strictly smaller error. -/
def scanStep (trial : State → Nat) (sample : Int) (best : Nat × Int) (index : Nat) : Nat × Int :=
  if trial ⟨sample,index⟩ < best.1 then (trial ⟨sample,index⟩,index) else best

/-- `for (state.index = 0; state.index < INDEX_MAX; state.index++)` from `error = -1`,
`bestIndex = 0`: the pair `(error, bestIndex)`. -/
def scanIndex (trial : State → Nat) (sample : Int) : Nat × Int :=
  (List.range INDEX_MAX.toNat).foldl (scanStep trial sample) (2^64-1,0)

/-- Outcome of one pass of the hill-climbing `for (;;)` body. -/
inductive Climb where
  | next (state : State) (error : Nat)
  | done (state : State)
  deriving DecidableEq, Repr

/-- The body's last move: `index--` when `index > 0`, undone by `index++`. -/
def climbIndexDown (trial : State → Nat) (state : State) (error : Nat) : Climb :=
  if 0 < state.index then
    let prev := {state with index := state.index-1}
    if trial prev < error then .next prev (trial prev) else .done {prev with index := prev.index+1}
  else .done state

/-- `index++` when `index < INDEX_MAX`, undone by `index--`, then the last move. -/
def climbIndexUp (trial : State → Nat) (state : State) (error : Nat) : Climb :=
  if state.index < INDEX_MAX then
    let next := {state with index := state.index+1}
    if trial next < error then .next next (trial next)
    else climbIndexDown trial {next with index := next.index-1} error
  else climbIndexDown trial state error

/-- One pass of the `for (;;)` body, moves made and undone in place on the `int16_t` sample:
`sample += 1`, `sample -= 2`, `sample += 1`, then the index moves. -/
def climbStep (trial : State → Nat) (state : State) (error : Nat) : Climb :=
  let up := {state with sample := toInt16 (state.sample+1)}
  if trial up < error then .next up (trial up) else
  let down := {up with sample := toInt16 (up.sample-2)}
  if trial down < error then .next down (trial down) else
  climbIndexUp trial {down with sample := toInt16 (down.sample+1)} error

/-- The `for (;;)` loop run for at most `fuel` passes; `none` if it has not stopped by then. -/
def hillClimb (trial : State → Nat) : Nat → State → Nat → Option (State × Nat)
  | 0, _, _ => none
  | fuel+1, state, error =>
    match climbStep trial state error with
    | .next state error => hillClimb trial fuel state error
    | .done state => some (state,error)

/-- Scan and hill climb of `optimizeIC` from `sample`, with the final `error` local. The
`uint64_t` error bounds the passes by `2^64`. -/
def climbIC (trial : State → Nat) (sample : Int) : Option (State × Nat) :=
  hillClimb trial (2^64) ⟨sample,(scanIndex trial sample).2⟩ (scanIndex trial sample).1

/-- `ADPCMEncoder::optimizeIC`: the initial conditions. -/
def optimizeIC (input : List UInt8) : Option State :=
  if input.length < 4 then some ⟨0,0⟩
  else (climbIC (prefixError input) (firstSample input)).map Prod.fst

/-- `ADPCMEncoder::encode`: the optimised header, then the whole input,
`encodeWithIC(state, in, out, in.size())` with the size narrowed to `unsigned`. -/
def encode (input : List UInt8) : Option (List UInt8) :=
  (optimizeIC input).map (fun state => (encodeWithIC state input (input.length%2^32)).2)

theorem prefixError_lt (input : List UInt8) (state : State) : prefixError input state < 2^64 := by
  rw [prefixError,encodeWithIC_eq]
  exact Nat.mod_lt _ (by norm_num)

/-- `sample += 1; sample -= 2` is `sample - 1`, and `sample += 1` undoes it, in `int16_t`. -/
theorem toInt16_down (x : Int) :
    toInt16 (toInt16 (x+1)-2)=toInt16 (x-1) := by
  unfold toInt16; split_ifs <;> omega

theorem toInt16_restore (x : Int) (h1 : -32768 ≤ x) (h2 : x ≤ 32767) :
    toInt16 (toInt16 (x-1)+1)=x := by
  unfold toInt16; split_ifs <;> omega

theorem climbIndexDown_eq (trial : State → Nat) (state : State) (error : Nat) :
    climbIndexDown trial state error=
      if 0 < state.index ∧ trial {state with index := state.index-1} < error then
        .next {state with index := state.index-1} (trial {state with index := state.index-1})
      else .done state := by
  unfold climbIndexDown
  by_cases h0 : 0 < state.index <;> by_cases ht : trial {state with index := state.index-1} < error <;>
    simp only [h0,ht,and_self,and_false,false_and,if_true,if_false,Int.sub_add_cancel]

theorem climbIndexUp_eq (trial : State → Nat) (state : State) (error : Nat) :
    climbIndexUp trial state error=
      if state.index < INDEX_MAX ∧ trial {state with index := state.index+1} < error then
        .next {state with index := state.index+1} (trial {state with index := state.index+1})
      else climbIndexDown trial state error := by
  unfold climbIndexUp
  by_cases h0 : state.index < INDEX_MAX <;> by_cases ht : trial {state with index := state.index+1} < error <;>
    simp only [h0,ht,and_self,and_false,false_and,if_true,if_false,Int.add_sub_cancel]

theorem climbStep_eq (trial : State → Nat) (state : State) (error : Nat) :
    climbStep trial state error=
      if trial {state with sample := toInt16 (state.sample+1)} < error then
        .next {state with sample := toInt16 (state.sample+1)} (trial {state with sample := toInt16 (state.sample+1)})
      else if trial {state with sample := toInt16 (state.sample-1)} < error then
        .next {state with sample := toInt16 (state.sample-1)} (trial {state with sample := toInt16 (state.sample-1)})
      else climbIndexUp trial {state with sample := toInt16 (toInt16 (state.sample-1)+1)} error := by
  simp only [climbStep,toInt16_down]

/-- From a sample in range, a pass tries the four unit moves in order and otherwise stops
where it started. -/
theorem climbStep_eq_moves (trial : State → Nat) (state : State) (error : Nat)
    (hs : -32768 ≤ state.sample ∧ state.sample ≤ 32767) :
    climbStep trial state error=
      if trial {state with sample := toInt16 (state.sample+1)} < error then
        .next {state with sample := toInt16 (state.sample+1)} (trial {state with sample := toInt16 (state.sample+1)})
      else if trial {state with sample := toInt16 (state.sample-1)} < error then
        .next {state with sample := toInt16 (state.sample-1)} (trial {state with sample := toInt16 (state.sample-1)})
      else if state.index < INDEX_MAX ∧ trial {state with index := state.index+1} < error then
        .next {state with index := state.index+1} (trial {state with index := state.index+1})
      else if 0 < state.index ∧ trial {state with index := state.index-1} < error then
        .next {state with index := state.index-1} (trial {state with index := state.index-1})
      else .done state := by
  rw [climbStep_eq,toInt16_restore _ hs.1 hs.2,climbIndexUp_eq,climbIndexDown_eq]

/-- An accepted move lowers the error to the trial of the new state. -/
theorem climbStep_next (trial : State → Nat) (state state' : State) (error error' : Nat)
    (h : climbStep trial state error=.next state' error') : error'=trial state' ∧ error' < error := by
  rw [climbStep_eq,climbIndexUp_eq,climbIndexDown_eq] at h
  split_ifs at h with h1 h2 h3 h4 <;> cases h
  exacts [⟨rfl,h1⟩,⟨rfl,h2⟩,⟨rfl,h3.2⟩,⟨rfl,h4.2⟩]

/-- None of the four unit moves of the climb has a strictly smaller error: `sample ± 1` in
`int16_t`, `index + 1` below `INDEX_MAX`, `index - 1` above 0. -/
def LocalMin (trial : State → Nat) (state : State) (error : Nat) : Prop :=
  error ≤ trial {state with sample := toInt16 (state.sample+1)} ∧
  error ≤ trial {state with sample := toInt16 (state.sample-1)} ∧
  (state.index < INDEX_MAX → error ≤ trial {state with index := state.index+1}) ∧
  (0 < state.index → error ≤ trial {state with index := state.index-1})

/-- A pass that stops has undone every move, and none of the four unit moves improved. -/
theorem climbStep_done (trial : State → Nat) (state state' : State) (error : Nat)
    (hs : -32768 ≤ state.sample ∧ state.sample ≤ 32767) (h : climbStep trial state error=.done state') :
    state'=state ∧ LocalMin trial state error := by
  rw [climbStep_eq_moves _ _ _ hs] at h
  split_ifs at h with h1 h2 h3 h4
  cases h
  exact ⟨rfl,Nat.le_of_not_lt h1,Nat.le_of_not_lt h2,fun g => Nat.le_of_not_lt fun ht => h3 ⟨g,ht⟩,
    fun g => Nat.le_of_not_lt fun ht => h4 ⟨g,ht⟩⟩

/-- An accepted move is one of the four unit moves, under its guard. -/
theorem climbStep_next_move (trial : State → Nat) (state state' : State) (error error' : Nat)
    (hs : -32768 ≤ state.sample ∧ state.sample ≤ 32767)
    (h : climbStep trial state error=.next state' error') :
    state'={state with sample := toInt16 (state.sample+1)} ∨
    state'={state with sample := toInt16 (state.sample-1)} ∨
    (state.index < INDEX_MAX ∧ state'={state with index := state.index+1}) ∨
    (0 < state.index ∧ state'={state with index := state.index-1}) := by
  rw [climbStep_eq_moves _ _ _ hs] at h
  split_ifs at h with h1 h2 h3 h4 <;> cases h
  exacts [.inl rfl,.inr (.inl rfl),.inr (.inr (.inl ⟨h3.1,rfl⟩)),.inr (.inr (.inr ⟨h4.1,rfl⟩))]

/-- The four unit moves of a valid state are valid, each under its guard. -/
theorem moves_valid (state : State) (hv : state.Valid) :
    ({state with sample := toInt16 (state.sample+1)} : State).Valid ∧
    ({state with sample := toInt16 (state.sample-1)} : State).Valid ∧
    (state.index < INDEX_MAX → ({state with index := state.index+1} : State).Valid) ∧
    (0 < state.index → ({state with index := state.index-1} : State).Valid) := by
  have h1 := toInt16_range (state.sample+1)
  have h2 := toInt16_range (state.sample-1)
  unfold State.Valid at *
  refine ⟨?_,?_,?_,?_⟩ <;> intros <;> simp only <;> omega

theorem climbStep_next_valid (trial : State → Nat) (state state' : State) (error error' : Nat)
    (hv : state.Valid) (h : climbStep trial state error=.next state' error') : state'.Valid := by
  have hm := moves_valid state hv
  rcases climbStep_next_move trial state state' error error' ⟨hv.1,hv.2.1⟩ h with
    rfl | rfl | ⟨g,rfl⟩ | ⟨g,rfl⟩
  exacts [hm.1,hm.2.1,hm.2.2.1 g,hm.2.2.2 g]

theorem climbStep_next_sample (trial : State → Nat) (state state' : State) (error error' : Nat)
    (hs : -32768 ≤ state.sample ∧ state.sample ≤ 32767)
    (h : climbStep trial state error=.next state' error') :
    -32768 ≤ state'.sample ∧ state'.sample ≤ 32767 := by
  rcases climbStep_next_move trial state state' error error' hs h with rfl | rfl | ⟨-,rfl⟩ | ⟨-,rfl⟩
  exacts [toInt16_range _,toInt16_range _,hs,hs]

/-- A pass reads the trial only at valid states when it starts from one. -/
theorem climbStep_congr (t t' : State → Nat) (state : State) (error : Nat) (hv : state.Valid)
    (ht : ∀ st : State, st.Valid → t st=t' st) : climbStep t state error=climbStep t' state error := by
  obtain ⟨h1,h2,h3,h4⟩ := moves_valid state hv
  have e3 := fun g => ht _ (h3 g)
  have e4 := fun g => ht _ (h4 g)
  rw [climbStep_eq_moves _ _ _ ⟨hv.1,hv.2.1⟩,climbStep_eq_moves _ _ _ ⟨hv.1,hv.2.1⟩,ht _ h1,ht _ h2]
  by_cases g3 : state.index < INDEX_MAX <;> by_cases g4 : 0 < state.index <;>
    simp only [g3,g4,true_and,false_and,if_true,if_false,e3,e4]

/-- Whatever the fuel, the loop stops within `error + 1` passes: each accepted move strictly
lowers the error. -/
theorem hillClimb_isSome (trial : State → Nat) (fuel : Nat) (state : State) (error : Nat)
    (h : error < fuel) : (hillClimb trial fuel state error).isSome := by
  induction fuel generalizing state error with
  | zero => omega
  | succ fuel ih =>
    cases hc : climbStep trial state error with
    | next s e =>
      simp only [hillClimb,hc]
      exact ih s e (by have := (climbStep_next trial state s error e hc).2; omega)
    | done s => simp [hillClimb,hc]

/-- What the loop returns: an error equal to the trial of the returned state, no larger than
where it started, at a local minimum. -/
theorem hillClimb_spec (trial : State → Nat) (fuel : Nat) (state state' : State)
    (error error' : Nat) (hs : -32768 ≤ state.sample ∧ state.sample ≤ 32767) (he : error=trial state)
    (h : hillClimb trial fuel state error=some (state',error')) :
    error'=trial state' ∧ error' ≤ error ∧ LocalMin trial state' error' := by
  induction fuel generalizing state error with
  | zero => simp [hillClimb] at h
  | succ fuel ih =>
    cases hc : climbStep trial state error with
    | next s e =>
      simp only [hillClimb,hc] at h
      obtain ⟨he',hlt⟩ := climbStep_next trial state s error e hc
      obtain ⟨r1,r2,r3⟩ := ih s e (climbStep_next_sample trial state s error e hs hc) he' h
      exact ⟨r1,by omega,r3⟩
    | done s =>
      simp only [hillClimb,hc,Option.some.injEq,Prod.mk.injEq] at h
      obtain ⟨rfl,rfl⟩ := h
      obtain ⟨rfl,hm⟩ := climbStep_done trial state s error hs hc
      exact ⟨he,le_rfl,hm⟩

theorem hillClimb_valid (trial : State → Nat) (fuel : Nat) (state state' : State)
    (error error' : Nat) (hv : state.Valid) (h : hillClimb trial fuel state error=some (state',error')) :
    state'.Valid := by
  induction fuel generalizing state error with
  | zero => simp [hillClimb] at h
  | succ fuel ih =>
    cases hc : climbStep trial state error with
    | next s e =>
      simp only [hillClimb,hc] at h
      exact ih s e (climbStep_next_valid trial state s error e hv hc) h
    | done s =>
      simp only [hillClimb,hc,Option.some.injEq,Prod.mk.injEq] at h
      obtain ⟨rfl,-⟩ := h
      rw [(climbStep_done trial state s error ⟨hv.1,hv.2.1⟩ hc).1]
      exact hv

theorem hillClimb_congr (t t' : State → Nat) (fuel : Nat) (state : State) (error : Nat)
    (hv : state.Valid) (ht : ∀ st : State, st.Valid → t st=t' st) :
    hillClimb t fuel state error=hillClimb t' fuel state error := by
  induction fuel generalizing state error with
  | zero => rfl
  | succ fuel ih =>
    simp only [hillClimb,← climbStep_congr t t' state error hv ht]
    cases hc : climbStep t state error with
    | next s e => exact ih s e (climbStep_next_valid t state s error e hv hc)
    | done s => rfl

/-- The scan after `k ≥ 1` indices holds the first index of least error among them. -/
def ScanBest (trial : State → Nat) (sample : Int) (k : Nat) (best : Nat × Int) : Prop :=
  0 ≤ best.2 ∧ best.2 < k ∧ best.1=trial ⟨sample,best.2⟩ ∧ (∀ j : Nat, j < k → best.1 ≤ trial ⟨sample,j⟩) ∧
    (∀ j : Nat, (j : Int) < best.2 → best.1 < trial ⟨sample,j⟩)

theorem scanStep_best (trial : State → Nat) (sample : Int) (k : Nat) (best : Nat × Int)
    (h : ScanBest trial sample k best) : ScanBest trial sample (k+1) (scanStep trial sample best k) := by
  obtain ⟨h0,hk,he,hle,hlt⟩ := h
  unfold scanStep
  split_ifs with hc
  · refine ⟨by simp,by simp,rfl,fun j hj => ?_,fun j hj => ?_⟩
    · rcases Nat.lt_succ_iff_lt_or_eq.mp hj with hj | rfl
      · exact le_trans hc.le (hle j hj)
      · exact le_rfl
    · exact lt_of_lt_of_le hc (hle j (by simpa using hj))
  · refine ⟨h0,by push_cast; omega,he,fun j hj => ?_,hlt⟩
    rcases Nat.lt_succ_iff_lt_or_eq.mp hj with hj | rfl
    · exact hle j hj
    · omega

/-- The index scan keeps the first index of least error over `[0, INDEX_MAX)`. -/
theorem scanIndex_spec (trial : State → Nat) (sample : Int) (ht : ∀ st, trial st < 2^64) :
    ScanBest trial sample INDEX_MAX.toNat (scanIndex trial sample) := by
  have hrun : ∀ k, ScanBest trial sample (k+1) ((List.range (k+1)).foldl (scanStep trial sample) (2^64-1,0)) := by
    intro k
    induction k with
    | zero =>
      have h0 := ht ⟨sample,0⟩
      show ScanBest trial sample 1 (scanStep trial sample (2^64-1,0) 0)
      unfold scanStep
      simp only [Nat.cast_zero]
      split_ifs with hc
      · exact ⟨le_rfl,by norm_num,rfl,fun j hj => by simp [Nat.lt_one_iff.mp hj],fun j hj => by omega⟩
      · refine ⟨le_rfl,by norm_num,by dsimp only; omega,
          fun j hj => by rw [Nat.lt_one_iff.mp hj]; simp only [Nat.cast_zero]; omega,fun j hj => by omega⟩
    | succ k ih =>
      rw [List.range_succ,List.foldl_append,List.foldl_cons,List.foldl_nil]
      exact scanStep_best _ _ _ _ ih
  exact hrun 87

theorem scanIndex_index (trial : State → Nat) (sample : Int) :
    0 ≤ (scanIndex trial sample).2 ∧ (scanIndex trial sample).2 < INDEX_MAX := by
  have h : ∀ (l : List Nat) (best : Nat × Int), 0 ≤ best.2 ∧ best.2 < INDEX_MAX → (∀ j∈l, j < 88) →
      0 ≤ (l.foldl (scanStep trial sample) best).2 ∧ (l.foldl (scanStep trial sample) best).2 < INDEX_MAX := by
    intro l
    induction l with
    | nil => exact fun _ hb _ => hb
    | cons j l ih =>
      intro best hb hl
      apply ih _ _ (fun x hx => hl x (by simp [hx]))
      have hj := hl j (by simp)
      unfold scanStep INDEX_MAX at *
      split_ifs
      · show 0 ≤ (j : Int) ∧ (j : Int) < 88
        omega
      · exact hb
  exact h _ _ (by decide) (fun j hj => List.mem_range.mp hj)

theorem scanIndex_congr (t t' : State → Nat) (sample : Int)
    (ht : ∀ j : Nat, j < 88 → t ⟨sample,j⟩=t' ⟨sample,j⟩) : scanIndex t sample=scanIndex t' sample := by
  have h : ∀ (l : List Nat) (best : Nat × Int), (∀ j∈l, j < 88) →
      l.foldl (scanStep t sample) best=l.foldl (scanStep t' sample) best := by
    intro l
    induction l with
    | nil => exact fun _ _ => rfl
    | cons j l ih =>
      intro best hl
      simp only [List.foldl_cons,scanStep,ht j (hl j (by simp))]
      exact ih _ (fun x hx => hl x (by simp [hx]))
  exact h _ _ (fun j hj => List.mem_range.mp hj)

/-- The optimiser reads its trial only at valid states: two trials that agree there give the
same initial conditions and error. -/
theorem climbIC_congr (t t' : State → Nat) (sample : Int) (hs : -32768 ≤ sample ∧ sample ≤ 32767)
    (ht : ∀ st : State, st.Valid → t st=t' st) : climbIC t sample=climbIC t' sample := by
  have hsc : scanIndex t sample=scanIndex t' sample :=
    scanIndex_congr _ _ _ (fun j hj => ht _ ⟨hs.1,hs.2,by simp,by simp only [INDEX_MAX]; omega⟩)
  have hi := scanIndex_index t' sample
  unfold climbIC
  rw [hsc]
  exact hillClimb_congr _ _ _ _ _ (State.valid_mk hs.1 hs.2 hi.1 hi.2.le) ht

/-- ADPCM state range: the optimiser hands `encodeWithIC` only valid initial states (its result
does not change when the trial is altered anywhere else), every state of a run from a valid
state is valid, and the initial conditions `encode` writes are valid, index byte at most 88. -/
theorem encode_states_valid (input : List UInt8) :
    (∀ trial : State → Nat, (∀ st : State, st.Valid → trial st=prefixError input st) →
      climbIC trial (firstSample input)=climbIC (prefixError input) (firstSample input)) ∧
    (∀ state : State, state.Valid → ∀ ss : List Int, ∀ r∈sampleRun state ss, r.2.Valid) ∧
    (∀ state∈optimizeIC input, state.Valid ∧ ((header state).getD 2 0).toNat ≤ 88) := by
  have hs := toInt16_range ((input.getD 0 0).toNat ||| (input.getD 1 0).toNat<<<8)
  refine ⟨fun trial ht => climbIC_congr _ _ _ hs ht,?_,?_⟩
  · intro state _ ss r hr
    induction ss generalizing state with
    | nil => simp [sampleRun] at hr
    | cons s ss ih =>
      rcases List.mem_cons.mp hr with rfl | hr
      · exact encodeSample_valid _ _
      · exact ih _ (encodeSample_valid _ _) hr
  · intro state hst
    have hv : state.Valid := by
      unfold optimizeIC at hst
      split_ifs at hst
      · cases hst; decide
      · obtain ⟨⟨st,e⟩,hc,rfl⟩ := Option.mem_map.mp hst
        have hi := scanIndex_index (prefixError input) (firstSample input)
        exact hillClimb_valid _ _ _ _ _ _ (State.valid_mk hs.1 hs.2 hi.1 hi.2.le) hc
    refine ⟨hv,?_⟩
    have hi := hv.2.2
    simp only [header,List.getD_cons_succ,List.getD_cons_zero,lowByte_toNat]
    unfold INDEX_MAX at hi
    omega

theorem firstSample_range (input : List UInt8) :
    -32768 ≤ firstSample input ∧ firstSample input ≤ 32767 := toInt16_range _

/-- At `[0x00, 0x80, 0xFF, 0x7F]`, samples -32768 then 32767, the scan stops below index 88,
whose prefix error is smaller than that of every index it tries. -/
theorem scanIndex_misses_top :
    (scanIndex (prefixError [0x00,0x80,0xFF,0x7F]) (firstSample [0x00,0x80,0xFF,0x7F])).2≠88 ∧
    prefixError [0x00,0x80,0xFF,0x7F] ⟨firstSample [0x00,0x80,0xFF,0x7F],88⟩ <
      (scanIndex (prefixError [0x00,0x80,0xFF,0x7F]) (firstSample [0x00,0x80,0xFF,0x7F])).1 := by
  have hall : ∀ j : Nat, j < 88 → prefixError [0x00,0x80,0xFF,0x7F] ⟨firstSample [0x00,0x80,0xFF,0x7F],88⟩ <
      prefixError [0x00,0x80,0xFF,0x7F] ⟨firstSample [0x00,0x80,0xFF,0x7F],j⟩ := by
    set_option maxRecDepth 4000 in decide
  obtain ⟨h0,hi,he,-,-⟩ := scanIndex_spec _ _ (prefixError_lt [0x00,0x80,0xFF,0x7F])
  generalize scanIndex (prefixError [0x00,0x80,0xFF,0x7F]) (firstSample [0x00,0x80,0xFF,0x7F])=r at *
  obtain ⟨e,i⟩ := r
  lift i to Nat using h0
  simp only [INDEX_MAX] at hi he
  rw [he]
  exact ⟨by omega,hall i (by omega)⟩

/-- The climb from the scanned start stops, with its `error` local the prefix error of the state it
stops at, no larger than the scan's, and no unit move improving it. -/
theorem climbIC_spec (input : List UInt8) :
    ∃ state error, climbIC (prefixError input) (firstSample input)=some (state,error) ∧
      error=prefixError input state ∧ error ≤ (scanIndex (prefixError input) (firstSample input)).1 ∧
      LocalMin (prefixError input) state error := by
  obtain ⟨-,-,he,-,-⟩ := scanIndex_spec (prefixError input) (firstSample input) (prefixError_lt input)
  obtain ⟨⟨state,error⟩,hc⟩ := Option.isSome_iff_exists.mp (hillClimb_isSome (prefixError input) (2^64)
    ⟨firstSample input,(scanIndex (prefixError input) (firstSample input)).2⟩ _ (he ▸ prefixError_lt _ _))
  obtain ⟨r1,r2,r3⟩ := hillClimb_spec (prefixError input) (2^64)
    ⟨firstSample input,(scanIndex (prefixError input) (firstSample input)).2⟩ state
    (scanIndex (prefixError input) (firstSample input)).1 error
    (by dsimp only; exact firstSample_range input) he hc
  exact ⟨state,error,hc,r1,r2,r3⟩

theorem optimizeIC_eq_climbIC {input : List UInt8} (hl : 4 ≤ input.length) {state : State} {error : Nat}
    (h : climbIC (prefixError input) (firstSample input)=some (state,error)) : optimizeIC input=some state := by
  rw [optimizeIC,if_neg (by omega),h]
  rfl

/-- ADPCM hill climb: past four input bytes, `optimizeIC` returns the state its loop stops at,
with the `error` local the prefix error of that state, no larger than at the scanned start, and
no unit move improving it. -/
theorem optimizeIC_local_min (input : List UInt8) (hl : 4 ≤ input.length) :
    ∃ state error, optimizeIC input=some state ∧
      climbIC (prefixError input) (firstSample input)=some (state,error) ∧
      error=prefixError input state ∧
      error ≤ prefixError input ⟨firstSample input,(scanIndex (prefixError input) (firstSample input)).2⟩ ∧
      LocalMin (prefixError input) state error := by
  obtain ⟨-,-,he,-,-⟩ := scanIndex_spec (prefixError input) (firstSample input) (prefixError_lt input)
  obtain ⟨state,error,hc,r1,r2,r3⟩ := climbIC_spec input
  exact ⟨state,error,optimizeIC_eq_climbIC hl hc,hc,r1,r2.trans_eq he,r3⟩

theorem optimizeIC_local_min_five : 4 ≤ ([1,2,3,4,5] : List UInt8).length ∧
    ∃ state error, optimizeIC [1,2,3,4,5]=some state ∧
      climbIC (prefixError [1,2,3,4,5]) (firstSample [1,2,3,4,5])=some (state,error) ∧
      error=prefixError [1,2,3,4,5] state ∧
      error ≤ prefixError [1,2,3,4,5]
        ⟨firstSample [1,2,3,4,5],(scanIndex (prefixError [1,2,3,4,5]) (firstSample [1,2,3,4,5])).2⟩ ∧
      LocalMin (prefixError [1,2,3,4,5]) state error :=
  ⟨by decide,optimizeIC_local_min [1,2,3,4,5] (by decide)⟩

/-- ADPCM hill climb termination: from the error the scan leaves, the loop stops for any
bound on its passes above that error, as every pass that goes on lowers it. -/
theorem optimizeIC_climb_stops (input : List UInt8) (fuel : Nat)
    (h : (scanIndex (prefixError input) (firstSample input)).1 < fuel) :
    (hillClimb (prefixError input) fuel
      ⟨firstSample input,(scanIndex (prefixError input) (firstSample input)).2⟩
      (scanIndex (prefixError input) (firstSample input)).1).isSome :=
  hillClimb_isSome _ _ _ _ h

theorem optimizeIC_climb_stops_five :
    (scanIndex (prefixError [1,2,3,4,5]) (firstSample [1,2,3,4,5])).1 < 2^64 ∧
    (hillClimb (prefixError [1,2,3,4,5]) (2^64)
      ⟨firstSample [1,2,3,4,5],(scanIndex (prefixError [1,2,3,4,5]) (firstSample [1,2,3,4,5])).2⟩
      (scanIndex (prefixError [1,2,3,4,5]) (firstSample [1,2,3,4,5])).1).isSome :=
  have h : (scanIndex (prefixError [1,2,3,4,5]) (firstSample [1,2,3,4,5])).1 < 2^64 := by
    obtain ⟨-,-,he,-,-⟩ := scanIndex_spec _ _ (prefixError_lt [1,2,3,4,5])
    exact he ▸ prefixError_lt _ _
  ⟨h,optimizeIC_climb_stops [1,2,3,4,5] (2^64) h⟩

/-- The optimiser, and so `encode`, always returns. -/
theorem optimizeIC_isSome (input : List UInt8) : (optimizeIC input).isSome := by
  unfold optimizeIC climbIC
  split_ifs
  · rfl
  · obtain ⟨-,-,he,-,-⟩ := scanIndex_spec (prefixError input) (firstSample input) (prefixError_lt input)
    rw [Option.isSome_map']
    exact hillClimb_isSome _ _ _ _ (he ▸ prefixError_lt _ _)

theorem optimizeIC_valid {input : List UInt8} {state : State} (h : optimizeIC input=some state) :
    state.Valid := by
  unfold optimizeIC at h
  split_ifs at h
  · cases h; decide
  · obtain ⟨⟨st,e⟩,hc,rfl⟩ := Option.map_eq_some'.mp h
    have hi := scanIndex_index (prefixError input) (firstSample input)
    exact hillClimb_valid _ _ _ _ _ _
      (State.valid_mk (firstSample_range input).1 (firstSample_range input).2 hi.1 hi.2.le) hc

/-- Past four input bytes, the initial conditions `optimizeIC` returns score no worse than every
index the scan tries at the first sample, and no unit move improves them. -/
theorem optimizeIC_le_scan (input : List UInt8) (hl : 4 ≤ input.length) :
    ∃ state, optimizeIC input=some state ∧
      (∀ j : Nat, j < 88 → prefixError input state ≤ prefixError input ⟨firstSample input,j⟩) ∧
      LocalMin (prefixError input) state (prefixError input state) := by
  obtain ⟨-,-,-,hle,-⟩ := scanIndex_spec (prefixError input) (firstSample input) (prefixError_lt input)
  obtain ⟨state,error,hc,r1,r2,r3⟩ := climbIC_spec input
  refine ⟨state,optimizeIC_eq_climbIC hl hc,fun j hj => ?_,r1 ▸ r3⟩
  calc prefixError input state=error := r1.symm
    _ ≤ (scanIndex (prefixError input) (firstSample input)).1 := r2
    _ ≤ prefixError input ⟨firstSample input,j⟩ := hle j hj

theorem optimizeIC_le_scan_four : 4 ≤ ([0,0,0,0] : List UInt8).length ∧
    ∃ state, optimizeIC [0,0,0,0]=some state ∧
      (∀ j : Nat, j < 88 → prefixError [0,0,0,0] state ≤ prefixError [0,0,0,0] ⟨firstSample [0,0,0,0],j⟩) ∧
      LocalMin (prefixError [0,0,0,0]) state (prefixError [0,0,0,0] state) :=
  ⟨by decide,optimizeIC_le_scan [0,0,0,0] (by decide)⟩

/-- ADPCM end to end: `encode` always writes a stream of `3 + ceil(n/2)` bytes for `n` samples,
whose header holds the optimised initial conditions, a valid state, from which the spec decoder
replays the encoder's predictor after every encoded sample. -/
theorem encode_decode (input : List UInt8) :
    ∃ state out, optimizeIC input=some state ∧ encode input=some out ∧ state.Valid ∧
      out.length=3+(input.length%2^32/2+1)/2 ∧
      decode out=(sampleRun state (encodedSamples input (input.length%2^32))).map (·.2.sample) := by
  obtain ⟨state,hst⟩ := Option.isSome_iff_exists.mp (optimizeIC_isSome input)
  have hv := optimizeIC_valid hst
  have hl := encodedSamples_length input (input.length%2^32)
  refine ⟨state,(encodeWithIC state input (input.length%2^32)).2,hst,by rw [encode,hst]; rfl,hv,?_,?_⟩ <;>
    rw [encodeWithIC_eq]
  · simp only [List.length_append,header,List.length_cons,List.length_nil,packNybbles_length,
      List.length_map,sampleRun_length,hl]
    omega
  · rw [decode_header _ _ hv,decodeBody_run _ _ hv (encodedSamples_range _ _) (by rw [hl]; omega)]

/-- The stream `optimizeIC` scores, the first 100 samples at most, is the start of the stream
`encode` writes from the same initial conditions, and its error is part of that stream's. -/
theorem prefixError_scores_stream (input : List UInt8) (state : State) (hv : state.Valid) :
    (encodeWithIC state input (min 200 (input.length%2^32))).2 <+: (encodeWithIC state input (input.length%2^32)).2 ∧
    prefixError input state ≤ (encodeWithIC state input (input.length%2^32)).1 := by
  rw [prefixError]
  rcases le_total (input.length%2^32) 200 with h | h
  · rw [min_eq_right h]
    exact ⟨List.prefix_refl _,le_rfl⟩
  · rw [min_eq_left h]
    exact ⟨encodeWithIC_isPrefix state input h (by norm_num),
      encodeWithIC_error_mono state input hv h (by norm_num) (Nat.mod_lt _ (by norm_num))⟩

theorem prefixError_scores_stream_zero : (⟨0,0⟩ : State).Valid ∧
    ((encodeWithIC ⟨0,0⟩ [1,2,3,4] (min 200 (([1,2,3,4] : List UInt8).length%2^32))).2 <+:
      (encodeWithIC ⟨0,0⟩ [1,2,3,4] (([1,2,3,4] : List UInt8).length%2^32)).2 ∧
    prefixError [1,2,3,4] ⟨0,0⟩ ≤ (encodeWithIC ⟨0,0⟩ [1,2,3,4] (([1,2,3,4] : List UInt8).length%2^32)).1) :=
  ⟨by decide,prefixError_scores_stream [1,2,3,4] ⟨0,0⟩ (by decide)⟩

/-- The trial error reads the first 200 bytes only, once both inputs have that many. -/
theorem prefixError_window {input input' : List UInt8} (h : input.take 200=input'.take 200)
    (hl : 200 ≤ input.length ∧ input.length < 2^32) (hl' : 200 ≤ input'.length ∧ input'.length < 2^32) :
    prefixError input=prefixError input' := by
  funext state
  have hs : encodedSamples input 200=encodedSamples input' 200 := by
    rw [encodedSamples,encodedSamples,if_neg (by norm_num),if_neg (by norm_num)]
    exact congrArg (·++[]) (samplesFrom_congr h 100 0 (by norm_num))
  rw [prefixError,prefixError,show min 200 (input.length%2^32)=200 by omega,
    show min 200 (input'.length%2^32)=200 by omega,encodeWithIC_eq,encodeWithIC_eq,hs]

/-- `optimizeIC` looks at a window of the input: two inputs of 200 bytes up to `2^32` that agree on
their first 200 bytes get the same initial conditions. -/
theorem optimizeIC_window (input input' : List UInt8) (h : input.take 200=input'.take 200)
    (hl : 200 ≤ input.length ∧ input.length < 2^32) (hl' : 200 ≤ input'.length ∧ input'.length < 2^32) :
    optimizeIC input=optimizeIC input' := by
  have hf : firstSample input=firstSample input' := by
    rw [firstSample,firstSample,getD_of_take_eq h (by norm_num : 0 < 200),getD_of_take_eq h (by norm_num : 1 < 200)]
  rw [optimizeIC,optimizeIC,if_neg (by omega),if_neg (by omega),prefixError_window h hl hl',hf]

theorem optimizeIC_window_pad :
    (List.replicate 200 0 : List UInt8).take 200=(List.replicate 200 0++[1] : List UInt8).take 200 ∧
    (200 ≤ (List.replicate 200 0 : List UInt8).length ∧ (List.replicate 200 0 : List UInt8).length < 2^32) ∧
    (200 ≤ (List.replicate 200 0++[1] : List UInt8).length ∧
      (List.replicate 200 0++[1] : List UInt8).length < 2^32) ∧
    optimizeIC (List.replicate 200 0)=optimizeIC (List.replicate 200 0++[1]) :=
  have ht : (List.replicate 200 0 : List UInt8).take 200=(List.replicate 200 0++[1] : List UInt8).take 200 := by
    rw [List.take_left' (List.length_replicate 200 0),List.take_of_length_le (List.length_replicate 200 0).le]
  have h1 : 200 ≤ (List.replicate 200 0 : List UInt8).length ∧
      (List.replicate 200 0 : List UInt8).length < 2^32 := by
    rw [List.length_replicate]; norm_num
  have h2 : 200 ≤ (List.replicate 200 0++[1] : List UInt8).length ∧
      (List.replicate 200 0++[1] : List UInt8).length < 2^32 := by
    rw [List.length_append,List.length_replicate,List.length_singleton]; norm_num
  ⟨ht,h1,h2,optimizeIC_window _ _ ht h1 h2⟩

end Stir.ADPCMEncoder

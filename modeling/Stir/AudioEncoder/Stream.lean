import Mathlib.Algebra.Order.BigOperators.Group.List
import Mathlib.Algebra.Order.Ring.Abs
import Stir.AudioEncoder.Sample
import Stir.DUBEncoder.BitBuffer

namespace Stir.ADPCMEncoder

/-- `*(inPtr++)` at sample `k`: the little-endian `int16_t` at bytes `2k` and `2k+1`. -/
def sampleAt (input : List UInt8) (k : Nat) : Int :=
  toInt16 ((input.getD (2*k) 0).toNat+256*(input.getD (2*k+1) 0).toNat)

/-- `push_back` of an `int` into the `uint8_t` output. -/
def lowByte (x : Int) : UInt8 := UInt8.ofNat (x%256).toNat

/-- `ADPCMEncoder::encodePair`: the error `e1*e1 + e2*e2`, the byte `n1 | (n2 << 4)` and the
state after both samples. -/
def encodePair (state : State) (s1 s2 : Int) : Nat × UInt8 × State :=
  let r1 := encodeSample state s1
  let e1 := r1.2.sample-s1
  let r2 := encodeSample r1.2 s2
  let e2 := r2.2.sample-s2
  ((e1*e1+e2*e2).toNat,UInt8.ofNat (r1.1 ||| r2.1<<<4),r2.2)

/-- Locals of `encodeWithIC` around its pair loop. -/
structure Pass where
  state : State
  error : Nat
  out : List UInt8
  inPtr : Nat

/-- One turn of `while (numPairs--)`, with the `uint64_t` accumulation of the error. -/
def pairStep (input : List UInt8) (p : Pass) : Pass :=
  let r := encodePair p.state (sampleAt input p.inPtr) (sampleAt input (p.inPtr+1))
  ⟨r.2.2,(p.error+r.1)%2^64,p.out++[r.2.1],p.inPtr+2⟩

def pairLoop (input : List UInt8) : Nat → Pass → Pass
  | 0, p => p
  | n+1, p => pairLoop input n (pairStep input p)

/-- The initial-conditions header: `state.sample`, `state.sample >> 8`, `state.index`. -/
def header (state : State) : List UInt8 :=
  [lowByte state.sample,lowByte (Int.shiftRight state.sample 8),lowByte state.index]

/-- `ADPCMEncoder::encodeWithIC`: the error metric and the bytes written to `out`. -/
def encodeWithIC (state : State) (input : List UInt8) (inBytes : Nat) : Nat × List UInt8 :=
  let numSamples := inBytes/2
  let numPairs := numSamples/2
  let p := pairLoop input numPairs ⟨state,0,header state,0⟩
  if numSamples%2=1 then
    let s1 := sampleAt input p.inPtr
    let r := encodePair p.state s1 s1
    ((p.error+r.1)%2^64,p.out++[r.2.1])
  else (p.error,p.out)

/-! The spec's view of a stream: which samples are encoded, and what a decoder replays. -/

/-- `n` consecutive input samples from sample `k`. -/
def samplesFrom (input : List UInt8) (k : Nat) : Nat → List Int
  | 0 => []
  | n+1 => sampleAt input k :: samplesFrom input (k+1) n

/-- The samples an `inBytes` pass encodes: every complete sample, and the last one again
when their number is odd. -/
def encodedSamples (input : List UInt8) (inBytes : Nat) : List Int :=
  samplesFrom input 0 (inBytes/2)++(if inBytes/2%2=1 then [sampleAt input (inBytes/2-1)] else [])

/-- Nybble and state after each `encodeSample` of a run. -/
def sampleRun : State → List Int → List (Nat × State)
  | _, [] => []
  | state, s :: ss => encodeSample state s :: sampleRun (encodeSample state s).2 ss

/-- Two nybbles a byte, the first in the low half. -/
def packNybbles : List Nat → List UInt8
  | n1 :: n2 :: ns => UInt8.ofNat (n1 ||| n2<<<4) :: packNybbles ns
  | _ => []

/-- The predictor error of a run: the sum of `(predictor - sample)^2` over its samples. -/
def runError (state : State) (ss : List Int) : Int :=
  (((sampleRun state ss).zip ss).map (fun x => (x.1.2.sample-x.2)^2)).sum

/-- The state a run leaves. -/
def runState (state : State) (ss : List Int) : State :=
  ss.foldl (fun st s => (encodeSample st s).2) state

/-- The spec's decoder over the body: low nybble, then high nybble, of each byte. -/
def decodeBody : State → List UInt8 → List Int
  | _, [] => []
  | state, b :: bs =>
    let s1 := decodeSample state (b.toNat%16)
    let s2 := decodeSample s1 (b.toNat/16)
    s1.sample :: s2.sample :: decodeBody s2 bs

/-- The spec's decoder: little-endian header sample, index byte, then the body; the list of
predictors after each nybble. -/
def decode : List UInt8 → List Int
  | b0 :: b1 :: b2 :: body => decodeBody ⟨toInt16 (b0.toNat+256*b1.toNat),b2.toNat⟩ body
  | _ => []

theorem packByte_toNat (a b : Nat) (ha : a < 16) (hb : b < 16) :
    (UInt8.ofNat (a ||| b<<<4)).toNat=a+16*b := by
  rw [lor_shiftLeft a b 4 ha,UInt8.toNat_ofNat_of_lt (by simp only [UInt8.size]; omega)]
  rfl

theorem sampleAt_range (input : List UInt8) (k : Nat) :
    -32768 ≤ sampleAt input k ∧ sampleAt input k ≤ 32767 := toInt16_range _

@[simp] theorem sampleRun_length (state : State) (ss : List Int) :
    (sampleRun state ss).length=ss.length := by
  induction ss generalizing state <;> simp [sampleRun, *]

theorem sampleRun_append (state : State) (a b : List Int) :
    sampleRun state (a++b)=sampleRun state a++sampleRun (runState state a) b := by
  induction a generalizing state <;> simp [sampleRun, runState, *]

theorem runError_append (state : State) (a b : List Int) :
    runError state (a++b)=runError state a+runError (runState state a) b := by
  simp [runError,sampleRun_append,List.zip_append,List.sum_append]

theorem runError_nonneg (state : State) (ss : List Int) : 0 ≤ runError state ss :=
  List.sum_nonneg (by simp only [List.mem_map]; rintro _ ⟨x,-,rfl⟩; positivity)

/-- Each squared error of a valid run is a 32-bit quantity. -/
theorem runError_le (state : State) (ss : List Int) (hv : state.Valid)
    (hs : ∀ s∈ss, -32768 ≤ s ∧ s ≤ 32767) : runError state ss ≤ 65535^2*ss.length := by
  induction ss generalizing state with
  | nil => simp [runError,sampleRun]
  | cons s ss ih =>
    have hp := encodeSample_valid state s
    have h1 := hs s (by simp)
    have hrest := ih _ hp (fun x hx => hs x (by simp [hx]))
    have hsq : ((encodeSample state s).2.sample-s)^2 ≤ 65535^2 := by
      unfold State.Valid at hp
      exact sq_le_sq' (by omega) (by omega)
    simp only [runError,sampleRun,List.zip_cons_cons,List.map_cons,List.sum_cons,
      List.length_cons] at hrest ⊢
    push_cast
    linarith

theorem samplesFrom_add (input : List UInt8) (k a b : Nat) :
    samplesFrom input k (a+b)=samplesFrom input k a++samplesFrom input (k+a) b := by
  induction a generalizing k with
  | zero => simp [samplesFrom]
  | succ a ih =>
    rw [Nat.succ_add,samplesFrom,ih,samplesFrom,Nat.add_assoc,Nat.add_comm 1 a]
    rfl

@[simp] theorem samplesFrom_length (input : List UInt8) (k n : Nat) :
    (samplesFrom input k n).length=n := by
  induction n generalizing k <;> simp [samplesFrom, *]

theorem packNybbles_append (a b : List Nat) (ha : a.length%2=0) :
    packNybbles (a++b)=packNybbles a++packNybbles b := by
  induction a using packNybbles.induct with
  | case1 n1 n2 ns ih =>
    simp only [List.length_cons] at ha
    simp [packNybbles,ih (by omega)]
  | case2 ns h =>
    rcases ns with _ | ⟨x,_ | ⟨y,t⟩⟩
    · rfl
    · simp at ha
    · exact absurd rfl (h x y t)

theorem runState_append (state : State) (a b : List Int) :
    runState state (a++b)=runState (runState state a) b := List.foldl_append _ _ _ _

/-- One pair, in the run notions: squared errors, nybble byte and final state. -/
theorem encodePair_eq (state : State) (s1 s2 : Int) :
    (encodePair state s1 s2).1=(runError state [s1,s2]).toNat ∧
    [(encodePair state s1 s2).2.1]=packNybbles ((sampleRun state [s1,s2]).map Prod.fst) ∧
    (encodePair state s1 s2).2.2=runState state [s1,s2] := by
  simp [encodePair,runState,runError,sampleRun,packNybbles,sq]

theorem pairStep_eq (input : List UInt8) (p : Pass) :
    pairStep input p=
      ⟨runState p.state (samplesFrom input p.inPtr 2),
        (p.error+(runError p.state (samplesFrom input p.inPtr 2)).toNat)%2^64,
        p.out++packNybbles ((sampleRun p.state (samplesFrom input p.inPtr 2)).map Prod.fst),
        p.inPtr+2⟩ := by
  obtain ⟨he,hb,hs⟩ := encodePair_eq p.state (sampleAt input p.inPtr) (sampleAt input (p.inPtr+1))
  simp only [pairStep,he,hs,← hb]
  rfl

/-- The pair loop encodes `2n` consecutive samples: their nybbles are appended and their
squared errors added into the `uint64_t` accumulator. -/
theorem pairLoop_eq (input : List UInt8) (n : Nat) (p : Pass) (hp : p.error < 2^64) :
    pairLoop input n p=
      ⟨runState p.state (samplesFrom input p.inPtr (2*n)),
        (p.error+(runError p.state (samplesFrom input p.inPtr (2*n))).toNat)%2^64,
        p.out++packNybbles ((sampleRun p.state (samplesFrom input p.inPtr (2*n))).map Prod.fst),
        p.inPtr+2*n⟩ := by
  induction n generalizing p with
  | zero =>
    simp only [pairLoop,Nat.mul_zero,samplesFrom,runState,runError,sampleRun,List.zip_nil_left,
      List.map_nil,List.sum_nil,Int.toNat_zero,Nat.add_zero,Nat.mod_eq_of_lt hp,packNybbles,
      List.append_nil,List.foldl_nil]
  | succ n ih =>
    rw [pairLoop,ih _ (Nat.mod_lt _ (by norm_num)),pairStep_eq]
    have hs : samplesFrom input p.inPtr (2*(n+1))=
        samplesFrom input p.inPtr 2++samplesFrom input (p.inPtr+2) (2*n) := by
      rw [show 2*(n+1)=2+2*n by omega,samplesFrom_add]
    have h1 := runError_nonneg p.state (samplesFrom input p.inPtr 2)
    have h2 := runError_nonneg (runState p.state (samplesFrom input p.inPtr 2))
      (samplesFrom input (p.inPtr+2) (2*n))
    simp only [Pass.mk.injEq,hs,runState_append,runError_append,sampleRun_append,List.map_append,
      List.append_assoc,Int.toNat_add h1 h2,Nat.mod_add_mod]
    refine ⟨trivial,by rw [Nat.add_assoc],?_,by omega⟩
    rw [packNybbles_append _ _ (by simp [samplesFrom])]

/-- `encodeWithIC` is the header, then the packed nybbles of the run over the encoded
samples, with the run's squared error in `uint64_t`. -/
theorem encodeWithIC_eq (state : State) (input : List UInt8) (inBytes : Nat) :
    encodeWithIC state input inBytes=
      ((runError state (encodedSamples input inBytes)).toNat%2^64,
        header state++packNybbles ((sampleRun state (encodedSamples input inBytes)).map Prod.fst)) := by
  unfold encodeWithIC encodedSamples
  dsimp only
  generalize inBytes/2=n
  rw [pairLoop_eq _ _ _ (by norm_num)]
  dsimp only
  obtain ⟨m,rfl | rfl⟩ : ∃ m, n=2*m ∨ n=2*m+1 := ⟨n/2,by omega⟩
  · have h : 2*m/2=m ∧ ¬2*m%2=1 := by omega
    simp only [h,if_false,List.append_nil,Nat.zero_add]
  · have h : (2*m+1)/2=m ∧ (2*m+1)%2=1 ∧ 2*m+1-1=2*m := by omega
    have hsplit : samplesFrom input 0 (2*m+1)++[sampleAt input (2*m)]=
        samplesFrom input 0 (2*m)++[sampleAt input (2*m),sampleAt input (2*m)] := by
      rw [samplesFrom_add,Nat.zero_add,List.append_assoc]; rfl
    obtain ⟨he,hb,-⟩ := encodePair_eq (runState state (samplesFrom input 0 (2*m)))
      (sampleAt input (2*m)) (sampleAt input (2*m))
    have h1 := runError_nonneg state (samplesFrom input 0 (2*m))
    have h2 := runError_nonneg (runState state (samplesFrom input 0 (2*m)))
      [sampleAt input (2*m),sampleAt input (2*m)]
    have hl : ((sampleRun state (samplesFrom input 0 (2*m))).map Prod.fst).length%2=0 := by
      simp [samplesFrom_length]
    simp only [h,if_true,Nat.zero_add,hsplit,he,runError_append,Int.toNat_add h1 h2,
      Nat.mod_add_mod,sampleRun_append,List.map_append,packNybbles_append _ _ hl,← hb,
      List.append_assoc]

theorem lowByte_toNat (x : Int) : (lowByte x).toNat=(x%256).toNat :=
  UInt8.toNat_ofNat_of_lt (by simp only [UInt8.size]; omega)

/-- The spec decoder reads back the initial conditions of a valid state. -/
theorem decode_header (state : State) (body : List UInt8) (hv : state.Valid) :
    decode (header state++body)=decodeBody state body := by
  unfold State.Valid INDEX_MAX at hv
  have hs : toInt16 (((lowByte state.sample).toNat : Int)+(256:Int)*((lowByte (Int.shiftRight state.sample 8)).toNat : Int))=
      state.sample := by
    simp only [lowByte_toNat,← Int.shiftRight_eq,Int.shiftRight_eq_div_pow,
      Int.toNat_of_nonneg (Int.emod_nonneg _ (by norm_num : (256:Int)≠0))]
    unfold toInt16
    split_ifs <;> omega
  have hi : (((lowByte state.index).toNat : Nat) : Int)=state.index := by
    rw [lowByte_toNat,Int.toNat_of_nonneg (by omega)]
    omega
  simp only [header,List.cons_append,List.nil_append,decode,Nat.cast_add,Nat.cast_mul,
    Nat.cast_ofNat,hs,hi]

/-- The spec decoder replays a run of even length nybble by nybble. -/
theorem decodeBody_run : ∀ (state : State) (ss : List Int), state.Valid →
    (∀ s∈ss, -32768 ≤ s ∧ s ≤ 32767) → ss.length%2=0 →
    decodeBody state (packNybbles ((sampleRun state ss).map Prod.fst))=
      (sampleRun state ss).map (·.2.sample)
  | _, [], _, _, _ => rfl
  | _, [_], _, _, h => by simp at h
  | state, s1 :: s2 :: ss, hv, hs, hl => by
    have h1 := hs s1 (by simp)
    have h2 := hs s2 (by simp)
    have hv1 := encodeSample_valid state s1
    have hb := packByte_toNat _ _ (encodeSample_code_lt state s1)
      (encodeSample_code_lt (encodeSample state s1).2 s2)
    simp only [sampleRun,List.map_cons,packNybbles,decodeBody,hb]
    rw [Nat.add_mul_mod_self_left,Nat.add_mul_div_left _ _ (by norm_num),
      Nat.mod_eq_of_lt (encodeSample_code_lt state s1),
      Nat.div_eq_of_lt (encodeSample_code_lt state s1),Nat.zero_add,
      decodeSample_encodeSample _ _ hv h1,decodeSample_encodeSample _ _ hv1 h2,
      decodeBody_run _ ss (encodeSample_valid _ _) (fun x hx => hs x (by simp [hx]))
        (by simp only [List.length_cons] at hl; omega)]

theorem packNybbles_length (ns : List Nat) : (packNybbles ns).length=ns.length/2 := by
  induction ns using packNybbles.induct with
  | case1 n1 n2 ns ih => simp [packNybbles,ih]; omega
  | case2 ns h =>
    rcases ns with _ | ⟨x,_ | ⟨y,t⟩⟩
    · rfl
    · simp [packNybbles]
    · exact absurd rfl (h x y t)

theorem encodedSamples_length (input : List UInt8) (inBytes : Nat) :
    (encodedSamples input inBytes).length=inBytes/2+inBytes/2%2 := by
  unfold encodedSamples
  split_ifs <;> simp_all

theorem encodedSamples_range (input : List UInt8) (inBytes : Nat) :
    ∀ s∈encodedSamples input inBytes, -32768 ≤ s ∧ s ≤ 32767 := by
  have h : ∀ k n, ∀ s∈samplesFrom input k n, -32768 ≤ s ∧ s ≤ 32767 := by
    intro k n
    induction n generalizing k with
    | zero => simp [samplesFrom]
    | succ n ih =>
      simp only [samplesFrom,List.mem_cons]
      rintro s (hs | hs)
      · exact hs ▸ sampleAt_range input k
      · exact ih _ s hs
  intro s hs
  simp only [encodedSamples,List.mem_append] at hs
  rcases hs with hs | hs
  · exact h _ _ s hs
  · split_ifs at hs
    · simp only [List.mem_singleton] at hs; exact hs ▸ sampleAt_range _ _
    · simp at hs

/-- An even number of samples is a prefix of the samples of any longer pass. -/
theorem encodedSamples_split (input : List UInt8) {a b : Nat} (hab : a ≤ b) (ha : a/2%2=0) :
    ∃ rest, encodedSamples input b=encodedSamples input a++rest := by
  have hs := samplesFrom_add input 0 (a/2) (b/2-a/2)
  rw [Nat.add_sub_cancel' (Nat.div_le_div_right hab)] at hs
  refine ⟨samplesFrom input (0+a/2) (b/2-a/2)++
    (if b/2%2=1 then [sampleAt input (b/2-1)] else []),?_⟩
  rw [encodedSamples,encodedSamples,hs,if_neg (show ¬a/2%2=1 by omega),List.append_nil,List.append_assoc]

/-- A pass over an even number of samples writes the start of any longer pass. -/
theorem encodeWithIC_isPrefix (state : State) (input : List UInt8) {a b : Nat} (hab : a ≤ b)
    (ha : a/2%2=0) : (encodeWithIC state input a).2 <+: (encodeWithIC state input b).2 := by
  obtain ⟨rest,hr⟩ := encodedSamples_split input hab ha
  have hl : ((sampleRun state (encodedSamples input a)).map Prod.fst).length%2=0 := by
    simp only [List.length_map,sampleRun_length,encodedSamples_length]
    omega
  rw [encodeWithIC_eq,encodeWithIC_eq,hr,sampleRun_append,List.map_append,packNybbles_append _ _ hl,
    ← List.append_assoc]
  exact List.prefix_append _ _

/-- Below `2^32` bytes the `uint64_t` error of a pass from a valid state is exact, so it only
grows as the pass goes on. -/
theorem encodeWithIC_error_mono (state : State) (input : List UInt8) {a b : Nat} (hv : state.Valid)
    (hab : a ≤ b) (ha : a/2%2=0) (hb : b < 2^32) :
    (encodeWithIC state input a).1 ≤ (encodeWithIC state input b).1 := by
  obtain ⟨rest,hr⟩ := encodedSamples_split input hab ha
  have hle := runError_le state _ hv (encodedSamples_range input b)
  have hsum := runError_append state (encodedSamples input a) rest
  have h1 := runError_nonneg state (encodedSamples input a)
  have h2 := runError_nonneg (runState state (encodedSamples input a)) rest
  rw [encodedSamples_length,hr] at hle
  rw [encodeWithIC_eq,encodeWithIC_eq,hr]
  dsimp only
  omega

/-- A read below `n` sees only the first `n` bytes. -/
theorem getD_of_take_eq {l l' : List UInt8} {n i : Nat} (h : l.take n=l'.take n) (hi : i < n) :
    l.getD i 0=l'.getD i 0 := by
  rw [List.getD_eq_getElem?_getD,List.getD_eq_getElem?_getD,← List.getElem?_take_of_lt hi,h,
    List.getElem?_take_of_lt hi]

/-- Samples read from the first `n` bytes agree for inputs that agree there. -/
theorem samplesFrom_congr {input input' : List UInt8} {n : Nat} (h : input.take n=input'.take n) :
    ∀ m k, 2*(k+m) ≤ n → samplesFrom input k m=samplesFrom input' k m
  | 0, _, _ => rfl
  | m+1, k, hk => by
    rw [samplesFrom,samplesFrom,samplesFrom_congr h m (k+1) (by omega),sampleAt,sampleAt,
      getD_of_take_eq h (by omega : 2*k < n),getD_of_take_eq h (by omega : 2*k+1 < n)]

/-- Encoder and spec decoder agree: `encodeWithIC` writes `3 + ceil(n/2)` bytes, the decoder
replays exactly the encoder's predictor after every encoded sample (the last one twice when
`n` is odd), and the `uint64_t` error is the exact sum of squared predictor errors. -/
theorem encodeWithIC_replay (state : State) (input : List UInt8) (inBytes : Nat)
    (hv : state.Valid) (hb : inBytes < 2^32) :
    (encodeWithIC state input inBytes).2.length=3+(inBytes/2+1)/2 ∧
    decode (encodeWithIC state input inBytes).2=
      (sampleRun state (encodedSamples input inBytes)).map (·.2.sample) ∧
    ((encodeWithIC state input inBytes).1 : Int)=
      (((sampleRun state (encodedSamples input inBytes)).zip (encodedSamples input inBytes)).map
        (fun x => (x.1.2.sample-x.2)^2)).sum := by
  have hr := encodedSamples_range input inBytes
  have hl := encodedSamples_length input inBytes
  rw [encodeWithIC_eq]
  refine ⟨?_,?_,?_⟩
  · simp only [List.length_append,header,List.length_cons,List.length_nil,packNybbles_length,
      List.length_map,sampleRun_length,hl]
    omega
  · rw [decode_header _ _ hv,decodeBody_run _ _ hv hr (by rw [hl]; omega)]
  · have hle := runError_le state _ hv hr
    have hnn := runError_nonneg state (encodedSamples input inBytes)
    rw [hl] at hle
    have hsmall : runError state (encodedSamples input inBytes) < 2^64 := by
      have : ((inBytes/2+inBytes/2%2 : Nat) : Int) ≤ 2^31 := by omega
      exact lt_of_le_of_lt (hle.trans (Int.mul_le_mul_of_nonneg_left this (by norm_num))) (by norm_num)
    rw [Nat.mod_eq_of_lt (by omega),Int.toNat_of_nonneg hnn]
    rfl

theorem encodeWithIC_replay_pairs :
    (⟨100,10⟩ : State).Valid ∧ 10 < 2^32 ∧
    ((encodeWithIC ⟨100,10⟩ [0,1,0,2,0,3,0,4,0,5] 10).2.length=3+(10/2+1)/2 ∧
    decode (encodeWithIC ⟨100,10⟩ [0,1,0,2,0,3,0,4,0,5] 10).2=(sampleRun ⟨100,10⟩ (encodedSamples [0,1,0,2,0,3,0,4,0,5] 10)).map (·.2.sample) ∧
    ((encodeWithIC ⟨100,10⟩ [0,1,0,2,0,3,0,4,0,5] 10).1 : Int)=
      (((sampleRun ⟨100,10⟩ (encodedSamples [0,1,0,2,0,3,0,4,0,5] 10)).zip (encodedSamples [0,1,0,2,0,3,0,4,0,5] 10)).map
        (fun x => (x.1.2.sample-x.2)^2)).sum) :=
  ⟨by decide,by norm_num,encodeWithIC_replay ⟨100,10⟩ [0,1,0,2,0,3,0,4,0,5] 10 (by decide) (by norm_num)⟩

/-- Encoding more input only appends: a pass over `a` bytes, an even number of samples, writes the
start of the stream of a pass over `b ≥ a` bytes from the same state, with no larger error. -/
theorem encodeWithIC_extends (state : State) (input : List UInt8) {a b : Nat} (hv : state.Valid)
    (hab : a ≤ b) (ha : a/2%2=0) (hb : b < 2^32) :
    (encodeWithIC state input a).2 <+: (encodeWithIC state input b).2 ∧
    (encodeWithIC state input a).1 ≤ (encodeWithIC state input b).1 :=
  ⟨encodeWithIC_isPrefix state input hab ha,encodeWithIC_error_mono state input hv hab ha hb⟩

theorem encodeWithIC_extends_four : (⟨0,0⟩ : State).Valid ∧ 4 ≤ 8 ∧ 4/2%2=0 ∧ 8 < 2^32 ∧
    ((encodeWithIC ⟨0,0⟩ [1,2,3,4,5,6,7,8] 4).2 <+: (encodeWithIC ⟨0,0⟩ [1,2,3,4,5,6,7,8] 8).2 ∧
    (encodeWithIC ⟨0,0⟩ [1,2,3,4,5,6,7,8] 4).1 ≤ (encodeWithIC ⟨0,0⟩ [1,2,3,4,5,6,7,8] 8).1) :=
  ⟨by decide,by norm_num,by norm_num,by norm_num,
    encodeWithIC_extends ⟨0,0⟩ [1,2,3,4,5,6,7,8] (by decide) (by norm_num) (by norm_num) (by norm_num)⟩

end Stir.ADPCMEncoder

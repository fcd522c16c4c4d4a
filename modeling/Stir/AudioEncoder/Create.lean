import Stir.AudioEncoder.Optimize

namespace Stir.PCMEncoder

/-- `PCMEncoder::encode`: the input is already PCM and is appended as is. -/
def encode (input : List UInt8) : List UInt8 := input

end Stir.PCMEncoder

namespace Stir.AudioEncoder

/-- The encoder classes `AudioEncoder::create` instantiates. -/
inductive Kind
  | PCM
  | ADPCM
  deriving DecidableEq, Repr

/-- `AudioEncoder::create`: the name lowered by `::tolower`, then `"pcm"`, or `"adpcm"` or the
empty name; any other name gives a null encoder. -/
def create (name : String) : Option Kind :=
  let name := name.data.map Char.toLower
  if name=['p','c','m'] then some .PCM
  else if name=['a','d','p','c','m'] ∨ name=[] then some .ADPCM
  else none

/-- The virtual `encode` of the encoder `create` returned: the bytes appended to `out`. -/
def encode : Kind → List UInt8 → Option (List UInt8)
  | .PCM, input => some (PCMEncoder.encode input)
  | .ADPCM, input => ADPCMEncoder.encode input

/-- Every encoder `create` returns writes an output for every input. -/
theorem encode_isSome (k : Kind) (input : List UInt8) : (encode k input).isSome := by
  cases k with
  | PCM => rfl
  | ADPCM =>
    rw [encode,ADPCMEncoder.encode,Option.isSome_map']
    exact ADPCMEncoder.optimizeIC_isSome input

end Stir.AudioEncoder

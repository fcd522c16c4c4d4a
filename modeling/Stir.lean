import Stir.AudioEncoder.Tables
import Stir.AudioEncoder.Sample
import Stir.AudioEncoder.Stream
import Stir.AudioEncoder.Optimize
import Stir.AudioEncoder.Create
import Stir.DUBEncoder.BitBuffer
import Stir.DUBEncoder.Code
import Stir.DUBEncoder.Block
import Stir.DUBEncoder.Peak
import Stir.DUBEncoder.Encoder
import Stir.DUBEncoder.Decoder
import Stir.DUBEncoder.RoundTrip

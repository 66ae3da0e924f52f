import ChunkedArray.Codec.ByteCodec
import ChunkedArray.Codec.ElementBytes
import ChunkedArray.Codec.Transpose

/-!
# Codec chains

A chunk is stored by running it through any number of transpositions, the codec that turns it into
bytes and any number of codecs on bytes, in this order; it is read back through their inverses in
the opposite order. `CodecChain.ofCodecs` accepts exactly the lists in which the kinds stand in that
order, and supplies the codec in the middle if it is missing.
-/

namespace ChunkedArray

inductive Codec where
  | transpose (c : Transpose)
  | elementBytes (c : ElementBytes)
  | onBytes (c : ByteCodec)

namespace Codec

def kind : Codec → CodecKind
  | .transpose _ => .arrayToArray
  | .elementBytes _ => .arrayToBytes
  | .onBytes _ => .bytesToBytes

def spec : Codec → CodecSpec
  | .transpose c => c.spec
  | .elementBytes c => c.spec
  | .onBytes c => c.spec

end Codec

structure CodecChain where
  transposes : List Transpose
  elementBytes : ElementBytes
  onBytes : List ByteCodec

namespace CodecChain

/-- A chain without transpositions and codecs on bytes. -/
def default : CodecChain := ⟨[], .default, []⟩

/-! ### Assembly -/

/-- The codecs of a chain as far as they are known. -/
structure Partial where
  transposes : List Transpose
  elementBytes : Option ElementBytes
  onBytes : List ByteCodec

/-- Adds the next codec. -/
def Partial.add (p : Partial) : Codec → Except CodecConfigError Partial
  | .transpose c =>
    if p.elementBytes.isSome then .error (.illegalOrder .arrayToArray .arrayToBytes)
    else if !p.onBytes.isEmpty then .error (.illegalOrder .arrayToArray .bytesToBytes)
    else .ok { p with transposes := p.transposes ++ [c] }
  | .elementBytes c =>
    if p.elementBytes.isSome then .error .multipleArrayToBytes
    else if !p.onBytes.isEmpty then .error (.illegalOrder .arrayToBytes .bytesToBytes)
    else .ok { p with elementBytes := some c }
  | .onBytes c => .ok { p with onBytes := p.onBytes ++ [c] }

/-- A chain from codecs in the order in which they are applied. -/
def ofCodecs (codecs : List Codec) : Except CodecConfigError CodecChain := do
  let p ← codecs.foldlM Partial.add ⟨[], none, []⟩
  return ⟨p.transposes, p.elementBytes.getD .default, p.onBytes⟩

/-- Puts another codec in the middle and gives the one that was there. -/
def replaceElementBytes (chain : CodecChain) (c : Option ElementBytes) :
    ElementBytes × CodecChain :=
  (chain.elementBytes, { chain with elementBytes := c.getD .default })

/-- The codecs in the order in which they are applied. -/
def toCodecs (chain : CodecChain) : List Codec :=
  chain.transposes.map .transpose ++ [.elementBytes chain.elementBytes] ++
    chain.onBytes.map .onBytes

def specs (chain : CodecChain) : List CodecSpec := chain.toCodecs.map Codec.spec

/-- The rank that the chain requires of chunks, if it requires one. -/
def rank? (chain : CodecChain) : Option Nat := chain.transposes.head?.map Transpose.rank

/-- Checks that every codec can be used on chunks of this type and rank. -/
def validate (chain : CodecChain) (t : DataType) (rank : Nat) : Except CodecConfigError Unit := do
  chain.transposes.forM (·.validateFor rank)
  chain.elementBytes.validate t
  chain.onBytes.forM (·.validate t)

/-! ### Encoding and decoding -/

/-- The shape of a chunk after the transpositions. -/
def encodedShape (chain : CodecChain) (shape : Shape) : Except Violation Shape :=
  chain.transposes.foldlM (fun s c => c.encodedShape s) shape

def encode {t : DataType} (chain : CodecChain) (chunk : NdArray t.Element) :
    Checked EncodeError Bytes := do
  let chunk ← Checked.guarded (chain.transposes.foldlM (fun a c => c.encode a) chunk)
  let bytes ← chain.elementBytes.encode chunk
  Checked.report id (chain.onBytes.foldlM (fun bs c => c.encode bs) bytes)

/-- Decodes stored bytes, which must give a chunk of exactly this type and shape. -/
def decode (chain : CodecChain) (options : CodecOptions) (t : DataType) (shape : Shape)
    (bytes : Bytes) : Checked DecodeError (NdArray t.Element) := do
  let bytes ← Checked.report id
    (chain.onBytes.reverse.foldlM (fun bs c => c.decode options bs) bytes)
  let encodedShape ← Checked.guarded (chain.encodedShape shape)
  let chunk ← chain.elementBytes.decode t encodedShape bytes
  let chunk ← Checked.guarded (chain.transposes.reverse.foldlM (fun a c => c.decode a) chunk)
  if chunk.shape = shape then return chunk
  else Checked.fail (.shapeMismatch shape chunk.shape)

end CodecChain

end ChunkedArray

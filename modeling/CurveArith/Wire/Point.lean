import CurveArith.Curve
import CurveArith.Wire.Reader

/-!
The text form of points: three tokens between single spaces. The first is `1` for infinity and `0`
otherwise, the second the affine abscissa, and the third the parity of the ordinate in the
compressed form or the ordinate itself in the uncompressed one. Infinity is written by its affine
form `(0, 1)`.
-/
namespace CurveArith

/-- The version of the library, which changes with its text forms. -/
def version : String := "0.1.0"

namespace Wire

variable {C : Curve} {σ : Type} [ByteSource σ]

def bitText (b : Bool) : String := if b then "1" else "0"

def tokens (first second third : String) : String := first ++ " " ++ second ++ " " ++ third

def encodeCompressed (P : Point C) : String :=
  let Q := P.toAffine
  tokens (bitText P.isZero) Q.x.decimal (bitText Q.y.standard.isOdd)

def encodeUncompressed (P : Point C) : String :=
  let Q := P.toAffine
  tokens (bitText P.isZero) Q.x.decimal Q.y.decimal

open Reader in
/-- Reads one compressed point and nothing after it; infinity has any abscissa and parity. -/
def readCompressed (C : Curve) : Reader σ (Point C) := do
  let isZero ← bit .invalidFlag
  separator
  let x ← coordinate C.base
  separator
  let odd ← bit .invalidYBit
  if isZero then return Point.zero C
  else
    match Point.ofAbscissa? C x odd with
    | some P => return P
    | none => throw .noSquareRoot

open Reader in
/-- Reads one uncompressed point and nothing after it, without a check of the curve equation. -/
def readUncompressed (C : Curve) : Reader σ (Point C) := do
  let isZero ← bit .invalidFlag
  separator
  let x ← coordinate C.base
  separator
  let y ← coordinate C.base
  if isZero then return Point.zero C
  else return Point.affine x y

/-- What a reader makes of a text that it must read to its end. -/
def decode {α : Type} (r : Reader (List UInt8) α) (text : String) : Except CodecError α :=
  let whole : Reader (List UInt8) α := do
    let x ← r
    Reader.endOfInput
    return x
  (whole.runOn (Text.utf8 text)).1

def decodeCompressed (C : Curve) (text : String) : Except CodecError (Point C) :=
  decode (readCompressed C) text

def decodeUncompressed (C : Curve) (text : String) : Except CodecError (Point C) :=
  decode (readUncompressed C) text

def writeCompressed (P : Point C) (buffer : Buffer) : Except IoError Unit × Buffer :=
  buffer.write (Text.utf8 (encodeCompressed P))

def writeUncompressed (P : Point C) (buffer : Buffer) : Except IoError Unit × Buffer :=
  buffer.write (Text.utf8 (encodeUncompressed P))

end Wire
end CurveArith

import CurveArith.Field.Basic

/-!
Where bytes come from and go to, and reading the tokens of an encoded point: flags, separators and
decimal coordinates. A source shows a window of the bytes that come next and gives up those that are
consumed; looking may fail, and looking twice shows the same. A buffer takes bytes until it is full.
A reader keeps its place in the source, also when it fails, so what an error has consumed is
visible.
-/
namespace CurveArith.Wire

inductive IoError where
  | broken (reason : String)
  | bufferFull
  deriving DecidableEq

def IoError.message : IoError → String
  | .broken reason => reason
  | .bufferFull => "failed to write whole buffer"

class ByteSource (σ : Type) where
  /-- The bytes in sight; none in sight means the end. -/
  window : σ → Except IoError (List UInt8)
  consume : Nat → σ → σ

/-- Bytes in memory are in sight as a whole. -/
instance : ByteSource (List UInt8) where
  window bytes := .ok bytes
  consume k bytes := bytes.drop k

/-- A stream that shows at most `window` bytes at a time and breaks at a position. -/
structure Stream where
  rest : List UInt8
  position : Nat
  window : Option Nat
  failAt : Option Nat

namespace Stream

def ofBytes (bytes : List UInt8) (window failAt : Option Nat) : Stream := ⟨bytes, 0, window, failAt⟩

/-- Looking fails from the position on at which the stream breaks. -/
def isBroken (s : Stream) : Bool :=
  match s.failAt with
  | some k => k ≤ s.position
  | none => false

instance : ByteSource Stream where
  window s :=
    if s.isBroken then .error (.broken "stream broke")
    else
      match s.window with
      | some k => .ok (s.rest.take k)
      | none => .ok s.rest
  consume k s := { s with rest := s.rest.drop k, position := s.position + k }

end Stream

structure Buffer where
  room : Nat
  written : List UInt8
  deriving DecidableEq

/-- Writes all bytes, or those that fit and an error. -/
def Buffer.write (buffer : Buffer) (bytes : List UInt8) : Except IoError Unit × Buffer :=
  let fitting := bytes.take buffer.room
  (if bytes.length ≤ buffer.room then .ok () else .error .bufferFull,
    ⟨buffer.room - fitting.length, buffer.written ++ fitting⟩)

inductive CodecError where
  | unexpectedEof
  | missingSeparator (found : UInt8)
  | invalidFlag (found : UInt8)
  | invalidYBit (found : UInt8)
  | expectedDigits
  | trailingData
  | noSquareRoot
  | field (cause : FieldError)
  | io (cause : IoError)
  deriving DecidableEq

/-- A byte as the character of its code. -/
def quotedByte (b : UInt8) : String := Text.quotedChar (Char.ofNat b.toNat)

def CodecError.message : CodecError → String
  | .unexpectedEof => "Unexpected end of input"
  | .missingSeparator found => "Expected a separator, found " ++ quotedByte found
  | .invalidFlag found => "Invalid zero flag " ++ quotedByte found
  | .invalidYBit found => "Invalid y bit " ++ quotedByte found
  | .expectedDigits => "Expected a decimal coordinate"
  | .trailingData => "Trailing data after encoded point"
  | .noSquareRoot => "Compressed x-coordinate has no point on the curve"
  | .field cause => cause.message
  | .io cause => "IO error: " ++ cause.message

abbrev Reader (σ : Type) := ExceptT CodecError (StateM σ)

namespace Reader

variable {σ : Type} [ByteSource σ]

def runOn {α : Type} (r : Reader σ α) (source : σ) : Except CodecError α × σ := r.run source

/-- The next byte, which stays in the source; `none` at the end. -/
def peek : Reader σ (Option UInt8) := do
  match ByteSource.window (← get) with
  | .ok bytes => return bytes.head?
  | .error e => throw (.io e)

def skip : Reader σ Unit := modify (ByteSource.consume 1)

def byte : Reader σ UInt8 := do
  match ← peek with
  | some b =>
    skip
    return b
  | none => throw .unexpectedEof

def separatorByte : UInt8 := 0x20

def separator : Reader σ Unit := do
  let b ← byte
  if b ≠ separatorByte then throw (.missingSeparator b)

/-- A digit zero or one; any other byte is refused as the error says. -/
def bit (refused : UInt8 → CodecError) : Reader σ Bool := do
  let b ← byte
  if b = 0x30 then return false
  else if b = 0x31 then return true
  else throw (refused b)

def endOfInput : Reader σ Unit := do
  if (← peek).isSome then throw .trailingData

def isDigit (b : UInt8) : Bool := 0x30 ≤ b && b ≤ 0x39

/-- A run of at most `k` digits; a run that goes on is refused where it exceeds them. -/
def digits : Nat → Reader σ (List Char)
  | 0 => do
    match ← peek with
    | some b => if isDigit b then throw (.field .invalidElement) else return []
    | none => return []
  | k + 1 => do
    match ← peek with
    | some b =>
      if isDigit b then
        skip
        return Char.ofNat b.toNat :: (← digits k)
      else return []
    | none => return []

/-- A coordinate below the modulus, with no more digits than the modulus has. -/
def coordinate (F : PrimeField) : Reader σ F.Elem := do
  let ds ← digits F.modulus.decimal.length
  if ds.isEmpty then throw .expectedDigits
  match PrimeField.Elem.parse F (String.ofList ds) with
  | .ok x => return x
  | .error e => throw (.field e)

end Reader

end CurveArith.Wire

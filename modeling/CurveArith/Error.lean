import CurveArith.Text

/-!
Why an operation refuses its input. Errors are answers to data that may come from outside; faults
are broken promises of the calling program. Each has one text.
-/
namespace CurveArith

/-- Why a text is not a number of a given width. -/
inductive DecimalError where
  | notDecimal (text : String)
  | tooWide (width : Nat)
  deriving DecidableEq

def DecimalError.message : DecimalError → String
  | .notDecimal text => "not a decimal integer: " ++ Text.quoted text
  | .tooWide width => "value does not fit in " ++ toString width ++ " limbs"

/-- Why a number does not serve as the modulus of a field. The cause `one` stands for a derivation
that would not end: then `p - 1` is zero, which has no odd part however often it is halved. -/
inductive ModulusError where
  | topLimbZero
  | even
  | one
  deriving DecidableEq

def ModulusError.message : ModulusError → String
  | .topLimbZero => "most significant limb is zero"
  | .even => "modulus is even"
  | .one => "modulus is one"

inductive FieldError where
  | divisionByZero
  | nonResidue
  | invalidElement
  | invalidModulus (cause : ModulusError)
  | invalidGenerator (generator : UInt64)
  | parse (cause : DecimalError)
  deriving DecidableEq

def FieldError.message : FieldError → String
  | .divisionByZero => "Division by zero"
  | .nonResidue => "Element is not a quadratic residue"
  | .invalidElement => "Invalid field element: value is not below the modulus"
  | .invalidModulus cause => "Invalid modulus: " ++ cause.message
  | .invalidGenerator g =>
    "Invalid multiplicative generator: " ++ toString g ++ " is a quadratic residue"
  | .parse cause => "Parse error: " ++ cause.message

/-- Why a point is not accepted as an element of the group. -/
inductive CurveError where
  | notOnCurve
  | notInSubgroup
  | field (cause : FieldError)
  deriving DecidableEq

def CurveError.message : CurveError → String
  | .notOnCurve => "Point is not on the curve"
  | .notInSubgroup => "Point is not in the prime-order subgroup"
  | .field cause => cause.message

/-- A promise that the calling program did not keep. -/
inductive Fault where
  | divisionByZero (field : String)
  | notAffine
  | badField (field : String) (cause : FieldError)
  | badCurve (curve : String) (cause : CurveError)
  | outOfBounds (length index : Nat)
  deriving DecidableEq

def Fault.message : Fault → String
  | .divisionByZero field => "division by zero in " ++ field
  | .notAffine => "mixed_add requires an affine right operand"
  | .badField field cause => "invalid parameters for field " ++ field ++ ": " ++ cause.message
  | .badCurve curve cause => "invalid parameters for curve " ++ curve ++ ": " ++ cause.message
  | .outOfBounds length index =>
    "index out of bounds: the len is " ++ toString length ++ " but the index is " ++ toString index

end CurveArith

import CurveArith.Logged

/-!
What the library reports about its work: constants that were derived, and the operations of a group
in the order in which they happen. A journal entry can be shown as a record of names and texts. A
group's operations can also be observed: a counter keeps totals over all curves, a tracer repeats
each notification in a journal, and a silent observer ignores them. At most one can be installed.
-/
namespace CurveArith

inductive GroupOp where
  | add | mixedAdd | double
  deriving DecidableEq

def GroupOp.name : GroupOp → String
  | .add => "add"
  | .mixedAdd => "mixed_add"
  | .double => "double"

inductive Entry where
  | buildingField (field : String)
  | derivedConstants (bits twoAdicity : Nat)
  | initializedCurve (curve : String) (baseBits : Nat)
  | normalizingBatch (curve : String) (length : Nat)
  | checkingSubgroup (curve : String)
  | groupOp (op : GroupOp) (curve : String)
  deriving DecidableEq

/-- A computation that reports what it does. -/
abbrev Recorded := Logged Entry

inductive Level where
  | info | debug | trace
  deriving DecidableEq

def Level.name : Level → String
  | .info => "INFO"
  | .debug => "DEBUG"
  | .trace => "TRACE"

/-- A span has a name and covers the records after it; an event stands for itself. -/
inductive Record where
  | span (name : String) (level : Level) (fields : List (String × String))
  | event (level : Level) (fields : List (String × String))

def Entry.record : Entry → Record
  | .buildingField field => .span "FpConfig::for_params" .debug [("field", field)]
  | .derivedConstants bits twoAdicity =>
    .event .debug [("bits", toString bits), ("message", "derived prime field constants"),
      ("two_adicity", toString twoAdicity)]
  | .initializedCurve curve baseBits =>
    .event .debug [("base_bits", toString baseBits), ("curve", curve),
      ("message", "initialized curve constants")]
  | .normalizingBatch curve length =>
    .span "G1::batch_normalize" .info [("curve", curve), ("len", toString length)]
  | .checkingSubgroup curve => .span "G1::is_in_safe_subgroup" .info [("curve", curve)]
  | .groupOp op curve =>
    .event .trace [("curve", curve), ("message", "group operation"), ("op", op.name)]

/-- Totals of group operations, as numbers without a bound. A counter of 64 bits shows the same
totals below `2 ^ 64` and wraps around there. -/
structure OpCounts where
  add : Nat
  mixedAdd : Nat
  double : Nat
  deriving DecidableEq

namespace OpCounts

def zero : OpCounts := ⟨0, 0, 0⟩

def count (n : OpCounts) : GroupOp → OpCounts
  | .add => { n with add := n.add + 1 }
  | .mixedAdd => { n with mixedAdd := n.mixedAdd + 1 }
  | .double => { n with double := n.double + 1 }

/-- Totals of the notifications in a journal. -/
def ofLog (log : List Entry) : OpCounts :=
  log.foldl (fun n e => match e with | .groupOp op _ => n.count op | _ => n) zero

end OpCounts

inductive Observer where
  | counter (counts : OpCounts)
  | tracing
  | silent
  deriving DecidableEq

namespace Observer

def notify (o : Observer) (op : GroupOp) (curve : String) : Recorded Observer :=
  match o with
  | .counter n => pure (.counter (n.count op))
  | .tracing => do
    Logged.note (.groupOp op curve)
    return .tracing
  | .silent => pure .silent

def reset : Observer → Observer
  | .counter _ => .counter .zero
  | o => o

/-- The totals that an observer shows; one that keeps none shows zeros. -/
def counts : Observer → OpCounts
  | .counter n => n
  | _ => .zero

end Observer

/-- The place for the one observer of a process. -/
structure ObserverSlot where
  installed : Option Observer

inductive ObserverError where
  | alreadyInstalled
  deriving DecidableEq

def ObserverError.message : ObserverError → String
  | .alreadyInstalled => "a group observer is already installed"

def ObserverSlot.install (slot : ObserverSlot) (o : Observer) :
    Except ObserverError ObserverSlot :=
  match slot.installed with
  | none => .ok ⟨some o⟩
  | some _ => .error .alreadyInstalled

end CurveArith

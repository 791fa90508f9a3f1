import CurveArith.Proofs.BrokenStream
import CurveArith.Proofs.Cofactor
import CurveArith.Proofs.Congruence
import CurveArith.Proofs.DecimalForm
import CurveArith.Proofs.ElementRun
import CurveArith.Proofs.EuclidRun
import CurveArith.Proofs.FlippedParity
import CurveArith.Proofs.LittleEndian
import CurveArith.Proofs.OperationCounts
import CurveArith.Proofs.PointRun
import CurveArith.Proofs.RootsOfUnity
import CurveArith.Proofs.Sampling
import CurveArith.Proofs.SetBits
import CurveArith.Proofs.SpecialFormulas
import CurveArith.Proofs.SquareRootRounds

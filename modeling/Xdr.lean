import Xdr.Main
import Xdr.Proofs.Loops.Agreement
import Xdr.Proofs.Build.Damage
import Xdr.Proofs.Padding
import Xdr.Proofs.Exhaustiveness
import Xdr.Proofs.Amplification
import Xdr.Proofs.Refusals
import Xdr.Proofs.Wire.Appending
import Xdr.Proofs.Capture
import Xdr.Proofs.TypeNames
import Xdr.Proofs.Spans
import Xdr.Proofs.Options

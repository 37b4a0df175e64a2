import Stepwise.Main
import Stepwise.Proofs.Refinement
import Stepwise.Proofs.Isolation
import Stepwise.Proofs.Strictness
import Stepwise.Proofs.Ceilings
import Stepwise.Proofs.Recency
import Stepwise.Proofs.Separation
import Stepwise.Proofs.Capping
import Stepwise.Proofs.Provenance
import Stepwise.Proofs.Layers
import Stepwise.Proofs.Properties
import Stepwise.Proofs.Splitting
import Stepwise.Proofs.Radix
import Stepwise.Proofs.Equality
import Stepwise.Proofs.VariableRows
import Stepwise.Proofs.Interpolation

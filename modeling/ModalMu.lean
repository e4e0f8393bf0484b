import ModalMu.Bitmap.Lemmas
import ModalMu.Bitmap.Script
import ModalMu.Evaluation.Script
import ModalMu.Main
import ModalMu.StateSet.Script
import ModalMu.Proofs.Adjacency
import ModalMu.Proofs.Construction
import ModalMu.Proofs.Regions
import ModalMu.Proofs.Binding
import ModalMu.Proofs.Semantics
import ModalMu.Proofs.RegionEvaluation
import ModalMu.Proofs.Convergence
import ModalMu.Proofs.FullRestart
import ModalMu.Proofs.KeptValues
import ModalMu.Proofs.AlternationReset
import ModalMu.Proofs.WarmStart
import ModalMu.Proofs.SingleKind
import ModalMu.Proofs.AlternatingChains
import ModalMu.Proofs.Grammar
import ModalMu.Proofs.Numbering
import ModalMu.Proofs.Unambiguous
import ModalMu.Proofs.Reading
import ModalMu.Proofs.RoundTrip
import ModalMu.Proofs.Bisimulation
import ModalMu.Proofs.AutReading
import ModalMu.Proofs.AutRoundTrip
import ModalMu.Proofs.AutFormat
import ModalMu.Proofs.Divergence
import ModalMu.Proofs.Duality
import ModalMu.Proofs.Scanning
import ModalMu.Proofs.Selection
import ModalMu.Proofs.Places
import ModalMu.Proofs.Execution
import ModalMu.Proofs.Confinement
import ModalMu.Proofs.Faultless
import ModalMu.Proofs.Modalities
import ModalMu.Proofs.PlainSets
import ModalMu.Proofs.SetScripts
import ModalMu.Proofs.Drawings
import ModalMu.Proofs.TallyLaws
import ModalMu.Proofs.Tallies
import ModalMu.Proofs.AmortizedRounds
import ModalMu.Proofs.Trace
import ModalMu.Proofs.Offsets
import ModalMu.Proofs.OpenBinders
import ModalMu.Proofs.ErrorPlaces

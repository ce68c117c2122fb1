import StackLift.Bytecode.Description
import StackLift.Main
import StackLift.Proofs.BranchDecisions
import StackLift.Proofs.CarriedHandlers
import StackLift.Proofs.DeadCodeLifting
import StackLift.Proofs.GroundedPaths
import StackLift.Proofs.HeldCopies
import StackLift.Proofs.Idempotence
import StackLift.Proofs.JoinEntries
import StackLift.Proofs.KeptComputations
import StackLift.Proofs.LiftedResults
import StackLift.Proofs.MergeIndependence
import StackLift.Proofs.NamedRegisters
import StackLift.Proofs.NaturalLoops
import StackLift.Proofs.SoundSimulation
import StackLift.Proofs.StartNodes
import StackLift.Proofs.SuperclassChains
import StackLift.Proofs.TraversalOrder
import StackLift.Proofs.WellFormedListings
import StackLift.Proofs.WordShuffles

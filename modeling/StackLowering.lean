import StackLowering.Session
import StackLowering.Tree.Equality
import StackLowering.Proofs.Assembly
import StackLowering.Proofs.Binders
import StackLowering.Proofs.Conversions
import StackLowering.Proofs.LabelDiscipline
import StackLowering.Proofs.Everywhere
import StackLowering.Proofs.Traversal
import StackLowering.Proofs.RelatedArms
import StackLowering.Proofs.Calls
import StackLowering.Proofs.Runs
import StackLowering.Proofs.Derivation
import StackLowering.Proofs.Inversion
import StackLowering.Proofs.Context
import StackLowering.Proofs.SlotTable
import StackLowering.Proofs.Dispatch
import StackLowering.Proofs.WellFormed
import StackLowering.Proofs.RoutineCode
import StackLowering.Proofs.Machine
import StackLowering.Proofs.Evaluation
import StackLowering.Proofs.ScopeStack
import StackLowering.Proofs.Labels
import StackLowering.Proofs.Simulation
import StackLowering.Proofs.Statements
import StackLowering.Proofs.Placement
import StackLowering.Proofs.ExpressionCode
import StackLowering.Proofs.StatementCode
import StackLowering.Proofs.LexicalScopes
import StackLowering.Proofs.SlotLayout
import StackLowering.Proofs.UniqueNames
import StackLowering.Proofs.FailedDeclarations
import StackLowering.Proofs.HiddenNames
import StackLowering.Proofs.Congruence
import StackLowering.Proofs.Restoration
import StackLowering.Proofs.Lockstep
import StackLowering.Proofs.PrivateAccess
import StackLowering.Proofs.BridgeRegistry
import StackLowering.Proofs.BridgeFinality
import StackLowering.Proofs.NestRegistration
import StackLowering.Proofs.NestRoutines
import StackLowering.Proofs.Correctness
import StackLowering.Proofs.Outline
import StackLowering.Proofs.PoolIndependence
import StackLowering.Proofs.StatementPosition
import StackLowering.Proofs.CleanupCopies
import StackLowering.Proofs.CleanupNesting
import StackLowering.Proofs.CleanupBindings
import StackLowering.Proofs.CleanupTargets
import StackLowering.Proofs.ExceptionTable
import StackLowering.Proofs.HiddenTypes
import StackLowering.Proofs.TypeSubstitution
import StackLowering.Proofs.Aliases
import StackLowering.Proofs.Mirroring
import StackLowering.Proofs.AliasedHandlers
import StackLowering.Proofs.RelatedHandlers
import StackLowering.Proofs.AliasTransparency
import StackLowering.Proofs.SwitchDispatch
import StackLowering.Proofs.Blocks
import StackLowering.Proofs.TextSwitch
import StackLowering.Proofs.ExceptionRegions
import StackLowering.Proofs.ConditionCode
import StackLowering.Proofs.SwitchFallthrough
import StackLowering.Proofs.SwitchChecks
import StackLowering.Proofs.ForwardedArguments
import StackLowering.Proofs.ConstructorCalls
import StackLowering.Proofs.LocalRoutines
import StackLowering.Proofs.Decoding
import StackLowering.Proofs.DeclaredSignatures
import StackLowering.Proofs.PoolEntries
import StackLowering.Proofs.Identifiers
import StackLowering.Proofs.FrameBrackets
import StackLowering.Proofs.FusedUpdates
import StackLowering.Proofs.Termination

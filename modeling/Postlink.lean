import Postlink.Archive
import Postlink.Blocks
import Postlink.Builtins
import Postlink.CastRepair
import Postlink.Codec.Fields
import Postlink.Codec.Instrs
import Postlink.Codec.Modules
import Postlink.Codec.Types
import Postlink.CommandLine
import Postlink.Decimal.Basic
import Postlink.Decimal.Binary64
import Postlink.Decimal.Layout
import Postlink.Decimal.Shortest
import Postlink.Demand.Basic
import Postlink.Demand.Walk
import Postlink.Draft
import Postlink.Erasure
import Postlink.Failure
import Postlink.FirstMatch
import Postlink.Flags
import Postlink.Func
import Postlink.Importing
import Postlink.Instr
import Postlink.Intrinsic
import Postlink.Json.Basic
import Postlink.Json.Reader
import Postlink.Json.Token
import Postlink.Json.Writer
import Postlink.Linking
import Postlink.Loading
import Postlink.Lowering.Step
import Postlink.Lowering.Sweep
import Postlink.Lowering.Verdict
import Postlink.Main
import Postlink.Module
import Postlink.Operand
import Postlink.Pipeline
import Postlink.Proofs.Bodies
import Postlink.Proofs.Lookup
import Postlink.Proofs.Lowering.Shape
import Postlink.Proofs.Lowering.Sweep
import Postlink.Proofs.Lowering.Verdicts
import Postlink.Signature
import Postlink.Visibility
import Postlink.Proofs.Lowering.DefinedUses
import Postlink.Proofs.Demand.Closure
import Postlink.Proofs.Linking.Renaming
import Postlink.Proofs.Linking.Merge
import Postlink.Proofs.Importing.Outcome
import Postlink.Proofs.Importing.Definitions
import Postlink.Proofs.Importing.References
import Postlink.Proofs.CastRepair.Redirection
import Postlink.Proofs.CastRepair.Sweep
import Postlink.Proofs.CastRepair.Correspondence
import Postlink.Proofs.Linking.Capture
import Postlink.Proofs.Linking.CallTyping
import Postlink.Proofs.Lowering.InPlace
import Postlink.Proofs.Lowering.Completeness
import Postlink.Proofs.CastRepair.Completeness
import Postlink.Proofs.Pipeline.Orderly
import Postlink.Proofs.Pipeline.Distinctness
import Postlink.Proofs.Json.Tokens
import Postlink.Proofs.Json.Reading
import Postlink.Proofs.Codec.Records
import Postlink.Proofs.Codec.Syntax
import Postlink.Proofs.Codec.RoundTrip
import Postlink.Proofs.Archive.RoundTrip
import Postlink.Proofs.CastRepair.Sharing
import Postlink.Proofs.CastRepair.Removal
import Postlink.Proofs.CastRepair.DefinedUses
import Postlink.Proofs.Pipeline.Exports
import Postlink.Proofs.Namesakes
import Postlink.Proofs.Demand.Opening
import Postlink.Proofs.Demand.Following
import Postlink.Proofs.Linking.Definitions
import Postlink.Proofs.Importing.Retention
import Postlink.Proofs.Importing.LateBodies
import Postlink.Proofs.Importing.EarlyBodies
import Postlink.Proofs.Demand.Conventions
import Postlink.Proofs.Importing.Conventions
import Postlink.Proofs.Lowering.Declarations
import Postlink.Proofs.Lowering.Refusals
import Postlink.Proofs.Lowering.Arity
import Postlink.Proofs.Lowering.Agreement
import Postlink.Proofs.CastRepair.StoredBodies
import Postlink.Proofs.Linking.Namespace
import Postlink.Proofs.Linking.Outcome
import Postlink.Proofs.Linking.Refusals
import Postlink.Proofs.Linking.Variables
import Postlink.Proofs.CastRepair.Termination
import Postlink.Proofs.Substitution
import Postlink.Proofs.Archive.LazyLoading
import Postlink.Proofs.Decimal.Rounding
import Postlink.Proofs.Decimal.Scaling
import Postlink.Proofs.Archive.Damage
import Postlink.Proofs.Pipeline.FlagChoices
import Postlink.Proofs.StagedRemoval
import Postlink.Proofs.FreshIds
import Postlink.Proofs.FreeNames
import Postlink.Proofs.ReferenceCounts
import Postlink.Proofs.Overflow

import SelectionQuery.Schema.UserGraph
import SelectionQuery.Validation
import SelectionQuery.Proofs.BuildCriterion
import SelectionQuery.Proofs.BuiltSchemas
import SelectionQuery.Proofs.RejectionGrounds
import SelectionQuery.Proofs.VisitListing
import SelectionQuery.Proofs.SchemaExtension
import SelectionQuery.Proofs.LiteralVerdicts
import SelectionQuery.Proofs.AliasTransparency
import SelectionQuery.Proofs.ConfigSwitches
import SelectionQuery.Proofs.FailFast
import SelectionQuery.Proofs.KeyOrder
import SelectionQuery.Proofs.SelectorGrammar
import SelectionQuery.Proofs.Pruning
import SelectionQuery.Proofs.PagingVerdicts
import SelectionQuery.Proofs.Relocation
import SelectionQuery.Proofs.DefinitionOrder
import SelectionQuery.Proofs.ContinuedBuilds
import SelectionQuery.Proofs.ValueShapes
import SelectionQuery.Proofs.PathTrees
import SelectionQuery.Proofs.MemberLookup

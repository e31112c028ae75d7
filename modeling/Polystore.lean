import Polystore.Partition.Router
import Polystore.Proofs.Fallback
import Polystore.Proofs.FilterMerging
import Polystore.Proofs.FilterSplit
import Polystore.Proofs.GuardedDrops
import Polystore.Proofs.KeyCoverage
import Polystore.Proofs.PickedPlans
import Polystore.Proofs.CatalogCalls
import Polystore.Proofs.CatalogIntegrity
import Polystore.Proofs.PhysicalNames
import Polystore.Proofs.PartitionedTables
import Polystore.Proofs.Routing
import Polystore.Proofs.WholeDoubles
import Polystore.Proofs.WholeNumerals
import Polystore.Proofs.EqualValues
import Polystore.Proofs.ReadingBack
import Polystore.Proofs.ListedValues
import Polystore.Proofs.RangedIntegers
import Polystore.Proofs.FittingPlans
import Polystore.Proofs.MemoCalls
import Polystore.Proofs.DocumentQueries
import Polystore.Proofs.SearchQueries
import Polystore.Proofs.LateBinding
import Polystore.Proofs.ValueTexts
import Polystore.Proofs.ExprTexts
import Polystore.Proofs.OperatorTexts
import Polystore.Proofs.NodeIdentity
import Polystore.Proofs.SetCompositions
import Polystore.Proofs.PartitionOutcomes
import Polystore.Proofs.Deduplication
import Polystore.Proofs.EndlessMerging
import Polystore.Proofs.CheckedExprs
import Polystore.Proofs.Nullability
import Polystore.Proofs.SubsetOrder
import Polystore.Proofs.GroupingShapes
import Polystore.Proofs.LikePatterns
import Polystore.Proofs.PushedPatterns
import Polystore.Proofs.Recomposing
import Polystore.Proofs.FieldComparisons
import Polystore.Proofs.PushedSorts
import Polystore.Proofs.SharedTexts
import Polystore.Proofs.DocumentPaths
import Polystore.Proofs.ProjectStages
import Polystore.Proofs.PushedProjections
import Polystore.Proofs.DocumentFormulas
import Polystore.Proofs.GroupStages
import Polystore.Proofs.PushedAggregates
import Polystore.Proofs.ComparisonChains
import Polystore.Proofs.JsonLiterals
import Polystore.Proofs.ClauseTexts
import Polystore.Proofs.PreferredPlacements
import Polystore.Proofs.MemberOrder
import Polystore.Proofs.TextCasts
import Polystore.Proofs.CostOrder
import Polystore.Proofs.PatternMatches
import Polystore.Proofs.FieldSubstitution

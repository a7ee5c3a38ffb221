import EntityQuery.Data.Keyed
import EntityQuery.Data.SortedBy
import EntityQuery.Text
import EntityQuery.Decimal.Layout
import EntityQuery.Value
import EntityQuery.Sql.Operator
import EntityQuery.Sql.Column
import EntityQuery.Sql.Condition
import EntityQuery.Sql.Join
import EntityQuery.Sql.Dialect
import EntityQuery.Sql.Literal
import EntityQuery.Sql.Select
import EntityQuery.Sql.Statement
import EntityQuery.Sql.Render
import EntityQuery.Error
import EntityQuery.Catalog.Attribute
import EntityQuery.Catalog.Registry
import EntityQuery.Query.AttributeJoins
import EntityQuery.Query.Expansion
import EntityQuery.Query.Filter
import EntityQuery.Query.Builder
import EntityQuery.Query.Staging
import EntityQuery.Query.Script
import EntityQuery.Json.Tree
import EntityQuery.Json.Token
import EntityQuery.Json.Reader
import EntityQuery.Json.Codec
import EntityQuery.Json.Value
import EntityQuery.Json.Query
import EntityQuery.Proofs.Evaluation
import EntityQuery.Proofs.Compilation
import EntityQuery.Proofs.Passes
import EntityQuery.Proofs.InnerJoins
import EntityQuery.Proofs.Lexing
import EntityQuery.Proofs.Phrases
import EntityQuery.Proofs.Placeholders
import EntityQuery.Proofs.Blocks
import EntityQuery.Proofs.CallOrder
import EntityQuery.Proofs.Bookkeeping
import EntityQuery.Proofs.PassOutcomes
import EntityQuery.Proofs.FailedPasses
import EntityQuery.Proofs.ProcessedGroups
import EntityQuery.Proofs.LaterClauses
import EntityQuery.Proofs.QueryReadings
import EntityQuery.Proofs.BoundValues
import EntityQuery.Proofs.PlainQueries
import EntityQuery.Proofs.CommittedJoins
import EntityQuery.Proofs.JoinOrder
import EntityQuery.Proofs.Scope
import EntityQuery.Proofs.Dialects
import EntityQuery.Proofs.UnionTexts
import EntityQuery.Proofs.InlineInserts
import EntityQuery.Proofs.StagedJoinTypes
import EntityQuery.Proofs.NamedAttributes
import EntityQuery.Proofs.ClauseTexts
import EntityQuery.Proofs.MissingValues
import EntityQuery.Proofs.SelectLists
import EntityQuery.Proofs.StagedJoins
import EntityQuery.Proofs.RenderFaults
import EntityQuery.Proofs.Words
import EntityQuery.Proofs.QueryWords
import EntityQuery.Proofs.HollowGroups
import EntityQuery.Proofs.QuotedNames
import EntityQuery.Proofs.NullSafeSigns
import EntityQuery.Proofs.Literals
import EntityQuery.Proofs.InsertFaults
import EntityQuery.Proofs.InsertTexts
import EntityQuery.Proofs.InsertRows
import EntityQuery.Proofs.ColumnTexts
import EntityQuery.Proofs.NullOperands
import EntityQuery.Proofs.FoldedGroups
import EntityQuery.Proofs.Orderings
import EntityQuery.Proofs.JoinTypeCalls
import EntityQuery.Proofs.JoinCalls
import EntityQuery.Proofs.CatalogHistories
import EntityQuery.Proofs.JsonForms

import Bitwire.Bisect
import Bitwire.Codec.Accessor
import Bitwire.Codec.Cursor
import Bitwire.Codec.EnumCheck
import Bitwire.Codec.Error
import Bitwire.Codec.Visit
import Bitwire.Codec.Walk
import Bitwire.Event
import Bitwire.FieldPath
import Bitwire.Format
import Bitwire.Json.Basic
import Bitwire.Json.Document
import Bitwire.Json.Lexer
import Bitwire.Json.Library
import Bitwire.Json.Parser
import Bitwire.Json.Printer
import Bitwire.Layout
import Bitwire.Pattern
import Bitwire.Place
import Bitwire.Proofs.AccessorLaws
import Bitwire.Proofs.AddedFields
import Bitwire.Proofs.Allocation
import Bitwire.Proofs.ArrayLevels
import Bitwire.Proofs.ArrayLookups
import Bitwire.Proofs.Bisection
import Bitwire.Proofs.BuildOrder
import Bitwire.Proofs.BuiltFormats
import Bitwire.Proofs.ClaimedIdentifiers
import Bitwire.Proofs.ClosedEnums
import Bitwire.Proofs.ComputedLayouts
import Bitwire.Proofs.CursorDiscipline
import Bitwire.Proofs.CursorPlaces
import Bitwire.Proofs.CursorWalks
import Bitwire.Proofs.DeclarationOrder
import Bitwire.Proofs.DeclaredIdentifiers
import Bitwire.Proofs.DecodingOnto
import Bitwire.Proofs.DenotedTypes
import Bitwire.Proofs.DistinctIdentifiers
import Bitwire.Proofs.DynamicWalk
import Bitwire.Proofs.EnumInspections
import Bitwire.Proofs.ExactWidths
import Bitwire.Proofs.FieldIdentifiers
import Bitwire.Proofs.FormatPlaces
import Bitwire.Proofs.GeneratedFormats
import Bitwire.Proofs.IdentifierCheck
import Bitwire.Proofs.IdentifierNames
import Bitwire.Proofs.InlinedAliases
import Bitwire.Proofs.JsonGrammar
import Bitwire.Proofs.JsonReadBack
import Bitwire.Proofs.JsonUnits
import Bitwire.Proofs.Leaves
import Bitwire.Proofs.LegibleSchemas
import Bitwire.Proofs.MachineTypes
import Bitwire.Proofs.MadeTypes
import Bitwire.Proofs.Makers
import Bitwire.Proofs.NameOrder
import Bitwire.Proofs.NodePlaces
import Bitwire.Proofs.NormalRecords
import Bitwire.Proofs.OverlapTable
import Bitwire.Proofs.PatternBits
import Bitwire.Proofs.PatternNumbers
import Bitwire.Proofs.Placement
import Bitwire.Proofs.Pruning
import Bitwire.Proofs.ReachableMessages
import Bitwire.Proofs.ReadBack
import Bitwire.Proofs.RecordDocuments
import Bitwire.Proofs.RecordOrder
import Bitwire.Proofs.RecordValidation
import Bitwire.Proofs.Refusals
import Bitwire.Proofs.ResolvedTypes
import Bitwire.Proofs.RestatedSchemas
import Bitwire.Proofs.RoundTrip
import Bitwire.Proofs.SameWire
import Bitwire.Proofs.SchemaAcceptance
import Bitwire.Proofs.SchemaDefects
import Bitwire.Proofs.SchemaDocuments
import Bitwire.Proofs.SharedFormats
import Bitwire.Proofs.SignedAccumulation
import Bitwire.Proofs.Simulation
import Bitwire.Proofs.SnakeCase
import Bitwire.Proofs.SourceItems
import Bitwire.Proofs.SourceLines
import Bitwire.Proofs.SourceReader
import Bitwire.Proofs.SourceUnits
import Bitwire.Proofs.SplitValues
import Bitwire.Proofs.StoredAddresses
import Bitwire.Proofs.StoredLeaves
import Bitwire.Proofs.StoredValues
import Bitwire.Proofs.StrictDecoding
import Bitwire.Proofs.TableSearches
import Bitwire.Proofs.TypePlaces
import Bitwire.Proofs.TypedMessages
import Bitwire.Proofs.TypedPlaces
import Bitwire.Proofs.UnbrokenLines
import Bitwire.Proofs.UnprunedWalk
import Bitwire.Proofs.WellFormedSchemas
import Bitwire.Proofs.WidthAgreement
import Bitwire.Proofs.WireBits
import Bitwire.Proofs.WireFormat
import Bitwire.Proofs.WordWalk
import Bitwire.Record.Document
import Bitwire.Record.Dynamic
import Bitwire.Record.Node
import Bitwire.Record.Value
import Bitwire.Schema.Compile
import Bitwire.Schema.Definition
import Bitwire.Schema.Document
import Bitwire.Schema.Error
import Bitwire.Schema.FormatBuilder
import Bitwire.Schema.Resolve
import Bitwire.Schema.WireType
import Bitwire.Source.Check
import Bitwire.Source.Expr
import Bitwire.Source.Identifier
import Bitwire.Source.Item
import Bitwire.Source.Module
import Bitwire.Text.Case
import Bitwire.Text.CaseTables
import Bitwire.Text.Quoted
import Bitwire.Text.Unprintable
import Bitwire.Typed.Accessor
import Bitwire.Typed.Messages

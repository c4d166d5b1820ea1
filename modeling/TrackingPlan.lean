import TrackingPlan.Analysis
import TrackingPlan.Calls.Go
import TrackingPlan.Calls.Python
import TrackingPlan.Calls.Ruby
import TrackingPlan.Catalog
import TrackingPlan.Collect
import TrackingPlan.Command
import TrackingPlan.Command.Page
import TrackingPlan.Command.Reader
import TrackingPlan.Command.Run
import TrackingPlan.Command.Settings
import TrackingPlan.Command.UsageError
import TrackingPlan.Config
import TrackingPlan.Document
import TrackingPlan.Document.Json
import TrackingPlan.Document.Json5
import TrackingPlan.Document.Records
import TrackingPlan.Document.Yaml
import TrackingPlan.Event
import TrackingPlan.FileSystem
import TrackingPlan.FileTree
import TrackingPlan.Glob
import TrackingPlan.Glob.Reader
import TrackingPlan.Grammar
import TrackingPlan.Grammar.Go
import TrackingPlan.Grammar.Python
import TrackingPlan.Grammar.Ruby
import TrackingPlan.Grammar.RubyTokens
import TrackingPlan.Grammar.Script
import TrackingPlan.Grammar.Token
import TrackingPlan.Ignore
import TrackingPlan.Language
import TrackingPlan.Main
import TrackingPlan.Named
import TrackingPlan.Path
import TrackingPlan.Pool
import TrackingPlan.Project
import TrackingPlan.Project.Owner
import TrackingPlan.Project.Settings
import TrackingPlan.Project.TypeNames
import TrackingPlan.Proofs.CanonicalSchemas
import TrackingPlan.Proofs.CatalogDocuments
import TrackingPlan.Proofs.CatalogHistory
import TrackingPlan.Proofs.CollectedFiles
import TrackingPlan.Proofs.Comments
import TrackingPlan.Proofs.Comments.Go
import TrackingPlan.Proofs.Comments.Python
import TrackingPlan.Proofs.Comments.Ruby
import TrackingPlan.Proofs.Comments.Script
import TrackingPlan.Proofs.Comments.Tree
import TrackingPlan.Proofs.CustomEvents
import TrackingPlan.Proofs.Directories
import TrackingPlan.Proofs.EntryOrder
import TrackingPlan.Proofs.EventKeys
import TrackingPlan.Proofs.EventNames
import TrackingPlan.Proofs.EventSchemas
import TrackingPlan.Proofs.Expansion
import TrackingPlan.Proofs.ExtraParameters
import TrackingPlan.Proofs.Likeness.Calls
import TrackingPlan.Proofs.Likeness.Names
import TrackingPlan.Proofs.Likeness.Types
import TrackingPlan.Proofs.LiteralData
import TrackingPlan.Proofs.LiteralProperties
import TrackingPlan.Proofs.LiteralSpellings
import TrackingPlan.Proofs.LoadedProjects
import TrackingPlan.Proofs.NearestManifest
import TrackingPlan.Proofs.NestedNodes
import TrackingPlan.Proofs.PathOrder
import TrackingPlan.Proofs.Pool
import TrackingPlan.Proofs.Priority
import TrackingPlan.Proofs.ProjectPlaces
import TrackingPlan.Proofs.Related
import TrackingPlan.Proofs.RenamedParameters
import TrackingPlan.Proofs.RenamedParameters.Tree
import TrackingPlan.Proofs.ReportedProperties
import TrackingPlan.Proofs.RubyNames
import TrackingPlan.Proofs.RubyNeighbours
import TrackingPlan.Proofs.ScanOutcome
import TrackingPlan.Proofs.SchemaDocuments
import TrackingPlan.Proofs.ScriptNames
import TrackingPlan.Proofs.ScriptSchemas
import TrackingPlan.Proofs.SourceOrder
import TrackingPlan.Proofs.Tables
import TrackingPlan.Proofs.TypeTables
import TrackingPlan.Proofs.TypedScripts
import TrackingPlan.Proofs.ValidConfigs
import TrackingPlan.Proofs.VariableHashes
import TrackingPlan.Proofs.VisibleNames
import TrackingPlan.Proofs.Within
import TrackingPlan.Proofs.Workspace
import TrackingPlan.Provider
import TrackingPlan.Report
import TrackingPlan.Scan
import TrackingPlan.Schema
import TrackingPlan.Scope.Go
import TrackingPlan.Scope.Python
import TrackingPlan.Scope.Ruby
import TrackingPlan.Scope.RubyFiles
import TrackingPlan.Script.Calls
import TrackingPlan.Script.Literal
import TrackingPlan.Script.Module
import TrackingPlan.Script.Modules
import TrackingPlan.Script.Types
import TrackingPlan.Script.Values
import TrackingPlan.Signature
import TrackingPlan.Source
import TrackingPlan.Text.Blank
import TrackingPlan.Text.Count
import TrackingPlan.Text.Decimal
import TrackingPlan.Text.Quoted
import TrackingPlan.Text.Unprintable
import TrackingPlan.Text.Unquote
import TrackingPlan.Tree
import TrackingPlan.Yaml.Character
import TrackingPlan.Yaml.Cursor
import TrackingPlan.Yaml.Node
import TrackingPlan.Yaml.Plain
import TrackingPlan.Yaml.Scalar
import TrackingPlan.Yaml.Token
import TrackingPlan.Proofs.HiddenConstants
import TrackingPlan.Proofs.Initializers
import TrackingPlan.Proofs.IsolatedFunctions
import TrackingPlan.Proofs.Alternatives
import TrackingPlan.Proofs.UnionTypes
import TrackingPlan.Proofs.NestedAnnotations
import TrackingPlan.Proofs.SignedNumbers
import TrackingPlan.Proofs.RootedNames
import TrackingPlan.Proofs.ConstantIndex
import TrackingPlan.Proofs.ReachedSites
import TrackingPlan.Proofs.RubyWalk
import TrackingPlan.Proofs.NestedConstants
import TrackingPlan.Proofs.LiteralKeys
import TrackingPlan.Proofs.RelativeImports
import TrackingPlan.Proofs.RepeatedEvents
import TrackingPlan.Proofs.NormalPaths
import TrackingPlan.Proofs.ResolvedImports
import TrackingPlan.Proofs.ReexportedNames
import TrackingPlan.Proofs.DeclarationLines
import TrackingPlan.Proofs.ProjectTypes
import TrackingPlan.Proofs.Pieces
import TrackingPlan.Proofs.SignatureForms
import TrackingPlan.Proofs.SignatureSlots
import TrackingPlan.Proofs.ObjectMembers
import TrackingPlan.Proofs.IgnoredUnions
import TrackingPlan.Proofs.PathPlaces
import TrackingPlan.Proofs.ReportedPaths
import TrackingPlan.Proofs.ArrayItems
import TrackingPlan.Proofs.Ways
import TrackingPlan.Proofs.FileChanges
import TrackingPlan.Proofs.FirstConfiguration
import TrackingPlan.Proofs.FollowedNames

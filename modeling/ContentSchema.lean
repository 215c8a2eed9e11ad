import ContentSchema.Text.Split
import ContentSchema.Value
import ContentSchema.Json.Text
import ContentSchema.Json.Reader
import ContentSchema.Text.LetterCase
import ContentSchema.Path
import ContentSchema.Kind
import ContentSchema.Pattern.Tree
import ContentSchema.Pattern.Reader
import ContentSchema.ErrorMap
import ContentSchema.Logic
import ContentSchema.Query.Store
import ContentSchema.Declaration
import ContentSchema.Options.Resolution
import ContentSchema.Kinds
import ContentSchema.Catalog.Shape
import ContentSchema.Engine.Populate
import ContentSchema.Engine.Process
import ContentSchema.Declaration.Reader
import ContentSchema.Yaml.Reader
import ContentSchema.Toml.Reader
import ContentSchema.FilePath
import ContentSchema.FilePath.Template
import ContentSchema.FileTree
import ContentSchema.Host
import ContentSchema.Settings.Load
import ContentSchema.Catalog.Files
import ContentSchema.Text.Grid
import ContentSchema.Main
import ContentSchema.Proofs.Reprocessing
import ContentSchema.Proofs.Batches
import ContentSchema.Proofs.CacheCoherence
import ContentSchema.Proofs.UniqueValues
import ContentSchema.Proofs.ImmutableValues
import ContentSchema.Proofs.PopulationBudget
import ContentSchema.Proofs.Dependencies
import ContentSchema.Proofs.FieldLocality
import ContentSchema.Proofs.FieldConfinement
import ContentSchema.Proofs.StoredIds
import ContentSchema.Proofs.ReferenceChecks
import ContentSchema.Proofs.ReferencePopulation
import ContentSchema.Proofs.DeclaredBounds
import ContentSchema.Proofs.RequiredFields
import ContentSchema.Proofs.BlockTrees
import ContentSchema.Proofs.NormalForms
import ContentSchema.Proofs.MemberCoverage
import ContentSchema.Proofs.AbsentFields
import ContentSchema.Proofs.RecordKeys
import ContentSchema.Proofs.SchemaDefects
import ContentSchema.Proofs.RejectedValues
import ContentSchema.Proofs.ThreeValued
import ContentSchema.Proofs.LogicGrammar
import ContentSchema.Proofs.PopulationFrames
import ContentSchema.Proofs.FollowedChains
import ContentSchema.Proofs.OptionOrder
import ContentSchema.Proofs.IdLists
import ContentSchema.Proofs.NestedOptions
import ContentSchema.Proofs.QueryChains
import ContentSchema.Proofs.KeywordLeaves
import ContentSchema.Proofs.RepeatedSanitizing
import ContentSchema.Proofs.SlugWords
import ContentSchema.Proofs.PathAccess
import ContentSchema.Proofs.References
import ContentSchema.Proofs.OperatorOrder
import ContentSchema.Proofs.CalendarTexts
import ContentSchema.Proofs.SameContainers
import ContentSchema.Proofs.SharedMembers

import CodeIndex.Listing.View
import CodeIndex.Main
import CodeIndex.Proofs.BaseClasses
import CodeIndex.Proofs.ClassHeaders
import CodeIndex.Proofs.DefinitionNames
import CodeIndex.Proofs.DefinitionSites
import CodeIndex.Proofs.DisplayNames
import CodeIndex.Proofs.DocumentOrder
import CodeIndex.Proofs.EnvironmentCheck
import CodeIndex.Proofs.FieldTargets
import CodeIndex.Proofs.ForeignDefinitions
import CodeIndex.Proofs.FunctionReferences
import CodeIndex.Proofs.ListedSessions
import CodeIndex.Proofs.ListingReads
import CodeIndex.Proofs.LocalScope
import CodeIndex.Proofs.LocationCoverage
import CodeIndex.Proofs.LongestEntry
import CodeIndex.Proofs.Mirror
import CodeIndex.Proofs.ModuleNames
import CodeIndex.Proofs.NamesAgree
import CodeIndex.Proofs.NamingEnds
import CodeIndex.Proofs.NoDanglingIds
import CodeIndex.Proofs.ScopeNesting
import CodeIndex.Proofs.Transaction
import CodeIndex.Proofs.UnresolvedImports

import ScriptBuild.Source.Outline
import ScriptBuild.Digraph.Condensation
import ScriptBuild.Program.Basic
import ScriptBuild.Archive.Document
import ScriptBuild.SearchPath
import ScriptBuild.Archive.Storage
import ScriptBuild.Resolution.Analysis
import ScriptBuild.Plan
import ScriptBuild.Stub
import ScriptBuild.Main
import ScriptBuild.Proofs.Plan.Order
import ScriptBuild.Proofs.Resolution.Idempotence
import ScriptBuild.Proofs.Build.Headers
import ScriptBuild.Proofs.Resolution.Reached
import ScriptBuild.Proofs.Resolution.Attempts
import ScriptBuild.Proofs.Resolution.Incremental
import ScriptBuild.Proofs.Build.Persistence
import ScriptBuild.Proofs.Build.Planning
import ScriptBuild.Proofs.Build.Retry
import ScriptBuild.Proofs.Build.Refresh
import ScriptBuild.Proofs.Plan.Links
import ScriptBuild.Proofs.Source.Nesting
import ScriptBuild.Proofs.Build.Inputs
import ScriptBuild.Proofs.Resolution.Resettling
import ScriptBuild.Proofs.Resolution.Reordering
import ScriptBuild.Proofs.Source.Tiling
import ScriptBuild.Proofs.Source.Functions
import ScriptBuild.Proofs.Build.Replacement
import ScriptBuild.Proofs.Resolution.Freshness
import ScriptBuild.Proofs.Resolution.Identity
import ScriptBuild.Proofs.Resolution.Termination
import ScriptBuild.Proofs.Build.ForwardDeclarations
import ScriptBuild.Proofs.SearchPath.Known
import ScriptBuild.Proofs.SearchPath.Spelling
import ScriptBuild.Proofs.Resolution.Sites
import ScriptBuild.Proofs.Symbols
import ScriptBuild.Proofs.Archive.Normal
import ScriptBuild.Proofs.Resolution.Unresolved
import ScriptBuild.Proofs.Source.Names
import ScriptBuild.Proofs.Scope.Lookup
import ScriptBuild.Proofs.Source.Spelling
import ScriptBuild.Proofs.Source.Closures
import ScriptBuild.Proofs.Archive.Registry
import ScriptBuild.Proofs.Scope.Chains
import ScriptBuild.Proofs.Build.Repetition

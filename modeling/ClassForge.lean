import ClassForge.Annotation
import ClassForge.Proofs.Metadata.Registration
import ClassForge.Proofs.Metadata.Saving
import ClassForge.Proofs.Compilation.Interleaving
import ClassForge.Proofs.Metadata.Flattened
import ClassForge.Proofs.Build.Publication
import ClassForge.Proofs.Build.Requests
import ClassForge.Proofs.Run.Stopping
import ClassForge.Proofs.Build.Additions
import ClassForge.Proofs.Run.Delegation
import ClassForge.Proofs.Compilation.Backends
import ClassForge.Proofs.Build.Forced
import ClassForge.Proofs.Analysis.DepthFirst
import ClassForge.Proofs.Dependency.Completeness
import ClassForge.Proofs.Run.Synchronising
import ClassForge.Proofs.Hierarchy.Ancestry
import ClassForge.Proofs.Analysis.Lingering
import ClassForge.Proofs.Metadata.Placeholders
import ClassForge.Proofs.Metadata.Batches
import ClassForge.Proofs.Metadata.Failures
import ClassForge.Proofs.Bundle.Partition
import ClassForge.Proofs.Catalog.Limits
import ClassForge.Proofs.Catalog.Writing
import ClassForge.Proofs.Catalog.Libraries
import ClassForge.Proofs.Discovery.Naming
import ClassForge.Proofs.Definitions.Outermost
import ClassForge.Proofs.Bundle.MapComments
import ClassForge.Proofs.Analysis.IndirectNeeds
import ClassForge.Proofs.Resources
import ClassForge.Proofs.DocComment
import ClassForge.Proofs.Analysis.Context
import ClassForge.Proofs.Reconcile.TypeTexts

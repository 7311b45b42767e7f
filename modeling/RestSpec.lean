import RestSpec.Main
import RestSpec.Settings.Logging
import RestSpec.Proofs.Table
import RestSpec.Proofs.Search
import RestSpec.Proofs.Document.References
import RestSpec.Proofs.Document.Effective
import RestSpec.Proofs.Pass.Substitution
import RestSpec.Proofs.Pass.Rounds
import RestSpec.Proofs.Pass.Merge
import RestSpec.Proofs.Pass.Inheritance
import RestSpec.Proofs.Pass.Payload
import RestSpec.Proofs.Pass.Pipeline
import RestSpec.Proofs.Pass.Sweep
import RestSpec.Proofs.Pass.Preservation
import RestSpec.Proofs.Pass.Circles
import RestSpec.Proofs.Pass.Duplicates
import RestSpec.Proofs.Pass.Fixpoint
import RestSpec.Proofs.DataModel.Draft
import RestSpec.Proofs.DataModel.Growth
import RestSpec.Proofs.DataModel.Copy
import RestSpec.Proofs.Except
import RestSpec.Proofs.DataModel.Build
import RestSpec.Proofs.DataModel.Augment
import RestSpec.Proofs.DataModel.Linked
import RestSpec.Proofs.Chase
import RestSpec.Proofs.Naming.Canonical
import RestSpec.Proofs.Naming.Unique
import RestSpec.Proofs.Naming.Registry
import RestSpec.Proofs.DataModel.Twins
import RestSpec.Proofs.DataModel.Walks
import RestSpec.Proofs.LeafType.Hops
import RestSpec.Proofs.Resource.Parameters
import RestSpec.Proofs.Definitions.Members
import RestSpec.Proofs.Definitions.Attributes
import RestSpec.Proofs.Definitions.Build
import RestSpec.Proofs.Definitions.Closed
import RestSpec.Proofs.Definitions.Order
import RestSpec.Proofs.Definitions.Calls
import RestSpec.Proofs.Definitions.Independence
import RestSpec.Proofs.Resource.Emit
import RestSpec.Proofs.Generate
import RestSpec.Proofs.Definitions.Facets
import RestSpec.Proofs.Definitions.Strategies
import RestSpec.Proofs.DataModel.Expansion
import RestSpec.Proofs.DataModel.Nature
import RestSpec.Proofs.DataModel.Faithful
import RestSpec.Proofs.DataModel.Unfolding
import RestSpec.Proofs.DataModel.Grafting
import RestSpec.Proofs.DataModel.Target
import RestSpec.Proofs.DataModel.Stages
import RestSpec.Proofs.DataModel.Substitution
import RestSpec.Proofs.DataModel.Divergence
import RestSpec.Proofs.DataModel.Seats
import RestSpec.Proofs.Naming.Ancestry
import RestSpec.Proofs.DataModel.Dependency
import RestSpec.Proofs.DataModel.Linkable
import RestSpec.Proofs.Resource.Offered
import RestSpec.Proofs.Pass.Readdress
import RestSpec.Proofs.Resource.Address
import RestSpec.Proofs.Resource.Braces
import RestSpec.Proofs.Resource.Dialects
import RestSpec.Proofs.Resource.Visited
import RestSpec.Proofs.Resource.Replaced
import RestSpec.Proofs.Definitions.Lending
import RestSpec.Proofs.Definitions.Runs
import RestSpec.Proofs.Definitions.ReadOnly
import RestSpec.Proofs.Definitions.Required
import RestSpec.Proofs.Resource.Identifiers
import RestSpec.Proofs.DataModel.Configuration
import RestSpec.Proofs.Resource.Access
import RestSpec.Proofs.DataModel.Chains
import RestSpec.Proofs.DataModel.PathWalks
import RestSpec.Proofs.DataModel.Resolution
import RestSpec.Proofs.DataModel.Prefixes
import RestSpec.Proofs.Document.Renaming
import RestSpec.Proofs.Resource.Payloads
import RestSpec.Proofs.DataModel.DataChildren
import RestSpec.Proofs.Pass.Requirements
import RestSpec.Proofs.Definitions.Consistent
import RestSpec.Proofs.Resource.Consistent
import RestSpec.Proofs.Naming.Class

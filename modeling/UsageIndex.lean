import UsageIndex.Package.Builder
import UsageIndex.Tree.Build
import UsageIndex.Tree.Trace
import UsageIndex.Proofs.Unit.Offers
import UsageIndex.Proofs.Interning
import UsageIndex.Proofs.Unit.Recording
import UsageIndex.Proofs.Unit.Classification
import UsageIndex.Proofs.Package.Run
import UsageIndex.Proofs.Package.Assembly
import UsageIndex.Proofs.Package.Elements
import UsageIndex.Proofs.Package.Units
import UsageIndex.Proofs.Package.Reordering
import UsageIndex.Proofs.Package.Growth
import UsageIndex.Proofs.Package.Calls
import UsageIndex.Proofs.Package.Consistency
import UsageIndex.Proofs.Package.Filtering
import UsageIndex.Proofs.Package.Lookup
import UsageIndex.Proofs.Element.Homes
import UsageIndex.Proofs.Package.Entering
import UsageIndex.Proofs.Package.Uris
import UsageIndex.Proofs.Unit.Redirects
import UsageIndex.Proofs.Package.Trails
import UsageIndex.Proofs.Tree.Stopping
import UsageIndex.Proofs.Tree.Brackets
import UsageIndex.Proofs.Package.Written
import UsageIndex.Proofs.Tree.Written
import UsageIndex.Proofs.Tree.Identifiers
import UsageIndex.Proofs.Package.Repetition
import UsageIndex.Proofs.Unit.Options
import UsageIndex.Proofs.Unit.DeclaredNames
import UsageIndex.Proofs.Package.Redirects
import UsageIndex.Proofs.Element.Chains
import UsageIndex.Proofs.Element.Resolution
import UsageIndex.Proofs.Package.UnitColumn
import UsageIndex.Proofs.Package.Location
import UsageIndex.Proofs.Package.Roots
import UsageIndex.Proofs.Package.Logging
import UsageIndex.Proofs.Unit.Spans
import UsageIndex.Proofs.Package.Tolerance
import UsageIndex.Proofs.Unit.Assembly
import UsageIndex.Proofs.Element.Building
import UsageIndex.Proofs.Unit.Claims
import UsageIndex.Proofs.Unit.Mentions
import UsageIndex.Proofs.Package.Building
import UsageIndex.Proofs.Package.Exactness

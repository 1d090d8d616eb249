import IncludeDeps.Main
import IncludeDeps.Proofs.Resolution.Coverage
import IncludeDeps.Proofs.Resolution.Trail
import IncludeDeps.Proofs.Resolution.Cycles
import IncludeDeps.Proofs.Resolution.Prerequisites
import IncludeDeps.Proofs.Resolution.Reads
import IncludeDeps.Proofs.Resolution.Failure
import IncludeDeps.Proofs.FirstOccurrence
import IncludeDeps.Proofs.Resolution.Order
import IncludeDeps.Proofs.Resolution.Agreement
import IncludeDeps.Proofs.Graph.Policies
import IncludeDeps.Proofs.Resolution.Strictness
import IncludeDeps.Proofs.Tree.Following
import IncludeDeps.Proofs.Makefile.Delivery
import IncludeDeps.Proofs.Scaffold.Accounts
import IncludeDeps.Proofs.Scaffold.Reports
import IncludeDeps.Proofs.Directive.Grammar
import IncludeDeps.Proofs.Scaffold.Inclusion
import IncludeDeps.Proofs.Makefile.Faithful
import IncludeDeps.Proofs.Graph.Document
import IncludeDeps.Proofs.Graph.Repetition
import IncludeDeps.Proofs.Graph.Arrows
import IncludeDeps.Proofs.Makefile.Rules
import IncludeDeps.Proofs.Standpoint
import IncludeDeps.Proofs.Limits
import IncludeDeps.Proofs.Directive.Locality
import IncludeDeps.Proofs.Resolution.Sharing
import IncludeDeps.Proofs.Makefile.Expansion
import IncludeDeps.Proofs.Makefile.Objects
import IncludeDeps.Proofs.Resolution.Retry
import IncludeDeps.Proofs.Discovery
import IncludeDeps.Proofs.Resolution.Preorder
import IncludeDeps.Proofs.Resolution.Repeats
import IncludeDeps.Proofs.Revision
import IncludeDeps.Proofs.Scaffold.Conditionals
import IncludeDeps.Proofs.Scaffold.Naming
import IncludeDeps.Proofs.Makefile.Collision
import IncludeDeps.Proofs.CommandLine.Default
import IncludeDeps.Proofs.Rotation
import IncludeDeps.Proofs.Scaffold.Guards
import IncludeDeps.Proofs.Leading

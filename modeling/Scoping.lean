import Scoping.CommandLine
import Scoping.Json.Writer
import Scoping.Main
import Scoping.Options.Decode
import Scoping.Tree.PatternLemmas
import Scoping.Walk.Inside
import Scoping.Proofs.Resolution.Finished
import Scoping.Proofs.Chronicle.Changes
import Scoping.Proofs.Chronicle.Flags
import Scoping.Proofs.Chronicle.Notes
import Scoping.Proofs.Chronicle.Recordings
import Scoping.Proofs.Chronicle.Reports
import Scoping.Proofs.Chronicle.Surroundings
import Scoping.Proofs.Reordering.StatementOrder
import Scoping.Proofs.Resolution.Static
import Scoping.Proofs.Resolution.Taints
import Scoping.Proofs.Placement.Definitions
import Scoping.Proofs.Resolution.Early
import Scoping.Proofs.Nesting.Mirror
import Scoping.Proofs.Session.Names
import Scoping.Proofs.Resolution.Globals
import Scoping.Proofs.Reordering.Tables
import Scoping.Proofs.Resolution.Leftover
import Scoping.Proofs.Resolution.Reordering
import Scoping.Proofs.Resolution.Sequence
import Scoping.Proofs.Resolution.Isolation
import Scoping.Proofs.Reordering.Lists
import Scoping.Proofs.Options.BlockFunctions
import Scoping.Proofs.Options.Optimism
import Scoping.Proofs.Placement.Strictness
import Scoping.Proofs.Resolution.Arguments
import Scoping.Proofs.Revision.KeyOrder
import Scoping.Proofs.Revision.PropertyNames
import Scoping.Proofs.Placement.OwnThis
import Scoping.Proofs.Chronicle.Declarers
import Scoping.Proofs.Placement.BindingNames
import Scoping.Proofs.Resolution.Repeats
import Scoping.Proofs.Resolution.FirstValues
import Scoping.Proofs.Placement.DirectEvals
import Scoping.Proofs.Placement.Release
import Scoping.Proofs.Resolution.SingleUses
import Scoping.Proofs.Descent.Positions
import Scoping.Proofs.Resolution.PatternWrites

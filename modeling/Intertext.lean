import Intertext.Main
import Intertext.Session
import Intertext.Proofs.Compile.Closing
import Intertext.Proofs.Compile.Discipline
import Intertext.Proofs.Compile.Failing
import Intertext.Proofs.Compile.FurtherProjects
import Intertext.Proofs.Compile.Inserted
import Intertext.Proofs.Compile.Languages
import Intertext.Proofs.Compile.Listed
import Intertext.Proofs.Compile.LocalNotes
import Intertext.Proofs.Compile.Marked
import Intertext.Proofs.Compile.OwnNames
import Intertext.Proofs.Compile.Phases
import Intertext.Proofs.Compile.RangeLanguages
import Intertext.Proofs.Compile.ReadBack
import Intertext.Proofs.Compile.Reindexed
import Intertext.Proofs.Compile.Repeats
import Intertext.Proofs.Compile.Roots
import Intertext.Proofs.Compile.SameElement
import Intertext.Proofs.Compile.SameText
import Intertext.Proofs.Compile.Snapshots
import Intertext.Proofs.Compile.Targets
import Intertext.Proofs.Compile.Textual
import Intertext.Proofs.Compile.Tiles
import Intertext.Proofs.Index.Apart
import Intertext.Proofs.Index.Listing
import Intertext.Proofs.Index.Operations
import Intertext.Proofs.Index.Resync
import Intertext.Proofs.Index.Settle
import Intertext.Proofs.Markup.Boundaries
import Intertext.Proofs.Markup.Labelling
import Intertext.Proofs.Markup.RoundTrip

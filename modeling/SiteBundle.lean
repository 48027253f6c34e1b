import SiteBundle.Main
import SiteBundle.Proofs.Bundle.Calls
import SiteBundle.Proofs.Bundle.Embedded
import SiteBundle.Proofs.Bundle.Groups
import SiteBundle.Proofs.Bundle.Reached
import SiteBundle.Proofs.Bundle.Untouched
import SiteBundle.Proofs.Output.References
import SiteBundle.Proofs.Output.Prepared
import SiteBundle.Proofs.Tree.Mirrored
import SiteBundle.Proofs.Bundle.Origin
import SiteBundle.Proofs.Bundle.Placed
import SiteBundle.Proofs.Disk.Filled
import SiteBundle.Proofs.Output.Overlap
import SiteBundle.Proofs.Output.Contents
import SiteBundle.Proofs.Module.Order
import SiteBundle.Proofs.Module.Expressed
import SiteBundle.Proofs.Bundle.Imported
import SiteBundle.Proofs.Bundle.Written
import SiteBundle.Proofs.Bundle.Merged
import SiteBundle.Proofs.Output.Sheets
import SiteBundle.Proofs.Bundle.Sealed
import SiteBundle.Proofs.Markup.Anchored
import SiteBundle.Proofs.Markup.Found
import SiteBundle.Proofs.Markup.Blocks
import SiteBundle.Proofs.Markup.Verbatim
import SiteBundle.Proofs.Style.Shortest
import SiteBundle.Proofs.Style.Compact
import SiteBundle.Proofs.Script.Reread
import SiteBundle.Proofs.Tree.Addresses
import SiteBundle.Proofs.Style.Rewritten
import SiteBundle.Proofs.Glob.Nested
import SiteBundle.Proofs.Bundle.OwnCode
import SiteBundle.Proofs.Bundle.Parted
import SiteBundle.Proofs.Bundle.Overtaken
import SiteBundle.Proofs.Module.Located
import SiteBundle.Proofs.Options.Layered
import SiteBundle.Proofs.Options.Printed
import SiteBundle.Proofs.Markup.WholeLines
import SiteBundle.Proofs.Output.Sweep

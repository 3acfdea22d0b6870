import SectorChain.Main
import SectorChain.Proofs.Content
import SectorChain.Proofs.FreeSectors
import SectorChain.Proofs.Allocation
import SectorChain.Proofs.Stored
import SectorChain.Proofs.Tree
import SectorChain.Proofs.Node
import SectorChain.Proofs.Lookup
import SectorChain.Proofs.Change
import SectorChain.Proofs.Release
import SectorChain.Proofs.Consistency
import SectorChain.Proofs.Making
import SectorChain.Proofs.Removing
import SectorChain.Proofs.OpenFiles
import SectorChain.Proofs.Formatting
import SectorChain.Proofs.Reading
import SectorChain.Proofs.Runs
import SectorChain.Proofs.Names
import SectorChain.Proofs.Namespace
import SectorChain.Proofs.Reports
import SectorChain.Proofs.Failures
import SectorChain.Proofs.Pinning
import SectorChain.Proofs.FileContents
import SectorChain.Proofs.UniqueNames
import SectorChain.Proofs.Interruptions
import SectorChain.Proofs.Tearing
import SectorChain.Proofs.Remounting
import SectorChain.Proofs.TornTables
import SectorChain.Proofs.Amending
import SectorChain.Proofs.SafeRemoval
import SectorChain.Proofs.Claiming
import SectorChain.Proofs.Dangling
import SectorChain.Proofs.Dependence
import SectorChain.Proofs.Hermetic
import SectorChain.Proofs.StaleData
import SectorChain.Proofs.Interchange
import SectorChain.Proofs.Booting
import SectorChain.Proofs.DamagedChains
import SectorChain.Proofs.DamagedTrees
import SectorChain.Proofs.CutChains
import SectorChain.Proofs.Estates
import SectorChain.Proofs.Ownership
import SectorChain.Proofs.Upkeep
import SectorChain.Proofs.UserWrites
import SectorChain.Proofs.Reclaiming
import SectorChain.Proofs.Slices
import SectorChain.Proofs.Addresses
import SectorChain.Proofs.Outcomes
import SectorChain.Proofs.AccessOrder
import SectorChain.Proofs.InterruptedWrites
import SectorChain.Proofs.SequentialAccess
import SectorChain.Proofs.Checked
import SectorChain.Proofs.InBounds
import SectorChain.Proofs.BlockLookup
import SectorChain.Proofs.OneRecord
import SectorChain.Proofs.Attempts
import SectorChain.Proofs.WriteOrder
import SectorChain.Proofs.MinimalLayout
import SectorChain.Proofs.StoredRecords
import SectorChain.Proofs.TableCodec
import SectorChain.Proofs.PackedMarks
import SectorChain.Proofs.Listings
import SectorChain.Proofs.ListedPaths
import SectorChain.Proofs.Accounting
import SectorChain.Proofs.PathGrammar
import SectorChain.Proofs.Resolving
import SectorChain.Proofs.CurrentDirectory
import SectorChain.Proofs.BoundedTable
import SectorChain.Proofs.CommandSyntax

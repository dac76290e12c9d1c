import LayerFs.Qualify.Exact
import LayerFs.Validate.Proof
import LayerFs.Update.Result
import LayerFs.Pack.Contract
import LayerFs.Listing.Lost
import LayerFs.Digests.Captured
import LayerFs.Service.Edit
import LayerFs.Service.Blame
import LayerFs.Service.Reuse
import LayerFs.Bridge.Kept
import LayerFs.History.Unrepeated
import LayerFs.Cdc.Candidates
import LayerFs.History.Facts
import LayerFs.History.Serials
import LayerFs.Glob.Pruned
import LayerFs.History.Pages
import LayerFs.Merge.Laws
import LayerFs.Glob.Declared
import LayerFs.Merge.Answers
import LayerFs.Draft.Emit
import LayerFs.Compare.Sorted
import LayerFs.Inode.Lookup
import LayerFs.Sorted.Canonical
import LayerFs.Pool.Delta
import LayerFs.Save.Batches
import LayerFs.References.Owned
import LayerFs.Files.ReadBack
import LayerFs.History.Later

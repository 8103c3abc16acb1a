import Pagedb.Pager.HeaderRun
import Pagedb.Txn.SegmentSafety
import Pagedb.Txn.HistoryCount
import Pagedb.Txn.SealScan
import Pagedb.Txn.Spill
import Pagedb.BTree.PrefixPages
import Pagedb.BTree.BranchSplit
import Pagedb.Txn.RetirementSafety
import Pagedb.Pager.FileSwap
import Pagedb.Recovery.DeepWalk
import Pagedb.Recovery.JournalReplay
import Pagedb.Pager.FreeRewrite
import Pagedb.BTree.InternalCodec
import Pagedb.BTree.ParentPaths
import Pagedb.Catalog.Quota
import Pagedb.Segment.ExtentIndex
import Pagedb.Segment.Repack

import ScCore.Store.Naming
import ScCore.Scp.Counter
import ScCore.Rgp.Codec
import ScCore.Rgp.Guarded
import ScCore.Rgp.Iteration
import ScCore.Search.SetUnion
import ScCore.Scp.Nesting
import ScCore.Pm.Places
import ScCore.Tgf.Numbering
import ScCore.Pm.Wakeups
import ScCore.Scp.CallerKept
import ScCore.Scp.ChildWait
import ScCore.Store.Contents
import ScCore.Scs.UnionFind
import ScCore.Scs.Base64
import ScCore.Repo.Splitting
import ScCore.Scc.ShortCircuit
import ScCore.Search.FiveThree
import ScCore.Search.Selections
import ScCore.Search.Registration
import ScCore.Search.Search5
import ScCore.Store.WaitActivation
import ScCore.Repo.Spider
import ScCore.Scp.OperandCache
import ScCore.Scp.Comparisons
import ScCore.Sets.Include
import ScCore.Sets.CopyExact
import ScCore.Sets.ListRuns
import ScCore.Sets.Merging
import ScCore.Tgf.Checksum
import ScCore.Repo.FileExposure
import ScCore.Repo.Resolution
import ScCore.Scs.NonarcRuns
import ScCore.Tgf.RoundTrip
import ScCore.Tgf.SafeReads
import ScCore.Scc.StringToken
import ScCore.Repo.NumbersSegment
import ScCore.Scc.SequenceOrder
import ScCore.Gen.Membership
import ScCore.Scc.SentenceRuns
import ScCore.Scp.PreparePattern
import ScCore.Rgp.ObjRegistry
import ScCore.Store.EventFifo
import ScCore.Tgf.Arena
import ScCore.Store.FixAlloc
import ScCore.Scc.OperatorBranches
import ScCore.Store.AddrLifetime
import ScCore.Store.SafeList

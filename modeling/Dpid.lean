import Dpid.AbaSupport
import Dpid.AddTotal
import Dpid.BatchNorm
import Dpid.BroadcastValid
import Dpid.Coding
import Dpid.CommonSubset
import Dpid.DataflowSound
import Dpid.Dispatch
import Dpid.EdwardsPaths
import Dpid.Equality
import Dpid.FieldPaths
import Dpid.FrPow
import Dpid.Gao
import Dpid.HoneyBadger
import Dpid.InfoDispersal2Total
import Dpid.LessThan
import Dpid.Merkle
import Dpid.MillerRabin
import Dpid.MimcPkc
import Dpid.Multicast
import Dpid.OptQrbcTerminate
import Dpid.Pippenger
import Dpid.PpRist
import Dpid.Quorum
import Dpid.RbcAgree
import Dpid.RbcAny
import Dpid.Refresh0Total
import Dpid.Refresh2Leader
import Dpid.Refresh2Safety
import Dpid.RefreshQuorum
import Dpid.RistTotal
import Dpid.RistrettoPaths
import Dpid.RsaOpen
import Dpid.Serializer
import Dpid.Setup
import Dpid.Socket
import Dpid.Symmetric
import Dpid.Tpke
import Dpid.TripleRefine
import Dpid.TylerConsistent
import Dpid.VectorCommit

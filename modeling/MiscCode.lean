import MiscCode.CalcEval
import MiscCode.CalcGlr
import MiscCode.CalcMemory
import MiscCode.MainSync
import MiscCode.SyncCheck
import MiscCode.CalcSkeleton
import MiscCode.Hdfs
import MiscCode.Steps
import MiscCode.Recompute
import MiscCode.RecomputeMerge
import MiscCode.CalcDefined
import MiscCode.CalcReject
import MiscCode.Deploy
import MiscCode.DeployConvergence
import MiscCode.DeployIsolation
import MiscCode.Etcd
import MiscCode.EtcdJoin
import MiscCode.Files
import MiscCode.JavaHash
import MiscCode.JmxMonitor
import MiscCode.LockFile
import MiscCode.ResCache
import MiscCode.Rpcalc
import MiscCode.SaveBuf
import MiscCode.CalcTable
import MiscCode.Cfg
import MiscCode.Flex
import MiscCode.Images
import MiscCode.InfixScan
import MiscCode.Numeral
import MiscCode.Ports
import MiscCode.ScanNum
import MiscCode.Sql1Conditions
import MiscCode.Sql1Lex
import MiscCode.Sql1Match
import MiscCode.Sql1Statements
import MiscCode.SqlConditions
import MiscCode.SqlOutput
import MiscCode.SqlSpaces
import MiscCode.ActiveUsers
import MiscCode.Barrier
import MiscCode.FindCluster
import MiscCode.Gregorian
import MiscCode.JmxUpdate
import MiscCode.JvmNames
import MiscCode.JvmRates
import MiscCode.PackageFilter
import MiscCode.SyncFailures
import MiscCode.TxDate
import MiscCode.Join
import MiscCode.CityName
import MiscCode.Sections
import MiscCode.PomEdges
import MiscCode.Blocks
import MiscCode.SymBuf
import MiscCode.PagingSafety
import MiscCode.BufferStore

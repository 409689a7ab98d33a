import Metasim.Lib.Transition
import Metasim.Lib.Log
import Metasim.Lib.KaryHeap
import Metasim.Lib.Traced
import Metasim.Lib.Ledger
import Metasim.Lib.Spmd
import Metasim.Lib.Served
import Metasim.Lib.Shared
import Metasim.Lib.Reduction
import Metasim.AddrFile
import Metasim.AddrExchange
import Metasim.Rendezvous
import Metasim.ClientInit
import Metasim.TreeDepth
import Metasim.TreeOverflow
import Metasim.Margotree
import Metasim.SumFaults
import Metasim.SumHandles
import Metasim.SumOracle
import Metasim.SumRepeat
import Metasim.SumNetRuns
import Metasim.SumLoad
import Metasim.SumLimited
import Metasim.SumService
import Metasim.Ping
import Metasim.Answered
import Metasim.ParallelHandlers
import Metasim.ServerStart
import Metasim.SelfTest
import Metasim.Listener
import Metasim.StressRun
import Metasim.FilesizeRuns
import Metasim.FilesizeFold
import Metasim.FilesizeWake
import Metasim.FilesizeService
import Metasim.MpiSum
import Metasim.Deployment
import Metasim.ClientService
import Metasim.Session
import Metasim.SumRepeatRun

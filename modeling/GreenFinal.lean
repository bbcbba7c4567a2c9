import GreenFinal.Lib.Interleave
import GreenFinal.Lib.CString
import GreenFinal.Lib.Binary64
import GreenFinal.Mem
import GreenFinal.Collect
import GreenFinal.Settlement
import GreenFinal.HandleRequest
import GreenFinal.Call
import GreenFinal.Parser
import GreenFinal.MicroStep
import GreenFinal.Linearization
import GreenFinal.Tables
import GreenFinal.Ledger
import GreenFinal.Lifecycle
import GreenFinal.WriteBack
import GreenFinal.Conservation
import GreenFinal.Restart
import GreenFinal.FuncHttp
import GreenFinal.Counters
import GreenFinal.Progress
import GreenFinal.FlushRace
import GreenFinal.Framing
import GreenFinal.Reorder
import GreenFinal.Bounds
import GreenFinal.Addressing
import GreenFinal.TornReads
import GreenFinal.Completion
import GreenFinal.Requests
import GreenFinal.Outcome
import GreenFinal.Process
import GreenFinal.Succession
import GreenFinal.Refinement
import GreenFinal.Realization
import GreenFinal.Program
import GreenFinal.Startup
import GreenFinal.Loading
import GreenFinal.Quiescence
import GreenFinal.Launch
import GreenFinal.Tally
import GreenFinal.Service

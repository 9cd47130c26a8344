import Boker.Machine
import Boker.JumpTable
import Boker.Interpreter
import Boker.Loop
import Boker.CallDepth
import Boker.Checks
import Boker.Memory
import Boker.Outcome
import Boker.ReturnData
import Boker.Tracing
import Boker.Capture
import Boker.Termination
import Boker.Common
import Boker.Trie
import Boker.StorageRange
import Boker.TxEnv
import Boker.ModifiedAccounts
import Boker.ImportChain

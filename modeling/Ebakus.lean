import Ebakus.Lang.Go
import Ebakus.Common.Types
import Ebakus.Data.Table
import Ebakus.Accounts.Abi
import Ebakus.Core.Vm.EbakusState
import Ebakus.Core.Vm.ContractAbis
import Ebakus.Core.Vm.SystemContract
import Ebakus.Core.Vm.SystemSpec
import Ebakus.Core.Vm.StakeAccounting
import Ebakus.Core.Vm.CommandSpec
import Ebakus.Core.Vm.StakeInvariant
import Ebakus.Core.Vm.StakeRun
import Ebakus.Core.Vm.Call
import Ebakus.Core.Vm.DbContract
import Ebakus.Rlp.Stream
import Ebakus.Rlp.Encode
import Ebakus.Rlp.RoundTrip
import Ebakus.Core.Types.Block
import Ebakus.Consensus.Dpos
import Ebakus.Consensus.Delegates
import Ebakus.Core.InsertChain
import Ebakus.Core.StateTransition
import Ebakus.Miner.Worker
import Ebakus.Accounts.Table
import Ebakus.Lang.UndoLog
import Ebakus.Core.State.StateDB
import Ebakus.Core.State.Revert
import Ebakus.Lang.Heap
import Ebakus.Core.Types.TxsByPrice
import Ebakus.Core.TxList
import Ebakus.Rlp.Reader
import Ebakus.Trie.Encoding
import Ebakus.Trie.Trie
import Ebakus.Trie.Canonical
import Ebakus.Trie.Update
import Ebakus.Trie.Run
import Ebakus.Core.Vm.Analysis
import Ebakus.Consensus.Density
import Ebakus.Common.Bitutil
import Ebakus.Common.Math
import Ebakus.Core.Vm.Instructions
import Ebakus.Rlp.Encbuf
import Ebakus.Core.Rawdb.FreezerTable
import Ebakus.Core.Rawdb.FreezerRun
import Ebakus.Lang.MapRange
import Ebakus.Core.Rawdb.Freezer
import Ebakus.Lang.BitSet
import Ebakus.Core.Types.Bloom
import Ebakus.Eth.Filters
import Ebakus.Core.Rawdb.FreezerRepair

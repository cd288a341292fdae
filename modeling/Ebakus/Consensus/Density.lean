/-
# The block-density RPC (`consensus/dpos/dpos.go`, `getBlockDensity`)

`getBlockDensity` counts the slots without a good block in a window that ends
at a given block: it collects the block and up to `lookbackTime` of its
ancestors by their times, and walks the timestamps down from the block's own
to a lower bound, counting each timestamp with no block, with a block whose
seal fails, or with a block that does not follow the one before it.

The lower bound is computed in `uint64`, and the walk goes on while the
timestamp is at least the bound, decrementing it each time. When the bound is
0 no timestamp is below it: after 0 the timestamp wraps to `2^64 - 1` and the
walk never ends. The model runs the walk with fuel, `none` standing for a walk
that has not ended, so that this shows as a statement over every fuel.

Blocks are read through their headers only; `GetHeaderByHash` and
`GetBlockByHash` are one store.
-/

import Ebakus.Consensus.Dpos

namespace Ebakus.Consensus.Dpos

open Ebakus.Lang Ebakus.Common Ebakus.Core.Types

variable {σ : Type}

/-- What `getBlockDensity` reads of the engine and the chain. -/
structure DensityChain (σ : Type) where
  backend : Backend σ
  config : DPOSConfig
  EbakusStateAt : Hash → Nat → Option σ
  CurrentBlock : Header
  GetBlockByNumber : UInt64 → Option Header
  GetBlockByHash : Hash → Option Header
  GetHeader : Hash → UInt64 → Option Header

/-- `rpc.LatestBlockNumber`. -/
def LatestBlockNumber : Int64 := -1

/-- The walk of `HeaderChain.GetBlockHashesFromHash` from `header`: the hash
of each parent found, up to `max` of them, stopping after the genesis. -/
def GetBlockHashesFromHashLoop (chain : DensityChain σ) : Header → Nat → List Hash
  | _, 0 => []
  | header, max + 1 =>
    let next := header.ParentHash
    match chain.GetHeader next (header.Number.toUInt64 - 1) with
    | none => []
    | some parent => next :: if parent.Number = 0 then [] else GetBlockHashesFromHashLoop chain parent max

/-- `GetBlockHashesFromHash`. -/
def GetBlockHashesFromHash (chain : DensityChain σ) (hash : Hash) (max : UInt64) : List Hash :=
  match chain.GetBlockByHash hash with
  | none => []
  | some header => GetBlockHashesFromHashLoop chain header max.toNat

/-- `blocksMap`: each block under its time, a later block replacing an earlier one. -/
def blocksMapOf (blocks : List Header) : UInt64 → Option Header :=
  blocks.foldl (fun m block => Function.update m block.Time (some block)) fun _ => none

/-- The variables the walk carries. -/
structure DensityState where
  prevBlock : Option Header
  totalMissedBlocks : Nat

/-- One pass of the walk, at `timestamp`. -/
def densityStep (chain : DensityChain σ) (blocksMap : UInt64 → Option Header) (timestamp : UInt64)
    (s : DensityState) : Go DensityState :=
  match blocksMap timestamp with
  | none => return { s with totalMissedBlocks := s.totalMissedBlocks + 1 }
  | some block => do
    let sealed ← verifySeal chain.backend chain.config chain.EbakusStateAt
      (chain.GetBlockByHash block.ParentHash) block
    let missed := match sealed with
      | .ok () => s.totalMissedBlocks
      | .error _ => s.totalMissedBlocks + 1
    let missed := match s.prevBlock with
      | some prev =>
        if prev.Number.toUInt64 ≠ block.Number.toUInt64 + 1 ∨
            block.Hash chain.backend.Keccak256 ≠ prev.ParentHash then missed + 1
        else missed
      | none => missed
    return ⟨some block, missed⟩

/-- The walk `for timestamp := ...; timestamp >= lookbackTimestamp; timestamp--`,
with `fuel` passes at most: `none` when the fuel runs out first. -/
def densityLoop (chain : DensityChain σ) (blocksMap : UInt64 → Option Header)
    (lookbackTimestamp : UInt64) : Nat → UInt64 → DensityState → Go (Option DensityState)
  | 0, _, _ => return none
  | fuel + 1, timestamp, s =>
    if timestamp ≥ lookbackTimestamp then do
      let s ← densityStep chain blocksMap timestamp s
      densityLoop chain blocksMap lookbackTimestamp fuel (timestamp - 1) s
    else return some s

/-- `getBlockDensity`, with the walk given `fuel` passes: `none` when it has not
ended by then, and otherwise the error or `total_missed_blocks`. -/
def getBlockDensity (chain : DensityChain σ) (number : Int64) (lookbackTime : UInt64) (fuel : Nat) :
    Go (Option (Except EngineError Nat)) := do
  let latestBlockNumber := chain.CurrentBlock.Number.toUInt64
  let number := if number = LatestBlockNumber then latestBlockNumber.toInt64 else number
  if number.toUInt64 > latestBlockNumber then return some (.error .ErrFutureBlock)
  let some initialBlock := chain.GetBlockByNumber number.toUInt64 | throw .nilDereference
  let blocksHashes :=
    GetBlockHashesFromHash chain (initialBlock.Hash chain.backend.Keccak256) lookbackTime
  let blocks ← blocksHashes.mapM fun blockHash =>
    match chain.GetBlockByHash blockHash with
    | some block => .ok block
    | none => .error .nilDereference
  let blocksMap := blocksMapOf (initialBlock :: blocks)
  let blocksNumber := (blocksHashes.length + 1).toUInt64
  let lookbackTimestamp :=
    if lookbackTime > blocksNumber then initialBlock.Time - blocksNumber
    else initialBlock.Time - lookbackTime
  let walked ← densityLoop chain blocksMap lookbackTimestamp fuel initialBlock.Time ⟨none, 0⟩
  return walked.map fun s => .ok s.totalMissedBlocks

/-! ### The walk -/

section Walk

variable (chain : DensityChain σ) (blocksMap : UInt64 → Option Header)

/-- Every block the walk can meet has a seal check that returns. -/
def SealsReturn : Prop :=
  ∀ t block, blocksMap t = some block →
    ∃ r, verifySeal chain.backend chain.config chain.EbakusStateAt
      (chain.GetBlockByHash block.ParentHash) block = .ok r

variable {chain blocksMap}

/-- A pass returns when the seal checks do. -/
theorem densityStep_ok (seals : SealsReturn chain blocksMap) (timestamp : UInt64) (s : DensityState) :
    ∃ s', densityStep chain blocksMap timestamp s = .ok s' := by
  unfold densityStep
  split
  · exact ⟨_, rfl⟩
  · rename_i block found
    obtain ⟨r, sealed⟩ := seals timestamp block found
    simp only [sealed, Lang.ok_bind]
    exact ⟨_, rfl⟩

/-- With the bound 0 every timestamp passes the test, so the walk never ends:
it runs out of every fuel. -/
theorem densityLoop_of_zero (seals : SealsReturn chain blocksMap) :
    ∀ fuel timestamp s, densityLoop chain blocksMap 0 fuel timestamp s = .ok none := by
  intro fuel
  induction fuel with
  | zero => intro _ _; rfl
  | succ fuel ih =>
    intro timestamp s
    obtain ⟨s', stepped⟩ := densityStep_ok seals timestamp s
    simp only [densityLoop, UInt64.zero_le, if_true, stepped, Lang.ok_bind, ih]

end Walk

/-! ### A chain of its genesis block alone -/

/-- The chain of `genesis` alone: the store knows the genesis block and
nothing else. -/
def genesisOnly (backend : Backend σ) (config : DPOSConfig) (stateAt : Hash → Nat → Option σ)
    (genesis : Header) : DensityChain σ where
  backend := backend
  config := config
  EbakusStateAt := stateAt
  CurrentBlock := genesis
  GetBlockByNumber n := if n = genesis.Number.toUInt64 then some genesis else none
  GetBlockByHash h := if h = genesis.Hash backend.Keccak256 then some genesis else none
  GetHeader h n :=
    if h = genesis.Hash backend.Keccak256 ∧ n = genesis.Number.toUInt64 then some genesis else none

/-- The map of one block holds that block only. -/
theorem blocksMapOf_single {block found : Header} {t : UInt64} (at_t : blocksMapOf [block] t = some found) :
    found = block := by
  simp only [blocksMapOf, List.foldl_cons, List.foldl_nil, Function.update_apply] at at_t
  split at at_t
  · exact (Option.some.inj at_t).symm
  · cases at_t

/-- The seal of a genesis block is not checked. -/
theorem verifySeal_of_genesis (backend : Backend σ) (config : DPOSConfig) (stateAt : Hash → Nat → Option σ)
    (parent : Option Header) {header : Header} (first : header.Number = 0) :
    verifySeal backend config stateAt parent header = .ok (.ok ()) := by
  simp [verifySeal, first]

theorem getBlockDensity_genesis_never_returns (backend : Backend σ) (config : DPOSConfig)
    (stateAt : Hash → Nat → Option σ) (genesis : Header) (first : genesis.Number = 0)
    (start : genesis.Time = 0) (fuel : Nat) :
    getBlockDensity (genesisOnly backend config stateAt genesis) 0 0 fuel = .ok none := by
  let chain := genesisOnly backend config stateAt genesis
  have zero : Int64.toUInt64 0 = 0 := rfl
  have latest : chain.CurrentBlock.Number.toUInt64 = 0 := by
    simp [chain, genesisOnly, first]
  have initial : chain.GetBlockByNumber 0 = some genesis := by
    simp [chain, genesisOnly, first]
  -- The walk back is asked for no ancestor.
  have noAncestors : GetBlockHashesFromHash chain (genesis.Hash chain.backend.Keccak256) 0 = [] := by
    unfold GetBlockHashesFromHash
    split <;> rfl
  -- Only the genesis block is met, and its seal is not checked.
  have seals : SealsReturn chain (blocksMapOf [genesis]) := by
    intro t block found
    rw [blocksMapOf_single found]
    exact ⟨_, verifySeal_of_genesis backend config stateAt _ first⟩
  -- With no ancestor and no lookback the bound is the genesis time, 0.
  have bound : (if (0 : UInt64) > (([] : List Hash).length + 1).toUInt64 then
      genesis.Time - (([] : List Hash).length + 1).toUInt64 else genesis.Time - 0) = 0 := by
    rw [if_neg (by decide), start, UInt64.sub_zero]
  have noNumber : (0 : Int64) ≠ LatestBlockNumber := by decide
  show getBlockDensity chain 0 0 fuel = .ok none
  simp only [getBlockDensity, noNumber, if_false, latest, zero, initial, noAncestors, List.mapM_nil]
  rw [if_neg (UInt64.lt_irrefl 0), pure_eq_ok, Lang.ok_bind, bound, densityLoop_of_zero seals,
    Lang.ok_bind]
  rfl

/-- The zero header as the genesis, with an engine that knows no state. -/
theorem getBlockDensity_empty_genesis_never_returns :
    Header.empty.Number = 0 ∧ Header.empty.Time = 0 ∧
      getBlockDensity (@genesisOnly Unit ⟨fun _ => BytesToHash [], fun _ _ => none, fun _ => []⟩
        ⟨1, 21, 0, 1⟩ (fun _ _ => none) Header.empty) 0 0 1000 = .ok none :=
  ⟨rfl, rfl, getBlockDensity_genesis_never_returns _ _ _ _ rfl rfl 1000⟩

end Ebakus.Consensus.Dpos

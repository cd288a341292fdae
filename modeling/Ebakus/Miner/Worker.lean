/-
# Producing a block (`miner/worker.go`)

`commitNewWork` waits in `Prepare` for a slot in which the signer is in turn,
sets the gas limit, fills the block from the pool's pending transactions for
at most half a second, lets the engine pay the reward and compute the
delegate diff, and seals the block.

A transaction that fails leaves no trace in the states of the block: the
state database goes back to its snapshot and the child ebakus snapshot is
released. Only the gas pool keeps what the failed call took from it.

`Prepare` accepts any time after the head's, while `verifyHeader` asks for a
whole period after the parent: a block made in the head's own period is
refused on import.
-/

import Ebakus.Core.StateTransition

namespace Ebakus.Miner

open Ebakus.Lang Ebakus.Common Ebakus.Core.Types Ebakus.Consensus.Dpos Ebakus.Core

/-- What the worker reads of `miner.Config`, of the chain configuration and of
the genesis the engine keeps. -/
structure Config where
  GasFloor : UInt64
  GasCeil : UInt64
  /-- `ChainConfig.EIP155Block`, `none` for `nil`. -/
  EIP155Block : Option Nat
  SuspendEmptyBlocks : Bool

/-- `ChainConfig.IsEIP155`. -/
def Config.IsEIP155 (config : Config) (num : Nat) : Bool :=
  match config.EIP155Block with
  | none => false
  | some block => block ≤ num

/-- `TransactionsByVirtualDifficultyAndNonce`: the transaction with the best
virtual difficulty among the heads of the accounts, that head replaced by the
next transaction of its account, and that head dropped with its account. -/
structure TxQueue (ι τ : Type) where
  Peek : ι → Option τ
  Shift : ι → ι
  Pop : ι → ι

/-- `environment`: the block being filled. -/
structure environment (S σ τ ρ : Type) where
  state : S
  ebakusState : σ
  header : Header
  gasPool : UInt64
  tcount : Nat
  txs : List τ
  receipts : List ρ

variable {σ S ι τ ρ ε : Type}

/-- `commitTransaction`: the transaction applied to the states of the block,
its gas added to the header's; a failure keeps the states. -/
def commitTransaction (vm : Vm S σ τ ρ ε) (coinbase : Address) (env : environment S σ τ ρ)
    (tx : τ) : environment S σ τ ρ × Option (TxError ε) :=
  match vm.ApplyTransaction (NewEVMContext env.header coinbase) env.gasPool env.header.GasUsed
      env.state env.ebakusState tx with
  | (gasPool, .error err) => ({ env with gasPool }, some err)
  | (gasPool, .ok (state, ebakusState, receipt, gas)) =>
    ({ env with
        state, ebakusState, gasPool
        header := { env.header with GasUsed := env.header.GasUsed + gas }
        txs := env.txs ++ [tx]
        receipts := env.receipts ++ [receipt] }, none)

/-- The loop of `commitTransactions`, with `budget` more passes before its
half second is over: stop when the gas left cannot pay for a transaction or
the queue is empty; on each error move on as the worker does. -/
def commitTransactions (vm : Vm S σ τ ρ ε) (config : Config) (queue : TxQueue ι τ)
    (coinbase : Address) : Nat → ι → environment S σ τ ρ → environment S σ τ ρ
  | 0, _, env => env
  | budget + 1, txs, env =>
    if env.gasPool < TxGas then env
    else
      match queue.Peek txs with
      | none => env
      | some tx =>
        if vm.Protected tx ∧ ¬config.IsEIP155 env.header.Number then
          commitTransactions vm config queue coinbase budget (queue.Pop txs) env
        else
          match commitTransaction vm coinbase env tx with
          | (env, some .ErrGasLimitReached) =>
            commitTransactions vm config queue coinbase budget (queue.Pop txs) env
          | (env, some .ErrNonceTooLow) =>
            commitTransactions vm config queue coinbase budget (queue.Shift txs) env
          | (env, some .ErrNonceTooHigh) =>
            commitTransactions vm config queue coinbase budget (queue.Pop txs) env
          | (env, none) =>
            commitTransactions vm config queue coinbase budget (queue.Shift txs)
              { env with tcount := env.tcount + 1 }
          | (env, some (.other _)) =>
            commitTransactions vm config queue coinbase budget (queue.Shift txs) env

/-- `commitNewWork` with the engine's `signer`, the worker's `coinbase`, the
pool's pending transactions ordered against an ebakus state, the clock
readings of `Prepare` and the passes the half second of `commitTransactions`
allows: the sealed block with its states, or nothing when a stage fails. -/
def commitNewWork (chain : Chain σ S τ ρ ε) (config : Config) (queue : TxQueue ι τ)
    (signer coinbase : Address) (signFn : List UInt8 → List UInt8) (pending : σ → ι)
    (readings : List (Reading σ)) (budget : Nat) : Go (Option (Block τ × S × σ)) := do
  match ← Prepare chain.backend chain.config signer readings with
  | .error _ => return none
  | .ok (parent, header) =>
    let header := { header with GasLimit := CalcGasLimit parent config.GasFloor config.GasCeil }
    -- `makeCurrent`
    match chain.StateAt parent.Root,
        chain.EbakusStateAt (parent.Hash chain.backend.Keccak256) parent.Number with
    | some state, some ebakusState =>
      -- `commitTransactions` finds no gas pool and makes one of the gas limit
      let env := commitTransactions chain.vm config queue coinbase budget (pending ebakusState)
        ⟨state, ebakusState, header, header.GasLimit, 0, [], []⟩
      let state := chain.vm.AccumulateRewards env.state coinbase
      match ← FinalizeAndAssemble chain.backend chain.config config.SuspendEmptyBlocks env.txs.length
          (chain.GetHeaderByHash env.header.ParentHash)
          (chain.EbakusStateAt env.header.ParentHash (env.header.Number - 1)) env.ebakusState
          (chain.vm.IntermediateRoot state) env.header with
      | .error _ => return none
      | .ok header =>
        let block := chain.vm.NewBlock header env.txs env.receipts
        match Seal signFn (chain.GetHeader block.header.ParentHash (block.header.Number - 1))
            block.header with
        | .error _ => return none
        | .ok header => return some (⟨header, block.txs⟩, state, env.ebakusState)
    | _, _ => return none


/-- A transaction that fails leaves the states, the header and the lists of
the block as they were, and the gas pool as the call left it. -/
theorem commitTransaction_of_error (vm : Vm S σ τ ρ ε) (coinbase : Address)
    (env : environment S σ τ ρ) (tx : τ) {gasPool : UInt64} {err : TxError ε}
    (failed : vm.ApplyTransaction (NewEVMContext env.header coinbase) env.gasPool env.header.GasUsed
      env.state env.ebakusState tx = (gasPool, .error err)) :
    commitTransaction vm coinbase env tx = ({ env with gasPool }, some err) := by
  simp only [commitTransaction, failed]

/-- A transaction whose gas limit is below its intrinsic gas fails, and the
gas it bought stays taken from the block's pool: `buyGas` subtracts it before
`useGas` refuses the intrinsic gas, and neither the revert of the state nor
the release of the ebakus snapshot gives it back. -/
theorem commitTransaction_failed_keeps_gas_taken (tr : Transition S σ ρ)
    (vm : Vm S σ Transaction ρ TransitionError) (applies : vm.ApplyTransaction = tr.ApplyTransaction)
    (coinbase : Address) (env : environment S σ Transaction ρ) (tx : Transaction) (sender : Address)
    (signed : tr.Sender tx = some sender) (nonce : tr.ops.GetNonce env.state sender = tx.AccountNonce)
    (pooled : tx.GasLimit ≤ env.gasPool)
    (short : ∀ intrinsic, IntrinsicGas tx.Payload tx.Recipient.isNone = .ok intrinsic →
      tx.GasLimit < intrinsic) :
    commitTransaction vm coinbase env tx =
      ({ env with gasPool := env.gasPool - tx.GasLimit }, some (.other .ErrOutOfGas)) := by
  apply commitTransaction_of_error
  rw [applies]
  exact tr.ApplyTransaction_of_short _ _ _ _ _ tx sender signed nonce pooled short

/-- The transition of `soloChain`'s witness: one account, the zero address,
which signs every transaction; no call ever runs. -/
def soloTransition : Transition Unit Unit Unit where
  ops := ⟨fun _ _ => 0, fun statedb _ _ => statedb, fun _ _ => 0, fun statedb _ _ => statedb,
    fun statedb _ _ => statedb, fun _ => 0, id⟩
  evm := ⟨fun _ statedb ebakusState _ _ _ gas _ => (statedb, ebakusState, gas, none),
    fun _ statedb ebakusState _ _ gas _ => (statedb, ebakusState, gas, none)⟩
  Sender := fun _ => some Address.zero
  NewReceipt := fun _ _ _ _ _ => ()

/-- A transfer with a gas limit of 20000, below the 21000 of `TxGas`, fails
and leaves the pool of 100000 at 80000. -/
theorem commitTransaction_failed_keeps_gas_taken_of_short_transfer :
    let vm : Vm Unit Unit Transaction Unit TransitionError :=
      ⟨soloTransition.ApplyTransaction, fun statedb _ _ => statedb, fun _ => BytesToHash [],
        fun _ => BytesToHash [], fun _ => [], fun _ => [], fun _ => 0, fun _ => false⟩
    let env : environment Unit Unit Transaction Unit := ⟨(), (), Header.empty, 100000, 0, [], []⟩
    let tx : Transaction := ⟨0, 0, 20000, some Address.zero, 0, []⟩
    commitTransaction vm Address.zero env tx =
        ({ env with gasPool := env.gasPool - tx.GasLimit }, some (.other .ErrOutOfGas)) ∧
      env.gasPool - tx.GasLimit ≠ env.gasPool := by
  intro vm env tx
  have short : ∀ intrinsic, IntrinsicGas tx.Payload tx.Recipient.isNone = .ok intrinsic →
      tx.GasLimit < intrinsic := by
    intro intrinsic computed
    cases computed
    decide
  exact ⟨commitTransaction_failed_keeps_gas_taken soloTransition vm rfl Address.zero env tx Address.zero
    rfl rfl (by decide) short, by decide⟩

/-! ### Where the worker's block stands -/

section Position

variable (vm : Vm S σ τ ρ ε) (config : Config) (queue : TxQueue ι τ) (coinbase : Address)

/-- A transaction, committed or not, leaves the header where it stands. -/
theorem position_commitTransaction (env : environment S σ τ ρ) (tx : τ) :
    (commitTransaction vm coinbase env tx).1.header.position = env.header.position := by
  unfold commitTransaction
  split <;> rfl

/-- The loop fills the block under a header that stays where it stands: each
pass keeps the place of the header, by `position_commitTransaction`. -/
theorem position_commitTransactions (budget : Nat) (txs : ι) (env : environment S σ τ ρ) :
    (commitTransactions vm config queue coinbase budget txs env).header.position =
      env.header.position := by
  fun_induction commitTransactions vm config queue coinbase budget txs env with
  | case1 => rfl
  | case2 => rfl
  | case3 => rfl
  | case4 _ _ _ _ _ _ _ ih => exact ih
  | case5 _ _ env _ _ _ _ _ committed ih
  | case6 _ _ env _ _ _ _ _ committed ih
  | case7 _ _ env _ _ _ _ _ committed ih
  | case8 _ _ env _ _ _ _ _ committed ih
  | case9 _ _ env _ _ _ _ _ _ committed ih =>
    rw [ih, ← position_commitTransaction vm coinbase env, committed]

end Position

/-- The block the worker seals stands where the header `Prepare` made. -/
theorem position_of_commitNewWork {chain : Chain σ S τ ρ ε} {config : Config}
    {queue : TxQueue ι τ} {signer coinbase : Address} {signFn : List UInt8 → List UInt8}
    {pending : σ → ι} {readings : List (Reading σ)} {budget : Nat} {block : Block τ} {post : S × σ}
    (produced : commitNewWork chain config queue signer coinbase signFn pending readings budget =
      .ok (some (block, post))) :
    ∃ parent header, Prepare chain.backend chain.config signer readings = .ok (.ok (parent, header)) ∧
      block.header.position = header.position := by
  simp only [commitNewWork] at produced
  obtain ⟨prepared, preparedEq, produced⟩ := bind_eq_ok produced
  split at produced
  · cases produced
  · rename_i parent header
    refine ⟨parent, header, preparedEq, ?_⟩
    split at produced
    · obtain ⟨assembled, assembledEq, produced⟩ := bind_eq_ok produced
      split at produced
      · cases produced
      · rename_i finalized
        split at produced
        · cases produced
        · rename_i sealed signed
          cases produced
          rw [position_of_Seal signed, Vm.position_NewBlock, position_of_FinalizeAndAssemble assembledEq,
            position_commitTransactions]
          rfl
    · cases produced

/-- A block the worker makes less than a period after the head is refused on
import: `Prepare` takes any slot after the head's and stamps the block with
the time it reads, while `verifyHeader` asks for a whole period between a
block and its parent. -/
theorem commitNewWork_block_refused_on_import (chain : Chain σ S τ ρ ε) (config : Config)
    (queue : TxQueue ι τ) (signer coinbase : Address) (signFn : List UInt8 → List UInt8)
    (pending : σ → ι) (reading : Reading σ) (later : List (Reading σ)) (budget : Nat)
    (period_pos : 0 < chain.config.Period)
    (inTurn : getSignerAtSlot chain.backend chain.config (some reading.head) reading.state
      (toFloat64 reading.now / toFloat64 chain.config.Period) = .ok signer)
    (after : reading.head.Time < reading.now)
    (early : reading.now < reading.head.Time + chain.config.Period)
    (known : chain.GetHeader (reading.head.Hash chain.backend.Keccak256) reading.head.Number =
      some reading.head)
    (importNow : UInt64) (late : reading.now ≤ importNow) (block : Block τ) (post : S × σ)
    (produced : commitNewWork chain config queue signer coinbase signFn pending (reading :: later)
      budget = .ok (some (block, post))) :
    insertBlock chain importNow block = .ok (.error (.engine .ErrInvalidTimestamp)) := by
  obtain ⟨parent, header, prepared, placed⟩ := position_of_commitNewWork produced
  rw [Prepare_of_inTurn later period_pos inTurn after] at prepared
  simp only [Except.ok.injEq, Prod.mk.injEq] at prepared
  obtain ⟨-, rfl⟩ := prepared
  -- the sealed block has the parent, number and time `Prepare` gave it
  simp only [Header.position, Prod.mk.injEq] at placed
  obtain ⟨parentHash, number, time⟩ := placed
  apply insertBlock_of_verifyHeader
  rw [parentHash, number, Nat.add_sub_cancel, known]
  exact verifyHeader_of_early chain.backend chain.config number parentHash (time ▸ late) (time ▸ early)

/-- On `soloChain`, whose genesis is at time 100 with slots of four seconds,
the worker woken at 101 is in turn in slot 25.25, after the genesis's slot 25,
and makes a block at 101 that the chain refuses. -/
theorem commitNewWork_block_refused_on_import_of_soloChain :
    commitNewWork soloChain ⟨0, 0, none, false⟩ (⟨fun _ => none, id, id⟩ : TxQueue Unit Unit)
        soloSigner soloSigner (fun _ => List.replicate 65 7) (fun _ => ()) [⟨soloGenesis, (), 101⟩] 0 =
      .ok (some (⟨{ soloBlock with Time := 101, GasLimit := CalcGasLimit soloGenesis 0 0 }, []⟩, ((), ()))) ∧
    insertBlock soloChain 101 ⟨{ soloBlock with Time := 101, GasLimit := CalcGasLimit soloGenesis 0 0 }, []⟩ =
      .ok (.error (.engine .ErrInvalidTimestamp)) := by
  have produced : commitNewWork soloChain ⟨0, 0, none, false⟩ (⟨fun _ => none, id, id⟩ : TxQueue Unit Unit)
        soloSigner soloSigner (fun _ => List.replicate 65 7) (fun _ => ()) [⟨soloGenesis, (), 101⟩] 0 =
      .ok (some (⟨{ soloBlock with Time := 101, GasLimit := CalcGasLimit soloGenesis 0 0 }, []⟩, ((), ()))) := by
    decide +kernel
  refine ⟨produced, ?_⟩
  exact commitNewWork_block_refused_on_import soloChain _ _ soloSigner soloSigner _ _ ⟨soloGenesis, (), 101⟩ []
    0 (by decide) (by decide +kernel) (by decide) (by decide) (by decide +kernel) 101 (by decide) _ _ produced

end Ebakus.Miner

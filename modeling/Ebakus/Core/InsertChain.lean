/-
# Importing a block (`core/blockchain.go`, `core/block_validator.go`,
`core/state_processor.go`)

`insertChain` takes each block through the engine's header check, the body
check with the seal, the state transition from the parent's states and the
check of its results, in this order. `Process` runs the transactions one
after another in the EVM context of the block, `NewEVMContext`: its author,
number, time, gas limit and parent. One transaction's run, the state roots and
the trie hash of a list are outside this model, the fields of `Vm`.

The import reads a header's delegate diff and its signature only through the
header's hash and the address its signature recovers.
-/

import Ebakus.Consensus.Dpos

namespace Ebakus.Core

open Ebakus.Lang Ebakus.Common Ebakus.Rlp Ebakus.Core.Types Ebakus.Consensus.Dpos

/-- `types.Block`: a header and the transactions of its body. -/
structure Block (τ : Type) where
  header : Header
  txs : List τ
  deriving DecidableEq

/-- `vm.Context`: what the EVM is told about the block it runs in. -/
structure BlockContext where
  Coinbase : Address
  BlockNumber : Nat
  Time : UInt64
  GasLimit : UInt64
  /-- `GetHashFn` starts its walk back at the parent. -/
  ParentHash : Hash
  deriving DecidableEq

/-- `NewEVMContext` for a block whose author is `author`. -/
def NewEVMContext (header : Header) (author : Address) : BlockContext :=
  ⟨author, header.Number, header.Time, header.GasLimit, header.ParentHash⟩

/-- The errors of one transaction that the miner tells apart. -/
inductive TxError (ε : Type)
  | ErrGasLimitReached
  | ErrNonceTooLow
  | ErrNonceTooHigh
  | other (err : ε)
  deriving DecidableEq

/-- The state transition and the hashes, outside the modelled code. `S` is a
state database, `σ` an ebakus snapshot, `τ` a transaction, `ρ` a receipt.

`ApplyTransaction ctx gp usedGas statedb ebakusState tx` gives the gas pool
after the call, whether it failed or not, and on success the states, the
receipt and the gas the transaction used. -/
structure Vm (S σ τ ρ ε : Type) where
  ApplyTransaction : BlockContext → UInt64 → UInt64 → S → σ → τ →
    UInt64 × Except (TxError ε) (S × σ × ρ × UInt64)
  AddBalance : S → Address → Nat → S
  IntermediateRoot : S → Hash
  /-- `trie.Hash` of the trie from each index to the item's encoding. -/
  DeriveSha : List (List UInt8) → Hash
  EncodeTx : τ → List UInt8
  EncodeReceipt : ρ → List UInt8
  /-- `LogsBloom` of the receipt's logs, as a number. -/
  LogsBloom : ρ → Nat
  Protected : τ → Bool

section Vm

variable {S σ τ ρ ε : Type} (vm : Vm S σ τ ρ ε)

/-- `types.DeriveSha` of a list of transactions. -/
def Vm.DeriveShaTxs (txs : List τ) : Hash :=
  vm.DeriveSha (txs.map vm.EncodeTx)

/-- `types.DeriveSha` of a list of receipts. -/
def Vm.DeriveShaReceipts (receipts : List ρ) : Hash :=
  vm.DeriveSha (receipts.map vm.EncodeReceipt)

/-- `types.EmptyRootHash`, `DeriveSha(Transactions{})`. -/
def Vm.EmptyRootHash : Hash :=
  vm.DeriveShaTxs []

/-- `types.CreateBloom`: the union of the receipts' log blooms. -/
def Vm.CreateBloom (receipts : List ρ) : Bloom :=
  Bloom.ofArray (bigBytes (receipts.foldl (fun bin receipt => bin ||| vm.LogsBloom receipt) 0))

/-- `DPOS.AccumulateRewards`: the block reward to the coinbase. -/
def Vm.AccumulateRewards (state : S) (coinbase : Address) : S :=
  vm.AddBalance state coinbase (3171 * 10 ^ 14)

/-- `types.NewBlock` on a header whose delegate diff `FinalizeAndAssemble`
has set: the transaction root, and with receipts their root and bloom. -/
def Vm.NewBlock (header : Header) (txs : List τ) (receipts : List ρ) : Block τ :=
  let header := { header with TxHash := if txs.isEmpty then vm.EmptyRootHash else vm.DeriveShaTxs txs }
  let header := if receipts.isEmpty then { header with ReceiptHash := vm.EmptyRootHash }
    else { header with ReceiptHash := vm.DeriveShaReceipts receipts, Bloom := vm.CreateBloom receipts }
  ⟨header, txs⟩

/-- `NewBlock` keeps the header's place in the chain. -/
theorem Vm.position_NewBlock (header : Header) (txs : List τ) (receipts : List ρ) :
    (vm.NewBlock header txs receipts).header.position = header.position := by
  by_cases empty : receipts.isEmpty <;> simp [Vm.NewBlock, empty, Header.position]

/-- The loop of `Process` from gas pool `gp` with `usedGas` used so far: the
first failure fails the block. -/
def Vm.applyTransactions (ctx : BlockContext) :
    UInt64 → UInt64 → S → σ → List τ → Except (TxError ε) (S × σ × List ρ × UInt64)
  | _, usedGas, statedb, ebakusState, [] => .ok (statedb, ebakusState, [], usedGas)
  | gp, usedGas, statedb, ebakusState, tx :: txs =>
    match vm.ApplyTransaction ctx gp usedGas statedb ebakusState tx with
    | (_, .error err) => .error err
    | (gp, .ok (statedb, ebakusState, receipt, gas)) =>
      (Vm.applyTransactions ctx gp (usedGas + gas) statedb ebakusState txs).map
        fun (statedb, ebakusState, receipts, usedGas) => (statedb, ebakusState, receipt :: receipts, usedGas)

/-- `StateProcessor.Process`: the block's transactions from the block's gas
limit, then `Finalize`, which pays the reward. -/
def Vm.Process (block : Block τ) (statedb : S) (ebakusState : σ) (coinbase : Address) :
    Except (TxError ε) (List ρ × UInt64 × S × σ) :=
  match vm.applyTransactions (NewEVMContext block.header coinbase) block.header.GasLimit 0
      statedb ebakusState block.txs with
  | .error err => .error err
  | .ok (statedb, ebakusState, receipts, usedGas) =>
    .ok (receipts, usedGas, vm.AccumulateRewards statedb coinbase, ebakusState)

end Vm

/-- The chain a block is imported into: the engine's backend and
configuration, the lookups of `BlockChain`, and the state transition. -/
structure Chain (σ S τ ρ ε : Type) where
  backend : Backend σ
  config : DPOSConfig
  HasBlockAndState : Hash → Nat → Bool
  HasBlock : Hash → Nat → Bool
  GetHeader : Hash → Nat → Option Header
  GetHeaderByHash : Hash → Option Header
  /-- `EbakusStateAt`: the snapshot `rawdb.ReadSnapshot` names for a block. -/
  EbakusStateAt : Hash → Nat → Option σ
  /-- `state.New` at a state root. -/
  StateAt : Hash → Option S
  vm : Vm S σ τ ρ ε

/-- Why a block is not imported. -/
inductive ImportError (ε : Type)
  | engine (err : EngineError)
  | ErrKnownBlock
  | ErrPrunedAncestor
  /-- "transaction root hash mismatch" -/
  | txRootMismatch
  /-- `state.New` finds no state at the parent's root. -/
  | stateMissing
  /-- "State snapshot for parent block not found" -/
  | snapshotMissing
  | process (err : TxError ε)
  /-- "invalid gas used" -/
  | invalidGasUsed
  /-- "invalid bloom" -/
  | invalidBloom
  /-- "invalid receipt root hash" -/
  | invalidReceiptRoot
  /-- "invalid merkle root" -/
  | invalidMerkleRoot
  deriving DecidableEq

variable {σ S τ ρ ε : Type}

/-- `BlockValidator.ValidateBody`: an unknown block, signed by the delegate in
turn (`VerifyBlock`), whose transactions have its root, on a parent whose
state is kept. -/
def ValidateBody (chain : Chain σ S τ ρ ε) (block : Block τ) : Go (Except (ImportError ε) Unit) := do
  let header := block.header
  if chain.HasBlockAndState (header.Hash chain.backend.Keccak256) header.Number then
    return .error .ErrKnownBlock
  match ← verifySeal chain.backend chain.config chain.EbakusStateAt
      (chain.GetHeaderByHash header.ParentHash) header with
  | .error err => return .error (.engine err)
  | .ok () =>
    if chain.vm.DeriveShaTxs block.txs ≠ header.TxHash then return .error .txRootMismatch
    if ¬chain.HasBlockAndState header.ParentHash (header.Number - 1) then
      if ¬chain.HasBlock header.ParentHash (header.Number - 1) then
        return .error (.engine .ErrUnknownAncestor)
      return .error .ErrPrunedAncestor
    return .ok ()

/-- `BlockValidator.ValidateState`: the block's gas used, bloom, receipt root
and state root are those of the transition. -/
def ValidateState (chain : Chain σ S τ ρ ε) (block : Block τ) (statedb : S) (receipts : List ρ)
    (usedGas : UInt64) : Except (ImportError ε) Unit :=
  if block.header.GasUsed ≠ usedGas then .error .invalidGasUsed
  else if chain.vm.CreateBloom receipts ≠ block.header.Bloom then .error .invalidBloom
  else if chain.vm.DeriveShaReceipts receipts ≠ block.header.ReceiptHash then .error .invalidReceiptRoot
  else if chain.vm.IntermediateRoot statedb ≠ block.header.Root then .error .invalidMerkleRoot
  else .ok ()

/-- `CalcGasLimit`: the gas limit of the block after `parent`, moved towards
the miner's floor and ceiling. -/
def CalcGasLimit (parent : Header) (gasFloor gasCeil : UInt64) : UInt64 :=
  let GasLimitBoundDivisor : UInt64 := 1024
  let MinGasLimit : UInt64 := 5000
  let contrib := (parent.GasUsed + parent.GasUsed / 2) / GasLimitBoundDivisor
  let decay := parent.GasLimit / GasLimitBoundDivisor - 1
  let limit := parent.GasLimit - decay + contrib
  let limit := if limit < MinGasLimit then MinGasLimit else limit
  if limit < gasFloor then
    let limit := parent.GasLimit + decay
    if limit > gasFloor then gasFloor else limit
  else if limit > gasCeil then
    let limit := parent.GasLimit - decay
    if limit < gasCeil then gasCeil else limit
  else limit

/-- One block of `insertChain`, the first of its batch, with the clock at
`now`: the states after it, ready for `writeBlockWithState`. -/
def insertBlock (chain : Chain σ S τ ρ ε) (now : UInt64) (block : Block τ) :
    Go (Except (ImportError ε) (S × σ)) := do
  let header := block.header
  -- `VerifyHeaders` gives the first block of a batch the parent the chain knows
  let parent := chain.GetHeader header.ParentHash (header.Number - 1)
  match verifyHeader chain.backend chain.config now parent header with
  | .error err => return .error (.engine err)
  | .ok () =>
    match ← ValidateBody chain block with
    | .error err => return .error err
    | .ok () =>
      let parent ← match parent with
        | some parent => pure parent
        | none => throw .nilDereference
      match chain.StateAt parent.Root with
      | none => return .error .stateMissing
      | some statedb =>
        match chain.EbakusStateAt header.ParentHash (header.Number - 1) with
        | none => return .error .snapshotMissing
        | some parentSnapshot =>
          match ecrecover chain.backend header with
          | .error err => return .error (.engine err)
          | .ok coinbase =>
            match chain.vm.Process block statedb parentSnapshot coinbase with
            | .error err => return .error (.process err)
            | .ok (receipts, usedGas, statedb, ebakusState) =>
              return (ValidateState chain block statedb receipts usedGas).map
                fun () => (statedb, ebakusState)


/-- A block whose header the engine refuses goes no further. -/
theorem insertBlock_of_verifyHeader {chain : Chain σ S τ ρ ε} {now : UInt64} {block : Block τ}
    {err : EngineError}
    (refused : verifyHeader chain.backend chain.config now
      (chain.GetHeader block.header.ParentHash (block.header.Number - 1)) block.header = .error err) :
    insertBlock chain now block = .ok (.error (.engine err)) := by
  simp only [insertBlock, refused]
  rfl

/-! ### What the import reads of a header

Apart from its hash and the signer its signature recovers, the import reads
nothing of a header's delegate diff or signature: a block signed again with
another diff goes through every check as the block did. -/

section Resign

variable (chain : Chain σ S τ ρ ε) (header : Header) (diff : List DelegateItem)
  (signature : List UInt8)

/-- `verifyHeader` reads neither the delegate diff nor the signature. -/
@[simp] theorem verifyHeader_resign (now : UInt64) (parent : Option Header) :
    verifyHeader chain.backend chain.config now parent
        { header with DelegateDiff := diff, Signature := signature } =
      verifyHeader chain.backend chain.config now parent header :=
  rfl

/-- `verifySeal` reads the signature through the signer it recovers only. -/
theorem verifySeal_resign (stateAt : Hash → Nat → Option σ) (parent : Option Header)
    (resigned : ecrecover chain.backend { header with DelegateDiff := diff, Signature := signature } =
      ecrecover chain.backend header) :
    verifySeal chain.backend chain.config stateAt parent
        { header with DelegateDiff := diff, Signature := signature } =
      verifySeal chain.backend chain.config stateAt parent header := by
  simp only [verifySeal, resigned]

/-- `ValidateBody` reads the delegate diff and the signature through the
header's hash and the recovered signer. -/
theorem ValidateBody_resign (txs : List τ)
    (resigned : ecrecover chain.backend { header with DelegateDiff := diff, Signature := signature } =
      ecrecover chain.backend header)
    (known : chain.HasBlockAndState
        (Header.Hash chain.backend.Keccak256 { header with DelegateDiff := diff, Signature := signature })
        header.Number =
      chain.HasBlockAndState (header.Hash chain.backend.Keccak256) header.Number) :
    ValidateBody chain ⟨{ header with DelegateDiff := diff, Signature := signature }, txs⟩ =
      ValidateBody chain ⟨header, txs⟩ := by
  simp only [ValidateBody, known, verifySeal_resign chain header diff signature _ _ resigned]

/-- `Process` runs in the context of the header's author, number, time, gas
limit and parent. -/
@[simp] theorem Process_resign (txs : List τ) (statedb : S) (ebakusState : σ) (coinbase : Address) :
    chain.vm.Process ⟨{ header with DelegateDiff := diff, Signature := signature }, txs⟩ statedb
        ebakusState coinbase =
      chain.vm.Process ⟨header, txs⟩ statedb ebakusState coinbase :=
  rfl

/-- `ValidateState` checks the gas used, the bloom and the two roots. -/
@[simp] theorem ValidateState_resign (txs : List τ) (statedb : S) (receipts : List ρ)
    (usedGas : UInt64) :
    ValidateState chain ⟨{ header with DelegateDiff := diff, Signature := signature }, txs⟩ statedb
        receipts usedGas =
      ValidateState chain ⟨header, txs⟩ statedb receipts usedGas :=
  rfl

/-- The whole import of a block signed again, by the same signer, with another
delegate diff goes as the import of the block. -/
theorem insertBlock_resign (now : UInt64) (txs : List τ)
    (resigned : ecrecover chain.backend { header with DelegateDiff := diff, Signature := signature } =
      ecrecover chain.backend header)
    (known : chain.HasBlockAndState
        (Header.Hash chain.backend.Keccak256 { header with DelegateDiff := diff, Signature := signature })
        header.Number =
      chain.HasBlockAndState (header.Hash chain.backend.Keccak256) header.Number) :
    insertBlock chain now ⟨{ header with DelegateDiff := diff, Signature := signature }, txs⟩ =
      insertBlock chain now ⟨header, txs⟩ := by
  have body := ValidateBody_resign chain header diff signature txs resigned known
  simp only [insertBlock] at body ⊢
  rw [body, resigned]
  rfl

end Resign

/-- An imported block was not known before. -/
theorem not_known_of_insertBlock {chain : Chain σ S τ ρ ε} {now : UInt64} {block : Block τ}
    {result : S × σ} (accepted : insertBlock chain now block = .ok (.ok result)) :
    chain.HasBlockAndState (block.header.Hash chain.backend.Keccak256) block.header.Number = false := by
  by_contra known
  rw [Bool.not_eq_false] at known
  have body : ValidateBody chain block = .ok (.error .ErrKnownBlock) := by
    simp only [ValidateBody, known, if_true]
    rfl
  simp only [insertBlock] at accepted
  split at accepted
  · cases accepted
  · simp [body, bind, Except.bind, pure, Except.pure] at accepted

/-- The delegate diff of an imported block is not checked: the block signed
again by the same signer with any other diff, not yet known to the chain, is
imported with the same states. -/
theorem insertBlock_accepts_any_DelegateDiff (chain : Chain σ S τ ρ ε) (now : UInt64)
    (block : Block τ) (diff : List DelegateItem) (signature : List UInt8) (result : S × σ)
    (accepted : insertBlock chain now block = .ok (.ok result))
    (resigned : ecrecover chain.backend { block.header with DelegateDiff := diff, Signature := signature } =
      ecrecover chain.backend block.header)
    (fresh : chain.HasBlockAndState
        (Header.Hash chain.backend.Keccak256 { block.header with DelegateDiff := diff, Signature := signature })
        block.header.Number = false) :
    insertBlock chain now ⟨{ block.header with DelegateDiff := diff, Signature := signature }, block.txs⟩ =
      .ok (.ok result) := by
  have known := not_known_of_insertBlock accepted
  rw [insertBlock_resign chain block.header diff signature now block.txs resigned (fresh.trans known.symm)]
  exact accepted

/-! ### A chain of one delegate -/

/-- The address a signature of sevens recovers to under `soloBackend`. -/
def soloSigner : Address :=
  BytesToAddress (List.replicate 20 7)

/-- A backend in which the hash of bytes is their last thirty-two and a
signature recovers to its own bytes, with `soloSigner` as the only witness. -/
def soloBackend : Backend Unit where
  Keccak256 := BytesToHash
  Ecrecover := fun _ signature => some signature
  witnessesByStake := fun _ => [(soloSigner, ⟨0, Ebakus.Core.Vm.ElectEnabledFlag⟩)]

/-- The genesis block of `soloChain`. -/
def soloGenesis : Header :=
  { Header.empty with Time := 100 }

/-- A chain that holds `soloGenesis` with its states, in slots of four
seconds with one delegate; its transactions never apply. -/
def soloChain : Chain Unit Unit Unit Unit Unit where
  backend := soloBackend
  config := ⟨4, 1, 0, 1⟩
  HasBlockAndState := fun hash _ => hash = soloGenesis.Hash BytesToHash
  HasBlock := fun hash _ => hash = soloGenesis.Hash BytesToHash
  GetHeader := fun hash _ => if hash = soloGenesis.Hash BytesToHash then some soloGenesis else none
  GetHeaderByHash := fun hash => if hash = soloGenesis.Hash BytesToHash then some soloGenesis else none
  EbakusStateAt := fun _ _ => some ()
  StateAt := fun _ => some ()
  vm := ⟨fun _ gp _ _ _ _ => (gp, .error (.other ())), fun statedb _ _ => statedb, fun _ => BytesToHash [],
    fun _ => BytesToHash [], fun _ => [], fun _ => [], fun _ => 0, fun _ => false⟩

/-- The empty block `soloSigner` makes on `soloGenesis` a period later. -/
def soloBlock : Header :=
  { Header.empty with
    ParentHash := soloGenesis.Hash BytesToHash, Number := 1, Time := 104,
    Signature := List.replicate 65 7 }

/-- `soloBlock` is imported; so is `soloBlock` with a delegate diff that
names an address that is no witness, although the delegates after the genesis
and after the block are both `soloSigner` alone, so that `FinalizeAndAssemble`
writes an empty diff. -/
theorem insertBlock_accepts_any_DelegateDiff_of_soloBlock :
    let diff : List DelegateItem := [⟨0, BytesToAddress [1], 0⟩]
    GetDelegates soloBackend (some soloGenesis) () 1 0 1 = .ok [soloSigner] ∧
      GetDelegates soloBackend (some soloBlock) () 1 0 1 = .ok [soloSigner] ∧
      WitnessArray.Diff [soloSigner] [soloSigner] = [] ∧
      insertBlock soloChain 104 ⟨soloBlock, []⟩ = .ok (.ok ((), ())) ∧
      insertBlock soloChain 104 ⟨{ soloBlock with DelegateDiff := diff, Signature := soloBlock.Signature }, []⟩ =
        .ok (.ok ((), ())) := by
  intro diff
  have accepted : insertBlock soloChain 104 ⟨soloBlock, []⟩ = .ok (.ok ((), ())) := by
    decide +kernel
  have resigned : ecrecover soloChain.backend
      { soloBlock with DelegateDiff := diff, Signature := soloBlock.Signature } =
      ecrecover soloChain.backend soloBlock := by
    decide +kernel
  have fresh : soloChain.HasBlockAndState
      (Header.Hash soloChain.backend.Keccak256
        { soloBlock with DelegateDiff := diff, Signature := soloBlock.Signature }) soloBlock.Number = false := by
    decide +kernel
  refine ⟨by decide +kernel, by decide +kernel, by decide, accepted, ?_⟩
  exact insertBlock_accepts_any_DelegateDiff soloChain 104 ⟨soloBlock, []⟩ diff soloBlock.Signature ((), ())
    accepted resigned fresh

end Ebakus.Core

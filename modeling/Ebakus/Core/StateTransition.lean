/-
# Applying a transaction (`core/state_transition.go`, `core/state_processor.go`)

`ApplyTransaction` turns a transaction into a message and runs the state
transition: the nonce check, the purchase of the gas from the block's gas
pool, the intrinsic gas, the EVM call or creation, and the refund of the gas
left to the sender and to the pool. What the EVM does with the call and how
the state database stores accounts are outside this model, the fields of
`StateOps` and `Evm`.

The purchase comes before the intrinsic gas is charged: a transaction that
fails there, or whose value transfer fails in the EVM, has taken its gas from
the pool and gives none of it back.
-/

import Ebakus.Core.InsertChain

namespace Ebakus.Core

open Ebakus.Common

/-- `params.TxGas`. -/
def TxGas : UInt64 := 21000

/-- `params.TxGasContractCreation`. -/
def TxGasContractCreation : UInt64 := 53000

/-- `params.TxDataZeroGas`. -/
def TxDataZeroGas : UInt64 := 4

/-- `params.TxDataNonZeroGasEIP2028`. -/
def TxDataNonZeroGasEIP2028 : UInt64 := 16

/-- The errors of the EVM that a state transition tells apart. -/
inductive VmError
  | ErrOutOfGas
  | ErrInsufficientBalance
  /-- Any error of the execution that does not fail the transaction. -/
  | other
  deriving DecidableEq, Repr

/-- The errors of a transaction besides those of `TxError`. -/
inductive TransitionError
  /-- `Sender` cannot recover the signer. -/
  | invalidSender
  | errInsufficientBalanceForGas
  | ErrOutOfGas
  | ErrInsufficientBalance
  deriving DecidableEq, Repr

/-- `IntrinsicGas`: the gas of a transaction before it runs, with the checks
that the data's cost fits in a `uint64`. -/
def IntrinsicGas (data : List UInt8) (contractCreation : Bool) : Except VmError UInt64 :=
  let gas := if contractCreation then TxGasContractCreation else TxGas
  if data.length = 0 then .ok gas
  else
    let nz := (data.filter (· ≠ 0)).length.toUInt64
    if (UInt64.ofNat (2 ^ 64 - 1) - gas) / TxDataNonZeroGasEIP2028 < nz then .error .ErrOutOfGas
    else
      let gas := gas + nz * TxDataNonZeroGasEIP2028
      let z := data.length.toUInt64 - nz
      if (UInt64.ofNat (2 ^ 64 - 1) - gas) / TxDataZeroGas < z then .error .ErrOutOfGas
      else .ok (gas + z * TxDataZeroGas)

/-- `types.txdata` without the signature values, which only `Sender` reads. -/
structure Transaction where
  AccountNonce : UInt64
  WorkNonce : UInt64
  GasLimit : UInt64
  Recipient : Option Address
  Amount : Nat
  Payload : List UInt8
  deriving DecidableEq

/-- `types.Message`. -/
structure Message where
  From : Address
  To : Option Address
  GasPrice : Nat
  Gas : UInt64
  Value : Nat
  Nonce : UInt64
  CheckNonce : Bool
  Data : List UInt8
  deriving DecidableEq

/-- `Transaction.AsMessage`: no gas price, the nonce checked, and the sender
`Sender` recovers, if it does. -/
def Transaction.AsMessage (Sender : Transaction → Option Address) (tx : Transaction) :
    Option Message :=
  (Sender tx).map fun sender =>
    ⟨sender, tx.Recipient, 0, tx.GasLimit, tx.Amount, tx.AccountNonce, true, tx.Payload⟩

/-- What a state transition reads and writes of the state database. -/
structure StateOps (S : Type) where
  GetNonce : S → Address → UInt64
  SetNonce : S → Address → UInt64 → S
  GetBalance : S → Address → Nat
  AddBalance : S → Address → Nat → S
  SubBalance : S → Address → Nat → S
  GetRefund : S → UInt64
  /-- `Finalise(true)`, after each transaction. -/
  Finalise : S → S

/-- `evm.Call` and `evm.Create`: the states after the call, the gas left and
the error of the execution. -/
structure Evm (S σ : Type) where
  Call : BlockContext → S → σ → Address → Address → List UInt8 → UInt64 → Nat →
    S × σ × UInt64 × Option VmError
  Create : BlockContext → S → σ → Address → List UInt8 → UInt64 → Nat →
    S × σ × UInt64 × Option VmError

/-- The outside pieces of `ApplyTransaction`: the state database, the EVM,
signer recovery, and the receipt of a transaction from the state after it,
whether it failed, the cumulative gas and the gas it used. -/
structure Transition (S σ ρ : Type) where
  ops : StateOps S
  evm : Evm S σ
  Sender : Transaction → Option Address
  NewReceipt : S → Transaction → Bool → UInt64 → UInt64 → ρ

variable {S σ ρ : Type}

/-- `StateTransition.TransitionDb` from the gas pool `gp`: the pool after it,
whether it failed or not, and on success the states, the gas used and whether
the execution failed. -/
def TransitionDb (ops : StateOps S) (evm : Evm S σ) (ctx : BlockContext) (gp : UInt64)
    (statedb : S) (ebakusState : σ) (msg : Message) :
    UInt64 × Except (TxError TransitionError) (S × σ × UInt64 × Bool) :=
  -- `preCheck`
  let nonce := ops.GetNonce statedb msg.From
  if msg.CheckNonce ∧ nonce < msg.Nonce then (gp, .error .ErrNonceTooHigh)
  else if msg.CheckNonce ∧ msg.Nonce < nonce then (gp, .error .ErrNonceTooLow)
  -- `buyGas`
  else if ops.GetBalance statedb msg.From < msg.Gas.toNat * msg.GasPrice then
    (gp, .error (.other .errInsufficientBalanceForGas))
  else if gp < msg.Gas then (gp, .error .ErrGasLimitReached)
  else
    let gp := gp - msg.Gas
    let statedb := ops.SubBalance statedb msg.From (msg.Gas.toNat * msg.GasPrice)
    match IntrinsicGas msg.Data msg.To.isNone with
    | .error _ => (gp, .error (.other .ErrOutOfGas))
    | .ok intrinsic =>
      -- `useGas`
      if msg.Gas < intrinsic then (gp, .error (.other .ErrOutOfGas))
      else
        let (statedb, ebakusState, gasLeft, vmerr) := match msg.To with
          | none => evm.Create ctx statedb ebakusState msg.From msg.Data (msg.Gas - intrinsic) msg.Value
          | some recipient =>
            evm.Call ctx (ops.SetNonce statedb msg.From (ops.GetNonce statedb msg.From + 1)) ebakusState
              msg.From recipient msg.Data (msg.Gas - intrinsic) msg.Value
        if vmerr = some .ErrInsufficientBalance then (gp, .error (.other .ErrInsufficientBalance))
        else
          -- `refundGas`, then the fee to the coinbase
          let refund := min ((msg.Gas - gasLeft) / 2) (ops.GetRefund statedb)
          let gasLeft := gasLeft + refund
          let statedb := ops.AddBalance statedb msg.From (gasLeft.toNat * msg.GasPrice)
          let statedb := ops.AddBalance statedb ctx.Coinbase ((msg.Gas - gasLeft).toNat * msg.GasPrice)
          (gp + gasLeft, .ok (statedb, ebakusState, msg.Gas - gasLeft, vmerr.isSome))

/-- `core.ApplyTransaction` with `usedGas` used in the block so far: the pool
after it, and on success the finalised states, the receipt and the gas used. -/
def Transition.ApplyTransaction (tr : Transition S σ ρ) (ctx : BlockContext) (gp usedGas : UInt64)
    (statedb : S) (ebakusState : σ) (tx : Transaction) :
    UInt64 × Except (TxError TransitionError) (S × σ × ρ × UInt64) :=
  match tx.AsMessage tr.Sender with
  | none => (gp, .error (.other .invalidSender))
  | some msg =>
    match TransitionDb tr.ops tr.evm ctx gp statedb ebakusState msg with
    | (gp, .error err) => (gp, .error err)
    | (gp, .ok (statedb, ebakusState, gas, failed)) =>
      let statedb := tr.ops.Finalise statedb
      (gp, .ok (statedb, ebakusState, tr.NewReceipt statedb tx failed (usedGas + gas) gas, gas))

/-- A message that can pay for its gas, but whose gas is below its intrinsic
gas, fails after taking its gas from the pool. -/
theorem TransitionDb_of_short (ops : StateOps S) (evm : Evm S σ) (ctx : BlockContext) (gp : UInt64)
    (statedb : S) (ebakusState : σ) (msg : Message) (nonce : ops.GetNonce statedb msg.From = msg.Nonce)
    (funded : msg.Gas.toNat * msg.GasPrice ≤ ops.GetBalance statedb msg.From) (pooled : msg.Gas ≤ gp)
    (short : ∀ intrinsic, IntrinsicGas msg.Data msg.To.isNone = .ok intrinsic → msg.Gas < intrinsic) :
    TransitionDb ops evm ctx gp statedb ebakusState msg = (gp - msg.Gas, .error (.other .ErrOutOfGas)) := by
  have paid : ¬ops.GetBalance statedb msg.From < msg.Gas.toNat * msg.GasPrice := Nat.not_lt.mpr funded
  have inPool : ¬gp < msg.Gas := UInt64.not_lt.mpr pooled
  simp only [TransitionDb, nonce, UInt64.lt_irrefl, and_false, ↓reduceIte, paid, inPool]
  -- the intrinsic gas is charged after the purchase, whatever it is
  split
  · rfl
  · rename_i intrinsic computed
    rw [if_pos (short intrinsic computed)]

/-- `ApplyTransaction` of such a transaction. -/
theorem Transition.ApplyTransaction_of_short (tr : Transition S σ ρ) (ctx : BlockContext)
    (gp usedGas : UInt64) (statedb : S) (ebakusState : σ) (tx : Transaction) (sender : Address)
    (signed : tr.Sender tx = some sender) (nonce : tr.ops.GetNonce statedb sender = tx.AccountNonce)
    (pooled : tx.GasLimit ≤ gp)
    (short : ∀ intrinsic, IntrinsicGas tx.Payload tx.Recipient.isNone = .ok intrinsic →
      tx.GasLimit < intrinsic) :
    tr.ApplyTransaction ctx gp usedGas statedb ebakusState tx =
      (gp - tx.GasLimit, .error (.other .ErrOutOfGas)) := by
  have message : tx.AsMessage tr.Sender =
      some ⟨sender, tx.Recipient, 0, tx.GasLimit, tx.Amount, tx.AccountNonce, true, tx.Payload⟩ := by
    simp [Transaction.AsMessage, signed]
  simp only [Transition.ApplyTransaction, message]
  rw [TransitionDb_of_short tr.ops tr.evm ctx gp statedb ebakusState _ nonce (by simp) pooled short]

end Ebakus.Core

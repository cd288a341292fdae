/-
# The delegated proof-of-stake engine (`consensus/dpos/dpos.go`)

Blocks are made in slots of `Period` seconds. The delegates of a block are
the witnesses with election enabled and the most stake in the ebakus state of
its parent; when there are more of them than `DelegateCount`, the last place
goes to a bonus delegate drawn with the hash of the slot. The delegate whose
turn it is in a slot signs the block, and the block carries the changes to the
list of delegates that it makes.

Go computes slots in `float64`. The model computes them exactly in `ℚ`; the
two agree wherever the quotients are short binary fractions, as they are at
every input this development evaluates.
-/

import Mathlib.Data.Rat.Floor
import Ebakus.Core.Types.Block
import Ebakus.Core.Vm.EbakusState

namespace Ebakus.Consensus.Dpos

open Ebakus.Lang Ebakus.Common Ebakus.Rlp Ebakus.Core.Types Ebakus.Core.Vm

/-- `params.DPOSConfig`: the fields the engine reads. -/
structure DPOSConfig where
  Period : UInt64
  DelegateCount : UInt64
  BonusDelegateCount : UInt64
  TurnBlockCount : UInt64
  deriving DecidableEq, Repr

/-- `blockPeriod`, the period of a configuration that has none. -/
def blockPeriod : UInt64 := 1

/-- The configuration `New` keeps: a period of zero becomes `blockPeriod`. -/
def New (config : DPOSConfig) : DPOSConfig :=
  if config.Period = 0 then { config with Period := blockPeriod } else config

/-- The errors the engine returns. -/
inductive EngineError
  | errUnknownBlock
  | ErrFutureBlock
  | ErrUnknownAncestor
  | ErrInvalidTimestamp
  | errUnauthorized
  | errMissingSignature
  | ErrProductionAborted
  | ErrWaitForTransactions
  /-- `crypto.Ecrecover` failed on the signature. -/
  | recoverFailed
  /-- `EbakusStateAt` has no state for the block. -/
  | ebakusStateMissing
  deriving DecidableEq, Repr

/-- The text of each error. -/
def EngineError.message : EngineError → String
  | .errUnknownBlock => "unknown block"
  | .ErrFutureBlock => "block in the future"
  | .ErrUnknownAncestor => "unknown ancestor"
  | .ErrInvalidTimestamp => "invalid timestamp"
  | .errUnauthorized => "unauthorized"
  | .errMissingSignature => "65 byte signature missing"
  | .ErrProductionAborted => "Production aborted"
  | .ErrWaitForTransactions => "Sealing paused, waiting for transactions"
  | .recoverFailed => "invalid signature"
  | .ebakusStateMissing => "Verify seal failed to get ebakus state"

/-- What the engine takes from outside the modelled code: Keccak-256, public
key recovery from a signature, and the rows of the witnesses table of an
ebakus snapshot in the order of its `Stake DESC` index. -/
structure Backend (σ : Type) where
  Keccak256 : List UInt8 → Hash
  Ecrecover : Hash → List UInt8 → Option (List UInt8)
  witnessesByStake : σ → List (Address × Witness)

/-! ### Slots -/

/-- A `uint64` converted to `float64`, exactly. -/
def toFloat64 (n : UInt64) : ℚ :=
  n.toNat

/-- A non-negative `float64` converted to `uint64`: its integer part. -/
def float64ToUint64 (x : ℚ) : UInt64 :=
  (⌊x⌋₊).toUInt64

/-- A whole number of seconds, divided into slots and multiplied back. -/
theorem float64ToUint64_slot (t period : UInt64) (period_pos : 0 < period) :
    float64ToUint64 (toFloat64 t / toFloat64 period * toFloat64 period) = t := by
  have nonzero : (toFloat64 period) ≠ 0 := by
    unfold toFloat64
    exact_mod_cast (UInt64.lt_iff_toNat_lt.mp period_pos).ne'
  rw [float64ToUint64, div_mul_cancel₀ _ nonzero, toFloat64, Nat.floor_natCast, Nat.toUInt64_eq,
    UInt64.ofNat_toNat]

/-- Slots are ordered as the times they divide. -/
theorem slot_lt_slot_iff {t u period : UInt64} (period_pos : 0 < period) :
    toFloat64 t / toFloat64 period < toFloat64 u / toFloat64 period ↔ t < u := by
  have positive : (0 : ℚ) < toFloat64 period := by
    unfold toFloat64
    exact_mod_cast UInt64.lt_iff_toNat_lt.mp period_pos
  rw [div_lt_div_iff_of_pos_right positive, toFloat64, toFloat64, Nat.cast_lt,
    UInt64.lt_iff_toNat_lt]

/-! ### Delegates -/

/-- `bits.Len64`: the number of bits of `x`. -/
def Len64 (x : UInt64) : Nat :=
  if x = 0 then 0 else x.toNat.log2 + 1

/-- The number `uniformRandom` reads from `bitsRequired` bits of the hash from
bit `startBit` on, the first bit lowest. -/
def uniformRandomDraw (hash : Hash) (bitsRequired startBit : Nat) : UInt64 :=
  (List.range bitsRequired).foldl (fun rand i =>
    let b := hash.bytes.getD ((startBit + i) / 8 % HashLength) 0
    let p : UInt8 := ((startBit + i) % 8).toUInt8
    rand + ((b &&& (1 <<< p)) >>> p).toUInt64 <<< i.toUInt64) 0

/-- One pass of the loop of `uniformRandom`, at `startBit`: a draw below
`max` is taken, and past the last byte of the hash the draw is reduced modulo
`max`; otherwise `none`, and the next starting bit is tried. -/
def uniformRandomStep (max : UInt64) (hash : Hash) (bitsRequired startBit : Nat) :
    Option (Go UInt64) :=
  let rand := uniformRandomDraw hash bitsRequired startBit
  if rand < max then some (.ok rand)
  else if HashLength ≤ startBit / 8 then
    some (if max = 0 then .error .integerDivideByZero else .ok (rand % max))
  else none

/-- The loop of `uniformRandom` from `startBit`, with `fuel` more passes. -/
def uniformRandomLoop (max : UInt64) (hash : Hash) (bitsRequired : Nat) :
    Nat → Nat → Go UInt64
  | fuel, startBit =>
    match uniformRandomStep max hash bitsRequired startBit, fuel with
    | some result, _ => result
    -- not reached from `uniformRandom`: the pass at the last starting bit stops
    | none, 0 => .ok 0
    | none, fuel + 1 => uniformRandomLoop max hash bitsRequired fuel (startBit + 1)

/-- `uniformRandom`: a number below `max` read from the bits of `hash`. -/
def uniformRandom (max : UInt64) (hash : Hash) : Go UInt64 :=
  uniformRandomLoop max hash (Len64 (max - 1)) (8 * HashLength) 0

/-- `vm.DelegateVotingGetDelegates`: the first `maxWitnesses` witnesses with
election enabled, in the order the snapshot lists them. -/
def DelegateVotingGetDelegates (rows : List (Address × Witness)) (maxWitnesses : UInt64) :
    List Address :=
  loop rows 0
where
  /-- The iteration over the rows with `i` witnesses taken so far. -/
  loop : List (Address × Witness) → UInt64 → List Address
    | [], _ => []
    | (id, w) :: rest, i =>
      if i < maxWitnesses then
        if w.flags &&& ElectEnabledFlag = 0 then loop rest i else id :: loop rest (i + 1)
      else []

variable {σ : Type}

/-- `GetDelegates`: the delegates of the block after `header`, from the
snapshot of `header`'s state. With more candidates than `maxWitnesses` the
last place is drawn among the rest with the hash of the next slot. -/
def GetDelegates (backend : Backend σ) (header : Option Header) (snap : σ)
    (maxWitnesses maxBonusWitnesses turnBlockCount : UInt64) : Go (List Address) := do
  let maxWitnessesToLoad :=
    if 0 < maxBonusWitnesses then maxWitnesses + maxBonusWitnesses else maxWitnesses
  let delegates := DelegateVotingGetDelegates (backend.witnessesByStake snap) maxWitnessesToLoad
  if maxWitnesses.toNat < delegates.length then
    -- `delegates[maxWitnesses-1:]`, with `maxWitnesses - 1` computed in `uint64`
    let cut := (maxWitnesses - 1).toNat
    if delegates.length < cut then throw .sliceBoundsOutOfRange
    let bonusCandidateDelegates := delegates.drop cut
    let time ← match header with
      | some header => pure header.Time
      | none => throw .nilDereference
    if turnBlockCount = 0 then throw .integerDivideByZero
    let slot := (time + 1) / turnBlockCount
    let rand ← uniformRandom bonusCandidateDelegates.length.toUInt64
      (backend.Keccak256 (putBigEndianUint64 slot))
    match bonusCandidateDelegates[rand.toNat]? with
    | some bonus => pure (delegates.take cut ++ [bonus])
    | none => throw .indexOutOfRange
  else
    pure delegates

/-- `vm.WitnessArray.Diff`, over the ids of the witnesses. -/
def WitnessArray.Diff (a b : List Address) : List DelegateItem :=
  diffBy id a b

/-- The diff does not record the length of the new list: all the lists that
begin the old one have the same, empty, diff. -/
theorem WitnessArray.Diff_forgets_shrinking (a b b' : List Address) (nodup : a.Nodup)
    (pre : b <+: a) (pre' : b' <+: a) : WitnessArray.Diff a b = WitnessArray.Diff a b' := by
  have ids : (a.map id).Nodup := by simpa using nodup
  rw [WitnessArray.Diff, WitnessArray.Diff, diffBy_eq_nil_of_prefix id ids pre,
    diffBy_eq_nil_of_prefix id ids pre']

/-- Two delegates, one of whom drops out: the list of one and the list of two
have the same diff from the list of two. -/
theorem WitnessArray.Diff_forgets_shrinking_of_two :
    let a := [BytesToAddress [1], BytesToAddress [2]]
    a.Nodup ∧ [BytesToAddress [1]] ≠ a ∧ a.length ≤ 256 ∧
      WitnessArray.Diff a [BytesToAddress [1]] = WitnessArray.Diff a a := by
  intro a
  have nodup : a.Nodup := by decide
  exact ⟨nodup, by decide, by decide,
    WitnessArray.Diff_forgets_shrinking a _ a nodup ⟨[BytesToAddress [2]], rfl⟩ (List.prefix_refl a)⟩

/-- `getSignerAtSlot`: the delegate whose turn it is in `slot`, or the zero
address when there is none. -/
def getSignerAtSlot (backend : Backend σ) (config : DPOSConfig) (header : Option Header)
    (state : σ) (slot : ℚ) : Go Address := do
  let delegates ← GetDelegates backend header state config.DelegateCount
    config.BonusDelegateCount config.TurnBlockCount
  if config.DelegateCount = 0 ∨ config.TurnBlockCount = 0 then
    return Address.zero
  let slot := slot / toFloat64 config.TurnBlockCount
  let s := ⌊slot⌋₊ % config.DelegateCount.toNat
  return delegates.getD s Address.zero

/-! ### Signatures -/

/-- `encodeSigHeader`: the fields the signature covers, the delegate diff as
a list of its own. -/
def encodeSigHeader (header : Header) : List UInt8 :=
  encodeList (encodeString header.ParentHash.bytes ++ encodeString header.Root.bytes ++
    encodeString header.TxHash.bytes ++ encodeString header.ReceiptHash.bytes ++
    encodeString header.Bloom.bytes ++ writeBigInt header.Number ++ writeUint header.GasLimit ++
    writeUint header.GasUsed ++ writeUint header.Time ++
    encodeList (header.DelegateDiff.map DelegateItem.EncodeRLP).flatten)

/-- `sigHash`. -/
def sigHash (backend : Backend σ) (header : Header) : Hash :=
  backend.Keccak256 (encodeSigHeader header)

/-- `ecrecover`: the address whose key signed the header. -/
def ecrecover (backend : Backend σ) (header : Header) : Except EngineError Address :=
  if header.Signature.length < 65 then .error .errMissingSignature
  else
    match backend.Ecrecover (sigHash backend header) header.Signature with
    | none => .error .recoverFailed
    | some pubkey => .ok (BytesToAddress (backend.Keccak256 (pubkey.drop 1)).bytes)

/-! ### Producing a block -/

/-- What one pass of the loop of `Prepare` reads: the head of the chain, the
ebakus state of the head, and the clock. -/
structure Reading (σ : Type) where
  head : Header
  state : σ
  now : UInt64

/-- One pass of the loop of `Prepare`: when the signer is in turn in a slot
after the head's, the head and the header to seal on it. -/
def prepareAt (backend : Backend σ) (config : DPOSConfig) (signer : Address) (reading : Reading σ) :
    Go (Option (Header × Header)) := do
  let headSlot := toFloat64 reading.head.Time / toFloat64 config.Period
  let slot := toFloat64 reading.now / toFloat64 config.Period
  let inTurnSigner ← getSignerAtSlot backend config (some reading.head) reading.state slot
  if headSlot < slot ∧ signer = inTurnSigner then
    -- the header's number is the head's plus one, never the genesis number
    return some (reading.head, { Header.empty with
      ParentHash := reading.head.Hash backend.Keccak256
      Number := reading.head.Number + 1
      Time := float64ToUint64 (slot * toFloat64 config.Period) })
  else
    return none

/-- `Prepare`: pass after pass, each at the start of a slot after the last,
until the signer is in turn; aborted when the readings run out. -/
def Prepare (backend : Backend σ) (config : DPOSConfig) (signer : Address) :
    List (Reading σ) → Go (Except EngineError (Header × Header))
  | [] => return .error .ErrProductionAborted
  | reading :: later => do
    match ← prepareAt backend config signer reading with
    | some prepared => return .ok prepared
    | none => Prepare backend config signer later

/-- `FinalizeAndAssemble`: the rewarded state's root, and the changes from the
delegates after the parent to the delegates after the block. -/
def FinalizeAndAssemble (backend : Backend σ) (config : DPOSConfig) (SuspendEmptyBlocks : Bool)
    (txCount : Nat) (parent : Option Header) (oldEbakusState : Option σ) (ebakusState : σ)
    (root : Hash) (header : Header) : Go (Except EngineError Header) := do
  if SuspendEmptyBlocks ∧ txCount = 0 then return .error .ErrWaitForTransactions
  let header := { header with Root := root }
  match oldEbakusState with
  | none => return .error .errUnknownBlock
  | some oldEbakusState =>
    let oldDelegates ← GetDelegates backend parent oldEbakusState config.DelegateCount
      config.BonusDelegateCount config.TurnBlockCount
    let newDelegates ← GetDelegates backend (some header) ebakusState config.DelegateCount
      config.BonusDelegateCount config.TurnBlockCount
    return .ok { header with DelegateDiff := WitnessArray.Diff oldDelegates newDelegates }

/-- `Seal`: the signer's signature over the signed fields. -/
def Seal (signFn : List UInt8 → List UInt8) (parent : Option Header) (header : Header) :
    Except EngineError Header :=
  if header.Number = 0 then .error .errUnknownBlock
  else
    match parent with
    | none => .error .ErrUnknownAncestor
    | some _ => .ok { header with Signature := signFn (encodeSigHeader header) }

/-- The pass of `Prepare` at a time after the head's, in a slot in which the
signer is in turn, prepares a header on the head stamped with that time. -/
theorem prepareAt_of_inTurn {backend : Backend σ} {config : DPOSConfig} {signer : Address}
    {reading : Reading σ} (period_pos : 0 < config.Period)
    (inTurn : getSignerAtSlot backend config (some reading.head) reading.state
      (toFloat64 reading.now / toFloat64 config.Period) = .ok signer)
    (after : reading.head.Time < reading.now) :
    prepareAt backend config signer reading = .ok (some (reading.head, { Header.empty with
      ParentHash := reading.head.Hash backend.Keccak256
      Number := reading.head.Number + 1
      Time := reading.now })) := by
  have later := (slot_lt_slot_iff period_pos).mpr after
  simp only [prepareAt, inTurn, later, float64ToUint64_slot reading.now config.Period period_pos,
    bind, Except.bind, true_and, if_true]
  rfl

/-- `Prepare` stops at its first pass. -/
theorem Prepare_of_inTurn {backend : Backend σ} {config : DPOSConfig} {signer : Address}
    {reading : Reading σ} (later : List (Reading σ)) (period_pos : 0 < config.Period)
    (inTurn : getSignerAtSlot backend config (some reading.head) reading.state
      (toFloat64 reading.now / toFloat64 config.Period) = .ok signer)
    (after : reading.head.Time < reading.now) :
    Prepare backend config signer (reading :: later) = .ok (.ok (reading.head, { Header.empty with
      ParentHash := reading.head.Hash backend.Keccak256
      Number := reading.head.Number + 1
      Time := reading.now })) := by
  simp only [Prepare, prepareAt_of_inTurn period_pos inTurn after]
  rfl

/-- `FinalizeAndAssemble` sets the root and the delegate diff only. -/
theorem position_of_FinalizeAndAssemble {backend : Backend σ} {config : DPOSConfig}
    {SuspendEmptyBlocks : Bool} {txCount : Nat} {parent : Option Header} {oldEbakusState : Option σ}
    {ebakusState : σ} {root : Hash} {header finalized : Header}
    (assembled : FinalizeAndAssemble backend config SuspendEmptyBlocks txCount parent oldEbakusState
      ebakusState root header = .ok (.ok finalized)) :
    finalized.position = header.position := by
  unfold FinalizeAndAssemble at assembled
  split at assembled
  · cases assembled
  · split at assembled
    · cases assembled
    · obtain ⟨_, -, assembled⟩ := bind_eq_ok assembled
      obtain ⟨_, -, assembled⟩ := bind_eq_ok assembled
      cases assembled
      rfl

/-- `Seal` sets the signature only. -/
theorem position_of_Seal {signFn : List UInt8 → List UInt8} {parent : Option Header}
    {header sealed : Header} (signed : Seal signFn parent header = .ok sealed) :
    sealed.position = header.position := by
  unfold Seal at signed
  split at signed
  · cases signed
  · split at signed
    · cases signed
    · cases signed
      rfl

/-! ### Importing a block -/

/-- `verifyHeader`: a block from the past, on its parent, a whole period after it. -/
def verifyHeader (backend : Backend σ) (config : DPOSConfig) (now : UInt64)
    (parent : Option Header) (header : Header) : Except EngineError Unit :=
  if now < header.Time then .error .ErrFutureBlock
  else if header.Number = 0 then .ok ()
  else
    match parent with
    | none => .error .ErrUnknownAncestor
    | some parent =>
      if parent.Number ≠ header.Number - 1 ∨ parent.Hash backend.Keccak256 ≠ header.ParentHash then
        .error .ErrUnknownAncestor
      else if header.Time < parent.Time + config.Period then .error .ErrInvalidTimestamp
      else .ok ()

/-- A header on its parent less than a period after it is refused, once its
time has come. -/
theorem verifyHeader_of_early (backend : Backend σ) (config : DPOSConfig) {now : UInt64}
    {parent header : Header} (number : header.Number = parent.Number + 1)
    (parentHash : header.ParentHash = parent.Hash backend.Keccak256) (past : header.Time ≤ now)
    (early : header.Time < parent.Time + config.Period) :
    verifyHeader backend config now (some parent) header = .error .ErrInvalidTimestamp := by
  have notFuture : ¬now < header.Time := UInt64.not_lt.mpr past
  simp [verifyHeader, notFuture, number, parentHash, early]

/-- `verifySeal`: the block is signed by the delegate in turn in the slot of
its time, as the parent's state decides. -/
def verifySeal (backend : Backend σ) (config : DPOSConfig) (stateAt : Hash → Nat → Option σ)
    (parentHeader : Option Header) (header : Header) : Go (Except EngineError Unit) := do
  if header.Number = 0 then return .ok ()
  let slot := toFloat64 header.Time / toFloat64 config.Period
  match stateAt header.ParentHash (header.Number - 1) with
  | none => return .error .ebakusStateMissing
  | some ebakusState =>
    let signer ← getSignerAtSlot backend config parentHeader ebakusState slot
    return (do
      let blockSigner ← ecrecover backend header
      if blockSigner ≠ signer then .error .errUnauthorized else .ok ())

end Ebakus.Consensus.Dpos

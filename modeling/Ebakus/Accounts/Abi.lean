/-
# Contract ABI decoding (`accounts/abi`)

The precompiles decode their call data with the ABI package: a four-byte
method selector picks the method, and `UnpackWithArguments` reads each input
argument from its 32-byte head word. Static arguments are read in place;
strings, byte strings and slices follow the offset in their head word to a
length word and the data after it. Every read is guarded by a length check
that returns an error instead of slicing out of range.

Only the argument types that the system and database contracts declare are
modelled: `uint64`, `bool`, `address`, `bytesN`, `string`, `bytes` and slices
of these. The parsed ABI of a contract is a list of methods with their
selectors; a selector is the first four bytes of the Keccak-256 hash of the
method's signature.
-/

import Ebakus.Common.Types

namespace Ebakus.Accounts.Abi

open Ebakus.Common

/-- `new(big.Int).SetBytes(b)`: the big-endian value of a byte string. -/
def bytesToNat (b : List UInt8) : Nat :=
  b.foldl (fun acc byte => acc * 256 + byte.toNat) 0

/-- The 32-byte big-endian word of a number below `2^256` (`math.U256` and
`PaddedBigBytes`). -/
def packNum (n : Nat) : List UInt8 :=
  (List.range 32).reverse.map fun k => UInt8.ofNat (n / 2 ^ (8 * k) % 256)

@[simp]
theorem length_packNum (n : Nat) : (packNum n).length = 32 := by
  simp [packNum]

/-- The ABI types of the arguments the modelled contracts declare. -/
inductive AbiType
  | uint64
  | bool
  | address
  | fixedBytes (size : Nat)
  | string
  | bytes
  | slice (elem : AbiType)
  deriving DecidableEq, Repr

/-- Decoded argument values. A Go string is a byte string. -/
inductive AbiValue
  | uint64 (value : UInt64)
  | bool (value : Bool)
  | address (value : Address)
  | fixedBytes (value : List UInt8)
  | string (value : List UInt8)
  | bytes (value : List UInt8)
  | slice (values : List AbiValue)

/-- The errors the decoder returns; each names the check that failed. -/
inductive AbiError
  | emptyOutput
  | improperlyFormatted
  | lengthInsufficient
  | offsetOverBoundary
  | offsetTooLarge
  | lengthTooLarge
  | arrayOverBoundary
  | badBool
  | dataTooShort
  | noMethodWithId
  deriving DecidableEq, Repr

/-- `readBool`: the first 31 bytes are zero and the last is 0 or 1. -/
def readBool (word : List UInt8) : Except AbiError Bool :=
  if (word.take 31).all (· == 0) then
    match word[31]? with
    | some last => if last = 0 then .ok false else if last = 1 then .ok true else .error .badBool
    | none => .error .badBool
  else .error .badBool

/-- `lengthPrefixPointsTo`: follow the offset word at `index` to a length word;
returns where the data starts and how long it is. -/
def lengthPrefixPointsTo (index : Nat) (output : List UInt8) : Except AbiError (Nat × Nat) :=
  let offsetEnd := bytesToNat ((output.drop index).take 32) + 32
  if output.length < offsetEnd then .error .offsetOverBoundary
  else if 2 ^ 63 ≤ offsetEnd then .error .offsetTooLarge
  else
    let length := bytesToNat ((output.drop (offsetEnd - 32)).take 32)
    let totalSize := offsetEnd + length
    if 2 ^ 63 ≤ totalSize then .error .lengthTooLarge
    else if output.length < totalSize then .error .lengthInsufficient
    else .ok (offsetEnd, length)

/-- `getTypeSize` of an element that is not a static array or tuple. -/
def elemSize : Nat := 32

/-- `toGoType`: decode one value of type `t` whose head word is at `index`. -/
def toGoType (index : Nat) (t : AbiType) (output : List UInt8) : Except AbiError AbiValue :=
  if output.length < index + 32 then .error .lengthInsufficient
  else
    let word := (output.drop index).take 32
    match t with
    | .uint64 => .ok (.uint64 (UInt64.ofNat (bytesToNat (word.drop 24))))
    | .bool => (readBool word).map .bool
    | .address => .ok (.address (BytesToAddress word))
    | .fixedBytes size => .ok (.fixedBytes (word.take size))
    | .string => (lengthPrefixPointsTo index output).map fun (begin, length) =>
        .string ((output.drop begin).take length)
    | .bytes => (lengthPrefixPointsTo index output).map fun (begin, length) =>
        .bytes ((output.drop begin).take length)
    | .slice elem => do
        let (begin, length) ← lengthPrefixPointsTo index output
        -- `forEachUnpack` over `output[begin:]`
        let rest := output.drop begin
        if rest.length < 32 * length then .error .arrayOverBoundary
        else
          let values ← (List.range length).mapM fun j => toGoType (j * elemSize) elem rest
          .ok (.slice values)

/-- `Arguments.UnpackValues`: one head word per argument, in order. -/
def unpackValues (arguments : List AbiType) (data : List UInt8) : Except AbiError (List AbiValue) :=
  (List.range arguments.length).zip arguments |>.mapM fun (index, t) => toGoType (index * 32) t data

/-- `Arguments.Unpack`. -/
def argumentsUnpack (arguments : List AbiType) (data : List UInt8) :
    Except AbiError (List AbiValue) :=
  if data.isEmpty then
    if arguments.isEmpty then .ok [] else .error .emptyOutput
  else unpackValues arguments data

/-- A method of a parsed ABI. -/
structure Method where
  name : String
  inputs : List AbiType
  id : List UInt8

/-- `ABI.MethodById`. -/
def MethodById (abi : List Method) (sigdata : List UInt8) : Except AbiError Method :=
  if sigdata.length < 4 then .error .dataTooShort
  else match abi.find? (fun method => method.id == sigdata.take 4) with
    | some method => .ok method
    | none => .error .noMethodWithId

/-- `ABI.UnpackWithArguments` for the inputs of a method. -/
def UnpackWithArguments (method : Method) (data : List UInt8) : Except AbiError (List AbiValue) :=
  if data.isEmpty then .error .emptyOutput
  else if data.length % 32 ≠ 0 then .error .improperlyFormatted
  else argumentsUnpack method.inputs data

/-- `packBytesSlice`: the length word, then the data right-padded to whole words. -/
def packBytesSlice (bytes : List UInt8) : List UInt8 :=
  packNum bytes.length ++ RightPadBytes bytes ((bytes.length + 31) / 32 * 32)

/-- `Arguments.Pack` of a single dynamic `string` or `bytes` value: the offset
word, then the value. -/
def packDynamic (bytes : List UInt8) : List UInt8 :=
  packNum 32 ++ packBytesSlice bytes

end Ebakus.Accounts.Abi

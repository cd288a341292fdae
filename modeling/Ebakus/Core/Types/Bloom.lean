/-
# Bloom filters of logs (`core/types/bloom9.go`)

A block's header carries a 2048-bit filter of its logs. `bloom9` of a byte
string sets the three bits that the first three pairs of bytes of its
Keccak-256 hash pick; `CreateBloom` or-s together `bloom9` of the address
and of every topic of every log of a block's receipts, and `BloomLookup`
asks whether a filter has every bit that `bloom9` gives a value.

Keccak-256 is a parameter of the model: any function that returns thirty-two
bytes. A filter is the 256-byte array of `Ebakus.Core.Types.Block`, read as a
big-endian number, and a `big.Int` is a natural number. Of a log the model
keeps what the filters read: its address, its topics and its block number.

A filter has no false negatives: `Add` never panics, and afterwards `Test`
finds the value it added as well as everything it found before; the filter
`CreateBloom` builds finds the address and every topic of every log.
-/

import Ebakus.Core.Types.Block
import Ebakus.Lang.BitSet

namespace Ebakus.Core.Types

open Ebakus.Lang Ebakus.Common Ebakus.Rlp

/-! ### Big-endian numbers -/

theorem bigEndian_append (xs ys : List UInt8) :
    Stream.bigEndian (xs ++ ys) = Stream.bigEndian xs * 256 ^ ys.length + Stream.bigEndian ys := by
  induction ys using List.reverseRecOn with
  | nil => rw [List.append_nil, List.length_nil, Nat.pow_zero, Nat.mul_one, Stream.bigEndian_nil, Nat.add_zero]
  | append_singleton ys y ih =>
    rw [← List.append_assoc, Stream.bigEndian_append_single, ih, Stream.bigEndian_append_single,
      List.length_append, List.length_singleton, Nat.pow_succ]
    ring

theorem bigEndian_lt (ys : List UInt8) : Stream.bigEndian ys < 256 ^ ys.length := by
  induction ys using List.reverseRecOn with
  | nil => exact Nat.one_pos
  | append_singleton ys y ih =>
    rw [Stream.bigEndian_append_single, List.length_append, List.length_singleton, Nat.pow_succ]
    have byte := y.toNat_lt
    omega

/-- A number is below `256` to the count of its bytes. -/
theorem lt_bigBytes (n : Nat) : n < 256 ^ (bigBytes n).length := by
  induction n using Nat.strongRecOn with
  | ind n ih =>
    rcases Nat.eq_zero_or_pos n with rfl | pos
    · exact Nat.one_pos
    · have below := ih (n / 256) (Nat.div_lt_self pos (by decide))
      rw [bigBytes_of_pos pos, List.length_append, List.length_singleton, Nat.pow_succ]
      omega

/-! ### The filter -/

/-- `types.BloomBitLength`. -/
def BloomBitLength : Nat := 8 * BloomByteLength

/-- `crypto.Keccak256`: a hash of thirty-two bytes. -/
structure Keccak where
  hash : List UInt8 → List UInt8
  length_hash : ∀ b, (hash b).length = 32

/-- `bloom9`: the three bits, each below `2048`, that the first three pairs of
bytes of the hash pick. -/
def bloom9 (keccak : Keccak) (b : List UInt8) : Nat :=
  let b := keccak.hash b
  [0, 2, 4].foldl (fun r i => r ||| 1 <<< (((b.getD (i + 1) 0).toNat + ((b.getD i 0).toNat <<< 8)) &&& 2047)) 0

namespace Bloom

/-- The zero filter, `var bloom Bloom`. -/
def empty : Bloom :=
  ⟨List.replicate BloomByteLength 0, List.length_replicate⟩

/-- `Big`: the filter as a big-endian number. -/
def Big (b : Bloom) : Nat :=
  Stream.bigEndian b.bytes

/-- `SetBytes`: `d` copied into the low end of the filter, the bytes above it
kept; it panics when `d` is longer than the filter. -/
def SetBytes (b : Bloom) (d : List UInt8) : Go Bloom :=
  if long : BloomByteLength < d.length then
    throw (.explicit ("bloom bytes too big " ++ toString BloomByteLength ++ " " ++ toString d.length))
  else
    pure ⟨b.bytes.take (BloomByteLength - d.length) ++ d, by
      rw [List.length_append, List.length_take, b.length_eq]
      omega⟩

end Bloom

/-- `BytesToBloom`. -/
def BytesToBloom (b : List UInt8) : Go Bloom :=
  Bloom.empty.SetBytes b

/-- `BloomLookup`: whether the filter has every bit `bloom9` gives the topic. -/
def BloomLookup (keccak : Keccak) (bin : Bloom) (topic : List UInt8) : Bool :=
  let bloom := bin.Big
  let cmp := bloom9 keccak topic
  bloom &&& cmp == cmp

namespace Bloom

/-- `Add`. -/
def Add (keccak : Keccak) (b : Bloom) (d : Nat) : Go Bloom :=
  let bin := b.Big ||| bloom9 keccak (bigBytes d)
  b.SetBytes (bigBytes bin)

/-- `Test`: the lookup of the value's bytes. -/
def Test (keccak : Keccak) (b : Bloom) (test : Nat) : Bool :=
  BloomLookup keccak b (bigBytes test)

end Bloom

/-- `types.Log`, with the fields the filters read. -/
structure Log where
  Address : Address
  Topics : List Hash
  BlockNumber : Nat
  deriving DecidableEq

/-- `types.Receipt`, with its logs. -/
structure Receipt where
  Logs : List Log

/-- The body of the loop of `LogsBloom`: a log's address, then each topic. -/
def logStep (keccak : Keccak) (bin : Nat) (log : Log) : Nat :=
  log.Topics.foldl (fun bin b => bin ||| bloom9 keccak b.bytes) (bin ||| bloom9 keccak log.Address.bytes)

/-- `LogsBloom`: the bits of every log's address and topics. -/
def LogsBloom (keccak : Keccak) (logs : List Log) : Nat :=
  logs.foldl (logStep keccak) 0

/-- `CreateBloom`: the bits of every receipt's logs. -/
def CreateBloom (keccak : Keccak) (receipts : List Receipt) : Go Bloom :=
  BytesToBloom (bigBytes (receipts.foldl (fun bin receipt => bin ||| LogsBloom keccak receipt.Logs) 0))

/-! ### Filters are the numbers below `2^2048` -/

theorem bloom9_lt (keccak : Keccak) (b : List UInt8) : bloom9 keccak b < 2 ^ BloomBitLength := by
  -- each bit is a position below 2048, the `& 2047` a remainder
  have bit : ∀ x : Nat, 1 <<< (x &&& 2047) < 2 ^ BloomBitLength := by
    intro x
    rw [Nat.one_shiftLeft, show (2047 : Nat) = 2 ^ 11 - 1 from rfl, Nat.and_two_pow_sub_one_eq_mod]
    apply Nat.pow_lt_pow_right (by decide)
    have := Nat.mod_lt x (Nat.two_pow_pos 11)
    rw [BloomBitLength, BloomByteLength]
    omega
  unfold bloom9
  apply foldl_lt_two_pow fun _ _ below => Nat.or_lt_two_pow below (bit _)
  apply Nat.two_pow_pos

/-- A filter's bits are its bytes. -/
theorem two_pow_bits : (2 : Nat) ^ BloomBitLength = 256 ^ BloomByteLength := by
  rw [BloomBitLength, Nat.pow_mul]

theorem Bloom.Big_lt (b : Bloom) : b.Big < 2 ^ BloomBitLength := by
  have below := bigEndian_lt b.bytes
  rwa [b.length_eq, ← two_pow_bits] at below

/-- Writing the bytes of a number that the filter's bits lie within gives the
filter of that number. -/
theorem Bloom.SetBytes_bigBytes (b : Bloom) {n : Nat} (small : n < 2 ^ BloomBitLength) (within : b.Big ≤ n) :
    ∃ b', b.SetBytes (bigBytes n) = .ok b' ∧ b'.Big = n := by
  have short : (bigBytes n).length ≤ BloomByteLength :=
    length_bigBytes_le (two_pow_bits ▸ small)
  refine ⟨_, dif_neg (Nat.not_lt.mpr short), ?_⟩
  -- the bytes above the number's are zero, since the filter is no larger than the number
  have split := bigEndian_append (b.bytes.take (BloomByteLength - (bigBytes n).length))
    (b.bytes.drop (BloomByteLength - (bigBytes n).length))
  rw [List.take_append_drop, List.length_drop, b.length_eq,
    show BloomByteLength - (BloomByteLength - (bigBytes n).length) = (bigBytes n).length by omega] at split
  have high : Stream.bigEndian (b.bytes.take (BloomByteLength - (bigBytes n).length)) = 0 := by
    have bound := lt_bigBytes n
    have : Stream.bigEndian (b.bytes.take (BloomByteLength - (bigBytes n).length)) *
        256 ^ (bigBytes n).length < 256 ^ (bigBytes n).length := by
      unfold Bloom.Big at within
      omega
    by_contra nonzero
    have := Nat.le_mul_of_pos_left (256 ^ (bigBytes n).length) (Nat.pos_of_ne_zero nonzero)
    omega
  show Stream.bigEndian (b.bytes.take (BloomByteLength - (bigBytes n).length) ++ bigBytes n) = n
  rw [bigEndian_append, high, Nat.zero_mul, Nat.zero_add, bigEndian_bigBytes]

theorem BloomLookup_iff (keccak : Keccak) (bin : Bloom) (topic : List UInt8) :
    BloomLookup keccak bin topic = true ↔ Covers bin.Big (bloom9 keccak topic) := by
  rw [BloomLookup, beq_iff_eq, land_eq_iff_covers]

theorem Bloom.Big_empty : Bloom.empty.Big = 0 := by
  unfold Bloom.Big Bloom.empty
  dsimp only
  induction BloomByteLength with
  | zero => rfl
  | succ k ih => rw [List.replicate_succ', Stream.bigEndian_append_single, ih]; rfl

/-! ### No false negatives -/

/-- `Add` never panics: the filter it leaves has the old bits and the value's. -/
theorem Bloom.Add_eq (keccak : Keccak) (b : Bloom) (d : Nat) :
    ∃ b', b.Add keccak d = .ok b' ∧ b'.Big = b.Big ||| bloom9 keccak (bigBytes d) :=
  b.SetBytes_bigBytes (Nat.or_lt_two_pow b.Big_lt (bloom9_lt keccak _)) Nat.left_le_or

/-- `Add` never panics, and afterwards `Test` finds the value added and every
value it found before. -/
theorem Add_then_Test (keccak : Keccak) (b : Bloom) (d : Nat) :
    ∃ b', b.Add keccak d = .ok b' ∧ b'.Test keccak d = true ∧
      ∀ topic, BloomLookup keccak b topic = true → BloomLookup keccak b' topic = true := by
  obtain ⟨b', added, big⟩ := b.Add_eq keccak d
  refine ⟨b', added, ?_, fun topic found => ?_⟩
  · rw [Bloom.Test, BloomLookup_iff, big]
    exact Covers.lor_right _ _
  · rw [BloomLookup_iff] at found ⊢
    rw [big]
    exact (Covers.lor_left _ _).trans found

section Logs

variable (keccak : Keccak)

theorem logStep_lt {bin : Nat} (below : bin < 2 ^ BloomBitLength) (log : Log) :
    logStep keccak bin log < 2 ^ BloomBitLength :=
  foldl_lt_two_pow (fun _ _ below' => Nat.or_lt_two_pow below' (bloom9_lt keccak _)) _
    (Nat.or_lt_two_pow below (bloom9_lt keccak _))

theorem covers_logStep (bin : Nat) (log : Log) :
    Covers (logStep keccak bin log) (bin ||| bloom9 keccak log.Address.bytes) :=
  covers_foldl (fun bin (b : Hash) => Covers.lor_left bin (bloom9 keccak b.bytes)) _ _

theorem logStep_grows (bin : Nat) (log : Log) : Covers (logStep keccak bin log) bin :=
  (covers_logStep keccak bin log).trans (Covers.lor_left _ _)

theorem covers_logStep_topic {log : Log} {t : Hash} (topic : t ∈ log.Topics) (bin : Nat) :
    Covers (logStep keccak bin log) (bloom9 keccak t.bytes) :=
  covers_foldl_of_mem (fun bin (b : Hash) => Covers.lor_left bin (bloom9 keccak b.bytes)) topic
    (fun bin => Covers.lor_right bin _) _

theorem LogsBloom_lt (logs : List Log) : LogsBloom keccak logs < 2 ^ BloomBitLength := by
  unfold LogsBloom
  apply foldl_lt_two_pow fun _ log below => logStep_lt keccak below log
  apply Nat.two_pow_pos

/-- `LogsBloom` has the bits of every log's address and topics. -/
theorem covers_LogsBloom {logs : List Log} {log : Log} (mem : log ∈ logs) :
    Covers (LogsBloom keccak logs) (bloom9 keccak log.Address.bytes) ∧
      ∀ t ∈ log.Topics, Covers (LogsBloom keccak logs) (bloom9 keccak t.bytes) :=
  ⟨covers_foldl_of_mem (logStep_grows keccak) mem
      (fun bin => (covers_logStep keccak bin log).trans (Covers.lor_right _ _)) _,
    fun _ topic => covers_foldl_of_mem (logStep_grows keccak) mem (covers_logStep_topic keccak topic) _⟩

/-- `CreateBloom` never panics, and its filter finds the address and every
topic of every log of the receipts. -/
theorem CreateBloom_finds (receipts : List Receipt) :
    ∃ bloom, CreateBloom keccak receipts = .ok bloom ∧ ∀ r ∈ receipts, ∀ log ∈ r.Logs,
      BloomLookup keccak bloom log.Address.bytes = true ∧ ∀ t ∈ log.Topics, BloomLookup keccak bloom t.bytes = true := by
  have small : receipts.foldl (fun bin receipt => bin ||| LogsBloom keccak receipt.Logs) 0 < 2 ^ BloomBitLength := by
    apply foldl_lt_two_pow fun _ _ below => Nat.or_lt_two_pow below (LogsBloom_lt keccak _)
    apply Nat.two_pow_pos
  have empty : Bloom.empty.Big ≤ receipts.foldl (fun bin receipt => bin ||| LogsBloom keccak receipt.Logs) 0 := by
    rw [Bloom.Big_empty]
    exact Nat.zero_le _
  obtain ⟨bloom, created, big⟩ := Bloom.empty.SetBytes_bigBytes small empty
  refine ⟨bloom, created, fun r receipt log mem => ?_⟩
  -- the block's bits cover each receipt's
  have block : Covers bloom.Big (LogsBloom keccak r.Logs) := by
    rw [big]
    exact covers_foldl_of_mem (fun bin (r : Receipt) => Covers.lor_left bin (LogsBloom keccak r.Logs)) receipt
      (fun bin => Covers.lor_right bin _) _
  obtain ⟨address, topics⟩ := covers_LogsBloom keccak mem
  exact ⟨(BloomLookup_iff keccak bloom _).mpr (block.trans address),
    fun t topic => (BloomLookup_iff keccak bloom t.bytes).mpr (block.trans (topics t topic))⟩

end Logs

end Ebakus.Core.Types

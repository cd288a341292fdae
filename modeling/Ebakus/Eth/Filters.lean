/-
# Log filters (`eth/filters/filter.go`)

A log filter has criteria: a block range, a list of addresses and a list of
topic positions, each a list of the topics allowed there. `filterLogs`
keeps the logs that meet them: within the range, emitted by one of the
addresses when the list is not empty, and with an allowed topic at every
position that names any. Before it reads a block's logs, the filter checks
the block's header filter with `bloomFilter`, and skips the block when that
check fails.

The check never skips a block that has a matching log: the header filter
`CreateBloom` builds finds the address and the topics of each of the block's
logs, and a matching log has an address and topics that the criteria name.
The bounds of the range are `big.Int`s the model takes within `int64`, or
`nil`.
-/

import Ebakus.Core.Types.Bloom

namespace Ebakus.Eth.Filters

open Ebakus.Lang Ebakus.Common Ebakus.Core.Types

/-- `includes`. -/
def includes (addresses : List Address) (a : Address) : Bool :=
  addresses.any (· == a)

/-- `filterLogs`: the logs within the range that meet the criteria. -/
def filterLogs (logs : List Log) (fromBlock toBlock : Option Int) (addresses : List Address)
    (topics : List (List Hash)) : List Log :=
  logs.filter fun log =>
    !(fromBlock.any fun b => 0 ≤ b && b.toNat > log.BlockNumber) &&
      !(toBlock.any fun b => 0 ≤ b && b.toNat < log.BlockNumber) &&
      !(addresses.length > 0 && !includes addresses log.Address) &&
      -- more topic positions than the log has topics: skipped
      !(topics.length > log.Topics.length) &&
      (topics.zip log.Topics).all fun (sub, topic) => sub.length == 0 || sub.any (topic == ·)

/-- `bloomFilter`: whether the header filter may hold a log that meets the criteria. -/
def bloomFilter (keccak : Keccak) (bloom : Bloom) (addresses : List Address) (topics : List (List Hash)) :
    Bool :=
  (addresses.length == 0 || addresses.any fun addr => BloomLookup keccak bloom addr.bytes) &&
    topics.all fun sub => sub.length == 0 || sub.any fun topic => BloomLookup keccak bloom topic.bytes

/-- What a log that `filterLogs` keeps has: its address among the addresses,
when they are named, and at every topic position that names topics, one of
them among its own topics. -/
theorem meets_of_mem_filterLogs {logs : List Log} {fromBlock toBlock : Option Int} {addresses : List Address}
    {topics : List (List Hash)} {log : Log} (kept : log ∈ filterLogs logs fromBlock toBlock addresses topics) :
    log ∈ logs ∧ (addresses.length = 0 ∨ log.Address ∈ addresses) ∧
      ∀ sub ∈ topics, sub.length = 0 ∨ ∃ topic ∈ sub, topic ∈ log.Topics := by
  rw [filterLogs, List.mem_filter] at kept
  obtain ⟨mem, meets⟩ := kept
  simp only [Bool.and_eq_true, Bool.not_eq_true', Bool.and_eq_false_iff, decide_eq_false_iff_not] at meets
  obtain ⟨⟨⟨-, address⟩, count⟩, positions⟩ := meets
  refine ⟨mem, ?_, fun sub inside => ?_⟩
  · rcases address with none | named
    · exact .inl (by omega)
    · have found : includes addresses log.Address = true := by simpa using named
      obtain ⟨a, listed, same⟩ := List.any_eq_true.mp found
      exact .inr (beq_iff_eq.mp same ▸ listed)
  · -- the position of `sub` pairs it with the log's topic there
    obtain ⟨i, within, rfl⟩ := List.getElem_of_mem inside
    have present : i < log.Topics.length := by omega
    have paired : (topics[i], log.Topics[i]) ∈ topics.zip log.Topics := by
      rw [List.mem_iff_getElem]
      exact ⟨i, by rw [List.length_zip]; omega, List.getElem_zip⟩
    have allowed := List.all_eq_true.mp positions _ paired
    simp only [Bool.or_eq_true, beq_iff_eq, List.any_eq_true] at allowed
    rcases allowed with empty | ⟨topic, chosen, same⟩
    · exact .inl empty
    · exact .inr ⟨topic, chosen, same ▸ List.getElem_mem _⟩

/-- The header filter of a block passes every criteria that one of the
block's logs meets: the log filter never skips a block that holds a log it
would return. -/
theorem bloomFilter_of_filterLogs (keccak : Keccak) (receipts : List Receipt) (fromBlock toBlock : Option Int)
    (addresses : List Address) (topics : List (List Hash)) {log : Log}
    (matched : log ∈ filterLogs (receipts.flatMap Receipt.Logs) fromBlock toBlock addresses topics) :
    ∃ bloom, CreateBloom keccak receipts = .ok bloom ∧ bloomFilter keccak bloom addresses topics = true := by
  obtain ⟨bloom, created, finds⟩ := CreateBloom_finds keccak receipts
  obtain ⟨mem, address, positions⟩ := meets_of_mem_filterLogs matched
  obtain ⟨r, receipt, inReceipt⟩ := List.mem_flatMap.mp mem
  obtain ⟨findsAddress, findsTopics⟩ := finds r receipt log inReceipt
  refine ⟨bloom, created, ?_⟩
  simp only [bloomFilter, Bool.and_eq_true, Bool.or_eq_true, beq_iff_eq, List.any_eq_true, List.all_eq_true]
  refine ⟨?_, fun sub inside => ?_⟩
  · rcases address with none | named
    · exact .inl none
    · exact .inr ⟨log.Address, named, findsAddress⟩
  · rcases positions sub inside with empty | ⟨topic, chosen, own⟩
    · exact .inl empty
    · exact .inr ⟨topic, chosen, findsTopics topic own⟩

/-- A block with one log, whose address and second topic the criteria name. -/
theorem bloomFilter_of_filterLogs_one_log :
    let keccak : Keccak := ⟨fun b => (b ++ List.replicate 32 0).take 32, fun b => by simp⟩
    let log : Log := ⟨BytesToAddress [1], [BytesToHash [2], BytesToHash [3]], 7⟩
    log ∈ filterLogs (([⟨[log]⟩] : List Receipt).flatMap Receipt.Logs) none (some 9) [BytesToAddress [1]]
        [[], [BytesToHash [3], BytesToHash [4]]] ∧
      ∃ bloom, CreateBloom keccak [⟨[log]⟩] = .ok bloom ∧
        bloomFilter keccak bloom [BytesToAddress [1]] [[], [BytesToHash [3], BytesToHash [4]]] = true := by
  intro keccak log
  have matched : log ∈ filterLogs (([⟨[log]⟩] : List Receipt).flatMap Receipt.Logs) none (some 9)
      [BytesToAddress [1]] [[], [BytesToHash [3], BytesToHash [4]]] := by
    decide
  exact ⟨matched, bloomFilter_of_filterLogs keccak _ _ _ _ _ matched⟩

end Ebakus.Eth.Filters

/-
# Choosing the delegates (`consensus/dpos/dpos.go`, `core/vm/contracts.go`)

`DelegateVotingGetDelegates` walks the witnesses table in the order of its
stake index and keeps the first witnesses that may be elected, up to a count.
`GetDelegates` loads the delegate count and the bonus count together; when
more are loaded than the delegate count, the last delegate place is drawn by
`uniformRandom` among the witnesses from that place on, with the hash of the
slot.

With the stake index listing every witness once, in order of stake, the
delegates are the electable witnesses of most stake, the last place drawn
among the next `BonusDelegateCount + 1` of them. This needs the two counts to
add up without wrapping round: `maxWitnesses + maxBonusWitnesses` is computed
in `uint64`.
-/

import Ebakus.Consensus.Dpos

namespace Ebakus.Consensus.Dpos

open Ebakus.Lang Ebakus.Common Ebakus.Core.Types Ebakus.Core.Vm

/-- A row of the witnesses table whose witness may be elected. -/
def Electable (row : Address × Witness) : Bool :=
  row.2.flags &&& ElectEnabledFlag ≠ 0

/-- The loop of `DelegateVotingGetDelegates` with `i` witnesses taken keeps
the next electable witnesses up to the count. -/
theorem DelegateVotingGetDelegates_loop_eq (maxWitnesses : UInt64) (rows : List (Address × Witness)) (i : UInt64)
    (le : i ≤ maxWitnesses) :
    DelegateVotingGetDelegates.loop maxWitnesses rows i =
      ((rows.filter Electable).take (maxWitnesses.toNat - i.toNat)).map Prod.fst := by
  induction rows generalizing i with
  | nil => simp [DelegateVotingGetDelegates.loop]
  | cons row rest ih =>
    obtain ⟨id, w⟩ := row
    by_cases more : i < maxWitnesses
    · have less := UInt64.lt_iff_toNat_lt.mp more
      by_cases skipped : w.flags &&& ElectEnabledFlag = 0
      · have notElectable : Electable (id, w) = false := by simp [Electable, skipped]
        rw [DelegateVotingGetDelegates.loop, if_pos more, if_pos skipped, ih i le, List.filter_cons,
          notElectable]
        rfl
      · have electable : Electable (id, w) = true := by simp [Electable, skipped]
        have next : (i + 1).toNat = i.toNat + 1 := by
          have bound := UInt64.toNat_lt maxWitnesses
          rw [UInt64.toNat_add, UInt64.toNat_one]
          omega
        have room : maxWitnesses.toNat - i.toNat = (maxWitnesses.toNat - (i + 1).toNat) + 1 := by
          omega
        have within : i + 1 ≤ maxWitnesses := by
          rw [UInt64.le_iff_toNat_le, next]
          omega
        rw [DelegateVotingGetDelegates.loop, if_pos more, if_neg skipped,
          ih (i + 1) within, List.filter_cons, electable, if_pos rfl, room,
          List.take_succ_cons, List.map_cons]
    · have full : i = maxWitnesses := UInt64.le_antisymm le (UInt64.not_lt.mp more)
      subst full
      simp [DelegateVotingGetDelegates.loop]

/-- `DelegateVotingGetDelegates`: the first `maxWitnesses` electable witnesses
in the order of the rows. -/
theorem DelegateVotingGetDelegates_eq (rows : List (Address × Witness)) (maxWitnesses : UInt64) :
    DelegateVotingGetDelegates rows maxWitnesses =
      ((rows.filter Electable).take maxWitnesses.toNat).map Prod.fst := by
  rw [DelegateVotingGetDelegates, DelegateVotingGetDelegates_loop_eq maxWitnesses rows 0 UInt64.zero_le]
  rfl

/-- A pass of `uniformRandom` that stops gives a number below `max`. -/
theorem uniformRandomStep_lt {max : UInt64} {hash : Hash} {bitsRequired startBit : Nat}
    {result : Go UInt64} (pos : 0 < max)
    (stepped : uniformRandomStep max hash bitsRequired startBit = some result) :
    ∃ r, result = .ok r ∧ r < max := by
  simp only [uniformRandomStep] at stepped
  split_ifs at stepped with below atEnd zero
  · cases stepped
    exact ⟨_, rfl, below⟩
  · exact absurd zero (UInt64.pos_iff_ne_zero.mp pos)
  · cases stepped
    exact ⟨_, rfl, UInt64.mod_lt _ pos⟩

/-- The loop of `uniformRandom` gives a number below `max`, whatever its fuel. -/
theorem uniformRandomLoop_lt {max : UInt64} (hash : Hash) (bitsRequired : Nat) (pos : 0 < max)
    (fuel startBit : Nat) :
    ∃ r, uniformRandomLoop max hash bitsRequired fuel startBit = .ok r ∧ r < max := by
  induction fuel generalizing startBit with
  | zero =>
    cases stepped : uniformRandomStep max hash bitsRequired startBit with
    | none => exact ⟨0, by simp [uniformRandomLoop, stepped], pos⟩
    | some result =>
      unfold uniformRandomLoop
      simp only [stepped]
      exact uniformRandomStep_lt pos stepped
  | succ fuel ih =>
    cases stepped : uniformRandomStep max hash bitsRequired startBit with
    | none =>
      unfold uniformRandomLoop
      simp only [stepped]
      exact ih (startBit + 1)
    | some result =>
      unfold uniformRandomLoop
      simp only [stepped]
      exact uniformRandomStep_lt pos stepped

/-- `uniformRandom` of a positive bound gives a number below it. -/
theorem uniformRandom_lt {max : UInt64} (hash : Hash) (pos : 0 < max) :
    ∃ r, uniformRandom max hash = .ok r ∧ r < max :=
  uniformRandomLoop_lt hash _ pos _ _

/-- With one candidate no bit is read. -/
theorem uniformRandom_one (hash : Hash) : uniformRandom 1 hash = .ok 0 := by
  unfold uniformRandom uniformRandomLoop
  simp [uniformRandomStep, uniformRandomDraw, Len64]

/-- Past the last byte of the hash every pass stops. -/
theorem uniformRandomStep_isSome_of_end {max : UInt64} {hash : Hash} {bitsRequired startBit : Nat}
    (atEnd : 8 * HashLength ≤ startBit) : (uniformRandomStep max hash bitsRequired startBit).isSome := by
  have past : HashLength ≤ startBit / 8 := by
    rw [Nat.le_div_iff_mul_le (by decide)]
    omega
  simp only [uniformRandomStep]
  split_ifs <;> simp

/-- Passes that do not stop hand the remaining fuel on to the next starting bit. -/
theorem uniformRandomLoop_skip {max : UInt64} {hash : Hash} {bitsRequired : Nat} (fuel : Nat) :
    ∀ k startBit, (∀ i < k, uniformRandomStep max hash bitsRequired (startBit + i) = none) →
      uniformRandomLoop max hash bitsRequired (fuel + k) startBit =
        uniformRandomLoop max hash bitsRequired fuel (startBit + k)
  | 0, startBit, _ => rfl
  | k + 1, startBit, skipped => by
    have first : uniformRandomStep max hash bitsRequired startBit = none := skipped 0 (Nat.zero_lt_succ k)
    have rest := uniformRandomLoop_skip fuel k (startBit + 1) fun i below => by
      rw [Nat.add_assoc, Nat.add_comm 1 i]
      exact skipped (i + 1) (by omega)
    rw [← Nat.add_assoc]
    conv_lhs => unfold uniformRandomLoop
    simp only [first]
    rw [rest, Nat.add_assoc, Nat.add_comm 1 k]

/-- `uniformRandom` ends within 257 passes of its loop: the pass at the first
starting bit where a pass stops, which is at most 256, gives its result, and
the result is below `max`. -/
theorem uniformRandom_within_257_passes {max : UInt64} (hash : Hash) (pos : 1 ≤ max) :
    ∃ startBit ≤ 256, (∀ s < startBit, uniformRandomStep max hash (Len64 (max - 1)) s = none) ∧
      ∃ r, uniformRandomStep max hash (Len64 (max - 1)) startBit = some (.ok r) ∧
        uniformRandom max hash = .ok r ∧ r < max := by
  have stops : ∃ s, (uniformRandomStep max hash (Len64 (max - 1)) s).isSome :=
    ⟨256, uniformRandomStep_isSome_of_end (by decide)⟩
  -- The first starting bit at which a pass stops.
  obtain ⟨first, bounded, before, stops⟩ : ∃ first ≤ 256,
      (∀ s < first, uniformRandomStep max hash (Len64 (max - 1)) s = none) ∧
        (uniformRandomStep max hash (Len64 (max - 1)) first).isSome :=
    ⟨Nat.find stops, Nat.find_min' stops (uniformRandomStep_isSome_of_end (by decide)),
      fun s earlier => Option.not_isSome_iff_eq_none.mp (Nat.find_min stops earlier), Nat.find_spec stops⟩
  obtain ⟨result, stepped⟩ := Option.isSome_iff_exists.mp stops
  obtain ⟨r, rfl, below⟩ := uniformRandomStep_lt (UInt64.lt_of_lt_of_le UInt64.zero_lt_one pos) stepped
  refine ⟨first, bounded, before, r, stepped, ?_, below⟩
  have fuel : 8 * HashLength = (256 - first) + first := by
    rw [HashLength]
    omega
  rw [uniformRandom, fuel, uniformRandomLoop_skip _ first 0 (fun i lt => by simpa using before i lt),
    Nat.zero_add]
  unfold uniformRandomLoop
  simp only [stepped]

/-- Three candidates and the hash of thirty-two zero bytes. -/
theorem uniformRandom_within_257_passes_of_three :
    (1 : UInt64) ≤ 3 ∧ ∃ startBit ≤ 256,
      (∀ s < startBit, uniformRandomStep 3 ⟨List.replicate 32 0, rfl⟩ (Len64 (3 - 1)) s = none) ∧
      ∃ r, uniformRandomStep 3 ⟨List.replicate 32 0, rfl⟩ (Len64 (3 - 1)) startBit = some (.ok r) ∧
        uniformRandom 3 ⟨List.replicate 32 0, rfl⟩ = .ok r ∧ r < 3 :=
  ⟨by decide, uniformRandom_within_257_passes _ (by decide)⟩
variable {σ : Type}

/-- The ids of the electable witnesses of a snapshot, in the order of the
stake index. -/
def electableIds (backend : Backend σ) (snap : σ) : List Address :=
  ((backend.witnessesByStake snap).filter Electable).map Prod.fst

/-- The number of witnesses to load, when the two counts add up without
wrapping round. -/
theorem toNat_maxWitnessesToLoad {maxWitnesses maxBonusWitnesses : UInt64}
    (noWrap : maxWitnesses.toNat + maxBonusWitnesses.toNat < 2 ^ 64) :
    (if 0 < maxBonusWitnesses then maxWitnesses + maxBonusWitnesses else maxWitnesses).toNat =
      maxWitnesses.toNat + maxBonusWitnesses.toNat := by
  split
  · rw [UInt64.toNat_add]
    omega
  · rename_i zero
    have : maxBonusWitnesses = 0 := by
      rw [UInt64.pos_iff_ne_zero, not_not] at zero
      exact zero
    simp [this]

/-- With no more electable witnesses than delegate places, the delegates are
all of them. -/
theorem GetDelegates_of_few (backend : Backend σ) (header : Option Header) (snap : σ)
    (maxWitnesses maxBonusWitnesses turnBlockCount : UInt64)
    (noWrap : maxWitnesses.toNat + maxBonusWitnesses.toNat < 2 ^ 64)
    (few : (electableIds backend snap).length ≤ maxWitnesses.toNat) :
    GetDelegates backend header snap maxWitnesses maxBonusWitnesses turnBlockCount =
      .ok (electableIds backend snap) := by
  have loaded : DelegateVotingGetDelegates (backend.witnessesByStake snap)
      (if 0 < maxBonusWitnesses then maxWitnesses + maxBonusWitnesses else maxWitnesses) =
      electableIds backend snap := by
    rw [DelegateVotingGetDelegates_eq, toNat_maxWitnessesToLoad noWrap, List.map_take]
    apply List.take_of_length_le
    simp only [electableIds, List.length_map] at few ⊢
    omega
  have short : ¬maxWitnesses.toNat < (electableIds backend snap).length := by omega
  simp only [GetDelegates, loaded, short, if_false]
  rfl

/-- With more electable witnesses than delegate places, all places but the
last go to the first witnesses, and the last is drawn from the candidates
after them. -/
theorem GetDelegates_of_many (backend : Backend σ) (header : Header) (snap : σ)
    (maxWitnesses maxBonusWitnesses turnBlockCount : UInt64) (pos : 0 < maxWitnesses)
    (turns : 0 < turnBlockCount) (noWrap : maxWitnesses.toNat + maxBonusWitnesses.toNat < 2 ^ 64)
    (many : maxWitnesses.toNat < (electableIds backend snap).length) :
    let candidates := ((electableIds backend snap).drop (maxWitnesses.toNat - 1)).take
      (maxBonusWitnesses.toNat + 1)
    ∃ r bonus, uniformRandom candidates.length.toUInt64
        (backend.Keccak256 (putBigEndianUint64 ((header.Time + 1) / turnBlockCount))) = .ok r ∧
      candidates[r.toNat]? = some bonus ∧
      GetDelegates backend (some header) snap maxWitnesses maxBonusWitnesses turnBlockCount =
        .ok ((electableIds backend snap).take (maxWitnesses.toNat - 1) ++ [bonus]) := by
  intro candidates
  have loaded : DelegateVotingGetDelegates (backend.witnessesByStake snap)
      (if 0 < maxBonusWitnesses then maxWitnesses + maxBonusWitnesses else maxWitnesses) =
      (electableIds backend snap).take (maxWitnesses.toNat + maxBonusWitnesses.toNat) := by
    rw [DelegateVotingGetDelegates_eq, toNat_maxWitnessesToLoad noWrap, List.map_take]
    rfl
  have one : 1 ≤ maxWitnesses.toNat := UInt64.lt_iff_toNat_lt.mp pos
  have cut : (maxWitnesses - 1).toNat = maxWitnesses.toNat - 1 := by
    rw [UInt64.toNat_sub_of_le]
    · rfl
    · rw [UInt64.le_iff_toNat_le]
      exact one
  have nonzero : turnBlockCount ≠ 0 := UInt64.pos_iff_ne_zero.mp turns
  by_cases bonusSlots : maxBonusWitnesses = 0
  · -- no bonus slot: the first `maxWitnesses` are taken, the last of them as the only candidate
    subst bonusSlots
    have within : maxWitnesses.toNat - 1 < (electableIds backend snap).length := by omega
    have single : candidates = [(electableIds backend snap)[maxWitnesses.toNat - 1]] := by
      simp only [candidates, UInt64.toNat_zero, Nat.zero_add]
      rw [List.drop_eq_getElem_cons within]
      rfl
    have last : (electableIds backend snap).take maxWitnesses.toNat =
        (electableIds backend snap).take (maxWitnesses.toNat - 1) ++
          [(electableIds backend snap)[maxWitnesses.toNat - 1]] := by
      have shape : maxWitnesses.toNat = maxWitnesses.toNat - 1 + 1 := by omega
      conv_lhs => rw [shape]
      rw [List.take_add_one, List.getElem?_eq_getElem within]
      rfl
    refine ⟨0, _, by rw [single]; exact uniformRandom_one _, by rw [single]; rfl, ?_⟩
    rw [← last]
    simp only [UInt64.lt_irrefl, if_false, UInt64.toNat_zero, Nat.add_zero] at loaded
    have full : ((electableIds backend snap).take maxWitnesses.toNat).length = maxWitnesses.toNat := by
      simp only [List.length_take]
      omega
    simp [GetDelegates, loaded, full]
  · have positive : 0 < maxBonusWitnesses := UInt64.pos_iff_ne_zero.mpr bonusSlots
    have extra : 1 ≤ maxBonusWitnesses.toNat := UInt64.lt_iff_toNat_lt.mp positive
    have long : maxWitnesses.toNat <
        ((electableIds backend snap).take (maxWitnesses.toNat + maxBonusWitnesses.toNat)).length := by
      simp only [List.length_take]
      omega
    have candidatesEq : ((electableIds backend snap).take
        (maxWitnesses.toNat + maxBonusWitnesses.toNat)).drop (maxWitnesses.toNat - 1) = candidates := by
      rw [List.drop_take]
      congr 1
      omega
    have kept : ((electableIds backend snap).take (maxWitnesses.toNat + maxBonusWitnesses.toNat)).take
        (maxWitnesses.toNat - 1) = (electableIds backend snap).take (maxWitnesses.toNat - 1) := by
      rw [List.take_take]
      congr 1
      omega
    have notShort : ¬((electableIds backend snap).take
        (maxWitnesses.toNat + maxBonusWitnesses.toNat)).length < maxWitnesses.toNat - 1 := by
      omega
    have counted : candidates.length.toUInt64.toNat = candidates.length := by
      have bound : candidates.length ≤ maxBonusWitnesses.toNat + 1 := by
        simp only [candidates, List.length_take]
        omega
      rw [UInt64.toNat_ofNat']
      omega
    have drawable : 0 < candidates.length.toUInt64 := by
      rw [UInt64.lt_iff_toNat_lt, counted, UInt64.toNat_zero]
      simp only [candidates, List.length_take, List.length_drop]
      omega
    obtain ⟨r, drawn, below⟩ := uniformRandom_lt
      (backend.Keccak256 (putBigEndianUint64 ((header.Time + 1) / turnBlockCount))) drawable
    have inRange : r.toNat < candidates.length := by
      rw [← counted]
      exact UInt64.lt_iff_toNat_lt.mp below
    refine ⟨r, candidates[r.toNat], drawn, List.getElem?_eq_getElem inRange, ?_⟩
    have drawnPure : uniformRandom candidates.length.toUInt64
        (backend.Keccak256 (putBigEndianUint64 ((header.Time + 1) / turnBlockCount))) = pure r := drawn
    simp only [GetDelegates, loaded, long, if_true, cut, notShort, if_false, nonzero, candidatesEq,
      kept, pure_bind, drawnPure, List.getElem?_eq_getElem inRange]
    rfl

/-- Witnesses listed once have distinct electable ids. -/
theorem nodup_electableIds {backend : Backend σ} {snap : σ}
    (distinct : ((backend.witnessesByStake snap).map Prod.fst).Nodup) :
    (electableIds backend snap).Nodup :=
  distinct.sublist (List.filter_sublist.map Prod.fst)

theorem mem_electableIds {backend : Backend σ} {snap : σ} {id : Address} :
    id ∈ electableIds backend snap ↔ ∃ w, (id, w) ∈ (backend.witnessesByStake snap).filter Electable := by
  simp [electableIds]

/-- The delegates of a snapshot whose stake index lists each witness once, in
order of stake: distinct electable witnesses, as many as there are places or
electable witnesses; all of those if they fit, and otherwise the witnesses of
most stake but the last place, which `uniformRandom` draws with the hash of the
slot among the next `maxBonusWitnesses + 1` electable witnesses. -/
theorem GetDelegates_selects_top_and_bonus (backend : Backend σ) (header : Header) (snap : σ)
    (maxWitnesses maxBonusWitnesses turnBlockCount : UInt64) (pos : 0 < maxWitnesses)
    (turns : 0 < turnBlockCount) (noWrap : maxWitnesses.toNat + maxBonusWitnesses.toNat < 2 ^ 64)
    (distinct : ((backend.witnessesByStake snap).map Prod.fst).Nodup)
    (sorted : (backend.witnessesByStake snap).Pairwise fun a b => b.2.stake ≤ a.2.stake) :
    let electable := (backend.witnessesByStake snap).filter Electable
    let candidates := ((electableIds backend snap).drop (maxWitnesses.toNat - 1)).take
      (maxBonusWitnesses.toNat + 1)
    ∃ delegates, GetDelegates backend (some header) snap maxWitnesses maxBonusWitnesses turnBlockCount =
        .ok delegates ∧
      delegates.Nodup ∧ (∀ id ∈ delegates, ∃ w, (id, w) ∈ electable) ∧
      delegates.length = min maxWitnesses.toNat electable.length ∧
      (electable.length ≤ maxWitnesses.toNat → delegates = electable.map Prod.fst) ∧
      (maxWitnesses.toNat < electable.length →
        (∀ above ∈ electable.take (maxWitnesses.toNat - 1), ∀ below ∈ electable.drop (maxWitnesses.toNat - 1),
          below.2.stake ≤ above.2.stake) ∧
        ∃ r bonus, uniformRandom candidates.length.toUInt64
            (backend.Keccak256 (putBigEndianUint64 ((header.Time + 1) / turnBlockCount))) = .ok r ∧
          candidates[r.toNat]? = some bonus ∧
          delegates = (electable.take (maxWitnesses.toNat - 1)).map Prod.fst ++ [bonus]) := by
  intro electable candidates
  have nodup := nodup_electableIds distinct
  have counted : (electableIds backend snap).length = electable.length := List.length_map _
  by_cases few : (electableIds backend snap).length ≤ maxWitnesses.toNat
  · refine ⟨_, GetDelegates_of_few backend _ snap _ _ turnBlockCount noWrap few, nodup,
      fun _ member => mem_electableIds.mp member, by omega, fun _ => rfl, fun many => ?_⟩
    omega
  · have many : maxWitnesses.toNat < (electableIds backend snap).length := by omega
    obtain ⟨r, bonus, drawn, picked, got⟩ :=
      GetDelegates_of_many backend header snap _ _ _ pos turns noWrap many
    -- the bonus is drawn from after the first `maxWitnesses - 1`
    have later : bonus ∈ (electableIds backend snap).drop (maxWitnesses.toNat - 1) :=
      List.take_subset _ _ (List.mem_of_getElem? picked)
    have one : 1 ≤ maxWitnesses.toNat := UInt64.lt_iff_toNat_lt.mp pos
    refine ⟨_, got, ?_, ?_, ?_, fun few' => absurd few' (by omega), fun _ => ⟨?_, r, bonus, drawn, picked,
      by rw [List.map_take]; rfl⟩⟩
    · rw [List.nodup_append]
      refine ⟨nodup.sublist (List.take_sublist _ _), List.nodup_singleton bonus, ?_⟩
      intro id first other second same
      rw [List.mem_singleton] at second
      rw [same, second] at first
      exact List.disjoint_take_drop nodup (Nat.le_refl _) first later
    · intro id member
      rw [List.mem_append, List.mem_singleton] at member
      apply mem_electableIds.mp
      rcases member with first | rfl
      · exact List.take_subset _ _ first
      · exact List.drop_subset _ _ later
    · rw [List.length_append, List.length_take, List.length_singleton]
      omega
    · have ordered : electable.Pairwise fun a b => b.2.stake ≤ a.2.stake :=
        sorted.sublist List.filter_sublist
      rw [← List.take_append_drop (maxWitnesses.toNat - 1) electable, List.pairwise_append] at ordered
      exact ordered.2.2

/-- Counts that wrap round load no witness: one electable witness, one
delegate place and a bonus count of `2^64 - 1` give no delegate at all. -/
theorem GetDelegates_of_wrapping_counts :
    let backend : Backend Unit :=
      ⟨BytesToHash, fun _ _ => none, fun _ => [(BytesToAddress [1], ⟨1, ElectEnabledFlag⟩)]⟩
    electableIds backend () = [BytesToAddress [1]] ∧
      GetDelegates backend (some Header.empty) () 1 (UInt64.ofNat (2 ^ 64 - 1)) 1 = .ok [] := by
  intro backend
  exact ⟨by decide, by decide⟩

/-- Three electable witnesses of stakes 3, 2 and 1, two delegate places and
one bonus place: two distinct delegates. -/
theorem GetDelegates_selects_top_and_bonus_of_three :
    let backend : Backend Unit := ⟨BytesToHash, fun _ _ => none, fun _ =>
      [(BytesToAddress [1], ⟨3, ElectEnabledFlag⟩), (BytesToAddress [2], ⟨2, ElectEnabledFlag⟩),
        (BytesToAddress [3], ⟨1, ElectEnabledFlag⟩)]⟩
    ∃ delegates, GetDelegates backend (some Header.empty) () 2 1 1 = .ok delegates ∧
      delegates.Nodup ∧ delegates.length = 2 := by
  intro backend
  obtain ⟨delegates, got, nodup, -, length, -⟩ :=
    GetDelegates_selects_top_and_bonus backend Header.empty () 2 1 1 (by decide) (by decide) (by decide)
      (by decide) (by decide)
  exact ⟨delegates, got, nodup, by rw [length]; decide⟩

end Ebakus.Consensus.Dpos

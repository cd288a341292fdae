/-
# `insert` and `delete` keep the trie canonical and update what it stores

On a canonical node and a terminated key, `insert` and `delete` never panic;
the node they return is canonical again (or nil, after a deletion), stores
the new value at the key (nothing, after a deletion) and otherwise what the
old node stored, and a result they report as clean is the old node itself.
A run of `TryUpdate` and `TryDelete` from the empty trie therefore keeps a
trie that stores exactly the finite map the same operations build, and by
`Canon.eq_of_lookup` the trie, and so its hash, depends on that map alone.
-/

import Ebakus.Trie.Canonical

namespace Ebakus.Trie

open Ebakus.Lang Ebakus.Common

/-- What `insert` or `delete` returns on `n`: a clean result is `n` itself,
and the node returned stores `v` at `key` and otherwise what `n` stores. -/
structure Result (n : Node) (key : List Nibble) (v : Option (List UInt8)) (r : Bool × Node) : Prop where
  clean : r.1 = false → r.2 = n
  updated : Updated n r.2 key v

/-! ### Canonical pieces -/

/-- A canonical short node stays canonical when its key loses a front part. -/
theorem Canon.drop_front {pre k : List Nibble} {c : Node} (canon : Canon (.short (pre ++ k) c)) (more : k ≠ []) :
    Canon (.short k c) := by
  rcases canon.cases with ⟨_, v, same, leaf, nonempty⟩ | ⟨_, cs, same, _, plain, below⟩ | ⟨_, same, _⟩
  · cases same
    exact canon_short_value.mpr ⟨(leaf.of_append more).2, nonempty⟩
  · cases same
    exact canon_short_full.mpr ⟨more, fun mem => plain (List.mem_append_right pre mem), below⟩
  · exact Node.noConfusion same

/-- A canonical short node stays canonical under a longer key without the terminator. -/
theorem Canon.short_append {k k' : List Nibble} {c : Node} (plain : 16 ∉ k) (canon : Canon (.short k' c)) :
    Canon (.short (k ++ k') c) := by
  rcases canon.cases with ⟨_, v, same, leaf, nonempty⟩ | ⟨_, cs, same, keyed, plain', below⟩ | ⟨_, same, _⟩
  · cases same
    exact canon_short_value.mpr ⟨leaf.append plain, nonempty⟩
  · cases same
    refine canon_short_full.mpr ⟨by simp [keyed], ?_, below⟩
    rw [List.mem_append, not_or]
    exact ⟨plain, plain'⟩
  · exact Node.noConfusion same

/-- What the split of a short node puts in slot `i`: the rest of a canonical
short node whose key went on with `i`. -/
theorem insertNil_fits {i : Nibble} {a : List Nibble} {c : Node} (canon : Canon (.short (i :: a) c)) :
    ∃ c₁, insertNil a c = .ok (true, c₁) ∧ Fits i c₁ ∧ c₁ ≠ .nil ∧ lookup c₁ = lookup (.short a c) := by
  by_cases nothing : a = []
  · subst nothing
    refine ⟨c, insertNil_nil c, ?_, ?_, (lookup_short_nil c).symm⟩
    · rcases canon.cases with ⟨_, v, same, leaf, nonempty⟩ | ⟨_, cs, same, _, plain, below⟩ | ⟨_, same, _⟩
      · cases same
        -- A terminated key of one nibble is the terminator itself.
        have last : i = 16 := by
          by_contra plain
          exact (leaf.tail plain).ne_nil rfl
        exact .inr (.inl ⟨last, v, nonempty, rfl⟩)
      · cases same
        exact .inr (.inr ⟨fun last => plain (by simp [last]), below⟩)
      · exact Node.noConfusion same
    · rcases canon.cases with ⟨_, v, same, _, _⟩ | ⟨_, cs, same, _, _, _⟩ | ⟨_, same, _⟩
      · cases same
        exact Node.noConfusion
      · cases same
        exact Node.noConfusion
      · exact Node.noConfusion same
  · refine ⟨.short a c, insertNil_of_ne_nil nothing c, .inr (.inr ⟨?_, ?_⟩), Node.noConfusion, rfl⟩
    · rcases canon.cases with ⟨_, v, same, leaf, _⟩ | ⟨_, cs, same, _, plain, _⟩ | ⟨_, same, _⟩
      · cases same
        exact (leaf.cons_inv nothing).1
      · cases same
        exact fun last => plain (by simp [last])
      · exact Node.noConfusion same
    · exact @Canon.drop_front [i] a c canon nothing

/-- The full node of a split, with two children in different slots. -/
theorem canon_split {i j : Nibble} {c₁ c₂ : Node} (differ : i ≠ j) (fits₁ : Fits i c₁) (fits₂ : Fits j c₂)
    (present₁ : c₁ ≠ .nil) (present₂ : c₂ ≠ .nil) :
    Canon (.full (Function.update (Function.update emptyChildren i c₁) j c₂)) := by
  refine canon_full.mpr ⟨fun z => ?_, one_lt_childCount_iff.mpr ⟨i, j, differ, ?_, ?_⟩⟩
  · by_cases atJ : z = j
    · subst atJ
      simpa using fits₂
    · by_cases atI : z = i
      · subst atI
        simpa [atJ] using fits₁
      · simp [atJ, atI, emptyChildren_apply, Fits]
  · simpa [differ] using present₁
  · simpa using present₂

/-- The full node of a split stores the old short node's values and the new one. -/
theorem updated_split {i j : Nibble} {a b : List Nibble} {c c₁ c₂ : Node} {v : List UInt8} (differ : i ≠ j)
    (stored₁ : lookup c₁ = lookup (.short a c)) (stored₂ : lookup c₂ = lookup (.short b (.value v))) :
    Updated (.short (i :: a) c) (.full (Function.update (Function.update emptyChildren i c₁) j c₂))
      (j :: b) (some v) := by
  intro p
  cases p with
  | nil => simp [lookup_short]
  | cons z r =>
    rw [lookup_full_cons, lookup_short_cons]
    by_cases atJ : z = j
    · subst atJ
      rw [Function.update_self, stored₂, lookup_short_value, if_neg differ]
      simp only [List.cons.injEq, true_and]
    · have off : z :: r ≠ j :: b := fun same => atJ (List.cons.inj same).1
      rw [Function.update_of_ne atJ, if_neg off]
      by_cases atI : z = i
      · subst atI
        rw [Function.update_self, stored₁, if_pos rfl]
      · rw [Function.update_of_ne atI, if_neg (Ne.symm atI)]
        simp [emptyChildren_apply]

/-! ### Insertion -/

theorem insert_full_of_child {cs : Nibble → Node} {x : Nibble} {rest : List Nibble} {value : Node}
    {d : Bool} {nn : Node} (child : insert (cs x) rest value = .ok (d, nn)) :
    insert (.full cs) (x :: rest) value =
      if !d then .ok (false, .full cs) else .ok (true, .full (Function.update cs x nn)) := by
  simp [insert_full_cons, child]

theorem insert_short_within {k : List Nibble} {c : Node} {key : List Nibble} {value : Node}
    {d : Bool} {nn : Node} (pre : k <+: key) (nonempty : key ≠ [])
    (below : insert c (key.drop k.length) value = .ok (d, nn)) :
    insert (.short k c) key value = if !d then .ok (false, .short k c) else .ok (true, .short k nn) := by
  obtain ⟨x, rest, rfl⟩ := List.exists_cons_of_ne_nil nonempty
  have whole : prefixLen (x :: rest) k = k.length := (prefixLen_eq_length_iff _ _).mpr pre
  simp only [insert_short_cons, whole, if_true, below]
  rfl

/-- A full node with a child changed is a full node. -/
theorem full_of_insert_full {cs : Nibble → Node} {x : Nibble} {rest : List Nibble} {value : Node}
    {d : Bool} {nn : Node} (inserted : insert (.full cs) (x :: rest) value = .ok (d, nn)) :
    ∃ cs', nn = .full cs' := by
  cases child : insert (cs x) rest value with
  | error e => simp [insert_full_cons, child] at inserted
  | ok res =>
    obtain ⟨d', nn'⟩ := res
    rw [insert_full_of_child child] at inserted
    cases d' <;> simp only [Bool.not_false, Bool.not_true, if_true, Bool.false_eq_true, if_false,
      Except.ok.injEq, Prod.mk.injEq] at inserted <;> exact ⟨_, inserted.2.symm⟩

/-- `insert` where the key leaves a short node's key: a full node with the old
and the new branch, behind the common prefix if there is one. -/
theorem insert_short_split {pre a b : List Nibble} {i j : Nibble} {c value c₁ c₂ : Node} (differ : i ≠ j)
    (nil₁ : insertNil a c = .ok (true, c₁)) (nil₂ : insertNil b value = .ok (true, c₂)) :
    insert (.short (pre ++ i :: a) c) (pre ++ j :: b) value =
      .ok (true, if pre = [] then .full (Function.update (Function.update emptyChildren i c₁) j c₂)
        else .short pre (.full (Function.update (Function.update emptyChildren i c₁) j c₂))) := by
  have matchlen : prefixLen (pre ++ j :: b) (pre ++ i :: a) = pre.length :=
    prefixLen_append_cons pre (Ne.symm differ) b a
  obtain ⟨x, rest, keyEq⟩ := List.exists_cons_of_ne_nil (show pre ++ j :: b ≠ [] by simp)
  rw [keyEq, insert_short_cons, ← keyEq, matchlen]
  have drop₁ : (pre ++ i :: a).drop (pre.length + 1) = a := by simp
  have drop₂ : (pre ++ j :: b).drop (pre.length + 1) = b := by simp
  have at₁ : nibbleAt (pre ++ i :: a) pre.length = .ok i := nibbleAt_of_getElem? (by simp)
  have at₂ : nibbleAt (pre ++ j :: b) pre.length = .ok j := nibbleAt_of_getElem? (by simp)
  simp [at₁, at₂, drop₁, drop₂, nil₁, nil₂]
  split <;> rfl

/-- `insert` into one slot of a canonical full node, given what it does on a
canonical node there. -/
theorem insert_slot {x : Nibble} {c : Node} {r : List Nibble} {v : List UInt8} (fits : Fits x c)
    (ends : Terminated (x :: r)) (nonempty : v ≠ [])
    (ih : Canon c → ∃ res, insert c r (.value v) = .ok res ∧ Result c r (some v) res ∧ Canon res.2) :
    ∃ res, insert c r (.value v) = .ok res ∧ Result c r (some v) res ∧ Fits x res.2 ∧ res.2 ≠ .nil := by
  rcases fits with rfl | ⟨rfl, w, _, rfl⟩ | ⟨plain, canon⟩
  · rw [insert_nil]
    by_cases nothing : r = []
    · subst nothing
      have last : x = 16 := by
        by_contra plain
        exact (ends.tail plain).ne_nil rfl
      refine ⟨(true, .value v), insertNil_nil _, ⟨nofun, ?_⟩, .inr (.inl ⟨last, v, nonempty, rfl⟩),
        Node.noConfusion⟩
      intro p
      by_cases here : p = [] <;> simp [here]
    · obtain ⟨plain, rest⟩ := ends.cons_inv nothing
      refine ⟨(true, .short r (.value v)), insertNil_of_ne_nil nothing _, ⟨nofun, ?_⟩,
        .inr (.inr ⟨plain, canon_short_value.mpr ⟨rest, nonempty⟩⟩), Node.noConfusion⟩
      intro p
      by_cases here : p = r <;> simp [lookup_short_value, here]
  · have nothing := ends.eq_nil_of_cons_term
    subst nothing
    refine ⟨(w != v, .value v), rfl, ⟨?_, ?_⟩, .inr (.inl ⟨rfl, v, nonempty, rfl⟩), Node.noConfusion⟩
    · intro same
      simp only [bne_eq_false_iff_eq] at same
      rw [same]
    · intro p
      by_cases here : p = [] <;> simp [here]
  · obtain ⟨res, inserted, result, canon'⟩ := ih canon
    exact ⟨res, inserted, result, .inr (.inr ⟨plain, canon'⟩), canon'.ne_nil⟩

/-- `insert` of a non-empty value at a terminated key into a canonical node or
nil: it does not panic, and the node it returns is canonical and stores the
value at the key and otherwise what the old node stored. -/
theorem insert_spec {n : Node} (good : n = .nil ∨ Canon n) {key : List Nibble} (ends : Terminated key)
    {v : List UInt8} (nonempty : v ≠ []) :
    ∃ res, insert n key (.value v) = .ok res ∧ Result n key (some v) res ∧ Canon res.2 := by
  induction n generalizing key with
  | nil =>
    refine ⟨(true, .short key (.value v)), by rw [insert_nil, insertNil_of_ne_nil ends.ne_nil], ⟨nofun, ?_⟩,
      canon_short_value.mpr ⟨ends, nonempty⟩⟩
    intro p
    by_cases here : p = key <;> simp [lookup_short_value, here]
  | value w => simp [not_canon_value] at good
  | short k c ih =>
    have canon : Canon (.short k c) := good.resolve_left Node.noConfusion
    by_cases pre : k <+: key
    · obtain ⟨r, rfl⟩ := pre
      rcases canon.cases with ⟨_, w, same, leaf, _⟩ | ⟨_, cs, same, _, plain, below⟩ | ⟨_, same, _⟩
      · -- The key is the leaf's own key: the value is replaced.
        cases same
        have nothing : r = [] := by simpa using (leaf.eq_of_prefix ends (List.prefix_append k r)).symm
        subst nothing
        have inner : insert (.value w) ((k ++ []).drop k.length) (.value v) = .ok (w != v, .value v) := by
          simp [insert_value_nil]
        rw [insert_short_within (List.prefix_append k []) ends.ne_nil inner]
        have stored : Updated (.short k (.value w)) (.short k (.value v)) (k ++ []) (some v) := by
          intro p
          by_cases here : p = k <;> simp [lookup_short_value, here]
        cases replaced : w != v
        · have same : w = v := by simpa using replaced
          subst same
          exact ⟨_, rfl, ⟨fun _ => rfl, stored⟩, canon⟩
        · exact ⟨_, rfl, ⟨nofun, stored⟩, canon_short_value.mpr ⟨leaf, nonempty⟩⟩
      · -- The key goes on below an extension: insert into its full node.
        cases same
        have more : r ≠ [] := by
          rintro rfl
          exact plain (by simpa using ends.mem)
        obtain ⟨⟨d, nn⟩, inserted, result, canon'⟩ := ih (.inr below) (ends.of_append more).2
        obtain ⟨x, rest, rfl⟩ := List.exists_cons_of_ne_nil more
        have inner : insert (.full cs) ((k ++ x :: rest).drop k.length) (.value v) = .ok (d, nn) := by
          simpa using inserted
        rw [insert_short_within (List.prefix_append k _) ends.ne_nil inner]
        cases d
        · have unchanged : nn = .full cs := result.clean rfl
          subst unchanged
          exact ⟨_, rfl, ⟨fun _ => rfl, result.updated.short k⟩, canon⟩
        · -- A full node with a child changed is a full node.
          obtain ⟨cs', rfl⟩ := full_of_insert_full inserted
          obtain ⟨keyed, plain, -⟩ := canon_short_full.mp canon
          exact ⟨_, rfl, ⟨nofun, result.updated.short k⟩, canon_short_full.mpr ⟨keyed, plain, canon'⟩⟩
      · exact Node.noConfusion same
    · -- The keys part inside the short key: split it.
      have notWhole : prefixLen key k ≠ k.length := fun whole => pre ((prefixLen_eq_length_iff _ _).mp whole)
      have inK : prefixLen key k < k.length := by
        have := prefixLen_le_left k key
        rw [prefixLen_comm] at this
        omega
      have inKey : prefixLen key k < key.length := by
        rcases Nat.lt_or_ge (prefixLen key k) key.length with inside | outside
        · exact inside
        · -- A key that ends inside the short key would be a prefix of it.
          have whole : prefixLen key k = key.length := Nat.le_antisymm (prefixLen_le_left key k) outside
          have keyPre : key <+: k := by
            have common := take_prefixLen key k
            rw [whole, List.take_length] at common
            rw [common]
            exact List.take_prefix _ _
          rcases canon.cases with ⟨_, w, same, leaf, _⟩ | ⟨_, cs, same, _, plain, _⟩ | ⟨_, same, _⟩
          · cases same
            exact absurd (ends.eq_of_prefix leaf keyPre ▸ List.prefix_refl k) pre
          · cases same
            exact absurd (keyPre.subset ends.mem) plain
          · exact Node.noConfusion same
      obtain ⟨pre', j, b, i, a, rfl, rfl, differ, -⟩ := prefixLen_split inKey (by rwa [prefixLen_comm] at inK ⊢)
      obtain ⟨c₁, nil₁, fits₁, present₁, stored₁⟩ := insertNil_fits (canon.drop_front (by simp))
      have leafRest : Canon (.short (j :: b) (.value v)) :=
        canon_short_value.mpr ⟨(ends.of_append (by simp)).2, nonempty⟩
      obtain ⟨c₂, nil₂, fits₂, present₂, stored₂⟩ := insertNil_fits leafRest
      rw [insert_short_split (Ne.symm differ) nil₁ nil₂]
      have branch := canon_split (Ne.symm differ) fits₁ fits₂ present₁ present₂
      -- Behind the common prefix the split stores what the short node stored, and the value.
      have updated := ((updated_split (Ne.symm differ) stored₁ stored₂).short pre').congr
        (lookup_short_short pre' (i :: a) c).symm rfl
      by_cases atRoot : pre' = []
      · subst atRoot
        refine ⟨_, rfl, ⟨nofun, ?_⟩, ?_⟩ <;> dsimp only <;> rw [if_pos rfl]
        · exact updated.congr rfl (lookup_short_nil _).symm
        · exact branch
      · refine ⟨_, rfl, ⟨nofun, ?_⟩, ?_⟩ <;> dsimp only <;> rw [if_neg atRoot]
        · exact updated
        · exact canon_short_full.mpr ⟨atRoot, fun mem => (ends.of_append (by simp)).1 mem, branch⟩
  | full cs ih =>
    have canon : Canon (.full cs) := good.resolve_left Node.noConfusion
    obtain ⟨fits, two⟩ := canon_full.mp canon
    obtain ⟨x, r, rfl⟩ := List.exists_cons_of_ne_nil ends.ne_nil
    obtain ⟨⟨d, nn⟩, inserted, result, fitsNew, present⟩ :=
      insert_slot (fits x) ends nonempty fun below => ih x (.inr below) (ends.tail (by
        rcases fits x with absent | ⟨_, _, _, stored⟩ | ⟨plain, _⟩
        · exact absurd absent below.ne_nil
        · exact absurd (stored ▸ below) (not_canon_value _)
        · exact plain))
    rw [insert_full_of_child inserted]
    cases d
    · have unchanged : nn = cs x := result.clean rfl
      subst unchanged
      refine ⟨_, rfl, ⟨fun _ => rfl, ?_⟩, canon⟩
      simpa using result.updated.full
    · refine ⟨_, rfl, ⟨nofun, result.updated.full⟩, canon_full.mpr ⟨fun i => ?_, childCount_update_le present two⟩⟩
      by_cases atX : i = x
      · subst atX
        simpa using fitsNew
      · simpa [atX] using fits i

/-! ### The loop over the children -/

theorem childPosLoop_of_absent {cs : Nibble → Node} {l : List Nibble} (absent : ∀ i ∈ l, cs i = .nil)
    (pos : Int) : childPosLoop cs l pos = pos := by
  induction l with
  | nil => rfl
  | cons i l ih =>
    rw [childPosLoop_cons, absent i List.mem_cons_self]
    simp only [Node.isNil_nil, Bool.not_true, Bool.false_eq_true, if_false]
    exact ih fun j mem => absent j (List.mem_cons_of_mem i mem)

/-- Once a child has been found, a second one ends the loop with `-2`. -/
theorem childPosLoop_of_found {cs : Nibble → Node} {l : List Nibble} {pos : Int} (found : pos ≠ -1)
    (present : ∃ i ∈ l, cs i ≠ .nil) : childPosLoop cs l pos = -2 := by
  induction l with
  | nil => simp at present
  | cons i l ih =>
    by_cases here : cs i = .nil
    · rw [childPosLoop_cons, here]
      simp only [Node.isNil_nil, Bool.not_true, Bool.false_eq_true, if_false]
      obtain ⟨j, mem, presentJ⟩ := present
      have other : j ≠ i := fun same => presentJ (same ▸ here)
      exact ih ⟨j, (List.mem_cons.mp mem).resolve_left other, presentJ⟩
    · rw [childPosLoop_cons, isNil_eq_false_iff.mpr here]
      simp [found]

theorem childPosLoop_single {cs : Nibble → Node} {l : List Nibble} {p : Nibble} (nodup : l.Nodup)
    (mem : p ∈ l) (present : cs p ≠ .nil) (alone : ∀ i ∈ l, i ≠ p → cs i = .nil) :
    childPosLoop cs l (-1) = p.val := by
  induction l with
  | nil => simp at mem
  | cons i l ih =>
    by_cases atP : i = p
    · subst atP
      rw [childPosLoop_cons, isNil_eq_false_iff.mpr present]
      simp only [Bool.not_false, if_true]
      refine childPosLoop_of_absent (fun j memJ => alone j (List.mem_cons_of_mem i memJ) ?_) _
      rintro rfl
      exact (List.nodup_cons.mp nodup).1 memJ
    · rw [childPosLoop_cons, alone i List.mem_cons_self atP]
      simp only [Node.isNil_nil, Bool.not_true, Bool.false_eq_true, if_false]
      exact ih (List.nodup_cons.mp nodup).2 ((List.mem_cons.mp mem).resolve_left (Ne.symm atP))
        fun j memJ => alone j (List.mem_cons_of_mem i memJ)

theorem childPosLoop_two {cs : Nibble → Node} {l : List Nibble} {i j : Nibble} (differ : i ≠ j)
    (memI : i ∈ l) (memJ : j ∈ l) (presentI : cs i ≠ .nil) (presentJ : cs j ≠ .nil) :
    childPosLoop cs l (-1) = -2 := by
  induction l with
  | nil => simp at memI
  | cons z l ih =>
    by_cases here : cs z = .nil
    · have notI : i ≠ z := fun same => presentI (same ▸ here)
      have notJ : j ≠ z := fun same => presentJ (same ▸ here)
      rw [childPosLoop_cons, here]
      simp only [Node.isNil_nil, Bool.not_true, Bool.false_eq_true, if_false]
      exact ih ((List.mem_cons.mp memI).resolve_left notI) ((List.mem_cons.mp memJ).resolve_left notJ)
    · rw [childPosLoop_cons, isNil_eq_false_iff.mpr here]
      simp only [Bool.not_false, if_true]
      -- The other of the two children is still ahead.
      have other : ∃ k ∈ l, cs k ≠ .nil := by
        by_cases atI : i = z
        · subst atI
          exact ⟨j, (List.mem_cons.mp memJ).resolve_left (Ne.symm differ), presentJ⟩
        · exact ⟨i, (List.mem_cons.mp memI).resolve_left atI, presentI⟩
      exact childPosLoop_of_found (by omega) other

theorem childPos_single {cs : Nibble → Node} {p : Nibble} (present : cs p ≠ .nil)
    (alone : ∀ i, i ≠ p → cs i = .nil) : childPos cs = p.val :=
  childPosLoop_single (List.nodup_finRange 17) (List.mem_finRange p) present fun i _ => alone i

theorem childPos_two {cs : Nibble → Node} {i j : Nibble} (differ : i ≠ j) (presentI : cs i ≠ .nil)
    (presentJ : cs j ≠ .nil) : childPos cs = -2 :=
  childPosLoop_two differ (List.mem_finRange i) (List.mem_finRange j) presentI presentJ

/-- The end of `delete` at a full node with canonical children, at least one
of them left: the node it gives is canonical and stores what the full node stores. -/
theorem reduceFull_spec {cs : Nibble → Node} (fits : ∀ i, Fits i (cs i)) (present : ∃ i, cs i ≠ .nil) :
    ∃ r, reduceFull cs = .ok (true, r) ∧ Canon r ∧ lookup r = lookup (.full cs) := by
  by_cases two : ∃ i j, i ≠ j ∧ cs i ≠ .nil ∧ cs j ≠ .nil
  · obtain ⟨i, j, differ, presentI, presentJ⟩ := two
    refine ⟨.full cs, ?_, canon_full.mpr ⟨fits, one_lt_childCount_iff.mpr ⟨i, j, differ, presentI, presentJ⟩⟩, rfl⟩
    simp [reduceFull, childPos_two differ presentI presentJ]
  · -- One child is left: the node becomes a short node of its nibble.
    obtain ⟨p, presentP⟩ := present
    have alone : ∀ i, i ≠ p → cs i = .nil := fun i other => by
      by_contra presentI
      exact two ⟨i, p, other, presentI, presentP⟩
    have single := lookup_full_single alone
    rcases fits p with absent | ⟨last, v, nonempty, stored⟩ | ⟨plain, canon⟩
    · exact absurd absent presentP
    · subst last
      refine ⟨.short [16] (.value v), ?_, canon_short_value.mpr ⟨.term, nonempty⟩, by rw [single, stored]⟩
      simp [reduceFull, childPos_single presentP alone, stored]
    · rcases canon.cases with ⟨k, v, stored, _, _⟩ | ⟨k, cs', stored, _, _, _⟩ | ⟨cs', stored, _⟩
      · refine ⟨.short (p :: k) (.value v), ?_, ?_, ?_⟩
        · simp [reduceFull, childPos_single presentP alone, plain, stored]
        · simpa using @Canon.short_append [p] k (.value v) (by simpa using Ne.symm plain) (stored ▸ canon)
        · rw [single, stored, lookup_short_short]
          rfl
      · refine ⟨.short (p :: k) (.full cs'), ?_, ?_, ?_⟩
        · simp [reduceFull, childPos_single presentP alone, plain, stored]
        · simpa using @Canon.short_append [p] k (.full cs') (by simpa using Ne.symm plain) (stored ▸ canon)
        · rw [single, stored, lookup_short_short]
          rfl
      · refine ⟨.short [p] (.full cs'), ?_, ?_, by rw [single, stored]⟩
        · simp [reduceFull, childPos_single presentP alone, plain, stored]
        · exact canon_short_full.mpr ⟨by simp, by simpa using Ne.symm plain, stored ▸ canon⟩

/-! ### Deletion -/

theorem delete_full_of_child {cs : Nibble → Node} {x : Nibble} {rest : List Nibble} {d : Bool} {nn : Node}
    (child : delete (cs x) rest = .ok (d, nn)) :
    delete (.full cs) (x :: rest) = if !d then .ok (false, .full cs) else reduceFull (Function.update cs x nn) := by
  have first : nibbleAt (x :: rest) 0 = .ok x := nibbleAt_of_getElem? rfl
  simp [delete_full, first, child]

theorem delete_short_of_mismatch {k key : List Nibble} (off : ¬ k <+: key) (c : Node) :
    delete (.short k c) key = .ok (false, .short k c) := by
  have short : prefixLen key k < k.length := by
    have atMost := prefixLen_le_left k key
    have notWhole : prefixLen key k ≠ k.length := fun whole => off ((prefixLen_eq_length_iff _ _).mp whole)
    rw [prefixLen_comm] at atMost
    omega
  simp [delete_short, short]

theorem delete_short_whole {k : List Nibble} (c : Node) : delete (.short k c) k = .ok (true, .nil) := by
  have whole : prefixLen k k = k.length := (prefixLen_eq_length_iff k k).mpr (List.prefix_refl k)
  simp [delete_short, whole]

/-- `delete` past a short node's key, where the rest of the key goes into its child. -/
theorem delete_short_below {k r : List Nibble} {c : Node} {d : Bool} {child : Node} (more : r ≠ [])
    (below : delete c r = .ok (d, child)) :
    delete (.short k c) (k ++ r) =
      if !d then .ok (false, .short k c)
      else if let .short cKey cVal := child then .ok (true, .short (k ++ cKey) cVal)
      else .ok (true, .short k child) := by
  have whole : prefixLen (k ++ r) k = k.length := (prefixLen_eq_length_iff _ k).mpr (List.prefix_append k r)
  have longer : k.length ≠ (k ++ r).length := by
    simp only [List.length_append]
    have := List.length_pos_iff.mpr more
    omega
  simp only [delete_short, whole, Nat.lt_irrefl, if_false, longer, List.drop_left, below]
  cases d <;> cases child <;> rfl

/-- `delete` in one slot of a canonical full node, given what it does on a
canonical node there. -/
theorem delete_slot {x : Nibble} {c : Node} {r : List Nibble} (fits : Fits x c) (ends : Terminated (x :: r))
    (ih : Canon c → ∃ res, delete c r = .ok res ∧ Result c r none res ∧ (res.2 = .nil ∨ Canon res.2)) :
    ∃ res, delete c r = .ok res ∧ Result c r none res ∧ Fits x res.2 := by
  rcases fits with rfl | ⟨rfl, w, _, rfl⟩ | ⟨plain, canon⟩
  · exact ⟨(false, .nil), delete_nil r, ⟨fun _ => rfl, Updated.self (by simp)⟩, .inl rfl⟩
  · have nothing := ends.eq_nil_of_cons_term
    subst nothing
    refine ⟨(true, .nil), delete_value w [], ⟨nofun, ?_⟩, .inl rfl⟩
    intro p
    by_cases here : p = [] <;> simp [here]
  · obtain ⟨res, deleted, result, good⟩ := ih canon
    exact ⟨res, deleted, result, good.elim .inl fun canon' => .inr (.inr ⟨plain, canon'⟩)⟩

/-- A node that stored values at two paths still stores one after a deletion. -/
theorem Updated.ne_nil_of_forksAt {n n' : Node} {key : List Nibble} (upd : Updated n n' key none)
    {k : List Nibble} (forks : ForksAt (lookup n) k) : n' ≠ .nil := by
  obtain ⟨i, j, p, q, v, w, differ, atI, atJ⟩ := forks
  rintro rfl
  by_cases onI : k ++ i :: p = key
  · have offJ : k ++ j :: q ≠ key := by
      rintro onJ
      have := onI.trans onJ.symm
      simp only [List.append_cancel_left_eq, List.cons.injEq] at this
      exact differ this.1
    have still := upd (k ++ j :: q)
    rw [if_neg offJ, atJ, lookup_nil] at still
    simp at still
  · have still := upd (k ++ i :: p)
    rw [if_neg onI, atI, lookup_nil] at still
    simp at still

/-- `delete` at a terminated key in a canonical node or nil: it does not panic,
and the node it returns is nil or canonical and stores what the old node
stored, except at the key. -/
theorem delete_spec {n : Node} (good : n = .nil ∨ Canon n) {key : List Nibble} (ends : Terminated key) :
    ∃ res, delete n key = .ok res ∧ Result n key none res ∧ (res.2 = .nil ∨ Canon res.2) := by
  induction n generalizing key with
  | nil => exact ⟨(false, .nil), delete_nil key, ⟨fun _ => rfl, Updated.self (by simp)⟩, .inl rfl⟩
  | value w => simp [not_canon_value] at good
  | short k c ih =>
    have canon : Canon (.short k c) := good.resolve_left Node.noConfusion
    by_cases pre : k <+: key
    · obtain ⟨r, rfl⟩ := pre
      rcases canon.cases with ⟨_, w, same, leaf, _⟩ | ⟨_, cs, same, keyed, plain, below⟩ | ⟨_, same, _⟩
      · -- The key is the leaf's own key: the leaf goes.
        cases same
        have nothing : r = [] := by simpa using (leaf.eq_of_prefix ends (List.prefix_append k r)).symm
        subst nothing
        rw [List.append_nil]
        refine ⟨(true, .nil), delete_short_whole _, ⟨nofun, ?_⟩, .inl rfl⟩
        intro p
        by_cases here : p = k <;> simp [lookup_short_value, here]
      · -- The key goes on below an extension: delete in its full node, which keeps a value.
        cases same
        have more : r ≠ [] := by
          rintro rfl
          exact plain (by simpa using ends.mem)
        obtain ⟨⟨d, child⟩, deleted, result, good'⟩ := ih (.inr below) (ends.of_append more).2
        rw [delete_short_below more deleted]
        cases d
        · have unchanged : child = .full cs := result.clean rfl
          subst unchanged
          exact ⟨_, rfl, ⟨fun _ => rfl, result.updated.short k⟩, .inr canon⟩
        · have canon' := good'.resolve_left (result.updated.ne_nil_of_forksAt below.forksAt_full)
          rcases canon'.cases with ⟨cKey, v, rfl, _, _⟩ | ⟨cKey, cs', rfl, _, _, _⟩ | ⟨cs', rfl, _⟩
          · exact ⟨_, rfl, ⟨nofun, (result.updated.short k).congr rfl (lookup_short_short k cKey _).symm⟩,
              .inr (canon'.short_append plain)⟩
          · exact ⟨_, rfl, ⟨nofun, (result.updated.short k).congr rfl (lookup_short_short k cKey _).symm⟩,
              .inr (canon'.short_append plain)⟩
          · exact ⟨_, rfl, ⟨nofun, result.updated.short k⟩, .inr (canon_short_full.mpr ⟨keyed, plain, canon'⟩)⟩
      · exact Node.noConfusion same
    · exact ⟨_, delete_short_of_mismatch pre c,
        ⟨fun _ => rfl, Updated.self (lookup_short_of_off pre c)⟩, .inr canon⟩
  | full cs ih =>
    have canon : Canon (.full cs) := good.resolve_left Node.noConfusion
    obtain ⟨fits, two⟩ := canon_full.mp canon
    obtain ⟨x, r, rfl⟩ := List.exists_cons_of_ne_nil ends.ne_nil
    obtain ⟨⟨d, nn⟩, deleted, result, fitsNew⟩ :=
      delete_slot (fits x) ends fun below => ih x (.inr below) (ends.tail (by
        rcases fits x with absent | ⟨_, _, _, stored⟩ | ⟨plain, _⟩
        · exact absurd absent below.ne_nil
        · exact absurd (stored ▸ below) (not_canon_value _)
        · exact plain))
    rw [delete_full_of_child deleted]
    cases d
    · have unchanged : nn = cs x := result.clean rfl
      subst unchanged
      refine ⟨_, rfl, ⟨fun _ => rfl, ?_⟩, .inr canon⟩
      simpa using result.updated.full
    · -- Of the two children the node had, one is not at `x` and is still there.
      have remains : ∃ i, Function.update cs x nn i ≠ .nil := by
        obtain ⟨i, j, differ, presentI, presentJ⟩ := one_lt_childCount_iff.mp two
        by_cases atI : i = x
        · subst atI
          exact ⟨j, by simpa [Ne.symm differ] using presentJ⟩
        · exact ⟨i, by simpa [atI] using presentI⟩
      have fits' : ∀ i, Fits i (Function.update cs x nn i) := by
        intro i
        by_cases atX : i = x
        · subst atX
          simpa using fitsNew
        · simpa [atX] using fits i
      obtain ⟨r', reduced, canon', stored⟩ := reduceFull_spec fits' remains
      rw [if_neg (by simp), reduced]
      exact ⟨_, rfl, ⟨nofun, result.updated.full.congr rfl stored⟩, .inr canon'⟩

end Ebakus.Trie

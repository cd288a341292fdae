/-
# What a trie stores, and the minimal form its operations keep

`lookup` is what a node stands for: the value stored at the end of a path,
read off the shape of the node with no reference to the code. `Canon` is the
shape `insert` and `delete` keep (`Ebakus.Trie.Update`): a short node either
ends in a non-empty value under a terminated key or leads to a full node under
a non-empty key without the terminator, and a full node has at least two
children, with a non-empty value or nothing in slot 16. On such nodes `tryGet`
computes `lookup`, and two of them that store the same values are equal: the
shape is a function of the contents.
-/

import Mathlib.Data.Fintype.Card
import Ebakus.Trie.Trie

namespace Ebakus.Trie

/-- What a node stores at the end of a path. -/
def lookup : Node → List Nibble → Option (List UInt8)
  | .nil, _ => none
  | .value v, p => if p = [] then some v else none
  | .short k c, p => if k <+: p then lookup c (p.drop k.length) else none
  | .full _, [] => none
  | .full cs, x :: p => lookup (cs x) p

/-- The number of children of a full node, the value slot included. -/
def childCount (cs : Nibble → Node) : Nat :=
  (Finset.univ.filter fun i => (cs i).isNil = false).card

/-- The canonical form: no short node has an empty key or a short child, every
full node has at least two children and every value is non-empty. -/
def Minimal : Node → Prop
  | .nil => True
  | .value v => v ≠ []
  | .short k c => k ≠ [] ∧ c.isShort = false ∧ Minimal c
  | .full cs => 2 ≤ childCount cs ∧ ∀ i, Minimal (cs i)

/-- The conditions on the children of a canonical full node, `canon i` being
what child `i` itself must meet. -/
def Branch (cs : Nibble → Node) (canon : Nibble → Prop) : Prop :=
  (∀ i, cs i = .nil ∨ (i = 16 ∧ ∃ v, v ≠ [] ∧ cs i = .value v) ∨ (i ≠ 16 ∧ canon i)) ∧
    2 ≤ childCount cs

/-- The shape `insert` and `delete` keep. -/
def Canon : Node → Prop
  | .short k (.value v) => Terminated k ∧ v ≠ []
  | .short k (.full cs) => k ≠ [] ∧ 16 ∉ k ∧ Branch cs fun i => Canon (cs i)
  | .full cs => Branch cs fun i => Canon (cs i)
  | _ => False

/-- What may stand in slot `i` of a canonical full node: nothing, a non-empty
value in slot 16, or a canonical node in the other slots. -/
def Fits (i : Nibble) (c : Node) : Prop :=
  c = .nil ∨ (i = 16 ∧ ∃ v, v ≠ [] ∧ c = .value v) ∨ (i ≠ 16 ∧ Canon c)

theorem canon_full {cs : Nibble → Node} : Canon (.full cs) ↔ (∀ i, Fits i (cs i)) ∧ 2 ≤ childCount cs :=
  Iff.rfl

theorem canon_short_full {k : List Nibble} {cs : Nibble → Node} :
    Canon (.short k (.full cs)) ↔ k ≠ [] ∧ 16 ∉ k ∧ Canon (.full cs) :=
  Iff.rfl

theorem canon_short_value {k : List Nibble} {v : List UInt8} :
    Canon (.short k (.value v)) ↔ Terminated k ∧ v ≠ [] :=
  Iff.rfl

theorem not_canon_nil : ¬ Canon .nil :=
  fun canon => canon

theorem not_canon_value (v : List UInt8) : ¬ Canon (.value v) :=
  fun canon => canon

/-- A canonical node is a leaf, an extension of a full node, or a full node. -/
theorem Canon.cases {n : Node} (canon : Canon n) :
    (∃ k v, n = .short k (.value v) ∧ Terminated k ∧ v ≠ []) ∨
      (∃ k cs, n = .short k (.full cs) ∧ k ≠ [] ∧ 16 ∉ k ∧ Canon (.full cs)) ∨
      (∃ cs, n = .full cs ∧ (∀ i, Fits i (cs i)) ∧ 2 ≤ childCount cs) := by
  match n, canon with
  | .short k (.value v), canon => exact .inl ⟨k, v, rfl, canon_short_value.mp canon⟩
  | .short k (.full cs), canon => exact .inr (.inl ⟨k, cs, rfl, canon_short_full.mp canon⟩)
  | .full cs, canon => exact .inr (.inr ⟨cs, rfl, canon_full.mp canon⟩)
  | .nil, canon | .value _, canon | .short _ .nil, canon | .short _ (.short _ _), canon =>
    exact (canon : False).elim

theorem Canon.ne_nil {n : Node} (canon : Canon n) : n ≠ .nil := by
  rintro rfl
  exact not_canon_nil canon

/-! ### Children -/

theorem isNil_eq_false_iff {n : Node} : n.isNil = false ↔ n ≠ .nil := by
  cases n <;> simp [Node.isNil]

theorem one_lt_childCount_iff {cs : Nibble → Node} :
    2 ≤ childCount cs ↔ ∃ i j, i ≠ j ∧ cs i ≠ .nil ∧ cs j ≠ .nil := by
  change 1 < childCount cs ↔ _
  rw [childCount, Finset.one_lt_card_iff]
  simp only [Finset.mem_filter, Finset.mem_univ, true_and, isNil_eq_false_iff]
  constructor
  · rintro ⟨i, j, hi, hj, ne⟩
    exact ⟨i, j, ne, hi, hj⟩
  · rintro ⟨i, j, ne, hi, hj⟩
    exact ⟨i, j, hi, hj, ne⟩

/-- Replacing a child by a node keeps a child there, so no count drops. -/
theorem childCount_update_le {cs : Nibble → Node} {x : Nibble} {c : Node} (present : c ≠ .nil)
    (two : 2 ≤ childCount cs) : 2 ≤ childCount (Function.update cs x c) := by
  obtain ⟨i, j, ne, hi, hj⟩ := one_lt_childCount_iff.mp two
  refine one_lt_childCount_iff.mpr ?_
  by_cases atI : i = x
  · subst atI
    by_cases atJ : j = i
    · exact absurd atJ.symm ne
    · exact ⟨i, j, ne, by simpa using present, by simpa [atJ] using hj⟩
  · by_cases atJ : j = x
    · subst atJ
      exact ⟨i, j, ne, by simpa [atI] using hi, by simpa using present⟩
    · exact ⟨i, j, ne, by simpa [atI] using hi, by simpa [atJ] using hj⟩

/-! ### Lookup -/

@[simp]
theorem lookup_nil (p : List Nibble) : lookup .nil p = none :=
  rfl

@[simp]
theorem lookup_value (v : List UInt8) (p : List Nibble) :
    lookup (.value v) p = if p = [] then some v else none :=
  rfl

theorem lookup_short (k : List Nibble) (c : Node) (p : List Nibble) :
    lookup (.short k c) p = if k <+: p then lookup c (p.drop k.length) else none :=
  rfl

@[simp]
theorem lookup_full_nil (cs : Nibble → Node) : lookup (.full cs) [] = none :=
  rfl

@[simp]
theorem lookup_full_cons (cs : Nibble → Node) (x : Nibble) (p : List Nibble) :
    lookup (.full cs) (x :: p) = lookup (cs x) p :=
  rfl

@[simp]
theorem lookup_short_append (k : List Nibble) (c : Node) (q : List Nibble) :
    lookup (.short k c) (k ++ q) = lookup c q := by
  simp [lookup_short]

theorem lookup_short_of_off {k p : List Nibble} (off : ¬ k <+: p) (c : Node) :
    lookup (.short k c) p = none := by
  simp [lookup_short, off]

theorem prefix_of_lookup_short {k p : List Nibble} {c : Node} {v : List UInt8}
    (found : lookup (.short k c) p = some v) : k <+: p := by
  by_contra off
  rw [lookup_short_of_off off] at found
  simp at found

theorem lookup_short_nil (c : Node) : lookup (.short [] c) = lookup c := by
  funext p
  simp [lookup_short]

/-- A short node above a short node stores what one short node with both keys stores. -/
theorem lookup_short_short (k k' : List Nibble) (c : Node) :
    lookup (.short k (.short k' c)) = lookup (.short (k ++ k') c) := by
  funext p
  by_cases pre : k <+: p
  · obtain ⟨r, rfl⟩ := pre
    rw [lookup_short_append]
    by_cases pre' : k' <+: r
    · obtain ⟨s, rfl⟩ := pre'
      rw [lookup_short_append, ← List.append_assoc, lookup_short_append]
    · rw [lookup_short_of_off pre',
        lookup_short_of_off (by rwa [List.prefix_append_right_inj])]
  · have off : ¬ k ++ k' <+: p := fun longer => pre ((List.prefix_append k k').trans longer)
    rw [lookup_short_of_off pre, lookup_short_of_off off]

theorem lookup_short_value (k : List Nibble) (v : List UInt8) (p : List Nibble) :
    lookup (.short k (.value v)) p = if p = k then some v else none := by
  by_cases pre : k <+: p
  · obtain ⟨r, rfl⟩ := pre
    simp [lookup_short_append]
  · have differ : p ≠ k := fun same => pre (same ▸ List.prefix_refl p)
    simp [lookup_short_of_off pre, differ]

theorem lookup_short_cons (x : Nibble) (k : List Nibble) (c : Node) (y : Nibble) (p : List Nibble) :
    lookup (.short (x :: k) c) (y :: p) = if x = y then lookup (.short k c) p else none := by
  simp only [lookup_short, List.cons_prefix_cons, List.length_cons, List.drop_succ_cons]
  by_cases same : x = y <;> simp [same]

/-- A full node whose only child is at `x` stores what a short node of the one
nibble `x` leading to that child stores. -/
theorem lookup_full_single {cs : Nibble → Node} {x : Nibble} (alone : ∀ i, i ≠ x → cs i = .nil) :
    lookup (.full cs) = lookup (.short [x] (cs x)) := by
  funext p
  cases p with
  | nil => simp [lookup_short]
  | cons y p =>
    rw [lookup_full_cons, lookup_short_cons, lookup_short_nil]
    by_cases same : x = y
    · rw [if_pos same, same]
    · rw [if_neg same, alone y (Ne.symm same), lookup_nil]

/-! ### Updates -/

/-- `n'` stores what `n` stores, except `v` at `key`. -/
def Updated (n n' : Node) (key : List Nibble) (v : Option (List UInt8)) : Prop :=
  ∀ p, lookup n' p = if p = key then v else lookup n p

namespace Updated

theorem self {n : Node} {key : List Nibble} {v : Option (List UInt8)} (stored : lookup n key = v) :
    Updated n n key v := by
  intro p
  by_cases at_key : p = key
  · rw [if_pos at_key, at_key, stored]
  · rw [if_neg at_key]

/-- An update below a short node is an update of the short node. -/
theorem short {c c' : Node} {q : List Nibble} {v : Option (List UInt8)} (below : Updated c c' q v)
    (k : List Nibble) : Updated (.short k c) (.short k c') (k ++ q) v := by
  intro p
  by_cases pre : k <+: p
  · obtain ⟨r, rfl⟩ := pre
    rw [lookup_short_append, lookup_short_append, below r]
    simp only [List.append_cancel_left_eq]
  · have differ : p ≠ k ++ q := fun same => pre (same ▸ List.prefix_append k q)
    rw [lookup_short_of_off pre, lookup_short_of_off pre, if_neg differ]

/-- An update of one child is an update of the full node. -/
theorem full {cs : Nibble → Node} {x : Nibble} {c' : Node} {q : List Nibble} {v : Option (List UInt8)}
    (below : Updated (cs x) c' q v) : Updated (.full cs) (.full (Function.update cs x c')) (x :: q) v := by
  intro p
  cases p with
  | nil => simp
  | cons y r =>
    rw [lookup_full_cons, lookup_full_cons]
    by_cases same : y = x
    · subst same
      rw [Function.update_self, below r]
      simp only [List.cons.injEq, true_and]
    · rw [Function.update_of_ne same]
      simp [same]

/-- Only what the nodes store matters. -/
theorem congr {n n' m m' : Node} {key : List Nibble} {v : Option (List UInt8)} (upd : Updated n n' key v)
    (before : lookup m = lookup n) (after : lookup m' = lookup n') : Updated m m' key v := by
  intro p
  rw [before, after, upd p]

end Updated

/-! ### Lookup on canonical nodes -/

theorem tryGet_short (k : List Nibble) (c : Node) (key : List Nibble) :
    tryGet (.short k c) key = if k <+: key then tryGet c (key.drop k.length) else .ok none := by
  have off : (key.length < k.length ∨ k ≠ key.take k.length) ↔ ¬ k <+: key := by
    rw [List.prefix_iff_eq_take]
    constructor
    · rintro (short | differ) same
      · have := congrArg List.length same
        simp only [List.length_take] at this
        omega
      · exact differ same
    · exact fun differ => .inr differ
  simp only [tryGet]
  by_cases pre : k <+: key
  · rw [if_neg (fun cond => off.mp cond pre), if_pos pre]
  · rw [if_pos (off.mpr pre), if_neg pre]

/-- `tryGet` computes `lookup` on a canonical node for every terminated key. -/
theorem Canon.tryGet_eq {n : Node} (canon : Canon n) {key : List Nibble} (ends : Terminated key) :
    tryGet n key = .ok (lookup n key) := by
  induction n generalizing key with
  | nil => exact absurd canon not_canon_nil
  | value v => exact absurd canon (not_canon_value v)
  | short k c ih =>
    rw [tryGet_short, lookup_short]
    by_cases pre : k <+: key
    · rw [if_pos pre, if_pos pre]
      obtain ⟨r, rfl⟩ := pre
      simp only [List.drop_left]
      rcases canon.cases with ⟨_, v, same, leaf, _⟩ | ⟨_, cs, same, _, plain, below⟩ | ⟨_, same, _⟩
      · -- Two terminated keys, one a prefix of the other: nothing is left to walk.
        cases same
        have whole : k ++ r = k := (leaf.eq_of_prefix ends (List.prefix_append k r)).symm
        have nothing : r = [] := by simpa using whole
        simp [tryGet, nothing]
      · cases same
        have more : r ≠ [] := by
          rintro rfl
          exact plain (by simpa using ends.mem)
        exact ih below (ends.of_append more).2
      · exact Node.noConfusion same
    · rw [if_neg pre, if_neg pre]
  | full cs ih =>
    obtain ⟨fits, -⟩ := canon_full.mp canon
    cases key with
    | nil => exact absurd rfl ends.ne_nil
    | cons x r =>
      simp only [tryGet, nibbleAt, List.getElem?_cons_zero, List.drop_succ_cons, List.drop_zero,
        Lang.ok_bind, lookup_full_cons]
      rcases fits x with absent | ⟨rfl, v, _, present⟩ | ⟨plain, below⟩
      · simp [absent, tryGet]
      · simp [present, tryGet, ends.eq_nil_of_cons_term]
      · exact ih x below (ends.tail plain)

/-! ### Canonical nodes are determined by what they store -/

/-- A canonical node stores something. -/
theorem Canon.exists_lookup {n : Node} (canon : Canon n) : ∃ p v, lookup n p = some v := by
  induction n with
  | nil => exact absurd canon not_canon_nil
  | value v => exact absurd canon (not_canon_value v)
  | short k c ih =>
    rcases canon.cases with ⟨_, v, same, _, _⟩ | ⟨_, cs, same, _, _, below⟩ | ⟨_, same, _⟩
    · cases same
      exact ⟨k, v, by simp [lookup_short_value]⟩
    · cases same
      obtain ⟨p, v, found⟩ := ih below
      exact ⟨k ++ p, v, by rw [lookup_short_append, found]⟩
    · exact Node.noConfusion same
  | full cs ih =>
    obtain ⟨fits, two⟩ := canon_full.mp canon
    obtain ⟨i, -, -, present, -⟩ := one_lt_childCount_iff.mp two
    rcases fits i with absent | ⟨-, v, _, stored⟩ | ⟨-, below⟩
    · exact absurd absent present
    · exact ⟨[i], v, by simp [stored]⟩
    · obtain ⟨p, v, found⟩ := ih i below
      exact ⟨i :: p, v, by rw [lookup_full_cons, found]⟩

theorem Fits.exists_lookup {i : Nibble} {c : Node} (fits : Fits i c) (present : c ≠ .nil) :
    ∃ p v, lookup c p = some v := by
  rcases fits with absent | ⟨-, v, _, rfl⟩ | ⟨-, canon⟩
  · exact absurd absent present
  · exact ⟨[], v, by simp⟩
  · exact canon.exists_lookup

/-- Every path at which `f` stores a value starts with `k`. -/
def Below (f : List Nibble → Option (List UInt8)) (k : List Nibble) : Prop :=
  ∀ p v, f p = some v → k <+: p

/-- `f` stores values at two paths that part right after `k`. -/
def ForksAt (f : List Nibble → Option (List UInt8)) (k : List Nibble) : Prop :=
  ∃ i j p q v w, i ≠ j ∧ f (k ++ i :: p) = some v ∧ f (k ++ j :: q) = some w

/-- A prefix of two paths that part after `pre` is a prefix of `pre`. -/
theorem prefix_of_fork {k pre a b : List Nibble} {i j : Nibble} (onA : k <+: pre ++ i :: a)
    (onB : k <+: pre ++ j :: b) (differ : i ≠ j) : k <+: pre := by
  induction pre generalizing k with
  | nil =>
    cases k with
    | nil => exact List.nil_prefix
    | cons z k =>
      obtain ⟨zi, -⟩ := List.cons_prefix_cons.mp onA
      obtain ⟨zj, -⟩ := List.cons_prefix_cons.mp onB
      exact absurd (zi.symm.trans zj) differ
  | cons y pre ih =>
    cases k with
    | nil => exact List.nil_prefix
    | cons z k =>
      obtain ⟨rfl, restA⟩ := List.cons_prefix_cons.mp onA
      obtain ⟨-, restB⟩ := List.cons_prefix_cons.mp onB
      exact List.cons_prefix_cons.mpr ⟨rfl, ih restA restB⟩

theorem Below.prefix_of_forksAt {f : List Nibble → Option (List UInt8)} {k k' : List Nibble}
    (below : Below f k) (forks : ForksAt f k') : k <+: k' := by
  obtain ⟨i, j, p, q, v, w, differ, atI, atJ⟩ := forks
  exact prefix_of_fork (below _ _ atI) (below _ _ atJ) differ

/-- A leaf stores one value, so its paths never part. -/
theorem not_forksAt_leaf (k : List Nibble) (v : List UInt8) (k' : List Nibble) :
    ¬ ForksAt (lookup (.short k (.value v))) k' := by
  rintro ⟨i, j, p, q, _, _, differ, atI, atJ⟩
  rw [lookup_short_value] at atI atJ
  have onI : k' ++ i :: p = k := by
    by_contra off
    rw [if_neg off] at atI
    simp at atI
  have onJ : k' ++ j :: q = k := by
    by_contra off
    rw [if_neg off] at atJ
    simp at atJ
  have := onI.trans onJ.symm
  simp only [List.append_cancel_left_eq, List.cons.injEq] at this
  exact differ this.1

theorem Canon.forksAt_full {cs : Nibble → Node} (canon : Canon (.full cs)) : ForksAt (lookup (.full cs)) [] := by
  obtain ⟨fits, two⟩ := canon_full.mp canon
  obtain ⟨i, j, differ, atI, atJ⟩ := one_lt_childCount_iff.mp two
  obtain ⟨p, v, foundI⟩ := (fits i).exists_lookup atI
  obtain ⟨q, w, foundJ⟩ := (fits j).exists_lookup atJ
  exact ⟨i, j, p, q, v, w, differ, by simpa using foundI, by simpa using foundJ⟩

theorem forksAt_short {k : List Nibble} {c : Node} (forks : ForksAt (lookup c) []) :
    ForksAt (lookup (.short k c)) k := by
  obtain ⟨i, j, p, q, v, w, differ, atI, atJ⟩ := forks
  exact ⟨i, j, p, q, v, w, differ, by simpa using atI, by simpa using atJ⟩

theorem below_short (k : List Nibble) (c : Node) : Below (lookup (.short k c)) k :=
  fun _ _ found => prefix_of_lookup_short found

theorem lookup_eq_of_short {k : List Nibble} {c c' : Node}
    (same : lookup (.short k c) = lookup (.short k c')) : lookup c = lookup c' := by
  funext q
  rw [← lookup_short_append k c q, ← lookup_short_append k c' q, same]

/-- Two slots that store the same values hold the same node, given that this
holds for the canonical nodes in them. -/
theorem Fits.eq_of_lookup {i : Nibble} {c c' : Node} (fits : Fits i c) (fits' : Fits i c')
    (same : lookup c = lookup c')
    (ih : Canon c → ∀ n, Canon n → lookup c = lookup n → c = n) : c = c' := by
  -- A slot that stores nothing is empty.
  have empty : ∀ {d : Node}, Fits i d → lookup d = lookup .nil → d = .nil := by
    intro d fitsD storesNothing
    by_contra present
    obtain ⟨p, v, found⟩ := fitsD.exists_lookup present
    rw [storesNothing, lookup_nil] at found
    simp at found
  rcases fits with rfl | ⟨rfl, v, _, rfl⟩ | ⟨plain, canon⟩
  · exact (empty fits' same.symm).symm
  · rcases fits' with rfl | ⟨-, v', _, rfl⟩ | ⟨plain', _⟩
    · exact absurd (congrFun same []) (by simp)
    · have stored := congrFun same []
      simp only [lookup_value, if_pos, Option.some.injEq] at stored
      rw [stored]
    · exact absurd rfl plain'
  · rcases fits' with rfl | ⟨atValue, -⟩ | ⟨-, canon'⟩
    · exact empty (.inr (.inr ⟨plain, canon⟩)) same
    · exact absurd atValue plain
    · exact ih canon _ canon' same

/-- Two canonical nodes that store the same values are equal. -/
theorem Canon.eq_of_lookup {n : Node} (canon : Canon n) :
    ∀ n', Canon n' → lookup n = lookup n' → n = n' := by
  induction n with
  | nil => exact absurd canon not_canon_nil
  | value v => exact absurd canon (not_canon_value v)
  | short k c ih =>
    intro n' canon' same
    rcases canon.cases with ⟨_, v, same₁, _, _⟩ | ⟨_, cs, same₁, nonempty, _, below⟩ | ⟨_, same₁, _⟩
    · cases same₁
      rcases canon'.cases with ⟨k', v', rfl, _, _⟩ | ⟨k', cs', rfl, _, _, below'⟩ | ⟨cs', rfl, _⟩
      · -- Two leaves: the one path each stores at, and its value, agree.
        have stored := congrFun same k
        simp only [lookup_short_value, if_true] at stored
        by_cases onKey : k = k'
        · subst onKey
          simp only [if_true, Option.some.injEq] at stored
          rw [stored]
        · rw [if_neg onKey] at stored
          simp at stored
      · exact absurd (same ▸ forksAt_short below'.forksAt_full) (not_forksAt_leaf k v k')
      · exact absurd (same ▸ canon'.forksAt_full) (not_forksAt_leaf k v [])
    · cases same₁
      have forks := @forksAt_short k (.full cs) below.forksAt_full
      rcases canon'.cases with ⟨k', v', rfl, _, _⟩ | ⟨k', cs', rfl, nonempty', _, below'⟩ | ⟨cs', rfl, _⟩
      · exact absurd (same ▸ forks) (not_forksAt_leaf k' v' k)
      · -- Two extensions: each key is a prefix of the other, so they agree.
        have forks' := @forksAt_short k' (.full cs') below'.forksAt_full
        have shorter := (below_short k' (.full cs')).prefix_of_forksAt (same ▸ forks)
        have longer := (below_short k (.full cs)).prefix_of_forksAt (same.symm ▸ forks')
        have keys : k = k' := longer.eq_of_length (Nat.le_antisymm longer.length_le shorter.length_le)
        subst keys
        rw [ih below _ below' (lookup_eq_of_short same)]
      · have atRoot := (below_short k (.full cs)).prefix_of_forksAt (same.symm ▸ canon'.forksAt_full)
        exact absurd (List.prefix_nil.mp atRoot) nonempty
    · exact Node.noConfusion same₁
  | full cs ih =>
    intro n' canon' same
    obtain ⟨fits, _⟩ := canon_full.mp canon
    rcases canon'.cases with ⟨k', v', rfl, _, _⟩ | ⟨k', cs', rfl, nonempty', _, _⟩ | ⟨cs', rfl, fits', _⟩
    · exact absurd (same ▸ canon.forksAt_full) (not_forksAt_leaf k' v' [])
    · have atRoot := (below_short k' (.full cs')).prefix_of_forksAt (same ▸ canon.forksAt_full)
      exact absurd (List.prefix_nil.mp atRoot) nonempty'
    · -- Two full nodes: slot by slot.
      congr 1
      funext i
      have slot : lookup (cs i) = lookup (cs' i) := by
        funext q
        rw [← lookup_full_cons cs i q, ← lookup_full_cons cs' i q, same]
      exact (fits i).eq_of_lookup (fits' i) slot (ih i)

/-! ### The canonical form of the code's comments -/

theorem Fits.minimal {i : Nibble} {c : Node} (fits : Fits i c) (ih : Canon c → Minimal c) : Minimal c := by
  rcases fits with rfl | ⟨-, v, nonempty, rfl⟩ | ⟨-, canon⟩
  · exact trivial
  · exact nonempty
  · exact ih canon

theorem Canon.minimal {n : Node} (canon : Canon n) : Minimal n := by
  induction n with
  | nil => exact absurd canon not_canon_nil
  | value v => exact absurd canon (not_canon_value v)
  | short k c ih =>
    rcases canon.cases with ⟨_, v, same, leaf, nonempty⟩ | ⟨_, cs, same, keyed, _, below⟩ | ⟨_, same, _⟩
    · cases same
      exact ⟨leaf.ne_nil, rfl, nonempty⟩
    · cases same
      exact ⟨keyed, rfl, ih below⟩
    · exact Node.noConfusion same
  | full cs ih =>
    obtain ⟨fits, two⟩ := canon_full.mp canon
    exact ⟨two, fun i => (fits i).minimal (ih i)⟩

end Ebakus.Trie

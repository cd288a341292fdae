/-
# The Merkle Patricia trie (`trie/trie.go`, `trie/node.go`, `trie/hasher.go`)

The model keeps a trie whose nodes are all in memory. The code's node kinds are
then four: nothing, a full node with seventeen children (the sixteen nibbles
and, in slot 16, the value stored at the node's own path), a short node that
skips a run of nibbles, and a value. Hash nodes stand for subtries not loaded
from the database; an in-memory trie holds none, so the model leaves out the
`hashNode` cases, the `prefix` arguments that only serve to resolve them, and
the `didResolve` result of `tryGet`. The node flags (the cached hash and the
dirty bit) are left out too: they never change what an operation returns, and
`Hash` recomputes what they cache.

`tryGet`, `insert` and `delete` are the code's recursions over the node, with a
key that is the rest of the hex key still to walk (`key[pos:]` in `tryGet`).
Every index the code takes into a key is checked as Go checks it, so that a
trie whose shape the operations never build still runs as the code runs.
-/

import Mathlib.Data.List.FinRange
import Ebakus.Lang.Go
import Ebakus.Common.Types
import Ebakus.Rlp.Encode
import Ebakus.Trie.Encoding

namespace Ebakus.Trie

open Ebakus.Lang Ebakus.Common Ebakus.Rlp

-- `trie.Trie` lives in package `trie`; the model keeps both names.
set_option linter.dupNamespace false

/-- An in-memory trie node. -/
inductive Node
  | nil
  | full (Children : Nibble → Node)
  | short (Key : List Nibble) (Val : Node)
  | value (bytes : List UInt8)

namespace Node

/-- `n == nil`. -/
def isNil : Node → Bool
  | nil => true
  | _ => false

theorem isNil_nil : isNil nil = true :=
  rfl

/-- The dynamic type test `n.(*shortNode)`. -/
def isShort : Node → Bool
  | short _ _ => true
  | _ => false

end Node

/-- `Trie`, by its root node. -/
structure Trie where
  root : Node

/-- `key[i]`, which panics past the end. -/
def nibbleAt (key : List Nibble) (i : Nat) : Go Nibble :=
  match key[i]? with
  | some x => .ok x
  | none => .error .indexOutOfRange

theorem nibbleAt_of_getElem? {key : List Nibble} {i : Nat} {x : Nibble} (found : key[i]? = some x) :
    nibbleAt key i = .ok x := by
  rw [nibbleAt, found]

/-- The seventeen children of a new `fullNode`. -/
def emptyChildren : Nibble → Node := fun _ => .nil

theorem emptyChildren_apply (i : Nibble) : emptyChildren i = .nil :=
  rfl

/-! ### Lookup -/

/-- `tryGet`: the value at the end of `key`, or `none` where the path leaves
the trie. A value node answers whatever is left of the key. -/
def tryGet : Node → List Nibble → Go (Option (List UInt8))
  | .nil, _ => .ok none
  | .value v, _ => .ok (some v)
  | .short nKey nVal, key =>
    if key.length < nKey.length ∨ nKey ≠ key.take nKey.length then .ok none
    else tryGet nVal (key.drop nKey.length)
  | .full cs, key => do
    let x ← nibbleAt key 0
    tryGet (cs x) (key.drop 1)

/-- `TryGet`. -/
def Trie.TryGet (t : Trie) (key : List UInt8) : Go (Option (List UInt8)) :=
  tryGet t.root (keybytesToHex key)

/-! ### Insertion -/

/-- `insert` at a nil node, as the split of a short node calls it: the value
itself at an empty key, and otherwise a short node leading to it. -/
def insertNil (key : List Nibble) (value : Node) : Go (Bool × Node) :=
  if key = [] then .ok (true, value) else .ok (true, .short key value)

theorem insertNil_nil (value : Node) : insertNil [] value = .ok (true, value) :=
  rfl

theorem insertNil_of_ne_nil {key : List Nibble} (nonempty : key ≠ []) (value : Node) :
    insertNil key value = .ok (true, .short key value) :=
  if_neg nonempty

/-- `insert`: the `dirty` flag and the node with `value` stored at the end of
`key`. A node that does not change is returned as it was. -/
def insert : Node → List Nibble → Node → Go (Bool × Node)
  | .value v, [], value =>
    match value with
    | .value w => .ok (v != w, value)
    | _ => .error .typeAssertion
  | _, [], value => .ok (true, value)
  | .short nKey nVal, key, value =>
    let matchlen := prefixLen key nKey
    -- The whole short key matches: insert below it.
    if matchlen = nKey.length then do
      let (dirty, nn) ← insert nVal (key.drop matchlen) value
      if !dirty then .ok (false, .short nKey nVal)
      else .ok (true, .short nKey nn)
    -- Otherwise branch out where the keys differ.
    else do
      let i ← nibbleAt nKey matchlen
      let (_, c₁) ← insertNil (nKey.drop (matchlen + 1)) nVal
      let j ← nibbleAt key matchlen
      let (_, c₂) ← insertNil (key.drop (matchlen + 1)) value
      let branch := Node.full (Function.update (Function.update emptyChildren i c₁) j c₂)
      if matchlen = 0 then .ok (true, branch)
      else .ok (true, .short (key.take matchlen) branch)
  | .full cs, x :: rest, value => do
    let (dirty, nn) ← insert (cs x) rest value
    if !dirty then .ok (false, .full cs)
    else .ok (true, .full (Function.update cs x nn))
  | .nil, key, value => .ok (true, .short key value)
  | .value _, _ :: _, _ => .error (.explicit "trie.valueNode: invalid node")

/-! The equations of `insert` at the shapes the proofs meet. -/

theorem insert_value_nil (v : List UInt8) (value : Node) :
    insert (.value v) [] value = (match value with
      | .value w => .ok (v != w, value)
      | _ => .error .typeAssertion) :=
  rfl

theorem insert_short_cons (nKey : List Nibble) (nVal : Node) (x : Nibble) (rest : List Nibble) (value : Node) :
    insert (.short nKey nVal) (x :: rest) value =
      if prefixLen (x :: rest) nKey = nKey.length then (do
        let (dirty, nn) ← insert nVal ((x :: rest).drop (prefixLen (x :: rest) nKey)) value
        if !dirty then .ok (false, .short nKey nVal)
        else .ok (true, .short nKey nn))
      else (do
        let i ← nibbleAt nKey (prefixLen (x :: rest) nKey)
        let (_, c₁) ← insertNil (nKey.drop (prefixLen (x :: rest) nKey + 1)) nVal
        let j ← nibbleAt (x :: rest) (prefixLen (x :: rest) nKey)
        let (_, c₂) ← insertNil ((x :: rest).drop (prefixLen (x :: rest) nKey + 1)) value
        let branch := Node.full (Function.update (Function.update emptyChildren i c₁) j c₂)
        if prefixLen (x :: rest) nKey = 0 then .ok (true, branch)
        else .ok (true, .short ((x :: rest).take (prefixLen (x :: rest) nKey)) branch)) :=
  rfl

theorem insert_full_cons (cs : Nibble → Node) (x : Nibble) (rest : List Nibble) (value : Node) :
    insert (.full cs) (x :: rest) value = (do
      let (dirty, nn) ← insert (cs x) rest value
      if !dirty then .ok (false, .full cs)
      else .ok (true, .full (Function.update cs x nn))) :=
  rfl

/-- `insertNil` is `insert` at a nil node. -/
theorem insert_nil (key : List Nibble) (value : Node) : insert .nil key value = insertNil key value := by
  cases key <;> rfl

/-! ### Deletion -/

/-- The loop over the children after a deletion: the index of the only child
left, `-1` if there is none, and `-2` as soon as a second one shows. -/
def childPosLoop (cs : Nibble → Node) : List Nibble → Int → Int
  | [], pos => pos
  | i :: rest, pos =>
    if !(cs i).isNil then
      if pos = -1 then childPosLoop cs rest i.val else -2
    else childPosLoop cs rest pos

theorem childPosLoop_cons (cs : Nibble → Node) (i : Nibble) (rest : List Nibble) (pos : Int) :
    childPosLoop cs (i :: rest) pos =
      if !(cs i).isNil then (if pos = -1 then childPosLoop cs rest i.val else -2)
      else childPosLoop cs rest pos :=
  rfl

/-- `pos` after the loop over all seventeen children. -/
def childPos (cs : Nibble → Node) : Int :=
  childPosLoop cs (List.finRange 17) (-1)

/-- The end of `delete` at a full node, once a child has changed: a node left
with one child becomes a short node of that child's nibble, merged with the
child when the child is itself a short node; a node with two children or more
stays. -/
def reduceFull (cs : Nibble → Node) : Go (Bool × Node) :=
  let pos := childPos cs
  if 0 ≤ pos then
    let p : Nibble := Fin.ofNat 17 pos.toNat
    if p ≠ 16 then
      match cs p with
      | .short cKey cVal => .ok (true, .short (p :: cKey) cVal)
      | _ => .ok (true, .short [p] (cs p))
    else .ok (true, .short [p] (cs p))
  else .ok (true, .full cs)

/-- `delete`: the `dirty` flag and the node with the value at `key` removed,
reduced on the way up: a full node left with one child becomes a short node,
and a short node above a short node is merged with it. -/
def delete : Node → List Nibble → Go (Bool × Node)
  | .short nKey nVal, key =>
    let matchlen := prefixLen key nKey
    if matchlen < nKey.length then .ok (false, .short nKey nVal)
    else if matchlen = key.length then .ok (true, .nil)
    else do
      let (dirty, child) ← delete nVal (key.drop nKey.length)
      if !dirty then .ok (false, .short nKey nVal)
      else
        match child with
        | .short cKey cVal => .ok (true, .short (nKey ++ cKey) cVal)
        | child => .ok (true, .short nKey child)
  | .full cs, key => do
    let x ← nibbleAt key 0
    let (dirty, nn) ← delete (cs x) (key.drop 1)
    if !dirty then .ok (false, .full cs)
    else reduceFull (Function.update cs x nn)
  | .value _, _ => .ok (true, .nil)
  | .nil, _ => .ok (false, .nil)

/-! The equations of `delete`, one for each kind of node. -/

theorem delete_short (nKey : List Nibble) (nVal : Node) (key : List Nibble) :
    delete (.short nKey nVal) key =
      if prefixLen key nKey < nKey.length then .ok (false, .short nKey nVal)
      else if prefixLen key nKey = key.length then .ok (true, .nil)
      else (do
        let (dirty, child) ← delete nVal (key.drop nKey.length)
        if !dirty then .ok (false, .short nKey nVal)
        else
          match child with
          | .short cKey cVal => .ok (true, .short (nKey ++ cKey) cVal)
          | child => .ok (true, .short nKey child)) :=
  rfl

theorem delete_full (cs : Nibble → Node) (key : List Nibble) :
    delete (.full cs) key = (do
      let x ← nibbleAt key 0
      let (dirty, nn) ← delete (cs x) (key.drop 1)
      if !dirty then .ok (false, .full cs)
      else reduceFull (Function.update cs x nn)) :=
  rfl

theorem delete_value (v : List UInt8) (key : List Nibble) : delete (.value v) key = .ok (true, .nil) :=
  rfl

theorem delete_nil (key : List Nibble) : delete .nil key = .ok (false, .nil) :=
  rfl

/-- `TryUpdate`: an empty value deletes the key. -/
def Trie.TryUpdate (t : Trie) (key value : List UInt8) : Go Trie :=
  let k := keybytesToHex key
  if value.length ≠ 0 then do
    let (_, n) ← insert t.root k (.value value)
    .ok ⟨n⟩
  else do
    let (_, n) ← delete t.root k
    .ok ⟨n⟩

/-- `TryDelete`. -/
def Trie.TryDelete (t : Trie) (key : List UInt8) : Go Trie := do
  let (_, n) ← delete t.root (keybytesToHex key)
  .ok ⟨n⟩

/-! ### Hashing -/

/-- `emptyRoot`, the hash of an empty trie. -/
def emptyRoot : Hash :=
  BytesToHash [0x56, 0xe8, 0x1f, 0x17, 0x1b, 0xcc, 0x55, 0xa6, 0xff, 0x83, 0x45, 0xe6, 0x92, 0xc0,
    0xf8, 0x6e, 0x5b, 0x48, 0xe0, 0x1b, 0x99, 0x6c, 0xad, 0xc0, 0x01, 0x62, 0x2f, 0xb5, 0xe3, 0x63,
    0xb4, 0x21]

/-- `store` for a child: a node whose encoding is shorter than a hash stays
inside its parent, a longer one is replaced by the hash of its encoding. -/
def hashChild (Keccak256 : List UInt8 → Hash) (enc : List UInt8) : List UInt8 :=
  if enc.length < 32 then enc else encodeString (Keccak256 enc).bytes

/-- The RLP encoding of a node after `hashChildren` has collapsed its
children: a short node is the list of its compact key and its child, a full
node the list of its seventeen children, and a value or an absent child
(`nilValueNode`) a string. The value of a short node and slot 16 of a full
node are kept as they are. -/
def encodeNode (Keccak256 : List UInt8 → Hash) : Node → List UInt8
  | .nil => encodeString []
  | .value v => encodeString v
  | .short k c =>
    let val := match c with
      | .value v => encodeString v
      | c => hashChild Keccak256 (encodeNode Keccak256 c)
    encodeList (encodeString (hexToCompact k) ++ val)
  | .full cs =>
    encodeList ((List.finRange 17).flatMap fun i =>
      if i = 16 then encodeNode Keccak256 (cs i) else hashChild Keccak256 (encodeNode Keccak256 (cs i)))

/-- `Hash`: the root is hashed even when its encoding is short. -/
def Trie.Hash (Keccak256 : List UInt8 → Hash) (t : Trie) : Hash :=
  match t.root with
  | .nil => emptyRoot
  | root => Keccak256 (encodeNode Keccak256 root)

end Ebakus.Trie

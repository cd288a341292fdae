/-
# Table rows through the ABI (`accounts/abi/table.go`, `accounts/abi/argument.go`)

A contract declares each of its tables in its ABI as a named list of columns.
The DB contract holds a row as a Go struct that `GetTableInstance` builds with
`reflect.StructOf`: one field a column, named by the column's name in camel
case (`ToCamelCase`). `insertObj` fills such a struct from the row's ABI
encoding with `Arguments.Unpack`, which finds each column's field through the
same camel case (`mapArgNamesToStructFields`). `get` and `next` encode the row
they read back with `Table.Pack`, which looks each field up by the column's
own name.

A column whose name is not its own camel case, because it starts with a small
letter or holds an underscore, names no field: `Pack` fails on every row of
its table, with a type error, or for a slice column with a panic of `reflect`
on the zero `Value`.

A struct value is the list of its fields with their names, and `FieldByName`
gives `none` for the zero `Value` of a name no field has. Of the checks that
`reflect.StructOf` makes on the field names, `Table.Accepted` keeps the one the
proofs use, that the names are distinct.
-/

import Ebakus.Accounts.Abi

namespace Ebakus.Accounts.Abi

open Ebakus.Lang Ebakus.Common

/-- `strings.ToUpper` of the one-byte string `s[:1]`: a small ASCII letter is
raised, another ASCII byte kept, and a byte past ASCII, which is no UTF-8 on
its own, becomes the encoding of `utf8.RuneError`. -/
def toUpperFirst (b : UInt8) : List UInt8 :=
  if b < 0x80 then [if 97 ≤ b ∧ b ≤ 122 then b - 32 else b] else [0xEF, 0xBF, 0xBD]

/-- `strings.ToUpper(s[:1]) + s[1:]` on a non-empty part; an empty part stays. -/
def upperFirst : List UInt8 → List UInt8
  | [] => []
  | b :: rest => toUpperFirst b ++ rest

/-- `ToCamelCase`: split at the underscores, raise the first byte of each
part, and join the parts. -/
def ToCamelCase (input : List UInt8) : List UInt8 :=
  ((input.splitOn 95).map upperFirst).flatten

/-- `abi.Argument` as a table column: its name and its type. -/
structure Argument where
  name : List UInt8
  type : AbiType

/-- `abi.Table`. -/
structure Table where
  name : List UInt8
  inputs : List Argument

/-- A struct value: its fields in order, each with its name. -/
abbrev Struct := List (List UInt8 × AbiValue)

/-- The errors of the table functions; decoding errors are those of `toGoType`. -/
inductive TableError
  | decode (err : AbiError)
  /-- "abi: purely anonymous or underscored field is not supported" -/
  | underscoredField
  /-- "abi: attempting to unmarshall an empty string while arguments are expected" -/
  | emptyOutput
  /-- "abi: purely underscored output cannot unpack to struct" -/
  | underscoredOutput
  /-- "abi: multiple outputs mapping to the same struct field '%s'" -/
  | multipleOutputs (field : List UInt8)
  /-- "abi: field %s can't be found in the given value" -/
  | fieldNotFound (name : List UInt8)
  /-- "abi: cannot use %v as type %v as argument", from `typeCheck`. -/
  | typeErr
  deriving DecidableEq

/-- The zero value of a column's Go type, which `reflect.New` gives each field. -/
def AbiType.zero : AbiType → AbiValue
  | .uint64 => .uint64 0
  | .bool => .bool false
  | .address => .address Address.zero
  | .fixedBytes size => .fixedBytes (List.replicate size 0)
  | .string => .string []
  | .bytes => .bytes []
  | .slice _ => .slice []

/-- `isDynamicType`: strings, byte strings and slices are encoded behind an
offset word. -/
def isDynamicType : AbiType → Bool
  | .string | .bytes | .slice _ => true
  | _ => false

/-- `Table.GetTableInstance`: a new struct with a zero field for each column,
named by the column's camel case. -/
def Table.GetTableInstance (table : Table) : Except TableError Struct :=
  if table.inputs.any fun arg => ToCamelCase arg.name = [] then .error .underscoredField
  else .ok (table.inputs.map fun arg => (ToCamelCase arg.name, arg.type.zero))

/-- What `createTable` asks of a table once its ABI is parsed: that
`GetTableInstance` succeeds, and that `reflect.StructOf` gets distinct field
names. -/
structure Table.Accepted (table : Table) : Prop where
  camel : ∀ arg ∈ table.inputs, ToCamelCase arg.name ≠ []
  distinct : (table.inputs.map fun arg => ToCamelCase arg.name).Nodup

/-- The second round of `mapArgNamesToStructFields` over a struct with the
field names `fields` and no `abi` tags, as every struct `GetTableInstance`
builds: each argument is paired with the field its camel case names, if
there is one. `abi2struct` is returned; `struct2abi` also keeps the camel
cases that name no field. An argument met twice is skipped, since its check
compares two equal names. -/
def mapArgNamesToStructFields (fields : List (List UInt8)) :
    List (List UInt8) → List (List UInt8 × List UInt8) → List (List UInt8 × List UInt8) →
      Except TableError (List (List UInt8 × List UInt8))
  | [], abi2struct, _ => .ok abi2struct
  | argName :: argNames, abi2struct, struct2abi =>
    let structFieldName := ToCamelCase argName
    if structFieldName = [] then .error .underscoredOutput
    else if (abi2struct.lookup argName).isSome then
      mapArgNamesToStructFields fields argNames abi2struct struct2abi
    else if (struct2abi.lookup structFieldName).isSome then .error (.multipleOutputs structFieldName)
    else if structFieldName ∈ fields then
      mapArgNamesToStructFields fields argNames ((argName, structFieldName) :: abi2struct)
        ((structFieldName, argName) :: struct2abi)
    else mapArgNamesToStructFields fields argNames abi2struct ((structFieldName, argName) :: struct2abi)

/-- `FieldByName(name).Set(value)`: the struct with the value of its field
`name` replaced, or `none` when no field has that name. -/
def setField : Struct → List UInt8 → AbiValue → Option Struct
  | [], _, _ => none
  | (fieldName, old) :: fields, name, value =>
    if fieldName = name then some ((fieldName, value) :: fields)
    else ((fieldName, old) :: ·) <$> setField fields name value

/-- The loop of `unpackTuple` into a struct: each decoded value set in the
field its argument is paired with. -/
def setFields (abi2struct : List (List UInt8 × List UInt8)) :
    Struct → List Argument → List AbiValue → Except TableError Struct
  | obj, arg :: args, value :: values =>
    match (abi2struct.lookup arg.name).bind fun fieldName => setField obj fieldName value with
    | none => .error (.fieldNotFound arg.name)
    | some obj => setFields abi2struct obj args values
  | obj, _, _ => .ok obj

/-- `Arguments.Unpack` of a table's columns into the struct `obj`. With one
column `unpackAtomic` pairs it the same way as `unpackTuple` does; with none
it is handed `marshalledValues[0]` of an empty slice. -/
def Table.Unpack (table : Table) (obj : Struct) (data : List UInt8) : Go (Except TableError Struct) :=
  if data.isEmpty then .ok (if table.inputs.isEmpty then .ok obj else .error .emptyOutput)
  else
    match unpackValues (table.inputs.map Argument.type) data with
    | .error err => .ok (.error (.decode err))
    | .ok values =>
      if values.isEmpty then .error .indexOutOfRange
      else .ok do
        let abi2struct ← mapArgNamesToStructFields (obj.map Prod.fst)
          (table.inputs.map Argument.name) [] []
        setFields abi2struct obj table.inputs values

mutual

/-- `Type.pack` of a value: `packElement` for the elementary types, and for a
slice its length, then its elements, each behind an offset word when the
element type is dynamic. A value of another kind fails `typeCheck`. -/
def pack : AbiType → AbiValue → Except TableError (List UInt8)
  | .uint64, .uint64 n => .ok (packNum n.toNat)
  | .bool, .bool b => .ok (packNum (if b then 1 else 0))
  | .address, .address a => .ok (LeftPadBytes a.bytes 32)
  | .fixedBytes size, .fixedBytes bytes =>
    if bytes.length = size then .ok (RightPadBytes bytes 32) else .error .typeErr
  | .string, .string s => .ok (packBytesSlice s)
  | .bytes, .bytes b => .ok (packBytesSlice b)
  | .slice elem, .slice values => do
    let (heads, tail) ← packElems elem (32 * values.length) values
    .ok (packNum values.length ++ heads ++ tail)
  | _, _ => .error .typeErr

/-- The loop of `pack` over a slice's elements, from the offset `offset` of
the next dynamic element: the heads and the tail. -/
def packElems (elem : AbiType) : Nat → List AbiValue → Except TableError (List UInt8 × List UInt8)
  | _, [] => .ok ([], [])
  | offset, v :: vs => do
    let val ← pack elem v
    if isDynamicType elem then
      let (heads, tail) ← packElems elem (offset + val.length) vs
      .ok (packNum offset ++ heads, val ++ tail)
    else
      let (heads, tail) ← packElems elem offset vs
      .ok (val ++ heads, tail)

end

/-- `Type.pack` of what `FieldByName` found. On the zero `Value`, `typeCheck`
finds the kind `Invalid`; for a slice type `sliceTypeCheck` formats its error
with `val.Type()`, which panics. -/
def packField (t : AbiType) : Option AbiValue → Go (Except TableError (List UInt8))
  | some v => .ok (pack t v)
  | none =>
    match t with
    | .slice _ => .error .zeroValue
    | _ => .ok (.error .typeErr)

/-- The loop of `Table.Pack` from the input offset `inputOffset`: each
column's field, looked up by the column's name, packed in place, or for a
dynamic column behind an offset word with the packed value appended to the
variable input. -/
def packColumns (obj : Struct) : Nat → List Argument → Go (Except TableError (List UInt8 × List UInt8))
  | _, [] => .ok (.ok ([], []))
  | inputOffset, input :: inputs => do
    match ← packField input.type (obj.lookup input.name) with
    | .error err => return .error err
    | .ok packed =>
      if isDynamicType input.type then
        return (← packColumns obj (inputOffset + packed.length) inputs).map
          fun (ret, variableInput) => (packNum inputOffset ++ ret, packed ++ variableInput)
      else
        return (← packColumns obj inputOffset inputs).map
          fun (ret, variableInput) => (packed ++ ret, variableInput)

/-- `Table.Pack` of a row: every column takes one word in front, so the
variable input starts after `32` bytes a column. -/
def Table.Pack (table : Table) (obj : Struct) : Go (Except TableError (List UInt8)) := do
  return (← packColumns obj (32 * table.inputs.length) table.inputs).map
    fun (ret, variableInput) => ret ++ variableInput

section CamelCase

/-- The parts of a split hold no separator. -/
theorem forall_mem_splitOnP {α : Type} {p : α → Bool} (xs : List α) :
    ∀ part ∈ xs.splitOnP p, ∀ x ∈ part, p x = false := by
  induction xs with
  | nil => simp
  | cons a xs ih =>
    obtain ⟨first, rest, parts⟩ := List.exists_cons_of_ne_nil (List.splitOnP_ne_nil p xs)
    rw [List.splitOnP_cons_eq_if_modifyHead, parts]
    rw [parts] at ih
    split
    · simpa using ih
    · rename_i kept
      simp only [List.modifyHead_cons, List.mem_cons, forall_eq_or_imp] at ih ⊢
      exact ⟨⟨by simpa using kept, ih.1⟩, ih.2⟩

theorem underscore_not_mem_toUpperFirst {b : UInt8} (other : b ≠ 95) : 95 ∉ toUpperFirst b := by
  unfold toUpperFirst
  split_ifs <;> simp <;> grind

theorem not_lower_head_toUpperFirst (b : UInt8) :
    ∀ c ∈ (toUpperFirst b).head?, ¬(97 ≤ c ∧ c ≤ 122) := by
  unfold toUpperFirst
  split_ifs <;> simp <;> grind

/-- A camel case holds no underscore. -/
theorem underscore_not_mem_ToCamelCase (input : List UInt8) : 95 ∉ ToCamelCase input := by
  simp only [ToCamelCase, List.mem_flatten, List.mem_map]
  rintro ⟨_, ⟨part, split, rfl⟩, underscore⟩
  have separated := forall_mem_splitOnP input part split
  cases part with
  | nil => simp [upperFirst] at underscore
  | cons b rest =>
    simp only [List.mem_cons, forall_eq_or_imp, beq_eq_false_iff_ne] at separated
    simp only [upperFirst, List.mem_append] at underscore
    rcases underscore with raised | inRest
    · exact underscore_not_mem_toUpperFirst separated.1 raised
    · simpa using separated.2 _ inRest

/-- A camel case does not start with a small ASCII letter. -/
theorem not_lower_head_ToCamelCase (input : List UInt8) :
    ∀ c ∈ (ToCamelCase input).head?, ¬(97 ≤ c ∧ c ≤ 122) := by
  unfold ToCamelCase
  induction input.splitOn 95 with
  | nil => simp
  | cons part parts ih =>
    cases part with
    | nil => simpa [upperFirst] using ih
    | cons b rest =>
      obtain ⟨first, raised, upper⟩ := List.exists_cons_of_ne_nil (by unfold toUpperFirst; split <;> simp :
        toUpperFirst b ≠ [])
      have := not_lower_head_toUpperFirst b
      rw [upper] at this
      simpa [upperFirst, upper] using this

/-- A name that holds an underscore or starts with a small ASCII letter is
the camel case of no name. -/
theorem ToCamelCase_ne_of_raw {name : List UInt8}
    (raw : 95 ∈ name ∨ ∃ c ∈ name.head?, 97 ≤ c ∧ c ≤ 122) (input : List UInt8) :
    ToCamelCase input ≠ name := by
  rintro rfl
  rcases raw with underscore | ⟨c, head, lower⟩
  · exact underscore_not_mem_ToCamelCase input underscore
  · exact not_lower_head_ToCamelCase input c head lower

end CamelCase

section Rows

variable {table : Table} {obj row : Struct}

/-- The instance has one field a column, named by the column's camel case. -/
theorem names_GetTableInstance (made : table.GetTableInstance = .ok obj) :
    obj.map Prod.fst = table.inputs.map fun arg => ToCamelCase arg.name := by
  unfold Table.GetTableInstance at made
  split at made
  · cases made
  · cases made
    simp

theorem names_setField {fields fields' : Struct} {name : List UInt8} {value : AbiValue}
    (set : setField fields name value = some fields') : fields'.map Prod.fst = fields.map Prod.fst := by
  induction fields generalizing fields' with
  | nil => simp [setField] at set
  | cons field fields ih =>
    unfold setField at set
    split at set
    · cases set
      simp_all
    · simp only [Option.map_eq_map, Option.map_eq_some_iff] at set
      obtain ⟨rest, restSet, rfl⟩ := set
      simp [ih restSet]

theorem names_setFields {abi2struct : List (List UInt8 × List UInt8)} {args : List Argument}
    {values : List AbiValue} (set : setFields abi2struct obj args values = .ok row) :
    row.map Prod.fst = obj.map Prod.fst := by
  fun_induction setFields abi2struct obj args values with
  | case1 obj arg args value values found => simp at set
  | case2 obj arg args value values obj' found ih =>
    obtain ⟨fieldName, -, setOne⟩ := Option.bind_eq_some_iff.mp found
    rw [ih set, names_setField setOne]
  | case3 obj _ _ => cases set; rfl

/-- `Unpack` fills the fields of a struct and keeps their names. -/
theorem names_Unpack {data : List UInt8} (stored : table.Unpack obj data = .ok (.ok row)) :
    row.map Prod.fst = obj.map Prod.fst := by
  unfold Table.Unpack at stored
  split at stored
  · split at stored
    · cases stored; rfl
    · cases stored
  · split at stored
    · cases stored
    · split at stored
      · cases stored
      · obtain ⟨abi2struct, -, set⟩ := bind_eq_ok (Except.ok.inj stored)
        exact names_setFields set

/-- `packField` panics only on the zero `Value` of a slice column. -/
theorem packField_panics {t : AbiType} {field : Option AbiValue} {cause : Panic}
    (panics : packField t field = .error cause) : cause = .zeroValue := by
  unfold packField at panics
  split at panics
  · cases panics
  · split at panics <;> cases panics
    rfl

/-- `Type.pack` of the zero `Value` fails: with a type error, or for a slice
column with a panic. -/
theorem packField_none (t : AbiType) :
    packField t none = .error .zeroValue ∨ ∃ err, packField t none = .ok (.error err) := by
  cases t <;> simp [packField]

/-- The loop of `Table.Pack` fails on a struct that has no field named as one
of the columns. -/
theorem packColumns_of_missing {inputs : List Argument} {column : Argument} (mem : column ∈ inputs)
    (missing : obj.lookup column.name = none) (inputOffset : Nat) :
    packColumns obj inputOffset inputs = .error .zeroValue ∨
      ∃ err, packColumns obj inputOffset inputs = .ok (.error err) := by
  induction inputs generalizing inputOffset with
  | nil => cases mem
  | cons input inputs ih =>
    rcases List.mem_cons.mp mem with rfl | later
    · rcases packField_none column.type with panics | ⟨err, fails⟩
      · left
        simp [packColumns, missing, panics]
      · right
        exact ⟨err, by simp [packColumns, missing, fails]⟩
    · rcases hfield : packField input.type (obj.lookup input.name) with cause | result
      · left
        simp [packColumns, hfield, packField_panics hfield]
      · cases result with
        | error err => exact .inr ⟨err, by simp [packColumns, hfield]⟩
        | ok packed =>
          by_cases dynamic : isDynamicType input.type
          · rcases ih later (inputOffset + packed.length) with panics | ⟨err, fails⟩
            · left
              simp [packColumns, hfield, dynamic, panics]
            · exact .inr ⟨err, by simp [packColumns, hfield, dynamic, fails, Except.map]⟩
          · rcases ih later inputOffset with panics | ⟨err, fails⟩
            · left
              simp [packColumns, hfield, dynamic, panics]
            · exact .inr ⟨err, by simp [packColumns, hfield, dynamic, fails, Except.map]⟩

/-- A column whose name holds an underscore or starts with a small ASCII
letter names no field of its table's rows: `Table.Pack` fails on every row
that `insertObj` stores, and `get` and `next` return none of them. -/
theorem Table.Pack_fails_on_rows_with_raw_column_name (table : Table) (column : Argument)
    (mem : column ∈ table.inputs) (raw : 95 ∈ column.name ∨ ∃ c ∈ column.name.head?, 97 ≤ c ∧ c ≤ 122)
    {obj row : Struct} {data : List UInt8} (made : table.GetTableInstance = .ok obj)
    (stored : table.Unpack obj data = .ok (.ok row)) :
    table.Pack row = .error .zeroValue ∨ ∃ err, table.Pack row = .ok (.error err) := by
  have names : row.map Prod.fst = table.inputs.map fun arg => ToCamelCase arg.name := by
    rw [names_Unpack stored, names_GetTableInstance made]
  have missing : row.lookup column.name = none := by
    simp only [List.lookup_eq_none_iff, bne_iff_ne, ne_eq]
    rintro ⟨fieldName, value⟩ field rfl
    have named : column.name ∈ row.map Prod.fst := List.mem_map_of_mem (f := Prod.fst) field
    rw [names] at named
    obtain ⟨arg, -, camel⟩ := List.mem_map.mp named
    exact ToCamelCase_ne_of_raw raw arg.name camel
  rcases packColumns_of_missing mem missing (32 * table.inputs.length) with panics | ⟨err, fails⟩
  · left
    simp [Table.Pack, panics]
  · exact .inr ⟨err, by simp [Table.Pack, fails, Except.map]⟩

theorem Table.Pack_fails_on_rows_with_raw_column_name_of_id :
    (⟨[116], [⟨[105, 100], .uint64⟩]⟩ : Table).Accepted ∧
      (⟨[116], [⟨[105, 100], .uint64⟩]⟩ : Table).GetTableInstance = .ok [([73, 100], .uint64 0)] ∧
      (⟨[116], [⟨[105, 100], .uint64⟩]⟩ : Table).Unpack [([73, 100], .uint64 0)] (packNum 7) =
        .ok (.ok [([73, 100], .uint64 7)]) ∧
      ((⟨[116], [⟨[105, 100], .uint64⟩]⟩ : Table).Pack [([73, 100], .uint64 7)] = .error .zeroValue ∨
        ∃ err, (⟨[116], [⟨[105, 100], .uint64⟩]⟩ : Table).Pack [([73, 100], .uint64 7)] = .ok (.error err)) := by
  have made : (⟨[116], [⟨[105, 100], .uint64⟩]⟩ : Table).GetTableInstance = .ok [([73, 100], .uint64 0)] :=
    rfl
  have stored : (⟨[116], [⟨[105, 100], .uint64⟩]⟩ : Table).Unpack [([73, 100], .uint64 0)] (packNum 7) =
      .ok (.ok [([73, 100], .uint64 7)]) :=
    rfl
  exact ⟨⟨by decide, by decide⟩, made, stored,
    Table.Pack_fails_on_rows_with_raw_column_name _ ⟨[105, 100], .uint64⟩ (by simp)
      (.inr ⟨105, rfl, by decide⟩) made stored⟩

end Rows

end Ebakus.Accounts.Abi

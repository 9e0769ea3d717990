import Metafolder.FieldTypes
import Metafolder.KeyScans
import Mathlib.Data.Finset.Sort

/-!
# Comparisons over the stored keys

A comparison reads the buckets of a partition whose keys satisfy it.  A key that is cut and hashed
is shared by other texts, so the metarecords of its bucket are read back.  `is_hashed` does not know
the keys of `hierarchy_ref` values.
-/

namespace Metafolder

/-- `CmpOp`. -/
inductive CmpOp
  | eq
  | neq
  | lt
  | lte
  | gt
  | gte
deriving DecidableEq

/-- `matches_ordering`. -/
def CmpOp.matchesOrdering : CmpOp → Ordering → Bool
  | .lt, order => order.isLT
  | .lte, order => order.isLE
  | .gt, order => order.isGT
  | .gte, order => order.isGE
  | .eq, order => order.isEq
  | .neq, order => order.isNe

/-- `PROBE_COST`. -/
def probeCost : Nat := 4

/-- `probes`: whether candidates are checked on their own rows rather than by walking a field. -/
def probes (candidates holders : Nat) : Bool := candidates * probeCost < holders

namespace KvSource

/-- `Kind`: how a field's values compare, by value type. -/
inductive Kind
  | categorical
  | numeric
  | datetime
  | reference (tree : Bool)
deriving DecidableEq

/-- `TYPES`: the value types a field may hold. -/
def types : List String :=
  ["string", "int", "float", "bool", "datetime", "ref", "tree_ref", "hierarchy_ref", "refbase",
    "externalref"]

/-- `value_type`: the value type a field holds. -/
def valueType (tx : KvTxn) (field : String) : Option String :=
  let front := nameKey field
  (tx.primary.fieldTypes.prefixIter front).findSome? fun entry =>
    types.find? fun name => name.asBytes = entry.1.drop front.length

/-- `kind`. -/
def kind (tx : KvTxn) (field : String) : Option Kind :=
  (valueType tx field).map fun name =>
    if name = "bool" ∨ name = "string" then .categorical
    else if name = "int" ∨ name = "float" then .numeric
    else if name = "datetime" then .datetime
    else if name = "tree_ref" ∨ name = "hierarchy_ref" then .reference true
    else .reference false

/-- `values`: a metarecord's rows of a field. -/
def values (tx : KvTxn) (id : UInt32) (field : String) : List Value :=
  match tx.derived.uuids.get (be32 id) with
  | none => []
  | some uuid => (tx.primary.rowsNamed uuid field).map FieldRow.value

/-- `having`: the ids with a row of a field for which `holds` is true. -/
def having (tx : KvTxn) (ids : Finset UInt32) (field : String) (holds : Value → Bool) :
    Finset UInt32 :=
  ids.filter fun id => (values tx id field).any holds

/-- `name_of`: the name of a position. -/
def nameOf (value : Value) : Option String := value.position.map fun held => held.2.display

/-- `is_hashed`: whether a value key holds a text cut and hashed, a string's or a `tree_ref`'s. -/
def isHashed (key : Bytes) : Bool :=
  match key with
  | tag :: rest =>
      if tag = 2 then (longPrefix rest).isSome
      else if tag = 7 then (longPrefix (rest.drop 16)).isSome
      else false
  | [] => false

/-- `equal`: the ids holding exactly a value, read back when its key is cut and hashed. -/
def equal (tx : KvTxn) (field : String) (key : Bytes) (value : Value) : Finset UInt32 :=
  let ids := bucket tx field valuePart key
  if isHashed key then having tx ids field fun held => held.eq value else ids

/-- `ordered`: the ids holding a key in order with `key`, among those that start with `region`. -/
def ordered (tx : KvTxn) (field : String) (part : UInt8) (region : Bytes) (op : CmpOp) (key : Bytes)
    (exclude : Option Bytes) : Finset UInt32 :=
  let after := key ++ idMax
  let ending := match region.getLast? with
    | some last => region.dropLast ++ [last + 1]
    | none => []
  let bounds : Table.Bound × Table.Bound := match op with
    | .lt => (.included region, .excluded key)
    | .lte => (.included region, .excluded after)
    | .gt => (.excluded after, .excluded ending)
    | _ => (.included key, .excluded ending)
  let upper := if region = [] ∧ (op = .gt ∨ op = .gte) then .unbounded else bounds.2
  partIds tx field part bounds.1 upper fun held =>
    region.isPrefixOf held && exclude.all fun front => !front.isPrefixOf held

/-- `ordered_exact`: where the operand's key is cut, the texts cut at one front with it are decided
on their values. -/
def orderedExact (tx : KvTxn) (field : String) (part : UInt8) (region : Bytes) (op : CmpOp)
    (key : Bytes) (holds : Value → Bool) : Finset UInt32 :=
  let text := part = namePart ∨ key.head? = some 2
  match (longPrefix (key.drop region.length)).filter fun _ => text with
  | none => ordered tx field part region op key none
  | some tail =>
      let ambiguous := region ++ tail
      let out := ordered tx field part region op key (some ambiguous)
      let ending := ambiguous.dropLast ++ [ambiguous.getLastD 0 + 1]
      let undecided := partIds tx field part (.included ambiguous) (.excluded ending) fun _ => true
      out ∪ having tx undecided field holds

variable [Externals]

/-- `present`. -/
def present (tx : KvTxn) (field : String) : Finset UInt32 := set tx presentKind (some field)

/-- `holders`: the ids holding a row of a field, `Nothing` or not. -/
def holders (tx : KvTxn) (field : String) : Finset UInt32 :=
  set tx presentKind (some field) ∪ set tx absentKind (some field)

/-- The comparison of a forest's names with a string. -/
def compareNames (tx : KvTxn) (field : String) (op : CmpOp) (text : String) : Finset UInt32 :=
  let key := textKey text.asBytes
  let hashed := (longPrefix key).isSome
  let named (want : Bool) (held : Value) : Bool :=
    (nameOf held).any fun name => decide (name = text) == want
  match op with
  | .eq =>
      if hashed then having tx (bucket tx field namePart key) field (named true)
      else bucket tx field namePart key
  | .neq =>
      let out := allBut tx field namePart (some key)
      if hashed then out ∪ having tx (bucket tx field namePart key) field (named false) else out
  | op =>
      orderedExact tx field namePart [] op key fun held =>
        (nameOf held).any fun name => op.matchesOrdering (compare name.asBytes text.asBytes)

/-- Whether a row differs from the operand of a `!=`, decided by its key, and on the values where
the key is cut and hashed. -/
def differs (key : Option Bytes) (value held : Value) : Bool :=
  match valueKey held with
  | none => false
  | some own => if some own = key then isHashed own && !held.eq value else true

/-- Whether an ordered comparison can use an operand on a kind of field. -/
def usable : Kind → Value → Except String Bool
  | .categorical, .bool _ => .error "ordered comparison on bool"
  | .reference _, .ref _ => .error "ordered comparison on a reference"
  | .reference _, .refBase _ => .error "ordered comparison on a reference"
  | .reference _, .treeRef _ _ => .error "ordered comparison on a reference"
  | .reference _, .hierarchyRef _ _ => .error "ordered comparison on a reference"
  | .reference _, .externalRef _ _ => .error "ordered comparison on a reference"
  | .categorical, .string _ => .ok true
  | .numeric, .int _ => .ok true
  | .numeric, .float _ => .ok true
  | .datetime, .dateTime _ => .ok true
  | _, _ => .ok false

/-- The ordered comparison of a field with an operand it can use. -/
def compareOrdered (tx : KvTxn) (field : String) (op : CmpOp) (value : Value) (key : Bytes)
    (probe : Option (Finset UInt32)) : Finset UInt32 :=
  let holds (held : Value) : Bool := match held, value with
    | .string text, .string other => op.matchesOrdering (compare text.asBytes other.asBytes)
    | _, _ => false
  let region := key.take 1
  match probe with
  | some candidates =>
      let ambiguous := ((longPrefix (key.drop 1)).filter fun _ => region = [2]).map (region ++ ·)
      having tx candidates field fun held => match valueKey held with
        | none => false
        | some own =>
            if ambiguous.any (·.isPrefixOf own) then holds held
            else region.isPrefixOf own && op.matchesOrdering (compare own key)
  | none => orderedExact tx field valuePart region op key holds

/-- `compare`: the ids with a row of a field in the relation with an operand.  A comparison but an
equality may be checked on the candidates' own rows. -/
def compare (tx : KvTxn) (field : String) (op : CmpOp) (value : Value)
    (restrict : Option (Finset UInt32)) : Except String (Finset UInt32) :=
  match kind tx field, value with
  | none, _ => .ok ∅
  | some (.reference true), .string text => .ok (compareNames tx field op text)
  | some sort, value =>
      let key := valueKey value
      let probe := restrict.filter fun candidates =>
        op ≠ .eq ∧ probes candidates.card (present tx field).card
      match op with
      | .eq => .ok ((key.map fun key => equal tx field key value).getD ∅)
      | .neq =>
          match probe with
          | some candidates => .ok (having tx candidates field (differs key value))
          | none =>
              let out := allBut tx field valuePart key
              match key.filter isHashed with
              | some key =>
                  .ok (out ∪ having tx (bucket tx field valuePart key) field fun held =>
                    !held.isNothing && !held.eq value)
              | none => .ok out
      | op => do
          let usable ← usable sort value
          match key with
          | some key => pure (if usable then compareOrdered tx field op value key probe else ∅)
          | none => pure ∅

/-- `same_as`: the ids sharing a value of a field with one of the seed's.  The values wanted are
those the seed holds, under their keys. -/
def sameAs (tx : KvTxn) (field : String) (seed : Finset UInt32) : Finset UInt32 :=
  let wanted := seed.biUnion fun id => ((values tx id field).filterMap valueKey).toFinset
  wanted.biUnion fun key =>
    let ids := bucket tx field valuePart key
    if isHashed key then
      having tx ids field fun held => decide (∃ id ∈ seed, ∃ own ∈ values tx id field,
        valueKey own = some key ∧ own.eq held = true)
    else ids

/-- `uuids_of`: the metarecords of up to `limit` ids. -/
def uuidsOf (tx : KvTxn) (ids : List UInt32) (limit : Int64) : List Uuid :=
  (ids.filterMap fun id => tx.derived.uuids.get (be32 id)).take limit.toInt.toNat

/-- The ids of a set, in order. -/
def inOrder (ids : Finset UInt32) : List UInt32 :=
  ((ids.image UInt32.toNat).sort (· ≤ ·)).map UInt32.ofNat

/-- `typed_missing`: up to `limit` metarecords declared one of some types and with no row of a
field. -/
def typedMissing (tx : KvTxn) (types : List String) (field : String) (limit : Int64) : List Uuid :=
  let declared := types.foldl (fun declared name =>
    declared ∪ ((valueKey (.string name)).map fun key =>
      equal tx "mf_schema" key (.string name)).getD ∅) ∅
  uuidsOf tx (inOrder (declared \ holders tx field)) limit

end KvSource

end Metafolder

import Mathlib.Data.List.Sort
import Mathlib.Data.List.Destutter
import Std.Data.ExtTreeMap.Lemmas
import Metafolder.Convert

/-!
# Positions of the children of a folder

The children of a folder that have no position are given one: by their metadata, then by the numbers
in their names, then by their dates.  An addition that is not checked in the source ends the
computation where it overflows.
-/

namespace Metafolder
namespace Order

/-- One child to be ordered. -/
structure Item where
  key : List Char
  name : List Char
  meta_ : Option Int64
  btime : Option Int64
  existing : Option Int64

/-- A position to write for an item that had none. -/
structure Assignment where
  key : List Char
  position : Int64

/-! ### Arithmetic -/

/-- `i64::checked_add`, and an addition that must not overflow. -/
def checkedAdd (one other : Int64) : Option Int64 :=
  let sum := one.toInt + other.toInt
  if -(2 ^ 63) ≤ sum ∧ sum < 2 ^ 63 then some (Int64.ofInt sum) else none

/-- `i64::checked_sub`, and a subtraction that must not overflow. -/
def checkedSub (one other : Int64) : Option Int64 :=
  let difference := one.toInt - other.toInt
  if -(2 ^ 63) ≤ difference ∧ difference < 2 ^ 63 then some (Int64.ofInt difference) else none

/-- `i64::saturating_add`. -/
def saturatingAdd (one other : Int64) : Int64 :=
  Int64.ofInt (max (-(2 ^ 63)) (min (2 ^ 63 - 1) (one.toInt + other.toInt)))

/-- `offset`. -/
def offset (anchorPos value anchorValue : Int64) : Option Int64 := do
  checkedAdd anchorPos (← checkedSub value anchorValue)

/-! ### Names -/

/-- `last_number`: what is before and after the last run of digits, and its number. -/
def lastNumber (name : List Char) : Option (List Char × List Char × Int64) :=
  let other (c : Char) : Bool := !c.isDigit
  let reversed := name.reverse
  let rest := reversed.dropWhile other
  let run := (rest.takeWhile Char.isDigit).reverse
  if run = [] then none
  else (parseInt64 run).map fun number =>
    ((rest.dropWhile Char.isDigit).reverse, (reversed.takeWhile other).reverse, number)

/-- The order of names' skeletons. -/
def compareSkeleton : List Char × List Char → List Char × List Char → Ordering :=
  compareLex (compareOn Prod.fst) (compareOn Prod.snd)

instance : Std.TransCmp compareSkeleton :=
  inferInstanceAs (Std.TransCmp (compareLex (compareOn Prod.fst) (compareOn Prod.snd)))

instance : Std.LawfulEqCmp compareSkeleton where
  compare_self {skeleton} := by
    rw [compareSkeleton, compareLex, compareOn, compareOn, Std.compare_self, Std.compare_self]
    rfl
  eq_of_compare {one other} same := by
    rw [compareSkeleton, compareLex, Ordering.then_eq_eq] at same
    exact Prod.ext (Std.LawfulEqOrd.eq_of_compare same.1) (Std.LawfulEqOrd.eq_of_compare same.2)

/-- The items by the skeletons of their names. -/
abbrev Groups := Std.ExtTreeMap (List Char × List Char) (List Nat) compareSkeleton

/-! ### Placing -/

/-- Where the items are placed, and the highest position. -/
structure Placing where
  placed : Nat → Option Int64
  maxpos : Int64

/-- An item is placed. -/
def Placing.put (placing : Placing) (index : Nat) (position : Int64) : Placing where
  placed other := if other = index then some position else placing.placed other
  maxpos := max placing.maxpos position

variable (items : List Item)

/-- The ordering metadata of an item. -/
def metaOf (index : Nat) : Option Int64 := items[index]?.bind Item.meta_

/-- The name of an item. -/
def nameOf (index : Nat) : List Char := (items[index]?.map Item.name).getD []

/-- The creation time of an item. -/
def btimeOf (index : Nat) : Option Int64 := items[index]?.bind Item.btime

/-- The number in the name of an item that has one. -/
def numberOf (index : Nat) : Int64 := ((lastNumber (nameOf items index)).map (·.2.2)).getD 0

/-- The positions there are. -/
def start : Placing where
  placed index := items[index]?.bind Item.existing
  maxpos := (items.filterMap Item.existing).max?.getD 0

/-- Items placed by a value of theirs, each as far from the anchor as its value is; one that would
be out of range is left. -/
def placeBy (value : Nat → Int64) (anchorPos anchorValue : Int64) (placing : Placing)
    (index : Nat) : Placing :=
  match offset anchorPos (value index) anchorValue with
  | some position => placing.put index position
  | none => placing

/-! ### By metadata -/

/-- The order of the first phase. -/
def metaBefore (one other : Nat) : Bool :=
  ((compare (metaOf items one) (metaOf items other)).then
    ((compare (nameOf items one) (nameOf items other)).then (compare one other))).isLE

/-- Phase 1: the items that have metadata. -/
def metaPhase (placing : Placing) : Option Placing :=
  let indices := (List.range items.length).filter fun index =>
    (placing.placed index).isNone && (metaOf items index).isSome
  match indices.insertionSort (metaBefore items · ·) with
  | [] => some placing
  | first :: rest => do
      let anchorPos ← checkedAdd placing.maxpos 1
      let value (index : Nat) : Int64 := (metaOf items index).getD 0
      some ((first :: rest).foldl (placeBy value anchorPos (value first)) placing)

/-! ### By the numbers in the names -/

/-- `Cluster`. -/
structure Cluster where
  members : List Nat
  anchor : Nat
  anchored : Bool
  anchorPos : Int64

/-- An item whose name has a number is entered under the name's skeleton. -/
def enter (groups : Groups) (index : Nat) : Groups :=
  match lastNumber (nameOf items index) with
  | some (front, back, _) => groups.alter (front, back) fun held => some (held.getD [] ++ [index])
  | none => groups

/-- The items by the skeletons of their names, in order. -/
def groups : Groups := (List.range items.length).foldl (enter items) ∅

/-- `min_by_key` on the numbers: the first with the least. -/
def lowest (value : Nat → Int64) : List Nat → Option Nat
  | [] => none
  | index :: rest =>
      match lowest value rest with
      | none => some index
      | some other => if value other < value index then some other else some index

/-- The numbers of a group, in order, each once. -/
def numbers (members : List Nat) : List Int64 :=
  ((members.map (numberOf items)).insertionSort (· ≤ ·)).destutter (· ≠ ·)

/-- Whether the closest two numbers of a group are too far apart to be an order. -/
def spread (threshold : Int64) (members : List Nat) : Option Bool := do
  let nums := numbers items members
  if nums.length < 2 then some false
  else
    let gaps ← (nums.zip nums.tail).mapM fun pair => checkedSub pair.2 pair.1
    some (gaps.min?.any (threshold < ·))

/-- The cluster a group is, if it is one and not all of it is placed. -/
def cluster (threshold : Int64) (placing : Placing) (members : List Nat) :
    Option (Option Cluster) := do
  if members.length < 2 then some none
  else if ← spread items threshold members then some none
  else if members.all fun index => (placing.placed index).isSome then some none
  else
    match lowest (numberOf items) (members.filter fun index => (placing.placed index).isSome) with
    | some anchor => some (some ⟨members, anchor, true, (placing.placed anchor).getD 0⟩)
    | none => some ((lowest (numberOf items) members).map fun anchor => ⟨members, anchor, false, 0⟩)

/-- Anchored clusters come first, by the position of the anchor. -/
def clusterBefore (one other : Cluster) : Bool :=
  ((compare other.anchored one.anchored).then (compare one.anchorPos other.anchorPos)).isLE

/-- One cluster is placed. -/
def placeCluster (placing : Placing) (cluster : Cluster) : Placing :=
  let next := saturatingAdd placing.maxpos 1
  let pinned := if cluster.anchored then placing else placing.put cluster.anchor next
  let anchorPos := if cluster.anchored then cluster.anchorPos else next
  cluster.members.foldl (fun placing index =>
    if (placing.placed index).isSome then placing
    else placeBy (numberOf items) anchorPos (numberOf items cluster.anchor) placing index) pinned

/-- The clusters, in the order they are placed. -/
def clusters (threshold : Int64) (placing : Placing) : Option (List Cluster) := do
  let found ← ((groups items).toList.map Prod.snd).mapM (cluster items threshold placing)
  some ((found.filterMap id).insertionSort (clusterBefore · ·))

/-- Phase 2: the name clusters. -/
def namePhase (threshold : Int64) (placing : Placing) : Option Placing := do
  some ((← clusters items threshold placing).foldl (placeCluster items) placing)

/-! ### By date -/

/-- The order of the last phase: by creation time, those without one last, then by name. -/
def dateBefore (one other : Nat) : Bool :=
  ((compare (btimeOf items one).isNone (btimeOf items other).isNone).then
    ((compare ((btimeOf items one).getD 0) ((btimeOf items other).getD 0)).then
      (compare (nameOf items one) (nameOf items other)))).isLE

/-- Phase 3: the items that are left, one after another. -/
def datePhase (placing : Placing) : Placing :=
  let leftovers := (List.range items.length).filter fun index => (placing.placed index).isNone
  (leftovers.insertionSort (dateBefore items · ·)).foldl (fun placing index =>
    placing.put index (saturatingAdd placing.maxpos 1)) placing

/-! ### All of it -/

/-- The order of the answer. -/
def assignmentBefore (one other : Assignment) : Bool :=
  ((compare one.position other.position).then (compare one.key other.key)).isLE

/-- What is written: the positions of the items that had none. -/
def written (placing : Placing) : List Assignment :=
  (items.zipIdx.filter fun entry => entry.1.existing.isNone).map fun entry =>
    ⟨entry.1.key, (placing.placed entry.2).getD 0⟩

/-- `assign_positions`; `none` where an addition overflows. -/
def assignPositions (threshold : Int64) : Option (List Assignment) := do
  let metas ← metaPhase items (start items)
  let names ← namePhase items threshold metas
  some ((written items (datePhase items names)).insertionSort (assignmentBefore · ·))

end Order
end Metafolder

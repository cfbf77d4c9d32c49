import Dynarec.Guest.Basic
import Dynarec.Text.Record

/-!
# Address table

A radix tree from guest addresses to host code, in a form that generated code can walk: an inner
slot names the next level, a leaf slot holds a host address. Parts that were never touched share
one fill level for each depth, whose leaves all hold the fill address. Levels are copied out of the
fill on demand and are never dropped, so the place of a slot never changes.
-/

namespace Dynarec.Code

open Guest (Mode)

/-- One step of the walk: which bits of the address pick the slot. -/
structure Level where
  shift : Nat
  bits : Nat
deriving DecidableEq, Repr

namespace Level

def entries (l : Level) : Nat := 1 <<< l.bits

def mask (l : Level) : Nat := l.entries - 1

def index (l : Level) (pc : UInt64) : Nat := pc.toNat >>> l.shift % l.entries

end Level

/-- The levels of the table, the root first. -/
def levelsOf : Mode → List Level
  | .a64 => [⟨39, 9⟩, ⟨30, 9⟩, ⟨21, 9⟩, ⟨12, 9⟩, ⟨2, 10⟩]
  | .a32 => [⟨22, 10⟩, ⟨12, 10⟩, ⟨2, 10⟩]

inductive Slot where
  | node (id : Nat)
  | host (address : UInt64)
deriving DecidableEq, Repr

/-- A level of slots. Slots that were never set all hold the same. -/
structure Node where
  depth : Nat
  rest : Slot
  entries : List (Nat × Slot)
deriving DecidableEq, Repr

namespace Node

def slot (n : Node) (i : Nat) : Slot := (n.entries.lookup i).getD n.rest

def setSlot (n : Node) (i : Nat) (s : Slot) : Node :=
  { n with entries := (i, s) :: n.entries.filter (·.1 != i) }

end Node

/-- A place in the table that holds the host address of one guest address. -/
structure LeafSlot where
  node : Nat
  index : Nat
deriving DecidableEq, Repr

structure AddressTable where
  mode : Mode
  /-- Held by every leaf slot without code of its own. -/
  fill : UInt64
  /-- The root, then one fill level for each greater depth, then the levels in use. -/
  nodes : Array Node
deriving DecidableEq, Repr

namespace AddressTable

def depthOf (mode : Mode) : Nat := (levelsOf mode).length

/-- What the slots of an untouched level at `depth` hold. -/
def restSlot (mode : Mode) (fill : UInt64) (depth : Nat) : Slot :=
  if depth + 1 < depthOf mode then .node (depth + 1) else .host fill

def ofMode (mode : Mode) (fill : UInt64) : AddressTable where
  mode
  fill
  nodes := ((List.range (depthOf mode)).map fun d => ⟨d, restSlot mode fill d, []⟩).toArray

variable (t : AddressTable)

def levels : List Level := levelsOf t.mode

def depth : Nat := depthOf t.mode

/-- Levels copied out of the fill so far. -/
def allocatedLevels : Nat := t.nodes.size - t.depth

/-- Number of address bits that the table covers. -/
def coveredBits : Nat :=
  match t.levels.head? with
  | some top => top.shift + top.bits
  | none => 0

/-- Address bits that have no place in the table. -/
def invalidMask : UInt64 :=
  let granule := match t.levels.getLast? with
    | some leaf => 1 <<< leaf.shift - 1
    | none => 0
  ((UInt64.size - 1 <<< t.coveredBits) + granule : Nat).toUInt64

def isValid (pc : UInt64) : Bool := pc &&& t.invalidMask == 0

def node (id : Nat) : Node := t.nodes.getD id ⟨0, .host t.fill, []⟩

def slot (s : LeafSlot) : Slot := (t.node s.node).slot s.index

def setSlot (node index : Nat) (s : Slot) : AddressTable :=
  { t with nodes := t.nodes.modify node (·.setSlot index s) }

/-- Walk down the levels as generated code does. -/
def walkFrom (pc : UInt64) : (levels : List Level) → (node : Nat) → Slot
  | [], node => .node node
  | l :: rest, node =>
    match (t.node node).slot (l.index pc) with
    | .node next => walkFrom pc rest next
    | .host address => .host address

/-- The host address that generated code finds for a valid guest address. -/
def walk (pc : UInt64) : UInt64 :=
  match t.walkFrom pc t.levels 0 with
  | .host address => address
  | .node _ => t.fill

/-- The leaf slot below `node`, if no fill level stands in between. -/
def findFrom (pc : UInt64) : (levels : List Level) → (node : Nat) → Option LeafSlot
  | [], _ => none
  | [leaf], node => some ⟨node, leaf.index pc⟩
  | l :: rest, node =>
    match (t.node node).slot (l.index pc) with
    | .node next => if next < t.depth then none else findFrom pc rest next
    | .host _ => none

/-- The leaf slot of an address, if it has one already. -/
def find? (pc : UInt64) : Option LeafSlot :=
  if t.isValid pc then t.findFrom pc t.levels 0 else none

/-- Copy the fill level that slot `index` of `parent` refers to. -/
def copyFill (parent index depth : Nat) : Nat × AddressTable :=
  let id := t.nodes.size
  let t := { t with nodes := t.nodes.push (t.node depth) }
  (id, t.setSlot parent index (.node id))

/-- The leaf slot below `node`, copying fill levels on the way. -/
def ensureFrom (pc : UInt64) : (t : AddressTable) → (levels : List Level) → (node : Nat) →
    Option LeafSlot × AddressTable
  | t, [], _ => (none, t)
  | t, [leaf], node => (some ⟨node, leaf.index pc⟩, t)
  | t, l :: rest, node =>
    match (t.node node).slot (l.index pc) with
    | .node next =>
      if next < t.depth then
        let (id, t) := t.copyFill node (l.index pc) next
        ensureFrom pc t rest id
      else ensureFrom pc t rest next
    | .host _ => (none, t)

/-- The leaf slot of an address, made if need be; invalid addresses have none. -/
def ensure (pc : UInt64) : Option LeafSlot × AddressTable :=
  if t.isValid pc then ensureFrom pc t t.levels 0 else (none, t)

/-- The host code of an address, unless its slot holds the fill address. -/
def lookup (pc : UInt64) : Option UInt64 :=
  match (t.find? pc).map t.slot with
  | some (.host address) => if address = t.fill then none else some address
  | _ => none

/-- Publish host code for an address. Fails if the address is invalid. -/
def publish (pc host : UInt64) : Bool × AddressTable :=
  match t.ensure pc with
  | (some s, t) => (true, t.setSlot s.node s.index (.host host))
  | (none, t) => (false, t)

/-- Let an address lead to the fill again. -/
def reset (pc : UInt64) : AddressTable :=
  match t.find? pc with
  | some s => t.setSlot s.node s.index (.host t.fill)
  | none => t

/-- Let every address lead to the fill again. Levels stay where they are. -/
def clear : AddressTable :=
  { t with
    nodes := t.nodes.map fun n => if n.depth + 1 = t.depth then { n with entries := [] } else n }

/-! ### Preparation -/

/-- Most leaf levels made by one preparation. -/
def maxPrepared : Nat := 4096

/-- Guest bytes covered by one leaf level. -/
def leafSpan : Nat :=
  match t.levels.getLast? with
  | some leaf => 1 <<< (leaf.shift + leaf.bits)
  | none => 1

/-- Make the leaf levels from `pc` up to `limit`, at most `room` of them, and count them. -/
def prepareFrom (start limit : Nat) : (room : Nat) → (pc : Nat) → AddressTable → Nat × AddressTable
  | 0, _, t => (0, t)
  | room + 1, pc, t =>
    if limit ≤ pc then (0, t)
    else match t.ensure ((max pc start / 4 * 4).toUInt64) with
      | (none, t) => (0, t)
      | (some _, t) =>
        let (n, t) := prepareFrom start limit room (pc + t.leafSpan) t
        (n + 1, t)

/-- Make the levels for a range of guest code, as far as the table covers it; the number of leaf
levels visited. -/
def prepare (address size : UInt64) : Nat × AddressTable :=
  let limit := min (min (address.toNat + size.toNat) (UInt64.size - 1)) (1 <<< t.coveredBits)
  prepareFrom address.toNat limit maxPrepared (address.toNat / t.leafSpan * t.leafSpan) t

open Text in
def text : String :=
  record "AddressTable" [("levels", nat t.depth), ("allocated", nat t.allocatedLevels)]

end AddressTable

end Dynarec.Code

import Dynarec.IR.Function

/-!
# Dominator tree

Immediate dominators by iteration over the reverse postorder of the reachable blocks, and what
follows from them: the tree, the dominance frontiers and the dominance test. Unreachable blocks
have no immediate dominator, no children and an empty frontier.
-/

namespace Dynarec.IR

/-! ### Order of the blocks -/

structure Search where
  visited : List BlockId
  /-- Finished blocks, the latest first. -/
  order : List BlockId

namespace Search

/-- Visit what can be reached from a block, later successors first. -/
def visit (f : Function) : (fuel : Nat) → Search → BlockId → Search
  | 0, s, _ => s
  | fuel + 1, s, b =>
    if s.visited.contains b then s
    else
      let s := (f.successors b).reverse.foldl (visit f fuel) { s with visited := b :: s.visited }
      { s with order := b :: s.order }

end Search

/-- The reachable blocks in reverse postorder. -/
def Function.reversePostorder (f : Function) : List BlockId :=
  (Search.visit f (f.blockCount + 1) ⟨[], []⟩ Function.entry).order

/-! ### Immediate dominators -/

/-- Candidates for the immediate dominators, by block number. The entry is its own. -/
abbrev Parents := Array (Option BlockId)

namespace Parents

def parent? (parents : Parents) (b : BlockId) : Option BlockId := parents.getD b.index none

def initial (f : Function) : Parents :=
  (Array.replicate f.blockCount none).setIfInBounds Function.entry.index (some Function.entry)

/-- The closest common ancestor of two blocks: the one that comes later in `order` moves up. -/
def intersect (parents : Parents) (order : List BlockId) :
    (fuel : Nat) → BlockId → BlockId → BlockId
  | 0, a, _ => a
  | fuel + 1, a, b =>
    if a = b then a
    else if order.idxOf b < order.idxOf a then
      match parents.parent? a with
      | some a => intersect parents order fuel a b
      | none => b
    else
      match parents.parent? b with
      | some b => intersect parents order fuel a b
      | none => a

/-- The common ancestor of the predecessors that have one already. -/
def candidate? (parents : Parents) (order : List BlockId) (preds : List BlockId) :
    Option BlockId :=
  preds.foldl (fun found p =>
    if (parents.parent? p).isNone then found
    else match found with
      | none => some p
      | some c => some (parents.intersect order (2 * parents.size + 2) p c)) none

def update (f : Function) (order : List BlockId) (parents : Parents) (b : BlockId) : Parents :=
  match parents.candidate? order (f.predecessors b) with
  | some c => parents.setIfInBounds b.index (some c)
  | none => parents

def round (f : Function) (order : List BlockId) (parents : Parents) : Parents :=
  (order.drop 1).foldl (update f order) parents

/-- Repeat until a round changes nothing. -/
def stabilize (f : Function) (order : List BlockId) : (rounds : Nat) → Parents → Parents
  | 0, parents => parents
  | rounds + 1, parents =>
    let next := round f order parents
    if next = parents then parents else stabilize f order rounds next

/-- The blocks from `b` up to `stop`, without it. -/
def path (parents : Parents) (stop : BlockId) : (fuel : Nat) → BlockId → List BlockId
  | 0, _ => []
  | fuel + 1, b =>
    if b = stop then []
    else match parents.parent? b with
      | some next => if next = b then [b] else b :: path parents stop fuel next
      | none => [b]

end Parents

structure DominatorTree where
  /-- The reachable blocks in reverse postorder. -/
  order : List BlockId
  parents : Parents
  /-- The blocks where paths join, each with the blocks whose frontier it belongs to. -/
  joins : List (BlockId × List BlockId)

namespace DominatorTree

/-- The blocks whose frontier holds `b`, if two or more paths join there. -/
def frontierMembers (f : Function) (order : List BlockId) (parents : Parents) (b : BlockId) :
    List BlockId :=
  let preds := (f.predecessors b).filter order.contains
  match parents.parent? b with
  | some idom =>
    if preds.length < 2 then [] else preds.flatMap (parents.path idom (parents.size + 1))
  | none => []

/-- Rounds after which the immediate dominators have settled. -/
def maxRounds (f : Function) : Nat := (f.blockCount + 1) * (f.blockCount + 1) + 1

/-- The dominator tree for the current predecessor lists. -/
def compute (f : Function) : DominatorTree :=
  let order := f.reversePostorder
  let parents := Parents.stabilize f order (maxRounds f) (Parents.initial f)
  let joins := order.map fun b => (b, frontierMembers f order parents b)
  { order, parents, joins := joins.filter fun j => !j.2.isEmpty }

variable (t : DominatorTree)

def isReachable (b : BlockId) : Bool := t.order.contains b

/-- Immediate dominator; the entry and unreachable blocks have none. -/
def idom? (b : BlockId) : Option BlockId :=
  if b = Function.entry then none else t.parents.parent? b

def children (b : BlockId) : List BlockId :=
  (t.order.drop 1).filter fun c => t.idom? c == some b

def frontier (b : BlockId) : List BlockId :=
  (t.joins.filter fun j => j.2.contains b).map (·.1)

/-- `b` and the blocks above it. -/
def ancestors : (fuel : Nat) → BlockId → List BlockId
  | 0, b => [b]
  | fuel + 1, b =>
    match t.idom? b with
    | some parent => b :: ancestors fuel parent
    | none => [b]

/-- Whether every path to `b` leads through `a`. Nothing dominates an unreachable block. -/
def dominates (a b : BlockId) : Bool :=
  t.isReachable b && (t.ancestors t.parents.size b).contains a

end DominatorTree

end Dynarec.IR

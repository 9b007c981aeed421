import Mathlib.Algebra.GroupWithZero.Nat
import TestExecutor.Library.Dictionary
import TestExecutor.Library.HashSet
import TestExecutor.Library.Loops
import TestExecutor.Library.Walks

/-!
# Distances in graphs

The graph algorithms of the utilities: all distances by Floyd's algorithm, the distances from one
node by a breadth-first search, and the same search with a cache of known distances.

* `floydAlgo`, `sourcedShortestDistanceBfs`, `incrementalSourcedShortestDistanceBfs`,
  `shortestDistanceBfs` — the algorithms;
* `Succ`, `GraphOn` — the edges of a graph, a graph whose nodes are those of a list.

Distances are `uint` and wrap around.  A dictionary that is read at a missing key, or to which a key
is added twice, throws.  The loops over a queue take fuel: one unit for each node they dequeue.
-/

namespace TestExecutor.GraphUtils

open Library

variable {V K W : Type} [DecidableEq V] [DecidableEq K]

/-- Why a computation on graphs ends without a result: an exception of a dictionary, or no fuel. -/
inductive GraphError where
  | keyNotFound
  | duplicateKey
  | outOfFuel
  deriving DecidableEq, Repr

abbrev Graph (V : Type) := Dictionary V (HashSet V)

abbrev DistanceCache (V : Type) := Dictionary V (Dictionary V UInt32)

/-- Reading a dictionary through its indexer. -/
def getItem (d : Dictionary K W) (k : K) : Except GraphError W :=
  match d.lookup k with
  | some v => .ok v
  | none => .error .keyNotFound

/-- `Add`. -/
def addItem (d : Dictionary K W) (k : K) (v : W) : Except GraphError (Dictionary K W) :=
  match d.add k v with
  | some d' => .ok d'
  | none => .error .duplicateKey

theorem getItem_eq {d : Dictionary K W} {k : K} {v : W} (h : d.lookup k = some v) :
    getItem d k = .ok v := by
  rw [getItem, h]

theorem addItem_eq {d : Dictionary K W} {k : K} {v : W} (h : k ∉ d.keys) :
    addItem d k v = .ok (d.set k v) := by
  rw [addItem, Dictionary.add_eq_set h]

/-- `System.UInt32.MaxValue`. -/
def infinity : UInt32 := 4294967295

/-! ### Floyd's algorithm -/

def infinitySum (a b : UInt32) : UInt32 := if a = infinity ∨ b = infinity then infinity else a + b

/-- The first double loop: no distance is known. -/
def floydInfinite (nodes : List V) : Except GraphError (Dictionary (V × V) UInt32) :=
  nodes.foldlM (fun dist i => nodes.foldlM (fun dist j => addItem dist (i, j) infinity) dist)
    Dictionary.empty

/-- A row of the second loop: first the diagonal, then the edges. -/
def floydEdges (graph : Graph V) (dist : Dictionary (V × V) UInt32) (i : V) :
    Except GraphError (Dictionary (V × V) UInt32) := do
  let dist := dist.set (i, i) 0
  let successors ← getItem graph i
  return successors.elems.foldl (fun dist j => dist.set (i, j) 1) dist

/-- The body of the triple loop. -/
def floydEntry (k i : V) (dist : Dictionary (V × V) UInt32) (j : V) :
    Except GraphError (Dictionary (V × V) UInt32) := do
  let ij ← getItem dist (i, j)
  let ik ← getItem dist (i, k)
  let kj ← getItem dist (k, j)
  if infinitySum ik kj < ij then return dist.set (i, j) (infinitySum ik kj) else return dist

/-- A round of the triple loop: distances through one more node. -/
def floydThrough (nodes : List V) (dist : Dictionary (V × V) UInt32) (k : V) :
    Except GraphError (Dictionary (V × V) UInt32) :=
  nodes.foldlM (fun dist i => nodes.foldlM (floydEntry k i) dist) dist

def floydAlgo (nodes : List V) (graph : Graph V) :
    Except GraphError (Dictionary (V × V) UInt32) := do
  let dist ← floydInfinite nodes
  let dist ← nodes.foldlM (floydEdges graph) dist
  nodes.foldlM (floydThrough nodes) dist

/-! ### Breadth-first search -/

/-- One child of a dequeued node. -/
def visitChild (parent : V) (state : Dictionary V UInt32 × List V) (child : V) :
    Except GraphError (Dictionary V UInt32 × List V) :=
  if child ∈ state.1.keys then return state
  else do
    let distance ← getItem state.1 parent
    let dist ← addItem state.1 child (distance + 1)
    return (dist, state.2 ++ [child])

/-- The loop over the queue. -/
def sourcedLoop (graph : Graph V) :
    ℕ → Dictionary V UInt32 → List V → Except GraphError (Dictionary V UInt32)
  | _, dist, [] => .ok dist
  | 0, _, _ :: _ => .error .outOfFuel
  | fuel + 1, dist, parent :: queue => do
      let children ← getItem graph parent
      let state ← children.elems.foldlM (visitChild parent) (dist, queue)
      sourcedLoop graph fuel state.1 state.2

def sourcedShortestDistanceBfs (fuel : ℕ) (source : V) (graph : Graph V) :
    Except GraphError (Dictionary V UInt32) := do
  let dist ← addItem Dictionary.empty source 0
  sourcedLoop graph fuel dist [source]

/-- Copies the distances from one node into those of all pairs. -/
def addRow (i : V) (dist : Dictionary (V × V) UInt32) (iDist : Dictionary V UInt32) :
    Except GraphError (Dictionary (V × V) UInt32) :=
  iDist.entries.foldlM (fun dist kvpair => addItem dist (i, kvpair.1) kvpair.2) dist

def shortestDistanceBfs (fuel : ℕ) (nodes : List V) (graph : Graph V) :
    Except GraphError (Dictionary (V × V) UInt32) :=
  nodes.foldlM (fun dist i => do
    let iDist ← sourcedShortestDistanceBfs fuel i graph
    addRow i dist iDist) Dictionary.empty

/-! ### Search with a cache -/

/-- There is no distance yet, or a larger one. -/
def improves (dist : Dictionary V UInt32) (v : V) (new : UInt32) : Bool :=
  match dist.lookup v with
  | none => true
  | some old => new < old

/-- One entry of the cached distances from the dequeued node. -/
def visitCached (distanceToCurrent : UInt32) (dist : Dictionary V UInt32) (entry : V × UInt32) :
    Dictionary V UInt32 :=
  if improves dist entry.1 (distanceToCurrent + entry.2) then
    dist.set entry.1 (distanceToCurrent + entry.2)
  else dist

/-- One node adjacent to the dequeued node. -/
def visitAdjacent (distanceToCurrent : UInt32) (state : Dictionary V UInt32 × List V)
    (adjacent : V) : Dictionary V UInt32 × List V :=
  if improves state.1 adjacent (distanceToCurrent + 1) then
    (state.1.set adjacent (distanceToCurrent + 1), state.2 ++ [adjacent])
  else state

/-- The loop over the queue. -/
def incrementalLoop (outgoingEdges : V → List V) (distanceCache : DistanceCache V) :
    ℕ → Dictionary V UInt32 → List V → Except GraphError (Dictionary V UInt32)
  | _, dist, [] => .ok dist
  | 0, _, _ :: _ => .error .outOfFuel
  | fuel + 1, dist, current :: queue => do
      let distanceToCurrent ← getItem dist current
      match distanceCache.lookup current with
      | some cached =>
          incrementalLoop outgoingEdges distanceCache fuel
            (cached.entries.foldl (visitCached distanceToCurrent) dist) queue
      | none =>
          let state := (outgoingEdges current).foldl (visitAdjacent distanceToCurrent) (dist, queue)
          incrementalLoop outgoingEdges distanceCache fuel state.1 state.2

def incrementalSourcedShortestDistanceBfs (fuel : ℕ) (outgoingEdges : V → List V) (source : V)
    (distanceCache : DistanceCache V) : Except GraphError (Dictionary V UInt32) := do
  let dist ← addItem Dictionary.empty source 0
  incrementalLoop outgoingEdges distanceCache fuel dist [source]

/-! ### Edges and distances -/

/-- The edges of a graph. -/
def Succ (graph : Graph V) (u v : V) : Prop :=
  ∃ successors, graph.lookup u = some successors ∧ v ∈ successors

/-- All nodes of the list are in the graph, and their successors are in the list. -/
structure GraphOn (graph : Graph V) (nodes : List V) : Prop where
  nodup : nodes.Nodup
  node : ∀ i ∈ nodes, ∃ successors, graph.lookup i = some successors ∧ ∀ j ∈ successors, j ∈ nodes

variable {graph : Graph V} {nodes : List V}

theorem succ_iff {i j : V} {successors : HashSet V} (h : graph.lookup i = some successors) :
    Succ graph i j ↔ j ∈ successors := by
  constructor
  · rintro ⟨successors', h', hj⟩
    obtain rfl := Option.some.inj (h.symm.trans h')
    exact hj
  · exact fun hj => ⟨successors, h, hj⟩

theorem GraphOn.succ (h : GraphOn graph nodes) {i j : V} (hi : i ∈ nodes)
    (hsucc : Succ graph i j) : j ∈ nodes := by
  obtain ⟨successors, hlookup, hall⟩ := h.node i hi
  exact hall j ((succ_iff hlookup).mp hsucc)

theorem GraphOn.walk (h : GraphOn graph nodes) {i j : V} {n : ℕ} (hi : i ∈ nodes)
    (hwalk : Walk (Succ graph) n i j) : j ∈ nodes := by
  induction hwalk with
  | nil i => exact hi
  | cons hadj _ ih => exact ih (h.succ hi hadj)

end TestExecutor.GraphUtils

import Xdr.Text.Lines

/-!
# Dependency graphs

Nodes are type names in the order in which they first appear.
-/

namespace Xdr

structure Graph where
  nodes : List String
  edges : List (String × String)
  optionalEdges : List (String × String)
deriving DecidableEq

namespace Graph

def empty : Graph := ⟨[], [], []⟩

def insertNew {α : Type} [BEq α] (xs : List α) (x : α) : List α :=
  if xs.contains x then xs else xs ++ [x]

def addNode (g : Graph) (name : String) : Graph := { g with nodes := insertNew g.nodes name }

def addEdge (g : Graph) (source target : String) (optional : Bool) : Graph :=
  let g := (g.addNode source).addNode target
  if optional then { g with optionalEdges := insertNew g.optionalEdges (source, target) }
  else { g with edges := insertNew g.edges (source, target) }

def targets (edges : List (String × String)) (name : String) : List String :=
  (edges.filter (·.1 == name)).map (·.2)

def held (g : Graph) (name : String) : List String := targets g.edges name

def dependencies (g : Graph) (name : String) (includeOptional : Bool) : List String :=
  sortTexts (g.held name ++ if includeOptional then targets g.optionalEdges name else [])

/-- Breadth-first search: `queue` waits for a visit, `seen` holds everything found. Every visit
takes one name from the queue, and a name enters the queue once. -/
def reach (g : Graph) (includeOptional : Bool) : Nat → List String → List String → List String
  | 0, _, seen => seen
  | _ + 1, [], seen => seen
  | n + 1, current :: queue, seen =>
    let found := (g.dependencies current includeOptional).filter (!seen.contains ·)
    g.reach includeOptional n (queue ++ found) (seen ++ found)

def closure (g : Graph) (roots : List String) (includeOptional : Bool) : List String :=
  let roots := sortTexts roots
  sortTexts (g.reach includeOptional (roots.length + g.nodes.length) roots roots)

def reversed (g : Graph) : Graph :=
  { nodes := g.nodes
    edges := g.edges.map fun e => (e.2, e.1)
    optionalEdges := g.optionalEdges.map fun e => (e.2, e.1) }

/-- Where a depth-first search stands: the names visited so far, or the cycle that ended it. -/
inductive Search
  | visited (names : List String)
  | cycle (names : List String)

/-- The search below `node`, which the names of `path` lead to. A neighbour on the path closes a
cycle; one that was visited before and left again cannot. The depth is bounded by the number of
nodes alone: no limit of a stack is modelled. -/
def visit (g : Graph) : Nat → List String → List String → String → Search
  | 0, _, seen, _ => .visited seen
  | n + 1, path, seen, node =>
    let path := path ++ [node]
    (sortTexts (g.held node)).foldl
      (fun state neighbour =>
        match state with
        | .cycle names => .cycle names
        | .visited seen =>
          if !seen.contains neighbour then visit g n path seen neighbour
          else if path.contains neighbour then .cycle (path.dropWhile (· != neighbour))
          else .visited seen)
      (.visited (seen ++ [node]))

def findCycle (g : Graph) : List String :=
  let final := g.nodes.foldl
    (fun state node =>
      match state with
      | .cycle names => .cycle names
      | .visited seen =>
        if seen.contains node then .visited seen else g.visit g.nodes.length [] seen node)
    (Search.visited [])
  match final with
  | .cycle names => names
  | .visited _ => []

abbrev Waits := List (String × Nat)

def waits (g : Graph) : Waits := g.nodes.map fun node => (node, (g.held node).length)

def holders (g : Graph) (name : String) : List String :=
  g.nodes.filter fun node => (g.held node).contains name

def Waits.less (waits : Waits) (node : String) : Waits :=
  waits.map fun w => if w.1 = node then (node, w.2 - 1) else w

def release (state : Waits × List String) (node : String) : Waits × List String :=
  let waits := state.1.less node
  (waits, if waits.lookup node = some 0 then state.2 ++ [node] else state.2)

def place (g : Graph) : Nat → Waits → List String → List String → List String
  | 0, _, _, placed => placed
  | _ + 1, _, [], placed => placed
  | n + 1, waits, current :: queue, placed =>
    let (waits, queue) := (g.holders current).foldl release (waits, queue)
    g.place n waits queue (placed ++ [current])

def topologicalOrder (g : Graph) : Option (List String) :=
  let waits := g.waits
  let start := (waits.filter fun w => w.2 = 0).map (·.1)
  let order := g.place g.nodes.length waits start []
  if order.length = g.nodes.length then some order else none

def summary (g : Graph) : String :=
  s!"DependencyGraph({g.nodes.length} types, {g.edges.length} value edges, " ++
    s!"{g.optionalEdges.length} optional edges)"

end Graph

end Xdr

/-!
# Cycles in a directed graph

The nodes of a graph are numbers, and `edges` lists for each of them where its edges lead, in the
order in which they are followed. `Peg.Digraph.cycle?` searches the graph depth first and reports
the first cycle it runs into, as the nodes on the way round with the first one repeated at the
end.

The search marks every node with how far it has come with it (`Peg.Digraph.Visit`). Nodes that it has
entered and not left are in progress; they are the path from the node where the search began to the one
where it is, and an edge to one of them closes a cycle. Nodes that it has left are done and are not
entered again, by a search from another node either. No node is on the path twice, so the search never
goes deeper than there are nodes.
-/

namespace Peg.Digraph

/-- How far a search has come with a node. -/
inductive Visit
  /-- The node was not entered. -/
  | unvisited
  /-- The node was entered and not left. -/
  | inProgress
  /-- The node was left. -/
  | done
deriving DecidableEq, Repr

/-- Where a search is. -/
structure Search where
  /-- The mark of each node. -/
  visits : List Visit
  /-- The nodes in progress, in the order in which they were entered. -/
  path : List Nat := []
deriving DecidableEq, Repr

/-- Why a search stops before it is over. -/
inductive Stop
  /-- It has run into a cycle, whose first node is repeated at the end. -/
  | cycle (nodes : List Nat)
  /-- It would have to go deeper than it may. -/
  | tooDeep
deriving DecidableEq, Repr

namespace Search

/-- The search of a graph of `size` nodes before it begins. -/
def start (size : Nat) : Search := { visits := List.replicate size .unvisited }

/-- The mark of a node. There is nothing to do for a number that is no node. -/
def visitOf (s : Search) (node : Nat) : Visit := s.visits.getD node .done

/-- A node is entered. -/
def enter (s : Search) (node : Nat) : Search :=
  { visits := s.visits.set node .inProgress, path := s.path ++ [node] }

/-- The node that was entered last is left. -/
def leave (s : Search) (node : Nat) : Search :=
  { visits := s.visits.set node .done, path := s.path.dropLast }

/-- The cycle that an edge to a node in progress closes: the path from this node on, and the node. -/
def closing (s : Search) (node : Nat) : List Nat :=
  s.path.drop ((s.path.idxOf? node).getD 0) ++ [node]

/-- Follows an edge to the node `next`, where `visit` searches from a node that was not entered. -/
def follow (visit : Search → Nat → Except Stop Search) (s : Search) (next : Nat) :
    Except Stop Search :=
  match s.visitOf next with
  | .inProgress => .error (.cycle (s.closing next))
  | .unvisited => visit s next
  | .done => .ok s

end Search

/-- Searches from a node that was not entered, going `depth` nodes deep at most. -/
def visit (edges : List (List Nat)) (depth : Nat) (s : Search) (node : Nat) : Except Stop Search :=
  match depth with
  | 0 => .error .tooDeep
  | depth + 1 => do
    let s ← (edges.getD node []).foldlM (Search.follow (visit edges depth)) (s.enter node)
    return s.leave node

/-- Searches from each node in turn that was not entered by then. -/
def scan (edges : List (List Nat)) (depth : Nat) : Except Stop Search :=
  (List.range edges.length).foldlM
    (fun s node => if s.visitOf node = .unvisited then visit edges depth s node else .ok s)
    (.start edges.length)

/-- The first cycle that the search runs into, its first node repeated at the end. -/
def cycle? (edges : List (List Nat)) : Option (List Nat) :=
  match scan edges edges.length with
  | .error (.cycle nodes) => some nodes
  | .error .tooDeep | .ok _ => none

end Peg.Digraph

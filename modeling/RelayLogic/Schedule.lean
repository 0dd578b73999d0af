/-!
Orders of evaluation. Nodes are put after the nodes that they depend on by a depth-first search;
a dependency that closes a cycle is passed over and counted.
-/

namespace RelayLogic

structure Dependencies where
  table : Array (List Nat)
  included : Array Bool
  deriving DecidableEq, Repr

/-- An order of nodes and the number of dependencies passed over in it. -/
structure Schedule where
  order : List Nat
  cycles : Nat
  deriving DecidableEq, Repr

namespace Dependencies

def includes (dependencies : Dependencies) (node : Nat) : Bool :=
  node < dependencies.table.size && dependencies.included.getD node false

def of (dependencies : Dependencies) (node : Nat) : List Nat :=
  (dependencies.table.getD node []).filter dependencies.includes

/--
Puts a node in order after its dependencies. `path` holds the nodes whose turn has begun; each of
them is another, so `fuel` need not exceed the number of nodes.
-/
def visit (dependencies : Dependencies) : Nat → List Nat → Schedule → Nat → Schedule
  | 0, _, schedule, _ => schedule
  | fuel + 1, path, schedule, node =>
    let visited := (dependencies.of node).foldl
      (fun schedule dependency =>
        if dependency ∈ node :: path then { schedule with cycles := schedule.cycles + 1 }
        else if dependency ∈ schedule.order then schedule
        else visit dependencies fuel (node :: path) schedule dependency)
      schedule
    { visited with order := visited.order ++ [node] }

def schedule (dependencies : Dependencies) : Schedule :=
  let count := dependencies.table.size
  ((List.range count).filter dependencies.includes).foldl
    (fun schedule root =>
      if root ∈ schedule.order then schedule else dependencies.visit count [] schedule root)
    ⟨[], 0⟩

end Dependencies

end RelayLogic

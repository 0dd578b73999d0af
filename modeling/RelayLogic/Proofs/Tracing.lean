import RelayLogic.Proofs.Directing
import RelayLogic.Proofs.Joining
import RelayLogic.Proofs.Rooting

/-!
The connections of a pin, told by the wires between them. The walk along the wires ends, and it
finds what paths of wires lead to; the inversion that it tells is that of a path, which visits no
pin twice. Which end of a wire is its start makes no difference.
-/

namespace RelayLogic

def Wire.Joins (wire : Wire) (here there : ElementId) : Prop :=
  wire.start = here ∧ wire.stop = there ∨ wire.start = there ∧ wire.stop = here

def Wire.swapped (wire : Wire) (ends marks : Bool) : Wire where
  start := if ends then wire.stop else wire.start
  stop := if ends then wire.start else wire.stop
  invertStart := if marks then wire.invertStop else wire.invertStart
  invertStop := if marks then wire.invertStart else wire.invertStop

/-- The rounds of a walk: from its stack and what it has found to what it finds in the end. -/
inductive Adjacency.Walks (adjacency : Adjacency) (passes : ElementId → Bool) (root : ElementId) :
    List Connection → List Connection → List Connection → Prop
  | done {found} : Walks adjacency passes root [] found found
  | round {here stack found final}
      (rest : Walks adjacency passes root
        (((adjacency.fresh root found here).filter (passes ·.pin)).reverse ++ stack)
        (found ++ adjacency.fresh root found here) final) :
      Walks adjacency passes root (here :: stack) found final

namespace Circuit

/-- A path of wires from a root to a pin, the pins between them, all undirected but for the root,
and the parity of the inversions on it. -/
inductive Path (circuit : Circuit) (root : ElementId) : List ElementId → ElementId → Bool → Prop
  | wire {id wire pin} (held : (id, wire) ∈ circuit.wires) (joins : wire.Joins root pin) :
      Path circuit root [] pin wire.inverted
  | onward {between here inverted id wire pin} (path : Path circuit root between here inverted)
      (through : here = root ∨ circuit.direction here = .undefined)
      (held : (id, wire) ∈ circuit.wires) (joins : wire.Joins here pin) :
      Path circuit root (between ++ [here]) pin (inverted ^^ wire.inverted)

/-- Whether all paths to a pin that visit no pin twice agree on a parity. -/
def Parity (circuit : Circuit) (root pin : ElementId) (parity : Bool) : Prop :=
  ∀ between inverted, circuit.Path root between pin inverted → (root :: between ++ [pin]).Nodup →
    inverted = parity

def swapped (circuit : Circuit) (ends marks : ElementId → Bool) : Circuit :=
  ⟨circuit.elements.mapIdx fun id element =>
    match element.kind with
    | .wire wire => { element with kind := .wire (wire.swapped (ends id) (marks id)) }
    | _ => element⟩

def setDirections (circuit : Circuit) (settings : List (ElementId × Direction)) : Circuit :=
  settings.foldl (fun circuit setting => circuit.setDirection setting.1 setting.2) circuit

def connected (circuit : Circuit) (root : ElementId) : List Connection :=
  circuit.connections circuit.adjacency root

structure Resolves (circuit : Circuit) (root : ElementId) : Prop where
  ends : circuit.adjacency.Walks (fun pin => circuit.direction pin == .undefined) root
    [⟨root, false⟩] [] (circuit.connected root)
  once : ((circuit.connected root).map (·.pin)).Nodup
  reached : ∀ pin, pin ∈ (circuit.connected root).map (·.pin) ↔
    pin ≠ root ∧ ∃ between inverted, circuit.Path root between pin inverted
  arePins : ∀ connection ∈ circuit.connected root, circuit.isPin connection.pin
  path : ∀ connection ∈ circuit.connected root, ∃ between,
    circuit.Path root between connection.pin connection.inverted ∧
      (root :: between ++ [connection.pin]).Nodup
  parity : ∀ connection ∈ circuit.connected root, ∀ parity,
    circuit.Parity root connection.pin parity → connection.inverted = parity
  swapped : ∀ ends marks,
    (((circuit.swapped ends marks).connected root).map (·.pin)).Perm
        ((circuit.connected root).map (·.pin)) ∧
      ∀ connection ∈ circuit.connected root, ∀ parity,
        circuit.Parity root connection.pin parity →
          connection ∈ (circuit.swapped ends marks).connected root

end Circuit

namespace Adjacency

variable {adjacency : Adjacency} {passes : ElementId → Bool} {root : ElementId}

theorem walks_walkFrom {done : List ElementId} {stack found : List Connection} {fuel : Nat}
    (walking : Walking adjacency passes root done stack found)
    (enough : adjacency.links.length + 1 ≤ done.length + fuel) :
    adjacency.Walks passes root stack found (adjacency.walkFrom passes root fuel stack found) := by
  induction fuel generalizing done stack found with
  | zero =>
      have bound := walking.length_le
      have empty : stack = [] := List.length_eq_zero_iff.mp (by omega)
      subst empty
      exact .done
  | succ fuel ih =>
      cases stack with
      | nil => exact .done
      | cons here stack =>
          refine .round (ih walking.round ?_)
          simp only [List.length_append, List.length_cons, List.length_nil]
          omega

theorem walks_walk (adjacency : Adjacency) (passes : ElementId → Bool) (root : ElementId) :
    adjacency.Walks passes root [⟨root, false⟩] [] (adjacency.walk passes root) :=
  walks_walkFrom (walking_start adjacency passes root) (by simp)

end Adjacency

namespace Circuit

variable {circuit made : Circuit} {root : ElementId}

theorem mem_links_iff {here : ElementId} {next : Connection} :
    (here, next) ∈ circuit.adjacency.links ↔ ∃ id wire, (id, wire) ∈ circuit.wires ∧
      wire.Joins here next.pin ∧ next.inverted = wire.inverted := by
  simp only [adjacency, List.mem_flatMap, Prod.exists]
  refine exists_congr fun id => exists_congr fun wire => and_congr_right fun _ => ?_
  obtain ⟨pin, inverted⟩ := next
  simp only [Wire.links, Wire.Joins, List.mem_cons, Prod.mk.injEq, Connection.mk.injEq,
    List.not_mem_nil, or_false]
  constructor
  · rintro (⟨rfl, rfl, rfl⟩ | ⟨rfl, rfl, rfl⟩)
    · exact ⟨Or.inl ⟨rfl, rfl⟩, rfl⟩
    · exact ⟨Or.inr ⟨rfl, rfl⟩, rfl⟩
  · rintro ⟨⟨rfl, rfl⟩ | ⟨rfl, rfl⟩, rfl⟩
    · exact Or.inl ⟨rfl, rfl, rfl⟩
    · exact Or.inr ⟨rfl, rfl, rfl⟩

theorem Path.way {between : List ElementId} {pin : ElementId} {inverted : Bool}
    (path : circuit.Path root between pin inverted) :
    pin = root ∨ ∃ parity,
      circuit.adjacency.Way (fun pin => circuit.direction pin == .undefined) root pin parity := by
  induction path with
  | @wire id wire pin held joins =>
      have link : (root, ⟨pin, wire.inverted⟩) ∈ circuit.adjacency.links :=
        mem_links_iff.mpr ⟨id, wire, held, joins, rfl⟩
      exact Or.inr ⟨_, .first link⟩
  | @onward _ here _ id wire pin _ through held joins ih =>
      have link : (here, ⟨pin, wire.inverted⟩) ∈ circuit.adjacency.links :=
        mem_links_iff.mpr ⟨id, wire, held, joins, rfl⟩
      by_cases isRoot : here = root
      · subst isRoot
        exact Or.inr ⟨_, .first link⟩
      · obtain ⟨parity, way⟩ := ih.resolve_left isRoot
        exact Or.inr ⟨_, way.onward (by simpa using through.resolve_left isRoot) link⟩

structure Traced (circuit : Circuit) (root : ElementId) (stack found : List Connection) :
    Prop where
  paths : ∀ connection ∈ found, ∃ between,
    circuit.Path root between connection.pin connection.inverted ∧
      (root :: between ++ [connection.pin]).Nodup ∧ between ⊆ found.map (·.pin)
  pending : ∀ here ∈ stack,
    here = ⟨root, false⟩ ∨ here ∈ found ∧ circuit.direction here.pin = .undefined

theorem Traced.fresh {here : Connection} {stack found : List Connection}
    (traced : circuit.Traced root (here :: stack) found) {connection : Connection}
    (member : connection ∈ circuit.adjacency.fresh root found here) : ∃ between,
      circuit.Path root between connection.pin connection.inverted ∧
        (root :: between ++ [connection.pin]).Nodup ∧ between ⊆ found.map (·.pin) := by
  have spec := Adjacency.fresh_spec circuit.adjacency root found here
  obtain ⟨notRoot, absent⟩ := spec.new connection member
  obtain ⟨next, link, rfl⟩ := spec.linked connection member
  obtain ⟨id, wire, held, joins, marked⟩ := mem_links_iff.mp (Adjacency.mem_neighbours.mp link)
  rw [marked]
  rcases traced.pending here List.mem_cons_self with rfl | ⟨inFound, through⟩
  · exact ⟨[], by simpa using .wire held joins, by simpa using notRoot.symm, List.nil_subset _⟩
  · obtain ⟨between, path, unique, within⟩ := traced.paths here inFound
    refine ⟨between ++ [here.pin], path.onward (Or.inr through) held joins, ?_, ?_⟩
    · have passed : between ++ [here.pin] ⊆ found.map (·.pin) :=
        List.append_subset.mpr ⟨within, by simpa using ⟨here, inFound, rfl⟩⟩
      refine List.nodup_append.mpr ⟨by simpa using unique, List.nodup_singleton _, ?_⟩
      rintro pin visited _ last rfl
      rw [List.mem_singleton.mp last] at visited
      rcases List.mem_cons.mp visited with isRoot | before
      · exact notRoot isRoot
      · exact absent (passed before)
    · exact List.append_subset.mpr ⟨within, by simpa using ⟨here, inFound, rfl⟩⟩

theorem Traced.round {here : Connection} {stack found : List Connection}
    (traced : circuit.Traced root (here :: stack) found) :
    circuit.Traced root
      (((circuit.adjacency.fresh root found here).filter fun next =>
        circuit.direction next.pin == .undefined).reverse ++ stack)
      (found ++ circuit.adjacency.fresh root found here) := by
  constructor
  case paths =>
    intro connection member
    have known : ∃ between, circuit.Path root between connection.pin connection.inverted ∧
        (root :: between ++ [connection.pin]).Nodup ∧ between ⊆ found.map (·.pin) := by
      rcases List.mem_append.mp member with old | new
      · exact traced.paths connection old
      · exact traced.fresh new
    obtain ⟨between, path, unique, within⟩ := known
    refine ⟨between, path, unique, fun pin member => ?_⟩
    rw [List.map_append]
    exact List.mem_append_left _ (within member)
  case pending =>
    intro other member
    rcases List.mem_append.mp member with new | old
    · obtain ⟨inFresh, through⟩ := List.mem_filter.mp (List.mem_reverse.mp new)
      exact Or.inr ⟨List.mem_append_right _ inFresh, by simpa using through⟩
    · exact (traced.pending other (List.mem_cons_of_mem _ old)).imp_right
        fun ⟨inFound, through⟩ => ⟨List.mem_append_left _ inFound, through⟩

theorem Traced.walked {stack found final : List Connection}
    (traced : circuit.Traced root stack found)
    (walks : circuit.adjacency.Walks (fun pin => circuit.direction pin == .undefined) root
      stack found final) : circuit.Traced root [] final := by
  induction walks with
  | done => exact traced
  | round _ ih => exact ih traced.round

theorem traced_connected (circuit : Circuit) (root : ElementId) :
    circuit.Traced root [] (circuit.connected root) := by
  have start : circuit.Traced root [⟨root, false⟩] [] := ⟨by simp, by simp⟩
  exact start.walked (Adjacency.walks_walk circuit.adjacency _ root)

theorem mem_connected {pin : ElementId} :
    pin ∈ (circuit.connected root).map (·.pin) ↔
      pin ≠ root ∧ ∃ between inverted, circuit.Path root between pin inverted := by
  constructor
  · intro member
    refine ⟨(Adjacency.mem_walk_iff.mp member).1, ?_⟩
    obtain ⟨connection, found, rfl⟩ := List.mem_map.mp member
    obtain ⟨between, path, _⟩ := (traced_connected circuit root).paths connection found
    exact ⟨between, _, path⟩
  · rintro ⟨different, _, _, path⟩
    exact Adjacency.mem_walk_iff.mpr ⟨different, path.way.resolve_left different⟩

theorem inverted_of_parity {connection : Connection} {parity : Bool}
    (member : connection ∈ circuit.connected root)
    (agreed : circuit.Parity root connection.pin parity) : connection.inverted = parity := by
  obtain ⟨between, path, unique, _⟩ := (traced_connected circuit root).paths connection member
  exact agreed between _ path unique

theorem Wire.joins_swapped (wire : Wire) (ends marks : Bool) (here there : ElementId) :
    (wire.swapped ends marks).Joins here there ↔ wire.Joins here there := by
  cases ends
  · rfl
  · simp only [Wire.Joins, Wire.swapped, ↓reduceIte]
    tauto

theorem Wire.inverted_swapped (wire : Wire) (ends marks : Bool) :
    (wire.swapped ends marks).inverted = wire.inverted := by
  cases marks
  · rfl
  · exact Bool.or_comm _ _

theorem get?_swapped (circuit : Circuit) (ends marks : ElementId → Bool) (id : ElementId) :
    (circuit.swapped ends marks).get? id = (circuit.get? id).map fun element =>
      match element.kind with
      | .wire wire => { element with kind := .wire (wire.swapped (ends id) (marks id)) }
      | _ => element := by
  simp only [get?, swapped, Array.getElem?_mapIdx]

theorem mem_wires_swapped {ends marks : ElementId → Bool} {id : ElementId} {wire : Wire} :
    (id, wire) ∈ (circuit.swapped ends marks).wires ↔
      ∃ before, (id, before) ∈ circuit.wires ∧ wire = before.swapped (ends id) (marks id) := by
  simp only [mem_wires, get?_swapped]
  cases circuit.get? id with
  | none => simp
  | some element =>
      obtain ⟨name, kind, owner, children, evaluator, block⟩ := element
      cases kind <;> simp [eq_comm]

theorem direction_swapped (circuit : Circuit) (ends marks : ElementId → Bool) (id : ElementId) :
    (circuit.swapped ends marks).direction id = circuit.direction id := by
  simp only [direction, get?_swapped]
  cases circuit.get? id with
  | none => rfl
  | some element =>
      obtain ⟨name, kind, owner, children, evaluator, block⟩ := element
      cases kind <;> rfl

theorem Path.mono {between : List ElementId} {pin : ElementId} {inverted : Bool}
    (path : circuit.Path root between pin inverted)
    (directions : ∀ id, made.direction id = circuit.direction id)
    (wires : ∀ id wire, (id, wire) ∈ circuit.wires → ∃ other, (id, other) ∈ made.wires ∧
      other.inverted = wire.inverted ∧ ∀ here there, wire.Joins here there → other.Joins here there) :
    made.Path root between pin inverted := by
  induction path with
  | wire held joins =>
      obtain ⟨other, otherHeld, marked, ends⟩ := wires _ _ held
      exact marked ▸ .wire otherHeld (ends _ _ joins)
  | onward _ through held joins ih =>
      obtain ⟨other, otherHeld, marked, ends⟩ := wires _ _ held
      exact marked ▸ ih.onward (by rwa [directions]) otherHeld (ends _ _ joins)

theorem path_swapped {ends marks : ElementId → Bool} {between : List ElementId} {pin : ElementId}
    {inverted : Bool} : (circuit.swapped ends marks).Path root between pin inverted ↔
      circuit.Path root between pin inverted := by
  constructor
  · intro path
    refine path.mono (fun id => (direction_swapped circuit ends marks id).symm) ?_
    intro id wire held
    obtain ⟨before, beforeHeld, rfl⟩ := mem_wires_swapped.mp held
    exact ⟨before, beforeHeld, (Wire.inverted_swapped before _ _).symm,
      fun here there => (Wire.joins_swapped before _ _ here there).mp⟩
  · intro path
    refine path.mono (direction_swapped circuit ends marks) ?_
    intro id wire held
    exact ⟨_, mem_wires_swapped.mpr ⟨wire, held, rfl⟩, Wire.inverted_swapped wire _ _,
      fun here there => (Wire.joins_swapped wire _ _ here there).mpr⟩

theorem mem_connected_swapped {ends marks : ElementId → Bool} {pin : ElementId} :
    pin ∈ ((circuit.swapped ends marks).connected root).map (·.pin) ↔
      pin ∈ (circuit.connected root).map (·.pin) := by
  simp only [mem_connected, path_swapped]

theorem connected_swapped {ends marks : ElementId → Bool} {connection : Connection} {parity : Bool}
    (member : connection ∈ circuit.connected root)
    (agreed : circuit.Parity root connection.pin parity) :
    connection ∈ (circuit.swapped ends marks).connected root := by
  obtain ⟨other, found, samePin⟩ :=
    List.mem_map.mp (mem_connected_swapped.mpr (List.mem_map_of_mem member))
  have otherAgreed : (circuit.swapped ends marks).Parity root other.pin parity := by
    intro between inverted path
    rw [samePin, path_swapped] at path
    rw [samePin]
    exact agreed between inverted path
  have sameFlag : other.inverted = connection.inverted :=
    (inverted_of_parity found otherAgreed).trans (inverted_of_parity member agreed).symm
  have equal : other = connection := by
    cases connection
    cases other
    exact Connection.mk.injEq _ _ _ _ ▸ ⟨samePin, sameFlag⟩
  exact equal ▸ found

theorem Wired.setDirection (wired : circuit.Wired) (id : ElementId) (direction : Direction) :
    (circuit.setDirection id direction).Wired := by
  refine wired.change (fun pin isPin => ?_) fun other wire isWire => Or.inl ?_
  · rwa [← isPin_undirected, undirected_setDirection, isPin_undirected]
  · obtain ⟨element, held, same⟩ := kind?_eq_some.mp isWire
    rw [get?_setDirection] at held
    split at held
    · obtain ⟨before, beforeHeld, rfl⟩ := Option.map_eq_some_iff.mp held
      refine kind?_eq_some.mpr ⟨before, beforeHeld, ?_⟩
      cases kind : before.kind <;> simp [kind] at same ⊢
      exact same
    · exact kind?_eq_some.mpr ⟨element, held, same⟩

theorem Wired.setDirections (wired : circuit.Wired) (settings : List (ElementId × Direction)) :
    (circuit.setDirections settings).Wired :=
  List.foldlRecOn settings _ wired fun _ wired setting _ =>
    wired.setDirection setting.1 setting.2

theorem Wired.isPin (wired : circuit.Wired) {between : List ElementId} {pin : ElementId}
    {inverted : Bool} (path : circuit.Path root between pin inverted) : circuit.isPin pin := by
  have ends : ∀ {id wire here there}, (id, wire) ∈ circuit.wires → wire.Joins here there →
      circuit.isPin there := by
    intro id wire here there held joins
    obtain ⟨startIsPin, stopIsPin, _⟩ := wired id wire (kind?_eq_some.mpr (mem_wires.mp held))
    rcases joins with ⟨_, rfl⟩ | ⟨rfl, _⟩
    · exact stopIsPin
    · exact startIsPin
  cases path with
  | wire held joins => exact ends held joins
  | onward _ _ held joins => exact ends held joins

theorem Wired.resolves (wired : circuit.Wired) (root : ElementId) : circuit.Resolves root where
  ends := Adjacency.walks_walk circuit.adjacency _ root
  once := Adjacency.nodup_walk circuit.adjacency _ root
  reached _ := mem_connected
  arePins connection member := by
    obtain ⟨_, path, _⟩ := (traced_connected circuit root).paths connection member
    exact wired.isPin path
  path connection member := by
    obtain ⟨between, path, unique, _⟩ := (traced_connected circuit root).paths connection member
    exact ⟨between, path, unique⟩
  parity _ member _ agreed := inverted_of_parity member agreed
  swapped ends marks := by
    refine ⟨?_, fun _ member _ agreed => connected_swapped member agreed⟩
    exact (List.perm_ext_iff_of_nodup (Adjacency.nodup_walk _ _ root)
      (Adjacency.nodup_walk _ _ root)).mpr fun pin => mem_connected_swapped

/-- The connections of any pin, in whatever circuit building calls and set directions make. -/
theorem resolves_afterCalls (name : String) (calls : List Call)
    (settings : List (ElementId × Direction)) (root : ElementId) :
    (((empty name).afterCalls calls).setDirections settings).Resolves root :=
  ((wired_afterCalls name calls).setDirections settings).resolves root

end Circuit

end RelayLogic

import RelayLogic.Diagram.Statement
import Mathlib.Data.List.Basic
import Mathlib.Data.List.Induction
import Mathlib.Data.List.TakeWhile

/-!
What statements declare, told by what they are and where they stand, and not by a draft that they
are added to one by one. A context is opened by its directive, or on the spot by a block or a wire
that stands in none, and has the blocks and wires from there to the next directive of its kind.
-/

namespace RelayLogic.Diagram

namespace Statement

def solution? : Statement → Option String
  | solution name => some name
  | _ => none

def project? : Statement → Option String
  | project name => some name
  | _ => none

def tag? : Statement → Option TagDecl
  | tag decl => some decl
  | _ => none

def block? : Statement → Option BlockDecl
  | block decl => some decl
  | _ => none

def wire? : Statement → Option WireDecl
  | wire decl => some decl
  | _ => none

def isContext : Statement → Bool
  | context _ _ => true
  | _ => false

/-- Whether a context is open behind a statement, whatever stands before it. -/
def leavesOpen : Statement → Bool
  | context _ _ | block _ | wire _ => true
  | _ => false

/-- Name and line of the context that a statement opens behind some others. -/
def opens (before : List Statement) : Statement → Option (String × Nat)
  | context name line => some (name, line)
  | block decl => if before.any leavesOpen then none else some (defaultName, decl.line)
  | wire decl => if before.any leavesOpen then none else some (defaultName, decl.line)
  | _ => none

end Statement

def projectAfter (statements : List Statement) : String :=
  (statements.filterMap Statement.project?).getLast?.getD defaultName

def contextWith (project name : String) (line : Nat) (inside : List Statement) : ContextDecl :=
  ⟨project, name, inside.filterMap Statement.block?, inside.filterMap Statement.wire?, line⟩

/-- The context that is opened by the first of some statements behind others. -/
def contextAt (before : List Statement) : List Statement → Option ContextDecl
  | [] => none
  | read :: rest => (read.opens before).map fun (name, line) =>
      contextWith (projectAfter before) name line (read :: rest.takeWhile (!·.isContext))

def contextsOf (statements : List Statement) : List ContextDecl :=
  (List.range statements.length).filterMap fun place =>
    contextAt (statements.take place) (statements.drop place)

/-- A diagram that has what some statements declare, and nothing else. -/
structure Declares (statements : List Statement) (diagram : Diagram) : Prop where
  solution : diagram.solution = (statements.filterMap Statement.solution?).getLast?
  tags : diagram.tags = statements.filterMap Statement.tag?
  contexts : diagram.contexts = contextsOf statements

variable {before rest statements : List Statement} {read : Statement} {name : String} {line : Nat}

theorem Declares.unique {first second : Diagram} (declares : Declares statements first)
    (same : Declares statements second) : first = second := by
  obtain ⟨solution, tags, contexts⟩ := declares
  obtain ⟨solution', tags', contexts'⟩ := same
  cases first
  cases second
  simp_all

namespace Statement

theorem leavesOpen_of_isContext (isContext : read.isContext) : read.leavesOpen := by
  cases read with
  | context => rfl
  | _ => cases isContext

theorem leavesOpen_of_opens (opened : read.opens before = some (name, line)) :
    read.leavesOpen := by
  cases read with
  | context | block | wire => rfl
  | _ => cases opened

theorem opens_eq_none (behind : before.any leavesOpen) (plain : ¬read.isContext) :
    read.opens before = none := by
  cases read with
  | context => exact absurd rfl plain
  | block | wire => exact if_pos behind
  | _ => rfl

theorem isContext_of_opens (behind : before.any leavesOpen)
    (opened : read.opens before = some (name, line)) : read.isContext := by
  by_contra plain
  simp [opens_eq_none behind plain] at opened

theorem exists_opens (closed : ¬before.any leavesOpen) (leavesOpen : read.leavesOpen) :
    ∃ name line, read.opens before = some (name, line) := by
  cases read with
  | context name line => exact ⟨name, line, rfl⟩
  | block decl | wire decl => exact ⟨defaultName, decl.line, if_neg closed⟩
  | _ => cases leavesOpen

end Statement

theorem takeWhile_context (isContext : read.isContext) (rest behind : List Statement) :
    (rest ++ read :: behind).takeWhile (!·.isContext) = rest.takeWhile (!·.isContext) := by
  induction rest with
  | nil => simp [isContext]
  | cons first rest ih => simp only [List.cons_append, List.takeWhile_cons, ih]

theorem contextAt_before (opened : read.opens (before ++ statements) = some (name, line))
    (inside : statements ≠ []) :
    contextAt before (statements ++ read :: rest) = contextAt before statements := by
  obtain ⟨first, later, rfl⟩ := List.exists_cons_of_ne_nil inside
  simp only [List.cons_append, contextAt]
  cases opens : first.opens before with
  | none => rfl
  | some opening =>
      have behind : (before ++ first :: later).any Statement.leavesOpen := by
        simp [Statement.leavesOpen_of_opens opens]
      rw [takeWhile_context (Statement.isContext_of_opens behind opened)]

theorem contextsOf_eq_nil (closed : ¬statements.any Statement.leavesOpen) :
    contextsOf statements = [] := by
  refine List.filterMap_eq_nil_iff.mpr fun place _ => ?_
  cases here : statements.drop place with
  | nil => rfl
  | cons read rest =>
      have member : read ∈ statements := List.mem_of_mem_drop (here ▸ List.mem_cons_self)
      have never : read.opens (statements.take place) = none := by
        by_contra opens
        obtain ⟨opening, opened⟩ := Option.ne_none_iff_exists'.mp opens
        exact closed (List.any_eq_true.mpr ⟨read, member, Statement.leavesOpen_of_opens opened⟩)
      simp only [contextAt, never, Option.map_none]

theorem exists_opening (behind : statements.any Statement.leavesOpen) :
    ∃ before read rest name line, statements = before ++ read :: rest ∧
      read.opens before = some (name, line) ∧ ∀ other ∈ rest, ¬other.isContext := by
  induction statements using List.reverseRecOn with
  | nil => simp at behind
  | append_singleton statements last ih =>
      by_cases isContext : last.isContext
      · cases last with
        | context name line => exact ⟨statements, _, [], name, line, rfl, rfl, by simp⟩
        | _ => cases isContext
      · by_cases earlier : statements.any Statement.leavesOpen
        · obtain ⟨before, read, rest, name, line, rfl, opened, others⟩ := ih earlier
          exact ⟨before, read, rest ++ [last], name, line, by simp, opened,
            List.forall_mem_append.mpr ⟨others, List.forall_mem_singleton.mpr isContext⟩⟩
        · have leavesOpen : last.leavesOpen := by simpa [earlier] using behind
          obtain ⟨name, line, opens⟩ := Statement.exists_opens earlier leavesOpen
          exact ⟨statements, last, [], name, line, rfl, opens, by simp⟩

theorem contextsOf_append (opened : read.opens before = some (name, line))
    (plain : ∀ other ∈ rest, ¬other.isContext) :
    contextsOf (before ++ read :: rest) =
      contextsOf before ++ [contextWith (projectAfter before) name line (read :: rest)] := by
  have whole : rest.takeWhile (!·.isContext) = rest :=
    List.takeWhile_eq_self_iff.mpr fun other member => by simpa using plain other member
  have here : contextAt before (read :: rest) =
      some (contextWith (projectAfter before) name line (read :: rest)) := by
    simp only [contextAt, opened, Option.map_some, whole]
  have later : ∀ place, contextAt (before ++ read :: rest.take place) (rest.drop place) = none := by
    intro place
    cases left : rest.drop place with
    | nil => rfl
    | cons other others =>
        have member : other ∈ rest := List.mem_of_mem_drop (left ▸ List.mem_cons_self)
        have behind : (before ++ read :: rest.take place).any Statement.leavesOpen := by
          simp [Statement.leavesOpen_of_opens opened]
        simp only [contextAt, Statement.opens_eq_none behind (plain other member), Option.map_none]
  rw [contextsOf, List.length_append, List.length_cons, List.range_add, List.filterMap_append,
    List.filterMap_map, List.range_succ_eq_map]
  congr 1
  · refine List.filterMap_congr fun place bound => ?_
    have inside := List.mem_range.mp bound
    rw [List.take_append_of_le_length (Nat.le_of_lt inside),
      List.drop_append_of_le_length (Nat.le_of_lt inside)]
    exact contextAt_before (by rwa [List.take_append_drop]) (by simpa using inside)
  · rw [List.filterMap_cons]
    simp only [Function.comp_def, List.take_length_add_append, List.drop_length_add_append,
      List.take_zero, List.append_nil, List.drop_zero, here, List.filterMap_map,
      List.take_succ_cons, List.drop_succ_cons, later]
    rw [List.filterMap_eq_nil_iff.mpr fun _ _ => rfl]

/-- Where a context is open, what stands behind and opens none belongs to the last one. -/
theorem exists_last (behind : statements.any Statement.leavesOpen) :
    ∃ earlier project name line inside,
      contextsOf statements = earlier ++ [contextWith project name line inside] ∧
      ∀ read : Statement, ¬read.isContext →
        contextsOf (statements ++ [read]) =
          earlier ++ [contextWith project name line (inside ++ [read])] := by
  obtain ⟨before, first, rest, name, line, rfl, opens, others⟩ := exists_opening behind
  refine ⟨_, _, _, _, _, contextsOf_append opens others, fun read plain => ?_⟩
  have more : ∀ other ∈ rest ++ [read], ¬other.isContext :=
    List.forall_mem_append.mpr ⟨others, List.forall_mem_singleton.mpr plain⟩
  rw [List.append_assoc, List.cons_append, contextsOf_append opens more]

theorem contextsOf_concat (closed : ¬read.leavesOpen) :
    contextsOf (statements ++ [read]) = contextsOf statements := by
  by_cases behind : statements.any Statement.leavesOpen
  · obtain ⟨earlier, project, name, line, inside, held, more⟩ := exists_last behind
    have nothing : contextWith project name line (inside ++ [read]) =
        contextWith project name line inside := by
      cases read with
      | context | block | wire => exact absurd rfl closed
      | _ => simp [contextWith, Statement.block?, Statement.wire?]
    have plain : ¬read.isContext := fun isContext =>
      closed (Statement.leavesOpen_of_isContext isContext)
    rw [more read plain, held, nothing]
  · rw [contextsOf_eq_nil behind, contextsOf_eq_nil (by simpa [closed] using behind)]

theorem modify_last (contexts : List ContextDecl) (last : ContextDecl)
    (change : ContextDecl → ContextDecl) :
    (contexts ++ [last]).modify ((contexts ++ [last]).length - 1) change =
      contexts ++ [change last] := by
  induction contexts with
  | nil => rfl
  | cons first contexts ih => simpa using ih

theorem contexts_changeLast {draft : Draft} {change : ContextDecl → ContextDecl}
    (contexts : draft.diagram.contexts = contextsOf statements)
    (project : draft.project = projectAfter statements)
    (opens : read.opens statements =
      if statements.any Statement.leavesOpen then none else some (defaultName, line))
    (plain : ¬read.isContext)
    (changes : ∀ project name line inside, change (contextWith project name line inside) =
      contextWith project name line (inside ++ [read])) :
    ((draft.ensureContext line).changeLast change).diagram.contexts =
      contextsOf (statements ++ [read]) := by
  show (draft.ensureContext line).diagram.contexts.modify
    ((draft.ensureContext line).diagram.contexts.length - 1) change = _
  by_cases behind : statements.any Statement.leavesOpen
  · obtain ⟨earlier, project, name, opened, inside, held, more⟩ := exists_last behind
    have already : draft.ensureContext line = draft := by
      rw [Draft.ensureContext, contexts, held, if_neg (by simp)]
    rw [already, contexts, held, modify_last, changes, more read plain]
  · rw [if_neg behind] at opens
    have none := contextsOf_eq_nil behind
    have empty : draft.diagram.contexts = [] := contexts.trans none
    have now : (draft.ensureContext line).diagram.contexts =
        [] ++ [contextWith (projectAfter statements) defaultName line []] := by
      rw [Draft.ensureContext, empty, if_pos List.isEmpty_nil, Draft.openContext, empty, project]
      rfl
    rw [now, modify_last, changes, contextsOf_append opens (by simp), none]
    rfl

theorem projectAfter_concat (statements : List Statement) (read : Statement) :
    projectAfter (statements ++ [read]) = read.project?.getD (projectAfter statements) := by
  cases read <;> simp [projectAfter, Statement.project?]

namespace Draft

theorem rest_changeLast (draft : Draft) (line : Nat) (change : ContextDecl → ContextDecl) :
    ((draft.ensureContext line).changeLast change).diagram.solution = draft.diagram.solution ∧
      ((draft.ensureContext line).changeLast change).diagram.tags = draft.diagram.tags ∧
      ((draft.ensureContext line).changeLast change).project = draft.project := by
  unfold ensureContext
  split <;> exact ⟨rfl, rfl, rfl⟩

theorem solution_add (draft : Draft) (read : Statement) :
    (draft.add read).diagram.solution = read.solution?.or draft.diagram.solution := by
  cases read with
  | block | wire => exact (rest_changeLast ..).1
  | _ => rfl

theorem tags_add (draft : Draft) (read : Statement) :
    (draft.add read).diagram.tags = draft.diagram.tags ++ read.tag?.toList := by
  cases read with
  | block | wire => exact (rest_changeLast ..).2.1.trans (List.append_nil _).symm
  | tag => rfl
  | _ => exact (List.append_nil _).symm

theorem project_add (draft : Draft) (read : Statement) :
    (draft.add read).project = read.project?.getD draft.project := by
  cases read with
  | block | wire => exact (rest_changeLast ..).2.2
  | _ => rfl

theorem contexts_add {draft : Draft} (contexts : draft.diagram.contexts = contextsOf statements)
    (project : draft.project = projectAfter statements) (read : Statement) :
    (draft.add read).diagram.contexts = contextsOf (statements ++ [read]) := by
  cases read with
  | solution | project | tag =>
      rw [contextsOf_concat (by simp [Statement.leavesOpen])]
      exact contexts
  | context name line =>
      have opens : (Statement.context name line).opens statements = some (name, line) := rfl
      rw [contextsOf_append opens (by simp), ← contexts, ← project]
      rfl
  | block | wire =>
      exact contexts_changeLast contexts project rfl (by simp [Statement.isContext])
        (by simp [contextWith, Statement.block?, Statement.wire?])

end Draft

/-- What some statements are added up to is what they declare. -/
theorem declares_foldl (statements : List Statement) :
    Declares statements (statements.foldl Draft.add .empty).diagram ∧
      (statements.foldl Draft.add .empty).project = projectAfter statements := by
  induction statements using List.reverseRecOn with
  | nil => exact ⟨⟨rfl, rfl, rfl⟩, rfl⟩
  | append_singleton statements read ih =>
      obtain ⟨⟨solution, tags, contexts⟩, project⟩ := ih
      rw [List.foldl_append, List.foldl_cons, List.foldl_nil]
      refine ⟨⟨?_, ?_, Draft.contexts_add contexts project read⟩, ?_⟩
      · rw [Draft.solution_add, solution, List.filterMap_append]
        cases read <;> simp [Statement.solution?]
      · rw [Draft.tags_add, tags, List.filterMap_append]
        cases read <;> rfl
      · rw [Draft.project_add, project, projectAfter_concat]

end RelayLogic.Diagram

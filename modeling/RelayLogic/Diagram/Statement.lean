import RelayLogic.Diagram.Basic

/-!
Statements, one to a line, and what each adds to a diagram.
-/

namespace RelayLogic.Diagram

inductive Statement
  | solution (name : String)
  | project (name : String)
  | context (name : String) (line : Nat)
  | tag (decl : TagDecl)
  | block (decl : BlockDecl)
  | wire (decl : WireDecl)
  deriving Repr

/-- A diagram as far as it is read, with the project that new contexts belong to. -/
structure Draft where
  diagram : Diagram
  project : String
  deriving Repr

namespace Draft

def empty : Draft := ⟨.empty, defaultName⟩

def openContext (draft : Draft) (name : String) (line : Nat) : Draft :=
  { draft with
    diagram.contexts := draft.diagram.contexts ++ [⟨draft.project, name, [], [], line⟩] }

def ensureContext (draft : Draft) (line : Nat) : Draft :=
  if draft.diagram.contexts.isEmpty then draft.openContext defaultName line else draft

def changeLast (draft : Draft) (change : ContextDecl → ContextDecl) : Draft :=
  let contexts := draft.diagram.contexts
  { draft with diagram.contexts := contexts.modify (contexts.length - 1) change }

def add (draft : Draft) : Statement → Draft
  | .solution name => { draft with diagram.solution := some name }
  | .project name => { draft with project := name }
  | .context name line => draft.openContext name line
  | .tag decl => { draft with diagram.tags := draft.diagram.tags ++ [decl] }
  | .block decl =>
    (draft.ensureContext decl.line).changeLast fun context =>
      { context with blocks := context.blocks ++ [decl] }
  | .wire decl =>
    (draft.ensureContext decl.line).changeLast fun context =>
      { context with wires := context.wires ++ [decl] }

end Draft

end RelayLogic.Diagram

/-!
Documents in the TOML format: values by name, in tables. A table is written in one of four ways,
and the way decides what later lines may add to it.
-/

namespace RelayLogic.Toml

/-- How a table is written: under a header of its own, as a step of longer headers only, as a step of
dotted keys, or between braces. -/
inductive Form
  | headed
  | passed
  | dotted
  | braced
  deriving DecidableEq, Repr

inductive Value
  | text (value : String)
  | integer (value : Int)
  | number (value : Float)
  | boolean (value : Bool)
  | moment
  | array (items : List Value)
  | table (form : Form) (entries : List (String × Value))
  /-- The tables under repeated headers of one name. Only the last of them can grow. -/
  | tables (earlier : List (List (String × Value))) (last : List (String × Value))

abbrev Entries := List (String × Value)

structure Key where
  path : List String
  last : String
  deriving DecidableEq, Repr

def Key.ofNames (first : String) : List String → Key
  | [] => ⟨[], first⟩
  | second :: rest =>
    let key := Key.ofNames second rest
    ⟨first :: key.path, key.last⟩

def Key.names (key : Key) : List String := key.path ++ [key.last]

namespace Entries

def put (name : String) (value : Value) : Entries → Entries
  | [] => [(name, value)]
  | (other, old) :: rest =>
    if other = name then (name, value) :: rest else (other, old) :: put name value rest

/--
Adds a value under a dotted key, which must be new. The key may go on in tables that dotted keys
have made. It may go through a table that headers have made, but not end in it.
-/
def add (value : Value) (last : String) : List String → Entries → Option Entries
  | [], entries =>
    if (entries.lookup last).isSome then none else some (entries.put last value)
  | step :: path, entries =>
    match entries.lookup step with
    | none => do
      let inner ← add value last path []
      return entries.put step (.table .dotted inner)
    | some (.table .dotted inner) => do
      let inner ← add value last path inner
      return entries.put step (.table .dotted inner)
    | some (.table .passed inner) => do
      guard (path ≠ [])
      let inner ← add value last path inner
      return entries.put step (.table .passed inner)
    | some (.tables earlier latest) => do
      guard (path ≠ [])
      let latest ← add value last path latest
      return entries.put step (.tables earlier latest)
    | some _ => none

/--
Adds a value under a dotted key between braces, which must be new. The key may go on in every table
that stands there already.
-/
def addBraced (value : Value) (last : String) : List String → Entries → Option Entries
  | [], entries =>
    if (entries.lookup last).isSome then none else some (entries.put last value)
  | step :: path, entries =>
    match entries.lookup step with
    | none => do
      let inner ← addBraced value last path []
      return entries.put step (.table .dotted inner)
    | some (.table form inner) => do
      let inner ← addBraced value last path inner
      return entries.put step (.table form inner)
    | some _ => none

def within (change : Entries → Option Entries) : List String → Entries → Option Entries
  | [], entries => change entries
  | step :: path, entries =>
    match entries.lookup step with
    | none => do
      let inner ← within change path []
      return entries.put step (.table .passed inner)
    | some (.table form inner) => do
      guard (form ≠ .braced)
      let inner ← within change path inner
      return entries.put step (.table form inner)
    | some (.tables earlier latest) => do
      let latest ← within change path latest
      return entries.put step (.tables earlier latest)
    | some _ => none

def openTable (name : String) (entries : Entries) : Option Entries :=
  match entries.lookup name with
  | none => some (entries.put name (.table .headed []))
  | some (.table .passed inner) => some (entries.put name (.table .headed inner))
  | some _ => none

def openElement (name : String) (entries : Entries) : Option Entries :=
  match entries.lookup name with
  | none => some (entries.put name (.tables [] []))
  | some (.tables earlier last) => some (entries.put name (.tables (earlier ++ [last]) []))
  | some _ => none

end Entries

inductive Statement
  | pair (key : Key) (value : Value)
  | header (key : Key)
  | element (key : Key)

structure Draft where
  entries : Entries
  current : List String

namespace Draft

def apply (draft : Draft) : Statement → Option Draft
  | .pair key value => do
    let entries ← draft.entries.within (Entries.add value key.last key.path) draft.current
    return { draft with entries := entries }
  | .header key => do
    let entries ← draft.entries.within (Entries.openTable key.last) key.path
    return ⟨entries, key.names⟩
  | .element key => do
    let entries ← draft.entries.within (Entries.openElement key.last) key.path
    return ⟨entries, key.names⟩

end Draft

def Entries.ofStatements (statements : List Statement) : Option Entries := do
  let draft ← statements.foldlM Draft.apply ⟨[], []⟩
  return draft.entries

def Entries.ofPairs (pairs : List (Key × Value)) : Option Entries :=
  pairs.foldlM (fun entries (key, value) => entries.addBraced value key.last key.path) []

end RelayLogic.Toml

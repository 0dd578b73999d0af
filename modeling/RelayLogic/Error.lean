import RelayLogic.Circuit.Basic
import RelayLogic.Diagram.Token
import RelayLogic.Text.Quoted
import RelayLogic.Text.Utf8

/-!
Everything that can go wrong, by cause, and the wording of each cause.
-/

namespace RelayLogic

open Diagram (Position TokenKind)

inductive LexicalFault
  | emptyDirective
  | unexpectedCharacter (char : Char)
  deriving DecidableEq, Repr

inductive StatementFault
  | unexpectedToken (text : String)
  | trailingToken (text : String)
  | expected (wanted found : TokenKind)
  | unknownDirective (name : String)
  | tagToken (text : String)
  | missingPropertyValue
  | invalidInitial (text : String)
  | invalidNumber (text : String)
  | missingPoint
  deriving DecidableEq, Repr

inductive BlockFault
  | unexpectedArgument (text : String)
  | missingDelay
  deriving DecidableEq, Repr

inductive TopologyFault
  | ownsNoPins (kind : Kind)
  | wireToItself (pin : ElementId)
  | strayChild (parent child : ElementId) (owner : Option ElementId)
  | loop (wire pin : ElementId)
  | signalPins (name : String)
  | pinCount (kind : Kind) (name : String) (count : Nat)
  | delay (name : String) (delay : Seconds)
  deriving DecidableEq, Repr

inductive NetlistFault
  | missingCount
  | truncated (offset : Nat)
  | overrun (length offset : Nat)
  | text (error : Text.Utf8Error)
  | beforeSolution
  | secondSolution
  | noSolution
  | outsideProject
  | outsideContext (command : String)
  | initialValue (value : Nat)
  | wrongEnd (count offset bodyEnd : Nat)
  | unwritten (element : ElementId)
  deriving DecidableEq, Repr

inductive TickerFault
  | alreadyStarted
  | zeroPeriod
  deriving DecidableEq, Repr

inductive ConfigurationFault
  | notToml
  | wrongType (key : String)
  | unreadable (path : String)
  | assignment (text : String)
  | duration
  deriving DecidableEq, Repr

inductive Expected
  | container
  | project
  | pin
  | signal
  | tag
  deriving DecidableEq, Repr

inductive Error
  | lexical (position : Position) (fault : LexicalFault)
  | statement (line : Nat) (fault : StatementFault)
  | unknownBlockKind (kind : String) (line : Nat)
  | invalidBlock (name : String) (line : Nat) (fault : BlockFault)
  | undefinedTag (tag block : String)
  | undefinedPoint (point : String) (line : Nat)
  | duplicateBlock (name : String)
  | duplicateTag (name : String)
  | elementNotFound (id : ElementId)
  | wrongKind (id : ElementId) (expected : Expected)
  | topology (fault : TopologyFault)
  | unsupportedCommand (command offset : Nat)
  | netlist (fault : NetlistFault)
  | unknownReference (record reference : Nat)
  | invalidResolution (milliseconds : Nat)
  | unsupported (element : ElementId) (kind : Kind)
  | tagNotFound (name : String)
  | ticker (fault : TickerFault)
  | configuration (fault : ConfigurationFault)
  | unreadableFile (path : String)
  | output (path : String)
  deriving DecidableEq, Repr

def LexicalFault.message : LexicalFault → String
  | emptyDirective => "empty directive"
  | unexpectedCharacter char => "unexpected character '" ++ char.toString ++ "'"

def StatementFault.message : StatementFault → String
  | unexpectedToken text => "unexpected token: " ++ Text.quoted text
  | trailingToken text => "unexpected trailing token: " ++ Text.quoted text
  | expected wanted found => "expected " ++ wanted.name ++ ", got " ++ found.name
  | unknownDirective name => "unknown directive: " ++ name
  | tagToken text => "unexpected token in tag: " ++ Text.quoted text
  | missingPropertyValue => "expected property value"
  | invalidInitial text => "invalid initial value: " ++ text
  | invalidNumber text => "invalid number: " ++ text
  | missingPoint => "expected connection point after ':'"

def BlockFault.message : BlockFault → String
  | unexpectedArgument text => "unexpected argument " ++ Text.quoted text
  | missingDelay => "timer requires a delay"

def ownerLabel : Option ElementId → String
  | none => "None"
  | some id => "Some(ElementId(" ++ toString id ++ "))"

def TopologyFault.message : TopologyFault → String
  | ownsNoPins kind => kind.name ++ " cannot own gate pins"
  | wireToItself pin => "wire from " ++ ElementId.label pin ++ " to itself"
  | strayChild parent child owner =>
    ElementId.label parent ++ " lists " ++ ElementId.label child ++
      " as child but it is owned by " ++ ownerLabel owner
  | loop wire pin =>
    "wire " ++ ElementId.label wire ++ " connects " ++ ElementId.label pin ++ " to itself"
  | signalPins name => "signal '" ++ name ++ "' must own one input and one output pin"
  | pinCount kind name count =>
    kind.name ++ " '" ++ name ++ "' owns " ++ toString count ++ " pins, expected 4"
  | delay name seconds => "timer '" ++ name ++ "' has invalid delay " ++ seconds.text

def NetlistFault.message : NetlistFault → String
  | missingCount => "missing record count"
  | truncated offset =>
    "truncated record at byte " ++ toString offset ++ ": failed to fill whole buffer"
  | overrun length offset =>
    "string of " ++ toString length ++ " bytes at byte " ++ toString offset ++
      " overruns the body"
  | text error => error.message
  | beforeSolution => "record before solution"
  | secondSolution => "second solution record"
  | noSolution => "no solution record"
  | outsideProject => "context outside a project"
  | outsideContext command => command ++ " outside a context"
  | initialValue value => "invalid tag initial value " ++ toString value
  | wrongEnd count offset bodyEnd =>
    toString count ++ " records end at byte " ++ toString offset ++ ", body ends at byte " ++
      toString bodyEnd
  | unwritten element => ElementId.label element ++ " referenced before it was written"

def TickerFault.message : TickerFault → String
  | alreadyStarted => "runtime already started"
  | zeroPeriod => "tick period must be non-zero"

def ConfigurationFault.message : ConfigurationFault → String
  | notToml => "not a TOML document"
  | wrongType key => "invalid value for " ++ key
  | unreadable path => "cannot read '" ++ path ++ "'"
  | assignment text => "expected TAG=VALUE, got '" ++ text ++ "'"
  | duration => "the duration must be a number of seconds, not negative and not infinite"

def Expected.name : Expected → String
  | container => "container"
  | project => "project"
  | pin => "pin"
  | signal => "signal"
  | tag => "tag"

def Error.message : Error → String
  | lexical position fault =>
    "Lexer error at line " ++ toString position.line ++ ", column " ++
      toString position.column ++ ": " ++ fault.message
  | statement line fault => "Parse error at line " ++ toString line ++ ": " ++ fault.message
  | unknownBlockKind kind line => "Unknown block kind '" ++ kind ++ "' at line " ++ toString line
  | invalidBlock name line fault =>
    "Invalid block '" ++ name ++ "' at line " ++ toString line ++ ": " ++ fault.message
  | undefinedTag tag block => "Undefined tag '" ++ tag ++ "' referenced by '" ++ block ++ "'"
  | undefinedPoint point line =>
    "Undefined connection point '" ++ point ++ "' at line " ++ toString line
  | duplicateBlock name => "Duplicate block name '" ++ name ++ "'"
  | duplicateTag name => "Duplicate tag name '" ++ name ++ "'"
  | elementNotFound id => "Element " ++ ElementId.label id ++ " not found"
  | wrongKind id expected => "Element " ++ ElementId.label id ++ " is not a " ++ expected.name
  | topology fault => "Invalid circuit topology: " ++ fault.message
  | unsupportedCommand command offset =>
    "Unsupported netlist command " ++ toString command ++ " at byte offset " ++
      toString offset
  | netlist fault => "Malformed netlist: " ++ fault.message
  | unknownReference record reference =>
    "Netlist record " ++ toString record ++ " references unknown id " ++
      toString reference
  | invalidResolution milliseconds =>
    "Invalid clock resolution " ++ toString milliseconds ++ " ms (must be > 0)"
  | unsupported element kind =>
    "Element " ++ ElementId.label element ++ ": encode is not supported for " ++ kind.name
  | tagNotFound name => "Tag '" ++ name ++ "' not found"
  | ticker fault => "Runtime error: " ++ fault.message
  | configuration fault => "Invalid configuration: " ++ fault.message
  | unreadableFile path => "Failed to read circuit file '" ++ path ++ "'"
  | output path => "I/O error: cannot write '" ++ path ++ "'"

end RelayLogic

import FrontEnd.Log

/-!
Declarations by scope. The global scope is always there; scopes opened on top of it are kept
innermost first, each with what was declared in it. The innermost declaration of a name is the one
that is seen.
-/

set_option autoImplicit false

namespace FrontEnd

/-- What opens a scope. -/
inductive ScopeKind where
  | namespaceBody | function | ifBody | whileBody | forBody | structBody
deriving DecidableEq, Repr

def ScopeKind.name : ScopeKind → String
  | .namespaceBody => "Namespace"
  | .function => "Function"
  | .ifBody => "If"
  | .whileBody => "While"
  | .forBody => "For"
  | .structBody => "Struct"

inductive DeclarationKind where
  | builtIn | function | variable | struct | enum
deriving DecidableEq, Repr

def DeclarationKind.name : DeclarationKind → String
  | .builtIn => "BuiltIn"
  | .function => "Function"
  | .variable => "Variable"
  | .struct => "Struct"
  | .enum => "Enum"

structure Declaration where
  name : String
  kind : DeclarationKind
deriving DecidableEq, Repr

/-- The declarations of one scope, in order. -/
abbrev Frame := List Declaration

namespace Frame

def find? (frame : Frame) (name : String) : Option Declaration := List.find? (·.name = name) frame

/-- A name is declared once; a second declaration is refused. -/
def declare? (frame : Frame) (d : Declaration) : Option Frame :=
  if (frame.find? d.name).isSome then none else some (frame ++ [d])

end Frame

/-- The global scope and the open ones, innermost first. -/
structure SymbolTable where
  globals : Frame
  inner : List (ScopeKind × Frame)
deriving DecidableEq, Repr

namespace SymbolTable

def empty : SymbolTable := ⟨[], []⟩

def depth (t : SymbolTable) : Nat := t.inner.length

/-- What opened the innermost scope; the global one was not opened. -/
def scope? (t : SymbolTable) : Option ScopeKind := t.inner.head?.map Prod.fst

def push (t : SymbolTable) (kind : ScopeKind) : SymbolTable :=
  { t with inner := (kind, []) :: t.inner }

/-- Closes the innermost scope. The global one stays. -/
def pop? (t : SymbolTable) : Option (ScopeKind × SymbolTable) :=
  match t.inner with
  | [] => none
  | (kind, _) :: outer => some (kind, { t with inner := outer })

/-- Declares in the innermost scope, which refuses a name that it has. -/
def declare? (t : SymbolTable) (d : Declaration) : Option SymbolTable :=
  match t.inner with
  | [] => (t.globals.declare? d).map fun globals => { t with globals }
  | (kind, frame) :: outer =>
    (frame.declare? d).map fun frame => { t with inner := (kind, frame) :: outer }

/-- The scopes from the innermost to the global one. -/
def frames (t : SymbolTable) : List Frame := t.inner.map Prod.snd ++ [t.globals]

/-- The declaration that a name refers to. -/
def find? (t : SymbolTable) (name : String) : Option Declaration :=
  t.frames.findSome? (·.find? name)

/-- Declares names that need no declaration; one that is given twice counts once. -/
def withBuiltIns (names : List String) : SymbolTable :=
  names.foldl (fun t name => (t.declare? ⟨name, .builtIn⟩).getD t) empty

/-! ### Actions -/

/-- What can be asked of a table. -/
inductive Action where
  | push (kind : ScopeKind)
  | pop
  | declare (declaration : Declaration)
  | declared (name : String)
  | get (name : String)
deriving DecidableEq, Repr

/-- What a table answers. -/
inductive Answer where
  | pushed
  | popped (kind : Option ScopeKind)
  | declared (accepted : Bool)
  | isDeclared (found : Bool)
  | declaration (found : Option Declaration)
deriving DecidableEq, Repr

/-- Answers an action; what is refused leaves the table as it was. -/
def act (t : SymbolTable) : Action → Answer × SymbolTable
  | .push kind => (.pushed, t.push kind)
  | .pop =>
    match t.pop? with
    | some (kind, t') => (.popped (some kind), t')
    | none => (.popped none, t)
  | .declare d =>
    match t.declare? d with
    | some t' => (.declared true, t')
    | none => (.declared false, t)
  | .declared name => (.isDeclared (t.find? name).isSome, t)
  | .get name => (.declaration (t.find? name), t)

/-- What the log says of an action with the given answer. -/
def records : Action → Answer → List Log.Record
  | .push kind, _ => [⟨.trace, .scopes, "entering " ++ kind.name ++ " scope"⟩]
  | .pop, .popped (some kind) => [⟨.trace, .scopes, "leaving " ++ kind.name ++ " scope"⟩]
  | _, _ => []

end SymbolTable

end FrontEnd

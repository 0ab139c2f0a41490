import CellBindings.Text.Basic

/-!
Scopes: a stack of frames, one for each construct around the current place that holds names of its
own. In a frame a name is bound or declared global, never both, and the last word counts. A name is
looked up from the innermost frame outwards.
-/

namespace CellBindings

/-- The construct that a frame belongs to. -/
inductive ScopeKind where
  | function | macroBody | letBlock | forLoop | whileLoop | comprehension | tryBlock | catchBlock
  | whereClause
  deriving DecidableEq, Repr

inductive Resolution where
  /-- Bound in a frame. -/
  | bound
  /-- Declared global in the closest frame that mentions the name. -/
  | global
  /-- Mentioned in no frame. -/
  | free
  deriving DecidableEq, Repr

structure ScopeFrame where
  kind : ScopeKind
  bound : List Text
  globals : List Text
  deriving DecidableEq, Repr

namespace ScopeFrame

def empty (kind : ScopeKind) : ScopeFrame := ⟨kind, [], []⟩

def bind (frame : ScopeFrame) (name : Text) : ScopeFrame :=
  { frame with bound := frame.bound.insert name, globals := frame.globals.filter (· != name) }

def declareGlobal (frame : ScopeFrame) (name : Text) : ScopeFrame :=
  { frame with bound := frame.bound.filter (· != name), globals := frame.globals.insert name }

end ScopeFrame

structure ScopeStack where
  /-- The innermost frame first. -/
  frames : List ScopeFrame
  deriving DecidableEq, Repr

namespace ScopeStack

def empty : ScopeStack := ⟨[]⟩

def push (scopes : ScopeStack) (kind : ScopeKind) : ScopeStack := ⟨.empty kind :: scopes.frames⟩

/-- Without the innermost frame. -/
def pop (scopes : ScopeStack) : ScopeStack := ⟨scopes.frames.tail⟩

def top? (scopes : ScopeStack) : Option ScopeFrame := scopes.frames.head?

def depth (scopes : ScopeStack) : Nat := scopes.frames.length

/-- Binds a name in the innermost frame, if there is one. -/
def bind? (scopes : ScopeStack) (name : Text) : Option ScopeStack :=
  match scopes.frames with
  | [] => none
  | frame :: rest => some ⟨frame.bind name :: rest⟩

/-- Declares a name global in the innermost frame, if there is one. -/
def declareGlobal? (scopes : ScopeStack) (name : Text) : Option ScopeStack :=
  match scopes.frames with
  | [] => none
  | frame :: rest => some ⟨frame.declareGlobal name :: rest⟩

def resolveIn (name : Text) : List ScopeFrame → Resolution
  | [] => .free
  | frame :: rest =>
    if name ∈ frame.bound then .bound
    else if name ∈ frame.globals then .global
    else resolveIn name rest

def resolve (scopes : ScopeStack) (name : Text) : Resolution := resolveIn name scopes.frames

end ScopeStack

end CellBindings

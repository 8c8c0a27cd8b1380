/-!
Where something stands in a source text. Lines and columns count from one, a column counts the
bytes of the UTF-8 form, and only a newline starts a new line.
-/

set_option autoImplicit false

namespace FrontEnd

/-- A line of a text and the byte in it, both counted from one. -/
structure Place where
  line : Nat
  column : Nat
deriving DecidableEq, Repr

namespace Place

def start : Place := ⟨1, 1⟩

/-- The place behind the character `c` that stands at `p`. -/
def step (p : Place) (c : Char) : Place :=
  if c = '\n' then ⟨p.line + 1, 1⟩ else ⟨p.line, p.column + c.utf8Size⟩

/-- The place behind the text `cs` that starts at `p`. -/
def after (p : Place) (cs : List Char) : Place := cs.foldl step p

@[simp] theorem after_nil (p : Place) : p.after [] = p := rfl

@[simp] theorem after_cons (p : Place) (c : Char) (cs : List Char) :
    p.after (c :: cs) = (p.step c).after cs := rfl

@[simp] theorem after_append (p : Place) (cs ds : List Char) :
    p.after (cs ++ ds) = (p.after cs).after ds := List.foldl_append

end Place

/-- A place in a named text. -/
structure Position extends Place where
  file : String
deriving DecidableEq, Repr

namespace Position

/-- The position of what stands in no text at all. -/
def null : Position := ⟨⟨0, 0⟩, "<null>"⟩

/-- A position is written `file:line:column`. -/
def text (p : Position) : String :=
  p.file ++ ":" ++ toString p.line ++ ":" ++ toString p.column

end Position

end FrontEnd

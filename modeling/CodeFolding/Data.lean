/-!
Plain data: what the texts of data formats stand for.
-/

set_option autoImplicit false

namespace CodeFolding

/-- The fields of an object stand in the order in which they are written. A `void` value follows
its format's grammar and stands for nothing: a number beyond every floating one, or a text that
holds no character somewhere. -/
inductive Data where
  | null
  | bool (b : Bool)
  | whole (z : Int)
  | floating (x : Float)
  | text (cs : List Char)
  | list (items : List Data)
  | object (fields : List (List Char × Data))
  | void

namespace Data

def nat (n : Nat) : Data := .whole n

def str (s : String) : Data := .text s.toList

/-- An object whose field names need no escapes. -/
def record (fields : List (String × Data)) : Data :=
  .object (fields.map fun f => (f.1.toList, f.2))

end Data

end CodeFolding

import CodeFolding.Data
import CodeFolding.Number.Shortest
import CodeFolding.Yaml.Scalar

/-!
Writing YAML. Every field and every item has a line of its own; a list in an object starts in the
column of the object's names, and an object in a list on the line of its dash.
-/

set_option autoImplicit false

namespace CodeFolding.Yaml

def writeFloating (x : Float) : List Char :=
  match Binary.ofFloat x with
  | .nan => ".nan".toList
  | .infinite true => "-.inf".toList
  | .infinite false => ".inf".toList
  | b => (b.text? false).getD []

/-- What a value is written behind: a name starts in its column, a dash stands there. -/
inductive Behind where
  | name
  | dash
  deriving DecidableEq, Repr

/-- What stands before the first name of an object whose names start two columns on. -/
def Behind.toObject (column : Nat) : Behind → List Char
  | .name => '\n' :: indentTo (column + 2)
  | .dash => [' ']

/-- What stands before the first dash of a list. -/
def Behind.toList (column : Nat) : Behind → List Char
  | .name => '\n' :: indentTo column
  | .dash => [' ']

/-- The column of the dashes of a list. -/
def Behind.listColumn (column : Nat) : Behind → Nat
  | .name => column
  | .dash => column + 2

mutual

/-- A value behind a name or a dash of a column, up to the end of its last line. -/
def writeValue (column : Nat) (b : Behind) : Data → List Char
  | .null | .void => " null\n".toList
  | .bool b => (if b then " true\n" else " false\n").toList
  | .whole z => ' ' :: signedDigits z ++ ['\n']
  | .floating x => ' ' :: writeFloating x ++ ['\n']
  | .text cs => ' ' :: writeScalar (column + 2) cs
  | .list [] => " []\n".toList
  | .list (item :: rest) =>
    b.toList column ++ '-' :: writeValue (b.listColumn column) .dash item ++
      writeItems (b.listColumn column) rest
  | .object [] => " \x7b\x7d\n".toList
  | .object ((name, v) :: rest) =>
    b.toObject column ++ name ++ ':' :: writeValue (column + 2) .name v ++
      writeFields (column + 2) rest

/-- Fields that each start a line. -/
def writeFields (column : Nat) : List (List Char × Data) → List Char
  | [] => []
  | (name, v) :: rest =>
    indentTo column ++ name ++ ':' :: writeValue column .name v ++ writeFields column rest

/-- Items that each start a line. -/
def writeItems (column : Nat) : List Data → List Char
  | [] => []
  | d :: rest => indentTo column ++ '-' :: writeValue column .dash d ++ writeItems column rest

end

/-- The text of an object. -/
def write : Data → List Char
  | .object fields => writeFields 0 fields
  | d => writeValue 0 .name d

end CodeFolding.Yaml

import CodeFolding.Data

/-!
Tables of TOML, as they are built statement by statement.

A table is explicit once a header or an inline value has defined it, and implicit while it is only
on the way to another. A table made by a dotted key is dotted, and only dotted keys may extend it.
-/

set_option autoImplicit false

namespace CodeFolding.Toml

/-- Names with what they stand for. -/
inductive Node where
  | leaf (d : Data)
  | table (implicit dotted : Bool) (entries : List (List Char × Node))
  /-- An array of tables; the last is the one to which headers refer. -/
  | tables (items : List Node)

namespace Node

def empty : Node := .table false false []

def find? (key : List Char) (entries : List (List Char × Node)) : Option Node :=
  (entries.find? fun e => e.1 == key).map (·.2)

/-- Gives a name its meaning, in place if it has one. -/
def put (key : List Char) (n : Node) : List (List Char × Node) → List (List Char × Node)
  | [] => [(key, n)]
  | e :: rest => if e.1 = key then (key, n) :: rest else e :: put key n rest

/-- Changes the last of some nodes. -/
def atLast (f : Node → Option Node) : List Node → Option (List Node)
  | [] => none
  | [n] => (f n).map fun n => [n]
  | n :: rest => (atLast f rest).map (n :: ·)

/-- Changes the table at the end of a path; tables that are missing on the way are made. A dotted
path goes through implicit tables only. -/
def within (dotted : Bool) (f : Node → Option Node) : List (List Char) → Node → Option Node
  | [], n => f n
  | key :: path, .table implicit wasDotted entries =>
    let changed := match find? key entries with
      | none => within dotted f path (.table true dotted [])
      | some (.leaf _) => none
      | some (.tables items) => (atLast (within dotted f path) items).map .tables
      | some (.table i d es) => if dotted && !i then none else within dotted f path (.table i d es)
    changed.map fun n => .table implicit wasDotted (put key n entries)
  | _, _ => none

/-- Adds a value under a name that is still free. A name alone may not extend a dotted table, and a
dotted one only extends dotted tables. -/
def addValue (alone : Bool) (key : List Char) (d : Data) : Node → Option Node
  | .table implicit dotted entries =>
    if dotted == alone || (find? key entries).isSome then none
    else some (.table implicit dotted (put key (.leaf d) entries))
  | _ => none

/-- Adds the value of a dotted key. -/
def define (key : List (List Char)) (d : Data) (n : Node) : Option Node :=
  match key.getLast? with
  | some last => within true (addValue (key.length == 1) last d) key.dropLast n
  | none => none

/-- Makes a table explicit, as its header does: once only, and not one of a dotted key. -/
def openTable (key : List Char) : Node → Option Node
  | .table implicit dotted entries =>
    match find? key entries with
    | none => some (.table implicit dotted (put key empty entries))
    | some (.table true false es) =>
      some (.table implicit dotted (put key (.table false false es) entries))
    | some _ => none
  | _ => none

/-- Adds a table to an array of tables, as its header does. -/
def pushTable (key : List Char) : Node → Option Node
  | .table implicit dotted entries =>
    match find? key entries with
    | none => some (.table implicit dotted (put key (.tables [empty]) entries))
    | some (.tables items) =>
      some (.table implicit dotted (put key (.tables (items ++ [empty])) entries))
    | some _ => none
  | _ => none

/-- What a header does; `array` says whether it has two brackets. -/
def header (array : Bool) (path : List (List Char)) (n : Node) : Option Node :=
  match path.getLast? with
  | some last => within false (if array then pushTable last else openTable last) path.dropLast n
  | none => none

mutual

def data : Node → Data
  | .leaf d => d
  | .table _ _ entries => .object (entriesData entries)
  | .tables items => .list (itemsData items)

def entriesData : List (List Char × Node) → List (List Char × Data)
  | [] => []
  | (key, n) :: rest => (key, data n) :: entriesData rest

def itemsData : List Node → List Data
  | [] => []
  | n :: rest => data n :: itemsData rest

end

end Node

end CodeFolding.Toml

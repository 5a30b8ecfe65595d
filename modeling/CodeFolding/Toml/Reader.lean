import CodeFolding.Toml.Scalar
import CodeFolding.Toml.Tree

/-!
Reading TOML texts into data.

A text is a list of statements: headers of tables, keys with values, and empty lines. Values are
read with fuel, one unit for each step into them.
-/

set_option autoImplicit false

namespace CodeFolding.Toml

mutual

/-- A value at the start of a text, inside `depth` others. -/
def readValue : Nat → Nat → List Char → Option (Data × List Char)
  | 0, _, _ => none
  | fuel + 1, depth, cs =>
    match cs with
    | '"' :: _ => (readText cs).map fun r => (.text r.1, r.2)
    | '\'' :: _ => (readText cs).map fun r => (.text r.1, r.2)
    | '[' :: rest =>
      if depthLimit ≤ depth + 1 then none
      else (readItems fuel (depth + 1) rest).map fun r => (.list r.1, r.2)
    | '\x7b' :: rest =>
      if depthLimit ≤ depth + 1 then none
      else
        match skipGap rest with
        | '\x7d' :: after => some (.object [], after)
        | _ => (readFields fuel (depth + 1) .empty rest).map fun r => (r.1.data, r.2)
    | _ => readScalar cs

/-- The items of an array up to its bracket; a comma may follow the last. -/
def readItems : Nat → Nat → List Char → Option (List Data × List Char)
  | 0, _, _ => none
  | fuel + 1, depth, cs =>
    (skipAll cs).bind fun start =>
      match start with
      | ']' :: after => some ([], after)
      | _ =>
        (readValue fuel depth start).bind fun item => (skipAll item.2).bind fun rest =>
          match rest with
          | ',' :: more => (readItems fuel depth more).map fun r => (item.1 :: r.1, r.2)
          | ']' :: after => some ([item.1], after)
          | _ => none

/-- The fields of an inline table that is not empty, up to its brace. -/
def readFields : Nat → Nat → Node → List Char → Option (Node × List Char)
  | 0, _, _, _ => none
  | fuel + 1, depth, n, cs =>
    (readKey cs).bind fun key =>
      match key.2 with
      | '=' :: text =>
        (readValue fuel depth (skipGap text)).bind fun v => (n.define key.1 v.1).bind fun n =>
          match skipGap v.2 with
          | ',' :: more => readFields fuel depth n more
          | '\x7d' :: after => some (n, after)
          | _ => none
      | _ => none

end

/-- A statement. -/
inductive Statement where
  | blank
  | header (array : Bool) (path : List (List Char))
  | define (key : List (List Char)) (d : Data)

/-- A header and its line end, behind the first bracket. -/
def readHeader (cs : List Char) : Option (Statement × List Char) :=
  let (array, inner) := match cs with
    | '[' :: rest => (true, rest)
    | _ => (false, cs)
  (readKey inner).bind fun key =>
    (after? (if array then "]]" else "]") key.2).bind fun rest =>
      (endLine? rest).map fun after => (.header array key.1, after)

/-- A key, its value and the line end. -/
def readDefinition (cs : List Char) : Option (Statement × List Char) :=
  (readKey cs).bind fun key =>
    match key.2 with
    | '=' :: text =>
      (readValue (text.length + 1) 0 (skipGap text)).bind fun v =>
        (endLine? v.2).map fun after => (.define key.1 v.1, after)
    | _ => none

/-- The next statement, if the text does not end before it. -/
def readStatement (cs : List Char) : Option (Statement × List Char) :=
  match skipGap cs with
  | [] => some (.blank, [])
  | '#' :: rest => (endLine? ('#' :: rest)).map fun after => (.blank, after)
  | '\n' :: rest => some (.blank, rest)
  | '\r' :: rest => (newline? ('\r' :: rest)).map fun after => (.blank, after)
  | '[' :: rest => readHeader rest
  | rest => readDefinition rest

/-- The tables of a text, and the path to the table to which keys are added. -/
structure Document where
  root : Node
  path : List (List Char)

/-- The document after a statement. Keys go into the table of the last header. -/
def Document.step (doc : Document) : Statement → Option Document
  | .blank => some doc
  | .header array path => (doc.root.header array path).map fun root => ⟨root, path⟩
  | .define key d =>
    (doc.root.within false (Node.define key d) doc.path).map fun root => ⟨root, doc.path⟩

/-- The document after the statements of a text; `fuel` bounds their number. -/
def Document.steps : Nat → Document → List Char → Option Document
  | 0, _, _ => none
  | _, doc, [] => some doc
  | fuel + 1, doc, cs =>
    (readStatement cs).bind fun s => (doc.step s.1).bind fun doc => Document.steps fuel doc s.2

/-- A byte order mark in front says nothing. -/
def withoutMark : List Char → List Char
  | '\uFEFF' :: rest => rest
  | cs => cs

/-- The data of a text. -/
def read? (cs : List Char) : Option Data :=
  (Document.steps (cs.length + 1) ⟨.empty, []⟩ (withoutMark cs)).map fun doc => doc.root.data

end CodeFolding.Toml

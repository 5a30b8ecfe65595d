/-!
Text as bytes in UTF-8, and back.

`decodeFrom` reads the bytes into pieces: a character, or nothing for a longest part that starts
no character. Strict decoding refuses such a part; lossy decoding writes a replacement character
for it.
-/

set_option autoImplicit false

namespace CodeFolding.Utf8

def encode (cs : List Char) : List UInt8 := cs.flatMap String.utf8EncodeChar

/-- How many bytes a text has. -/
def byteLength : List Char → Nat
  | [] => 0
  | c :: cs => c.utf8Size + byteLength cs

theorem byteLength_append (cs ds : List Char) :
    byteLength (cs ++ ds) = byteLength cs + byteLength ds := by
  induction cs with
  | nil => simp [byteLength]
  | cons c cs ih => simp [byteLength, ih, Nat.add_assoc]

/-- A character that has begun: its bits so far, the bytes still missing, and the range in which
the next byte must lie. -/
structure Begun where
  bits : Nat
  missing : Nat
  lo : Nat
  hi : Nat
  deriving DecidableEq, Repr

/-- What is read by now: the pieces that end here, and the character that has begun. -/
abbrev Step := List (Option Char) × Option Begun

/-- The first byte of a character. -/
def lead (b : Nat) : Step :=
  if b < 0x80 then ([some (Char.ofNat b)], none)
  else if b < 0xC2 then ([none], none)
  else if b < 0xE0 then ([], some ⟨b - 0xC0, 1, 0x80, 0xBF⟩)
  else if b = 0xE0 then ([], some ⟨0, 2, 0xA0, 0xBF⟩)
  else if b = 0xED then ([], some ⟨0xD, 2, 0x80, 0x9F⟩)
  else if b < 0xF0 then ([], some ⟨b - 0xE0, 2, 0x80, 0xBF⟩)
  else if b = 0xF0 then ([], some ⟨0, 3, 0x90, 0xBF⟩)
  else if b < 0xF4 then ([], some ⟨b - 0xF0, 3, 0x80, 0xBF⟩)
  else if b = 0xF4 then ([], some ⟨4, 3, 0x80, 0x8F⟩)
  else ([none], none)

/-- The next byte; one that cannot go on with the character breaks it off and starts another. -/
def step : Option Begun → Nat → Step
  | none, b => lead b
  | some p, b =>
    if p.lo ≤ b ∧ b ≤ p.hi then
      let bits := p.bits * 64 + (b - 0x80)
      if p.missing ≤ 1 then ([some (Char.ofNat bits)], none)
      else ([], some ⟨bits, p.missing - 1, 0x80, 0xBF⟩)
    else (none :: (lead b).1, (lead b).2)

/-- The pieces of the bytes, with a character that has begun before them. -/
def decodeFrom : Option Begun → List UInt8 → List (Option Char)
  | none, [] => []
  | some _, [] => [none]
  | p, b :: rest => (step p b.toNat).1 ++ decodeFrom (step p b.toNat).2 rest

def pieces (bytes : List UInt8) : List (Option Char) := decodeFrom none bytes

/-- The text of the bytes, if they are UTF-8. -/
def decode? (bytes : List UInt8) : Option (List Char) := (pieces bytes).mapM id

/-- The text of the bytes, each broken part replaced by one replacement character. -/
def decodeLossy (bytes : List UInt8) : List Char := (pieces bytes).map (·.getD '\uFFFD')

end CodeFolding.Utf8

import CodeFolding.Proofs.EncodedText
import CodeFolding.Proofs.LineEnds

/-!
Access by position, and what can be wrong with it.

An index must lie below the length of a list, a text can be cut only where a character begins or at
its end, a count cannot fall below zero, a depth is a word of 32 bits, and a counter one of 64. Each
operation here gives its result or says which of these fails. The lines of a text are found among its
bytes this way.
-/

set_option autoImplicit false

namespace CodeFolding

inductive Fault where
  /-- An index that is not below the length. -/
  | index
  /-- A cut inside a character, past the end, or in front of where the text begins. -/
  | boundary
  /-- A difference below zero. -/
  | negative
  /-- A number that its word cannot hold. -/
  | overflow
  deriving DecidableEq, Repr

/-- A result, or the first fault on the way to it. -/
abbrev Checked (α : Type) := Except Fault α

namespace Checked

section Results

variable {α β : Type} {a : Checked α} {f : α → Checked β} {x x' : α} {y : β}

@[simp] theorem bind_eq_ok : a >>= f = .ok y ↔ ∃ x, a = .ok x ∧ f x = .ok y := by
  cases a <;> simp [bind, Except.bind]

@[simp] theorem pure_eq_ok : (pure x : Checked α) = .ok x' ↔ x = x' := by simp [pure, Except.pure]

@[simp] theorem throw_ne_ok {e : Fault} : (throw e : Checked α) ≠ .ok x := by
  simp [throw, throwThe, MonadExceptOf.throw]

end Results

section Lists

variable {α : Type}

def item (xs : List α) (i : Nat) : Checked α :=
  match xs[i]? with
  | some x => pure x
  | none => throw .index

def replace (xs : List α) (i : Nat) (x : α) : Checked (List α) :=
  if i < xs.length then pure (xs.set i x) else throw .index

theorem item_eq {xs : List α} {i : Nat} {x : α} (h : xs[i]? = some x) : item xs i = pure x := by
  rw [item, h]

theorem replace_eq {xs : List α} {i : Nat} (h : i < xs.length) (x : α) :
    replace xs i x = pure (xs.set i x) := if_pos h

end Lists

def minus (a b : Nat) : Checked Nat := if b ≤ a then pure (a - b) else throw .negative

/-- A number as a signed word of 32 bits. -/
def word (n : Int) : Checked Int :=
  if -2147483648 ≤ n ∧ n < 2147483648 then pure n else throw .overflow

/-- A number as a word of 64 bits without a sign. -/
def size (n : Nat) : Checked Nat := if n < 1 <<< 64 then pure n else throw .overflow

@[simp] theorem size_eq_ok {n m : Nat} : size n = .ok m ↔ n = m ∧ m < 1 <<< 64 := by
  rw [size]
  split
  · rw [pure_eq_ok, and_iff_left_of_imp]
    intro heq
    subst heq
    assumption
  · refine iff_of_false throw_ne_ok ?_
    intro hgiven
    obtain ⟨rfl, hfits⟩ := hgiven
    contradiction

theorem minus_eq {a b : Nat} (h : b ≤ a) : minus a b = pure (a - b) := if_pos h

theorem word_eq {n : Int} (hlo : -2147483648 ≤ n) (hhi : n < 2147483648) : word n = pure n :=
  if_pos ⟨hlo, hhi⟩

/-! ## Cuts -/

/-- The two parts of a text before and behind a number of bytes. -/
def cut : List Char → Nat → Checked (List Char × List Char)
  | cs, 0 => pure ([], cs)
  | [], _ + 1 => throw .boundary
  | c :: cs, n + 1 =>
    if c.utf8Size ≤ n + 1 then do
      let (front, back) ← cut cs (n + 1 - c.utf8Size)
      return (c :: front, back)
    else throw .boundary

def sliceTo (cs : List Char) (n : Nat) : Checked (List Char) := do return (← cut cs n).1

def sliceFrom (cs : List Char) (n : Nat) : Checked (List Char) := do return (← cut cs n).2

/-- The text between two numbers of bytes. -/
def slice (cs : List Char) (i j : Nat) : Checked (List Char) :=
  if i ≤ j then do sliceTo (← sliceFrom cs i) (j - i) else throw .boundary

theorem cut_append (front back : List Char) :
    cut (front ++ back) (Utf8.byteLength front) = pure (front, back) := by
  induction front with
  | nil => cases back <;> rfl
  | cons c front ih =>
    obtain ⟨n, hn⟩ := Nat.exists_eq_add_one.2 (Char.utf8Size_pos c)
    have hsize : Utf8.byteLength (c :: front) = n + Utf8.byteLength front + 1 := by
      rw [Utf8.byteLength, hn, Nat.add_right_comm]
    rw [hsize, List.cons_append, cut, if_pos (by omega), hn, Nat.add_sub_add_right,
      Nat.add_sub_cancel_left, ih, pure_bind]

theorem sliceTo_append (front back : List Char) :
    sliceTo (front ++ back) (Utf8.byteLength front) = pure front := by
  rw [sliceTo, cut_append, pure_bind]

theorem sliceFrom_append (front back : List Char) :
    sliceFrom (front ++ back) (Utf8.byteLength front) = pure back := by
  rw [sliceFrom, cut_append, pure_bind]

theorem slice_append (front text back : List Char) :
    slice (front ++ (text ++ back)) (Utf8.byteLength front) (Utf8.byteLength (front ++ text)) =
      pure text := by
  rw [slice, Utf8.byteLength_append, if_pos (Nat.le_add_right _ _), sliceFrom_append, pure_bind,
    Nat.add_sub_cancel_left, sliceTo_append]

/-! ## Lines -/

/-- The lines of a text with these bytes; the first of them begins at the byte `start`, and the
bytes from `i` on are still to be read. -/
def linesFrom (text : List Char) (bytes : List UInt8) (start i : Nat) : Checked (List (List Char)) :=
  if _h : i < bytes.length then do
    let byte ← item bytes i
    if byte = 10 then
      return (← slice text start i) :: (← linesFrom text bytes (i + 1) (i + 1))
    else if byte = 13 then
      let next := if bytes[i + 1]? = some 10 then i + 2 else i + 1
      return (← slice text start i) :: (← linesFrom text bytes next next)
    else linesFrom text bytes start (i + 1)
  else do return [← sliceFrom text start]
termination_by bytes.length - i
decreasing_by
  · omega
  · split <;> omega
  · omega

def splitLines (text : List Char) : Checked (List (List Char)) :=
  linesFrom text (Utf8.encode text) 0 0

/-- No other character has a byte of a line end. -/
theorem encodeChar_ne {c : Char} (hn : c ≠ '\n') (hr : c ≠ '\r') {b : UInt8}
    (hb : b ∈ String.utf8EncodeChar c) : b ≠ 10 ∧ b ≠ 13 := by
  constructor
  · rintro rfl
    exact hn (Char.toNat_inj.1 (Utf8.toNat_of_mem_encodeChar hb (by decide)))
  · rintro rfl
    exact hr (Char.toNat_inj.1 (Utf8.toNat_of_mem_encodeChar hb (by decide)))

theorem length_encode (cs : List Char) : (Utf8.encode cs).length = Utf8.byteLength cs := by
  induction cs with
  | nil => rfl
  | cons c cs ih =>
    rw [Utf8.encode, List.flatMap_cons, List.length_append, String.length_utf8EncodeChar,
      Utf8.byteLength, ← ih, Utf8.encode]

variable {text before line rest : List Char}

theorem linesFrom_plain (text : List Char) (pre plain post : List UInt8)
    (hplain : ∀ b ∈ plain, b ≠ 10 ∧ b ≠ 13) (start : Nat) :
    linesFrom text (pre ++ (plain ++ post)) start pre.length =
      linesFrom text (pre ++ (plain ++ post)) start (pre.length + plain.length) := by
  induction plain generalizing pre with
  | nil => rfl
  | cons b plain ih =>
    obtain ⟨hten, hthirteen⟩ := hplain b (by simp)
    have hitem : (pre ++ (b :: plain ++ post))[pre.length]? = some b := by simp
    have hrest := ih (pre ++ [b]) fun d hd => hplain d (by simp [hd])
    rw [linesFrom, dif_pos (List.getElem?_eq_some_iff.1 hitem).1, item_eq hitem, pure_bind,
      if_neg hten, if_neg hthirteen]
    simpa [Nat.add_assoc, Nat.add_comm 1] using hrest

theorem encode_append (cs ds : List Char) :
    Utf8.encode (cs ++ ds) = Utf8.encode cs ++ Utf8.encode ds := List.flatMap_append

theorem head?_encode (h : rest.head? ≠ some '\n') : (Utf8.encode rest).head? ≠ some 10 := by
  cases rest with
  | nil => simp [Utf8.encode]
  | cons c rest =>
    intro hten
    have hn : c ≠ '\n' := by simpa using h
    have hmem : (10 : UInt8) ∈ String.utf8EncodeChar c := by
      rw [Utf8.encode, List.flatMap_cons, List.head?_append] at hten
      cases hhead : (String.utf8EncodeChar c).head? with
      | none => exact absurd (List.head?_eq_none_iff.1 hhead) String.utf8EncodeChar_ne_nil
      | some b =>
        obtain rfl : b = 10 := by simpa [hhead] using hten
        exact List.mem_of_mem_head? hhead
    exact hn (Char.toNat_inj.1 (Utf8.toNat_of_mem_encodeChar hmem (by decide)))

/-- At a line end the line is cut out, and the next one begins behind it. -/
theorem linesFrom_ended {e : LineEnd} (hline : OneLine line)
    (hrest : e = .cr → rest.head? ≠ some '\n') (htext : text = before ++ (line ++ (e.chars ++ rest)))
    (hnext : linesFrom text (Utf8.encode text) (Utf8.byteLength (before ++ line ++ e.chars))
      (Utf8.byteLength (before ++ line ++ e.chars)) = pure (CodeFolding.splitLines rest)) :
    linesFrom text (Utf8.encode text) (Utf8.byteLength before) (Utf8.byteLength (before ++ line)) =
      pure (CodeFolding.splitLines (line ++ (e.chars ++ rest))) := by
  have hslice : slice text (Utf8.byteLength before) (Utf8.byteLength (before ++ line)) = pure line := by
    rw [htext, slice_append]
  have hbyte : ∀ i, (Utf8.encode text)[Utf8.byteLength (before ++ line) + i]? =
      (Utf8.encode (e.chars ++ rest))[i]? := by
    intro i
    have hlength := length_encode (before ++ line)
    rw [htext, ← List.append_assoc, encode_append, ← hlength, List.getElem?_append_right (by omega),
      Nat.add_sub_cancel_left]
  have hafter : ∀ n, Utf8.byteLength e.chars = n →
      linesFrom text (Utf8.encode text) (Utf8.byteLength (before ++ line) + n)
        (Utf8.byteLength (before ++ line) + n) = pure (CodeFolding.splitLines rest) := by
    rintro n rfl
    rwa [Utf8.byteLength_append (before ++ line)] at hnext
  rw [← List.append_assoc, splitLines_ended hline hrest]
  cases e with
  | lf =>
    have hten : (Utf8.encode text)[Utf8.byteLength (before ++ line)]? = some 10 := hbyte 0
    rw [linesFrom, dif_pos (List.getElem?_eq_some_iff.1 hten).1, item_eq hten, pure_bind, if_pos rfl,
      hslice, pure_bind, hafter 1 rfl, pure_bind]
  | crlf =>
    have hthirteen : (Utf8.encode text)[Utf8.byteLength (before ++ line)]? = some 13 := hbyte 0
    have hten : (Utf8.encode text)[Utf8.byteLength (before ++ line) + 1]? = some 10 := hbyte 1
    rw [linesFrom, dif_pos (List.getElem?_eq_some_iff.1 hthirteen).1, item_eq hthirteen, pure_bind,
      if_neg (by decide), if_pos rfl, hslice, if_pos hten, pure_bind, hafter 2 rfl, pure_bind]
  | cr =>
    have hthirteen : (Utf8.encode text)[Utf8.byteLength (before ++ line)]? = some 13 := hbyte 0
    have hten : (Utf8.encode text)[Utf8.byteLength (before ++ line) + 1]? ≠ some 10 := by
      have hhead : (Utf8.encode (LineEnd.cr.chars ++ rest))[1]? = (Utf8.encode rest).head? :=
        List.head?_eq_getElem?.symm
      rw [hbyte 1, hhead]
      exact head?_encode (hrest rfl)
    rw [linesFrom, dif_pos (List.getElem?_eq_some_iff.1 hthirteen).1, item_eq hthirteen, pure_bind,
      if_neg (by decide), if_pos rfl, hslice, if_neg hten, pure_bind, hafter 1 rfl, pure_bind]

/-- The invariant of the loop: `before` is done, and `line` is the part of a line that is read. -/
theorem linesFrom_eq (before : List Char) {line : List Char} (hline : OneLine line) :
    linesFrom (before ++ (line ++ rest)) (Utf8.encode (before ++ (line ++ rest)))
        (Utf8.byteLength before) (Utf8.byteLength (before ++ line)) =
      pure (CodeFolding.splitLines (line ++ rest)) := by
  have hempty : OneLine [] := by simp [OneLine]
  fun_induction CodeFolding.splitLines rest generalizing before line with
  | case1 =>
    rw [linesFrom, dif_neg (by simp [length_encode]), sliceFrom_append, pure_bind, List.append_nil,
      splitLines_last hline]
  | case2 rest ih =>
    refine linesFrom_ended (e := .crlf) hline (by simp) rfl ?_
    simpa [LineEnd.chars] using ih (before ++ line ++ LineEnd.crlf.chars) hempty
  | case3 rest ih =>
    refine linesFrom_ended (e := .lf) hline (by simp) rfl ?_
    simpa [LineEnd.chars] using ih (before ++ line ++ LineEnd.lf.chars) hempty
  | case4 rest hrest ih =>
    refine linesFrom_ended (e := .cr) hline (fun _ hhead => ?_) rfl ?_
    · obtain ⟨more, rfl⟩ := List.head?_eq_some_iff.1 hhead
      exact hrest more rfl
    · simpa [LineEnd.chars] using ih (before ++ line ++ LineEnd.cr.chars) hempty
  | case5 c rest hcrlf hn hr ih =>
    have hplain := linesFrom_plain (before ++ (line ++ c :: rest)) (Utf8.encode (before ++ line))
      (String.utf8EncodeChar c) (Utf8.encode rest) (fun b => encodeChar_ne hn hr)
      (Utf8.byteLength before)
    have hmore : OneLine (line ++ [c]) := hline.append (List.forall_mem_singleton.2 ⟨hn, hr⟩)
    have hrest := ih before hmore
    have htext : line ++ [c] ++ rest = line ++ c :: rest := by simp
    have hbytes : Utf8.encode (before ++ line) ++ (String.utf8EncodeChar c ++ Utf8.encode rest) =
        Utf8.encode (before ++ (line ++ c :: rest)) := by simp [Utf8.encode]
    have hindex : Utf8.byteLength (before ++ line) + c.utf8Size =
        Utf8.byteLength (before ++ (line ++ [c])) := by
      simp [Utf8.byteLength_append, Utf8.byteLength, Nat.add_assoc]
    rw [hbytes, length_encode, String.length_utf8EncodeChar, hindex] at hplain
    rw [htext] at hrest
    rw [hplain, hrest]

theorem splitLines_eq (text : List Char) :
    splitLines text = pure (CodeFolding.splitLines text) := by
  have hempty : OneLine [] := by simp [OneLine]
  exact linesFrom_eq [] hempty

end Checked

end CodeFolding

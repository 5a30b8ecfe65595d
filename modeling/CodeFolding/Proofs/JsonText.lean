import CodeFolding.Json.Reader
import CodeFolding.Json.Writer

/-!
Written JSON reads back.

A value is read in front of any text that may end it: an end, a comma, a closing bracket or a line
end. So the parts of a value read back in their places, and the blanks around them do not count.
Floating numbers are left out, and whole ones that do not fit into 64 bits.
-/

set_option autoImplicit false

namespace CodeFolding

/-- Data that a JSON text keeps. -/
inductive Data.Exact : Data → Prop where
  | null : Exact .null
  | bool (b : Bool) : Exact (.bool b)
  | whole {z : Int} (hlo : -9223372036854775808 ≤ z) (hhi : z < 18446744073709551616) :
    Exact (.whole z)
  | text (cs : List Char) : Exact (.text cs)
  | list {items : List Data} (hitems : ∀ v ∈ items, Exact v) : Exact (.list items)
  | object {fields : List (List Char × Data)} (hfields : ∀ f ∈ fields, Exact f.2) :
    Exact (.object fields)

namespace Json

/-- What may stand behind a value. -/
def EndsValue (rest : List Char) : Prop :=
  ∀ c ∈ rest.head?, c = ',' ∨ c = ']' ∨ c = '\x7d' ∨ c = '\n'

theorem endsValue_nil : EndsValue [] := by simp [EndsValue]

theorem endsValue_cons {c : Char} {rest : List Char}
    (h : c = ',' ∨ c = ']' ∨ c = '\x7d' ∨ c = '\n') : EndsValue (c :: rest) := by
  simpa [EndsValue] using h

theorem endsValue_lineBreak (l : Layout) {c : Char} {rest : List Char}
    (h : c = ',' ∨ c = ']' ∨ c = '\x7d' ∨ c = '\n') : EndsValue (l.lineBreak ++ c :: rest) := by
  cases l with
  | compact => exact endsValue_cons h
  | pretty depth => exact endsValue_cons (by simp)

/-! ## Blanks -/

theorem skipSpace_append {blanks : List Char} (h : ∀ c ∈ blanks, isSpace c = true)
    (cs : List Char) : skipSpace (blanks ++ cs) = skipSpace cs :=
  List.dropWhile_append_of_pos h

@[simp] theorem skipSpace_lineBreak (l : Layout) (cs : List Char) :
    skipSpace (l.lineBreak ++ cs) = skipSpace cs := by
  refine skipSpace_append (fun c hc => ?_) cs
  cases l with
  | compact => simp [Layout.lineBreak] at hc
  | pretty depth =>
    obtain rfl | ⟨-, rfl⟩ : c = '\n' ∨ 2 * depth ≠ 0 ∧ c = ' ' := by
      simpa [Layout.lineBreak] using hc
    · rfl
    · rfl

theorem skipSpace_of_not_isSpace {c : Char} (h : isSpace c = false) (cs : List Char) :
    skipSpace (c :: cs) = c :: cs := by
  simp [skipSpace, h]

theorem readValue_congr {cs ds : List Char} (h : skipSpace cs = skipSpace ds) (fuel : Nat) :
    readValue fuel cs = readValue fuel ds := by
  cases fuel with
  | zero => rfl
  | succ fuel => rw [readValue, readValue, h]

@[simp] theorem readValue_lineBreak (l : Layout) (fuel : Nat) (cs : List Char) :
    readValue fuel (l.lineBreak ++ cs) = readValue fuel cs :=
  readValue_congr (skipSpace_lineBreak l cs) fuel

@[simp] theorem readItems_lineBreak (l : Layout) (fuel : Nat) (cs : List Char) :
    readItems fuel (l.lineBreak ++ cs) = readItems fuel cs := by
  cases fuel with
  | zero => rfl
  | succ fuel => rw [readItems, readItems, readValue_lineBreak]

@[simp] theorem readFields_lineBreak (l : Layout) (fuel : Nat) (cs : List Char) :
    readFields fuel (l.lineBreak ++ cs) = readFields fuel cs := by
  cases fuel with
  | zero => rfl
  | succ fuel => rw [readFields, readFields, skipSpace_lineBreak]

/-! ## Texts -/

theorem hexValue?_hexDigit : ∀ n < 16, hexValue? (hexDigit n) = some n := by decide

theorem hexUnit?_control {n : Nat} (h : n < 0x20) :
    hexUnit? '0' '0' (hexDigit (n / 16)) (hexDigit (n % 16)) = some n := by
  have hzero : hexValue? '0' = some 0 := rfl
  simp only [hexUnit?, hzero, hexValue?_hexDigit (n / 16) (by omega),
    hexValue?_hexDigit (n % 16) (by omega), Option.bind_some, Option.map_some]
  exact congrArg some (by omega)

theorem readQuoted_of_piece {c : Char} {p : Piece} {cs tail : List Char}
    (hread : readPieces cs = (readPieces tail).map fun r => (p :: r.1, r.2))
    (hjoin : ∀ ps, joinPieces (p :: ps) = (joinPieces ps).map (c :: ·)) :
    readQuoted cs = (readQuoted tail).map fun r => (r.1.map (c :: ·), r.2) := by
  simp only [readQuoted, hread, Option.map_map]
  congr 1
  funext r
  exact congrArg (·, r.2) (hjoin r.1)

theorem joinPieces_unit {n : Nat} (h : n < 0xD800) (ps : List Piece) :
    joinPieces (.unit n :: ps) = (joinPieces ps).map (Char.ofNat n :: ·) := by
  have hhigh : isHighUnit n = false := by simp [isHighUnit]; omega
  have hlow : isLowUnit n = false := by simp [isLowUnit]; omega
  rw [joinPieces.eq_def]
  simp [hhigh, hlow]

theorem readPieces_plain {c : Char} (hquote : c ≠ '"') (hbackslash : c ≠ '\\')
    (hcontrol : ¬c.toNat < 0x20) (tail : List Char) :
    readPieces (c :: tail) = (readPieces tail).map fun r => (.char c :: r.1, r.2) := by
  rw [readPieces]
  · exact if_neg (by simp [hbackslash, hcontrol])
  · exact hquote
  · exact fun _ _ _ _ _ h => absurd h hbackslash
  · exact fun _ _ h => absurd h hbackslash

theorem readQuoted_writeChar (c : Char) (tail : List Char) :
    readQuoted (writeChar c ++ tail) =
      (readQuoted tail).map fun r => (r.1.map (c :: ·), r.2) := by
  have hchar : ∀ ps, joinPieces (.char c :: ps) = (joinPieces ps).map (c :: ·) := fun _ => rfl
  unfold writeChar
  -- the seven characters that are escaped by one letter
  iterate 7
    split
    case isTrue h =>
      subst h
      exact readQuoted_of_piece rfl hchar
  split
  case isTrue h =>
    -- any other control character is a code unit, and no half of a pair
    refine readQuoted_of_piece (p := .unit c.toNat) ?_ fun ps => ?_
    · simp only [List.cons_append, List.nil_append, readPieces, hexUnit?_control h, Option.bind_some]
    · rw [joinPieces_unit (by omega), Char.ofNat_toNat]
  case isFalse hquote hbackslash _ _ _ _ _ hcontrol =>
    exact readQuoted_of_piece (readPieces_plain hquote hbackslash hcontrol tail) hchar

theorem readQuoted_text (cs rest : List Char) :
    readQuoted (cs.flatMap writeChar ++ '"' :: rest) = some (some cs, rest) := by
  induction cs with
  | nil => rfl
  | cons c cs ih => rw [List.flatMap_cons, List.append_assoc, readQuoted_writeChar, ih]; rfl

theorem writeText_append (cs rest : List Char) :
    writeText cs ++ rest = '"' :: (cs.flatMap writeChar ++ '"' :: rest) := by
  simp [writeText]

/-! ## Numbers -/

theorem digits_ne_nil (n : Nat) : digits n ≠ [] := Nat.toDigits_ne_nil

theorem digits_eq_cons (n : Nat) : ∃ c cs, digits n = c :: cs ∧ c.isDigit = true := by
  obtain ⟨c, cs, hcs⟩ := List.exists_cons_of_ne_nil (digits_ne_nil n)
  exact ⟨c, cs, hcs, isDigit_of_mem_digits (by rw [hcs]; exact List.mem_cons_self)⟩

theorem eq_zero_of_head?_digits (n : Nat) (h : (digits n).head? = some '0') : n = 0 := by
  induction n using Nat.strongRecOn with
  | ind n ih =>
    obtain hlt | hge := Nat.lt_or_ge n 10
    · have hsmall : ∀ m < 10, (Nat.toDigits 10 m).head? = some '0' → m = 0 := by decide
      exact hsmall n hlt h
    · obtain ⟨c, cs, hcs, -⟩ := digits_eq_cons (n / 10)
      have hsplit : digits n = digits (n / 10) ++ [(n % 10).digitChar] :=
        Nat.toDigits_of_base_le (by decide) hge
      rw [hsplit, hcs] at h
      have htenth : n / 10 = 0 := ih (n / 10) (by omega) (by rw [hcs]; exact h)
      omega

theorem readDigits_digits (n : Nat) {rest : List Char} (hrest : EndsValue rest) :
    readDigits (digits n ++ rest) = some (digits n, rest) := by
  have hall : ∀ c ∈ digits n, c.isDigit = true := fun _ => isDigit_of_mem_digits
  have hstop : rest.takeWhile Char.isDigit = [] ∧ rest.dropWhile Char.isDigit = rest := by
    cases rest with
    | nil => exact ⟨rfl, rfl⟩
    | cons c rest =>
      have hc : c.isDigit = false := by
        obtain rfl | rfl | rfl | rfl := hrest c rfl <;> rfl
      simp [hc]
  unfold readDigits
  rw [List.takeWhile_append_of_pos hall, List.dropWhile_append_of_pos hall, hstop.1, hstop.2,
    List.append_nil]
  exact if_neg (digits_ne_nil n)

theorem readUnsigned_digits (negative : Bool) (n : Nat) {rest : List Char}
    (hrest : EndsValue rest) :
    readUnsigned negative (digits n ++ rest) = some (⟨negative, digits n, none, none⟩, rest) := by
  have hzero : ¬((digits n).head? = some '0' ∧ 1 < (digits n).length) := by
    rintro ⟨hhead, hlong⟩
    rw [eq_zero_of_head?_digits n hhead] at hlong
    exact absurd hlong (by decide)
  have hfraction : readFraction rest = some (none, rest) := by
    unfold readFraction
    split
    · obtain h | h | h | h := hrest '.' rfl <;> exact absurd h (by decide)
    · rfl
  have hexponent : readExponent rest = some (none, rest) := by
    cases rest with
    | nil => rfl
    | cons c rest =>
      have hc : ¬(c = 'e' ∨ c = 'E') := by obtain rfl | rfl | rfl | rfl := hrest c rfl <;> decide
      rw [readExponent, if_neg hc]
  simp only [readUnsigned, readWhole, readDigits_digits n hrest, Option.bind_some, if_neg hzero,
    hfraction, hexponent, Option.map_some]

theorem readNumeral_digits (n : Nat) {rest : List Char} (hrest : EndsValue rest) :
    readNumeral (digits n ++ rest) = some (⟨false, digits n, none, none⟩, rest) := by
  rw [← readUnsigned_digits false n hrest]
  unfold readNumeral
  split
  case h_1 tail heq =>
    obtain ⟨c, cs, hcs, hdigit⟩ := digits_eq_cons n
    rw [hcs, List.cons_append, List.cons.injEq] at heq
    rw [heq.1] at hdigit
    exact absurd hdigit (by decide)
  case h_2 => rfl

theorem data_natural {n : Nat} (h : n < 1 <<< 64) :
    (⟨false, digits n, none, none⟩ : Numeral).data = .whole n := by
  unfold Numeral.data
  dsimp only
  rw [ofDigitChars_digits]
  exact if_pos ⟨rfl, rfl, rfl, h⟩

theorem data_negative {n : Nat} (hpos : 0 < n) (h : n ≤ 1 <<< 63) :
    (⟨true, digits n, none, none⟩ : Numeral).data = .whole (-n) := by
  unfold Numeral.data
  dsimp only
  rw [ofDigitChars_digits]
  exact (if_neg (by simp)).trans (if_pos ⟨rfl, rfl, rfl, hpos, h⟩)

/-! ## Values -/

/-- A value is read wherever it is written. -/
def ReadsBack (d : Data) : Prop :=
  ∀ (l : Layout) (fuel : Nat) (rest : List Char), (write l d).length < fuel → EndsValue rest →
    readValue fuel (write l d ++ rest) = some (d, rest)

theorem readsBack_intro {d : Data} (h : ∀ (l : Layout) (fuel : Nat) (rest : List Char),
    (write l d).length ≤ fuel → EndsValue rest →
      readValue (fuel + 1) (write l d ++ rest) = some (d, rest)) : ReadsBack d := by
  intro l fuel rest hfuel hrest
  obtain ⟨fuel, rfl⟩ := Nat.exists_eq_succ_of_ne_zero (Nat.ne_zero_of_lt hfuel)
  exact h l fuel rest (Nat.le_of_lt_succ hfuel) hrest

theorem readValue_numeral {c : Char} (hc : c = '-' ∨ c.isDigit = true) (cs : List Char)
    (fuel : Nat) :
    readValue (fuel + 1) (c :: cs) = (readNumeral (c :: cs)).map fun r => (r.1.data, r.2) := by
  have hother : ∀ d : Char, d ≠ '-' → d.isDigit = false → c ≠ d := by
    intro d hminus hdigit
    obtain rfl | h := hc
    · exact hminus.symm
    · exact ne_of_isDigit h hdigit
  have hspace : isSpace c = false := by
    simp [isSpace, hother ' ' (by decide) rfl, hother '\t' (by decide) rfl,
      hother '\n' (by decide) rfl, hother '\r' (by decide) rfl]
  rw [readValue, skipSpace_of_not_isSpace hspace]
  simp only [if_neg (hother '"' (by decide) rfl), if_neg (hother '[' (by decide) rfl),
    if_neg (hother '\x7b' (by decide) rfl), if_neg (hother 'n' (by decide) rfl),
    if_neg (hother 't' (by decide) rfl), if_neg (hother 'f' (by decide) rfl)]

theorem readsBack_whole {z : Int} (hlo : -9223372036854775808 ≤ z)
    (hhi : z < 18446744073709551616) : ReadsBack (.whole z) := by
  refine readsBack_intro fun l fuel rest _ hrest => ?_
  rw [write, signedDigits]
  split
  case isTrue hneg =>
    rw [List.cons_append, readValue_numeral (.inl rfl), readNumeral,
      readUnsigned_digits true _ hrest, Option.map_some, data_negative (by omega) (by omega)]
    rw [show -(z.natAbs : Int) = z by omega]
  case isFalse hnat =>
    obtain ⟨c, cs, hcs, hdigit⟩ := digits_eq_cons z.natAbs
    have hread := readNumeral_digits z.natAbs hrest
    rw [hcs, List.cons_append] at hread ⊢
    rw [readValue_numeral (.inr hdigit), hread, Option.map_some, ← hcs, data_natural (by omega)]
    rw [show (z.natAbs : Int) = z by omega]

theorem readsBack_text (cs : List Char) : ReadsBack (.text cs) := by
  refine readsBack_intro fun l fuel rest _ _ => ?_
  rw [write, writeText_append, readValue, skipSpace_of_not_isSpace rfl]
  simp only [if_true, readQuoted_text, Option.map_some, quotedData]

theorem readValue_bracket {cs after : List Char} (h : skipSpace cs = ']' :: after) (fuel : Nat) :
    readValue fuel cs = none := by
  cases fuel with
  | zero => rfl
  | succ fuel => rw [readValue, h]; rfl

theorem readItems_bracket {cs after : List Char} (h : skipSpace cs = ']' :: after) (fuel : Nat) :
    readItems fuel cs = none := by
  cases fuel with
  | zero => rfl
  | succ fuel => rw [readItems, readValue_bracket h]; rfl

/-- The items after the first are read one by one; the last ends at the bracket. -/
theorem readItems_write (l outer : Layout) (rest : List Char) (vs : List Data) :
    ∀ (v : Data) (fuel : Nat), (∀ w ∈ v :: vs, ReadsBack w) →
      (write l v).length + (writeItems l vs).length + 1 < fuel →
      readItems fuel (write l v ++ (writeItems l vs ++ (outer.lineBreak ++ ']' :: rest))) =
        some (v :: vs, rest) := by
  induction vs with
  | nil =>
    intro v fuel hitems hfuel
    obtain ⟨fuel, rfl⟩ := Nat.exists_eq_succ_of_ne_zero (Nat.ne_zero_of_lt hfuel)
    have hv := hitems v List.mem_cons_self l fuel (outer.lineBreak ++ ']' :: rest) (by omega)
      (endsValue_lineBreak outer (.inr (.inl rfl)))
    rw [readItems, writeItems, List.nil_append, hv, Option.bind_some]
    simp only [skipSpace_lineBreak, skipSpace_of_not_isSpace (c := ']') rfl]
  | cons w ws ih =>
    intro v fuel hitems hfuel
    obtain ⟨fuel, rfl⟩ := Nat.exists_eq_succ_of_ne_zero (Nat.ne_zero_of_lt hfuel)
    simp only [writeItems, List.length_cons, List.length_append] at hfuel
    have hw := ih w fuel (fun x hx => hitems x (List.mem_cons_of_mem v hx)) (by omega)
    simp only [writeItems, List.cons_append, List.append_assoc]
    have hv := hitems v List.mem_cons_self l fuel
      (',' :: (l.lineBreak ++ (write l w ++ (writeItems l ws ++ (outer.lineBreak ++ ']' :: rest)))))
      (by omega) (endsValue_cons (.inl rfl))
    rw [readItems, hv, Option.bind_some]
    simp only [skipSpace_of_not_isSpace (c := ',') rfl, readItems_lineBreak, hw, Option.map_some]

theorem readsBack_list {items : List Data} (hitems : ∀ v ∈ items, ReadsBack v) :
    ReadsBack (.list items) := by
  refine readsBack_intro fun l fuel rest hfuel _ => ?_
  cases items with
  | nil => rfl
  | cons v vs =>
    simp only [write, List.length_cons, List.length_append] at hfuel
    have hread := readItems_write l.deeper l rest vs v fuel hitems (by omega)
    simp only [write, List.cons_append, List.append_assoc, List.nil_append]
    rw [readValue, skipSpace_of_not_isSpace rfl]
    simp only [if_neg (show ('[' : Char) ≠ '"' by decide), if_true, readItems_lineBreak, hread,
      Option.map_some]
    split
    case h_1 after heq =>
      -- the reader of items would have refused a bracket
      rw [skipSpace_lineBreak] at heq
      rw [readItems_bracket heq] at hread
      exact absurd hread (by simp)
    case h_2 => rfl

@[simp] theorem deeper_colon (l : Layout) : l.deeper.colon = l.colon := by cases l <;> rfl

/-- A field: its name, and its value in front of what may end it. -/
theorem readFields_field {l : Layout} {v : Data} (hv : ReadsBack v) (name : List Char) {fuel : Nat}
    (hfuel : (write l v).length < fuel) {tail : List Char} (htail : EndsValue tail) :
    readFields (fuel + 1) (writeText name ++ (l.colon ++ (write l v ++ tail))) =
      match skipSpace tail with
      | ',' :: more => (readFields fuel more).map fun r => ((some name, v) :: r.1, r.2)
      | '\x7d' :: after => some ([(some name, v)], after)
      | _ => none := by
  have hcolon : ∃ blanks, l.colon = ':' :: blanks ∧ ∀ c ∈ blanks, isSpace c = true := by
    cases l with
    | compact => exact ⟨[], rfl, by simp⟩
    | pretty depth => exact ⟨[' '], rfl, by simp [isSpace]⟩
  obtain ⟨blanks, hcolon, hblanks⟩ := hcolon
  have hvalue : readValue fuel (blanks ++ (write l v ++ tail)) = some (v, tail) := by
    rw [readValue_congr (skipSpace_append hblanks _), hv l fuel tail hfuel htail]
  rw [readFields, writeText_append, skipSpace_of_not_isSpace rfl]
  simp only [readQuoted_text, Option.bind_some, hcolon, List.cons_append,
    skipSpace_of_not_isSpace (c := ':') rfl]
  exact congrArg (Option.bind · _) hvalue

/-- A field as its reader gives it: the name may hold no character somewhere. -/
def readField (f : List Char × Data) : Option (List Char) × Data := (some f.1, f.2)

theorem readFields_write (l outer : Layout) (rest : List Char) (fs : List (List Char × Data)) :
    ∀ (name : List Char) (v : Data) (fuel : Nat), ReadsBack v → (∀ f ∈ fs, ReadsBack f.2) →
      (write l v).length + (writeFields l fs).length + 1 < fuel →
      readFields fuel (writeText name ++ (l.colon ++ (write l v ++ (writeFields l fs ++
        (outer.lineBreak ++ '\x7d' :: rest))))) = some (((name, v) :: fs).map readField, rest) := by
  induction fs with
  | nil =>
    intro name v fuel hv _ hfuel
    obtain ⟨fuel, rfl⟩ := Nat.exists_eq_succ_of_ne_zero (Nat.ne_zero_of_lt hfuel)
    rw [writeFields, List.nil_append, readFields_field hv name (by omega)
      (endsValue_lineBreak outer (.inr (.inr (.inl rfl))))]
    simp only [skipSpace_lineBreak, skipSpace_of_not_isSpace (c := '\x7d') rfl]
    rfl
  | cons f fs ih =>
    intro name v fuel hv hfields hfuel
    obtain ⟨other, w⟩ := f
    obtain ⟨fuel, rfl⟩ := Nat.exists_eq_succ_of_ne_zero (Nat.ne_zero_of_lt hfuel)
    simp only [writeFields, List.length_cons, List.length_append] at hfuel
    have hw := ih other w fuel (hfields (other, w) List.mem_cons_self)
      (fun x hx => hfields x (List.mem_cons_of_mem _ hx)) (by omega)
    simp only [writeFields, List.cons_append, List.append_assoc]
    rw [readFields_field hv name (by omega) (endsValue_cons (.inl rfl))]
    simp only [skipSpace_of_not_isSpace (c := ',') rfl, readFields_lineBreak, hw, Option.map_some]
    rfl

theorem objectData_readField (fields : List (List Char × Data)) :
    objectData (fields.map readField) = .object fields := by
  have hnamed : (fields.map readField).mapM (fun f => f.1.map fun name => (name, f.2)) =
      some fields := by
    rw [List.mapM_map]
    exact List.mapM_pure.trans (congrArg some (List.map_id fields))
  rw [objectData, hnamed]

theorem readsBack_object {fields : List (List Char × Data)}
    (hfields : ∀ f ∈ fields, ReadsBack f.2) : ReadsBack (.object fields) := by
  refine readsBack_intro fun l fuel rest hfuel _ => ?_
  match fields with
  | [] => rfl
  | (name, v) :: fs =>
    simp only [write, List.length_cons, List.length_append] at hfuel
    have hread := readFields_write l.deeper l rest fs name v fuel
      (hfields (name, v) List.mem_cons_self) (fun f hf => hfields f (List.mem_cons_of_mem _ hf)) (by omega)
    rw [deeper_colon] at hread
    simp only [write, List.cons_append, List.append_assoc, List.nil_append]
    rw [readValue, skipSpace_of_not_isSpace rfl]
    simp only [if_neg (show ('\x7b' : Char) ≠ '"' by decide),
      if_neg (show ('\x7b' : Char) ≠ '[' by decide), if_true, readFields_lineBreak, hread,
      Option.map_some, objectData_readField, skipSpace_lineBreak]
    split
    case h_1 after heq =>
      rw [writeText_append, skipSpace_of_not_isSpace rfl] at heq
      exact absurd (List.cons.inj heq).1 (by decide)
    case h_2 => rfl

theorem readsBack {d : Data} (h : d.Exact) : ReadsBack d := by
  induction h with
  | null => exact readsBack_intro fun _ _ _ _ _ => rfl
  | bool b => exact readsBack_intro fun _ _ _ _ _ => by cases b <;> rfl
  | whole hlo hhi => exact readsBack_whole hlo hhi
  | text cs => exact readsBack_text cs
  | list _ ih => exact readsBack_list ih
  | object _ ih => exact readsBack_object ih

theorem read?_write (l : Layout) {d : Data} (h : d.Exact) : read? (write l d) = some d := by
  have hread := readsBack h l ((write l d).length + 1) [] (Nat.lt_succ_self _) endsValue_nil
  rw [List.append_nil] at hread
  rw [read?, hread]
  rfl

end Json

end CodeFolding

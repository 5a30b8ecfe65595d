import CodeFolding.Proofs.Access
import CodeFolding.Proofs.Segments

/-!
Classification of a line by indices.

The characters of a line stand in a list with their byte offsets. A reader goes through it by its
indices: it looks behind and ahead of an index, and skips over several at once. It makes no access
outside the list, and its cells are those of the classification.
-/

set_option autoImplicit false

namespace CodeFolding.Checked

/-- The characters of a text, each with its byte offset. -/
def charsFrom (offset : Nat) : List Char → List (Nat × Char)
  | [] => []
  | c :: rest => (offset, c) :: charsFrom (offset + c.utf8Size) rest

/-- What the reader of a line has read by an index: what is open there, whether that is a comment
to the end of the line, and the cells before it. -/
structure Reader where
  index : Nat
  carry : Carry
  inLineComment : Bool
  cells : List Cell
  deriving DecidableEq, Repr

def Reader.leaving (r : Reader) (s : Carry) : Reader := { r with carry := s }

def Reader.commenting (r : Reader) : Reader := { r with inLineComment := true }

section Definitions

variable (chars : List (Nat × Char))

def charAt (i : Nat) : Checked Char := do return (← item chars i).2

def charAt? (i : Nat) : Option Char := chars[i]?.map (·.2)

def cellAt (role : Role) (i : Nat) : Checked Cell := do
  let (offset, char) ← item chars i
  return ⟨offset, char, role⟩

/-- The characters up to an index get one role. -/
def Reader.emit (r : Reader) (role : Role) (stop : Nat) : Checked Reader := do
  let more ← (List.range' r.index (stop - r.index)).mapM (cellAt chars role)
  return { r with index := stop, cells := r.cells ++ more }

/-- The first index from `i` on with another character, or the end. -/
def skipWhile (p : Char → Bool) (i : Nat) : Checked Nat :=
  if _h : i < chars.length then do
    if p (← charAt chars i) then skipWhile p (i + 1) else return i
  else return i
termination_by chars.length - i

/-- Whether the single quote at an index opens a literal. -/
def opensQuotedAt (i : Nat) : Checked Bool :=
  match charAt? chars (i + 1) with
  | some c =>
    if startsIdentifier c then do
      let stop ← skipWhile chars continuesIdentifier (i + 1)
      return charAt? chars stop == some '\''
    else return true
  | none => return true

/-- Whether the `r` at an index can start a raw literal. -/
def allowsRawAt (i : Nat) : Checked Bool :=
  if 0 < i then do
    let previous ← charAt chars (← minus i 1)
    if previous = 'b' then
      if i < 2 then return true
      else return !continuesIdentifier (← charAt chars (← minus i 2))
    else return !continuesIdentifier previous
  else return true

/-- The index of the quote of the raw literal that the `r` at an index starts. -/
def rawQuote? (i : Nat) : Checked (Option Nat) := do
  if ← allowsRawAt chars i then
    let stop ← skipWhile chars (· == '#') (i + 1)
    return if charAt? chars stop = some '"' then some stop else none
  else return none

/-- The next characters outside comments and literals. -/
def Reader.turnInCode (r : Reader) (c : Char) (next : Option Char) : Checked Reader :=
  let i := r.index
  if c = '/' ∧ next = some '/' then
    r.commenting.emit chars .lineComment (i + 1)
  else if c = '/' ∧ next = some '*' then
    (r.leaving { r.carry with inBlockComment := true }).emit chars .blockComment (i + 2)
  else if c = '"' then
    (r.leaving { r.carry with delimiter := some '"' }).emit chars .literal (i + 1)
  else if c = '\'' then do
    if ← opensQuotedAt chars i then
      (r.leaving { r.carry with delimiter := some '\'' }).emit chars .literal (i + 1)
    else r.emit chars .code (i + 1)
  else if c = 'r' ∧ (next = some '"' ∨ next = some '#') then do
    match ← rawQuote? chars i with
    | some quote =>
      (r.leaving { r.carry with delimiter := some '"' }).emit chars .literal (quote + 1)
    | none => r.emit chars .code (i + 1)
  else r.emit chars .code (i + 1)

def Reader.turn (r : Reader) : Checked Reader := do
  let i := r.index
  let c ← charAt chars i
  let next := charAt? chars (i + 1)
  if r.carry.inBlockComment then
    if c = '*' ∧ next = some '/' then
      (r.leaving { r.carry with inBlockComment := false }).emit chars .blockComment (i + 2)
    else r.emit chars .blockComment (i + 1)
  else if r.inLineComment then r.emit chars .lineComment (i + 1)
  else
    match r.carry.delimiter with
    | some delimiter =>
      if c = '\\' ∧ next.isSome then r.emit chars .literal (i + 2)
      else if c = delimiter then
        (r.leaving { r.carry with delimiter := none }).emit chars .literal (i + 1)
      else r.emit chars .literal (i + 1)
    | none => r.turnInCode chars c next

end Definitions

theorem emit_index {chars : List (Nat × Char)} {r r' : Reader} {role : Role} {stop : Nat}
    (h : r.emit chars role stop = .ok r') : r'.index = stop := by
  obtain ⟨more, -, hr⟩ := bind_eq_ok.1 h
  obtain rfl := pure_eq_ok.1 hr
  rfl

theorem skipWhile_le {chars : List (Nat × Char)} {p : Char → Bool} {i j : Nat}
    (h : skipWhile chars p i = .ok j) : i ≤ j := by
  fun_induction skipWhile chars p i with
  | case1 i hi ih =>
    obtain ⟨c, -, h⟩ := bind_eq_ok.1 h
    split at h
    · exact Nat.le_of_succ_le (ih h)
    · exact Nat.le_of_eq (pure_eq_ok.1 h)
  | case2 i => exact Nat.le_of_eq (pure_eq_ok.1 h)

theorem rawQuote?_lt {chars : List (Nat × Char)} {i quote : Nat}
    (h : rawQuote? chars i = .ok (some quote)) : i < quote := by
  obtain ⟨allowed, -, h⟩ := bind_eq_ok.1 h
  cases allowed with
  | false => simp at h
  | true =>
    obtain ⟨stop, hstop, h⟩ := bind_eq_ok.1 h
    have hle := skipWhile_le hstop
    split at h <;> simp at h
    omega

theorem Reader.turnInCode_lt {chars : List (Nat × Char)} {r r' : Reader} {c : Char}
    {next : Option Char} (h : r.turnInCode chars c next = .ok r') : r.index < r'.index := by
  have hemit : ∀ {s : Reader} {role : Role} {stop : Nat}, s.emit chars role stop = .ok r' →
      r.index < stop → r.index < r'.index := fun h hlt => by rwa [emit_index h]
  unfold turnInCode at h
  repeat' split at h
  · exact hemit h (by omega)
  · exact hemit h (by omega)
  · exact hemit h (by omega)
  · obtain ⟨opens, -, h⟩ := bind_eq_ok.1 h
    split at h <;> exact hemit h (by omega)
  · obtain ⟨quote, hquote, h⟩ := bind_eq_ok.1 h
    split at h
    · have := rawQuote?_lt hquote
      exact hemit h (by omega)
    · exact hemit h (by omega)
  · exact hemit h (by omega)

theorem Reader.turn_lt {chars : List (Nat × Char)} {r r' : Reader} (h : r.turn chars = .ok r') :
    r.index < r'.index := by
  obtain ⟨c, -, h⟩ := bind_eq_ok.1 h
  have hemit : ∀ {s : Reader} {role : Role} {stop : Nat}, s.emit chars role stop = .ok r' →
      r.index < stop → r.index < r'.index := fun h hlt => by rwa [emit_index h]
  dsimp only at h
  repeat' split at h
  all_goals first | exact turnInCode_lt h | exact hemit h (by omega)

def Reader.run (chars : List (Nat × Char)) (r : Reader) : Checked Reader :=
  if r.index < chars.length then
    match _h : r.turn chars with
    | .ok next => next.run chars
    | .error e => .error e
  else return r
termination_by chars.length - r.index
decreasing_by
  have := Reader.turn_lt _h
  omega

/-- The cells of a line and what it leaves open. -/
def classify (s : Carry) (line : List Char) : Checked (List Cell × Carry) := do
  let r ← Reader.run (charsFrom 0 line) ⟨0, s, false, []⟩
  return (r.cells, r.carry)

/-! ## Characters by index -/

theorem charsFrom_getElem? (offset : Nat) (whole : List Char) (i : Nat) :
    (charsFrom offset whole)[i]? =
      whole[i]?.map fun c => (offset + Utf8.byteLength (whole.take i), c) := by
  induction whole generalizing offset i with
  | nil => simp [charsFrom]
  | cons c rest ih =>
    cases i with
    | zero => simp [charsFrom, Utf8.byteLength]
    | succ i => simp [charsFrom, ih, Utf8.byteLength, Nat.add_assoc]

@[simp] theorem length_charsFrom (offset : Nat) (whole : List Char) :
    (charsFrom offset whole).length = whole.length := by
  induction whole generalizing offset with
  | nil => rfl
  | cons c rest ih => simp [charsFrom, ih]

theorem charAt?_eq (whole : List Char) (i : Nat) : charAt? (charsFrom 0 whole) i = whole[i]? := by
  rw [charAt?, charsFrom_getElem?, Option.map_map]
  exact Option.map_id'

theorem charAt_eq {whole : List Char} {i : Nat} {c : Char} (h : whole[i]? = some c) :
    charAt (charsFrom 0 whole) i = pure c := by
  have hitem : (charsFrom 0 whole)[i]? = some (0 + Utf8.byteLength (whole.take i), c) := by
    rw [charsFrom_getElem?, h, Option.map_some]
  rw [charAt, item_eq hitem, pure_bind]

variable {whole done text more rest behind : List Char} {role : Role} {c : Char}

theorem skipWhile_eq (p : Char → Bool) (done : List Char) (hwhole : whole = done ++ rest) :
    skipWhile (charsFrom 0 whole) p done.length = pure (done.length + (rest.takeWhile p).length) := by
  induction rest generalizing done with
  | nil => rw [skipWhile, dif_neg (by simp [hwhole])]; rfl
  | cons c rest ih =>
    have hc : whole[done.length]? = some c := by simp [hwhole]
    rw [skipWhile, dif_pos (by simp [hwhole]), charAt_eq hc, pure_bind]
    cases hp : p c with
    | false => simp [hp]
    | true =>
      have hrest := ih (done ++ [c]) (by simp [hwhole])
      simpa [hp, Nat.add_assoc, Nat.add_comm 1] using hrest

theorem charAt?_skipped (p : Char → Bool) (hwhole : whole = done ++ rest) :
    charAt? (charsFrom 0 whole) (done.length + (rest.takeWhile p).length) =
      (rest.dropWhile p).head? := by
  have hsplit : rest[(rest.takeWhile p).length]? =
      (rest.takeWhile p ++ rest.dropWhile p)[(rest.takeWhile p).length]? := by
    rw [List.takeWhile_append_dropWhile]
  rw [charAt?_eq, hwhole, List.getElem?_append_right (by omega), Nat.add_sub_cancel_left, hsplit,
    List.getElem?_append_right (Nat.le_refl _), Nat.sub_self, List.head?_eq_getElem?]

theorem opensQuotedAt_eq (hwhole : whole = done ++ '\'' :: rest) :
    opensQuotedAt (charsFrom 0 whole) done.length = pure (opensQuoted rest) := by
  have hwhole' : whole = (done ++ ['\'']) ++ rest := by simp [hwhole]
  have hlength : (done ++ ['\'']).length = done.length + 1 := by simp
  have hnext : charAt? (charsFrom 0 whole) (done.length + 1) = rest.head? := by
    rw [charAt?_eq, hwhole', ← hlength, List.getElem?_append_right (Nat.le_refl _), Nat.sub_self,
      List.head?_eq_getElem?]
  rw [opensQuotedAt, hnext]
  cases rest with
  | nil => rfl
  | cons c rest =>
    have hskip := skipWhile_eq continuesIdentifier _ hwhole'
    have hat := charAt?_skipped continuesIdentifier hwhole'
    rw [hlength] at hskip hat
    simp only [List.head?_cons, opensQuoted]
    split
    · rw [hskip, pure_bind, hat]
    · rfl

theorem allowsRawAt_eq (hwhole : whole = done ++ rest) :
    allowsRawAt (charsFrom 0 whole) done.length = pure (allowsRaw done.reverse) := by
  have hchar : ∀ (front back : List Char) (c : Char), whole = front ++ c :: back →
      charAt (charsFrom 0 whole) front.length = pure c := fun _ _ _ h => charAt_eq (by simp [h])
  obtain ⟨behind, rfl⟩ : ∃ behind : List Char, done = behind.reverse := ⟨done.reverse, by simp⟩
  rw [List.reverse_reverse, List.length_reverse]
  cases behind with
  | nil => rfl
  | cons p tail =>
    have hprevious := hchar tail.reverse rest p (by simp [hwhole])
    rw [List.length_reverse] at hprevious
    rw [allowsRawAt, List.length_cons, if_pos (Nat.succ_pos _), minus_eq (Nat.le_add_left 1 _),
      pure_bind, Nat.add_sub_cancel, hprevious, pure_bind]
    by_cases hb : p = 'b'
    · subst hb
      cases tail with
      | nil => rfl
      | cons q tail =>
        have hsecond := hchar tail.reverse ('b' :: rest) q (by simp [hwhole])
        rw [List.length_reverse] at hsecond
        rw [if_pos rfl, List.length_cons, if_neg (by omega), minus_eq (by omega), pure_bind,
          Nat.add_sub_add_right tail.length 2 0, Nat.sub_zero, hsecond, pure_bind, allowsRaw]
    · rw [if_neg hb, allowsRaw]
      · exact fun h => absurd h hb
      · exact fun _ _ h => absurd h hb

theorem rawQuote?_eq (hwhole : whole = done ++ 'r' :: rest) :
    rawQuote? (charsFrom 0 whole) done.length =
      pure (if allowsRaw done.reverse ∧ opensRaw rest then
        some (done.length + 1 + (rest.takeWhile (· == '#')).length) else none) := by
  have hwhole' : whole = (done ++ ['r']) ++ rest := by simp [hwhole]
  have hskip := skipWhile_eq (· == '#') _ hwhole'
  have hat := charAt?_skipped (· == '#') hwhole'
  rw [List.length_append, List.length_singleton] at hskip hat
  rw [rawQuote?, allowsRawAt_eq hwhole, pure_bind]
  cases allowsRaw done.reverse with
  | false => simp
  | true =>
    rw [if_pos rfl, hskip, pure_bind, hat]
    simp [opensRaw]

/-! ## Turns of the reader -/

/-- The cells of a text of one role. -/
def cellsOf (offset : Nat) (role : Role) (text : List Char) : List Cell :=
  (charsFrom offset text).map fun x => ⟨x.1, x.2, role⟩

theorem classifyFrom_eq (behind : List Char) (offset : Nat) (m : Mode) (whole : List Char) :
    classifyFrom behind offset m whole =
      (List.zipWith (fun x role => ⟨x.1, x.2, role⟩) (charsFrom offset whole) (m.run behind whole).1,
        (m.run behind whole).2) := by
  induction whole generalizing behind offset m with
  | nil => rfl
  | cons c rest ih => rw [classifyFrom, ih, Mode.run]; rfl

theorem charsFrom_append (offset : Nat) (front back : List Char) :
    charsFrom offset (front ++ back) =
      charsFrom offset front ++ charsFrom (offset + Utf8.byteLength front) back := by
  induction front generalizing offset with
  | nil => rfl
  | cons c front ih => simp [charsFrom, ih, Utf8.byteLength, Nat.add_assoc]

theorem zipWith_cellsOf (offset : Nat) (role : Role) (text : List Char) :
    List.zipWith (fun x role => ⟨x.1, x.2, role⟩) (charsFrom offset text)
      (List.replicate text.length role) = cellsOf offset role text := by
  induction text generalizing offset with
  | nil => rfl
  | cons c text ih => exact congrArg (⟨offset, c, role⟩ :: ·) (ih (offset + c.utf8Size))

theorem classifyFrom_passes {m n : Mode} (h : m.Passes behind text rest role n) (offset : Nat) :
    classifyFrom behind offset m (text ++ rest) =
      (cellsOf offset role text ++ (classifyFrom (text.reverse ++ behind)
        (offset + Utf8.byteLength text) n rest).1,
       (classifyFrom (text.reverse ++ behind) (offset + Utf8.byteLength text) n rest).2) := by
  unfold Mode.Passes at h
  rw [classifyFrom_eq, h, charsFrom_append, List.zipWith_append (by simp), zipWith_cellsOf,
    classifyFrom_eq (text.reverse ++ behind)]

theorem mapM_cellAt (done : List Char) (hwhole : whole = done ++ (text ++ more)) :
    (List.range' done.length text.length).mapM (cellAt (charsFrom 0 whole) role) =
      pure (cellsOf (Utf8.byteLength done) role text) := by
  induction text generalizing done with
  | nil => rfl
  | cons c text ih =>
    have hrest := ih (done ++ [c]) (by simp [hwhole])
    have hitem : (charsFrom 0 whole)[done.length]? = some (Utf8.byteLength done, c) := by
      rw [charsFrom_getElem?, hwhole]
      simp
    rw [List.length_cons, List.range'_succ, List.mapM_cons, cellAt, item_eq hitem, pure_bind]
    simp only [List.length_append, List.length_singleton] at hrest
    rw [hrest]
    simp [cellsOf, charsFrom, Utf8.byteLength_append, Utf8.byteLength]

def Reader.mode (r : Reader) : Mode :=
  if r.carry.inBlockComment then .blockComment r.carry.delimiter
  else if r.inLineComment then .lineComment
  else .ofDelimiter r.carry.delimiter

/-- Only code is behind the start of a comment to the end of the line. -/
def Reader.Sound (r : Reader) : Prop := r.inLineComment = true → r.carry = .neutral

/-- `r'` comes behind `r` by the characters `text` of one role. -/
structure Reader.Advance (done text more : List Char) (r r' : Reader) : Prop where
  index : r'.index = (done ++ text).length
  sound : r'.Sound
  cells : ∃ role, r'.cells = r.cells ++ cellsOf (Utf8.byteLength done) role text ∧
    r.mode.Passes done.reverse text more role r'.mode

/-- A result without a fault: the reader behind some of the characters that follow. -/
def Reader.Advances (done rest : List Char) (r : Reader) (result : Checked Reader) : Prop :=
  ∃ text more r', text ≠ [] ∧ rest = text ++ more ∧ result = pure r' ∧ r.Advance done text more r'

/-- The reader `s` is `r` with what the characters change. -/
theorem Reader.emit_eq {r s : Reader} {stop : Nat} (hwhole : whole = done ++ (text ++ more))
    (hindex : s.index = done.length) (hcells : s.cells = r.cells) (hsound : s.Sound)
    (htext : text ≠ []) (hstop : stop = (done ++ text).length)
    (hpass : r.mode.Passes done.reverse text more role s.mode) :
    r.Advances done (text ++ more) (s.emit (charsFrom 0 whole) role stop) := by
  subst hstop
  have hcount : (done ++ text).length - s.index = text.length := by
    rw [List.length_append, hindex, Nat.add_sub_cancel_left]
  refine ⟨text, more, ⟨(done ++ text).length, s.carry, s.inLineComment,
    s.cells ++ cellsOf (Utf8.byteLength done) role text⟩, htext, rfl, ?_, rfl, hsound, role, ?_, hpass⟩
  · rw [emit, hcount, hindex, mapM_cellAt done hwhole, pure_bind]
  · rw [hcells]

theorem Reader.emit_one {r s : Reader} (hwhole : whole = done ++ c :: rest)
    (hindex : s.index = done.length) (hcells : s.cells = r.cells) (hsound : s.Sound)
    (hstep : r.mode.step done.reverse c rest = (role, s.mode)) :
    r.Advances done (c :: rest) (s.emit (charsFrom 0 whole) role (done.length + 1)) :=
  emit_eq hwhole hindex hcells hsound (List.cons_ne_nil c []) (by simp) (.one hstep)

theorem Reader.emit_two {r s : Reader} {d : Char} {m : Mode} (hwhole : whole = done ++ c :: rest)
    (hnext : rest.head? = some d) (hindex : s.index = done.length) (hcells : s.cells = r.cells)
    (hsound : s.Sound) (hstep : r.mode.step done.reverse c rest = (role, m))
    (hstep' : ∀ more, m.step (c :: done.reverse) d more = (role, s.mode)) :
    r.Advances done (c :: rest) (s.emit (charsFrom 0 whole) role (done.length + 2)) := by
  obtain ⟨more, rfl⟩ := List.head?_eq_some_iff.1 hnext
  exact emit_eq hwhole hindex hcells hsound (List.cons_ne_nil c [d]) (by simp)
    (.cons hstep (.one (hstep' more)))

theorem head?_of_opensRaw (h : opensRaw rest = true) :
    rest.head? = some '"' ∨ rest.head? = some '#' := by
  obtain ⟨hashes, more, rfl⟩ := (opensRaw_iff rest).1 h
  cases hashes <;> simp [List.replicate_succ]

/-- What opens a raw literal is taken at once, up to its quote. -/
theorem Reader.emit_raw {r s : Reader} (hwhole : whole = done ++ 'r' :: rest)
    (hallows : allowsRaw done.reverse = true) (hopens : opensRaw rest = true)
    (hindex : s.index = done.length) (hcells : s.cells = r.cells) (hsound : s.Sound)
    (hmode : r.mode = .code) (hliteral : s.mode = .literal '"') :
    r.Advances done ('r' :: rest) (s.emit (charsFrom 0 whole) .literal
      (done.length + 1 + (rest.takeWhile (· == '#')).length + 1)) := by
  obtain ⟨hashes, more, rfl⟩ := (opensRaw_iff rest).1 hopens
  have hcount : ((List.replicate hashes '#' ++ '"' :: more).takeWhile (· == '#')).length =
      hashes := by
    simp [List.takeWhile_append_of_pos]
  have hpass := (Opener.raw hashes more ((allowsRaw_iff _).1 hallows)).passes
  have hsplit : 'r' :: (List.replicate hashes '#' ++ '"' :: more) =
      'r' :: List.replicate hashes '#' ++ ['"'] ++ more := by simp
  rw [hcount]
  rw [hsplit] at hwhole ⊢
  refine emit_eq hwhole hindex hcells hsound (by simp) (by simp; omega) ?_
  rwa [hmode, hliteral]

/-- In code the reader takes a character, or what opens a comment or a literal. -/
theorem Reader.turnInCode_eq {r : Reader} (hwhole : whole = done ++ c :: rest)
    (hindex : r.index = done.length) (hcarry : r.carry = .neutral) (hcode : r.inLineComment = false) :
    r.Advances done (c :: rest) (r.turnInCode (charsFrom 0 whole) c rest.head?) := by
  have hmode : r.mode = .code := by simp [mode, hcarry, hcode, Carry.neutral, Mode.ofDelimiter]
  have hblock : (r.leaving { r.carry with inBlockComment := true }).mode = .blockComment none := by
    simp [mode, leaving, hcarry, Carry.neutral]
  have hliteral : ∀ d, (r.leaving { r.carry with delimiter := some d }).mode = .literal d := by
    simp [mode, leaving, hcarry, hcode, Carry.neutral, Mode.ofDelimiter]
  have hcomment : r.commenting.mode = .lineComment := by
    simp [mode, commenting, hcarry, Carry.neutral]
  have hopen : ∀ s : Carry, (r.leaving s).Sound := by simp [Sound, leaving, hcode]
  have hplain : Mode.code.step done.reverse c rest = (.code, .code) →
      r.Advances done (c :: rest) (r.emit (charsFrom 0 whole) .code (done.length + 1)) := fun hstep =>
    emit_one hwhole hindex rfl (by simp [Sound, hcode]) (by rw [hmode, hstep])
  rw [turnInCode, hindex]
  by_cases hslash : c = '/' ∧ rest.head? = some '/'
  · rw [if_pos hslash]
    refine emit_one hwhole hindex rfl (fun _ => hcarry) ?_
    rw [hmode, hcomment, Mode.step, if_pos hslash]
  rw [if_neg hslash]
  by_cases hstar : c = '/' ∧ rest.head? = some '*'
  · rw [if_pos hstar]
    refine emit_two (m := .commentOpening none) hwhole hstar.2 hindex rfl (hopen _) ?_ fun more => ?_
    · rw [hmode, Mode.step, if_neg hslash, if_pos hstar]
    · rw [hblock, Mode.step]
  rw [if_neg hstar]
  by_cases hdouble : c = '"'
  · rw [if_pos hdouble]
    refine emit_one hwhole hindex rfl (hopen _) ?_
    rw [hmode, hliteral, Mode.step, if_neg hslash, if_neg hstar, if_pos hdouble]
  rw [if_neg hdouble]
  by_cases hsingle : c = '\''
  · subst hsingle
    rw [if_pos rfl, opensQuotedAt_eq hwhole, pure_bind]
    by_cases hopens : opensQuoted rest = true
    · rw [if_pos hopens]
      refine emit_one hwhole hindex rfl (hopen _) ?_
      rw [hmode, hliteral, Mode.step, if_neg hslash, if_neg hstar, if_neg hdouble, if_pos ⟨rfl, hopens⟩]
    · rw [if_neg hopens]
      exact hplain (by simp [Mode.step, hopens])
  rw [if_neg hsingle]
  -- The test of the next character decides nothing: a raw literal goes on with one of the two.
  by_cases hraw : c = 'r' ∧ allowsRaw done.reverse = true ∧ opensRaw rest = true
  · obtain ⟨rfl, hallows, hopens⟩ := hraw
    rw [if_pos ⟨rfl, head?_of_opensRaw hopens⟩, rawQuote?_eq hwhole, if_pos ⟨hallows, hopens⟩,
      pure_bind]
    exact emit_raw hwhole hallows hopens hindex rfl (hopen _) hmode (hliteral '"')
  · have hstep : Mode.code.step done.reverse c rest = (.code, .code) := by
      rw [Mode.step, if_neg hslash, if_neg hstar, if_neg hdouble, if_neg (fun h => hsingle h.1),
        if_neg hraw]
    by_cases hguard : c = 'r' ∧ (rest.head? = some '"' ∨ rest.head? = some '#')
    · obtain ⟨rfl, hnext⟩ := hguard
      rw [if_pos ⟨rfl, hnext⟩, rawQuote?_eq hwhole, if_neg fun h => hraw ⟨rfl, h⟩, pure_bind]
      exact hplain hstep
    · rw [if_neg hguard]
      exact hplain hstep

theorem Reader.block_advances {r : Reader} (hwhole : whole = done ++ c :: rest)
    (hindex : r.index = done.length) (hsound : r.Sound) (hblock : r.carry.inBlockComment = true) :
    r.Advances done (c :: rest)
      (if c = '*' ∧ rest.head? = some '/' then
        (r.leaving { r.carry with inBlockComment := false }).emit (charsFrom 0 whole) .blockComment
          (done.length + 2)
      else r.emit (charsFrom 0 whole) .blockComment (done.length + 1)) := by
  have hmode : r.mode = .blockComment r.carry.delimiter := if_pos hblock
  have hcode : r.inLineComment = false := by
    cases hcomment : r.inLineComment with
    | false => rfl
    | true => simp [hsound hcomment, Carry.neutral] at hblock
  have hafter : (r.leaving { r.carry with inBlockComment := false }).mode =
      .ofDelimiter r.carry.delimiter := by simp [mode, leaving, hcode]
  split
  · rename_i hend
    refine emit_two (m := .commentClosing r.carry.delimiter) hwhole hend.2 hindex rfl
      (by simp [Sound, leaving, hcode]) ?_ fun more => ?_
    · rw [hmode, Mode.step, if_pos hend]
    · rw [hafter, Mode.step]
  · rename_i hend
    exact emit_one hwhole hindex rfl hsound (by rw [hmode, Mode.step, if_neg hend])

theorem Reader.literal_advances {r : Reader} {d : Char} (hwhole : whole = done ++ c :: rest)
    (hindex : r.index = done.length) (hblock : r.carry.inBlockComment = false)
    (hcode : r.inLineComment = false) (hdelimiter : r.carry.delimiter = some d) :
    r.Advances done (c :: rest)
      (if c = '\\' ∧ rest.head?.isSome = true then
        r.emit (charsFrom 0 whole) .literal (done.length + 2)
      else if c = d then
        (r.leaving { r.carry with delimiter := none }).emit (charsFrom 0 whole) .literal
          (done.length + 1)
      else r.emit (charsFrom 0 whole) .literal (done.length + 1)) := by
  have hmode : r.mode = .literal d := by simp [mode, hblock, hcode, hdelimiter, Mode.ofDelimiter]
  have hafter : (r.leaving { r.carry with delimiter := none }).mode = .code := by
    simp [mode, leaving, hcode, hblock, Mode.ofDelimiter]
  have hsound : r.Sound := by simp [Sound, hcode]
  have hescaped : (c = '\\' ∧ rest.head?.isSome = true) ↔ (c = '\\' ∧ rest ≠ []) := by simp
  by_cases hescape : c = '\\' ∧ rest ≠ []
  · obtain ⟨x, more, hrest⟩ := List.exists_cons_of_ne_nil hescape.2
    rw [if_pos (hescaped.2 hescape)]
    refine emit_two (m := .escaped d) (d := x) hwhole (by rw [hrest]; rfl) hindex rfl hsound ?_
      fun more => ?_
    · rw [hmode, Mode.step, if_pos hescape]
    · rw [hmode, Mode.step]
  rw [if_neg (mt hescaped.1 hescape)]
  by_cases hclose : c = d
  · rw [if_pos hclose]
    exact emit_one hwhole hindex rfl (by simp [Sound, leaving, hcode])
      (by rw [hmode, hafter, Mode.step, if_neg hescape, if_pos hclose])
  · rw [if_neg hclose]
    exact emit_one hwhole hindex rfl hsound
      (by rw [hmode, Mode.step, if_neg hescape, if_neg hclose])

/-- A turn makes no fault and takes some characters. -/
theorem Reader.turn_eq {r : Reader} (hwhole : whole = done ++ c :: rest)
    (hindex : r.index = done.length) (hsound : r.Sound) :
    r.Advances done (c :: rest) (r.turn (charsFrom 0 whole)) := by
  have hc : whole[done.length]? = some c := by simp [hwhole]
  have hnext : whole[done.length + 1]? = rest.head? := by
    rw [hwhole, List.getElem?_append_right (by omega), Nat.add_sub_cancel_left,
      List.getElem?_cons_succ, List.head?_eq_getElem?]
  rw [turn, hindex, charAt_eq hc, pure_bind, charAt?_eq, hnext]
  dsimp only
  by_cases hblock : r.carry.inBlockComment = true
  · rw [if_pos hblock]
    exact block_advances hwhole hindex hsound hblock
  rw [if_neg hblock]
  by_cases hcomment : r.inLineComment = true
  · have hmode : r.mode = .lineComment := by rw [mode, if_neg hblock, if_pos hcomment]
    rw [if_pos hcomment]
    exact emit_one hwhole hindex rfl hsound (by rw [hmode, Mode.step])
  rw [if_neg hcomment]
  have hcode : r.inLineComment = false := by simpa using hcomment
  cases hdelimiter : r.carry.delimiter with
  | none =>
    have hcarry : r.carry = .neutral := by
      rw [Carry.neutral, ← hdelimiter, ← Bool.eq_false_iff.2 hblock]
    exact turnInCode_eq hwhole hindex hcarry hcode
  | some d => exact literal_advances hwhole hindex (Bool.eq_false_iff.2 hblock) hcode hdelimiter

theorem Reader.Sound.carry_mode {r : Reader} (h : r.Sound) : r.mode.carry = r.carry := by
  obtain ⟨index, ⟨inBlockComment, delimiter⟩, inLineComment, cells⟩ := r
  cases inBlockComment with
  | true => rfl
  | false =>
    cases inLineComment with
    | true => exact (h rfl).symm
    | false => cases delimiter <;> rfl

theorem Reader.run_eq {r : Reader} (done rest : List Char) (n : Nat) (hn : rest.length ≤ n)
    (hwhole : whole = done ++ rest) (hindex : r.index = done.length) (hsound : r.Sound) :
    ∃ r', r.run (charsFrom 0 whole) = pure r' ∧
      r'.cells = r.cells ++ (classifyFrom done.reverse (Utf8.byteLength done) r.mode rest).1 ∧
      r'.carry = (classifyFrom done.reverse (Utf8.byteLength done) r.mode rest).2.carry := by
  -- a turn can take several characters, so the induction is on a bound for those that are left
  induction n generalizing done rest r with
  | zero =>
    obtain rfl := List.length_eq_zero_iff.1 (Nat.le_zero.1 hn)
    refine ⟨r, by rw [run, if_neg (by simp [hwhole, hindex])], ?_, hsound.carry_mode.symm⟩
    simp [classifyFrom]
  | succ n ih =>
    cases rest with
    | nil => exact ih done [] (Nat.zero_le n) hwhole hindex hsound
    | cons c rest =>
      obtain ⟨text, more, next, htext, hrest, hturn, hadvance⟩ := turn_eq hwhole hindex hsound
      obtain ⟨role, hcells, hpass⟩ := hadvance.cells
      have hlength := congrArg List.length hrest
      have hpos := List.length_pos_iff.2 htext
      rw [List.length_append, List.length_cons] at hlength
      obtain ⟨r', hrun, hcells', hcarry'⟩ := ih (done ++ text) more
        (by rw [List.length_cons] at hn; omega) (by rw [hwhole, hrest, List.append_assoc])
        hadvance.index hadvance.sound
      have hclass := classifyFrom_passes hpass (Utf8.byteLength done)
      rw [← hrest] at hclass
      rw [List.reverse_append, Utf8.byteLength_append] at hcells' hcarry'
      refine ⟨r', ?_, ?_, ?_⟩
      · rw [run, if_pos (by simp [hwhole, hindex])]
        split
        · rename_i next' hnext
          obtain rfl : next = next' := pure_eq_ok.1 (hturn ▸ hnext)
          exact hrun
        · rename_i e he
          cases hturn.symm.trans he
      · rw [hcells', hcells, hclass, List.append_assoc]
      · rw [hcarry', hclass]

theorem classify_eq (s : Carry) (whole : List Char) :
    classify s whole = pure (CodeFolding.classify s whole) := by
  obtain ⟨r, hrun, hcells, hcarry⟩ := Reader.run_eq (r := ⟨0, s, false, []⟩) [] whole
    whole.length (Nat.le_refl _) (List.nil_append whole).symm rfl nofun
  rw [classify, hrun, pure_bind, hcells, hcarry]
  rfl

end CodeFolding.Checked

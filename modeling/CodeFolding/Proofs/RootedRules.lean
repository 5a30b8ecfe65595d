import CodeFolding.Ignore
import CodeFolding.Proofs.DisplayedNames

/-!
What the rules of a scan say about paths below the root.

The rules of an ignore file see what stands behind the root. The standard rules see whole paths, so
they leave out all below a root that lies in a directory of a standard name, or has one. Otherwise
they too depend only on what stands behind the root.
-/

set_option autoImplicit false

namespace CodeFolding

open CodeFolding.Path (IsName slash)

namespace Glob

variable {crossing : Bool} {tokens : List GlobToken} {k : List UInt8 → Bool} {s : List UInt8}

theorem skipping_to_end (s : List UInt8) : skipping (fun _ => true) List.isEmpty s = true := by
  induction s with
  | nil => rfl
  | cons b s ih => rw [skipping, ih]; simp

theorem behindSlash_iff :
    behindSlash k s = true ↔ ∃ front rest, s = front ++ slash :: rest ∧ k rest = true := by
  induction s with
  | nil => simp [behindSlash]
  | cons b s ih =>
    rw [behindSlash, Bool.or_eq_true, Bool.and_eq_true, beq_iff_eq, ih]
    constructor
    · rintro (⟨rfl, hk⟩ | ⟨front, rest, rfl, hk⟩)
      · exact ⟨[], s, rfl, hk⟩
      · exact ⟨b :: front, rest, rfl, hk⟩
    · rintro ⟨_ | ⟨c, front⟩, rest, heq, hk⟩
      · obtain ⟨rfl, rfl⟩ := List.cons.inj heq
        exact .inl ⟨rfl, hk⟩
      · obtain ⟨rfl, rfl⟩ := List.cons.inj heq
        exact .inr ⟨front, rest, rfl, hk⟩

theorem matchTokens_chars (cs : List Char) :
    matchTokens crossing (cs.map .char ++ tokens) k s = true ↔
      ∃ rest, s = Utf8.encode cs ++ rest ∧ matchTokens crossing tokens k rest = true := by
  induction cs generalizing s with
  | nil => simp [Utf8.encode]
  | cons c cs ih =>
    rw [List.map_cons, List.cons_append, matchTokens, matchToken, Utf8.encode, List.flatMap_cons,
      ← Utf8.encode]
    constructor
    · intro h
      cases hafter : Path.bytesAfter? (String.utf8EncodeChar c) s with
      | none => rw [hafter] at h; cases h
      | some after =>
        rw [hafter] at h
        obtain ⟨rest, rfl, hrest⟩ := ih.1 h
        exact ⟨rest, by rw [Path.bytesAfter?_eq_some.1 hafter, List.append_assoc], hrest⟩
    · rintro ⟨rest, rfl, hrest⟩
      rw [List.append_assoc, Path.bytesAfter?_append]
      exact ih.2 ⟨rest, rfl, hrest⟩

theorem matchTokens_anyBelow : matchTokens crossing [.anyBelow] List.isEmpty s = true ↔
    ∃ rest, s = slash :: rest := by
  cases s with
  | nil => simp [matchTokens, matchToken, atSlash]
  | cons b s =>
    rw [matchTokens, matchToken, atSlash, Bool.and_eq_true, beq_iff_eq]
    constructor
    · rintro ⟨rfl, -⟩
      exact ⟨s, rfl⟩
    · rintro ⟨rest, heq⟩
      exact ⟨(List.cons.inj heq).1, skipping_to_end s⟩

end Glob

section Below

variable {p : Path} {names : List Name} {bytes : List UInt8}

/-- A path that is the working directory itself or does not stand for it without `./` in front. Of a
path such as `./.` the first `./` is taken off, and of a path below it the second one is not. -/
def Path.Direct (p : Path) : Prop :=
  p = .here ∨ (⟨IgnoreFile.withoutHere p.bytes⟩ : Path).same .here = false

namespace IgnoreFile

open CodeFolding.Path (dot splitSlashes joinSlashes)

theorem withoutHere_eq_self (h : (splitSlashes bytes).head? ≠ some [dot]) :
    withoutHere bytes = bytes := by
  rw [withoutHere]
  rintro rest rfl
  exact h rfl

theorem withoutSlash_eq_self (h : (splitSlashes bytes).head? ≠ some []) :
    withoutSlash bytes = bytes := by
  rw [withoutSlash]
  rintro rest rfl
  exact h rfl

theorem head?_splitSlashes_ne {part : Name} (hpart : Path.isFiller part = true) (hne : names ≠ [])
    (hn : ∀ name ∈ names, IsName name) :
    (splitSlashes (joinSlashes names)).head? ≠ some part := by
  rw [Path.splitSlashes_joinSlashes hne fun n hmem => (hn n hmem).no_slash]
  intro hhead
  have hname := (hn part (List.mem_of_head? hhead)).not_filler
  rw [hpart] at hname
  cases hname

/-- Taking `./` off a path below another one takes it off the other one. -/
theorem withoutHere_stem (hp : p.bytes ≠ []) (hhere : p ≠ .here) (rest : List UInt8) :
    withoutHere (p.stem ++ rest) = (⟨withoutHere p.bytes⟩ : Path).stem ++ rest := by
  obtain ⟨bytes⟩ := p
  by_cases hstart : ∃ after, bytes = dot :: slash :: after
  · obtain ⟨after, rfl⟩ := hstart
    have hstem : (⟨dot :: slash :: after⟩ : Path).stem = dot :: slash :: (⟨after⟩ : Path).stem := by
      cases after with
      | nil => rfl
      | cons b more => exact Path.stem_append [dot, slash] (List.cons_ne_nil b more)
    rw [hstem]
    rfl
  · have hself : withoutHere bytes = bytes := by
      rw [withoutHere]
      exact fun after h => hstart ⟨after, h⟩
    rw [hself, withoutHere]
    intro after h
    obtain ⟨tail, htail⟩ := Path.exists_tail ⟨bytes⟩
    rw [htail] at h
    match bytes, hp with
    | [b], _ =>
      obtain rfl : b = dot := (List.cons.inj h).1
      exact hhere rfl
    | b :: c :: more, _ =>
      obtain ⟨hb, hc⟩ : b = dot ∧ c = slash :=
        ⟨(List.cons.inj h).1, (List.cons.inj (List.cons.inj h).2).1⟩
      exact hstart ⟨more, by rw [hb, hc]⟩

theorem below_under (hp : p.bytes ≠ []) (hdirect : p.Direct) (hne : names ≠ [])
    (hn : ∀ name ∈ names, IsName name) :
    below ⟨withoutHere p.bytes⟩ (p.under names) = joinSlashes names := by
  have hslash := withoutSlash_eq_self (head?_splitSlashes_ne (by rfl) hne hn)
  rw [below, Path.bytes_under hne hn]
  obtain rfl | hsame := hdirect
  · rfl
  have hhere : p ≠ .here := by
    rintro rfl
    cases hsame
  rw [withoutHere_stem hp hhere, hsame, Bool.false_or]
  generalize (⟨withoutHere p.bytes⟩ : Path) = base
  -- without `./` the root `./` is empty, and the paths below it are the names alone
  by_cases hbase : base.bytes = []
  · have hstem : base.stem = [] := by rw [Path.stem, hbase]; rfl
    rw [hstem, hbase, List.nil_append]
    split
    · rfl
    · exact hslash
  · obtain ⟨front, hstem, hfront⟩ := Path.exists_stem hbase
    have hcontains : (base.stem ++ joinSlashes names).contains slash = true := by simp [hstem]
    rw [hcontains, hstem]
    -- a slash at the end of the root is taken off with it, else it is left in front of the names
    obtain hfront | hfront := hfront
    · rw [hfront, List.append_assoc, Path.bytesAfter?_append]
      rfl
    · rw [hfront, Path.bytesAfter?_append]
      exact hslash

theorem below_here (hne : names ≠ []) (hn : ∀ name ∈ names, IsName name) :
    below .here ⟨joinSlashes names⟩ = joinSlashes names :=
  withoutHere_eq_self (head?_splitSlashes_ne (by rfl) hne hn)

/-- What an ignore file says about a path below its root depends on what stands behind the root. -/
theorem ignores_under {f : IgnoreFile} (hroot : f.root = ⟨withoutHere p.bytes⟩) (hp : p.bytes ≠ [])
    (hdirect : p.Direct) (hne : names ≠ []) (hn : ∀ name ∈ names, IsName name) (isDir : Bool) :
    f.ignores isDir (p.under names) =
      ({ f with root := .here } : IgnoreFile).ignores isDir ⟨joinSlashes names⟩ := by
  rw [ignores, ignores, hroot, below_under hp hdirect hne hn, below_here hne hn]

end IgnoreFile

end Below

namespace IgnoreRules

open CodeFolding.Path (splitSlashes joinSlashes)

variable {name : String} {bytes : List UInt8} {g : Glob} {r : IgnoreRules} {p : Path}
  {names : List Name}

theorem spells_belowName (name : String) (bytes : List UInt8) :
    (belowName name).spells bytes = true ↔
      (∃ rest, bytes = Utf8.encode name.toList ++ slash :: rest) ∨
      ∃ front rest, bytes = front ++ slash :: (Utf8.encode name.toList ++ slash :: rest) := by
  have hspells : (belowName name).spells bytes =
      Glob.matchTokens true (belowName name).tokens List.isEmpty bytes := by
    rw [Glob.spells, belowName]
    cases name.toList <;> rfl
  have hbelow : ∀ s, Glob.matchTokens true (name.toList.map .char ++ [.anyBelow]) List.isEmpty s =
      true ↔ ∃ rest, s = Utf8.encode name.toList ++ slash :: rest := by
    intro s
    rw [Glob.matchTokens_chars]
    simp only [Glob.matchTokens_anyBelow]
    constructor
    · rintro ⟨_, rfl, rest, rfl⟩
      exact ⟨rest, rfl⟩
    · rintro ⟨rest, rfl⟩
      exact ⟨_, rfl, rest, rfl⟩
  rw [hspells, belowName, List.cons_append, Glob.matchTokens, Glob.matchToken, Bool.or_eq_true,
    hbelow, Glob.behindSlash_iff]
  refine or_congr_right ⟨?_, ?_⟩
  · rintro ⟨front, after, rfl, hafter⟩
    obtain ⟨rest, rfl⟩ := (hbelow after).1 hafter
    exact ⟨front, rest, rfl⟩
  · rintro ⟨front, rest, rfl⟩
    exact ⟨front, _, rfl, (hbelow _).2 ⟨rest, rfl⟩⟩

/-- A name that is read as a whole and that a path shows as it is. -/
structure Legible (name : String) : Prop where
  whole : Path.isFiller (Utf8.encode name.toList) = false
  no_slash : slash ∉ Utf8.encode name.toList
  unbroken : '\uFFFD' ∉ name.toList
  /-- Its rule does not depend on the last name of a path. -/
  shape : (belowName name).shape.readsName = false

theorem belowName_injective : Function.Injective belowName := by
  intro name other h
  have htokens := congrArg Glob.tokens h
  simp only [belowName, List.cons_append, List.cons.injEq, true_and, List.append_cancel_right_eq]
    at htokens
  exact String.toList_injective
    (List.map_injective_iff.2 (fun _ _ => GlobToken.char.inj) htokens)

theorem exists_belowName (h : g ∈ standardGlobs) : ∃ name, g = belowName name := by
  obtain ⟨name, -, rfl⟩ := List.mem_map.1 h
  exact ⟨name, rfl⟩

theorem legible_of_standard (h : belowName name ∈ standardGlobs) : Legible name := by
  rw [standardGlobs, List.mem_map_of_injective belowName_injective] at h
  simp only [List.mem_cons, List.not_mem_nil, or_false] at h
  rcases h with rfl | rfl | rfl | rfl | rfl <;> exact ⟨by decide, by decide, by decide, by decide⟩

/-- A standard rule leaves out the paths with its name in front of another one. -/
theorem accepts_belowName (h : belowName name ∈ standardGlobs) (bytes : List UInt8) :
    (belowName name).accepts (Path.shown bytes) = true ↔
      Utf8.encode name.toList ∈ (splitSlashes bytes).dropLast := by
  have hname := legible_of_standard h
  rw [Glob.accepts, hname.shape, Bool.false_and, Bool.not_false, Bool.true_and, spells_belowName,
    ← Path.mem_dropLast_splitSlashes hname.no_slash, Path.splitSlashes_shown, ← List.map_dropLast,
    Path.shown_mem_map_iff hname.unbroken]

/-- A standard rule leaves out a path below a root for a name of the root or for one behind it. -/
theorem accepts_under (h : belowName name ∈ standardGlobs) (hp : p.bytes ≠ []) (hne : names ≠ [])
    (hn : ∀ name ∈ names, IsName name) :
    (belowName name).accepts (Path.shown (p.under names).bytes) = true ↔
      Utf8.encode name.toList ∈ p.names ∨
        (belowName name).accepts (Path.shown (joinSlashes names)) = true := by
  have hwhole := (legible_of_standard h).whole
  obtain ⟨parts, -, hsplit, hfront⟩ := Path.splitSlashes_under hp hne hn
  have hjoin := Path.splitSlashes_joinSlashes hne fun n hmem => (hn n hmem).no_slash
  have hpart : Utf8.encode name.toList ∈ splitSlashes p.bytes ↔
      Utf8.encode name.toList ∈ parts := by
    obtain hfront | hfront := hfront
    · rw [hfront]
    · rw [hfront, List.mem_append, List.mem_singleton]
      exact or_iff_left fun hnil => absurd hwhole (by simp [hnil, Path.isFiller])
  rw [accepts_belowName h, accepts_belowName h, hsplit, hjoin,
    List.dropLast_append_of_ne_nil hne, List.mem_append, Path.mem_names_iff hp hwhole, hpart]

/-- Rules of a scan of a project that lies at a path, without patterns of its own. -/
structure Rooted (r : IgnoreRules) (p : Path) : Prop where
  patterns : r.patterns = []
  standard : r.standard ⊆ standardGlobs
  root : ∀ f, r.file = some f → f.root = ⟨IgnoreFile.withoutHere p.bytes⟩

/-- The rules with the ignore file in another root. -/
def moved (r : IgnoreRules) (root : Path) : IgnoreRules :=
  { r with file := r.file.map fun f => { f with root } }

/-- The rules leave out all that lies below a path: one of its names is that of build output or
dependencies, or the ignore file leaves out the path itself. -/
def HidesRoot (r : IgnoreRules) (p : Path) : Prop :=
  (∃ name, belowName name ∈ r.standard ∧ Utf8.encode name.toList ∈ p.names) ∨
    ∃ f, r.file = some f ∧ f.ignores true p = true

/-- Rules that leave the root in and are matched against what stands behind it. -/
structure ShowsRoot (r : IgnoreRules) (p : Path) : Prop extends r.Rooted p where
  direct : r.file = none ∨ p.Direct
  shown : ¬r.HidesRoot p

theorem ignores_iff (hr : r.patterns = []) {isDir : Bool} : r.ignores isDir p = true ↔
    (∃ g ∈ r.standard, g.accepts (Path.shown p.bytes) = true) ∨
      ∃ f, r.file = some f ∧ f.ignores isDir p = true := by
  simp only [ignores, hr, List.any_nil, Bool.or_false, Bool.or_eq_true, List.any_eq_true]
  refine or_congr_right ?_
  cases r.file <;> simp

@[simp] theorem moved_moved (r : IgnoreRules) (root root' : Path) :
    (r.moved root).moved root' = r.moved root' := by
  simp only [moved, Option.map_map, Function.comp_def]

/-- A name of the root leaves out all that lies below it. -/
theorem ignores_of_names (hr : r.Rooted p) (hp : p.bytes ≠ []) (hg : belowName name ∈ r.standard)
    (hname : Utf8.encode name.toList ∈ p.names) (hne : names ≠ []) (hn : ∀ n ∈ names, IsName n)
    (isDir : Bool) : r.ignores isDir (p.under names) = true :=
  (ignores_iff hr.patterns).2
    (.inl ⟨_, hg, (accepts_under (hr.standard hg) hp hne hn).2 (.inl hname)⟩)

/-- What rules that leave the root in say about a path below depends on what stands behind the
root. -/
theorem ignores_under (hr : r.ShowsRoot p) (hp : p.bytes ≠ []) (hne : names ≠ [])
    (hn : ∀ name ∈ names, IsName name) (isDir : Bool) :
    r.ignores isDir (p.under names) = (r.moved .here).ignores isDir ⟨joinSlashes names⟩ := by
  have hstandard : (∃ g ∈ r.standard, g.accepts (Path.shown (p.under names).bytes) = true) ↔
      ∃ g ∈ r.standard, g.accepts (Path.shown (joinSlashes names)) = true := by
    refine exists_congr fun g => and_congr_right fun hg => ?_
    obtain ⟨name, rfl⟩ := exists_belowName (hr.standard hg)
    have hname : Utf8.encode name.toList ∉ p.names := fun hmem => hr.shown (.inl ⟨name, hg, hmem⟩)
    rw [accepts_under (hr.standard hg) hp hne hn, or_iff_right hname]
  have hfile : (∃ f, r.file = some f ∧ f.ignores isDir (p.under names) = true) ↔
      ∃ f, (r.moved .here).file = some f ∧ f.ignores isDir ⟨joinSlashes names⟩ = true := by
    cases hf : r.file with
    | none => simp [moved, hf]
    | some f =>
      have hbelow := hr.direct.resolve_left (by simp [hf])
      simp [moved, hf, IgnoreFile.ignores_under (hr.root f hf) hp hbelow hne hn]
  rw [Bool.eq_iff_iff, ignores_iff hr.patterns,
    ignores_iff (show (r.moved .here).patterns = [] from hr.patterns), hstandard, hfile]
  rfl

/-- A root that the rules leave out has one of the two reasons. -/
theorem hidesRoot_of_ignores (hr : r.Rooted p) (hp : p.bytes ≠ []) (h : r.ignores true p = true) :
    r.HidesRoot p := by
  obtain ⟨g, hg, hacc⟩ | hfile := (ignores_iff hr.patterns).1 h
  · obtain ⟨name, rfl⟩ := exists_belowName (hr.standard hg)
    have hwhole := (legible_of_standard (hr.standard hg)).whole
    have hmem := List.dropLast_subset _ ((accepts_belowName (hr.standard hg) _).1 hacc)
    exact .inl ⟨name, hg, (Path.mem_names_iff hp hwhole).2 hmem⟩
  · exact .inr hfile

end IgnoreRules

end CodeFolding

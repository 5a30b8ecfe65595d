import CodeFolding.Proofs.Access
import CodeFolding.Proofs.Tallies

/-!
Counting files in machine words.

Every counter is a word of 64 bits, and so is every number of lines on the way to it. Counters only
grow, so the first sum that no word can hold leaves no tally, and if the tally of the files fits then
so does every sum before it.
-/

set_option autoImplicit false

namespace CodeFolding

namespace Checked

/-- The lines of some spans, added to a number of lines one after the other. -/
def spanLines (n : Nat) : List Span → Checked Nat
  | [] => return n
  | s :: rest => do spanLines (← size (n + (← size s.lineCount))) rest

def collapsedLines (r : Region) : Checked Nat :=
  if r.isImports then spanLines 0 r.spans else return r.collapsedLines

/-- Counts a region in the counter of its kind. -/
def countKind (t : Tally) (r : Region) : Checked Tally := do
  match r.kind with
  | .fn => return { t with fn := ← size (t.fn + 1) }
  | .struct => return { t with struct := ← size (t.struct + 1) }
  | .impl => return { t with impl := ← size (t.impl + 1) }
  | .enum => return { t with enum := ← size (t.enum + 1) }
  | .trait => return { t with trait := ← size (t.trait + 1) }
  | .mod => return { t with mod := ← size (t.mod + 1) }
  | .imports =>
    let importBlocks ← size (t.importBlocks + 1)
    let importStatements ← size (t.importStatements + r.statements.getD 0)
    return { t with importBlocks, importStatements }

def countRegion (t : Tally) (r : Region) : Checked Tally := do
  let regions ← size (t.regions + 1)
  let foldableLines ← size (t.foldableLines + (← collapsedLines r))
  countKind { t with regions, foldableLines } r

def countFile (t : Tally) (f : FileFolds) : Checked Tally := do
  let unreadable ← size (t.unreadable + if f.readable then 0 else 1)
  let lines ← size (t.lines + f.lineCount)
  f.regions.foldlM countRegion { t with unreadable, lines }

/-- Counts files one after the other. -/
def tally (files : List FileFolds) : Checked Tally := do
  files.foldlM countFile { Tally.zero with files := ← size files.length }

end Checked

/-- What a file counts besides itself. -/
def FileFolds.content (f : FileFolds) : Tally := { f.tally with files := 0 }

namespace Tally

/-- Every counter is a word of 64 bits. -/
structure Fits (t : Tally) : Prop where
  files : t.files < 1 <<< 64
  unreadable : t.unreadable < 1 <<< 64
  regions : t.regions < 1 <<< 64
  fn : t.fn < 1 <<< 64
  struct : t.struct < 1 <<< 64
  impl : t.impl < 1 <<< 64
  enum : t.enum < 1 <<< 64
  trait : t.trait < 1 <<< 64
  mod : t.mod < 1 <<< 64
  importBlocks : t.importBlocks < 1 <<< 64
  importStatements : t.importStatements < 1 <<< 64
  lines : t.lines < 1 <<< 64
  foldableLines : t.foldableLines < 1 <<< 64

theorem fits_zero : zero.Fits := by
  constructor <;> decide

/-- What is added to later has not outgrown its words before. -/
theorem Fits.left {s t : Tally} (h : (s.add t).Fits) : s.Fits :=
  have hleft : ∀ {m n : Nat}, m + n < 1 <<< 64 → m < 1 <<< 64 :=
    fun hsum => Nat.lt_of_le_of_lt (Nat.le_add_right _ _) hsum
  { files := hleft h.files
    unreadable := hleft h.unreadable
    regions := hleft h.regions
    fn := hleft h.fn
    struct := hleft h.struct
    impl := hleft h.impl
    enum := hleft h.enum
    trait := hleft h.trait
    mod := hleft h.mod
    importBlocks := hleft h.importBlocks
    importStatements := hleft h.importStatements
    lines := hleft h.lines
    foldableLines := hleft h.foldableLines }

/-- Regions count no files and no lines of files. -/
theorem scope_ofRegions (regions : List Region) : (ofRegions regions).files = 0 ∧
    (ofRegions regions).unreadable = 0 ∧ (ofRegions regions).lines = 0 := by
  induction regions with
  | nil => exact ⟨rfl, rfl, rfl⟩
  | cons r rest ih =>
    obtain ⟨hfiles, hunreadable, hlines⟩ := ih
    rw [ofRegions_cons, ofRegion]
    simp only [add, hfiles, hunreadable, hlines]
    cases r.kind <;> exact ⟨rfl, rfl, rfl⟩

theorem foldl_content (files : List FileFolds) :
    files.foldl (fun t f => t.add f.content) { zero with files := files.length } = ofFiles files := by
  have hcontent : ∀ files : List FileFolds,
      files.foldl (fun t f => t.add f.content) zero = { ofFiles files with files := 0 } := by
    intro files
    induction files with
    | nil => rfl
    | cons f rest ih =>
      rw [List.foldl_cons, zero_add, foldl_add, ih, ofFiles_cons]
      rfl
  rw [foldl_add, hcontent, ← files_ofFiles, add]
  simp only [zero, Nat.zero_add, Nat.add_zero]

end Tally

namespace Checked

variable {t t' : Tally} {r : Region} {n m : Nat}

theorem spanLines_eq_ok {spans : List Span} (hn : n < 1 <<< 64) :
    spanLines n spans = .ok m ↔ n + Span.totalLines spans = m ∧ m < 1 <<< 64 := by
  induction spans generalizing n with
  | nil =>
    rw [spanLines, pure_eq_ok, Span.totalLines, Nat.add_zero]
    refine ⟨?_, And.left⟩
    intro heq
    subst heq
    exact ⟨rfl, hn⟩
  | cons s rest ih =>
    simp only [spanLines, bind_eq_ok, size_eq_ok, Span.totalLines]
    constructor
    · intro hgiven
      obtain ⟨_, ⟨rfl, -⟩, _, ⟨rfl, hk⟩, hrest⟩ := hgiven
      rwa [ih hk, Nat.add_assoc] at hrest
    · intro hgiven
      obtain ⟨rfl, hfits⟩ := hgiven
      have hk : n + s.lineCount < 1 <<< 64 := by omega
      refine ⟨s.lineCount, ⟨rfl, by omega⟩, n + s.lineCount, ⟨rfl, hk⟩, (ih hk).2 ⟨?_, hfits⟩⟩
      exact Nat.add_assoc n s.lineCount _

theorem collapsedLines_eq_ok (h : n < 1 <<< 64) :
    collapsedLines r = .ok n ↔ r.collapsedLines = n := by
  cases hr : r.isImports with
  | false => rw [collapsedLines, if_neg (by simp [hr]), pure_eq_ok]
  | true =>
    have hlines : r.collapsedLines = Span.totalLines r.spans := if_pos hr
    rw [collapsedLines, if_pos hr, spanLines_eq_ok (by decide), Nat.zero_add, hlines]
    exact and_iff_left h

/-- A counter that is set to a word leaves a tally of words. -/
theorem set_eq_ok {set : Nat → Tally} {u : Tally} (hset : set n = u)
    (hfits : n < 1 <<< 64 ↔ u.Fits) :
    (do return set (← size n) : Checked Tally) = .ok t' ↔ u = t' ∧ t'.Fits := by
  subst hset
  simp only [bind_eq_ok, size_eq_ok, pure_eq_ok]
  constructor
  · intro hgiven
    obtain ⟨x, ⟨rfl, hx⟩, rfl⟩ := hgiven
    exact ⟨rfl, hfits.1 hx⟩
  · intro hgiven
    obtain ⟨rfl, hu⟩ := hgiven
    exact ⟨n, ⟨rfl, hfits.2 hu⟩, rfl⟩

/-- What a region counts by its kind. -/
theorem countKind_eq_ok (ht : t.Fits) : countKind t r = .ok t' ↔
    t.add { Tally.ofKind r.kind with
      importStatements := if r.isImports then r.statements.getD 0 else 0 } = t' ∧ t'.Fits := by
  rw [countKind, Region.isImports]
  cases r.kind with
  | fn => exact set_eq_ok rfl ⟨fun h => { ht with fn := h }, Tally.Fits.fn⟩
  | struct => exact set_eq_ok rfl ⟨fun h => { ht with struct := h }, Tally.Fits.struct⟩
  | impl => exact set_eq_ok rfl ⟨fun h => { ht with impl := h }, Tally.Fits.impl⟩
  | enum => exact set_eq_ok rfl ⟨fun h => { ht with enum := h }, Tally.Fits.enum⟩
  | trait => exact set_eq_ok rfl ⟨fun h => { ht with trait := h }, Tally.Fits.trait⟩
  | mod => exact set_eq_ok rfl ⟨fun h => { ht with mod := h }, Tally.Fits.mod⟩
  | imports =>
    simp only [bind_eq_ok, size_eq_ok, pure_eq_ok]
    constructor
    · intro hgiven
      obtain ⟨_, ⟨rfl, hblocks⟩, _, ⟨rfl, hstatements⟩, rfl⟩ := hgiven
      exact ⟨rfl, { ht with importBlocks := hblocks, importStatements := hstatements }⟩
    · intro hgiven
      obtain ⟨rfl, hfits⟩ := hgiven
      exact ⟨_, ⟨rfl, hfits.importBlocks⟩, _, ⟨rfl, hfits.importStatements⟩, rfl⟩

theorem countRegion_eq_ok (ht : t.Fits) :
    countRegion t r = .ok t' ↔ t.add (.ofRegion r) = t' ∧ t'.Fits := by
  have hcounted : t.regions + 1 < 1 <<< 64 → t.foldableLines + r.collapsedLines < 1 <<< 64 →
      Tally.Fits { t with
        regions := t.regions + 1
        foldableLines := t.foldableLines + r.collapsedLines } :=
    fun hregions hlines => { ht with regions := hregions, foldableLines := hlines }
  have hsum : Tally.add { t with
        regions := t.regions + 1
        foldableLines := t.foldableLines + r.collapsedLines }
      { Tally.ofKind r.kind with
        importStatements := if r.isImports then r.statements.getD 0 else 0 } =
      t.add (.ofRegion r) := by
    rw [Tally.ofRegion]
    cases r.kind <;> rfl
  simp only [countRegion, bind_eq_ok, size_eq_ok]
  constructor
  · intro hgiven
    obtain ⟨_, ⟨rfl, hregions⟩, c, hc, _, ⟨rfl, hlines⟩, hkind⟩ := hgiven
    obtain rfl := (collapsedLines_eq_ok (by omega)).1 hc
    rwa [countKind_eq_ok (hcounted hregions hlines), hsum] at hkind
  · intro hgiven
    obtain ⟨rfl, hfits⟩ := hgiven
    have hlines : t.foldableLines + r.collapsedLines < 1 <<< 64 := hfits.foldableLines
    have hregions : t.regions + 1 < 1 <<< 64 := hfits.regions
    exact ⟨_, ⟨rfl, hregions⟩, _, (collapsedLines_eq_ok (by omega)).2 rfl, _, ⟨rfl, hlines⟩,
      (countKind_eq_ok (hcounted hregions hlines)).2 ⟨hsum, hfits⟩⟩

/-- A loop that counts in words counts what the loop without bounds does, if that fits at the end. -/
theorem foldlM_eq_ok {α : Type} {step : Tally → α → Checked Tally} {count : α → Tally}
    (hstep : ∀ t x t', t.Fits → (step t x = .ok t' ↔ t.add (count x) = t' ∧ t'.Fits))
    (ht : t.Fits) (xs : List α) :
    xs.foldlM step t = .ok t' ↔ xs.foldl (fun t x => t.add (count x)) t = t' ∧ t'.Fits := by
  induction xs generalizing t with
  | nil =>
    rw [List.foldlM_nil, pure_eq_ok, List.foldl_nil]
    refine ⟨?_, And.left⟩
    intro heq
    subst heq
    exact ⟨rfl, ht⟩
  | cons x rest ih =>
    rw [List.foldlM_cons, bind_eq_ok, List.foldl_cons]
    constructor
    · intro hgiven
      obtain ⟨next, hnext, hrest⟩ := hgiven
      obtain ⟨rfl, hfits⟩ := (hstep t x next ht).1 hnext
      exact (ih hfits).1 hrest
    · intro hgiven
      obtain ⟨rfl, hfits⟩ := hgiven
      have hnext : (t.add (count x)).Fits := by
        rw [Tally.foldl_add] at hfits
        exact hfits.left
      exact ⟨_, (hstep t x _ ht).2 ⟨rfl, hnext⟩, (ih hnext).2 ⟨rfl, hfits⟩⟩

theorem countFile_eq_ok {f : FileFolds} (ht : t.Fits) :
    countFile t f = .ok t' ↔ t.add f.content = t' ∧ t'.Fits := by
  have hbegun : ∀ {unreadable lines : Nat}, unreadable < 1 <<< 64 → lines < 1 <<< 64 →
      Tally.Fits { t with unreadable, lines } :=
    fun hunreadable hlines => { ht with unreadable := hunreadable, lines := hlines }
  have hsum : f.regions.foldl (fun t r => t.add (.ofRegion r)) { t with
        unreadable := t.unreadable + if f.readable then 0 else 1
        lines := t.lines + f.lineCount } = t.add f.content := by
    obtain ⟨hfiles, hunreadable, hlines⟩ := Tally.scope_ofRegions f.regions
    rw [Tally.foldl_add, ← Tally.ofRegions, FileFolds.content, FileFolds.tally, Tally.add, Tally.add]
    simp only [hfiles, hunreadable, hlines, Nat.add_zero]
  have hregions : ∀ s x s', s.Fits → (countRegion s x = .ok s' ↔ s.add (.ofRegion x) = s' ∧ s'.Fits) :=
    fun _ _ _ => countRegion_eq_ok
  simp only [countFile, bind_eq_ok, size_eq_ok]
  constructor
  · intro hgiven
    obtain ⟨_, ⟨rfl, hunreadable⟩, _, ⟨rfl, hlines⟩, hrest⟩ := hgiven
    obtain ⟨hcounted, hfits⟩ := (foldlM_eq_ok hregions (hbegun hunreadable hlines) _).1 hrest
    exact ⟨hsum.symm.trans hcounted, hfits⟩
  · intro hgiven
    obtain ⟨rfl, hfits⟩ := hgiven
    exact ⟨_, ⟨rfl, hfits.unreadable⟩, _, ⟨rfl, hfits.lines⟩,
      (foldlM_eq_ok hregions (hbegun hfits.unreadable hfits.lines) _).2 ⟨hsum, hfits⟩⟩

/-- Files are counted in words exactly as long as all counters fit at the end. -/
theorem tally_eq_ok {files : List FileFolds} :
    tally files = .ok t ↔ Tally.ofFiles files = t ∧ t.Fits := by
  have hbegun : ∀ {n : Nat}, n < 1 <<< 64 → Tally.Fits { Tally.zero with files := n } :=
    fun hn => { Tally.fits_zero with files := hn }
  have hfiles : ∀ s x s', s.Fits → (countFile s x = .ok s' ↔ s.add x.content = s' ∧ s'.Fits) :=
    fun _ _ _ => countFile_eq_ok
  have hsum := Tally.foldl_content files
  simp only [tally, bind_eq_ok, size_eq_ok]
  constructor
  · intro hgiven
    obtain ⟨_, ⟨rfl, hlength⟩, hrest⟩ := hgiven
    obtain ⟨hcounted, hfits⟩ := (foldlM_eq_ok hfiles (hbegun hlength) _).1 hrest
    exact ⟨hsum.symm.trans hcounted, hfits⟩
  · intro hgiven
    obtain ⟨rfl, hfits⟩ := hgiven
    have hlength : files.length < 1 <<< 64 := Tally.files_ofFiles files ▸ hfits.files
    exact ⟨_, ⟨rfl, hlength⟩, (foldlM_eq_ok hfiles (hbegun hlength) _).2 ⟨hsum, hfits⟩⟩

end Checked

namespace Tally

/-- Tallies add up: two lists of files count together what each of them counts, in any order of the
files and of the regions in each of them. All regions are those of each kind together, and the
counter of a kind says how many regions of all files have it. If the regions of each file are those
of a text, the import statements are those that the files know of. Words of 64 bits count all this
exactly if it fits them, and make a fault if it does not. -/
theorem ofFiles_adds_up (files : List FileFolds) :
    (∀ t, Checked.tally files = .ok t ↔ ofFiles files = t ∧ t.Fits) ∧
    (∀ more, ofFiles (files ++ more) = (ofFiles files).add (ofFiles more)) ∧
    (∀ shuffled files', shuffled.Perm files → List.Forall₂ FileFolds.Reorders files' shuffled →
      ofFiles files' = ofFiles files) ∧
    (ofFiles files).regions = (ofFiles files).fn + (ofFiles files).struct + (ofFiles files).impl +
      (ofFiles files).enum + (ofFiles files).trait + (ofFiles files).mod +
      (ofFiles files).importBlocks ∧
    (∀ k, (ofFiles files).counter k = (files.flatMap (·.regions)).countP (·.kind = k)) ∧
    ((∀ f ∈ files, ∃ policy source, f.regions = identify policy source) →
      (ofFiles files).importStatements = (files.map (·.importCount)).sum) := by
  refine ⟨fun _ => Checked.tally_eq_ok, ofFiles_append files,
    fun shuffled files' hperm hreorders => ?_, balanced_ofFiles files, counter_ofFiles files,
    importStatements_ofFiles⟩
  rw [ofFiles_reordered hreorders, ofFiles_perm hperm]

/-- A file of a text. -/
def fileOf (text : List Char) : FileFolds :=
  ⟨.here, .here, identify .standard text, (splitLines text).length, true, none⟩

/-- Two files, one with imports and a function, in the other order and with their regions reversed. -/
theorem ofFiles_adds_up_reversed :
    let f := fileOf "use a;\nuse b;\nfn f() \x7b\n\x7d".toList
    let g := fileOf "mod m \x7b\nuse c;\n\x7d".toList
    let files' := [{ g with regions := g.regions.reverse }, { f with regions := f.regions.reverse }]
    [g, f].Perm [f, g] ∧ List.Forall₂ FileFolds.Reorders files' [g, f] ∧
      ofFiles files' = ofFiles [f, g] ∧
      (∀ h ∈ [f, g], ∃ policy source, h.regions = identify policy source) ∧
      (ofFiles [f, g]).importStatements = ([f, g].map (·.importCount)).sum := by
  intro f g files'
  have hperm : [g, f].Perm [f, g] := .swap f g []
  have hreorders : List.Forall₂ FileFolds.Reorders files' [g, f] :=
    .cons ⟨_, List.reverse_perm _, rfl⟩ (.cons ⟨_, List.reverse_perm _, rfl⟩ .nil)
  have hread : ∀ h ∈ [f, g], ∃ policy source, h.regions = identify policy source :=
    List.forall_mem_cons.2 ⟨⟨_, _, rfl⟩, List.forall_mem_singleton.2 ⟨_, _, rfl⟩⟩
  obtain ⟨-, -, hany, -, -, himports⟩ := ofFiles_adds_up [f, g]
  exact ⟨hperm, hreorders, hany _ _ hperm hreorders, hread, himports hread⟩

/-- No word holds the number of lines from 0 to the greatest word. -/
example : Checked.tally [⟨.here, .here, [.ofImports [⟨0, (1 <<< 64) - 1⟩] true], 1, true, none⟩] =
    .error .overflow := by decide

end Tally

end CodeFolding

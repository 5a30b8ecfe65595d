import CodeFolding.Proofs.LineMeasures
import CodeFolding.Proofs.Rounding
import CodeFolding.Proofs.ScannedFiles
import CodeFolding.Report

/-!
Foldable lines against all lines.

The foldable lines of a file are added up region by region. Counted line by line they are the pairs
of a line and a region that hides it, so a line inside a block that lies in another block counts
twice. Against the lines of the file they lack the lines that no region hides and have the further
regions of each line in excess. Their percentage is rounded twice, and still does not pass 100 where
they do not pass the lines.
-/

set_option autoImplicit false

namespace CodeFolding

namespace FileFolds

/-- The regions of a file that hide a line. -/
def hiders (f : FileFolds) (l : Nat) : List Region := f.regions.filter (·.hides l)

/-- The numbers of the lines of a file. -/
def lineNumbers (f : FileFolds) : List Nat := List.range' 1 f.lineCount

/-- The lines of a file that no region hides. -/
def openLines (f : FileFolds) : List Nat := f.lineNumbers.filter fun l => (f.hiders l).isEmpty

/-- Line by line, the regions that hide a line besides the first one that does. -/
def furtherHiders (f : FileFolds) : List Region := f.lineNumbers.flatMap fun l => (f.hiders l).tail

/-- Each region of a file hides as many of its lines as it collapses. -/
def Measured (f : FileFolds) : Prop :=
  ∀ r ∈ f.regions, f.lineNumbers.countP r.hides = r.collapsedLines

end FileFolds

section Pairs

variable {lines : List Nat} {regions : List Region}

theorem length_hiders_cons (r : Region) (regions : List Region) (lines : List Nat) :
    (lines.flatMap fun l => (r :: regions).filter (·.hides l)).length =
      lines.countP r.hides + (lines.flatMap fun l => regions.filter (·.hides l)).length := by
  induction lines with
  | nil => rfl
  | cons l rest ih =>
    rw [List.flatMap_cons, List.flatMap_cons, List.length_append, List.length_append, ih,
      List.countP_cons, List.filter_cons]
    split
    · rw [List.length_cons]
      omega
    · omega

/-- Counted by regions and counted by lines. -/
theorem foldableLines_ofRegions (h : ∀ r ∈ regions, lines.countP r.hides = r.collapsedLines) :
    (Tally.ofRegions regions).foldableLines =
      (lines.flatMap fun l => regions.filter (·.hides l)).length := by
  induction regions with
  | nil => simp [Tally.ofRegions, Tally.zero]
  | cons r rest ih =>
    obtain ⟨hr, hrest⟩ := List.forall_mem_cons.1 h
    rw [length_hiders_cons, hr, ← ih hrest, Tally.ofRegions_cons]
    rfl

theorem length_flatMap_add (hiders : Nat → List Region) (lines : List Nat) :
    (lines.flatMap hiders).length + (lines.filter fun l => (hiders l).isEmpty).length =
      lines.length + (lines.flatMap fun l => (hiders l).tail).length := by
  induction lines with
  | nil => rfl
  | cons l rest ih =>
    simp only [List.flatMap_cons, List.length_append, List.filter_cons, List.length_cons]
    cases hiders l with
    | nil =>
      simp only [List.isEmpty_nil, if_true, List.length_cons, List.tail_nil, List.length_nil]
      omega
    | cons r more =>
      simp only [List.isEmpty_cons, Bool.false_eq_true, if_false, List.length_cons, List.tail_cons]
      omega

end Pairs

/-- Without the open lines the foldable lines of a file exceed its lines by the further regions of
each line. -/
theorem FileFolds.Measured.balance {f : FileFolds} (h : f.Measured) :
    f.tally.foldableLines + f.openLines.length = f.tally.lines + f.furtherHiders.length := by
  have hbalance := length_flatMap_add f.hiders f.lineNumbers
  have hlines : f.lineNumbers.length = f.tally.lines := List.length_range'
  rw [hlines] at hbalance
  rw [← FileFolds.openLines, ← FileFolds.furtherHiders] at hbalance
  rw [← hbalance]
  exact congrArg (· + f.openLines.length) (foldableLines_ofRegions h)

theorem balance_ofFiles {files : List FileFolds} (h : ∀ f ∈ files, f.Measured) :
    (Tally.ofFiles files).foldableLines + (files.flatMap FileFolds.openLines).length =
      (Tally.ofFiles files).lines + (files.flatMap FileFolds.furtherHiders).length := by
  induction files with
  | nil => rfl
  | cons f rest ih =>
    obtain ⟨hf, hrest⟩ := List.forall_mem_cons.1 h
    have hfirst := hf.balance
    have hothers := ih hrest
    simp only [Tally.ofFiles_cons, Tally.add, List.flatMap_cons, List.length_append]
    omega

/-! ## The percentage -/

namespace Report

/-- A percentage is zero, or a number with all bits of its mantissa. -/
theorem foldablePercent_cases (t : Tally) : foldablePercent t = 0 ∨
    ∃ x : Normal, x.InRange ∧ foldablePercent t = x.float ∧
      (t.foldableLines.toUInt64 ≤ t.lines.toUInt64 → x ≤ .hundred) := by
  have hlines := t.lines.toUInt64.toNat_lt
  have hfoldable := t.foldableLines.toUInt64.toNat_lt
  rw [foldablePercent]
  generalize t.lines.toUInt64 = n at *
  generalize t.foldableLines.toUInt64 = m at *
  by_cases hn : n = 0
  · exact .inl (if_pos hn)
  have hnpos : 0 < n.toNat := UInt64.pos_iff_ne_zero.2 hn
  rw [if_neg hn, Normal.toFloat_word hnpos]
  by_cases hm : m = 0
  · left
    have hzero : (0 : UInt64).toFloat = 0 := by decide +kernel
    have hproduct : (0 : Float) * 100 = 0 := by decide +kernel
    rw [hm, hzero, Normal.zero_div_float (Normal.ofNat_inRange hnpos hlines), hproduct]
  · have hmpos : 0 < m.toNat := UInt64.pos_iff_ne_zero.2 hm
    obtain ⟨hrange, hvalue⟩ := Normal.float_percent hmpos hnpos hfoldable hlines
    rw [Normal.toFloat_word hmpos]
    refine .inr ⟨_, hrange, hvalue, fun hle => Normal.percent_le (Normal.ofNat_le hmpos ?_)⟩
    exact UInt64.le_iff_toNat_le.1 hle

theorem zero_le_foldablePercent (t : Tally) : 0 ≤ foldablePercent t := by
  rcases foldablePercent_cases t with hzero | ⟨x, hrange, hvalue, -⟩
  · rw [hzero]
    decide +kernel
  · rw [hvalue]
    exact Normal.zero_le_float hrange

theorem foldablePercent_le {t : Tally} (h : t.foldableLines.toUInt64 ≤ t.lines.toUInt64) :
    foldablePercent t ≤ 100 := by
  rcases foldablePercent_cases t with hzero | ⟨x, hrange, hvalue, hle⟩
  · rw [hzero]
    decide +kernel
  · rw [hvalue, ← Normal.hundred_float]
    exact Normal.float_le_float hrange ⟨by decide, by decide⟩ (hle h)

/-- A percentage is printed in tenths. -/
theorem percentText_eq (t : Tally) : ∃ tenths, percentText t = fixedDigits 1 tenths ∧
    (t.foldableLines.toUInt64 ≤ t.lines.toUInt64 → tenths ≤ 1000) := by
  rw [percentText]
  rcases foldablePercent_cases t with hzero | ⟨x, hrange, hvalue, hle⟩
  · have htext : (Binary.ofFloat 0).fixed 1 = fixedDigits 1 0 := by decide +kernel
    rw [hzero]
    exact ⟨0, htext, fun _ => Nat.zero_le _⟩
  · rw [hvalue]
    exact ⟨x.printed 1, Normal.fixed_float hrange 1, fun h => Normal.printed_le_hundred (hle h) 1⟩

theorem toUInt64_le {m n : Nat} (h : m ≤ n) (hn : n < 1 <<< 64) : m.toUInt64 ≤ n.toUInt64 := by
  have hm : m.toUInt64.toNat = m := UInt64.toNat_ofNat_of_lt' (Nat.lt_of_le_of_lt h hn)
  have hn : n.toUInt64.toNat = n := UInt64.toNat_ofNat_of_lt' hn
  rwa [UInt64.le_iff_toNat_le, hm, hn]

end Report

namespace Scan

variable {s : Settings} {r : IgnoreRules} {d : Disk} {p : Path} {f : FileFolds}

theorem measured_fileFolds (s : Settings) (d : Disk) (p : Path) : (fileFolds s d p).Measured := by
  cases h : ofFile s d p with
  | error e =>
    rw [fileFolds_of_error h]
    exact fun region hregion => absurd hregion List.not_mem_nil
  | ok f =>
    rw [fileFolds_of_ok h]
    rw [ofFile] at h
    cases htext : d.readText p with
    | error e => rw [htext] at h; cases h
    | ok text =>
      rw [htext] at h
      cases h
      exact fun region hregion => countP_hides hregion

theorem measured_of_mem_files (h : f ∈ files s r d) : f.Measured := by
  obtain ⟨p, -, rfl⟩ := List.mem_map.1 h
  exact measured_fileFolds s d p

/-- The foldable lines of a scan and the lines that no region hides are together all lines and, for
each line, the regions besides one that hide it. So there are more foldable lines than lines exactly
if regions hide lines again more often than lines are left open, which is not so if no line is hidden
by two regions. The percentage of a report is never below 0, and if there are no more foldable lines
than lines it is at most 100, as a number and in the tenths that are printed. -/
theorem foldableLines_le_iff (s : Settings) (r : IgnoreRules) (run : RunInfo) (d : Disk) :
    let report := survey s r run d
    let opened := (report.files.flatMap FileFolds.openLines).length
    let further := (report.files.flatMap FileFolds.furtherHiders).length
    report.tally.foldableLines + opened = report.tally.lines + further ∧
    (report.tally.foldableLines ≤ report.tally.lines ↔ further ≤ opened) ∧
    ((∀ f ∈ report.files, ∀ l, (f.hiders l).length ≤ 1) →
      report.tally.foldableLines ≤ report.tally.lines) ∧
    0 ≤ Report.foldablePercent report.tally ∧
    (∃ tenths, Report.percentText report.tally = fixedDigits 1 tenths) ∧
    (report.tally.foldableLines ≤ report.tally.lines → report.tally.lines < 1 <<< 64 →
      Report.foldablePercent report.tally ≤ 100 ∧
      ∃ tenths ≤ 1000, Report.percentText report.tally = fixedDigits 1 tenths) := by
  intro report opened further
  have hbalance : report.tally.foldableLines + opened = report.tally.lines + further :=
    balance_ofFiles fun f hf => measured_of_mem_files hf
  have hiff : report.tally.foldableLines ≤ report.tally.lines ↔ further ≤ opened := by omega
  obtain ⟨tenths, htext, hbound⟩ := Report.percentText_eq report.tally
  refine ⟨hbalance, hiff, fun hsingle => hiff.2 ?_, Report.zero_le_foldablePercent _,
    ⟨tenths, htext⟩, fun hle hword => ?_⟩
  · have hnone : report.files.flatMap FileFolds.furtherHiders = [] := by
      refine List.flatMap_eq_nil_iff.2 fun f hf => List.flatMap_eq_nil_iff.2 fun l _ => ?_
      have hlength := hsingle f hf l
      exact List.length_eq_zero_iff.1 (by rw [List.length_tail]; omega)
    simp only [further, hnone, List.length_nil, Nat.zero_le]
  · have hwords := Report.toUInt64_le hle hword
    exact ⟨Report.foldablePercent_le hwords, tenths, hbound hwords, htext⟩

theorem files_survey (s : Settings) (r : IgnoreRules) (run : RunInfo) (d : Disk) :
    (survey s r run d).files = files s r d := rfl

theorem tally_survey (s : Settings) (r : IgnoreRules) (run : RunInfo) (d : Disk) :
    (survey s r run d).tally = Tally.ofFiles (files s r d) := rfl

/-! ## Scans of one file -/

theorem files_of_single {text : List Char}
    (hfound : (d.filesBelow (prunes r) s.root).filter (selects s r d) = [p])
    (htext : d.readText p = .ok text) : files s r d = [textFolds s p text] := by
  rw [files, hfound, List.map_singleton, fileFolds, ofFile, htext]
  rfl

/-- A disk with one file in the working directory. -/
def oneFile (text : List Char) : Disk := ⟨.dir [(shortName, .file (Utf8.encode text))], []⟩

def onlyStandard : IgnoreRules := ⟨none, [], IgnoreRules.standardGlobs⟩

/-- The scan of one file with the standard settings. -/
def scanOf (text : List Char) : Survey :=
  survey (.standard .here) onlyStandard ⟨0, 0, [], []⟩ (oneFile text)

theorem files_scanOf (text : List Char)
    (hfound : ((oneFile text).filesBelow (prunes onlyStandard) .here).filter
      (selects (.standard .here) onlyStandard (oneFile text)) = [Path.here.under [shortName]])
    (htext : (oneFile text).readText (Path.here.under [shortName]) = .ok text) :
    (scanOf text).files = [textFolds (.standard .here) (Path.here.under [shortName]) text] := by
  rw [scanOf, files_survey, files_of_single hfound htext]

/-- A text without imports counts its blocks, in whatever order they end. -/
theorem tally_scanOf {text : List Char} {blocks : List Region}
    (hfiles : (scanOf text).files =
      [textFolds (.standard .here) (Path.here.under [shortName]) text])
    (hspans : importSpans (rowsOf text) = [])
    (hblocks : blockRegions .standard [] (rowsOf text) = blocks) :
    (scanOf text).tally =
      { Tally.ofRegions blocks with
        files := 1
        unreadable := 0
        lines := (splitLines text).length } := by
  have hperm := identify_perm .standard text
  rw [hspans, hblocks] at hperm
  have hregions : Tally.ofRegions (identify .standard text) = Tally.ofRegions blocks :=
    Tally.ofRegions_perm hperm
  rw [scanOf, files_survey] at hfiles
  rw [scanOf, tally_survey, hfiles, Tally.ofFiles_cons, FileFolds.tally]
  simp only [textFolds]
  have hpolicy : (Settings.standard .here).policy = .standard := rfl
  rw [hpolicy, hregions]
  rfl

def flatFunction : List Char := "fn f() \x7b\n1\n\x7d".toList

/-- A scan of a function of three lines: no line is hidden twice, and the percentage is at most 100. -/
theorem foldableLines_of_function :
    (∀ f ∈ (scanOf flatFunction).files, ∀ l, (f.hiders l).length ≤ 1) ∧
      (scanOf flatFunction).tally.foldableLines ≤ (scanOf flatFunction).tally.lines ∧
      (scanOf flatFunction).tally.lines < 1 <<< 64 ∧
      Report.foldablePercent (scanOf flatFunction).tally ≤ 100 := by
  have hfiles := files_scanOf flatFunction (by decide +kernel) rfl
  have hspans : importSpans (rowsOf flatFunction) = [] := by decide +kernel
  have hblocks : blockRegions .standard [] (rowsOf flatFunction) = [.block .fn 1 3 1 0 true] := by
    decide +kernel
  have hperm := identify_perm .standard flatFunction
  rw [hspans, hblocks] at hperm
  have hsingle : ∀ f ∈ (scanOf flatFunction).files, ∀ l, (f.hiders l).length ≤ 1 := by
    rw [hfiles, List.forall_mem_singleton]
    intro l
    exact Nat.le_trans (List.length_filter_le _ _) (Nat.le_of_eq hperm.length_eq)
  have hlines : (scanOf flatFunction).tally.lines < 1 <<< 64 := by
    rw [tally_scanOf hfiles hspans hblocks]
    decide +kernel
  obtain ⟨-, -, hfew, -, -, hbound⟩ :=
    foldableLines_le_iff (.standard .here) onlyStandard ⟨0, 0, [], []⟩ (oneFile flatFunction)
  have hle := hfew hsingle
  exact ⟨hsingle, hle, hlines, (hbound hle hlines).1⟩

def nestedModules : List Char :=
  "mod a \x7b\nmod b \x7b\nmod c \x7b\n\n\x7d\n\x7d\n\x7d".toList

/-- Of seven lines in three nested modules one is hidden three times and two are hidden twice. -/
theorem nested_lines_counted_again :
    IgnoreRules.ofSettings (oneFile nestedModules) (.standard .here) = .ok onlyStandard ∧
      (scanOf nestedModules).tally.lines = 7 ∧ (scanOf nestedModules).tally.foldableLines = 9 ∧
      Report.percentText (scanOf nestedModules).tally = "128.6".toList := by
  have hfiles := files_scanOf nestedModules (by decide +kernel) rfl
  have hspans : importSpans (rowsOf nestedModules) = [] := by decide +kernel
  have hblocks : blockRegions .standard [] (rowsOf nestedModules) =
      [.block .mod 3 5 3 2 false, .block .mod 2 6 2 1 false, .block .mod 1 7 1 0 false] := by
    decide +kernel
  refine ⟨rfl, ?_⟩
  rw [tally_scanOf hfiles hspans hblocks]
  decide +kernel

end Scan

end CodeFolding

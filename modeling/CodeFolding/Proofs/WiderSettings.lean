import CodeFolding.Proofs.ScannedFiles

/-!
Settings that select more.

With fewer patterns, more extensions, a larger limit of size and the dependencies if they were taken
before, no path is left out that was not left out before. So the rules can still be made, the walk
enters every directory that it entered, and the entries of a scan stay in their order, among more of
them. Each counter grows with the entries.
-/

set_option autoImplicit false

namespace CodeFolding

/-! ## Counters -/

namespace Tally

variable {s t u v : Tally}

/-- Counter by counter. -/
structure AtMost (s t : Tally) : Prop where
  files : s.files ≤ t.files
  unreadable : s.unreadable ≤ t.unreadable
  regions : s.regions ≤ t.regions
  fn : s.fn ≤ t.fn
  struct : s.struct ≤ t.struct
  impl : s.impl ≤ t.impl
  enum : s.enum ≤ t.enum
  trait : s.trait ≤ t.trait
  mod : s.mod ≤ t.mod
  importBlocks : s.importBlocks ≤ t.importBlocks
  importStatements : s.importStatements ≤ t.importStatements
  lines : s.lines ≤ t.lines
  foldableLines : s.foldableLines ≤ t.foldableLines

theorem atMost_zero (t : Tally) : zero.AtMost t := by
  constructor <;> exact Nat.zero_le _

theorem AtMost.add (h : s.AtMost t) (h' : u.AtMost v) : (s.add u).AtMost (t.add v) where
  files := Nat.add_le_add h.files h'.files
  unreadable := Nat.add_le_add h.unreadable h'.unreadable
  regions := Nat.add_le_add h.regions h'.regions
  fn := Nat.add_le_add h.fn h'.fn
  struct := Nat.add_le_add h.struct h'.struct
  impl := Nat.add_le_add h.impl h'.impl
  enum := Nat.add_le_add h.enum h'.enum
  trait := Nat.add_le_add h.trait h'.trait
  mod := Nat.add_le_add h.mod h'.mod
  importBlocks := Nat.add_le_add h.importBlocks h'.importBlocks
  importStatements := Nat.add_le_add h.importStatements h'.importStatements
  lines := Nat.add_le_add h.lines h'.lines
  foldableLines := Nat.add_le_add h.foldableLines h'.foldableLines

theorem atMost_refl (t : Tally) : t.AtMost t := by
  constructor <;> exact Nat.le_refl _

theorem ofFiles_atMost {files more : List FileFolds} (h : files.Sublist more) :
    (ofFiles files).AtMost (ofFiles more) := by
  induction h with
  | slnil => exact atMost_refl _
  | @cons files more f _ ih =>
    rw [ofFiles_cons, ← zero_add (ofFiles files)]
    exact (atMost_zero f.tally).add ih
  | cons_cons f _ ih =>
    rw [ofFiles_cons, ofFiles_cons]
    exact (atMost_refl f.tally).add ih

end Tally

/-! ## Rules -/

/-- Settings of the same root, ignore file and policy that leave out nothing more than others. -/
structure Settings.Widens (wide narrow : Settings) : Prop where
  root : wide.root = narrow.root
  ignoreFile : wide.ignoreFile = narrow.ignoreFile
  policy : wide.policy = narrow.policy
  patterns : wide.ignorePatterns ⊆ narrow.ignorePatterns
  extensions : narrow.extensions ⊆ wide.extensions
  size : narrow.maxFileSize ≤ wide.maxFileSize
  deps : narrow.includeDeps = true → wide.includeDeps = true

theorem Glob.depthFault?_eq_none {globs : List Glob} : Glob.depthFault? globs = none ↔
    ∀ g ∈ globs, g.shape = .extended ∨ g.shape = .general → g.isTooDeep = false := by
  rw [Glob.depthFault?]
  cases hfind : globs.find? (fun g => g.shape == .extended && g.isTooDeep) with
  | some g =>
    have hg := List.find?_some hfind
    have hmem := List.mem_of_find?_eq_some hfind
    simp only [Bool.and_eq_true, beq_iff_eq] at hg
    simp only [reduceCtorEq, false_iff, not_forall]
    exact ⟨g, hmem, .inl hg.1, by simp [hg.2]⟩
  | none =>
    rw [List.find?_eq_none] at hfind
    simp only [Option.map_eq_none_iff, List.findIdx?_eq_none_iff, List.mem_filter, beq_iff_eq,
      and_imp]
    constructor
    · rintro hgeneral g hg (hext | hgen)
      · simpa [hext] using hfind g hg
      · exact hgeneral g hg hgen
    · exact fun h g hg hgen => h g hg (.inr hgen)

namespace IgnoreRules

variable {disk : Disk} {wide narrow : Settings} {r r' : IgnoreRules} {globs : List Glob}
  {patterns : List (List Char)}

theorem mem_readPatterns (h : readPatterns patterns = .ok globs) {g : Glob} :
    g ∈ globs ↔ ∃ p ∈ patterns, Glob.read dialect p = .ok g := by
  induction patterns generalizing globs with
  | nil =>
    cases h
    simp
  | cons p rest ih =>
    rw [readPatterns] at h
    split at h
    · cases h
    · rename_i first hfirst
      cases hrest : readPatterns rest with
      | error e => rw [hrest] at h; cases h
      | ok others =>
        rw [hrest] at h
        cases h
        simp [ih hrest, hfirst, eq_comm]

theorem exists_readPatterns : (∃ globs, readPatterns patterns = .ok globs) ↔
    ∀ p ∈ patterns, ∃ g, Glob.read dialect p = .ok g := by
  induction patterns with
  | nil => exact iff_of_true ⟨[], rfl⟩ (by simp)
  | cons p rest ih =>
    rw [List.forall_mem_cons, ← ih, readPatterns]
    cases Glob.read dialect p with
    | error e => simp
    | ok g => cases readPatterns rest <;> simp [Except.map]

theorem settingsGlobs_eq_ok {s : Settings} : settingsGlobs s = .ok globs ↔
    readPatterns s.ignorePatterns = .ok globs ∧ Glob.depthFault? globs = none := by
  rw [settingsGlobs]
  cases readPatterns s.ignorePatterns with
  | error e => simp
  | ok found => cases hdepth : Glob.depthFault? found <;> simp <;> grind

theorem ofSettings_eq_ok {s : Settings} : ofSettings disk s = .ok r ↔
    readFile disk s = .ok r.file ∧ settingsGlobs s = .ok r.patterns ∧
      r.standard = if s.includeDeps then [] else standardGlobs := by
  rw [ofSettings]
  cases readFile disk s with
  | error e => simp
  | ok file =>
    cases settingsGlobs s with
    | error e => simp [Except.map]
    | ok patterns => simp [Except.map]; grind [IgnoreRules]

/-- With fewer patterns the rules can still be made, and of the patterns none is new. -/
theorem ofSettings_wider (h : wide.Widens narrow) (hr : ofSettings disk narrow = .ok r) :
    ∃ r', ofSettings disk wide = .ok r' ∧ r'.file = r.file ∧ r'.patterns ⊆ r.patterns ∧
      r'.standard ⊆ r.standard := by
  obtain ⟨hfile, hglobs, hstandard⟩ := ofSettings_eq_ok.1 hr
  obtain ⟨hread, hdepth⟩ := settingsGlobs_eq_ok.1 hglobs
  obtain ⟨fewer, hfewer⟩ := exists_readPatterns.2 fun p hp =>
    exists_readPatterns.1 ⟨_, hread⟩ p (h.patterns hp)
  have hsub : fewer ⊆ r.patterns := by
    intro g hg
    obtain ⟨p, hp, hpg⟩ := (mem_readPatterns hfewer).1 hg
    exact (mem_readPatterns hread).2 ⟨p, h.patterns hp, hpg⟩
  have hshallow : Glob.depthFault? fewer = none :=
    Glob.depthFault?_eq_none.2 fun g hg => Glob.depthFault?_eq_none.1 hdepth g (hsub hg)
  refine ⟨⟨r.file, fewer, if wide.includeDeps then [] else standardGlobs⟩, ?_, rfl, hsub, ?_⟩
  · refine ofSettings_eq_ok.2 ⟨?_, settingsGlobs_eq_ok.2 ⟨hfewer, hshallow⟩, rfl⟩
    rw [← hfile, readFile, readFile, h.root, h.ignoreFile]
  · rw [hstandard]
    cases hdeps : narrow.includeDeps with
    | true => simp [h.deps hdeps]
    | false =>
      cases wide.includeDeps with
      | true => exact List.nil_subset _
      | false => exact List.Subset.refl _

theorem ignores_of_subset (hfile : r'.file = r.file) (hpatterns : r'.patterns ⊆ r.patterns)
    (hstandard : r'.standard ⊆ r.standard) {isDir : Bool} {p : Path}
    (h : r'.ignores isDir p = true) : r.ignores isDir p = true := by
  simp only [ignores, Bool.or_eq_true, List.any_eq_true] at h ⊢
  rw [hfile] at h
  obtain (⟨g, hg, hacc⟩ | ⟨g, hg, hacc⟩) | hignored := h
  · exact .inl (.inl ⟨g, hstandard hg, hacc⟩)
  · exact .inl (.inr ⟨g, hpatterns hg, hacc⟩)
  · exact .inr hignored

end IgnoreRules

/-! ## Walks -/

namespace FileTree

variable {prune prune' : Path → Bool}

mutual

/-- A walk that prunes less finds all that it found, in the same order. -/
theorem walk_sublist (h : ∀ q, prune' q = true → prune q = true) (p : Path) :
    ∀ t, (walk prune p t).Sublist (walk prune' p t)
  | .file _ => List.Sublist.refl _
  | .dir entries => by
    rw [walk, walk]
    split
    · exact List.nil_sublist _
    · rename_i hp
      rw [if_neg fun hp' => hp (h p hp')]
      exact walkEntries_sublist h p entries

theorem walkEntries_sublist (h : ∀ q, prune' q = true → prune q = true) (p : Path) :
    ∀ entries, (walkEntries prune p entries).Sublist (walkEntries prune' p entries)
  | [] => .slnil
  | (name, t) :: rest => by
    rw [walkEntries, walkEntries]
    exact (walk_sublist h (p.join ⟨name⟩) t).append (walkEntries_sublist h p rest)

end

end FileTree

theorem Disk.filesBelow_sublist {prune prune' : Path → Bool}
    (h : ∀ q, prune' q = true → prune q = true) (d : Disk) (p : Path) :
    (d.filesBelow prune p).Sublist (d.filesBelow prune' p) := by
  rw [filesBelow, filesBelow]
  cases d.find p with
  | error e => exact .slnil
  | ok found => exact FileTree.walk_sublist h p found

namespace Scan

variable {disk : Disk} {wide narrow : Settings} {r r' : IgnoreRules} {p : Path}

theorem settings_select (h : wide.Widens narrow) (hp : narrow.selects p = true) :
    wide.selects p = true := by
  rw [Settings.selects] at hp ⊢
  split at hp
  · cases hp
  · simp only [List.any_eq_true] at hp ⊢
    obtain ⟨e, he, hsame⟩ := hp
    exact ⟨e, h.extensions he, hsame⟩

theorem tooLarge_of_wider (h : wide.Widens narrow) (hp : tooLarge wide disk p = true) :
    tooLarge narrow disk p = true := by
  rw [tooLarge] at hp ⊢
  split at hp
  · simp only [decide_eq_true_eq] at hp ⊢
    exact Nat.lt_of_le_of_lt h.size hp
  · cases hp

theorem fileFolds_wider (h : wide.Widens narrow) : fileFolds wide disk = fileFolds narrow disk := by
  funext p
  have htext : textFolds wide p = textFolds narrow p := by
    funext text
    rw [textFolds, textFolds, h.root, h.policy]
  simp only [fileFolds, ofFile, htext, h.root]

theorem files_sublist (h : wide.Widens narrow)
    (hr : ∀ isDir p, r'.ignores isDir p = true → r.ignores isDir p = true) :
    (files narrow r disk).Sublist (files wide r' disk) := by
  have hprune : ∀ p, prunes r' p = true → prunes r p = true := by
    intro p hp
    simp only [prunes, Bool.or_eq_true] at hp ⊢
    exact hp.imp_left (hr true p)
  have hselect : ∀ p, selects narrow r disk p = true → selects wide r' disk p = true := by
    intro p hp
    simp only [selects, Bool.and_eq_true, Bool.not_eq_true', Bool.eq_false_iff] at hp ⊢
    exact ⟨⟨fun hig => hp.1.1 (hr false p hig), settings_select h hp.1.2⟩,
      fun hlarge => hp.2 (tooLarge_of_wider h hlarge)⟩
  rw [files, files, fileFolds_wider h, h.root]
  exact (((Disk.filesBelow_sublist hprune disk narrow.root).filter _).trans
    (List.monotone_filter_right _ hselect)).map _

/-- A scan with wider settings can be made if one with the narrower settings can. It has all entries
of the narrower scan, in their order, and each of its counters is at least as large. -/
theorem survey_grows {narrow wide : Settings} (h : wide.Widens narrow) {disk : Disk}
    {r : IgnoreRules} (hr : IgnoreRules.ofSettings disk narrow = .ok r) (run run' : RunInfo) :
    ∃ r', IgnoreRules.ofSettings disk wide = .ok r' ∧
      (survey narrow r run disk).files.Sublist (survey wide r' run' disk).files ∧
      (survey narrow r run disk).tally.AtMost (survey wide r' run' disk).tally := by
  obtain ⟨r', hr', hfile, hpatterns, hstandard⟩ := IgnoreRules.ofSettings_wider h hr
  have hfiles : (files narrow r disk).Sublist (files wide r' disk) :=
    files_sublist h fun _ _ => IgnoreRules.ignores_of_subset hfile hpatterns hstandard
  exact ⟨r', hr', hfiles, Tally.ofFiles_atMost hfiles⟩

def noHeaders : Settings :=
  { Settings.standard .here with ignorePatterns := ["*.h".toList], maxFileSize := 1 }

def withHeaders : Settings :=
  { Settings.standard .here with extensions := ["h".toList, "rs".toList], includeDeps := true }

theorem survey_grows_with_headers :
    let rules : IgnoreRules :=
      ⟨none, [⟨[.anyMany, .char '.', .char 'h'], true⟩], IgnoreRules.standardGlobs⟩
    withHeaders.Widens noHeaders ∧ IgnoreRules.ofSettings nested noHeaders = .ok rules ∧
      ∃ r', IgnoreRules.ofSettings nested withHeaders = .ok r' ∧
        (survey noHeaders rules ⟨0, 0, [], []⟩ nested).files.Sublist
          (survey withHeaders r' ⟨0, 0, [], []⟩ nested).files ∧
        (survey noHeaders rules ⟨0, 0, [], []⟩ nested).tally.AtMost
          (survey withHeaders r' ⟨0, 0, [], []⟩ nested).tally := by
  intro rules
  have hwidens : withHeaders.Widens noHeaders :=
    ⟨rfl, rfl, rfl, List.nil_subset _, by decide, by decide, by decide⟩
  have hrules : IgnoreRules.ofSettings nested noHeaders = .ok rules := rfl
  exact ⟨hwidens, hrules, survey_grows hwidens hrules ⟨0, 0, [], []⟩ ⟨0, 0, [], []⟩⟩

end Scan

end CodeFolding

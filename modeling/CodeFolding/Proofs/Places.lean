import CodeFolding.Proofs.RootedRules
import CodeFolding.Proofs.WiderSettings

/-!
Scans of one project at two places.

Where a directory lies shows in the paths of its files, and the standard rules see whole paths. A
name of build output or dependencies above the project makes them leave all of it out, and so does
an ignore file whose rules match the root. At places where neither is so the scans agree.
-/

set_option autoImplicit false

namespace CodeFolding

open CodeFolding.Path (IsName)

/-- The settings with another root. -/
def Settings.rootedAt (s : Settings) (root : Path) : Settings := { s with root := root }

/-- An entry without the path under which the file was reached. -/
def FileFolds.unplaced (f : FileFolds) : FileFolds := { f with location := f.path }

/-- The same directory at two paths. The paths of what it holds are too long at both or at none. -/
structure Copies (d : Disk) (p : Path) (e : Disk) (q : Path) (entries : List (Name × FileTree)) :
    Prop where
  sound : (FileTree.dir entries).Sound
  here : d.find p = .ok (.dir entries)
  there : e.find q = .ok (.dir entries)
  reach : ∀ names sub, (FileTree.dir entries).at? names = some sub →
    (p.under names).isTooLong = (q.under names).isTooLong

variable {d e : Disk} {p q : Path} {entries : List (Name × FileTree)} {s : Settings}
  {r r' : IgnoreRules}

namespace Copies

/-- An entry of the directory is found at both places alike, or at neither. -/
theorem find_join (h : Copies d p e q entries) {name : Name} (hn : IsName name) :
    d.find (p.join ⟨name⟩) = e.find (q.join ⟨name⟩) ∨
      (d.contains (p.join ⟨name⟩) = false ∧ e.contains (q.join ⟨name⟩) = false) := by
  cases hnamed : FileTree.named? name entries with
  | none =>
    refine .inr ⟨?_, ?_⟩
    · rw [Disk.contains, Disk.find_join h.here hn, hnamed]
      split <;> rfl
    · rw [Disk.contains, Disk.find_join h.there hn, hnamed]
      split <;> rfl
  | some sub =>
    have hlong : (p.join ⟨name⟩).isTooLong = (q.join ⟨name⟩).isTooLong :=
      h.reach [name] sub (by rw [FileTree.at?, hnamed]; rfl)
    exact .inl (by rw [Disk.find_join h.here hn, Disk.find_join h.there hn, hlong])

end Copies

namespace IgnoreRules

theorem readFile_eq_ok {file : Option IgnoreFile} {path : Path}
    (hpath : s.ignoreFile.getD (s.root.join fileName) = path) : readFile d s = .ok file ↔
      (d.contains path = false ∧ file = none) ∨
      (d.contains path = true ∧ ∃ rules, IgnoreFile.read d path = (rules, []) ∧
        Glob.depthFault? (rules.map (·.glob)) = none ∧
        file = some ⟨⟨IgnoreFile.withoutHere s.root.bytes⟩, rules⟩) := by
  rw [readFile, hpath]
  cases d.contains path with
  | false => simp [eq_comm]
  | true =>
    rcases IgnoreFile.read d path with ⟨rules, faults⟩
    cases faults with
    | cons fault more => simp
    | nil =>
      cases hdepth : Glob.depthFault? (rules.map (·.glob)) <;> simp [hdepth, eq_comm]

theorem path_rootedAt (hnone : s.ignoreFile = none) (p : Path) :
    (s.rootedAt p).ignoreFile.getD ((s.rootedAt p).root.join fileName) = p.join fileName := by
  rw [show (s.rootedAt p).ignoreFile = none from hnone]
  rfl

theorem rooted_of_ofSettings (hpatterns : s.ignorePatterns = [])
    (hr : ofSettings d (s.rootedAt p) = .ok r) : r.Rooted p := by
  obtain ⟨hfile, hglobs, hstandard⟩ := ofSettings_eq_ok.1 hr
  refine ⟨?_, ?_, fun f hf => ?_⟩
  · rw [settingsGlobs, show (s.rootedAt p).ignorePatterns = [] from hpatterns] at hglobs
    exact (Except.ok.inj hglobs).symm
  · rw [hstandard]
    split
    · exact List.nil_subset _
    · exact List.Subset.refl _
  · rw [hf] at hfile
    obtain ⟨-, hnone⟩ | ⟨-, rules, -, -, hsome⟩ := (readFile_eq_ok rfl).1 hfile
    · cases hnone
    · cases hsome
      rfl

theorem readFile_moved (h : Copies d p e q entries) (hnone : s.ignoreFile = none)
    {file : Option IgnoreFile} (hread : readFile d (s.rootedAt p) = .ok file) :
    readFile e (s.rootedAt q) =
      .ok (file.map fun f => { f with root := ⟨IgnoreFile.withoutHere q.bytes⟩ }) := by
  have hfind := h.find_join (show IsName fileName.bytes by decide)
  rw [readFile_eq_ok (path_rootedAt hnone p)] at hread
  rw [readFile_eq_ok (path_rootedAt hnone q)]
  obtain ⟨habsent, rfl⟩ | ⟨hpresent, rules, hrules, hdepth, rfl⟩ := hread
  · refine .inl ⟨?_, rfl⟩
    obtain hfind | ⟨-, hthere⟩ := hfind
    · rw [Disk.contains, ← hfind]
      exact habsent
    · exact hthere
  · obtain hfind | ⟨hhere, -⟩ := hfind
    · refine .inr ⟨?_, rules, ?_, hdepth, rfl⟩
      · rw [Disk.contains, ← hfind]
        exact hpresent
      · rw [← hrules, IgnoreFile.read, IgnoreFile.read, Disk.readBytes, Disk.readBytes, ← hfind]
    · exact absurd hpresent (by simp [hhere])

/-- The rules of a scan can be made at the other place too, and there they are the same but for the
root of the ignore file. -/
theorem ofSettings_moved (h : Copies d p e q entries) (hnone : s.ignoreFile = none)
    (hr : ofSettings d (s.rootedAt p) = .ok r) :
    ofSettings e (s.rootedAt q) = .ok (r.moved ⟨IgnoreFile.withoutHere q.bytes⟩) := by
  obtain ⟨hfile, hglobs, hstandard⟩ := ofSettings_eq_ok.1 hr
  exact ofSettings_eq_ok.2 ⟨readFile_moved h hnone hfile, hglobs, hstandard⟩

end IgnoreRules

namespace Scan

theorem selects_under (hp : p.bytes ≠ []) (hq : q.bytes ≠ []) {names : List Name} (hne : names ≠ [])
    (hn : ∀ name ∈ names, IsName name) :
    (s.rootedAt p).selects (p.under names) = (s.rootedAt q).selects (q.under names) := by
  obtain ⟨init, last, rfl⟩ := (List.eq_nil_or_concat' names).resolve_left hne
  rw [Settings.selects, Settings.selects, Path.extension?_under hp hn, Path.extension?_under hq hn]
  rfl

variable {names : List Name} {bytes : List UInt8}

theorem readBytes_copies (h : Copies d p e q entries)
    (hat : (FileTree.dir entries).at? names = some (.file bytes)) :
    d.readBytes (p.under names) = e.readBytes (q.under names) := by
  have hn := (h.sound.at? hat).1
  rw [readBytes_under h.here hat hn, readBytes_under h.there hat hn, h.reach _ _ hat]

theorem unplaced_fileFolds (h : Copies d p e q entries)
    (hat : (FileTree.dir entries).at? names = some (.file bytes)) :
    (fileFolds (s.rootedAt p) d (p.under names)).unplaced =
      (fileFolds (s.rootedAt q) e (q.under names)).unplaced := by
  have hn := (h.sound.at? hat).1
  have hpath : relative (s.rootedAt p).root (p.under names) =
      relative (s.rootedAt q).root (q.under names) :=
    (relative_under (s := s.rootedAt p) (Disk.bytes_of_find h.here).1 hn).trans
      (relative_under (s := s.rootedAt q) (Disk.bytes_of_find h.there).1 hn).symm
  rw [fileFolds, fileFolds, ofFile, ofFile, Disk.readText, Disk.readText, ← readBytes_copies h hat]
  cases d.readBytes (p.under names) with
  | error fault => simp only [Except.bind, Except.map, FileFolds.unplaced, hpath]
  | ok bytes =>
    cases hread : Disk.textOf bytes with
    | error fault => simp only [Except.bind, Except.map, hread, FileFolds.unplaced, hpath]
    | ok text =>
      simp only [Except.bind, Except.map, hread, FileFolds.unplaced, textFolds, hpath]
      rfl

/-- Rules that leave both places in treat what lies below them alike. -/
theorem ignores_alike (h : Copies d p e q entries) (hr : r.ShowsRoot p) (hr' : r'.ShowsRoot q)
    (hmoved : r'.moved .here = r.moved .here) (hne : names ≠ []) (hn : ∀ name ∈ names, IsName name)
    (isDir : Bool) : r.ignores isDir (p.under names) = r'.ignores isDir (q.under names) := by
  rw [IgnoreRules.ignores_under hr (Disk.bytes_of_find h.here).1 hne hn,
    IgnoreRules.ignores_under hr' (Disk.bytes_of_find h.there).1 hne hn, hmoved]

theorem files_rootedAt {found : FileTree} (h : d.find p = .ok found) (s : Settings)
    (r : IgnoreRules) : files (s.rootedAt p) r d = ((FileTree.walk (prunes r) p found).filter
      (selects (s.rootedAt p) r d)).map (fileFolds (s.rootedAt p) d) := by
  rw [files, Disk.filesBelow, show d.find (s.rootedAt p).root = .ok found from h]
  rfl

theorem ne_nil_of_at? (hat : (FileTree.dir entries).at? names = some (.file bytes)) :
    names ≠ [] := by
  rintro rfl
  cases hat

theorem prunes_root (hr : r.ShowsRoot p) (h : d.find p = .ok (.dir entries)) :
    prunes r p = false := by
  obtain ⟨hp, -, hshort⟩ := Disk.bytes_of_find h
  have hkept := Bool.eq_false_iff.2 (mt (IgnoreRules.hidesRoot_of_ignores hr.toRooted hp) hr.shown)
  rw [prunes, hkept, hshort]
  rfl

theorem files_alike (h : Copies d p e q entries) (hr : r.ShowsRoot p) (hr' : r'.ShowsRoot q)
    (hmoved : r'.moved .here = r.moved .here) :
    (files (s.rootedAt p) r d).map FileFolds.unplaced =
      (files (s.rootedAt q) r' e).map FileFolds.unplaced := by
  have hp := (Disk.bytes_of_find h.here).1
  have hq := (Disk.bytes_of_find h.there).1
  rw [files_rootedAt h.here, files_rootedAt h.there, List.map_map, List.map_map]
  refine FileTree.walk_congr h.sound (fun names more hat => ?_) fun names bytes hat => ?_
  -- only for the root itself do the rules look at more than what stands behind it
  · by_cases hne : names = []
    · subst hne
      exact (prunes_root hr h.here).trans (prunes_root hr' h.there).symm
    · rw [prunes, prunes, h.reach _ _ hat,
        ignores_alike h hr hr' hmoved hne (h.sound.at? hat).1]
  · have hne := ne_nil_of_at? hat
    have hn := (h.sound.at? hat).1
    refine ⟨?_, unplaced_fileFolds h hat⟩
    rw [selects, selects, ignores_alike h hr hr' hmoved hne hn, selects_under hp hq hne hn, tooLarge,
      tooLarge, readBytes_copies h hat]
    rfl

theorem files_of_hidesRoot (hsound : (FileTree.dir entries).Sound)
    (hfind : d.find p = .ok (.dir entries)) (hr : r.Rooted p) (hhides : r.HidesRoot p) :
    files (s.rootedAt p) r d = [] := by
  have hp := (Disk.bytes_of_find hfind).1
  rw [files_rootedAt hfind, List.map_eq_nil_iff, List.filter_eq_nil_iff]
  intro path hpath
  obtain ⟨names, hreaches, rfl⟩ := (FileTree.mem_walk hsound).1 hpath
  obtain ⟨⟨bytes, hat⟩, hentered⟩ := hreaches
  have hne := ne_nil_of_at? hat
  have hn := (hsound.at? hat).1
  obtain ⟨name, hg, hname⟩ | hfile := hhides
  · rw [selects, IgnoreRules.ignores_of_names hr hp hg hname hne hn]
    exact Bool.false_ne_true
  · have hignored := (IgnoreRules.ignores_iff hr.patterns).2 (.inr hfile)
    have hroot := hentered 0 (List.length_pos_iff.2 hne)
    rw [List.take_zero, Path.under_nil, prunes, hignored] at hroot
    cases hroot

/-- The rules of a scan can be made at one place of a project if they can at another one. If they
leave out neither place, the scans give the same entries but for the paths under which the files were
reached. At a place that they leave out, a scan gives none. -/
theorem survey_of_copy (h : Copies d p e q entries) (hpatterns : s.ignorePatterns = [])
    (hnone : s.ignoreFile = none) (hr : IgnoreRules.ofSettings d (s.rootedAt p) = .ok r)
    (hdirect : r.file = none ∨ (p.Direct ∧ q.Direct)) (run run' : RunInfo) :
    ∃ r', IgnoreRules.ofSettings e (s.rootedAt q) = .ok r' ∧
      (¬r.HidesRoot p → ¬r'.HidesRoot q →
        (survey (s.rootedAt p) r run d).files.map FileFolds.unplaced =
          (survey (s.rootedAt q) r' run' e).files.map FileFolds.unplaced) ∧
      (r.HidesRoot p → (survey (s.rootedAt p) r run d).files = []) ∧
      (r'.HidesRoot q → (survey (s.rootedAt q) r' run' e).files = []) := by
  have hr' := IgnoreRules.ofSettings_moved h hnone hr
  have hrooted := IgnoreRules.rooted_of_ofSettings hpatterns hr
  have hrooted' := IgnoreRules.rooted_of_ofSettings hpatterns hr'
  refine ⟨_, hr', fun hhere hthere => ?_, ?_, ?_⟩
  · have hdirect' : (r.moved ⟨IgnoreFile.withoutHere q.bytes⟩).file = none ∨ q.Direct :=
      hdirect.imp (fun hfile => by rw [IgnoreRules.moved, hfile]; rfl) And.right
    exact files_alike h ⟨hrooted, hdirect.imp_right And.left, hhere⟩ ⟨hrooted', hdirect', hthere⟩
      (IgnoreRules.moved_moved r _ _)
  · exact files_of_hidesRoot h.sound h.here hrooted
  · exact files_of_hidesRoot h.sound h.there hrooted'

/-! ## A project and a vendored copy of it -/

def project : List (Name × FileTree) :=
  [(shortName, .file (Utf8.encode "fn f() \x7b\n1\n\x7d\n".toList))]

def ownPlace : Path := .ofText "proj".toList

def vendored : Path := .ofText "vendor/proj".toList

/-- A disk with the project at both places. -/
def twice : Disk :=
  ⟨.dir [(Utf8.encode "proj".toList, .dir project),
    (Utf8.encode "vendor".toList, .dir [(Utf8.encode "proj".toList, .dir project)])], []⟩

theorem copies_twice : Copies twice ownPlace twice vendored project := by
  refine ⟨.dir (by decide) (by decide) (List.forall_mem_singleton.2 (.file _)), rfl, rfl, ?_⟩
  intro names sub hat
  cases names with
  | nil => rfl
  | cons name rest =>
    obtain ⟨found, hmem, hat⟩ := (FileTree.at?_dir_cons (by decide)).1 hat
    obtain ⟨rfl, rfl⟩ := Prod.mk.inj (List.mem_singleton.1 hmem)
    cases rest with
    | nil => rfl
    | cons next more => cases hat

/-- With dependencies the scans of both places give the same entries. -/
theorem survey_of_copy_with_dependencies :
    let s : Settings := { Settings.standard .here with includeDeps := true }
    let r : IgnoreRules := ⟨none, [], []⟩
    Copies twice ownPlace twice vendored project ∧ s.ignorePatterns = [] ∧ s.ignoreFile = none ∧
      IgnoreRules.ofSettings twice (s.rootedAt ownPlace) = .ok r ∧
      IgnoreRules.ofSettings twice (s.rootedAt vendored) = .ok r ∧
      (survey (s.rootedAt ownPlace) r ⟨0, 0, [], []⟩ twice).files.map FileFolds.unplaced =
        (survey (s.rootedAt vendored) r ⟨0, 0, [], []⟩ twice).files.map FileFolds.unplaced := by
  intro s r
  have hr : IgnoreRules.ofSettings twice (s.rootedAt ownPlace) = .ok r := rfl
  have hr' : IgnoreRules.ofSettings twice (s.rootedAt vendored) = .ok r := rfl
  have hshown : ∀ p, ¬r.HidesRoot p := by
    rintro p (⟨name, hg, -⟩ | ⟨f, hf, -⟩)
    · cases hg
    · cases hf
  obtain ⟨other, hother, hsame, -, -⟩ :=
    survey_of_copy copies_twice (s := s) rfl rfl hr (.inl rfl) ⟨0, 0, [], []⟩ ⟨0, 0, [], []⟩
  obtain rfl : r = other := Except.ok.inj (hr'.symm.trans hother)
  exact ⟨copies_twice, rfl, rfl, hr, hr', hsame (hshown _) (hshown _)⟩

/-- With the standard settings the file of the project is not seen in the vendored copy. -/
theorem vendored_copy_unseen :
    let s := Settings.standard .here
    let r : IgnoreRules := ⟨none, [], IgnoreRules.standardGlobs⟩
    Copies twice ownPlace twice vendored project ∧
      IgnoreRules.ofSettings twice (s.rootedAt ownPlace) = .ok r ∧
      IgnoreRules.ofSettings twice (s.rootedAt vendored) = .ok r ∧
      (files (s.rootedAt ownPlace) r twice).map (·.path) = [⟨shortName⟩] ∧
      files (s.rootedAt vendored) r twice = [] := by
  refine ⟨copies_twice, rfl, rfl, ?_, ?_⟩
  · decide +kernel
  · decide +kernel

end Scan

end CodeFolding

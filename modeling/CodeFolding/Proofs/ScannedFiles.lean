import CodeFolding.Proofs.EncodedText
import CodeFolding.Proofs.Tallies
import CodeFolding.Proofs.Trees
import CodeFolding.Scan

/-!
The files that a scan reports.

A scan reports a file at its root or below if every directory on the way to it is entered and the
file passes the filters, and it reports each such file once. An entry is what scanning the single
file gives; where that fails, the entry says why and is empty otherwise. The size of a file counts
only if its path is one that the system takes.
-/

set_option autoImplicit false

namespace CodeFolding

namespace Scan

open CodeFolding.Path (IsName)
open FileTree (Reaches)

variable {s : Settings} {r : IgnoreRules} {d : Disk} {found : FileTree} {names : List Name}
  {bytes : List UInt8} {p : Path} {f : FileFolds}

/-- Names that lead from the root to a file that a scan is to report. -/
structure Selected (s : Settings) (r : IgnoreRules) (found : FileTree) (names : List Name)
    (bytes : List UInt8) : Prop where
  /-- They lead to a file with these bytes. -/
  file : found.at? names = some (.file bytes)
  /-- No directory on the way, the root included, is left out or cannot be opened. -/
  entered : ∀ k < names.length, r.ignores true (s.root.under (names.take k)) = false ∧
    (s.root.under (names.take k)).isTooLong = false
  kept : r.ignores false (s.root.under names) = false
  extension : s.selects (s.root.under names) = true
  /-- The size of a file counts if it can be had. -/
  size : bytes.length ≤ s.maxFileSize ∨ (s.root.under names).isTooLong = true

/-- An entry for the file to which some names lead from the root. -/
structure Reports (s : Settings) (d : Disk) (names : List Name) (bytes : List UInt8)
    (f : FileFolds) : Prop where
  location : f.location = s.root.under names
  path : f.path = ⟨Path.joinSlashes names⟩
  /-- The file can be opened, and its bytes are text in UTF-8. -/
  readable : f.readable = true ↔
    f.location.isTooLong = false ∧ ∃ text, bytes = Utf8.encode text
  scanned : f.readable = true → ofFile s d f.location = .ok f
  failed : f.readable = false → ∃ e, ofFile s d f.location = .error e ∧
    f.error = some e.message.toList ∧ f.regions = [] ∧ f.lineCount = 0

theorem relative_under (hroot : s.root.bytes ≠ []) (hn : ∀ name ∈ names, IsName name) :
    relative s.root (s.root.under names) = ⟨Path.joinSlashes names⟩ := by
  rw [relative, Path.relativeTo?_under hroot hn, Option.getD_some]

theorem readBytes_under (h : d.find p = .ok found) (hf : found.at? names = some (.file bytes))
    (hn : ∀ name ∈ names, IsName name) : d.readBytes (p.under names) =
      if (p.under names).isTooLong then .error .nameTooLong else .ok bytes := by
  rw [Disk.readBytes, Disk.find_under h hf hn]
  cases (p.under names).isTooLong <;> rfl

theorem tooLarge_under (h : d.find s.root = .ok found)
    (hf : found.at? names = some (.file bytes)) (hn : ∀ name ∈ names, IsName name) :
    tooLarge s d (s.root.under names) = false ↔
      bytes.length ≤ s.maxFileSize ∨ (s.root.under names).isTooLong = true := by
  rw [tooLarge, readBytes_under h hf hn]
  cases (s.root.under names).isTooLong <;> simp

/-- Selected are the files that the walk reaches and the filters let through. -/
theorem selected_iff (h : d.find s.root = .ok found) (hf : found.at? names = some (.file bytes))
    (hn : ∀ name ∈ names, IsName name) :
    Selected s r found names bytes ↔ FileTree.Entered (prunes r) s.root names ∧
      selects s r d (s.root.under names) = true := by
  simp only [selects, Bool.and_eq_true, Bool.not_eq_true', tooLarge_under h hf hn,
    FileTree.Entered, prunes, Bool.or_eq_false_iff]
  exact ⟨fun hs => ⟨hs.entered, ⟨hs.kept, hs.extension⟩, hs.size⟩,
    fun ⟨hentered, ⟨hkept, hext⟩, hsize⟩ => ⟨hf, hentered, hkept, hext, hsize⟩⟩

theorem fileFolds_of_ok (h : ofFile s d p = .ok f) : fileFolds s d p = f := by
  rw [fileFolds, h]

theorem fileFolds_of_error {e : FileFault} (h : ofFile s d p = .error e) :
    fileFolds s d p = ⟨relative s.root p, p, [], 0, false, some e.message.toList⟩ := by
  rw [fileFolds, h]

theorem location_fileFolds (s : Settings) (d : Disk) (p : Path) :
    (fileFolds s d p).location = p := by
  cases h : ofFile s d p with
  | error e => rw [fileFolds_of_error h]
  | ok f =>
    rw [fileFolds_of_ok h]
    rw [ofFile] at h
    cases htext : d.readText p with
    | error e => rw [htext] at h; cases h
    | ok text => rw [htext] at h; cases h; rfl

theorem map_location_files (s : Settings) (r : IgnoreRules) (d : Disk) :
    (files s r d).map (·.location) =
      (d.filesBelow (prunes r) s.root).filter (selects s r d) := by
  rw [files, List.map_map]
  exact List.map_id'' (location_fileFolds s d) _

theorem mem_filesBelow_selects (hd : d.tree.Sound) :
    p ∈ (d.filesBelow (prunes r) s.root).filter (selects s r d) ↔ ∃ found names bytes,
      d.find s.root = .ok found ∧ Selected s r found names bytes ∧ p = s.root.under names := by
  rw [List.mem_filter, Disk.mem_filesBelow hd]
  constructor
  · rintro ⟨⟨found, names, h, ⟨⟨bytes, hf⟩, hentered⟩, rfl⟩, hselects⟩
    have hn := ((Disk.sound_of_find hd h).at? hf).1
    exact ⟨found, names, bytes, h, (selected_iff h hf hn).2 ⟨hentered, hselects⟩, rfl⟩
  · rintro ⟨found, names, bytes, h, hs, rfl⟩
    have hn := ((Disk.sound_of_find hd h).at? hs.file).1
    obtain ⟨hentered, hselects⟩ := (selected_iff h hs.file hn).1 hs
    exact ⟨⟨found, names, h, ⟨⟨bytes, hs.file⟩, hentered⟩, rfl⟩, hselects⟩

theorem ofFile_under (h : d.find s.root = .ok found)
    (hf : found.at? names = some (.file bytes)) (hn : ∀ name ∈ names, IsName name) :
    ofFile s d (s.root.under names) =
      if (s.root.under names).isTooLong then .error .nameTooLong
      else (Disk.textOf bytes).map (textFolds s (s.root.under names)) := by
  rw [ofFile, Disk.readText, readBytes_under h hf hn]
  cases (s.root.under names).isTooLong <;> rfl

theorem reports_of_error {e : FileFault} (hroot : s.root.bytes ≠ [])
    (hn : ∀ name ∈ names, IsName name) (h : ofFile s d (s.root.under names) = .error e)
    (hbad : ¬((s.root.under names).isTooLong = false ∧ ∃ text, bytes = Utf8.encode text)) :
    Reports s d names bytes (fileFolds s d (s.root.under names)) := by
  rw [fileFolds_of_error h]
  exact ⟨rfl, relative_under hroot hn, iff_of_false Bool.false_ne_true hbad, nofun,
    fun _ => ⟨e, h, rfl, rfl, rfl⟩⟩

theorem reports_fileFolds (h : d.find s.root = .ok found)
    (hf : found.at? names = some (.file bytes)) (hn : ∀ name ∈ names, IsName name) :
    Reports s d names bytes (fileFolds s d (s.root.under names)) := by
  have hroot := (Disk.bytes_of_find h).1
  have hfile := ofFile_under h hf hn
  cases hlong : (s.root.under names).isTooLong with
  | true =>
    rw [hlong, if_pos rfl] at hfile
    exact reports_of_error hroot hn hfile (by simp [hlong])
  | false =>
    rw [hlong, if_neg Bool.false_ne_true, Disk.textOf] at hfile
    cases htext : Utf8.decode? bytes with
    | none =>
      rw [htext] at hfile
      refine reports_of_error hroot hn hfile fun ⟨_, text, hbytes⟩ => ?_
      rw [hbytes, Utf8.decode?_encode] at htext
      cases htext
    | some text =>
      rw [htext] at hfile
      rw [fileFolds_of_ok hfile]
      exact ⟨rfl, relative_under hroot hn,
        iff_of_true rfl ⟨hlong, text, Utf8.decode?_eq_some_iff.1 htext⟩, fun _ => hfile, nofun⟩

/-- A scan reports the selected files, each once, and counts those that it cannot read. -/
theorem survey_reports_selected (s : Settings) (r : IgnoreRules) (run : RunInfo) {d : Disk}
    (hd : d.tree.Sound) :
    let report := survey s r run d
    (report.files.map (·.location)).Nodup ∧
    (∀ p, p ∈ report.files.map (·.location) ↔ ∃ found names bytes,
      d.find s.root = .ok found ∧ Selected s r found names bytes ∧ p = s.root.under names) ∧
    (∀ f ∈ report.files, ∃ found names bytes,
      d.find s.root = .ok found ∧ Selected s r found names bytes ∧ Reports s d names bytes f) ∧
    report.tally.files = report.files.length ∧
    report.tally.unreadable = report.files.countP fun f => !f.readable := by
  have hlocations := map_location_files s r d
  refine ⟨?_, fun p => ?_, fun f hf => ?_, Tally.files_ofFiles _, Tally.unreadable_ofFiles _⟩
  · change ((files s r d).map (·.location)).Nodup
    rw [hlocations]
    exact (Disk.nodup_filesBelow hd).filter _
  · change p ∈ (files s r d).map (·.location) ↔ _
    rw [hlocations]
    exact mem_filesBelow_selects hd
  · obtain ⟨p, hp, rfl⟩ := List.mem_map.1 hf
    obtain ⟨found, names, bytes, h, hs, rfl⟩ := (mem_filesBelow_selects hd).1 hp
    have hn := ((Disk.sound_of_find hd h).at? hs.file).1
    exact ⟨found, names, bytes, h, hs, reports_fileFolds h hs.file hn⟩

/-- A disk with one file in a directory below the working directory. -/
def nested : Disk :=
  ⟨.dir [(Utf8.encode "src".toList, .dir [(Utf8.encode "a.rs".toList, .file [0xFF])])], []⟩

theorem sound_nested : nested.tree.Sound :=
  .dir (by decide) (by decide) (List.forall_mem_singleton.2
    (.dir (by decide) (by decide) (List.forall_mem_singleton.2 (.file _))))

/-- A file is reported from a directory below the root, with bytes that are no text. -/
theorem survey_reports_selected_nested :
    nested.tree.Sound ∧ Path.here.under [Utf8.encode "src".toList, Utf8.encode "a.rs".toList] ∈
      (survey (.standard .here) ⟨none, [], IgnoreRules.standardGlobs⟩ ⟨0, 0, [], []⟩ nested).files.map
        (·.location) := by
  refine ⟨sound_nested, ((survey_reports_selected _ _ _ sound_nested).2.1 _).2 ?_⟩
  refine ⟨nested.tree, _, [0xFF], rfl, ⟨rfl, ?_, ?_, ?_, ?_⟩, rfl⟩
  · decide +kernel
  · decide +kernel
  · decide +kernel
  · exact .inl (by decide)

/-! ## A path that is too long -/

def shortName : Name := Utf8.encode "a.rs".toList

/-- A disk with one file of two bytes in the working directory. -/
def twoBytes : Disk := ⟨.dir [(shortName, .file (Utf8.encode "fn".toList))], []⟩

/-- The working directory, with slashes behind it. -/
def slashed (n : Nat) : Path := ⟨Path.dot :: List.replicate n Path.slash⟩

/-- Settings for files of at most one byte. -/
def oneByte (root : Path) : Settings :=
  { Settings.standard root with includeDeps := true, maxFileSize := 1 }

theorem length_slashed (n : Nat) : (slashed n).bytes.length = n + 1 := by
  rw [slashed, List.length_cons, List.length_replicate]

theorem find_slashed {n : Nat} (h : n + 1 < 4096) :
    twoBytes.find (slashed n) = .ok twoBytes.tree := by
  have hnul : 0 ∉ (slashed n).bytes := by simp [slashed, List.mem_replicate, Path.dot, Path.slash]
  have hsplit : Path.splitSlashes (slashed n).bytes = [Path.dot] :: List.replicate n [] := by
    rw [slashed, Path.splitSlashes, if_neg (by decide), Path.splitSlashes_replicate]
    rfl
  have hlong : (slashed n).isTooLong = false := by
    rw [Path.isTooLong, length_slashed, decide_eq_false (by omega)]
  refine Disk.find_eq_ok.2 ⟨[], ?_, rfl⟩
  rw [Disk.locate_eq_follow (by simp [slashed]) hnul hlong, hsplit]
  exact Disk.follow_fillers rfl (by simp [List.mem_replicate, Path.isFiller])

theorem isTooLong_slashed_join {n : Nat} {name : Name} (hn : IsName name)
    (h : 4096 ≤ n + 1 + name.length) : ((slashed n).join ⟨name⟩).isTooLong = true := by
  have hstem := (slashed n).length_stem_le
  rw [length_slashed] at hstem
  simp only [Path.isTooLong, Path.bytes_join hn, List.length_append, decide_eq_true_eq]
  omega

theorem ofSettings_oneByte {root : Path} (h : (root.join IgnoreRules.fileName).isTooLong = true)
    (d : Disk) : IgnoreRules.ofSettings d (oneByte root) = .ok ⟨none, [], []⟩ := by
  have hread : IgnoreRules.readFile d (oneByte root) = .ok none :=
    if_neg (by simp [oneByte, Settings.standard, Disk.contains_of_isTooLong h])
  rw [IgnoreRules.ofSettings, hread]
  rfl

theorem selects_oneByte {root : Path} (h : root.bytes ≠ []) :
    (oneByte root).selects (root.under [shortName]) = true := by
  rw [Settings.selects, ← List.nil_append [shortName], Path.extension?_under h (by decide)]
  rfl

/-- A file is reported although it is too large, since its path is too long to have its size. -/
theorem too_large_reported :
    IgnoreRules.ofSettings twoBytes (oneByte (slashed 4091)) = .ok ⟨none, [], []⟩ ∧
    twoBytes.find (slashed 4091) = .ok twoBytes.tree ∧
    twoBytes.tree.at? [shortName] = some (.file (Utf8.encode "fn".toList)) ∧
    (oneByte (slashed 4091)).maxFileSize < (Utf8.encode "fn".toList).length ∧
    (slashed 4091).under [shortName] ∈
      (files (oneByte (slashed 4091)) ⟨none, [], []⟩ twoBytes).map (·.location) ∧
    ofFile (oneByte (slashed 4091)) twoBytes ((slashed 4091).under [shortName]) =
      .error .nameTooLong := by
  have hnames : ∀ name ∈ [shortName], IsName name := by decide
  have hfind : twoBytes.find (slashed 4091) = .ok twoBytes.tree := find_slashed (by decide)
  have hfile : twoBytes.tree.at? [shortName] = some (.file (Utf8.encode "fn".toList)) := rfl
  have hlong : ((slashed 4091).under [shortName]).isTooLong = true := by
    rw [Path.under_cons, Path.under_nil]
    exact isTooLong_slashed_join (by decide) (Nat.le_of_eq rfl)
  obtain ⟨hne, -, hshort⟩ := Disk.bytes_of_find hfind
  refine ⟨?_, hfind, hfile, by decide, ?_, ?_⟩
  · exact ofSettings_oneByte (isTooLong_slashed_join (by decide) (Nat.le_add_right 4096 6)) _
  · have hd : twoBytes.tree.Sound :=
      .dir (by decide) (by decide) (List.forall_mem_singleton.2 (.file _))
    rw [map_location_files, mem_filesBelow_selects hd]
    refine ⟨_, _, _, hfind, ⟨hfile, ?_, rfl, selects_oneByte hne, .inr hlong⟩, rfl⟩
    intro k hk
    obtain rfl : k = 0 := Nat.lt_one_iff.1 hk
    exact ⟨rfl, hshort⟩
  · rw [ofFile, Disk.readText, readBytes_under hfind hfile hnames, hlong]
    rfl

end Scan

end CodeFolding

import CodeFolding.Disk
import CodeFolding.Proofs.Paths
import Mathlib.Data.List.Nodup
import Mathlib.Data.List.Pairwise

/-!
Walks through trees of files.

In a sound tree the names of entries tell them apart, so a file is found by the names that lead to
it and by no other ones. A walk finds the files whose directories are all entered, each once. A path
of names below a path leads to what lies there, unless it is longer than the system takes.
-/

set_option autoImplicit false

namespace CodeFolding

open CodeFolding.Path (IsName)

namespace FileTree

variable {t sub found : FileTree} {entries : List (Name × FileTree)} {name : Name}
  {names : List Name} {p q : Path} {prune : Path → Bool}

/-- A tree as a disk holds it: the entries of a directory have proper names, each its own. -/
inductive Sound : FileTree → Prop where
  | file (bytes : List UInt8) : Sound (.file bytes)
  | dir {entries : List (Name × FileTree)} (named : ∀ e ∈ entries, IsName e.1)
      (distinct : (entries.map (·.1)).Nodup) (below : ∀ e ∈ entries, Sound e.2) :
      Sound (.dir entries)

theorem mem_of_named? (h : named? name entries = some t) : (name, t) ∈ entries := by
  obtain ⟨e, he, rfl⟩ := Option.map_eq_some_iff.1 h
  have hname : e.1 = name := by simpa using List.find?_some he
  rw [← hname]
  exact List.mem_of_find?_eq_some he

theorem named?_of_mem (h : (entries.map (·.1)).Nodup) (hm : (name, t) ∈ entries) :
    named? name entries = some t := by
  induction entries with
  | nil => cases hm
  | cons e rest ih =>
    rw [List.map_cons, List.nodup_cons] at h
    obtain rfl | hm := List.mem_cons.1 hm
    · simp [named?]
    · have hne : e.1 ≠ name := by
        rintro rfl
        exact h.1 (List.mem_map.2 ⟨_, hm, rfl⟩)
      rw [named?, List.find?_cons_of_neg (by simpa using hne)]
      exact ih h.2 hm

theorem at?_dir_cons {rest : List Name} (h : (entries.map (·.1)).Nodup) :
    at? (name :: rest) (.dir entries) = some t ↔
      ∃ sub, (name, sub) ∈ entries ∧ at? rest sub = some t := by
  rw [at?, Option.bind_eq_some_iff]
  exact exists_congr fun _ => and_congr_left fun _ => ⟨mem_of_named?, named?_of_mem h⟩

theorem at?_append (front names : List Name) (t : FileTree) :
    at? (front ++ names) t = (at? front t).bind (at? names) := by
  induction front generalizing t with
  | nil => rfl
  | cons name rest ih =>
    cases t with
    | file bytes => rfl
    | dir entries =>
      rw [List.cons_append, at?, at?, Option.bind_assoc]
      exact congrArg _ (funext ih)

theorem Sound.at? (h : t.Sound) (hs : at? names t = some sub) :
    (∀ name ∈ names, IsName name) ∧ sub.Sound := by
  induction names generalizing t with
  | nil =>
    obtain rfl : t = sub := Option.some.inj hs
    exact ⟨by simp, h⟩
  | cons name rest ih =>
    cases h with
    | file bytes => cases hs
    | dir named distinct below =>
      obtain ⟨next, hnext, hs⟩ := (at?_dir_cons distinct).1 hs
      obtain ⟨hnames, hsub⟩ := ih (below _ hnext) hs
      exact ⟨List.forall_mem_cons.2 ⟨named _ hnext, hnames⟩, hsub⟩

/-- No directory on the way down some names is pruned. -/
def Entered (prune : Path → Bool) (p : Path) (names : List Name) : Prop :=
  ∀ k < names.length, prune (p.under (names.take k)) = false

theorem entered_nil : Entered prune p [] := fun _ hk => absurd hk (Nat.not_lt_zero _)

theorem entered_cons {rest : List Name} :
    Entered prune p (name :: rest) ↔ prune p = false ∧ Entered prune (p.join ⟨name⟩) rest :=
  Nat.forall_lt_succ_left

theorem walkEntries_eq_flatMap (prune : Path → Bool) (p : Path) (entries : List (Name × FileTree)) :
    walkEntries prune p entries = entries.flatMap fun e => walk prune (p.join ⟨e.1⟩) e.2 := by
  induction entries with
  | nil => rfl
  | cons e rest ih => rw [walkEntries, ih, List.flatMap_cons]

/-- Names that lead through entered directories to a file. -/
def Reaches (prune : Path → Bool) (p : Path) (t : FileTree) (names : List Name) : Prop :=
  (∃ bytes, at? names t = some (.file bytes)) ∧ Entered prune p names

theorem reaches_file {bytes : List UInt8} : Reaches prune p (.file bytes) names ↔ names = [] := by
  constructor
  · rintro ⟨⟨_, h⟩, -⟩
    cases names with
    | nil => rfl
    | cons name rest => cases h
  · rintro rfl
    exact ⟨⟨bytes, rfl⟩, entered_nil⟩

theorem reaches_dir (h : (entries.map (·.1)).Nodup) :
    Reaches prune p (.dir entries) names ↔ prune p = false ∧
      ∃ e ∈ entries, ∃ rest, names = e.1 :: rest ∧ Reaches prune (p.join ⟨e.1⟩) e.2 rest := by
  constructor
  · rintro ⟨⟨bytes, hfile⟩, hentered⟩
    cases names with
    | nil => cases hfile
    | cons name rest =>
      obtain ⟨sub, hmem, hfile⟩ := (at?_dir_cons h).1 hfile
      obtain ⟨hp, hrest⟩ := entered_cons.1 hentered
      exact ⟨hp, (name, sub), hmem, rest, rfl, ⟨bytes, hfile⟩, hrest⟩
  · rintro ⟨hp, e, hmem, rest, rfl, ⟨bytes, hfile⟩, hrest⟩
    exact ⟨⟨bytes, (at?_dir_cons h).2 ⟨e.2, hmem, hfile⟩⟩, entered_cons.2 ⟨hp, hrest⟩⟩

theorem Reaches.isName (h : t.Sound) (hr : Reaches prune p t names) : ∀ name ∈ names, IsName name :=
  (h.at? hr.1.choose_spec).1

theorem mem_walk (h : t.Sound) :
    q ∈ walk prune p t ↔ ∃ names, Reaches prune p t names ∧ q = p.under names := by
  induction h generalizing p with
  | file bytes => simp [walk, reaches_file]
  | dir named distinct below ih =>
    simp only [reaches_dir distinct]
    rw [walk]
    split
    · simp_all
    · rename_i hp
      rw [walkEntries_eq_flatMap, List.mem_flatMap]
      constructor
      · rintro ⟨e, he, hq⟩
        obtain ⟨rest, hrest, rfl⟩ := (ih e he).1 hq
        exact ⟨e.1 :: rest, ⟨Bool.eq_false_iff.2 hp, e, he, rest, rfl, hrest⟩, rfl⟩
      · rintro ⟨_, ⟨-, e, he, rest, rfl, hrest⟩, rfl⟩
        exact ⟨e, he, (ih e he).2 ⟨rest, hrest, rfl⟩⟩

theorem nodup_walk (h : t.Sound) (hp : p.bytes ≠ []) : (walk prune p t).Nodup := by
  induction h generalizing p with
  | file bytes => simp [walk]
  | dir named distinct below ih =>
    rw [walk]
    split
    · exact List.nodup_nil
    · rw [walkEntries_eq_flatMap, List.nodup_flatMap]
      refine ⟨fun e he => ih e he (Path.bytes_join_ne_nil (named e he)), ?_⟩
      -- a path found below two entries has both their names at the same place
      refine (List.pairwise_map.1 distinct).imp_of_mem fun {e f} he hf hne q hq hq' => hne ?_
      obtain ⟨rest, hrest, rfl⟩ := (mem_walk (below e he)).1 hq
      obtain ⟨others, hothers, heq⟩ := (mem_walk (below f hf)).1 hq'
      have hnames := List.forall_mem_cons.2 ⟨named e he, hrest.isName (below e he)⟩
      have hfnames := List.forall_mem_cons.2 ⟨named f hf, hothers.isName (below f hf)⟩
      exact (List.cons.inj (Path.under_injective hp hnames hfnames heq)).1

/-- Two walks through one tree, from two paths, find the same where the paths that they meet are
treated alike. -/
theorem walk_congr {α : Type} {prune' keep keep' : Path → Bool} {result result' : Path → α}
    (h : t.Sound)
    (hprune : ∀ names entries, t.at? names = some (.dir entries) →
      prune (p.under names) = prune' (q.under names))
    (hfile : ∀ names bytes, t.at? names = some (.file bytes) →
      keep (p.under names) = keep' (q.under names) ∧
        result (p.under names) = result' (q.under names)) :
    ((walk prune p t).filter keep).map result = ((walk prune' q t).filter keep').map result' := by
  induction h generalizing p q with
  | file bytes =>
    obtain ⟨hkeep, hresult⟩ := hfile [] bytes rfl
    rw [Path.under_nil, Path.under_nil] at hkeep hresult
    rw [walk, walk, List.filter_singleton, List.filter_singleton, hkeep]
    cases keep' q <;> simp [hresult]
  | @dir entries named distinct below ih =>
    have hroot := hprune [] entries rfl
    rw [Path.under_nil, Path.under_nil] at hroot
    rw [walk, walk, hroot]
    split
    · rfl
    · rw [walkEntries_eq_flatMap, walkEntries_eq_flatMap, List.filter_flatMap, List.filter_flatMap,
        List.map_flatMap, List.map_flatMap]
      refine List.flatMap_congr fun e he => ih e he ?_ ?_
      · exact fun names more hat =>
          hprune (e.1 :: names) more ((at?_dir_cons distinct).2 ⟨e.2, he, hat⟩)
      · exact fun names bytes hat =>
          hfile (e.1 :: names) bytes ((at?_dir_cons distinct).2 ⟨e.2, he, hat⟩)

end FileTree

namespace Disk

open FileTree

variable {d : Disk} {t sub found : FileTree} {place names : List Name} {p q : Path}
  {prune : Path → Bool}

theorem follow_append (t : FileTree) (place parts more : List Name) :
    follow t place (parts ++ more) = (follow t place parts).bind fun q => follow t q more := by
  induction parts generalizing place with
  | nil => rfl
  | cons part rest ih =>
    rw [List.cons_append, follow, follow]
    split
    · rfl
    · rfl
    · split_ifs
      · exact ih place
      · exact ih place.dropLast
      · rfl
      · split
        · exact ih (place ++ [part])
        · rfl

theorem follow_names (h : t.at? place = some sub) (hs : sub.at? names = some found)
    (hn : ∀ name ∈ names, IsName name) : follow t place names = .ok (place ++ names) := by
  induction names generalizing place sub with
  | nil => simp [follow]
  | cons name rest ih =>
    obtain ⟨hname, hrest⟩ := List.forall_mem_cons.1 hn
    cases sub with
    | file bytes => cases hs
    | dir entries =>
      obtain ⟨next, hnext, hs⟩ := Option.bind_eq_some_iff.1 hs
      have hplace : t.at? (place ++ [name]) = some next := by
        rw [at?_append, h, Option.bind_some, FileTree.at?, hnext]
        rfl
      rw [follow, h]
      simp only [hname.not_filler, hname.not_above, Nat.not_lt.2 hname.short, hnext, if_false,
        Bool.false_eq_true]
      rw [ih hplace hs hrest, List.append_assoc, List.singleton_append]

theorem follow_fillers {parts : List Name} {entries : List (Name × FileTree)}
    (h : t.at? place = some (.dir entries)) (hf : ∀ part ∈ parts, Path.isFiller part = true) :
    follow t place parts = .ok place := by
  induction parts with
  | nil => rfl
  | cons part rest ih =>
    obtain ⟨hpart, hrest⟩ := List.forall_mem_cons.1 hf
    rw [follow, h]
    exact (if_pos hpart).trans (ih hrest)

def origin (d : Disk) (p : Path) : List Name :=
  if p.bytes.head? = some Path.slash then [] else d.place

/-- A slash in front counts as an empty part. -/
theorem locate_eq_follow (hne : p.bytes ≠ []) (hnul : 0 ∉ p.bytes) (hlong : p.isTooLong = false) :
    d.locate p = follow d.tree (d.origin p) (Path.splitSlashes p.bytes) := by
  obtain ⟨b, rest, hbytes⟩ := List.exists_cons_of_ne_nil hne
  have hstart : d.start p = if b = Path.slash then .ok ([], Path.splitSlashes rest)
      else .ok (d.place, Path.splitSlashes (b :: rest)) := by
    rw [start, if_neg (by simpa using hnul), if_neg (by simp [hlong]), hbytes]
  rw [locate, hstart, origin, hbytes]
  by_cases hb : b = Path.slash
  · obtain ⟨part, parts, hparts⟩ := List.exists_cons_of_ne_nil (Path.splitSlashes_ne_nil rest)
    have hsplit : Path.splitSlashes (b :: rest) = [] :: part :: parts := by
      rw [Path.splitSlashes, if_pos hb, hparts]
    rw [if_pos hb, hsplit, hparts, hb]
    change follow d.tree [] (part :: parts) = follow d.tree [] ([] :: part :: parts)
    cases htree : d.tree <;> simp [follow, FileTree.at?, Path.isFiller]
  · rw [if_neg hb]
    simp [hb, bind, Except.bind]

/-- A path that leads somewhere is one that the system takes. -/
theorem bytes_of_find (h : d.find p = .ok found) :
    p.bytes ≠ [] ∧ 0 ∉ p.bytes ∧ p.isTooLong = false := by
  by_contra hnot
  have hstart : ∃ e, d.start p = .error e := by
    rw [start]
    split_ifs with hnul hlong
    · exact ⟨_, rfl⟩
    · exact ⟨_, rfl⟩
    · obtain hnil : p.bytes = [] := by
        by_contra hne
        exact hnot ⟨hne, by simpa using hnul, by simpa using hlong⟩
      exact ⟨_, by rw [hnil]⟩
  obtain ⟨e, he⟩ := hstart
  rw [find, locate, he] at h
  cases h

theorem contains_of_isTooLong (h : p.isTooLong = true) : d.contains p = false := by
  rw [contains]
  cases hfind : d.find p with
  | error e => rfl
  | ok found => exact absurd h (by simp [(bytes_of_find hfind).2.2])

theorem find_eq_ok :
    d.find p = .ok found ↔ ∃ place, d.locate p = .ok place ∧ d.tree.at? place = some found := by
  rw [find]
  cases d.locate p with
  | error e => exact ⟨fun h => (nomatch h), fun ⟨_, h, _⟩ => (nomatch h)⟩
  | ok place =>
    change (d.tree.at? place).elim (Except.error FileFault.notFound) Except.ok = .ok found ↔ _
    cases htree : d.tree.at? place <;> simp [Option.elim, htree]

/-- A slash at the end leads no further. -/
theorem follow_of_trailing {parts : List Name} {place end' : List Name}
    (h : follow t place (parts ++ [[]]) = .ok end') : follow t place parts = .ok end' := by
  rw [follow_append] at h
  cases hparts : follow t place parts with
  | error e => rw [hparts] at h; cases h
  | ok last =>
    rw [hparts] at h
    change follow t last [[]] = .ok end' at h
    rw [follow] at h
    split at h
    · cases h
    · cases h
    · exact h

theorem origin_under (hp : p.bytes ≠ []) (hn : ∀ name ∈ names, IsName name) :
    d.origin (p.under names) = d.origin p := by
  rw [origin, origin, Path.head?_under hp hn]

/-- The parts of the path in front are followed first, then the names from there. -/
theorem locate_under (h : d.find p = .ok found) (hn : ∀ name ∈ names, IsName name) :
    ∃ place, d.tree.at? place = some found ∧ d.locate (p.under names) =
      if (p.under names).isTooLong then .error .nameTooLong else follow d.tree place names := by
  obtain ⟨hne, hnul, hlong⟩ := bytes_of_find h
  obtain ⟨place, hlocate, hplace⟩ := find_eq_ok.1 h
  refine ⟨place, hplace, ?_⟩
  by_cases hnames : names = []
  · subst hnames
    rw [Path.under_nil, hlong, hlocate]
    rfl
  have hnul' := Path.nul_notMem_under hnul hn
  split_ifs with hunder
  · rw [locate, start, if_neg (by simpa using hnul'), if_pos hunder]
    rfl
  obtain ⟨parts, -, hsplit, hfront⟩ := Path.splitSlashes_under hne hnames hn
  have hparts : follow d.tree (d.origin p) parts = .ok place := by
    rw [locate_eq_follow hne hnul hlong] at hlocate
    obtain hfront | hfront := hfront
    · rwa [hfront] at hlocate
    · rw [hfront] at hlocate
      exact follow_of_trailing hlocate
  rw [locate_eq_follow (Path.bytes_under_ne_nil hne hn) hnul' (by simpa using hunder), hsplit,
    origin_under hne hn, follow_append, hparts]
  rfl

theorem find_under (h : d.find p = .ok found) (hs : found.at? names = some sub)
    (hn : ∀ name ∈ names, IsName name) :
    d.find (p.under names) =
      if (p.under names).isTooLong then .error .nameTooLong else .ok sub := by
  obtain ⟨place, hplace, hlocate⟩ := locate_under h hn
  split_ifs at hlocate ⊢ with hunder
  · rw [find, hlocate]
    rfl
  · refine find_eq_ok.2 ⟨place ++ names, ?_, by rw [at?_append, hplace, Option.bind_some, hs]⟩
    rw [hlocate]
    exact follow_names hplace hs hn

/-- An entry of a directory, or none. -/
theorem find_join {entries : List (Name × FileTree)} {name : Name}
    (h : d.find p = .ok (.dir entries)) (hn : IsName name) : d.find (p.join ⟨name⟩) =
      if (p.join ⟨name⟩).isTooLong then .error .nameTooLong
      else (named? name entries).elim (.error .notFound) .ok := by
  cases hnamed : named? name entries with
  | some sub =>
    have hat : at? [name] (.dir entries) = some sub := by rw [at?, hnamed]; rfl
    exact find_under h hat (List.forall_mem_singleton.2 hn)
  | none =>
    obtain ⟨place, hplace, hlocate⟩ := locate_under h (List.forall_mem_singleton.2 hn)
    rw [find, ← Path.under_nil (p.join ⟨name⟩), ← Path.under_cons, hlocate]
    split_ifs
    · rfl
    · rw [follow, hplace]
      simp only [hn.not_filler, hn.not_above, Nat.not_lt.2 hn.short, hnamed, if_false,
        Bool.false_eq_true]
      rfl

theorem sound_of_find (hd : d.tree.Sound) (h : d.find p = .ok found) : found.Sound := by
  obtain ⟨_, -, hplace⟩ := find_eq_ok.1 h
  exact (hd.at? hplace).2

theorem mem_filesBelow (hd : d.tree.Sound) :
    q ∈ d.filesBelow prune p ↔
      ∃ found names, d.find p = .ok found ∧ Reaches prune p found names ∧ q = p.under names := by
  rw [filesBelow]
  cases h : d.find p with
  | error e => simp
  | ok found => simp [mem_walk (sound_of_find hd h)]

theorem nodup_filesBelow (hd : d.tree.Sound) : (d.filesBelow prune p).Nodup := by
  rw [filesBelow]
  cases h : d.find p with
  | error e => exact List.nodup_nil
  | ok found => exact nodup_walk (sound_of_find hd h) (bytes_of_find h).1

end Disk

end CodeFolding

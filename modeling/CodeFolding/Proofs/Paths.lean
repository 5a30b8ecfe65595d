import CodeFolding.Path
import Mathlib.Data.List.Basic

/-!
Paths of names below a path.

The names of entries are joined to a path one after the other. Cut at its slashes, the path has the
names as they are behind the parts of the path in front. So the front can be taken off again, and
other names lead to another path.
-/

set_option autoImplicit false

namespace CodeFolding

namespace Path

variable {p : Path} {names others parts : List Name} {part : Name} {front bytes rest : List UInt8}

theorem bytesAfter?_append (front rest : List UInt8) :
    bytesAfter? front (front ++ rest) = some rest := by
  induction front with
  | nil => rfl
  | cons b front ih => rw [List.cons_append, bytesAfter?, if_pos rfl, ih]

theorem bytesAfter?_eq_some : bytesAfter? front bytes = some rest ↔ bytes = front ++ rest := by
  constructor
  · intro h
    induction front generalizing bytes with
    | nil => exact Option.some.inj h
    | cons b front ih =>
      cases bytes with
      | nil => cases h
      | cons c bytes =>
        rw [bytesAfter?] at h
        split at h
        · rename_i hb
          rw [hb, ih h, List.cons_append]
        · cases h
  · rintro rfl
    exact bytesAfter?_append front rest

/-- A name that an entry of a directory can have. -/
structure IsName (name : Name) : Prop where
  not_filler : isFiller name = false
  not_above : name ≠ [dot, dot]
  no_slash : slash ∉ name
  no_nul : 0 ∉ name
  short : name.length ≤ 255

instance (name : Name) : Decidable (IsName name) :=
  decidable_of_iff (isFiller name = false ∧ name ≠ [dot, dot] ∧ slash ∉ name ∧ 0 ∉ name ∧
      name.length ≤ 255)
    ⟨fun ⟨hfiller, habove, hslash, hnul, hshort⟩ => ⟨hfiller, habove, hslash, hnul, hshort⟩,
      fun h => ⟨h.not_filler, h.not_above, h.no_slash, h.no_nul, h.short⟩⟩

theorem IsName.ne_nil {name : Name} (h : IsName name) : name ≠ [] := by
  rintro rfl
  exact absurd h.not_filler (by decide)

/-- The path at the end of some names below a path. -/
def under (p : Path) (names : List Name) : Path := names.foldl (fun q name => q.join ⟨name⟩) p

@[simp] theorem under_nil (p : Path) : p.under [] = p := rfl

@[simp] theorem under_cons (p : Path) (name : Name) (rest : List Name) :
    p.under (name :: rest) = (p.join ⟨name⟩).under rest := rfl

theorem splitSlashes_ne_nil (bytes : List UInt8) : splitSlashes bytes ≠ [] := by
  cases bytes with
  | nil => simp [splitSlashes]
  | cons b rest =>
    rw [splitSlashes]
    split
    · simp
    · split <;> simp

theorem splitSlashes_append (front rest : List UInt8) :
    splitSlashes (front ++ slash :: rest) = splitSlashes front ++ splitSlashes rest := by
  induction front with
  | nil => simp [splitSlashes]
  | cons b front ih =>
    rw [List.cons_append, splitSlashes, splitSlashes, ih]
    obtain ⟨part, parts, hparts⟩ := List.exists_cons_of_ne_nil (splitSlashes_ne_nil front)
    split <;> simp [hparts]

theorem splitSlashes_of_notMem {name : Name} (h : slash ∉ name) : splitSlashes name = [name] := by
  induction name with
  | nil => rfl
  | cons b rest ih =>
    rw [List.mem_cons, not_or] at h
    rw [splitSlashes, if_neg (Ne.symm h.1), ih h.2]

theorem splitSlashes_joinSlashes (hne : names ≠ []) (h : ∀ name ∈ names, slash ∉ name) :
    splitSlashes (joinSlashes names) = names := by
  induction names with
  | nil => exact absurd rfl hne
  | cons name rest ih =>
    have hname := splitSlashes_of_notMem (h name (by simp))
    cases rest with
    | nil => exact hname
    | cons next more =>
      rw [joinSlashes, splitSlashes_append, hname, ih (by simp) fun n hn => h n (by simp [hn])]
      · rfl
      · simp

theorem joinSlashes_cons (part : Name) (h : parts ≠ []) :
    joinSlashes (part :: parts) = part ++ slash :: joinSlashes parts := by
  cases parts with
  | nil => exact absurd rfl h
  | cons next more => rfl

theorem joinSlashes_splitSlashes (bytes : List UInt8) :
    joinSlashes (splitSlashes bytes) = bytes := by
  induction bytes with
  | nil => rfl
  | cons b rest ih =>
    rw [splitSlashes]
    split
    · rename_i hb
      rw [joinSlashes_cons _ (splitSlashes_ne_nil rest), ih, hb]
      rfl
    · obtain ⟨part, parts, hparts⟩ := List.exists_cons_of_ne_nil (splitSlashes_ne_nil rest)
      rw [hparts] at ih ⊢
      rw [← ih]
      cases parts <;> rfl

theorem slash_notMem_of_mem_splitSlashes {bytes : List UInt8} (h : part ∈ splitSlashes bytes) :
    slash ∉ part := by
  induction bytes generalizing part with
  | nil =>
    obtain rfl : part = [] := by simpa [splitSlashes] using h
    exact List.not_mem_nil
  | cons b rest ih =>
    obtain ⟨first, more, hparts⟩ := List.exists_cons_of_ne_nil (splitSlashes_ne_nil rest)
    rw [splitSlashes, hparts] at h
    rw [hparts] at ih
    split at h
    · obtain rfl | h := List.mem_cons.1 h
      · exact List.not_mem_nil
      · exact ih h
    · rename_i hb
      obtain rfl | h := List.mem_cons.1 h
      · exact List.not_mem_cons_of_ne_of_not_mem (Ne.symm hb) (ih List.mem_cons_self)
      · exact ih (List.mem_cons_of_mem _ h)

theorem joinSlashes_append {others : List Name} (h : parts ≠ []) (ho : others ≠ []) :
    joinSlashes (parts ++ others) = joinSlashes parts ++ slash :: joinSlashes others := by
  induction parts with
  | nil => exact absurd rfl h
  | cons part rest ih =>
    by_cases hrest : rest = []
    · subst hrest
      exact joinSlashes_cons part ho
    · rw [List.cons_append, joinSlashes_cons _ (by simp [ho]), ih hrest, joinSlashes_cons _ hrest,
        List.append_assoc, List.cons_append]

/-- A part that is not the last one has a slash behind it, and one in front unless it comes first. -/
theorem mem_dropLast_splitSlashes (h : slash ∉ part) :
    part ∈ (splitSlashes bytes).dropLast ↔ (∃ rest, bytes = part ++ slash :: rest) ∨
      ∃ front rest, bytes = front ++ slash :: (part ++ slash :: rest) := by
  have hpart : ∀ rest, splitSlashes (part ++ slash :: rest) = part :: splitSlashes rest := by
    intro rest
    rw [splitSlashes_append, splitSlashes_of_notMem h, List.singleton_append]
  constructor
  · intro hmem
    obtain ⟨init, last, hsplit⟩ :=
      (List.eq_nil_or_concat' _).resolve_left (splitSlashes_ne_nil bytes)
    rw [hsplit, List.dropLast_concat] at hmem
    obtain ⟨front, rest, rfl⟩ := List.append_of_mem hmem
    have hbytes := joinSlashes_splitSlashes bytes
    rw [hsplit, List.append_assoc, List.cons_append] at hbytes
    by_cases hfront : front = []
    · subst hfront
      rw [List.nil_append, joinSlashes_cons _ (by simp)] at hbytes
      exact .inl ⟨_, hbytes.symm⟩
    · rw [joinSlashes_append hfront (by simp), joinSlashes_cons _ (by simp)] at hbytes
      exact .inr ⟨_, _, hbytes.symm⟩
  · rintro (⟨rest, rfl⟩ | ⟨front, rest, rfl⟩)
    · rw [hpart, List.dropLast_cons_of_ne_nil (splitSlashes_ne_nil rest)]
      exact List.mem_cons_self
    · rw [splitSlashes_append, hpart, List.dropLast_append_of_ne_nil (by simp),
        List.dropLast_cons_of_ne_nil (splitSlashes_ne_nil rest)]
      simp

theorem splitSlashes_replicate (n : Nat) :
    splitSlashes (List.replicate n slash) = List.replicate (n + 1) [] := by
  induction n with
  | zero => rfl
  | succ n ih => rw [List.replicate_succ, splitSlashes, if_pos rfl, ih, ← List.replicate_succ]

theorem eq_nil_of_splitSlashes {bytes : List UInt8} (h : splitSlashes bytes = [[]]) : bytes = [] := by
  cases bytes with
  | nil => rfl
  | cons b rest =>
    rw [splitSlashes] at h
    split at h
    · exact absurd (List.cons.inj h).2 (splitSlashes_ne_nil rest)
    · split at h <;> simp at h

/-- The bytes of a path in front of a name that is joined to it. -/
def stem (p : Path) : List UInt8 :=
  if p.bytes = [] ∨ p.bytes.getLast? = some slash then p.bytes else p.bytes ++ [slash]

theorem stem_append (front : List UInt8) (h : rest ≠ []) :
    (⟨front ++ rest⟩ : Path).stem = front ++ (⟨rest⟩ : Path).stem := by
  simp only [stem, List.getLast?_append_of_ne_nil _ h, List.append_eq_nil_iff, h, and_false,
    false_or]
  split <;> simp

theorem exists_tail (p : Path) : ∃ tail, p.stem = p.bytes ++ tail := by
  rw [stem]
  split
  · exact ⟨[], by simp⟩
  · exact ⟨[slash], rfl⟩

theorem length_stem_le (p : Path) : p.bytes.length ≤ p.stem.length := by
  rw [stem]
  split <;> simp

theorem bytes_join {name : Name} (h : IsName name) : (p.join ⟨name⟩).bytes = p.stem ++ name := by
  have hhead : name.head? ≠ some slash := fun hs => h.no_slash (List.mem_of_head? hs)
  rw [join, if_neg hhead, stem]
  split <;> simp

theorem stem_join {name : Name} (h : IsName name) :
    (p.join ⟨name⟩).stem = p.stem ++ name ++ [slash] := by
  have hlast : (p.stem ++ name).getLast? ≠ some slash := by
    rw [List.getLast?_append_of_ne_nil _ h.ne_nil]
    exact fun hs => h.no_slash (List.mem_of_getLast? hs)
  rw [stem, bytes_join h, if_neg (not_or.2 ⟨by simp [h.ne_nil], hlast⟩)]

theorem bytes_under (hne : names ≠ []) (h : ∀ name ∈ names, IsName name) :
    (p.under names).bytes = p.stem ++ joinSlashes names := by
  induction names generalizing p with
  | nil => exact absurd rfl hne
  | cons name rest ih =>
    have hname := h name (by simp)
    cases rest with
    | nil => exact bytes_join hname
    | cons next more =>
      rw [under_cons, ih (by simp) fun n hn => h n (by simp [hn]), stem_join hname]
      simp [joinSlashes]

theorem bytes_join_ne_nil {name : Name} (h : IsName name) : (p.join ⟨name⟩).bytes ≠ [] := by
  simp [bytes_join h, h.ne_nil]

theorem head?_under (hp : p.bytes ≠ []) (h : ∀ name ∈ names, IsName name) :
    (p.under names).bytes.head? = p.bytes.head? := by
  induction names generalizing p with
  | nil => rfl
  | cons name rest ih =>
    obtain ⟨hname, hrest⟩ := List.forall_mem_cons.1 h
    obtain ⟨b, bytes, hbytes⟩ := List.exists_cons_of_ne_nil hp
    rw [under_cons, ih (bytes_join_ne_nil hname) hrest, bytes_join hname, stem, hbytes]
    split <;> rfl

theorem bytes_under_ne_nil (hp : p.bytes ≠ []) (h : ∀ name ∈ names, IsName name) :
    (p.under names).bytes ≠ [] := by
  intro hnil
  have hhead := head?_under hp h
  rw [hnil] at hhead
  exact hp (List.head?_eq_none_iff.1 hhead.symm)

theorem nul_notMem_under (hp : 0 ∉ p.bytes) (h : ∀ name ∈ names, IsName name) :
    0 ∉ (p.under names).bytes := by
  induction names generalizing p with
  | nil => exact hp
  | cons name rest ih =>
    obtain ⟨hname, hrest⟩ := List.forall_mem_cons.1 h
    have hstem : 0 ∉ p.stem := by
      rw [stem]
      split
      · exact hp
      · simpa [slash] using hp
    exact ih (by simp [bytes_join hname, hstem, hname.no_nul]) hrest

theorem exists_stem (hp : p.bytes ≠ []) :
    ∃ front, p.stem = front ++ [slash] ∧ (p.bytes = front ∨ p.bytes = front ++ [slash]) := by
  by_cases hlast : p.bytes.getLast? = some slash
  · obtain ⟨front, hfront⟩ := List.getLast?_eq_some_iff.1 hlast
    exact ⟨front, by rw [stem, if_pos (.inr hlast), hfront], .inr hfront⟩
  · exact ⟨p.bytes, by rw [stem, if_neg (not_or.2 ⟨hp, hlast⟩)], .inl rfl⟩

/-- The parts of the path in front stand before the names, but for an empty one at its end. -/
theorem splitSlashes_under (hp : p.bytes ≠ []) (hne : names ≠ []) (h : ∀ name ∈ names, IsName name) :
    ∃ parts, parts ≠ [] ∧ splitSlashes (p.under names).bytes = parts ++ names ∧
      (splitSlashes p.bytes = parts ∨ splitSlashes p.bytes = parts ++ [[]]) := by
  obtain ⟨front, hstem, hbytes⟩ := exists_stem hp
  refine ⟨splitSlashes front, splitSlashes_ne_nil front, ?_, ?_⟩
  · rw [bytes_under hne h, hstem, List.append_assoc, List.singleton_append, splitSlashes_append,
      splitSlashes_joinSlashes hne fun n hn => (h n hn).no_slash]
  · obtain hbytes | hbytes := hbytes
    · exact .inl (by rw [hbytes])
    · exact .inr (by rw [hbytes, splitSlashes_append]; rfl)

theorem split_of_splitSlashes {first : Name} {more : List Name}
    (h : splitSlashes p.bytes = first :: more) (hp : p.bytes ≠ []) :
    p.split = if first = [] then (.root, more)
      else if first = [dot] then (.here, more) else (.bare, first :: more) := by
  have hmore : first = [] → more ≠ [] := by
    rintro rfl rfl
    exact hp (eq_nil_of_splitSlashes h)
  rw [split, h]
  cases first with
  | nil =>
    obtain ⟨part, parts, rfl⟩ := List.exists_cons_of_ne_nil (hmore rfl)
    rfl
  | cons b rest => simp

/-- The names of a path are those of its parts that are no fillers. -/
theorem mem_names_iff (hp : p.bytes ≠ []) (h : isFiller part = false) :
    part ∈ p.names ↔ part ∈ splitSlashes p.bytes := by
  obtain ⟨first, more, hparts⟩ := List.exists_cons_of_ne_nil (splitSlashes_ne_nil p.bytes)
  obtain ⟨hnil, hdot⟩ : part ≠ [] ∧ part ≠ [dot] := by simpa [isFiller] using h
  rw [names, split_of_splitSlashes hparts hp, hparts]
  split_ifs with hfirst hhere
  · simp [hfirst, hnil, h]
  · simp [hhere, hdot, h]
  · simp [h]

theorem names_ne_nil_of_bare (hp : p.bytes ≠ []) (h : p.split.1 = .bare) : p.names ≠ [] := by
  obtain ⟨first, more, hparts⟩ := List.exists_cons_of_ne_nil (splitSlashes_ne_nil p.bytes)
  have hsplit := split_of_splitSlashes hparts hp
  rw [Path.names, hsplit]
  rw [hsplit] at h
  split at h
  · cases h
  · split at h
    · cases h
    · simp [isFiller, *]

/-- Names below a path keep its lead. -/
theorem split_under (hp : p.bytes ≠ []) (h : ∀ name ∈ names, IsName name) :
    ∃ parts, (p.under names).split = (p.split.1, parts ++ names) ∧
      p.names = parts.filter fun part => !isFiller part := by
  by_cases hne : names = []
  · subst hne
    exact ⟨p.split.2, by simp, rfl⟩
  obtain ⟨parts, hparts, hunder, hfront⟩ := splitSlashes_under hp hne h
  obtain ⟨first, more, rfl⟩ := List.exists_cons_of_ne_nil hparts
  have hsplit := split_of_splitSlashes hunder (bytes_under_ne_nil hp h)
  -- an empty part behind a last slash is a filler and leaves the names of the front as they are
  have hend : ∃ tail, splitSlashes p.bytes = first :: (more ++ tail) ∧ (tail = [] ∨ tail = [[]]) := by
    obtain hfront | hfront := hfront
    · exact ⟨[], by simpa using hfront, .inl rfl⟩
    · exact ⟨[[]], hfront, .inr rfl⟩
  obtain ⟨tail, htail, hfiller⟩ := hend
  have hnone : tail.filter (fun part => !isFiller part) = [] := by
    obtain rfl | rfl := hfiller <;> rfl
  rw [Path.names, split_of_splitSlashes htail hp, hsplit]
  by_cases hroot : first = []
  · exact ⟨more, by simp [hroot], by simp [hroot, hnone]⟩
  · by_cases hhere : first = [dot]
    · exact ⟨more, by simp [hhere], by simp [hhere, hnone]⟩
    · exact ⟨first :: more, by simp [hroot, hhere], by simp [hroot, hhere, hnone, List.filter_cons]⟩

theorem names_under (hp : p.bytes ≠ []) (h : ∀ name ∈ names, IsName name) :
    (p.under names).names = p.names ++ names := by
  obtain ⟨parts, hsplit, hnames⟩ := split_under hp h
  have hkept : names.filter (fun part => !isFiller part) = names :=
    List.filter_eq_self.2 fun n hn => by simp [(h n hn).not_filler]
  rw [Path.names, hsplit, List.filter_append, hkept, hnames]

/-- Fillers between the names do not count. -/
theorem partsAfter?_filter (parts rest : List Name) :
    (partsAfter? (parts.filter fun part => !isFiller part) (parts ++ rest)).map
      (·.dropWhile isFiller) = some (rest.dropWhile isFiller) := by
  induction parts with
  | nil => rfl
  | cons part parts ih =>
    cases hfiller : isFiller part with
    | true =>
      rw [← ih, List.filter_cons_of_neg (by simp [hfiller])]
      cases parts.filter (fun part => !isFiller part) <;> simp [partsAfter?, hfiller]
    | false =>
      rw [← ih, List.filter_cons_of_pos (by simp [hfiller])]
      simp [partsAfter?, hfiller]

theorem dropWhile_isFiller (h : ∀ name ∈ names, IsName name) : names.dropWhile isFiller = names := by
  cases names with
  | nil => rfl
  | cons name rest => exact List.dropWhile_cons_of_neg (by simp [(h name (by simp)).not_filler])

theorem relativeTo?_under (hp : p.bytes ≠ []) (h : ∀ name ∈ names, IsName name) :
    (p.under names).relativeTo? p = some ⟨joinSlashes names⟩ := by
  obtain ⟨parts, hsplit, hnames⟩ := split_under hp h
  obtain ⟨rest, hrest, hdrop⟩ := Option.map_eq_some_iff.1 (partsAfter?_filter parts names)
  rw [dropWhile_isFiller h] at hdrop
  have hright : dropFillersRight names = names := by
    rw [dropFillersRight, dropWhile_isFiller fun n hn => h n (List.mem_reverse.1 hn),
      List.reverse_reverse]
  rw [← hnames] at hrest
  simp only [relativeTo?, hsplit]
  rw [if_neg fun hbare => names_ne_nil_of_bare hp hbare.1 hbare.2, if_pos trivial, hrest,
    Option.map_some, hdrop, hright]
  rfl

theorem joinSlashes_ne_nil (hne : names ≠ []) (h : ∀ name ∈ names, IsName name) :
    joinSlashes names ≠ [] := by
  obtain ⟨name, rest, rfl⟩ := List.exists_cons_of_ne_nil hne
  have hname := (h name (by simp)).ne_nil
  cases rest <;> simp [joinSlashes, hname]

theorem under_injective (hp : p.bytes ≠ []) (h : ∀ name ∈ names, IsName name)
    (ho : ∀ name ∈ others, IsName name) (heq : p.under names = p.under others) :
    names = others := by
  have hjoin : joinSlashes names = joinSlashes others := by
    have hrelative := relativeTo?_under hp h
    rw [heq, relativeTo?_under hp ho] at hrelative
    simpa using hrelative.symm
  by_cases hne : names = []
  · subst hne
    by_contra hother
    exact joinSlashes_ne_nil (Ne.symm hother) ho hjoin.symm
  · have hother : others ≠ [] := by
      rintro rfl
      exact joinSlashes_ne_nil hne h hjoin
    rw [← splitSlashes_joinSlashes hne fun n hn => (h n hn).no_slash, hjoin,
      splitSlashes_joinSlashes hother fun n hn => (ho n hn).no_slash]

theorem extension?_under (hp : p.bytes ≠ []) {name : Name} (h : ∀ n ∈ names ++ [name], IsName n) :
    (p.under (names ++ [name])).extension? = extensionOf? name := by
  have hlast : (p.under (names ++ [name])).fileName? = some name := by
    rw [fileName?, names_under hp h, ← List.append_assoc, List.getLast?_concat]
    exact if_neg (h name (by simp)).not_above
  rw [extension?, hlast, Option.bind_some]

end Path

end CodeFolding

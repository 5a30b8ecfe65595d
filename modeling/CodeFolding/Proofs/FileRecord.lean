import CodeFolding.Proofs.EncodedText
import CodeFolding.Proofs.JsonText
import CodeFolding.Report

/-!
The report on a file reads back.

A record is read by its field names, each of which stands in it at most once; a field that was left
out because it says nothing reads as nothing. Counters are words of 64 bits and levels words of 32
bits with a sign, so the numbers are kept, and a path is kept if it is UTF-8.
-/

set_option autoImplicit false

namespace CodeFolding

open Data

theorem mapM_map_eq_some {α β : Type} {read? : β → Option α} {write : α → β} {xs : List α}
    (h : ∀ x ∈ xs, read? (write x) = some x) : (xs.map write).mapM read? = some xs := by
  induction xs with
  | nil => rfl
  | cons x xs ih =>
    simp [h x List.mem_cons_self, ih fun y hy => h y (List.mem_cons_of_mem x hy)]

/-! ## Fields -/

theorem filter_record {fields : List (String × Data)} (h : (fields.map Prod.fst).Nodup)
    (name : String) :
    (fields.map fun f => (f.1.toList, f.2)).filter (fun f => f.1 == name.toList) =
      (fields.lookup name).toList.map fun d => (name.toList, d) := by
  induction fields with
  | nil => rfl
  | cons f fields ih =>
    obtain ⟨other, d⟩ := f
    rw [List.map_cons, List.nodup_cons] at h
    by_cases hname : other = name
    · subst hname
      have hrest : fields.lookup other = none := by
        refine List.lookup_eq_none_iff.2 fun f hf => ?_
        rw [bne_iff_ne]
        rintro rfl
        exact h.1 (List.mem_map.2 ⟨f, hf, rfl⟩)
      simp [ih h.2, hrest]
    · have hchars : other.toList ≠ name.toList := fun e => hname (String.toList_inj.1 e)
      have hbeq : (name == other) = false := beq_eq_false_iff_ne.2 (Ne.symm hname)
      simp [ih h.2, hchars, List.lookup_cons, hbeq]

theorem slots?_record {fields : List (String × Data)} (h : (fields.map Prod.fst).Nodup)
    (long : Bool) (names : List String) :
    (record fields).slots? long names = some (names.map fun name => fields.lookup name) := by
  have hfield : ∀ name : String, field? name.toList (fields.map fun f => (f.1.toList, f.2)) =
      some (fields.lookup name) := by
    intro name
    rw [field?, filter_record h]
    cases fields.lookup name <;> rfl
  rw [record, slots?]
  simp only [hfield]
  exact List.mapM_pure

@[simp] theorem lookup_optionalField {α : Type} (name other : String) (data : α → Data)
    (o : Option α) :
    (optionalField name data o).lookup other = if other = name then o.map data else none := by
  by_cases h : other = name
  · cases o <;> simp [optionalField, h]
  · have hbeq : (other == name) = false := beq_eq_false_iff_ne.2 h
    cases o <;> simp [optionalField, List.lookup_cons, h, hbeq]

@[simp] theorem lookup_listField {α : Type} (name other : String) (data : α → Data) (xs : List α) :
    (listField name data xs).lookup other =
      if other = name ∧ xs ≠ [] then some (.list (xs.map data)) else none := by
  by_cases h : other = name
  · cases xs <;> simp [listField, h]
  · have hbeq : (other == name) = false := beq_eq_false_iff_ne.2 h
    cases xs <;> simp [listField, List.lookup_cons, h, hbeq]

theorem list?_map {α : Type} {item? : Data → Option α} {data : α → Data} {xs : List α}
    (h : ∀ x ∈ xs, item? (data x) = some x) : list? item? (.list (xs.map data)) = some xs :=
  mapM_map_eq_some h

theorem optional?_list {α : Type} {item? : Data → Option α} {data : α → Data} {xs : List α}
    (h : ∀ x ∈ xs, item? (data x) = some x) :
    optional? [] (list? item?) (if xs = [] then none else some (.list (xs.map data))) =
      some xs := by
  cases xs with
  | nil => rfl
  | cons x xs => exact list?_map h

theorem nat?_nat (n : Nat) : nat? (.nat n) = some n := rfl

theorem int32?_whole {z : Int} (hlo : -2147483648 ≤ z) (hhi : z < 2147483648) :
    int32? (.whole z) = some z :=
  if_pos ⟨hlo, hhi⟩

/-! ## Values that fit -/

structure Span.Fits (s : Span) : Prop where
  first : s.first < 1 <<< 64
  last : s.last < 1 <<< 64

structure Region.Fits (r : Region) : Prop where
  first : r.first < 1 <<< 64
  last : r.last < 1 <<< 64
  brace : r.brace < 1 <<< 64
  level_ge : -2147483648 ≤ r.level
  level_lt : r.level < 2147483648
  statements : ∀ n ∈ r.statements, n < 1 <<< 64
  spans : ∀ s ∈ r.spans, s.Fits

structure FileFolds.Fits (f : FileFolds) : Prop where
  regions : ∀ r ∈ f.regions, r.Fits
  lineCount : f.lineCount < 1 <<< 64

instance (s : Span) : Decidable s.Fits :=
  decidable_of_iff (s.first < 1 <<< 64 ∧ s.last < 1 <<< 64)
    ⟨fun ⟨first, last⟩ => ⟨first, last⟩, fun ⟨first, last⟩ => ⟨first, last⟩⟩

instance (r : Region) : Decidable r.Fits :=
  decidable_of_iff (r.first < 1 <<< 64 ∧ r.last < 1 <<< 64 ∧ r.brace < 1 <<< 64 ∧
      -2147483648 ≤ r.level ∧ r.level < 2147483648 ∧ (∀ n ∈ r.statements, n < 1 <<< 64) ∧
      ∀ s ∈ r.spans, s.Fits)
    ⟨fun ⟨first, last, brace, ge, lt, statements, spans⟩ =>
      ⟨first, last, brace, ge, lt, statements, spans⟩,
    fun ⟨first, last, brace, ge, lt, statements, spans⟩ =>
      ⟨first, last, brace, ge, lt, statements, spans⟩⟩

instance (f : FileFolds) : Decidable f.Fits :=
  decidable_of_iff ((∀ r ∈ f.regions, r.Fits) ∧ f.lineCount < 1 <<< 64)
    ⟨fun ⟨regions, lineCount⟩ => ⟨regions, lineCount⟩,
    fun ⟨regions, lineCount⟩ => ⟨regions, lineCount⟩⟩

/-- The bytes of a path are a text in UTF-8. -/
def Path.IsText (p : Path) : Prop := ∃ cs, p = .ofText cs

theorem Data.Exact.nat {n : Nat} (h : n < 1 <<< 64) : (Data.nat n).Exact :=
  .whole (by omega) (by omega)

theorem Data.Exact.record {fields : List (String × Data)} (h : ∀ f ∈ fields, f.2.Exact) :
    (Data.record fields).Exact := by
  refine .object fun f hf => ?_
  obtain ⟨g, hg, rfl⟩ := List.mem_map.1 hf
  exact h g hg

theorem exact_optionalField {α : Type} {name : String} {data : α → Data} {o : Option α}
    (h : ∀ x ∈ o, (data x).Exact) : ∀ f ∈ optionalField name data o, f.2.Exact := by
  cases o with
  | none => simp [optionalField]
  | some x => simpa [optionalField] using h x rfl

theorem exact_list {α : Type} {data : α → Data} {xs : List α} (h : ∀ x ∈ xs, (data x).Exact) :
    (Data.list (xs.map data)).Exact := by
  refine .list fun d hd => ?_
  obtain ⟨x, hx, rfl⟩ := List.mem_map.1 hd
  exact h x hx

theorem exact_listField {α : Type} {name : String} {data : α → Data} {xs : List α}
    (h : ∀ x ∈ xs, (data x).Exact) : ∀ f ∈ listField name data xs, f.2.Exact := by
  cases xs with
  | nil => simp [listField]
  | cons x xs => simpa [listField] using exact_list h

/-! ## Spans -/

theorem Span.ofData?_data (s : Span) : ofData? s.data = some s := by
  rw [ofData?, data, slots?_record (by simp)]
  rfl

theorem Span.Fits.exact {s : Span} (h : s.Fits) : s.data.Exact := by
  refine .record ?_
  simp only [List.forall_mem_cons]
  exact ⟨.nat h.first, .nat h.last, by simp⟩

/-! ## Regions -/

theorem Kind.ofData?_data (k : Kind) : ofData? k.data = some k := ofName?_name k

theorem Region.fields_nodup (r : Region) (kind : Data) :
    (([("type", kind), ("start_line", .nat r.first), ("end_line", .nat r.last),
      ("actual_brace_line", .nat r.brace), ("level", .whole r.level), ("is_folded", .bool r.folded)]
      ++ optionalField "count" .nat r.statements
      ++ listField "original_lines_details" Span.data r.spans).map Prod.fst).Nodup := by
  cases r.statements <;> cases r.spans <;> simp [optionalField, listField]

theorem Region.ofData?_data {r : Region} (h : r.Fits) : ofData? r.data = some r := by
  have hlevel := int32?_whole h.level_ge h.level_lt
  have hstatements : optional? none (nullable? nat?) (r.statements.map Data.nat) =
      some r.statements := by
    cases r.statements <;> rfl
  have hspans := optional?_list fun s (_ : s ∈ r.spans) => Span.ofData?_data s
  rw [ofData?, data, slots?_record (r.fields_nodup _)]
  simp [fieldNames, List.lookup_append, List.lookup_cons, Kind.ofData?_data, nat?_nat, hlevel,
    bool?, hstatements, hspans]

theorem Region.Fits.exact {r : Region} (h : r.Fits) : r.data.Exact := by
  have hlo := h.level_ge
  have hhi := h.level_lt
  have hstatements : ∀ f ∈ optionalField "count" Data.nat r.statements, f.2.Exact :=
    exact_optionalField fun n hn => .nat (h.statements n hn)
  have hspans : ∀ f ∈ listField "original_lines_details" Span.data r.spans, f.2.Exact :=
    exact_listField fun s hs => (h.spans s hs).exact
  refine .record (List.forall_mem_append.2 ⟨List.forall_mem_append.2 ⟨?_, hstatements⟩, hspans⟩)
  simp only [List.forall_mem_cons]
  exact ⟨.text _, .nat h.first, .nat h.last, .nat h.brace, .whole (by omega) (by omega), .bool _,
    by simp⟩

/-! ## Files -/

theorem Path.ofData?_text (cs : List Char) : ofData? (.text cs) = some (.ofText cs) := rfl

theorem Path.data?_ofText (cs : List Char) : (ofText cs).data? = some (.text cs) := by
  rw [data?, text?, ofText, Utf8.decode?_encode]
  rfl

/-- The data of a file whose paths are texts. -/
theorem FileFolds.data?_of_isText {f : FileFolds} (hfits : f.Fits) (hpath : f.path.IsText)
    (hlocation : f.location.IsText) :
    ∃ d, f.data? = some d ∧ d.Exact ∧ ofData? d = some f := by
  obtain ⟨p, hp⟩ := hpath
  obtain ⟨q, hq⟩ := hlocation
  have hdata : f.data? = some (record ([("path", .text p), ("absolute_path", .text q),
      ("regions", .list (f.regions.map Region.data)), ("line_count", .nat f.lineCount),
      ("parsed", .bool f.readable)] ++ optionalField "error" .text f.error)) := by
    rw [data?, hp, hq, Path.data?_ofText, Path.data?_ofText]
    rfl
  have herrors : ∀ g ∈ optionalField "error" Data.text f.error, g.2.Exact :=
    exact_optionalField fun e _ => .text e
  refine ⟨_, hdata, .record (List.forall_mem_append.2 ⟨?_, herrors⟩), ?_⟩
  · simp only [List.forall_mem_cons]
    exact ⟨.text p, .text q, exact_list fun r hr => (hfits.regions r hr).exact,
      .nat hfits.lineCount, .bool _, by simp⟩
  · have hregions := list?_map fun r hr => Region.ofData?_data (hfits.regions r hr)
    have herror : optional? none (nullable? text?) (f.error.map Data.text) = some f.error := by
      cases f.error <;> rfl
    rw [ofData?, slots?_record (by cases f.error <;> simp [optionalField])]
    simp [fieldNames, List.lookup_cons, Path.ofData?_text, hregions, nat?_nat,
      bool?, herror, ← hp, ← hq]

/-- The report on a file in JSON is written, and it reads as the file it is about. -/
theorem report_json_reads_back {f : FileFolds} (hfits : f.Fits) (hpath : f.path.IsText)
    (hlocation : f.location.IsText) :
    ∃ text, f.report .json = .ok text ∧ (Json.read? text).bind FileFolds.ofData? = some f := by
  obtain ⟨d, hdata, hexact, hfile⟩ := FileFolds.data?_of_isText hfits hpath hlocation
  refine ⟨Json.pretty d, ?_, ?_⟩
  · rw [FileFolds.report, hdata]
    rfl
  · rw [Json.pretty, Json.read?_write _ hexact, Option.bind_some, hfile]

theorem report_json_reads_back_unreadable :
    let f : FileFolds :=
      ⟨.ofText "src/\u00E9t\u00E9.rs".toList, .ofText "/src/\u00E9t\u00E9.rs".toList,
        [.ofImports [⟨1, 1⟩, ⟨3, 4⟩] true, .block .fn 6 9 7 1 false], 18446744073709551615, false,
        some "no \"such\" file:\t\x01\u00E9".toList⟩
    f.Fits ∧ f.path.IsText ∧ f.location.IsText ∧
      ∃ text, f.report .json = .ok text ∧ (Json.read? text).bind FileFolds.ofData? = some f := by
  intro f
  have hfits : f.Fits := by decide
  exact ⟨hfits, ⟨_, rfl⟩, ⟨_, rfl⟩, report_json_reads_back hfits ⟨_, rfl⟩ ⟨_, rfl⟩⟩

end CodeFolding

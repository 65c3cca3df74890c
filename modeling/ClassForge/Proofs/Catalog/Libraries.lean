import ClassForge.Catalog.Load
import ClassForge.Proofs.Table
import Mathlib.Data.List.Induction

/-!
# Translations from several libraries

The first library that has an entry for a message decides, whether its entry is translated or not. So a
message whose first entry is not translated is left out, even if a later library translates it, and any
other message has the first translation there is.
-/

namespace ClassForge

theorem Table.get?_ofList_eq_some {α : Type} {l : List (String × α)}
    (h : ∀ k v v', (k, v) ∈ l → (k, v') ∈ l → v = v') {k : String} {v : α} :
    (ofList l).get? k = some v ↔ (k, v) ∈ l := by
  induction l using List.reverseRecOn with
  | nil => simp [ofList]
  | append_singleton l e ih =>
    have hlast : ofList (l ++ [e]) = (ofList l).insert e.1 e.2 := by
      rw [ofList, List.foldl_append, ofList]
      rfl
    have hl : ∀ k v v', (k, v) ∈ l → (k, v') ∈ l → v = v' := fun k v v' hv hv' =>
      h k v v' (List.mem_append_left _ hv) (List.mem_append_left _ hv')
    rw [hlast, get?_insert, List.mem_append, List.mem_singleton]
    by_cases hk : k = e.1
    · subst hk
      rw [if_pos rfl, Option.some.injEq]
      constructor
      · rintro rfl
        exact .inr rfl
      · intro hv
        exact h e.1 e.2 v (by simp) (by simpa using hv)
    · rw [if_neg hk, ih hl]
      refine ⟨.inl, fun hv => hv.resolve_right fun heq => hk ?_⟩
      rw [← heq]

namespace Catalog

variable {t : FileTree} {locale id : String} {libraries : List Library} {e e' : CatalogEntry}
  {p : CatalogEntry → Bool}

/-! ## The first entry of a message -/

def Has (t : FileTree) (locale id : String) (l : Library) (e : CatalogEntry) : Prop :=
  ∃ c, ofLibrary? t locale l = .ok (some c) ∧ c.get? id = some e

def First (t : FileTree) (locale id : String) (libraries : List Library) (p : CatalogEntry → Bool)
    (e : CatalogEntry) : Prop :=
  ∃ front l back, libraries = front ++ l :: back ∧ Has t locale id l e ∧ p e = true ∧
    ∀ l' ∈ front, ∀ e', Has t locale id l' e' → p e' = false

def entryOf (t : FileTree) (locale id : String) (l : Library) : Option CatalogEntry :=
  (ofLibrary? t locale l).toOption.join.bind (·.get? id)

theorem has_iff {l : Library} : Has t locale id l e ↔ entryOf t locale id l = some e := by
  rw [Has, entryOf]
  rcases ofLibrary? t locale l with _ | _ | c <;> simp [Except.toOption]

theorem first_iff : First t locale id libraries p e ↔
    libraries.findSome? (fun l => (entryOf t locale id l).filter p) = some e := by
  rw [List.findSome?_eq_some_iff, First]
  simp only [has_iff, Option.filter_eq_some_iff, Option.filter_eq_none_iff, and_assoc, Bool.not_eq_true]

theorem First.unique (h : First t locale id libraries p e) (h' : First t locale id libraries p e') :
    e = e' :=
  Option.some.inj ((first_iff.1 h).symm.trans (first_iff.1 h'))

theorem First.of_any (h : First t locale id libraries (fun _ => true) e) (hp : p e = true) :
    First t locale id libraries p e := by
  obtain ⟨front, l, back, rfl, hl, -, hfront⟩ := h
  exact ⟨front, l, back, rfl, hl, hp, fun l' hl' e' he' => absurd (hfront l' hl' e' he') (by simp)⟩

theorem First.exists_any (h : First t locale id libraries p e) :
    ∃ e, First t locale id libraries (fun _ => true) e := by
  obtain ⟨front, l, back, rfl, hl, -⟩ := h
  have hsome : ((front ++ l :: back).findSome? fun l => (entryOf t locale id l).filter fun _ => true).isSome := by
    rw [List.findSome?_isSome_iff]
    exact ⟨l, by simp, by simp [has_iff.1 hl]⟩
  obtain ⟨e, he⟩ := Option.isSome_iff_exists.1 hsome
  exact ⟨e, first_iff.2 he⟩

/-- Whether a value is the first translation of a message. -/
def Available (t : FileTree) (locale id : String) (libraries : List Library) (v : Json) : Prop :=
  ∃ e, First t locale id libraries CatalogEntry.isTranslated e ∧ e.value = v

/-- Whether there is a translation, but an entry without one comes first. -/
def Masked (t : FileTree) (locale id : String) (libraries : List Library) : Prop :=
  (∃ v, Available t locale id libraries v) ∧
    ∃ e, First t locale id libraries (fun _ => true) e ∧ e.isTranslated = false

theorem available_and_not_masked {v : Json} :
    Available t locale id libraries v ∧ ¬ Masked t locale id libraries ↔
      ∃ e, First t locale id libraries (fun _ => true) e ∧ e.isTranslated = true ∧ e.value = v := by
  constructor
  · rintro ⟨⟨e, he, rfl⟩, hmasked⟩
    obtain ⟨e', he'⟩ := he.exists_any
    by_cases htranslated : e'.isTranslated = true
    · exact ⟨e', he', htranslated, congrArg _ ((he'.of_any htranslated).unique he)⟩
    · exact absurd ⟨⟨_, e, he, rfl⟩, e', he', by simpa using htranslated⟩ hmasked
  · rintro ⟨e, he, htranslated, rfl⟩
    refine ⟨⟨e, he.of_any htranslated, rfl⟩, ?_⟩
    rintro ⟨-, e', he', huntranslated⟩
    rw [← he.unique he', htranslated] at huntranslated
    contradiction

/-! ## Merging -/

theorem get?_merge (c other : Catalog) (id : String) :
    (c.merge other).get? id = (c.get? id).or (other.get? id) := by
  have hfill := Table.get?_foldl_fill (fun _ => some) (fun _ _ => rfl) other.entries c.entries id
  rw [Option.bind_fun_some] at hfill
  exact hfill

theorem get?_foldl_merge (found : List (Option Catalog)) (c : Catalog) (id : String) :
    (found.foldl (fun c other => other.elim c c.merge) c).get? id =
      (c.get? id).or (found.findSome? fun other => other.bind (·.get? id)) := by
  induction found generalizing c with
  | nil => simp
  | cons other found ih =>
    rw [List.foldl_cons, ih]
    cases other with
    | none => rfl
    | some other =>
      rw [Option.elim_some, get?_merge, Option.or_assoc, List.findSome?_cons, Option.bind_some]
      cases other.get? id <;> rfl

theorem locale_foldl_merge (found : List (Option Catalog)) (c : Catalog) :
    (found.foldl (fun c other => other.elim c c.merge) c).locale = c.locale := by
  induction found generalizing c with
  | nil => rfl
  | cons other found ih =>
    rw [List.foldl_cons, ih]
    cases other <;> rfl

theorem mapM_ok {α β ε : Type} {f : α → Except ε β} {g : α → β} {l : List α}
    (h : ∀ a ∈ l, f a = .ok (g a)) : l.mapM f = .ok (l.map g) := by
  induction l with
  | nil => rfl
  | cons a l ih =>
    obtain ⟨ha, hl⟩ := List.forall_mem_cons.1 h
    rw [List.mapM_cons, ha, ih hl]
    rfl

def Readable (t : FileTree) (libraries : List Library) (locale : String) : Prop :=
  ∀ l ∈ libraries, ∃ found, ofLibrary? t locale l = .ok found

theorem exists_load (h : Readable t libraries locale) : ∃ c, load t libraries locale = .ok c ∧
    c.locale = locale ∧ ∀ id e, c.get? id = some e ↔ First t locale id libraries (fun _ => true) e := by
  have hfound : libraries.mapM (ofLibrary? t locale) =
      .ok (libraries.map fun l => (ofLibrary? t locale l).toOption.join) := by
    refine mapM_ok fun l hl => ?_
    obtain ⟨found, hl⟩ := h l hl
    simp [hl, Except.toOption]
  refine ⟨_, by rw [load, hfound]; rfl, locale_foldl_merge _ _, fun id e => ?_⟩
  have hany : ∀ o : Option CatalogEntry, o.filter (fun _ => true) = o := by
    intro o
    cases o <;> rfl
  rw [get?_foldl_merge, first_iff, List.findSome?_map]
  simp only [hany, entryOf, Function.comp_def]
  rfl

theorem select_eq (c : Catalog) (ids : List String) : c.select ids = Table.ofList
    (ids.filterMap fun id => ((c.get? id).filter CatalogEntry.isTranslated).map (id, ·.value)) := by
  rw [select]
  congr 2
  funext id
  rw [get?]
  cases c.entries.get? id with
  | none => rfl
  | some e => by_cases he : e.isTranslated = true <;> simp [he, Option.filter]

theorem get?_select {c : Catalog} {ids : List String} {v : Json} :
    (c.select ids).get? id = some v ↔
      id ∈ ids ∧ ∃ e, c.get? id = some e ∧ e.isTranslated = true ∧ e.value = v := by
  rw [select_eq, Table.get?_ofList_eq_some]
  · simp only [List.mem_filterMap, Option.map_eq_some_iff, Option.filter_eq_some_iff, Prod.mk.injEq]
    grind
  · simp only [List.mem_filterMap, Option.map_eq_some_iff, Option.filter_eq_some_iff, Prod.mk.injEq]
    grind

theorem exists_loadAll {locales : List String} (h : ∀ locale ∈ locales, Readable t libraries locale) :
    ∃ catalogs, loadAll t libraries locales = .ok catalogs ∧
      ∀ locale c, catalogs.get? locale = some c ↔ locale ∈ locales ∧ load t libraries locale = .ok c := by
  have hloads : ∀ locale, ∃ c, locale ∈ locales → load t libraries locale = .ok c := by
    intro locale
    by_cases hmem : locale ∈ locales
    · obtain ⟨c, hc, -⟩ := exists_load (h locale hmem)
      exact ⟨c, fun _ => hc⟩
    · exact ⟨{ locale }, fun hlocale => absurd hlocale hmem⟩
  choose catalogOf hload using hloads
  have hall : locales.mapM (fun locale => do
        let c ← load t libraries locale
        return (locale, c)) = .ok (locales.map fun locale => (locale, catalogOf locale)) := by
    refine mapM_ok fun locale hlocale => ?_
    rw [hload locale hlocale]
    rfl
  refine ⟨Table.ofList (locales.map fun locale => (locale, catalogOf locale)), ?_, fun locale c => ?_⟩
  · rw [loadAll, hall]
    rfl
  · have hone : ∀ locale c c', (locale, c) ∈ locales.map (fun locale => (locale, catalogOf locale)) →
        (locale, c') ∈ locales.map (fun locale => (locale, catalogOf locale)) → c = c' := by
      grind
    rw [Table.get?_ofList_eq_some hone, List.mem_map]
    constructor
    · rintro ⟨locale', hmem, heq⟩
      obtain ⟨rfl, rfl⟩ := Prod.mk.inj heq
      exact ⟨hmem, hload locale' hmem⟩
    · rintro ⟨hmem, hc⟩
      have heq : catalogOf locale = c := Except.ok.inj ((hload locale hmem).symm.trans hc)
      exact ⟨locale, hmem, by rw [heq]⟩

/-- The selected values are the first translations of those requested messages that are not masked. -/
theorem select_loadAll {locales : List String} (h : ∀ locale ∈ locales, Readable t libraries locale) :
    ∃ catalogs, loadAll t libraries locales = .ok catalogs ∧
      (∀ locale, locale ∈ catalogs.keys ↔ locale ∈ locales) ∧
      ∀ locale c, catalogs.get? locale = some c → c.locale = locale ∧ ∀ ids id v,
        (c.select ids).get? id = some v ↔
          id ∈ ids ∧ Available t locale id libraries v ∧ ¬ Masked t locale id libraries := by
  obtain ⟨catalogs, hall, hcatalogs⟩ := exists_loadAll h
  refine ⟨catalogs, hall, fun locale => ?_, fun locale c hc => ?_⟩
  · simp only [Table.mem_keys, hcatalogs]
    constructor
    · rintro ⟨_, hmem, _⟩
      exact hmem
    · intro hmem
      obtain ⟨c, hc, -⟩ := exists_load (h locale hmem)
      exact ⟨c, hmem, hc⟩
  · obtain ⟨hmem, hc⟩ := (hcatalogs locale c).1 hc
    obtain ⟨c', hc', hlocale, hfirst⟩ := exists_load (h locale hmem)
    obtain rfl : c = c' := Except.ok.inj (hc.symm.trans hc')
    refine ⟨hlocale, fun ids id v => ?_⟩
    rw [get?_select, available_and_not_masked]
    simp only [hfirst]

def libraryPair : List Library :=
  ["a", "b"].map fun name => .ofManifest ⟨"/" ++ name⟩
    { info := { name }, provides := { namespaceName := name, translationDir := "po" } }

/-- The catalogs of two libraries, of which the first lists the message `no` without a translation. -/
def pairFiles : FileTree :=
  { nodes := Table.ofList [("/a", .directory), ("/a/po", .directory),
      ("/a/po/de.po", .file "msgid \"no\"\nmsgstr \"\"" 1), ("/b", .directory), ("/b/po", .directory),
      ("/b/po/de.po", .file "msgid \"no\"\nmsgstr \"nein\"\nmsgid \"yes\"\nmsgstr \"ja\"" 1)] }

def pairSelect (id : String) : Except CatalogError (Option Json) := do
  let catalogs ← loadAll pairFiles libraryPair ["de"]
  return (catalogs.get? "de").bind fun c => (c.select ["no", "yes"]).get? id

theorem pairSelect_yes : pairSelect "yes" = .ok (some (.string "ja")) ∧
    Available pairFiles "de" "yes" libraryPair (.string "ja") ∧
    ¬ Masked pairFiles "de" "yes" libraryPair := by
  have hok : ∀ l ∈ libraryPair, (ofLibrary? pairFiles "de" l).isOk = true := by decide +kernel
  have hread : ∀ locale ∈ ["de"], Readable pairFiles libraryPair locale := by
    intro locale hlocale l hl
    rw [List.mem_singleton.1 hlocale]
    cases hfound : ofLibrary? pairFiles "de" l with
    | ok found => exact ⟨found, rfl⟩
    | error e => simpa [hfound, Except.isOk, Except.toBool] using hok l hl
  have hyes : pairSelect "yes" = .ok (some (.string "ja")) := by decide +kernel
  refine ⟨hyes, ?_⟩
  obtain ⟨catalogs, hall, -, hselect⟩ := select_loadAll hread
  rw [pairSelect, hall] at hyes
  obtain ⟨c, hc, hv⟩ := Option.bind_eq_some_iff.1 (Except.ok.inj hyes)
  exact (((hselect "de" c hc).2 _ _ _).1 hv).2

/-- The second library translates the message, but it is not selected. -/
theorem pairSelect_no : Available pairFiles "de" "no" libraryPair (.string "nein") ∧
    pairSelect "no" = .ok none := by
  refine ⟨⟨{ id := "no", forms := ["nein"] }, first_iff.2 ?_, rfl⟩, ?_⟩ <;> decide +kernel

end Catalog

end ClassForge

/-
Getting known records changes all targets or none. The loaded records are
found by the texts of their keys, of one key the first; what stands for a
target then takes the target up to date column by column and relation by
relation. Neither step can fail: a loaded record is of the model and holds
in each column what the column's type takes. So once every target has a
record, every target is updated, and before that none is touched.

Relations move, so the records that are left change as targets are served:
`Left` says what is left of a record, and each target served empties the
relations of one.
-/
import RecordQuery.Proofs.Loading.Typed
import RecordQuery.Repository.Reconcile

namespace RecordQuery

-- ============================================================== records

namespace Record

theorem value?_setValue (t : Record) (field : String) (v : Value) (other : String) :
    (t.setValue field v).value? other = if other = field then some v else t.value? other := by
  by_cases h : other = field
  · rw [if_pos h, h]
    exact Entries.lookup_put _ _ _
  · rw [if_neg h]
    exact Entries.lookup_put_ne h _ _

theorem relatedTo_setRelated (t : Record) (field : String) (records : List Record)
    (other : String) :
    (t.setRelated field records).relatedTo other
      = if other = field then records else t.relatedTo other := by
  unfold relatedTo setRelated
  by_cases h : other = field
  · rw [if_pos h, h, Entries.lookup_put]
    rfl
  · rw [if_neg h, Entries.lookup_put_ne h]

end Record

namespace Mapping

variable {m : Mapping} {c : Column} {t target source : Record} {records : List Record}

/-- The values of the key of a record. -/
def keyValues (m : Mapping) (t : Record) : List Value :=
  m.keyColumns.map (m.valueOf t)

/-- The text of the key of a record, by which records are matched. -/
def keyTextOf (m : Mapping) (t : Record) : String :=
  Value.keyText (m.keyValues t)

theorem valueOf_eq (ht : t.model = m.model) (c : Column) :
    m.valueOf t c = (t.value? c.field).getD (c.type.store c.type.blank) := by
  unfold valueOf
  rw [read_eq ht]
  rfl

theorem keyOf_eq (ht : t.model = m.model) : m.keyOf t = .ok (m.keyValues t) := by
  unfold keyOf keyValues
  induction m.keyColumns with
  | nil => rfl
  | cons c rest ih =>
      rw [List.mapM_cons, ih, read_eq ht, List.map_cons, valueOf_eq ht]
      rfl

theorem mapM_keyOf (h : ∀ t ∈ records, t.model = m.model) :
    records.mapM m.keyOf = .ok (records.map m.keyValues) := by
  induction records with
  | nil => rfl
  | cons t rest ih =>
      obtain ⟨ht, hrest⟩ := List.forall_mem_cons.1 h
      rw [List.mapM_cons, keyOf_eq ht, ih hrest]
      rfl

-- =============================================================== index

theorem lookup_filter_ne {α : Type} (name other : String) (entries : List (String × α)) :
    (entries.filter fun entry => entry.1 ≠ name).lookup other
      = if other = name then none else entries.lookup other := by
  induction entries with
  | nil => simp
  | cons entry rest ih =>
      obtain ⟨n, x⟩ := entry
      by_cases hn : n = name
      · rw [List.filter_cons_of_neg (by simpa using hn), ih]
        by_cases ho : other = name
        · rw [if_pos ho, if_pos ho]
        · have hne : (other == n) = false := by simpa [hn] using ho
          rw [if_neg ho, if_neg ho, List.lookup_cons, hne]
      · rw [List.filter_cons_of_pos (by simpa using hn), List.lookup_cons, List.lookup_cons, ih]
        cases hother : other == n with
        | false => rfl
        | true =>
            have hne : other ≠ name := by
              rw [beq_iff_eq.1 hother]
              exact hn
            simp only [if_neg hne]

/-- The record that stands for a key: of those with it the first. -/
def firstOf (m : Mapping) (records : List Record) (text : String) : Option Record :=
  records.find? fun t => m.keyTextOf t == text

/-- Records of the model are indexed by the texts of their keys. -/
theorem index_eq_ok (h : ∀ t ∈ records, t.model = m.model) :
    ∃ loaded, m.index records = .ok loaded
      ∧ ∀ text, loaded.lookup text = m.firstOf records text := by
  induction records with
  | nil => exact ⟨[], rfl, fun _ => rfl⟩
  | cons t rest ih =>
      obtain ⟨ht, hrest⟩ := List.forall_mem_cons.1 h
      obtain ⟨others, hothers, hlookup⟩ := ih hrest
      refine ⟨(m.keyTextOf t, t) :: others.filter fun entry => entry.1 ≠ m.keyTextOf t, ?_, ?_⟩
      · rw [index, keyOf_eq ht, hothers]
        rfl
      · intro text
        rw [List.lookup_cons, lookup_filter_ne, firstOf, List.find?_cons]
        by_cases heq : m.keyTextOf t = text
        · simp [heq]
        · have hne : (text == m.keyTextOf t) = false := by simpa using Ne.symm heq
          have hne' : (m.keyTextOf t == text) = false := by simpa using heq
          rw [hne, hne', if_neg (Ne.symm heq), hlookup]
          rfl

-- ============================================================== columns

/-- A typed record's column is copied to a record of the model. -/
theorem copy_eq (hsource : m.Typed source) (htarget : target.model = m.model)
    (hc : c ∈ m.columns) :
    m.copy c target source
      = ⟨.ok (), target.setValue c.field (m.valueOf source c), source⟩ := by
  have hread : m.read c source = .ok (m.valueOf source c) := by
    rw [read_eq hsource.model, valueOf_eq hsource.model]
  have hwrite : m.write c target (m.valueOf source c)
      = .ok (target.setValue c.field (m.valueOf source c)) := by
    rw [write, hsource.normalize_valueOf hc]
    simp only [Record.asModel, htarget, if_true]
  simp only [copy, hread, hwrite]

/-- A record once columns of another are copied to it. -/
structure Copied (m : Mapping) (columns : List Column) (target source after : Record) :
    Prop where
  model : after.model = target.model
  related : after.related = target.related
  values : ∀ c ∈ columns, after.value? c.field = some (m.valueOf source c)
  others : ∀ field, field ∉ columns.map Column.field → after.value? field = target.value? field

/-- Columns of a typed record are copied one after the other. -/
theorem copied_columns (hm : m.Consistent) (hsource : m.Typed source) {columns : List Column} :
    ∀ {target : Record}, target.model = m.model → (∀ c ∈ columns, c ∈ m.columns) →
      ∃ after, columns.foldl (fun (t : Transfer) c => t.andThen (m.copy c)) ⟨.ok (), target, source⟩
          = ⟨.ok (), after, source⟩
        ∧ m.Copied columns target source after := by
  induction columns with
  | nil =>
      intro target _ _
      exact ⟨target, rfl, rfl, rfl, by simp, fun _ _ => rfl⟩
  | cons c rest ih =>
      intro target htarget hcolumns
      obtain ⟨hc, hrest⟩ := List.forall_mem_cons.1 hcolumns
      obtain ⟨after, hafter, hcopied⟩ :=
        @ih (target.setValue c.field (m.valueOf source c)) htarget hrest
      refine ⟨after, ?_, hcopied.model, hcopied.related, ?_, ?_⟩
      · rw [List.foldl_cons, Transfer.andThen, copy_eq hsource htarget hc]
        exact hafter
      · intro c' hc'
        by_cases hmem : c'.field ∈ rest.map Column.field
        · -- a later column of the same field is the same column
          obtain ⟨c'', hc'', heq⟩ := List.mem_map.1 hmem
          cases hm.column_ext (hrest c'' hc'') (hcolumns c' hc') heq
          exact hcopied.values _ hc''
        · rw [hcopied.others _ hmem, Record.value?_setValue]
          rcases List.mem_cons.1 hc' with rfl | hc'
          · rw [if_pos rfl]
          · exact absurd (List.mem_map_of_mem hc') hmem
      · intro field hfield
        rw [List.map_cons, List.mem_cons, not_or] at hfield
        rw [hcopied.others field hfield.2, Record.value?_setValue, if_neg hfield.1]

-- ============================================================ relations

theorem transfer_eq (hsource : source.model = m.model) (htarget : target.model = m.model)
    (relation : Relation) :
    m.transfer relation target source
      = ⟨.ok (), target.setRelated relation.field (source.relatedTo relation.field),
        source.setRelated relation.field []⟩ := by
  simp only [transfer, Record.asModel, hsource, htarget, if_true]

/-- Two records once what one holds for some fields is moved to the
other. -/
structure Moved (fields : List String) (target source after left : Record) : Prop where
  model : after.model = target.model
  values : after.values = target.values
  related : ∀ field, after.relatedTo field
    = if field ∈ fields then source.relatedTo field else target.relatedTo field
  leftModel : left.model = source.model
  leftValues : left.values = source.values
  leftRelated : ∀ field, left.relatedTo field
    = if field ∈ fields then [] else source.relatedTo field

/-- Relations of different fields are moved one after the other. -/
theorem moved_relations {relations : List Relation} :
    ∀ {target source : Record}, target.model = m.model → source.model = m.model →
      (relations.map Relation.field).Nodup →
      ∃ after left, relations.foldl (fun (t : Transfer) r => t.andThen (m.transfer r))
            ⟨.ok (), target, source⟩
          = ⟨.ok (), after, left⟩
        ∧ Moved (relations.map Relation.field) target source after left := by
  induction relations with
  | nil =>
      intro target source _ _ _
      exact ⟨target, source, rfl, rfl, rfl, by simp, rfl, rfl, by simp⟩
  | cons r rest ih =>
      intro target source htarget hsource hnodup
      rw [List.map_cons, List.nodup_cons] at hnodup
      obtain ⟨after, left, hfold, hmoved⟩ :=
        @ih (target.setRelated r.field (source.relatedTo r.field))
          (source.setRelated r.field []) htarget hsource hnodup.2
      refine ⟨after, left, ?_, hmoved.model, hmoved.values, ?_, hmoved.leftModel,
        hmoved.leftValues, ?_⟩
      · rw [List.foldl_cons, Transfer.andThen, transfer_eq hsource htarget]
        exact hfold
      · intro field
        rw [hmoved.related, Record.relatedTo_setRelated, Record.relatedTo_setRelated,
          List.map_cons]
        by_cases hr : field = r.field
        · subst hr
          simp [hnodup.1]
        · simp [hr]
      · intro field
        rw [hmoved.leftRelated, Record.relatedTo_setRelated, List.map_cons]
        by_cases hr : field = r.field
        · simp [hr]
        · simp [hr]

-- ======================================================= all the targets

section Targets

variable {columns : List Column} {relations : List Relation}

/-- What is left of a loaded record: its related records are gone once a
target was served. -/
structure Left (relations : List Relation) (served : Prop) (record left : Record) : Prop where
  model : left.model = record.model
  values : left.values = record.values
  whole : ¬served → ∀ field, left.relatedTo field = record.relatedTo field
  emptied : served → ∀ field, field ∈ relations.map Relation.field → left.relatedTo field = []

/-- A target that was updated from a loaded record. If a target of the same
key was served before, the related records were gone. -/
structure Updated (m : Mapping) (columns : List Column) (relations : List Relation)
    (served : Prop) (target record after : Record) : Prop where
  model : after.model = target.model
  copied : ∀ c ∈ columns, m.valueOf after c = m.valueOf record c
  kept : ∀ field, field ∉ columns.map Column.field → after.value? field = target.value? field
  moved : ¬served → ∀ r ∈ relations, after.relatedTo r.field = record.relatedTo r.field
  gone : served → ∀ r ∈ relations, after.relatedTo r.field = []
  held : ∀ field, field ∉ relations.map Relation.field →
    after.relatedTo field = target.relatedTo field

theorem Left.typed {served : Prop} {record left : Record} (h : Left relations served record left)
    (hrecord : m.Typed record) : m.Typed left where
  model := h.model.trans hrecord.model
  stored c hc := by
    obtain ⟨x, hx⟩ := hrecord.stored c hc
    refine ⟨x, ?_⟩
    rw [read_eq (h.model.trans hrecord.model), Record.value?, h.values]
    rwa [read_eq hrecord.model] at hx

/-- Updating a target from what is left of a typed record succeeds, and
leaves of the record what a served target leaves. -/
theorem update_eq (hm : m.Consistent) (hcolumns : ∀ c ∈ columns, c ∈ m.columns)
    (hnodup : (relations.map Relation.field).Nodup) {served : Prop} {record left : Record}
    (hleft : Left relations served record left) (hrecord : m.Typed record)
    (htarget : target.model = m.model) :
    ∃ after left', m.update columns relations target left = ⟨.ok (), after, left'⟩
      ∧ m.Updated columns relations served target record after
      ∧ Left relations True record left' := by
  have hvalue : ∀ c, m.valueOf left c = m.valueOf record c := by
    intro c
    rw [valueOf_eq (hleft.typed hrecord).model, valueOf_eq hrecord.model, Record.value?,
      hleft.values]
    rfl
  obtain ⟨copied, hcopy, hcopied⟩ :=
    copied_columns hm (hleft.typed hrecord) htarget hcolumns
  have hmodel : copied.model = m.model := hcopied.model.trans htarget
  obtain ⟨after, left', hmove, hmoved⟩ :=
    moved_relations hmodel (hleft.typed hrecord).model hnodup
  have hrelated : ∀ r ∈ relations, after.relatedTo r.field = left.relatedTo r.field := by
    intro r hr
    rw [hmoved.related, if_pos (List.mem_map_of_mem hr)]
  refine ⟨after, left', ?_, ?_, ?_⟩
  · unfold update
    dsimp only
    rw [hcopy, hmove]
  · refine ⟨hmoved.model.trans hcopied.model, fun c hc => ?_, fun field hfield => ?_,
      fun hserved r hr => ?_, fun hserved r hr => ?_, fun field hfield => ?_⟩
    · rw [valueOf_eq (hmoved.model.trans hmodel), Record.value?, hmoved.values]
      show (copied.value? c.field).getD _ = _
      rw [hcopied.values c hc, hvalue]
      rfl
    · rw [Record.value?, hmoved.values]
      exact hcopied.others field hfield
    · rw [hrelated r hr, hleft.whole hserved]
    · rw [hrelated r hr, hleft.emptied hserved _ (List.mem_map_of_mem hr)]
    · rw [hmoved.related, if_neg hfield, Record.relatedTo, hcopied.related]
      rfl
  · refine ⟨hmoved.leftModel.trans hleft.model, hmoved.leftValues.trans hleft.values,
      fun h => absurd trivial h, fun _ field hfield => ?_⟩
    rw [hmoved.leftRelated, if_pos hfield]

/-- The loaded records by their keys, of which those of some keys have
served a target. -/
def Remaining (relations : List Relation) (first : String → Option Record)
    (served : List String) (loaded : List (String × Record)) : Prop :=
  ∀ text record, first text = some record →
    ∃ left, loaded.lookup text = some left ∧ Left relations (text ∈ served) record left

/-- Serving a target leaves the records of other keys as they are. -/
theorem Remaining.serve {first : String → Option Record} {served : List String}
    {loaded : List (String × Record)} (h : Remaining relations first served loaded)
    {key : String} {record left : Record} (hfirst : first key = some record)
    (hleft : Left relations True record left) :
    Remaining relations first (served ++ [key]) (Entries.put key left loaded) := by
  intro text other hother
  by_cases htext : text = key
  · subst htext
    rw [hfirst] at hother
    cases hother
    exact ⟨left, Entries.lookup_put _ _ _, hleft.model, hleft.values,
      fun hnot => absurd (List.mem_append_right _ (List.mem_singleton_self _)) hnot,
      fun _ => hleft.emptied trivial⟩
  · obtain ⟨left', hlookup, hleft'⟩ := h text other hother
    have hserved : text ∈ served ++ [key] ↔ text ∈ served := by simp [htext]
    refine ⟨left', (Entries.lookup_put_ne htext _ _).trans hlookup, hleft'.model,
      hleft'.values, ?_, ?_⟩
    · rw [hserved]
      exact hleft'.whole
    · rw [hserved]
      exact hleft'.emptied

/-- Targets that all have a record are all updated, each from the first
record of its key. -/
theorem updateEach_eq (hm : m.Consistent) (hcolumns : ∀ c ∈ columns, c ∈ m.columns)
    (hnodup : (relations.map Relation.field).Nodup) {first : String → Option Record}
    (hfirst : ∀ text record, first text = some record → m.Typed record)
    {entries : List (String × Record)} :
    ∀ {served : List String} {loaded : List (String × Record)},
      Remaining relations first served loaded →
      (∀ entry ∈ entries, entry.2.model = m.model ∧ (first entry.1).isSome) →
      ∃ afters, m.updateEach columns relations entries loaded = (.ok (), afters)
        ∧ afters.length = entries.length
        ∧ ∀ i key target after, entries[i]? = some (key, target) → afters[i]? = some after →
          ∃ record, first key = some record
            ∧ m.Updated columns relations (key ∈ served ++ (entries.take i).map Prod.fst)
              target record after := by
  induction entries with
  | nil =>
      intro served loaded _ _
      exact ⟨[], rfl, rfl, by simp⟩
  | cons entry rest ih =>
      obtain ⟨key, target⟩ := entry
      intro served loaded hremaining hentries
      obtain ⟨⟨htarget, hsome⟩, hrest⟩ := List.forall_mem_cons.1 hentries
      obtain ⟨record, hrecord⟩ := Option.isSome_iff_exists.1 hsome
      obtain ⟨left, hlookup, hleft⟩ := hremaining key record hrecord
      obtain ⟨after, left', hupdate, hafter, hleft'⟩ :=
        update_eq hm hcolumns hnodup hleft (hfirst key record hrecord) htarget
      obtain ⟨afters, hafters, hlength, hall⟩ := ih (hremaining.serve hrecord hleft') hrest
      refine ⟨after :: afters, ?_, by rw [List.length_cons, hlength, List.length_cons], ?_⟩
      · rw [updateEach]
        simp only [hlookup, hupdate, hafters]
      · intro i key' target' after' hentry hafter'
        cases i with
        | zero =>
            cases hentry
            cases hafter'
            refine ⟨record, hrecord, ?_⟩
            rw [List.take_zero, List.map_nil, List.append_nil]
            exact hafter
        | succ i =>
            obtain ⟨record', hrecord', hupdated⟩ := hall i key' target' after' hentry hafter'
            refine ⟨record', hrecord', ?_⟩
            rw [List.take_succ_cons, List.map_cons]
            rwa [List.append_assoc, List.singleton_append] at hupdated

end Targets

end Mapping

-- ============================================================== request

/-- Whether an include loads a column of the records themselves: no field is
named, or the column's is. -/
def IncludeTree.Selects (inc : IncludeTree) (c : Column) : Prop :=
  inc.fields = [] ∨ c.field ∈ inc.fields

instance (inc : IncludeTree) (c : Column) : Decidable (inc.Selects c) :=
  inferInstanceAs (Decidable (_ ∨ _))

namespace Mapping

variable {m : Mapping} {inc : IncludeTree} {targets records : List Record}

theorem columnOfField?_eq_some (hm : m.Consistent) {field : String} {c : Column} :
    m.columnOfField? field = some c ↔ c ∈ m.columns ∧ c.field = field := by
  unfold columnOfField?
  constructor
  · intro h
    exact ⟨List.mem_of_find?_eq_some h, by simpa using List.find?_some h⟩
  · rintro ⟨hc, rfl⟩
    obtain ⟨c', hc'⟩ : ∃ c', m.columns.find? (fun x => x.field == c.field) = some c' := by
      rw [← Option.isSome_iff_exists, List.find?_isSome]
      exact ⟨c, hc, by simp⟩
    rw [hc', hm.column_ext (List.mem_of_find?_eq_some hc') hc
      (by simpa using List.find?_some hc')]

/-- The columns loaded are those that the include selects. -/
theorem mem_loadedColumns (hm : m.Consistent) {c : Column} :
    c ∈ m.loadedColumns inc ↔ c ∈ m.columns ∧ inc.Selects c := by
  unfold loadedColumns IncludeTree.Selects
  by_cases hfields : inc.fields = []
  · simp [hfields]
  · rw [if_neg (by simpa using hfields), List.mem_filterMap]
    simp only [columnOfField?_eq_some hm, hfields, false_or]
    constructor
    · rintro ⟨field, hfield, hc, rfl⟩
      exact ⟨hc, hfield⟩
    · rintro ⟨hc, hfield⟩
      exact ⟨c.field, hfield, hc, rfl⟩

/-- The relations followed are those of the mapping that the include
names. -/
theorem mem_loadedRelations (hm : m.Consistent) {r : Relation} :
    r ∈ m.loadedRelations inc ↔ r ∈ m.relations ∧ r.field ∈ inc.relations.map Prod.fst := by
  unfold loadedRelations
  rw [List.mem_filterMap]
  constructor
  · rintro ⟨⟨name, nested⟩, hentry, hr⟩
    have hname : r.field = name := by simpa using List.find?_some hr
    exact ⟨List.mem_of_find?_eq_some hr, hname ▸ List.mem_map_of_mem hentry⟩
  · rintro ⟨hr, hmem⟩
    obtain ⟨⟨name, nested⟩, hentry, rfl⟩ := List.mem_map.1 hmem
    refine ⟨(r.field, nested), hentry, ?_⟩
    show m.relations.find? (fun x => x.field == r.field) = some r
    obtain ⟨r', hr'⟩ : ∃ r', m.relations.find? (fun x => x.field == r.field) = some r' := by
      rw [← Option.isSome_iff_exists, List.find?_isSome]
      exact ⟨r, hr, by simp⟩
    rw [hr', List.inj_on_of_nodup_map hm.relations (List.mem_of_find?_eq_some hr') hr
      (by simpa using List.find?_some hr')]

/-- Relations named once are followed once. -/
theorem nodup_loadedRelations (hnames : (inc.relations.map Prod.fst).Nodup) :
    ((m.loadedRelations inc).map Relation.field).Nodup := by
  refine List.Nodup.sublist ?_ hnames
  unfold loadedRelations
  induction inc.relations with
  | nil => exact .slnil
  | cons entry rest ih =>
      obtain ⟨name, nested⟩ := entry
      rw [List.filterMap_cons, List.map_cons]
      dsimp only
      cases hr : m.relation? name with
      | none => exact ih.cons _
      | some r =>
          have hname : r.field = name := by simpa using List.find?_some hr
          dsimp only
          rw [List.map_cons, hname]
          exact ih.cons_cons _

/-- A target brought up to date from the record of its key. The columns
that the include selects are those of the record, and the relations that
it names hold what the record held for them; nothing, if a target before
has the same key. All else is as it was. -/
structure UpToDate (m : Mapping) (inc : IncludeTree) (served : Prop)
    (target record after : Record) : Prop where
  model : after.model = target.model
  selected : ∀ c ∈ m.columns, inc.Selects c → m.valueOf after c = m.valueOf record c
  others : ∀ field, (∀ c ∈ m.columns, inc.Selects c → c.field ≠ field) →
    after.value? field = target.value? field
  related : ¬served → ∀ r ∈ m.relations, r.field ∈ inc.relations.map Prod.fst →
    after.relatedTo r.field = record.relatedTo r.field
  gone : served → ∀ r ∈ m.relations, r.field ∈ inc.relations.map Prod.fst →
    after.relatedTo r.field = []
  unrelated : ∀ field, field ∉ inc.relations.map Prod.fst →
    after.relatedTo field = target.relatedTo field

theorem Updated.upToDate (hm : m.Consistent) {served : Prop} {target record after : Record}
    (h : m.Updated (m.loadedColumns inc) (m.loadedRelations inc) served target record after) :
    m.UpToDate inc served target record after where
  model := h.model
  selected c hc hselects := h.copied c ((mem_loadedColumns hm).2 ⟨hc, hselects⟩)
  others field hfield := by
    refine h.kept field fun hmem => ?_
    obtain ⟨c, hc, heq⟩ := List.mem_map.1 hmem
    obtain ⟨hcolumn, hselects⟩ := (mem_loadedColumns hm).1 hc
    exact hfield c hcolumn hselects heq
  related hserved r hr hname := h.moved hserved r ((mem_loadedRelations hm).2 ⟨hr, hname⟩)
  gone hserved r hr hname := h.gone hserved r ((mem_loadedRelations hm).2 ⟨hr, hname⟩)
  unrelated field hfield := by
    refine h.held field fun hmem => ?_
    obtain ⟨r, hr, heq⟩ := List.mem_map.1 hmem
    exact hfield (heq ▸ ((mem_loadedRelations hm).1 hr).2)

/-- How many targets have the key of some record. -/
def foundAmong (m : Mapping) (targets records : List Record) : Nat :=
  targets.countP fun t => records.any fun record => m.keyTextOf record == m.keyTextOf t

/-- Targets of which some have no record stay as they are; if all have one,
each is brought up to date. -/
theorem reconcile_eq (hm : m.Consistent) (htargets : ∀ t ∈ targets, t.model = m.model)
    (hrecords : ∀ record ∈ records, m.Typed record)
    (hnames : (inc.relations.map Prod.fst).Nodup) :
    (m.foundAmong targets records < targets.length →
      m.reconcile inc (targets.map m.keyValues) targets records
        = (.error (Fault.notFound targets.length (m.foundAmong targets records)), targets))
    ∧ (¬m.foundAmong targets records < targets.length →
      ∃ afters, m.reconcile inc (targets.map m.keyValues) targets records = (.ok (), afters)
        ∧ afters.length = targets.length
        ∧ ∀ i target after, targets[i]? = some target → afters[i]? = some after →
          ∃ record, m.firstOf records (m.keyTextOf target) = some record
            ∧ m.UpToDate inc (m.keyTextOf target ∈ (targets.take i).map m.keyTextOf) target
              record after) := by
  obtain ⟨loaded, hindex, hlookup⟩ := index_eq_ok fun record hmem => (hrecords record hmem).model
  have htexts : (targets.map m.keyValues).map Value.keyText = targets.map m.keyTextOf := by
    rw [List.map_map]
    rfl
  have hfound : (targets.map m.keyTextOf).countP (fun text => (loaded.lookup text).isSome)
      = m.foundAmong targets records := by
    rw [List.countP_map]
    refine List.countP_congr fun t _ => ?_
    show (loaded.lookup (m.keyTextOf t)).isSome = true ↔ _
    rw [hlookup, firstOf, List.find?_isSome, List.any_eq_true]
  have hzip : (targets.map m.keyTextOf).zip targets = targets.map fun t => (m.keyTextOf t, t) := by
    have h : (targets.map m.keyTextOf).zip (targets.map id)
        = targets.map fun t => (m.keyTextOf t, t) := List.zip_map'
    rwa [List.map_id] at h
  unfold reconcile
  rw [hindex]
  dsimp only
  rw [htexts, hfound, hzip]
  refine ⟨fun hlt => if_pos hlt, fun hnot => ?_⟩
  rw [if_neg hnot]
  have hall : ∀ t ∈ targets, (m.firstOf records (m.keyTextOf t)).isSome := by
    have hle : m.foundAmong targets records ≤ targets.length := List.countP_le_length
    have heq := List.countP_eq_length.1 (Nat.le_antisymm hle (Nat.not_lt.1 hnot))
    intro t ht
    rw [firstOf, List.find?_isSome]
    exact List.any_eq_true.1 (heq t ht)
  have hremaining : Remaining (m.loadedRelations inc) (m.firstOf records) [] loaded := by
    intro text record hrecord
    refine ⟨record, (hlookup text).trans hrecord, rfl, rfl, fun _ _ => rfl, fun h => ?_⟩
    exact absurd h List.not_mem_nil
  have hentries : ∀ entry ∈ targets.map fun t => (m.keyTextOf t, t),
      entry.2.model = m.model ∧ (m.firstOf records entry.1).isSome :=
    List.forall_mem_map.2 fun t ht => ⟨htargets t ht, hall t ht⟩
  obtain ⟨afters, hafters, hlength, hupdated⟩ := updateEach_eq hm
    (fun c hc => ((mem_loadedColumns hm).1 hc).1) (nodup_loadedRelations hnames)
    (fun _ record h => hrecords record (List.mem_of_find?_eq_some h)) hremaining hentries
  refine ⟨afters, ?_, hlength.trans (List.length_map _), fun i target after htarget hafter => ?_⟩
  · rw [hafters]
  · have hentry : (targets.map fun t => (m.keyTextOf t, t))[i]?
        = some (m.keyTextOf target, target) := by
      rw [List.getElem?_map, htarget]
      rfl
    obtain ⟨record, hrecord, h⟩ := hupdated i _ _ _ hentry hafter
    have htaken : ((targets.map fun t => (m.keyTextOf t, t)).take i).map Prod.fst
        = (targets.take i).map m.keyTextOf := by
      rw [← List.map_take, List.map_map]
      rfl
    rw [List.nil_append, htaken] at h
    exact ⟨record, hrecord, h.upToDate hm⟩

end Mapping

end RecordQuery

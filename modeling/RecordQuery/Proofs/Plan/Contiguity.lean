/-
Rows of one record together. Where a join fans out, a plan sorts by the
terms of the root's order, then by the root's key, then by the orders of
the included relations. If the terms in front of the key read only what
each record has one of, the rows of one record follow each other, and the
window counts every record once.

A term may as well read a table of which a record has many rows. Then the
record's rows are sorted apart, and it is read several times.

What a database makes of an order is a parameter: a rank for each term and
for each key column, of which no more is known than that it sorts, that a
term does not tell rows apart that agree on what it reads, and that key
columns tell values apart as equality does.
-/
import RecordQuery.Proofs.Loading.Contiguous
import RecordQuery.Proofs.Loading.FanOut
import RecordQuery.Proofs.Loading.Windowed
import RecordQuery.Proofs.Plan.InScope

namespace RecordQuery

-- ============================================================ vocabulary

/-- A path that follows to-one relations alone. -/
def Scope.ToOne (scope : Scope) (path : RelationPath) : Prop :=
  ∀ beginning ∈ path.inits.tail, ∀ last, scope.Leads beginning last → last.relation.kind = .one

/-- The alias of a table of which each record of the root has one row: the
root's own, or one at the end of a path of to-one relations. -/
def IncludeTree.Single (catalog : Catalog) (m : Mapping) (tableAlias : String) (inc : IncludeTree)
    (name : String) : Prop :=
  name = tableAlias
    ∨ ∃ path ∈ inc.usedPaths, ∃ last,
      (IncludeTree.rootScope catalog m tableAlias).ToOne path
      ∧ (IncludeTree.rootScope catalog m tableAlias).Leads path last ∧ name = last.pathAlias

/-- A result row, with the values of all columns of the tables that it was
joined from, by alias and name. -/
structure JoinedRow where
  row : Row
  value : String → String → Value

/-- What a row has in a selected column. -/
def JoinedRow.at (r : JoinedRow) (c : StructureColumn) : Value :=
  r.value c.ref.table c.ref.name

/-- How a database ranks rows: by a term of the root's order, by a column of
the root's key, and by whatever stands behind these. -/
structure Ranking where
  byTerm : OrderTerm → JoinedRow → JoinedRow → Ordering
  byKey : StructureColumn → JoinedRow → JoinedRow → Ordering
  behind : JoinedRow → JoinedRow → Ordering

/-- The ranks that count up to the key. -/
def Ranking.front (ranking : Ranking) (terms : List OrderTerm) (keys : List StructureColumn) :
    List (JoinedRow → JoinedRow → Ordering) :=
  terms.map ranking.byTerm ++ keys.map ranking.byKey

/-- Rows as a database delivers them for a plan. -/
structure Plan.Sorts (catalog : Catalog) (m : Mapping) (inc : IncludeTree) (plan : Plan)
    (ranking : Ranking) (rows : List JoinedRow) : Prop where
  /-- The rows are sorted by the terms, the key and what stands behind. -/
  sorted : rows.Pairwise fun a b =>
    (lexicographic (ranking.front inc.order plan.layout.keys ++ [ranking.behind]) a b).isLE
  transitive : ∀ rank ∈ ranking.front inc.order plan.layout.keys, Std.TransCmp rank
  /-- A term does not tell rows apart that agree on the columns it reads. -/
  byTerm : ∀ term ∈ inc.order, ∀ a ∈ rows, ∀ b ∈ rows,
    (∀ field ∈ term.element.fields, ∀ ref,
      (IncludeTree.rootScope catalog m plan.tableAlias).Reads plan.dialect field ref →
        a.value ref.table ref.name = b.value ref.table ref.name) →
    ranking.byTerm term a b = .eq
  /-- A key column tells values apart as equality does. -/
  byKey : ∀ key ∈ plan.layout.keys, ∀ a ∈ rows, ∀ b ∈ rows, (a.at key).equal (a.at key) →
    (ranking.byKey key a b = .eq ↔ (a.at key).equal (b.at key))
  /-- The key columns are selected. -/
  selected : ∀ r ∈ rows, plan.layout.keyOf r.row = plan.layout.keys.map r.at
  /-- The key determines the columns of the tables of which a record has one
  row. -/
  determined : ∀ a ∈ rows, ∀ b ∈ rows, plan.layout.continues a.row b.row →
    ∀ name, inc.Single catalog m plan.tableAlias name → ∀ column,
      a.value name column = b.value name column

-- ============================================================== equality

namespace Value

/-- A value that equals another equals itself. -/
theorem equal_self {v w : Value} (h : v.equal w) : v.equal v := by
  cases v with
  | float x =>
      cases w with
      | float y =>
          simp only [equal, Binary64.equal, Bool.and_eq_true] at h ⊢
          exact ⟨⟨h.1.1, h.1.1⟩, by simp⟩
      | _ => cases h
  | _ => simp [equal]

theorem equalAll_map {α : Type} {f g : α → Value} {xs : List α} :
    equalAll (xs.map f) (xs.map g) ↔ ∀ x ∈ xs, (f x).equal (g x) := by
  induction xs with
  | nil => simp [equalAll]
  | cons x xs ih =>
      rw [List.map_cons, List.map_cons, equalAll, Bool.and_eq_true, ih, List.forall_mem_cons]

end Value

-- ============================================================ contiguity

variable {catalog : Catalog} {dialect : Dialect} {m : Mapping} {inc : IncludeTree}
  {tableAlias : String} {offset : Nat} {limit : Option Nat} {plan : Plan}

/-- A field behind a path of to-one relations reads a table of which a
record has one row. -/
theorem IncludeTree.single_of_reads {field : String} {ref : ColumnRef}
    (hone : (IncludeTree.rootScope catalog m tableAlias).ToOne (FieldPath.split field).1)
    (hfield : field ∈ inc.writtenFields)
    (hreads : (IncludeTree.rootScope catalog m tableAlias).Reads dialect field ref) :
    inc.Single catalog m tableAlias ref.table := by
  rcases hreads.column with ⟨-, htable, -⟩ | ⟨last, hleads, htable, -⟩
  · exact Or.inl htable
  · have hused := mem_usedPaths_of_field hfield hleads.mem_inits_tail
    exact Or.inr ⟨_, hused, last, hone, hleads, htable⟩

namespace Plan.Sorts

variable {ranking : Ranking} {rows : List JoinedRow} {a b : JoinedRow}

/-- Rows of one record agree in the key. -/
theorem continues_iff (h : plan.Sorts catalog m inc ranking rows) (ha : a ∈ rows)
    (hb : b ∈ rows) : plan.layout.continues a.row b.row ↔
      ∀ key ∈ plan.layout.keys, (a.at key).equal (b.at key) := by
  rw [Structure.continues, h.selected a ha, h.selected b hb, Value.equalAll_map]

/-- Rows of one record rank the same up to the key. -/
theorem front_eq (h : plan.Sorts catalog m inc ranking rows)
    (hone : ∀ term ∈ inc.order, ∀ field ∈ term.element.fields,
      (IncludeTree.rootScope catalog m plan.tableAlias).ToOne (FieldPath.split field).1)
    (ha : a ∈ rows) (hb : b ∈ rows) (hab : plan.layout.continues a.row b.row) :
    ∀ rank ∈ ranking.front inc.order plan.layout.keys, rank a b = .eq := by
  intro rank hrank
  rcases List.mem_append.1 hrank with hrank | hrank
  · obtain ⟨term, hterm, rfl⟩ := List.mem_map.1 hrank
    refine h.byTerm term hterm a ha b hb fun field hfield ref hreads => ?_
    have hwritten := IncludeTree.mem_writtenFields_of_order hterm hfield
    exact h.determined a ha b hb hab ref.table
      (IncludeTree.single_of_reads (hone term hterm field hfield) hwritten hreads) ref.name
  · obtain ⟨key, hkey, rfl⟩ := List.mem_map.1 hrank
    have hequal := (h.continues_iff ha hb).1 hab key hkey
    exact (h.byKey key hkey a ha b hb (Value.equal_self hequal)).2 hequal

/-- Sorted rows of one record follow each other. -/
theorem contiguous (h : plan.Sorts catalog m inc ranking rows)
    (hone : ∀ term ∈ inc.order, ∀ field ∈ term.element.fields,
      (IncludeTree.rootScope catalog m plan.tableAlias).ToOne (FieldPath.split field).1) :
    plan.layout.Contiguous (rows.map JoinedRow.row) := by
  intro before first between last after heq hends row hrow
  -- the rows that the database delivered, behind those that are read
  obtain ⟨others, behind, rfl, hothers, hbehind⟩ := List.map_eq_append_iff.1 heq
  obtain ⟨front, others, rfl, -, hbetween⟩ := List.map_eq_append_iff.1 hothers
  obtain ⟨a, middle, rfl, rfl, rfl⟩ := List.map_eq_cons_iff.1 hbetween
  obtain ⟨c, behind, rfl, rfl, -⟩ := List.map_eq_cons_iff.1 hbehind
  obtain ⟨b, hb, rfl⟩ := List.mem_map.1 hrow
  have hsorted := h.sorted
  rw [List.append_assoc] at hsorted h
  obtain ⟨hfirst, -, hlast⟩ := List.pairwise_append.1 (List.pairwise_append.1 hsorted).2.1
  have hab := isLE_of_append ((List.pairwise_cons.1 hfirst).1 b hb)
  have hbc := isLE_of_append (hlast b (List.mem_cons_of_mem a hb) c List.mem_cons_self)
  have ha : a ∈ front ++ (a :: middle ++ c :: behind) :=
    List.mem_append_right _ (List.mem_append_left _ List.mem_cons_self)
  have hb : b ∈ front ++ (a :: middle ++ c :: behind) :=
    List.mem_append_right _ (List.mem_append_left _ (List.mem_cons_of_mem a hb))
  have hc : c ∈ front ++ (a :: middle ++ c :: behind) :=
    List.mem_append_right _ (List.mem_append_right _ List.mem_cons_self)
  -- the ends rank the same, so what stands between ranks as they do
  have hrank := eq_of_between h.transitive hab hbc (h.front_eq hone ha hc hends)
  refine (h.continues_iff ha hb).2 fun key hkey => ?_
  have hequal := (h.continues_iff ha hc).1 hends key hkey
  exact (h.byKey key hkey a ha b hb (Value.equal_self hequal)).1
    (hrank _ (List.mem_append_right _ (List.mem_map_of_mem hkey)))

end Plan.Sorts

-- ======================================================= the statement

/-- A plan whose order follows to-one relations reads every record once.
The terms in front of the root's key read tables of which a record has one
row; so rows sorted as the plan says keep those of a record together, and
what is read of them are the records of the runs in the window, no two of
one key. -/
theorem Plan.reads_records_once (catalog : Catalog) (dialect : Dialect) (m : Mapping)
    (inc : Include) (tableAlias : String) (offset : Nat) (limit : Option Nat) (plan : Plan)
    (hm : m ∈ catalog.mappings)
    (h : Plan.build catalog dialect m inc tableAlias offset limit = .ok plan)
    (hpaging : plan.paging = .records)
    (hone : ∀ term ∈ inc.tree.order, ∀ field ∈ term.element.fields,
      (IncludeTree.rootScope catalog m tableAlias).ToOne (FieldPath.split field).1) :
    (∃ front behind,
      plan.order = Fragment.listed
        (front ++ plan.layout.keys.map (StructureColumn.ascending dialect) ++ behind)
      ∧ List.Forall₂ (fun term f =>
          term.compile dialect (IncludeTree.rootScope catalog m tableAlias) = .ok f)
        inc.tree.order front
      ∧ ∀ term ∈ inc.tree.order, ∀ field ∈ term.element.fields, ∃ ref,
          (IncludeTree.rootScope catalog m tableAlias).Reads dialect field ref
          ∧ inc.tree.Single catalog m tableAlias ref.table)
    ∧ ∀ ranking rows, plan.Sorts catalog m inc ranking rows →
        plan.layout.Contiguous (rows.map JoinedRow.row)
        ∧ ∀ failure records,
          plan.layout.read plan.window ⟨rows.map JoinedRow.row, failure⟩ = .ok records →
          ∃ groups, records = groups.map plan.layout.grouped
            ∧ groups = plan.window.part (plan.layout.runs (rows.map JoinedRow.row))
            ∧ groups.Pairwise fun group next =>
              ¬plan.layout.continues (group.headD []) (next.headD []) := by
  obtain ⟨hdialect, halias⟩ := Plan.names_of_build h
  obtain ⟨hbuilt, hmapping, hoffset⟩ := Plan.layout_built h
  constructor
  · obtain ⟨-, hcompiled⟩ := Plan.placed_of_build h
    obtain ⟨fields, relations, walk, condition, joins, order, joins', -, -, -, -, horder, -, rfl⟩ :=
      Plan.of_build h
    have hmany : joins'.any fun join => join.kind.isMany := by
      by_contra hnot
      simp [hnot] at hpaging
    refine ⟨order, walk.orders, ?_, Walk.forall₂_of_orderBy horder,
      fun term hterm field hfield => ?_⟩
    · rw [Plan.tieBreakers, if_pos hmany]
    · have hwritten := IncludeTree.mem_writtenFields_of_order hterm hfield
      obtain ⟨f, hf⟩ := hcompiled.field field hwritten
      obtain ⟨ref, hreads⟩ := Scope.reads_of_field hf
      exact ⟨ref, hreads,
        IncludeTree.single_of_reads (hone term hterm field hfield) hwritten hreads⟩
  · intro ranking rows hsorts
    have hcontiguous := hsorts.contiguous (halias ▸ hone)
    refine ⟨hcontiguous, fun failure records hread => ⟨_, ?_, rfl, ?_⟩⟩
    · exact hbuilt.of_read (hmapping ▸ Catalog.consistent hm)
        (Plan.layout_distinct inc.distinct h) hoffset hread
    · exact hcontiguous.pairwise_runs.sublist (Window.part_sublist _ _)

-- ============================================================== families

/-- The first two people with their children, in an order. -/
def childrenBy (field : String) : Include :=
  (({ tree := { fields := ["id"], relations := [("children", { fields := ["hostId"] })] } } :
    Include).addFilter (.compare .lt (.field "id") (.value (.int64 3)))).addOrder
      ⟨.field field, .ascending⟩

/-- A row of a person, joined with a parent, and with a child and the host
of the child. -/
def familyRow : Int64 × Int64 × Int64 → JoinedRow
  | (id, child, host) =>
    { row := [.int64 id, .int64 id, .int64 child, .int64 host]
      value name column :=
        match column with
        | "id" =>
          .int64 (if name = "children" then child else if name = "parent" then id + 10 else id)
        | "host" => .int64 (if name = "children" then host else 10 - id)
        | _ => .null }

/-- The rows of one person beside each other. -/
def rowsTogether : List JoinedRow :=
  [(2, 3, 5), (2, 4, 6), (1, 5, 4)].map familyRow

/-- The rows of one person around that of another. -/
def rowsApart : List JoinedRow :=
  [(1, 3, 4), (2, 5, 6), (1, 7, 8)].map familyRow

/-- Numbers in their order, a column's for the terms. -/
def byNumber (name column : String) : Ranking where
  byTerm _ := compareOn fun r => (r.value name column).int?.getD 0
  byKey key := compareOn fun r => (r.at key).int?.getD 0
  behind _ _ := .eq

/-- A person has one parent, and several children. -/
theorem ne_children_of_single {field name : String}
    (hused : ∀ path ∈ (childrenBy field).tree.usedPaths, path = ["children"] ∨ path = ["parent"])
    (h : (childrenBy field).tree.Single personCatalog personMapping "people" name) :
    name ≠ "children" := by
  rcases h with rfl | ⟨path, hpath, last, hone, hleads, rfl⟩
  · decide
  · rcases hused path hpath with rfl | rfl
    · have hmany :
          (IncludeTree.rootScope personCatalog personMapping "people").Leads ["children"] _ :=
        ⟨[], "children", _, rfl, rfl, rfl⟩
      cases hleads.unique hmany
      cases hone ["children"] (by decide) _ hmany
    · rw [(hleads.aliases rfl).1]
      decide

/-- Rows of families are sorted as a plan says if they are by the numbers of
the column that the plan's order reads. -/
theorem sorts_families (field name column : String) {plan : Plan}
    {families : List (Int64 × Int64 × Int64)}
    (hused : ∀ path ∈ (childrenBy field).tree.usedPaths, path = ["children"] ∨ path = ["parent"])
    (halias : plan.tableAlias = "people")
    (hreads : ∃ ref,
      (IncludeTree.rootScope personCatalog personMapping "people").Reads plan.dialect field ref
      ∧ ref.table = name ∧ ref.name = column)
    (hsorted : (families.map familyRow).Pairwise fun a b =>
      (lexicographic ((byNumber name column).front (childrenBy field).tree.order plan.layout.keys
        ++ [(byNumber name column).behind]) a b).isLE)
    (hbyKey : ∀ key ∈ plan.layout.keys, ∀ a ∈ families.map familyRow, ∀ b ∈ families.map familyRow,
      (a.at key).equal (a.at key) →
        ((byNumber name column).byKey key a b = .eq ↔ (a.at key).equal (b.at key)))
    (hselected : ∀ r ∈ families.map familyRow,
      plan.layout.keyOf r.row = plan.layout.keys.map r.at)
    (hkeyOf : ∀ family, plan.layout.keyOf (familyRow family).row = [.int64 family.1]) :
    plan.Sorts personCatalog personMapping (childrenBy field) (byNumber name column)
      (families.map familyRow) where
  sorted := hsorted
  transitive rank hrank := by
    rcases List.mem_append.1 hrank with hrank | hrank
    · obtain ⟨term, -, rfl⟩ := List.mem_map.1 hrank
      exact inferInstanceAs (Std.TransCmp (compareOn _))
    · obtain ⟨key, -, rfl⟩ := List.mem_map.1 hrank
      exact inferInstanceAs (Std.TransCmp (compareOn _))
  byTerm term hterm a _ b _ hagree := by
    obtain ⟨ref, hreads, rfl, rfl⟩ := hreads
    obtain rfl := List.mem_singleton.1 hterm
    have hequal := hagree field (List.mem_singleton_self field) ref (halias ▸ hreads)
    simp only [byNumber, compareOn, hequal, Std.ReflCmp.compare_self]
  byKey := hbyKey
  selected := hselected
  determined a ha b hb hab name hname column := by
    obtain ⟨⟨id, child, host⟩, -, rfl⟩ := List.mem_map.1 ha
    obtain ⟨⟨id', child', host'⟩, -, rfl⟩ := List.mem_map.1 hb
    rw [Structure.continues, hkeyOf, hkeyOf] at hab
    have hid : id = id' := by simpa [Value.equalAll, Value.equal] using hab
    rw [halias] at hname
    simp only [familyRow, if_neg (ne_children_of_single hused hname), hid]

/-- Sorted by the host of the parent, the rows of a person follow each other,
and a window of one record has them all. -/
theorem Plan.reads_families_once : ∃ plan,
    Plan.build personCatalog Flavor.sqlite.dialect personMapping (childrenBy "parent.hostId")
        "people" 0 (some 1) = .ok plan
      ∧ plan.paging = .records
      ∧ plan.Sorts personCatalog personMapping (childrenBy "parent.hostId")
        (byNumber "parent" "host") rowsTogether
      ∧ plan.layout.read plan.window ⟨rowsTogether.map JoinedRow.row, none⟩
        = .ok [plan.layout.grouped ((rowsTogether.take 2).map JoinedRow.row)]
      ∧ plan.layout.Contiguous (rowsTogether.map JoinedRow.row) := by
  have hone : ∀ term ∈ (childrenBy "parent.hostId").tree.order, ∀ field ∈ term.element.fields,
      (IncludeTree.rootScope personCatalog personMapping "people").ToOne
        (FieldPath.split field).1 := by
    intro term hterm field hfield
    obtain rfl := List.mem_singleton.1 hterm
    obtain rfl := List.mem_singleton.1 hfield
    intro beginning hbeginning last hleads
    obtain rfl := List.mem_singleton.1 (show beginning ∈ [["parent"]] from hbeginning)
    cases hleads.unique ⟨[], "parent", _, rfl, rfl, rfl⟩
    rfl
  obtain ⟨plan, hbuild, hpaging, hsorts, hread⟩ : ∃ plan,
      Plan.build personCatalog Flavor.sqlite.dialect personMapping (childrenBy "parent.hostId")
          "people" 0 (some 1) = .ok plan
        ∧ plan.paging = .records
        ∧ plan.Sorts personCatalog personMapping (childrenBy "parent.hostId")
          (byNumber "parent" "host") rowsTogether
        ∧ plan.layout.read plan.window ⟨rowsTogether.map JoinedRow.row, none⟩
          = .ok [plan.layout.grouped ((rowsTogether.take 2).map JoinedRow.row)] :=
    ⟨_, rfl, rfl, sorts_families "parent.hostId" "parent" "host" (by decide) rfl
      ⟨_, ⟨⟨_, rfl, rfl⟩, _, rfl, rfl⟩, rfl, rfl⟩ (by decide) (by decide) (by decide)
      fun _ => rfl, rfl⟩
  exact ⟨plan, hbuild, hpaging, hsorts, hread, ((Plan.reads_records_once personCatalog
    Flavor.sqlite.dialect personMapping (childrenBy "parent.hostId") "people" 0 (some 1) plan
    List.mem_cons_self hbuild hpaging hone).2 _ _ hsorts).1⟩

/-- Sorted by the hosts of the children, the two rows of a person stand apart,
and the person is read twice, each time with one child. -/
theorem Plan.reads_families_twice : ∃ plan,
    Plan.build personCatalog Flavor.sqlite.dialect personMapping (childrenBy "children.hostId")
        "people" 0 none = .ok plan
      ∧ plan.paging = .records
      ∧ plan.order.map Fragment.sql = some "\"children\".\"host\" ASC, \"people\".\"id\" ASC"
      ∧ (∃ ref, (IncludeTree.rootScope personCatalog personMapping "people").Reads
          Flavor.sqlite.dialect "children.hostId" ref
        ∧ ¬(childrenBy "children.hostId").tree.Single personCatalog personMapping "people"
          ref.table)
      ∧ plan.Sorts personCatalog personMapping (childrenBy "children.hostId")
        (byNumber "children" "host") rowsApart
      ∧ ∃ records,
        plan.layout.read plan.window ⟨rowsApart.map JoinedRow.row, none⟩ = .ok records
        ∧ records.map (fun r => r.values.lookup "id")
          = [some (.int64 1), some (.int64 2), some (.int64 1)]
        ∧ records.map (fun r => ((r.related.lookup "children").getD []).map fun child =>
            child.values.lookup "id")
          = [[some (.int64 3)], [some (.int64 5)], [some (.int64 7)]] := by
  refine ⟨_, rfl, rfl, by decide, ⟨_, ⟨⟨_, rfl, rfl⟩, _, rfl, rfl⟩, fun h => ?_⟩,
    sorts_families "children.hostId" "children" "host" (by decide) rfl
      ⟨_, ⟨⟨_, rfl, rfl⟩, _, rfl, rfl⟩, rfl, rfl⟩ (by decide) (by decide) (by decide)
      fun _ => rfl,
    _, rfl, by decide, by decide⟩
  exact ne_children_of_single (by decide) h rfl

end RecordQuery

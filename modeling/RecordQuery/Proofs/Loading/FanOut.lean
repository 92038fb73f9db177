/-
The round trip of records through rows. The rows of one record carry its
key, so the runs of the rows of records are the rows of each; no record is
at fault in them, since every column takes what its type writes; and
grouping a run undoes expanding the record. However often a join repeats
related records, reading gives each of them once, in its place.
-/
import Mathlib.Data.List.Chain
import RecordQuery.Proofs.Loading.Cover
import RecordQuery.Proofs.Loading.Read

namespace RecordQuery

namespace Structure

variable {catalog : Catalog} {s : Structure} {row : Row} {t : Record}

-- ================================================================ faults

/-- What begins in a row begins at or below a structure that the row has a
record for. -/
theorem mem_begunBelow {relations : List (Relation × Structure)} {before : List Row}
    {u : Structure} (h : u ∈ begunBelow relations before row) :
    ∃ e ∈ relations, e.2.missing row = false ∧ ∃ before', u ∈ e.2 :: e.2.begun before' row := by
  induction relations with
  | nil => exact absurd h List.not_mem_nil
  | cons head rest ih =>
      obtain ⟨relation, s⟩ := head
      rw [begunBelow, List.mem_append] at h
      rcases h with h | h
      · refine ⟨(relation, s), List.mem_cons_self, ?_⟩
        dsimp only
        cases hmissing : s.missing row with
        | true =>
            rw [hmissing, if_pos rfl] at h
            exact absurd h List.not_mem_nil
        | false =>
            rw [hmissing, if_neg Bool.false_ne_true] at h
            split at h
            · exact ⟨rfl, _, List.mem_cons_of_mem _ h⟩
            · split at h
              · exact ⟨rfl, _, h⟩
              · exact absurd h List.not_mem_nil
      · obtain ⟨e, he, hbegun⟩ := ih h
        exact ⟨e, List.mem_cons_of_mem _ he, hbegun⟩

/-- No record that begins in a row of a record is at fault. -/
theorem Built.faultIn_begun (h : s.Built catalog) :
    ∀ {t : Record}, s.Fits t → s.slice row ∈ s.expand t →
      ∀ (before : List Row), ∀ u ∈ s :: s.begun before row, faultIn row u = none := by
  induction h with
  | @mk s keys fields relation target placed below ih =>
      intro t ht hrow before u hu
      have hbuilt : s.Built catalog := .mk keys fields relation target placed below
      cases ht with
      | mk typed exact one nodup present fits =>
          rcases List.mem_cons.1 hu with rfl | hu
          · exact hbuilt.faultIn_eq_none typed hrow
          · rw [begun_eq] at hu
            obtain ⟨e, he, hmissing, before', hu⟩ := mem_begunBelow hu
            have hblock := slice_mem_blocks placed hrow he
            -- a block of nulls has no record, so it is one of a child
            have hpresent : e.2.presentIn (e.2.slice row) = true := by
              rw [presentIn_slice, hmissing, Bool.not_false]
            have hchildren : t.relatedTo e.1.field ≠ [] := by
              intro hnil
              rw [hnil, blocks_nil, List.mem_singleton] at hblock
              rw [hblock, presentIn_null] at hpresent
              exact Bool.false_ne_true hpresent
            rw [blocks_of_ne_nil _ hchildren] at hblock
            obtain ⟨child, hchild, hblock⟩ := List.mem_flatMap.1 hblock
            exact ih e he (fits e he child hchild) hblock before' u hu

theorem Built.faultsAfter_eq_none (h : s.Built catalog) (ht : s.Fits t) {rows : List Row} :
    ∀ before : List Row, (∀ row ∈ rows, s.slice row ∈ s.expand t) →
      ∀ fault ∈ s.faultsAfter before rows, fault = none := by
  induction rows with
  | nil => exact fun _ _ fault hfault => absurd hfault List.not_mem_nil
  | cons row rest ih =>
      intro before hrows fault hfault
      obtain ⟨hrow, hrest⟩ := List.forall_mem_cons.1 hrows
      rw [faultsAfter] at hfault
      rcases List.mem_cons.1 hfault with rfl | hfault
      · unfold faultAt
        rw [List.findSome?_eq_none_iff]
        intro u hu
        apply h.faultIn_begun ht hrow before u
        rcases List.mem_append.1 hu with hu | hu
        · split at hu
          · exact List.mem_singleton.1 hu ▸ List.mem_cons_self
          · exact absurd hu List.not_mem_nil
        · exact List.mem_cons_of_mem _ hu
      · exact ih (before ++ [row]) hrest fault hfault

-- ================================================================== runs

/-- A run ends before the first row that does not go on with it. -/
theorem runs_cons_append (s : Structure) {first : Row} {run rest : List Row}
    (hrun : ∀ row ∈ run, s.continues first row = true)
    (hrest : ∀ row ∈ rest.head?, s.continues first row = false) :
    s.runs (first :: (run ++ rest)) = (first :: run) :: s.runs rest := by
  rw [runs, List.takeWhile_append_of_pos hrun, List.dropWhile_append_of_pos hrun]
  cases rest with
  | nil => rw [List.takeWhile_nil, List.dropWhile_nil, List.append_nil]
  | cons row rest =>
      have hnot : ¬s.continues first row = true := by
        rw [hrest row rfl]
        exact Bool.false_ne_true
      rw [List.takeWhile_cons_of_neg hnot, List.dropWhile_cons_of_neg hnot, List.append_nil]

theorem slice_of_mem_expand (hoffset : s.offset = 0) (h : row ∈ s.expand t) :
    s.slice row = row := by
  unfold slice
  rw [hoffset, List.drop_zero, ← length_of_mem_expand s t row h, List.take_length]

theorem keyOf_of_mem_expand (hoffset : s.offset = 0) (h : row ∈ s.expand t) :
    s.keyOf row = s.keyFrom t := by
  rw [← keyOfSlice_slice, slice_of_mem_expand hoffset h, keyOfSlice_of_mem_expand h]

/-- The runs of the rows of records are the rows of each, if the keys of
records behind each other differ. -/
theorem runs_flatMap_expand (hoffset : s.offset = 0) {trees : List Record} :
    (∀ t ∈ trees, ∀ v ∈ s.keyFrom t, v.isFloat = false) →
      trees.IsChain (fun t next => s.keyFrom t ≠ s.keyFrom next) →
      s.runs (trees.flatMap s.expand) = trees.map s.expand := by
  induction trees with
  | nil =>
      intro _ _
      rw [List.flatMap_nil, List.map_nil, runs]
  | cons t rest ih =>
      intro hexact hchain
      obtain ⟨ht, hrest⟩ := List.forall_mem_cons.1 hexact
      cases hrows : s.expand t with
      | nil => exact absurd hrows (s.expand_ne_nil t)
      | cons first run =>
          have hfirst : s.keyOf first = s.keyFrom t :=
            keyOf_of_mem_expand hoffset (hrows ▸ List.mem_cons_self)
          rw [List.flatMap_cons, hrows, List.cons_append, runs_cons_append, ih hrest hchain.of_cons,
            List.map_cons, hrows]
          · intro row hrow
            have hkey : s.keyOf row = s.keyFrom t :=
              keyOf_of_mem_expand hoffset (hrows ▸ List.mem_cons_of_mem _ hrow)
            unfold continues
            rw [hfirst, hkey, Value.equalAll_iff ht]
          · intro row hrow
            cases rest with
            | nil => cases hrow
            | cons next more =>
                have hnext : row ∈ s.expand next := by
                  cases hblocks : s.expand next with
                  | nil => exact absurd hblocks (s.expand_ne_nil next)
                  | cons block blocks =>
                      rw [List.flatMap_cons, hblocks] at hrow
                      cases hrow
                      exact List.mem_cons_self
                unfold continues
                rw [hfirst, keyOf_of_mem_expand hoffset hnext, ← Bool.not_eq_true,
                  Value.equalAll_iff ht]
                exact hchain.rel

-- ============================================================ round trip

/-- Reading the rows of records gives what the structure covers of each. -/
theorem Built.read_expand (h : s.Built catalog) (hm : s.mapping.Consistent) (hd : s.Distinct)
    (hoffset : s.offset = 0) {trees : List Record} (hfits : ∀ t ∈ trees, s.Fits t)
    (hchain : trees.IsChain fun t next => s.keyFrom t ≠ s.keyFrom next) :
    s.read {} ⟨trees.flatMap s.expand, none⟩ = .ok (trees.map s.project) := by
  have hslice : ∀ t, ∀ row ∈ s.expand t, s.slice row = row := fun t row hrow =>
    slice_of_mem_expand hoffset hrow
  have hwide : ∀ row ∈ trees.flatMap s.expand, row.length = s.width := by
    intro row hrow
    obtain ⟨t, -, hrow⟩ := List.mem_flatMap.1 hrow
    exact length_of_mem_expand s t row hrow
  have hruns := runs_flatMap_expand hoffset (fun t ht => (hfits t ht).exact) hchain
  have hnone : s.firstFault (trees.flatMap s.expand) = none := by
    unfold firstFault faults
    rw [hruns]
    refine firstFrom_eq_none_iff.2 fun fault hfault => ?_
    obtain ⟨rows, hrows, hfault⟩ := List.mem_flatMap.1 hfault
    obtain ⟨t, ht, rfl⟩ := List.mem_map.1 hrows
    refine h.faultsAfter_eq_none (hfits t ht) [] (fun row hrow => ?_) fault hfault
    rw [hslice t row hrow]
    exact hrow
  have hgrouped : ∀ t ∈ trees, s.grouped (s.expand t) = s.project t := by
    intro t ht
    apply h.grouped_eq_project hm (hfits t ht)
    rw [List.map_congr_left (hslice t), List.map_id']
    exact rfl
  rw [h.read_eq hm hd hoffset hwide, hnone, hruns, List.map_map]
  exact congrArg Except.ok (List.map_congr_left hgrouped)

end Structure

-- ======================================================= the statement

/-- Records come back from their rows. Reading the rows of records, each
the product of the rows of its relations, gives the records again, in
their order, with what the plan selects of each; and what is read has the
rows that were read. -/
theorem Plan.read_expand_eq (catalog : Catalog) (dialect : Dialect) (m : Mapping)
    (inc : Include) (tableAlias : String) (offset : Nat) (limit : Option Nat) (plan : Plan)
    (hm : m ∈ catalog.mappings)
    (h : Plan.build catalog dialect m inc tableAlias offset limit = .ok plan)
    (trees : List Record) (hfits : ∀ t ∈ trees, plan.layout.Fits t)
    (hchain : trees.IsChain fun t next => plan.layout.keyFrom t ≠ plan.layout.keyFrom next) :
    plan.layout.read {} ⟨trees.flatMap plan.layout.expand, none⟩
        = .ok (trees.map plan.layout.project)
      ∧ (trees.map plan.layout.project).flatMap plan.layout.expand
        = trees.flatMap plan.layout.expand := by
  obtain ⟨hbuilt, hmapping, hoffset⟩ := Plan.layout_built h
  have hconsistent : plan.layout.mapping.Consistent := hmapping ▸ Catalog.consistent hm
  have hdistinct := Plan.layout_distinct inc.distinct h
  refine ⟨hbuilt.read_expand hconsistent hdistinct hoffset hfits hchain, ?_⟩
  rw [List.flatMap_map]
  exact List.flatMap_congr fun t _ => hbuilt.expand_project hconsistent hdistinct t

/-- A mapping with two to-many relations and one to-one, all to the mapping
itself. -/
def personMapping : Mapping where
  model := "Person"
  table := "people"
  columns :=
    [{ name := "id", field := "id", type := .int64 },
     { name := "parent", field := "parentId", type := .optional .int64 },
     { name := "host", field := "hostId", type := .optional .int64 }]
  relations :=
    [{ field := "children", kind := .many, target := "Person", targetTable := "people"
       pairs := [⟨"id", "parent"⟩] },
     { field := "guests", kind := .many, target := "Person", targetTable := "people"
       pairs := [⟨"id", "host"⟩] },
     { field := "parent", kind := .one, target := "Person", targetTable := "people"
       pairs := [⟨"parent", "id"⟩] }]
  primaryKey := ["id"]

def personCatalog : Catalog := ⟨[personMapping], by decide⟩

def personInclude : Include where
  tree :=
    { fields := ["hostId"]
      relations :=
        [("children", { relations := [("guests", {})] }), ("guests", {}), ("parent", {})] }

def person (id : Int64) (related : List (String × List Record)) : Record :=
  ⟨"Person", [("id", .int64 id)], related⟩

theorem person_typed (id : Int64) (related : List (String × List Record)) :
    personMapping.Typed (person id related) :=
  ⟨rfl, List.forall_mem_cons.2 ⟨⟨id, rfl⟩, List.forall_mem_cons.2 ⟨⟨none, rfl⟩,
    List.forall_mem_singleton.2 ⟨none, rfl⟩⟩⟩⟩

/-- Two children, one with two guests, times two guests times a parent; and
a person alone. -/
def people : List Record :=
  [person 1
    [("children", [person 2 [("guests", [person 4 [], person 5 []])], person 3 []]),
     ("guests", [person 6 [], person 7 []]),
     ("parent", [person 8 []])],
   person 9 []]

/-- Seven rows hold nine people. -/
theorem Plan.read_people : ∃ plan,
    Plan.build personCatalog Flavor.sqlite.dialect personMapping personInclude "p" 0 none
        = .ok plan
      ∧ (people.flatMap plan.layout.expand).length = 7
      ∧ (∀ t ∈ people, plan.layout.Fits t)
      ∧ (people.IsChain fun t next => plan.layout.keyFrom t ≠ plan.layout.keyFrom next)
      ∧ plan.layout.read {} ⟨people.flatMap plan.layout.expand, none⟩
        = .ok (people.map plan.layout.project) := by
  obtain ⟨plan, hbuild, hrows, hfits, hchain⟩ : ∃ plan,
      Plan.build personCatalog Flavor.sqlite.dialect personMapping personInclude "p" 0 none
          = .ok plan
        ∧ (people.flatMap plan.layout.expand).length = 7
        ∧ (∀ t ∈ people, plan.layout.Fits t)
        ∧ (people.IsChain fun t next => plan.layout.keyFrom t ≠ plan.layout.keyFrom next) := by
    refine ⟨_, rfl, by decide +kernel, List.forall_mem_cons.2 ⟨?family,
      List.forall_mem_singleton.2 ?alone⟩, ?chain⟩
    case alone => exact .of_alone (person_typed _ _) (by decide) (by decide)
    case chain => exact List.IsChain.cons_cons (by decide) (.singleton _)
    case family =>
      refine .mk (person_typed _ _) (by decide) (by decide) (by decide) (by decide)
        (List.forall_mem_cons.2 ⟨?children, List.forall_mem_cons.2 ⟨?guests,
          List.forall_mem_singleton.2 ?parent⟩⟩)
      case guests =>
        exact List.forall_mem_cons.2 ⟨.of_alone (person_typed _ _) (by decide) (by decide),
          List.forall_mem_singleton.2 (.of_alone (person_typed _ _) (by decide) (by decide))⟩
      case parent =>
        exact List.forall_mem_singleton.2 (.of_alone (person_typed _ _) (by decide) (by decide))
      case children =>
        refine List.forall_mem_cons.2 ⟨?host, List.forall_mem_singleton.2
          (.of_alone (person_typed _ _) (by decide) (by decide))⟩
        refine .mk (person_typed _ _) (by decide) (by decide) (by decide) (by decide)
          (List.forall_mem_singleton.2 ?_)
        exact List.forall_mem_cons.2 ⟨.of_alone (person_typed _ _) (by decide) (by decide),
          List.forall_mem_singleton.2 (.of_alone (person_typed _ _) (by decide) (by decide))⟩
  exact ⟨plan, hbuild, hrows, hfits, hchain,
    (Plan.read_expand_eq personCatalog Flavor.sqlite.dialect personMapping personInclude "p" 0
      none plan List.mem_cons_self hbuild people hfits hchain).1⟩

end RecordQuery

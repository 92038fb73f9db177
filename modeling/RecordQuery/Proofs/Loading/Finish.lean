/-
Finishing a node: attaching what stands below it. The records below a node
of a built structure are of the models that its relations lead to, so
attaching never fails, and each relation holds them in the order in which
they were met.
-/
import Mathlib.Logic.Function.Basic
import RecordQuery.Proofs.Loading.Absorb

namespace RecordQuery

-- ============================================================ attaching

/-- A record of a mapping that holds related records by the names of their
fields. -/
def Record.holding (m : Mapping) (values : List (String × Value))
    (held : String → List Record) : Record :=
  { model := m.model, values, related := m.relations.map fun r => (r.field, held r.field) }

section Attach

variable {m : Mapping} {relation : Relation} {values : List (String × Value)}
  {held : String → List Record}

theorem Record.relatedTo_holding (hm : m.Consistent) (hr : relation ∈ m.relations) :
    (Record.holding m values held).relatedTo relation.field = held relation.field := by
  have hlookup := Entries.lookup_map Relation.field (fun r => held r.field) hm.relations hr
  unfold relatedTo
  rw [holding, hlookup, Option.getD_some]

theorem Record.setRelated_holding (hm : m.Consistent) (hr : relation ∈ m.relations)
    (records : List Record) :
    (Record.holding m values held).setRelated relation.field records
      = Record.holding m values (Function.update held relation.field records) := by
  have hput := Entries.put_map Relation.field (fun r => held r.field)
    (List.mem_map_of_mem hr) hm.relations records
  unfold setRelated
  rw [holding, hput, holding]
  simp only [Function.update_apply]

/-- A record of the relation's model is attached behind those that are
held; a to-one relation must hold none. -/
theorem Mapping.attach_holding (values : List (String × Value)) (hm : m.Consistent)
    (hr : relation ∈ m.relations)
    (hfree : relation.kind.isMany = true ∨ held relation.field = []) {child : Record}
    (hchild : child.model = relation.target) :
    m.attach relation (.holding m values held) child
      = .ok (.holding m values
        (Function.update held relation.field (held relation.field ++ [child]))) := by
  have hparent : (Record.holding m values held).asModel m.model
      = .ok (.holding m values held) := if_pos rfl
  have hmodel : child.asModel relation.target = .ok child := if_pos hchild
  unfold Mapping.attach
  cases hkind : relation.kind with
  | one =>
      have hempty : held relation.field = [] :=
        hfree.resolve_left (by rw [hkind]; exact Bool.false_ne_true)
      simp only [hparent, hmodel, bind, Except.bind, pure, Except.pure,
        Record.setRelated_holding hm hr, hempty, List.nil_append]
  | many =>
      simp only [hparent, hmodel, bind, Except.bind, pure, Except.pure,
        Record.relatedTo_holding hm hr, Record.setRelated_holding hm hr]

/-- Nodes that finish are attached one behind the other; of a to-one
relation there is no more than one. -/
theorem Structure.foldlM_attach (hm : m.Consistent) (hr : relation ∈ m.relations)
    (values : List (String × Value)) (s : Structure) (child : String × Node → Record)
    (group : List (String × Node)) :
    ∀ held : String → List Record,
      (∀ entry ∈ group, s.finish entry.2 = .ok (child entry)
        ∧ (child entry).model = relation.target) →
      (relation.kind.isMany = true ∨ (held relation.field).length + group.length ≤ 1) →
      group.foldlM (fun record (_, node) => do
          let child ← s.finish node
          match m.attach relation record child with
          | .ok record => pure record
          | .error e => throw ((e : Error).noted s!"attach `{relation.field}`"))
          (Record.holding m values held)
        = .ok (.holding m values
          (Function.update held relation.field (held relation.field ++ group.map child))) := by
  induction group with
  | nil =>
      intro held _ _
      rw [List.map_nil, List.append_nil, Function.update_eq_self]
      rfl
  | cons entry rest ih =>
      intro held hall hfree
      obtain ⟨⟨hfinish, hmodel⟩, hall⟩ := List.forall_mem_cons.1 hall
      have hnone : relation.kind.isMany = true ∨ held relation.field = [] := by
        refine hfree.imp id fun hle => List.length_eq_zero_iff.1 ?_
        rw [List.length_cons] at hle
        omega
      have hattach := Mapping.attach_holding values hm hr hnone hmodel
      have hrest := ih (Function.update held relation.field
        (held relation.field ++ [child entry])) hall (by
          refine hfree.imp id fun hle => ?_
          rw [List.length_cons] at hle
          rw [Function.update_self, List.length_append, List.length_singleton]
          omega)
      rw [Function.update_self, Function.update_idem, List.append_assoc,
        List.singleton_append] at hrest
      rw [List.foldlM_cons, List.map_cons]
      simp only [hfinish, hattach, bind, Except.bind, pure, Except.pure] at hrest ⊢
      exact hrest

end Attach

-- ============================================================ finishing

namespace Structure

variable {catalog : Catalog} {s : Structure} {rows : List Row}

theorem model_grouped (s : Structure) (rows : List Row) :
    (s.grouped rows).model = s.mapping.model := by
  cases s
  rfl

theorem grouped_eq (s : Structure) (rows : List Row) :
    s.grouped rows = Record.holding s.mapping (s.valuesIn (rows.headD [])) fun field =>
      ((groupedBelow s.relations rows).lookup field).getD [] := by
  cases s
  rfl

theorem map_fst_groupedBelow (relations : List (Relation × Structure)) (rows : List Row) :
    (groupedBelow relations rows).map Prod.fst = relations.map fun e => e.1.field := by
  induction relations with
  | nil => rfl
  | cons e rest ih =>
      obtain ⟨relation, s⟩ := e
      rw [groupedBelow, List.map_cons, List.map_cons, ih]

theorem length_keysOf_one (s : Structure) (rows : List Row) :
    (s.keysOf .one rows).length ≤ 1 :=
  List.length_take_le _ _

/-- What is held under the names of relations: the records of the first
relation under its own name, those of the others under theirs. -/
theorem getD_lookup_groupedBelow (relation : Relation) (s : Structure)
    {rest : List (Relation × Structure)}
    (hfresh : relation.field ∉ rest.map fun e => e.1.field) (rows : List Row)
    (held : String → List Record) (field : String) :
    ((groupedBelow ((relation, s) :: rest) rows).lookup field).getD (held field)
      = ((groupedBelow rest rows).lookup field).getD
        (Function.update held relation.field
          ((s.keysOf relation.kind rows).map fun key => s.grouped (s.rowsOf key rows)) field) := by
  rw [groupedBelow, List.lookup_cons]
  by_cases hfield : field = relation.field
  · subst hfield
    have habsent : (groupedBelow rest rows).lookup relation.field = none := by
      rw [List.lookup_eq_none_iff]
      intro entry hentry
      rw [bne_iff_ne]
      rintro heq
      rw [← map_fst_groupedBelow rest rows, heq] at hfresh
      exact hfresh (List.mem_map_of_mem hentry)
    rw [habsent, beq_self_eq_true]
    simp
  · have hne : (field == relation.field) = false := by simpa using hfield
    rw [hne, Function.update_of_ne hfield]

/-- The nodes below a node of rows are attached as the records that the rows
stand for, relation by relation. -/
theorem finishEach_nodesBelow {m : Mapping} (hm : m.Consistent)
    {relations : List (Relation × Structure)} (values : List (String × Value))
    (rows : List Row) :
    ∀ held : String → List Record,
      (relations.map fun e => e.1.field).Nodup →
      (∀ e ∈ relations, e.1 ∈ m.relations ∧ e.2.mapping.model = e.1.target
        ∧ ∀ rows, e.2.finish (e.2.nodeOf rows) = .ok (e.2.grouped rows)) →
      (∀ e ∈ relations, held e.1.field = []) →
      finishEach m relations (nodesBelow relations rows) (.holding m values held)
        = .ok (.holding m values fun field =>
          ((groupedBelow relations rows).lookup field).getD (held field)) := by
  induction relations with
  | nil =>
      intro held _ _ _
      rfl
  | cons e rest ih =>
      intro held hnodup hall hnone
      obtain ⟨relation, s⟩ := e
      rw [List.map_cons, List.nodup_cons] at hnodup
      obtain ⟨hfresh, hnodup⟩ := hnodup
      obtain ⟨⟨hr, hmodel, hfinish⟩, hall⟩ := List.forall_mem_cons.1 hall
      obtain ⟨hnone, hnone'⟩ := List.forall_mem_cons.1 hnone
      have hfree : relation.kind.isMany = true
          ∨ (held relation.field).length + (s.nodesFor relation.kind rows).length ≤ 1 := by
        rw [hnone, nodesFor, List.length_map, List.length_nil, Nat.zero_add]
        cases relation.kind with
        | many => exact Or.inl rfl
        | one => exact Or.inr (s.length_keysOf_one rows)
      have hgroup := foldlM_attach hm hr values s
        (fun entry => s.grouped (s.rowsOf entry.1 rows)) (s.nodesFor relation.kind rows) held (by
          intro entry hentry
          obtain ⟨key, -, rfl⟩ := List.mem_map.1 hentry
          exact ⟨hfinish _, by rw [model_grouped, hmodel]⟩) hfree
      rw [hnone, List.nil_append, nodesFor, List.map_map] at hgroup
      have hother : ∀ e ∈ rest, e.1.field ≠ relation.field := fun e he heq =>
        hfresh (heq ▸ List.mem_map_of_mem (f := fun e => e.1.field) he)
      have hrest := ih (Function.update held relation.field
          ((s.keysOf relation.kind rows).map fun key => s.grouped (s.rowsOf key rows)))
        hnodup hall fun e he => by rw [Function.update_of_ne (hother e he), hnone' e he]
      rw [nodesBelow, finishEach]
      refine (congrArg (· >>= _) hgroup).trans (hrest.trans ?_)
      congr 2
      funext field
      exact (getD_lookup_groupedBelow relation s hfresh rows held field).symm

/-- The node of rows is finished as the record that the rows stand for. -/
theorem Built.finish_nodeOf (h : s.Built catalog) :
    s.mapping.Consistent → s.Distinct →
      ∀ rows, s.finish (s.nodeOf rows) = .ok (s.grouped rows) := by
  induction h with
  | @mk s keys fields relation target placed below ih =>
      intro hm hdistinct rows
      cases hdistinct with
      | mk hfields hbelow =>
          have hall : ∀ e ∈ s.relations, e.1 ∈ s.mapping.relations
              ∧ e.2.mapping.model = e.1.target
              ∧ ∀ rows, e.2.finish (e.2.nodeOf rows) = .ok (e.2.grouped rows) := by
            intro e he
            exact ⟨List.mem_of_find?_eq_some (relation e he),
              (Catalog.mem_of_mapping? (target e he)).2,
              ih e he (Catalog.consistent_of_mapping? (target e he)) (hbelow e he)⟩
          have heach := finishEach_nodesBelow hm (s.valuesIn (rows.headD [])) rows (fun _ => [])
            hfields hall
            fun _ _ => rfl
          have hfinish : s.finish (s.nodeOf rows)
              = finishEach s.mapping s.relations (nodesBelow s.relations rows)
                (s.recordIn (rows.headD [])) := by
            rw [nodeOf_eq]
            cases s
            rfl
          rw [hfinish, grouped_eq]
          exact heach

end Structure

end RecordQuery

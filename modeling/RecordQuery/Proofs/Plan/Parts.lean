/-
A built plan, taken apart. `Plan.of_build` reads off every step that
building a plan takes; whatever is shown of built plans starts from it.
The joins of a plan are those of the kept uses of the request, and its
filter and order render what they are written as.
-/
import RecordQuery.Plan.Statement
import RecordQuery.Proofs.Plan.Use

namespace RecordQuery

variable {catalog : Catalog} {dialect : Dialect} {m : Mapping} {inc : IncludeTree}
  {tableAlias : String} {offset : Nat} {limit : Option Nat} {plan : Plan}

/-- The terms that keep the rows of one record together: the root's key
columns, where a join fans out. -/
def Plan.tieBreakers (dialect : Dialect) (joins : Joins) (keys : List StructureColumn) :
    List Fragment :=
  if joins.any fun join => join.kind.isMany then
    keys.map (StructureColumn.ascending dialect)
  else []

/-- The steps by which a plan was built. -/
theorem Plan.of_build
    (h : Plan.build catalog dialect m inc tableAlias offset limit = .ok plan) :
    ∃ fields relations walk condition joins order joins',
      m.fieldStructure tableAlias inc.fields = .ok fields
      ∧ IncludeTree.layoutEach dialect catalog m tableAlias ""
          { offset := (m.keyStructure tableAlias "_").length + fields.length } inc.relations
          = .ok (relations, walk)
      ∧ inc.filter.mapM (Clause.compile dialect (IncludeTree.rootScope catalog m tableAlias))
          = .ok condition
      ∧ walk.joins.merge ((condition.map Fragment.joins).getD []) = .ok joins
      ∧ Walk.orderBy dialect (IncludeTree.rootScope catalog m tableAlias) joins inc.order
          = .ok (order, joins')
      ∧ joins'.apartFrom tableAlias = .ok ()
      ∧ plan =
          { dialect, table := m.table, tableAlias, joins := joins', condition
            order := Fragment.listed (order
              ++ Plan.tieBreakers dialect joins' (m.keyStructure tableAlias "_") ++ walk.orders)
            limit, offset
            paging := if joins'.any fun join => join.kind.isMany then .records else .rows
            layout :=
              { mapping := m, tableAlias, offset := 0, keys := m.keyStructure tableAlias "_"
                fields, relations } } := by
  obtain ⟨fields, hfields, h⟩ := bind_eq_ok.1 h
  obtain ⟨⟨relations, walk⟩, hwalk, h⟩ := bind_eq_ok.1 h
  obtain ⟨condition, hcondition, h⟩ := bind_eq_ok.1 h
  obtain ⟨joins, hjoins, h⟩ := bind_eq_ok.1 h
  obtain ⟨⟨order, joins'⟩, horder, h⟩ := bind_eq_ok.1 h
  obtain ⟨⟨⟩, hroot, h⟩ := bind_eq_ok.1 h
  exact ⟨fields, relations, walk, condition, joins, order, joins', hfields, hwalk, hcondition,
    hjoins, horder, hroot, (pure_eq_ok.1 h).symm⟩

theorem Plan.names_of_build
    (h : Plan.build catalog dialect m inc tableAlias offset limit = .ok plan) :
    plan.dialect = dialect ∧ plan.tableAlias = tableAlias := by
  obtain ⟨_, _, _, _, _, _, _, -, -, -, -, -, -, rfl⟩ := Plan.of_build h
  exact ⟨rfl, rfl⟩

/-- Before anything is entered the walk has taken no use. -/
theorem Walk.Took.start (offset : Nat) : Walk.Took dialect catalog { offset } [] :=
  ⟨by simp, rfl, .nil⟩

/-- The parts of a built plan: its joins are those of the kept uses, its
filter renders the filter of the request, and its order lists the root's
terms, the tie-breakers and the terms of the included relations. -/
theorem Plan.renders_of_build (hd : dialect.Lawful)
    (h : Plan.build catalog dialect m inc tableAlias offset limit = .ok plan) :
    plan.joins = (inc.keptUses catalog m tableAlias).map (Use.join dialect catalog)
      ∧ (∀ u ∈ inc.keptUses catalog m tableAlias, u.IsWritten dialect catalog)
      ∧ (inc.filter = none ∧ plan.condition = none
        ∨ ∃ clause f, inc.filter = some clause ∧ plan.condition = some f
          ∧ f.Renders dialect
            (clause.written dialect (IncludeTree.rootScope catalog m tableAlias)) clause.literals
            (clause.steps (IncludeTree.rootScope catalog m tableAlias)))
      ∧ ∃ order nested,
        plan.order = Fragment.listed
          (order ++ Plan.tieBreakers dialect plan.joins plan.layout.keys ++ nested)
        ∧ List.Forall₂ (fun f (term : OrderTerm) => f.Renders dialect
            (term.written dialect (IncludeTree.rootScope catalog m tableAlias))
            term.element.literals
            (term.element.steps (IncludeTree.rootScope catalog m tableAlias))) order inc.order
        ∧ List.Forall₂ (fun f (use : Use × OrderTerm) => f.Renders dialect
            (use.2.written dialect (use.1.scope catalog)) use.2.element.literals
            (use.2.element.steps (use.1.scope catalog))) nested
            ((inc.includedUses catalog m tableAlias).flatMap Use.terms) := by
  obtain ⟨fields, relations, walk, condition, joins, order, joins', -, hwalk, hcondition, hjoins,
    horder, -, rfl⟩ := Plan.of_build h
  have htook := IncludeTree.layoutEach_took hd (Walk.Took.start _) hwalk
  rw [List.nil_append] at htook
  set scope := IncludeTree.rootScope catalog m tableAlias
  -- the filter's joins come behind those of the walk
  have hfilter : joins = Joins.firsts ((inc.includedUses catalog m tableAlias
        ++ ((inc.filter.map (Clause.steps scope)).getD []).map Use.ofStep).map
          (Use.join dialect catalog))
      ∧ (inc.filter = none ∧ condition = none
        ∨ ∃ clause f, inc.filter = some clause ∧ condition = some f
          ∧ f.Renders dialect (clause.written dialect scope) clause.literals
            (clause.steps scope)) := by
    rw [htook.joins] at hjoins
    rcases option_mapM_eq_ok hcondition with ⟨hnone, rfl⟩ | ⟨clause, f, hsome, rfl, hf⟩
    · cases hjoins
      rw [hnone]
      exact ⟨by simp [IncludeTree.includedUses], Or.inl ⟨rfl, rfl⟩⟩
    · have hrender := Clause.compile_renders hd hf
      rw [Option.map_some, Option.getD_some, hrender.joins] at hjoins
      rw [hsome]
      exact ⟨Joins.merge_uses hjoins, Or.inr ⟨clause, f, rfl, rfl, hrender⟩⟩
  rw [hfilter.1] at horder
  obtain ⟨hjoins', hterms⟩ := Walk.orderBy_renders hd horder
  refine ⟨?_, fun u hu => ?_, hfilter.2, order, walk.orders, rfl, hterms, htook.orders⟩
  · show joins' = _
    rw [hjoins', IncludeTree.keptUses, Joins.firsts, firstsBy_map, List.append_assoc,
      ← List.map_append]
    rfl
  · rcases List.mem_append.1 (mem_of_mem_firstsBy hu) with hu | hu
    · exact htook.written u hu
    · obtain ⟨step, -, rfl⟩ := List.mem_map.1 hu
      exact .ofStep hd step

end RecordQuery

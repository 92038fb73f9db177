/-
What a node has taken up. The node of some rows holds, for each relation,
the nodes of the keys that the rows hold, each of the rows that carry its
key; absorbing one more row makes it the node of the rows with that one
behind them.

Loading consumes the row as it goes, so the row that a structure is given
is not the row that was delivered. But structures are laid out in the
order in which they are taken up, and each consumes no more than its own
part: what stands from the structure on is as it was delivered, and that is
all it looks at. `Settles` carries this along.
-/
import RecordQuery.Proofs.Loading.Keys
import RecordQuery.Proofs.Loading.Load

namespace RecordQuery

namespace Structure

-- ================================================================ nodes

mutual

/-- The node of rows: the record in the first row, and below it the nodes
of the keys that the rows hold. -/
def nodeOf : Structure → List Row → Node
  | ⟨m, tableAlias, offset, keys, fields, relations⟩, rows =>
    ⟨recordIn ⟨m, tableAlias, offset, keys, fields, relations⟩ (rows.headD []),
      nodesBelow relations rows⟩
termination_by structural s => s

/-- The nodes below a node of rows, relation by relation. -/
def nodesBelow : List (Relation × Structure) → List Row → List (List (String × Node))
  | [], _ => []
  | (relation, s) :: rest, rows =>
    ((s.keysOf relation.kind rows).map fun key => (key, s.nodeOf (s.rowsOf key rows)))
      :: nodesBelow rest rows
termination_by structural relations => relations

end

/-- The nodes of the keys that rows hold for a relation. -/
def nodesFor (s : Structure) (kind : RelationKind) (rows : List Row) : List (String × Node) :=
  (s.keysOf kind rows).map fun key => (key, s.nodeOf (s.rowsOf key rows))

theorem nodeOf_eq (s : Structure) (rows : List Row) :
    s.nodeOf rows = ⟨s.recordIn (rows.headD []), nodesBelow s.relations rows⟩ := by
  cases s
  rfl

/-- A node is that of its first row, whatever rows follow. -/
theorem nodeOf_append (s : Structure) {rows : List Row} (h : rows ≠ []) (row : Row) :
    s.nodeOf (rows ++ [row])
      = ⟨s.recordIn (rows.headD []), nodesBelow s.relations (rows ++ [row])⟩ := by
  cases rows with
  | nil => exact absurd rfl h
  | cons first rest => exact nodeOf_eq s _

theorem nodesBelow_eq_map (relations : List (Relation × Structure)) (rows : List Row) :
    nodesBelow relations rows = relations.map fun e => e.2.nodesFor e.1.kind rows := by
  induction relations with
  | nil => rfl
  | cons e rest ih =>
      rw [nodesBelow, ih]
      rfl

theorem nodesBelow_nil (relations : List (Relation × Structure)) :
    nodesBelow relations [] = relations.map fun _ => [] := by
  induction relations with
  | nil => rfl
  | cons e rest ih =>
      obtain ⟨relation, s⟩ := e
      rw [nodesBelow, ih, List.map_cons]
      cases hk : relation.kind <;> rfl

-- ======================================================= taking up a row

/-- Takes up what a row adds to the nodes of a relation. -/
def absorbGroup (s : Structure) (kind : RelationKind) (group : List (String × Node)) (row : Row) :
    Except Fault (List (String × Node) × Row) :=
  if s.missing row then pure (group, row)
  else
    match group.lookup (s.keyIn row) with
    | some child => do
      let (child, row') ← s.absorb child row
      pure (Entries.put (s.keyIn row) child group, row')
    | none =>
      if !kind.isMany && !group.isEmpty then pure (group, row)
      else do
        let (child, row') ← s.start row
        let (child, row') ← s.absorb child row'
        pure (Entries.put (s.keyIn row) child group, row')

theorem absorbEach_cons (relation : Relation) (s : Structure)
    (rest : List (Relation × Structure)) (group : List (String × Node))
    (groups : List (List (String × Node))) (row : Row) :
    absorbEach ((relation, s) :: rest) (group :: groups) row = (do
      let (group, row) ← s.absorbGroup relation.kind group row
      let (groups, row) ← absorbEach rest groups row
      pure (group :: groups, row)) := by
  rw [absorbEach, absorbGroup]
  by_cases hmissing : s.missing row = true
  · rw [if_pos hmissing, if_pos hmissing]
  · rw [if_neg hmissing, if_neg hmissing]
    dsimp only
    cases group.lookup (s.keyIn row) with
    | some child =>
        dsimp only
        cases s.absorb child row <;> rfl
    | none =>
        dsimp only
        split
        · rfl
        · cases s.start row with
          | error e => rfl
          | ok started =>
              obtain ⟨child, left⟩ := started
              cases hchild : s.absorb child left <;>
                simp only [bind, Except.bind, pure, Except.pure, hchild]

theorem absorb_eq (s : Structure) (node : Node) (row : Row) :
    s.absorb node row = (absorbEach s.relations node.children row).map fun (children, row) =>
      ({ node with children }, row) := by
  cases s
  rfl

/-- A step that fails with a fault, if there is one, and otherwise gives
what it should and leaves a row as it is from a position on. -/
def Settles {α : Type} (fault : Option Fault) (step : Except Fault (α × Row)) (result : α)
    (stop : Nat) (row : Row) : Prop :=
  match fault with
  | some f => step = .error f
  | none => ∃ left, step = .ok (result, left) ∧ left.drop stop = row.drop stop

namespace Settles

variable {α β : Type} {fault more : Option Fault} {step : Except Fault (α × Row)} {a : α}
  {b : β} {stop stop' : Nat} {row : Row}

theorem pure {left : Row} (h : left.drop stop = row.drop stop) :
    Settles none (Pure.pure (a, left)) a stop row :=
  ⟨left, rfl, h⟩

/-- Steps one after the other: the first fault of either. -/
theorem bind {next : α × Row → Except Fault (β × Row)} (h : Settles fault step a stop row)
    (hnext : ∀ left, left.drop stop = row.drop stop →
      Settles more (next (a, left)) b stop' row) :
    Settles (fault.or more) (step >>= next) b stop' row := by
  cases fault with
  | some f =>
      have hstep : step = .error f := h
      rw [hstep]
      exact rfl
  | none =>
      obtain ⟨left, hstep, hleft⟩ := h
      rw [hstep, Option.none_or]
      exact hnext left hleft

/-- A step that succeeds gives what it should. -/
theorem of_ok (h : Settles fault step a stop row) {done : α × Row} (hdone : step = .ok done) :
    done.1 = a := by
  cases fault with
  | some f =>
      have hstep : step = .error f := h
      rw [hstep] at hdone
      cases hdone
  | none =>
      obtain ⟨left, hstep, -⟩ := h
      rw [hstep] at hdone
      cases hdone
      rfl

/-- A step whose result is put into another one. -/
theorem andPure {next : α × Row → Except Fault (β × Row)} (h : Settles fault step a stop row)
    (hnext : ∀ left, next (a, left) = Pure.pure (b, left)) :
    Settles fault (step >>= next) b stop row := by
  have hboth : Settles (fault.or none) (step >>= next) b stop row :=
    h.bind fun left hleft => by rw [hnext]; exact .pure hleft
  rwa [Option.or_none] at hboth

/-- A step whose result is mapped. -/
theorem map (h : Settles fault step a stop row) (f : α → β) :
    Settles fault (step.map fun (a, left) => (f a, left)) (f a) stop row := by
  cases fault with
  | some e =>
      have hstep : step = .error e := h
      rw [hstep]
      exact rfl
  | none =>
      obtain ⟨left, hstep, hleft⟩ := h
      rw [hstep]
      exact ⟨left, rfl, hleft⟩

end Settles

-- ======================================================== consumed rows

section Consumed

variable {catalog : Catalog} {s : Structure} {row left : Row}

theorem keyOf_of_drop (h : left.drop s.offset = row.drop s.offset) :
    s.keyOf left = s.keyOf row := by
  unfold keyOf
  rw [h]

theorem missing_of_drop (h : left.drop s.offset = row.drop s.offset) :
    s.missing left = s.missing row := by
  unfold missing
  rw [keyOf_of_drop h]

theorem load_of_drop (h : left.drop s.offset = row.drop s.offset) :
    s.load left = s.load row := by
  have hfields : s.fieldsOf left = s.fieldsOf row := by
    unfold fieldsOf keyEnd
    rw [← List.drop_drop, ← List.drop_drop, h]
  unfold load
  rw [keyOf_of_drop h, hfields]

/-- Moving the data values out of a row leaves what is behind them. -/
theorem drop_emptied (s : Structure) (row : Row) :
    (s.emptied row).drop s.fieldEnd = row.drop s.fieldEnd := by
  have hmoved : (row.take s.keyEnd ++ (s.fieldsOf row).map fun v => v.take.2).length
      = min s.fieldEnd row.length := by
    rw [List.length_append, List.length_take, List.length_map, fieldsOf, List.length_take,
      List.length_drop, fieldEnd]
    omega
  unfold emptied
  rcases Nat.le_total s.fieldEnd row.length with hle | hle
  · rw [Nat.min_eq_left hle] at hmoved
    exact List.drop_left' hmoved
  · rw [List.drop_eq_nil_of_le hle, List.append_nil]
    exact List.drop_eq_nil_of_le (by rw [hmoved]; exact Nat.min_le_left _ _)

theorem slot_lt {slot : StructureColumn × Nat} (h : slot ∈ s.slots) : slot.2 < s.fieldEnd := by
  rw [slots_eq_zipIdx] at h
  have hlt := List.snd_lt_add_of_mem_zipIdx h
  rwa [List.length_append, ← ownWidth, ← fieldEnd_eq] at hlt

theorem offset_le_fieldEnd (s : Structure) : s.offset ≤ s.fieldEnd := by
  rw [fieldEnd_eq]
  omega

theorem fieldEnd_le (s : Structure) : s.fieldEnd ≤ s.offset + s.width := by
  rw [fieldEnd_eq, width_eq]
  omega

/-- A new node is that of its first row, if the row's values are taken. -/
theorem Built.start_settles (h : s.Built catalog) (hm : s.mapping.Consistent)
    (hleft : left.drop s.offset = row.drop s.offset) (hrow : s.offset + s.width ≤ row.length) :
    Settles (faultIn row s) (s.start left) ⟨s.recordIn row, nodesBelow s.relations []⟩
      s.fieldEnd row := by
  have hload := h.load_eq hm fun slot hslot =>
    Nat.lt_of_lt_of_le (slot_lt hslot) (Nat.le_trans s.fieldEnd_le hrow)
  unfold start
  rw [load_of_drop hleft, hload, nodesBelow_nil]
  cases faultIn row s with
  | some f => rfl
  | none =>
      refine ⟨s.emptied left, rfl, ?_⟩
      rw [drop_emptied, fieldEnd_eq, ← List.drop_drop, hleft, List.drop_drop]

end Consumed

-- =============================================================== groups

/-- What is found first in a list is found in its head or behind it. -/
theorem findSome?_cons_or {α β : Type} (f : α → Option β) (a : α) (as : List α) :
    (a :: as).findSome? f = (f a).or (as.findSome? f) := by
  rw [List.findSome?_cons]
  cases f a <;> rfl

section Groups

variable {catalog : Catalog} {s : Structure} {kind : RelationKind} {rows : List Row}
  {row left : Row}

/-- Absorbing a row into the node of some rows makes it the node of the rows
with that one behind them, and leaves what stands behind the structure. -/
def AbsorbSettles (s : Structure) : Prop :=
  ∀ (record : Record) (rows : List Row) {row left : Row},
    left.drop s.fieldEnd = row.drop s.fieldEnd → s.offset + s.width ≤ row.length →
    Settles ((s.begun rows row).findSome? (faultIn row))
      (s.absorb ⟨record, nodesBelow s.relations rows⟩ left)
      ⟨record, nodesBelow s.relations (rows ++ [row])⟩ (s.offset + s.width) row

/-- The structures of a relation, and those below it, of which records begin
in a row. -/
def begunFor (s : Structure) (kind : RelationKind) (before : List Row) (row : Row) :
    List Structure :=
  if s.missing row then []
  else if s.keyIn row ∈ s.keysOf kind before then
    s.begun (s.rowsOf (s.keyIn row) before) row
  else if s.keyIn row ∈ s.keysOf kind (before ++ [row]) then s :: s.begun [] row
  else []

/-- A row that adds no key and no row to the keys there are leaves their
nodes. -/
theorem nodesFor_append_same (hkeys : s.keysOf kind (rows ++ [row]) = s.keysOf kind rows)
    (hrows : ∀ key ∈ s.keysOf kind rows, s.rowsOf key (rows ++ [row]) = s.rowsOf key rows) :
    s.nodesFor kind (rows ++ [row]) = s.nodesFor kind rows := by
  unfold nodesFor
  rw [hkeys]
  exact List.map_congr_left fun key hkey => by rw [hrows key hkey]

/-- A row of a key that is held changes the node of the key. -/
theorem nodesFor_append_held (hmissing : s.missing row = false)
    (hkey : s.keyIn row ∈ s.keysOf kind rows) :
    Entries.put (s.keyIn row) (s.nodeOf (s.rowsOf (s.keyIn row) (rows ++ [row])))
      (s.nodesFor kind rows) = s.nodesFor kind (rows ++ [row]) := by
  unfold nodesFor
  rw [keysOf_append_held hmissing hkey]
  have hput := Entries.put_map id (fun key => s.nodeOf (s.rowsOf key rows))
    (List.mem_map_of_mem (f := id) hkey) (by rw [List.map_id]; exact nodup_keysOf)
    (s.nodeOf (s.rowsOf (s.keyIn row) (rows ++ [row])))
  refine hput.trans (List.map_congr_left fun key _ => ?_)
  by_cases hsame : key = s.keyIn row
  · subst hsame
    simp
  · rw [rowsOf_append_other hsame]
    simp [hsame]

/-- A row of a new key adds its node. -/
theorem nodesFor_append_new (hmissing : s.missing row = false)
    (hkey : s.keyIn row ∉ s.keysOf kind rows)
    (hfree : kind.isMany = true ∨ s.keysOf kind rows = []) :
    Entries.put (s.keyIn row) (s.nodeOf [row]) (s.nodesFor kind rows)
      = s.nodesFor kind (rows ++ [row]) := by
  obtain ⟨hkeys, hcarried⟩ := keysOf_append_new hmissing hkey hfree
  have hnew : s.keyIn row ∉ (s.nodesFor kind rows).map Prod.fst := by
    unfold nodesFor
    rw [List.map_map]
    simpa [Function.comp_def] using hkey
  rw [Entries.put_of_notMem hnew, nodesFor, nodesFor, hkeys, List.map_append,
    List.map_singleton, rowsOf_append_self hmissing, rowsOf_eq_nil hcarried, List.nil_append]
  congr 1
  refine List.map_congr_left fun key hmem => ?_
  rw [rowsOf_append_other fun hsame => hkey (hsame ▸ hmem)]

/-- A relation is closed to a new key if it is to-one and has a node. -/
theorem closed_iff (s : Structure) (kind : RelationKind) (rows : List Row) :
    (!kind.isMany && !(s.nodesFor kind rows).isEmpty) = true
      ↔ ¬(kind.isMany = true ∨ s.keysOf kind rows = []) := by
  have hempty : (s.nodesFor kind rows).isEmpty = true ↔ s.keysOf kind rows = [] := by
    unfold nodesFor
    rw [List.isEmpty_iff, List.map_eq_nil_iff]
  rw [Bool.and_eq_true, Bool.not_eq_true', Bool.not_eq_true', ← Bool.not_eq_true,
    ← Bool.not_eq_true, hempty, not_or]

/-- Taking up a row makes the nodes of rows those of the rows with that one
behind them. -/
theorem Built.absorbGroup_settles (h : s.Built catalog) (kind : RelationKind)
    (rows : List Row) (hm : s.mapping.Consistent)
    (habsorb : s.AbsorbSettles) (hleft : left.drop s.offset = row.drop s.offset)
    (hrow : s.offset + s.width ≤ row.length) :
    Settles ((s.begunFor kind rows row).findSome? (faultIn row))
      (s.absorbGroup kind (s.nodesFor kind rows) left) (s.nodesFor kind (rows ++ [row]))
      (s.offset + s.width) row := by
  have hkeyIn : s.keyIn left = s.keyIn row := by rw [keyIn, keyIn, keyOf_of_drop hleft]
  have hbehind : ∀ {stop : Nat}, s.offset ≤ stop → left.drop stop = row.drop stop := by
    intro stop hle
    rw [← Nat.add_sub_cancel' hle, ← List.drop_drop, hleft, List.drop_drop]
  unfold absorbGroup begunFor
  rw [hkeyIn, missing_of_drop hleft]
  by_cases hmissing : s.missing row = true
  · rw [if_pos hmissing, if_pos hmissing, nodesFor_append_same
      (keysOf_append_missing hmissing) fun key _ => rowsOf_append_missing hmissing]
    exact .pure (hbehind (by omega))
  · rw [if_neg hmissing, if_neg hmissing]
    rw [Bool.not_eq_true] at hmissing
    by_cases hkey : s.keyIn row ∈ s.keysOf kind rows
    · -- the key is held: its node takes up the row
      have hlookup : (s.nodesFor kind rows).lookup (s.keyIn row)
          = some (s.nodeOf (s.rowsOf (s.keyIn row) rows)) :=
        Entries.lookup_map id _ (by rw [List.map_id]; exact nodup_keysOf) hkey
      have hrows := rowsOf_ne_nil (carried_of_mem_keysOf hkey)
      rw [hlookup, if_pos hkey, nodeOf_eq, ← nodesFor_append_held hmissing hkey,
        rowsOf_append_self hmissing, nodeOf_append s hrows]
      exact (habsorb _ _ (hbehind s.offset_le_fieldEnd) hrow).andPure fun _ => rfl
    · have hlookup : (s.nodesFor kind rows).lookup (s.keyIn row) = none := by
        rw [List.lookup_eq_none_iff]
        intro entry hentry
        obtain ⟨key, hmem, rfl⟩ := List.mem_map.1 hentry
        rw [bne_iff_ne]
        exact fun heq => hkey (heq ▸ hmem)
      rw [hlookup, if_neg hkey]
      dsimp only
      by_cases hfree : kind.isMany = true ∨ s.keysOf kind rows = []
      · -- the row begins a record
        have hopen : ¬(!kind.isMany && !(s.nodesFor kind rows).isEmpty) = true :=
          fun hclosed => (s.closed_iff kind rows).1 hclosed hfree
        have hmem : s.keyIn row ∈ s.keysOf kind (rows ++ [row]) := by
          rw [(keysOf_append_new hmissing hkey hfree).1]
          exact List.mem_append_right _ List.mem_cons_self
        rw [if_neg hopen, if_pos hmem, findSome?_cons_or,
          ← nodesFor_append_new hmissing hkey hfree, nodeOf_eq]
        exact (h.start_settles hm hleft hrow).bind fun left' hleft' =>
          (habsorb _ [] hleft' hrow).andPure fun _ => rfl
      · -- the relation has its one record
        have hclosed := (s.closed_iff kind rows).2 hfree
        rw [not_or, Bool.not_eq_true] at hfree
        obtain ⟨hone, hheld⟩ := hfree
        have hkeys := keysOf_append_refused hmissing hone hheld
        rw [if_pos hclosed, if_neg (hkeys ▸ hkey), nodesFor_append_same hkeys fun key hmem =>
          rowsOf_append_other fun hsame => hkey (hsame ▸ hmem)]
        exact .pure (hbehind (by omega))

/-- Taking up a row below a node, relation by relation. -/
theorem absorbEach_settles (rows : List Row) {relations : List (Relation × Structure)}
    (hbuilt : ∀ e ∈ relations, e.2.Built catalog)
    (hm : ∀ e ∈ relations, e.2.mapping.Consistent)
    (habsorb : ∀ e ∈ relations, e.2.AbsorbSettles) :
    ∀ {start : Nat} {left : Row}, PlacedFrom start relations →
      left.drop start = row.drop start → start + widths relations ≤ row.length →
      Settles ((begunBelow relations rows row).findSome? (faultIn row))
        (absorbEach relations (nodesBelow relations rows) left)
        (nodesBelow relations (rows ++ [row])) (start + widths relations) row := by
  induction relations with
  | nil =>
      intro start left _ hleft _
      exact .pure hleft
  | cons e rest ih =>
      intro start left hplaced hleft hrow
      obtain ⟨relation, s⟩ := e
      obtain ⟨rfl, hplaced⟩ := hplaced
      obtain ⟨hbuilt, hbuilt'⟩ := List.forall_mem_cons.1 hbuilt
      obtain ⟨hm, hm'⟩ := List.forall_mem_cons.1 hm
      obtain ⟨habsorb, habsorb'⟩ := List.forall_mem_cons.1 habsorb
      rw [widths, ← Nat.add_assoc] at hrow
      have hgroup := hbuilt.absorbGroup_settles relation.kind rows hm habsorb
        hleft (Nat.le_trans (Nat.le_add_right _ _) hrow)
      have hbegun : begunBelow ((relation, s) :: rest) rows row
          = s.begunFor relation.kind rows row ++ begunBelow rest rows row := rfl
      rw [hbegun, List.findSome?_append, widths, ← Nat.add_assoc]
      show Settles _ (absorbEach ((relation, s) :: rest)
        (s.nodesFor relation.kind rows :: nodesBelow rest rows) left) _ _ _
      rw [absorbEach_cons]
      exact hgroup.bind fun left' hleft' =>
        (ih hbuilt' hm' habsorb' hplaced hleft' hrow).andPure fun _ => rfl

/-- A node takes up a row as its structure says, however deep it goes. -/
theorem Built.absorbSettles (h : s.Built catalog) : s.AbsorbSettles := by
  induction h with
  | @mk s keys fields relation target placed below ih =>
      intro record rows row left hleft hrow
      have hm : ∀ e ∈ s.relations, e.2.mapping.Consistent := fun e he =>
        Catalog.consistent_of_mapping? (target e he)
      have hwidth : s.fieldEnd + widths s.relations = s.offset + s.width := by
        rw [fieldEnd_eq, width_eq, Nat.add_assoc]
      have heach := absorbEach_settles rows below hm ih placed hleft
        (by rw [hwidth]; exact hrow)
      rw [absorb_eq, begun_eq, ← hwidth]
      exact heach.map fun children => (⟨record, children⟩ : Node)

-- ================================================================= rows

/-- Absorbing a row into the node of rows makes it the node of the rows with
that one behind them. -/
theorem Built.absorb_nodeOf (h : s.Built catalog) (hne : rows ≠ [])
    (hrow : s.offset + s.width ≤ row.length) :
    Settles ((s.begun rows row).findSome? (faultIn row)) (s.absorb (s.nodeOf rows) row)
      (s.nodeOf (rows ++ [row])) (s.offset + s.width) row := by
  rw [nodeOf_eq, nodeOf_append s hne]
  exact h.absorbSettles _ rows rfl hrow

/-- A row begins the node of itself. -/
theorem Built.begin_nodeOf (h : s.Built catalog) (hm : s.mapping.Consistent)
    (hrow : s.offset + s.width ≤ row.length) :
    Settles ((faultIn row s).or ((s.begun [] row).findSome? (faultIn row)))
      (s.start row >>= fun started => s.absorb started.1 started.2) (s.nodeOf [row])
      (s.offset + s.width) row := by
  rw [nodeOf_eq]
  exact (h.start_settles hm rfl hrow).bind fun left hleft => h.absorbSettles _ [] hleft hrow

/-- Takes up rows one after the other, as they are read: the first begins a
node, and the others are absorbed into it. -/
def takeUp (s : Structure) (first : Row) (rest : List Row) : Except Fault Node := do
  let (node, _) ← s.start first >>= fun started => s.absorb started.1 started.2
  rest.foldlM (fun node row => (s.absorb node row).map Prod.fst) node

/-- Rows that are absorbed one after the other stand behind those before. -/
theorem Built.of_foldlM_absorb (h : s.Built catalog) {rest : List Row} :
    ∀ {rows : List Row} {node : Node}, rows ≠ [] →
      (∀ row ∈ rest, s.offset + s.width ≤ row.length) →
      rest.foldlM (fun node row => (s.absorb node row).map Prod.fst) (s.nodeOf rows) = .ok node →
      node = s.nodeOf (rows ++ rest) := by
  induction rest with
  | nil =>
      intro rows node _ _ hnode
      cases pure_eq_ok.1 hnode
      rw [List.append_nil]
  | cons row rest ih =>
      intro rows node hne hwide hnode
      obtain ⟨hrow, hrest⟩ := List.forall_mem_cons.1 hwide
      rw [List.foldlM_cons] at hnode
      obtain ⟨next, hnext, hnode⟩ := bind_eq_ok.1 hnode
      obtain ⟨done, hdone, rfl⟩ := map_eq_ok.1 hnext
      rw [(h.absorb_nodeOf hne hrow).of_ok hdone] at hnode
      have hbehind := ih (List.append_ne_nil_of_right_ne_nil rows (List.cons_ne_nil row []))
        hrest hnode
      rw [hbehind, List.append_assoc, List.singleton_append]

/-- Rows that are taken up make the node of all of them. -/
theorem Built.of_takeUp (h : s.Built catalog) (hm : s.mapping.Consistent) {first : Row}
    {rest : List Row} {node : Node}
    (hwide : ∀ row ∈ first :: rest, s.offset + s.width ≤ row.length)
    (htaken : s.takeUp first rest = .ok node) : node = s.nodeOf (first :: rest) := by
  obtain ⟨hfirst, hrest⟩ := List.forall_mem_cons.1 hwide
  obtain ⟨⟨begun, left⟩, hdone, hnode⟩ := bind_eq_ok.1 htaken
  have hbegun : begun = s.nodeOf [first] := (h.begin_nodeOf hm hfirst).of_ok hdone
  subst hbegun
  exact h.of_foldlM_absorb (List.cons_ne_nil first []) hrest hnode

end Groups

end Structure

end RecordQuery

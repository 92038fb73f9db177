/-
Getting known records: targets whose keys are set are brought up to date
in place. Their records are loaded in one request by their keys, and
matched to the targets by the texts of the keys; of two records with one
key the first counts. Unless each target has a record, none is changed.

Related records move out of the loaded record. Where two targets have one
key, the first of them receives the related records and the later ones
have none.
-/
import RecordQuery.Repository.Find

namespace RecordQuery

namespace Mapping

/-- Copies a column from one record to another. -/
def copy (m : Mapping) (column : Column) (target source : Record) : Transfer :=
  match m.read column source with
  | .error e => ⟨.error (.argument e), target, source⟩
  | .ok v =>
    match m.write column target v with
    | .error e => ⟨.error e, target, source⟩
    | .ok target => ⟨.ok (), target, source⟩

/-- Copies columns and moves relations from one record to another, up to
the first failure. -/
def update (m : Mapping) (columns : List Column) (relations : List Relation)
    (target source : Record) : Transfer :=
  let copied := columns.foldl (fun t c => t.andThen (m.copy c)) ⟨.ok (), target, source⟩
  relations.foldl (fun t r => t.andThen (m.transfer r)) copied

/-- The clause that only records with one of the keys satisfy. -/
def keyClause (m : Mapping) (keys : List (List Value)) : Clause :=
  .isIn (m.keyColumns.map fun c => .field c.field) (keys.map fun key => key.map Element.value)

/-- Records by the texts of their keys, the first of each key. -/
def index (m : Mapping) : List Record → Except ArgumentError (List (String × Record))
  | [] => .ok []
  | record :: rest => do
    let key ← m.keyOf record
    let others ← m.index rest
    let text := Value.keyText key
    pure ((text, record) :: others.filter fun entry => entry.1 ≠ text)

/-- The columns that an include loads of the records themselves. -/
def loadedColumns (m : Mapping) (inc : IncludeTree) : List Column :=
  if inc.fields.isEmpty then m.columns else inc.fields.filterMap m.columnOfField?

/-- The relations that an include follows. -/
def loadedRelations (m : Mapping) (inc : IncludeTree) : List Relation :=
  inc.relations.filterMap fun (name, _) => m.relation? name

/-- Updates targets, each with the text of its key, from records by the
texts of theirs. A failure leaves the targets after it as they are. -/
def updateEach (m : Mapping) (columns : List Column) (relations : List Relation) :
    List (String × Record) → List (String × Record) → Except Fault Unit × List Record
  | [], _ => (.ok (), [])
  | (key, target) :: rest, loaded =>
    match loaded.lookup key with
    | none =>
      let (result, others) := m.updateEach columns relations rest loaded
      (result, target :: others)
    | some source =>
      let t := m.update columns relations target source
      match t.result with
      | .error e => (.error e, t.target :: rest.map Prod.snd)
      | .ok () =>
        let (result, others) :=
          m.updateEach columns relations rest (Entries.put key t.source loaded)
        (result, t.target :: others)

/-- Updates targets with given keys from loaded records, if there is one
for each. -/
def reconcile (m : Mapping) (inc : IncludeTree) (keys : List (List Value))
    (targets records : List Record) : Except Error Unit × List Record :=
  match m.index records with
  | .error e => (.error e, targets)
  | .ok loaded =>
    let texts := keys.map Value.keyText
    let found := texts.countP fun text => (loaded.lookup text).isSome
    if found < targets.length then (.error (Fault.notFound targets.length found), targets)
    else
      let columns := m.loadedColumns inc
      let relations := m.loadedRelations inc
      match m.updateEach columns relations (texts.zip targets) loaded with
      | (.ok (), targets) => (.ok (), targets)
      | (.error fault, targets) => (.error fault, targets)

end Mapping

/-- What is loaded for a request by keys: its include, restricted to the
keys and to the option's filter. -/
def GetOptions.byKeys (options : GetOptions) (m : Mapping) (keys : List (List Value)) : Include :=
  options.included.withFilter
    (Clause.andOpt (some (m.keyClause keys))
      (Clause.andOpt options.included.filter options.filter))

/-- Brings the targets up to date with the records of their keys. -/
def Repository.get (r : Repository) (c : Circumstances) (model : String) (targets : List Record)
    (options : GetOptions) : Filled :=
  if targets.isEmpty then ⟨.ok (), targets, [], r⟩
  else
    match r.catalog.mapping model with
    | .error e => ⟨.error e, targets, [], r⟩
    | .ok m =>
      match targets.mapM m.keyOf with
      | .error e => ⟨.error e, targets, [], r⟩
      | .ok keys =>
        let loaded := (r.load c m (options.byKeys m keys) 0 none).noted "get"
        match loaded.result with
        | .error e => ⟨.error e, targets, loaded.sent, loaded.repository⟩
        | .ok records =>
          let (result, targets) := m.reconcile options.included keys targets records
          ⟨result, targets, loaded.sent, loaded.repository⟩

end RecordQuery

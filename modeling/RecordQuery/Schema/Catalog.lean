/-
Catalogs: sealed sets of mappings that agree with each other. Mappings are
checked one after the other in the order they were registered, each on its
own and then against the models before it; relations are checked against
the mappings of their targets once all are known. The first fault found is
the one reported.

A relation may lead to a model that is not registered: that is a fault of
the request that follows it, not of the catalog.
-/
import RecordQuery.Schema.Mapping

namespace RecordQuery

/-- What is wrong with a set of mappings. -/
inductive SchemaFault where
  | noPrimaryKey (model : String)
  | columnTwice (model column : String)
  | fieldTwice (model field : String)
  | noJoinColumns (model relation : String)
  | unmappedJoinColumn (model relation column : String)
  | unmappedKeyColumn (model column : String)
  | modelTwice (model : String)
  | otherTable (model relation declared target table : String)
  | unmappedRemoteColumn (model relation table column : String)
deriving DecidableEq, Repr

def SchemaFault.message : SchemaFault → String
  | noPrimaryKey model => s!"`{model}` has no primary key"
  | columnTwice model column => s!"`{model}` maps column `{column}` more than once"
  | fieldTwice model field => s!"`{model}` maps field `{field}` more than once"
  | noJoinColumns model relation => s!"relation `{relation}` on `{model}` has no join columns"
  | unmappedJoinColumn model relation column =>
    s!"relation `{relation}` on `{model}` joins on unmapped column `{column}`"
  | unmappedKeyColumn model column => s!"key column `{column}` is not mapped on `{model}`"
  | modelTwice model => s!"`{model}` is registered more than once"
  | otherTable model relation declared target table =>
    s!"relation `{relation}` on `{model}` targets table `{declared}`, " ++
      s!"but `{target}` is mapped to `{table}`"
  | unmappedRemoteColumn model relation table column =>
    s!"relation `{relation}` on `{model}` joins on unmapped column `{table}.{column}`"

-- ===================================================== one mapping alone

namespace Mapping

/-- The first column whose name or field is taken by one before it. -/
def columnFault? (model : String) (names fields : List String) : List Column → Option SchemaFault
  | [] => none
  | c :: rest =>
    if c.name ∈ names then some (.columnTwice model c.name)
    else if c.field ∈ fields then some (.fieldTwice model c.field)
    else columnFault? model (c.name :: names) (c.field :: fields) rest

/-- The first relation whose field is taken, or that is not joined on
columns of the mapping. -/
def relationFault? (m : Mapping) (fields : List String) : List Relation → Option SchemaFault
  | [] => none
  | r :: rest =>
    if r.field ∈ fields then some (.fieldTwice m.model r.field)
    else if r.pairs.isEmpty then some (.noJoinColumns m.model r.field)
    else
      match r.pairs.find? fun p => (m.column? p.own).isNone with
      | some p => some (.unmappedJoinColumn m.model r.field p.own)
      | none => relationFault? m (r.field :: fields) rest

/-- The first key column that is not a column of the mapping. -/
def keyFault? (m : Mapping) : Option SchemaFault :=
  ((m.primaryKey :: m.uniqueKeys).flatten.find? fun name => (m.column? name).isNone).map
    (.unmappedKeyColumn m.model)

/-- The first fault of a mapping on its own. -/
def fault? (m : Mapping) : Option SchemaFault :=
  if m.primaryKey.isEmpty then some (.noPrimaryKey m.model)
  else
    (columnFault? m.model [] [] m.columns).or <|
      (m.relationFault? (m.columns.map Column.field) m.relations).or m.keyFault?

end Mapping

-- ======================================================= mappings together

namespace Catalog

/-- The mapping of a model among mappings. -/
def lookup? (mappings : List Mapping) (model : String) : Option Mapping :=
  mappings.find? fun m => m.model == model

/-- The first fault met while mappings are registered in order. -/
def registrationFault? (models : List String) : List Mapping → Option SchemaFault
  | [] => none
  | m :: rest =>
    m.fault?.or <|
      if m.model ∈ models then some (.modelTwice m.model)
      else registrationFault? (m.model :: models) rest

/-- Whether a relation disagrees with the mapping of its target. -/
def targetFault? (mappings : List Mapping) (m : Mapping) (r : Relation) : Option SchemaFault :=
  (lookup? mappings r.target).bind fun target =>
    if target.table ≠ r.targetTable then
      some (.otherTable m.model r.field r.targetTable target.model target.table)
    else
      (r.pairs.find? fun p => (target.column? p.remote).isNone).map fun p =>
        .unmappedRemoteColumn m.model r.field target.table p.remote

/-- The first fault of a list of mappings. -/
def fault? (mappings : List Mapping) : Option SchemaFault :=
  (registrationFault? [] mappings).or <|
    mappings.findSome? fun m => m.relations.findSome? (targetFault? mappings m)

end Catalog

/-- Mappings without a fault. -/
structure Catalog where
  mappings : List Mapping
  fault?_mappings : Catalog.fault? mappings = none
deriving DecidableEq

namespace Catalog

/-- Seals mappings, unless they have a fault. -/
def ofMappings (mappings : List Mapping) : Except SchemaFault Catalog :=
  match h : fault? mappings with
  | none => .ok ⟨mappings, h⟩
  | some fault => .error fault

/-- The mapping of a model. -/
def mapping? (catalog : Catalog) (model : String) : Option Mapping :=
  lookup? catalog.mappings model

/-- The mapping of a model, or that there is none. -/
def mapping (catalog : Catalog) (model : String) : Except ArgumentError Mapping :=
  match catalog.mapping? model with
  | some m => .ok m
  | none => .error (.noMapping model)

end Catalog

end RecordQuery

/-
Includes: what to load of a record. The fields to load (all, when none is
named), the relations to follow with an include for each, a filter and an
order. At the root the filter chooses the records and the order ranks
them; below, the filter chooses which related records are attached and
the order ranks them within their parent.

An include is a tree whose relations go by name: it follows none of them
twice, and nor does any include below it. Plans are built for any tree,
and records are asked for with includes, which are made by adding to the
empty one and carry with them that they stay distinct.
-/
import RecordQuery.Entries
import RecordQuery.Expression.Clause

namespace RecordQuery

/-- The tree of an include. A tree may follow a relation more than once. -/
structure IncludeTree where
  fields : List String := []
  relations : List (String × IncludeTree) := []
  filter : Option Clause := none
  order : List OrderTerm := []

namespace IncludeTree

instance : Inhabited IncludeTree := ⟨⟨[], [], none, []⟩⟩

/-- A tree that follows no relation twice, and nor does any below it. -/
inductive Distinct : IncludeTree → Prop where
  | mk {inc : IncludeTree} (names : (inc.relations.map Prod.fst).Nodup)
      (below : ∀ entry ∈ inc.relations, Distinct entry.2) : Distinct inc

mutual

/-- Checks that no relation is followed twice. -/
def isDistinct : IncludeTree → Bool
  | ⟨_, relations, _, _⟩ => decide (relations.map Prod.fst).Nodup && isDistinctEach relations
termination_by structural inc => inc

def isDistinctEach : List (String × IncludeTree) → Bool
  | [] => true
  | (_, inc) :: rest => inc.isDistinct && isDistinctEach rest
termination_by structural relations => relations

end

mutual

theorem isDistinct_iff : ∀ inc : IncludeTree, inc.isDistinct = true ↔ inc.Distinct
  | ⟨fields, relations, filter, order⟩ => by
      rw [isDistinct, Bool.and_eq_true, decide_eq_true_eq, isDistinctEach_iff]
      constructor
      · intro ⟨names, below⟩
        exact .mk names below
      · intro h
        cases h with
        | mk names below => exact ⟨names, below⟩
termination_by structural inc => inc

theorem isDistinctEach_iff : ∀ relations : List (String × IncludeTree),
    isDistinctEach relations = true ↔ ∀ entry ∈ relations, entry.2.Distinct
  | [] => by simp [isDistinctEach]
  | (name, inc) :: rest => by
      rw [isDistinctEach, Bool.and_eq_true, isDistinct_iff inc, isDistinctEach_iff rest,
        List.forall_mem_cons]
termination_by structural relations => relations

end

instance (inc : IncludeTree) : Decidable inc.Distinct :=
  decidable_of_iff _ inc.isDistinct_iff

namespace Distinct

variable {inc other nested : IncludeTree}

theorem names (h : inc.Distinct) : (inc.relations.map Prod.fst).Nodup := by
  cases h with
  | mk names _ => exact names

theorem of_mem (h : inc.Distinct) {entry : String × IncludeTree}
    (hentry : entry ∈ inc.relations) : entry.2.Distinct := by
  cases h with
  | mk _ below => exact below entry hentry

/-- Whether a tree is distinct is told by the relations it follows. -/
theorem of_relations (h : inc.Distinct) (hrelations : other.relations = inc.relations) :
    other.Distinct := by
  cases h with
  | mk names below => exact .mk (hrelations ▸ names) (hrelations ▸ below)

/-- A relation put among the others is followed once, whether or not it was
followed before. -/
theorem put (h : inc.Distinct) (hnested : nested.Distinct) (relation : String) :
    IncludeTree.Distinct
      { inc with relations := Entries.put relation nested inc.relations } := by
  cases h with
  | mk names below =>
      refine .mk ?_ fun entry hentry => ?_
      · show (List.map Prod.fst (Entries.put relation nested inc.relations)).Nodup
        rw [Entries.map_fst_put]
        split
        · exact names
        · next hnew =>
          rw [List.nodup_append]
          refine ⟨names, List.pairwise_singleton _ _, fun name hname other hother => ?_⟩
          cases List.mem_singleton.1 hother
          exact fun heq => hnew (heq ▸ hname)
      · rcases Entries.mem_of_mem_put hentry with rfl | hentry
        · exact hnested
        · exact below entry hentry

end Distinct

end IncludeTree

/-- What to load of the records of one model. -/
structure Include where
  tree : IncludeTree := {}
  distinct : tree.Distinct := by decide

namespace Include

/-- The include that nothing was added to. -/
def empty : Include := {}

instance : Inhabited Include := ⟨empty⟩

instance : Coe Include IncludeTree := ⟨tree⟩

def fields (inc : Include) : List String :=
  inc.tree.fields

/-- The relations followed, with an include for each. -/
def relations (inc : Include) : List (String × Include) :=
  inc.tree.relations.attach.map fun entry =>
    (entry.1.1, ⟨entry.1.2, inc.distinct.of_mem entry.2⟩)

def filter (inc : Include) : Option Clause :=
  inc.tree.filter

def order (inc : Include) : List OrderTerm :=
  inc.tree.order

def addFields (inc : Include) (fields : List String) : Include :=
  ⟨{ inc.tree with fields := inc.fields ++ fields }, inc.distinct.of_relations rfl⟩

def addField (inc : Include) (field : String) : Include :=
  inc.addFields [field]

/-- Follows a relation; followed before, it keeps its position. -/
def addRelation (inc : Include) (relation : String) (nested : Include) : Include :=
  ⟨{ inc.tree with relations := Entries.put relation nested.tree inc.tree.relations },
    inc.distinct.put nested.distinct relation⟩

/-- Puts a filter in the place of the one there was. -/
def withFilter (inc : Include) (filter : Option Clause) : Include :=
  ⟨{ inc.tree with filter }, inc.distinct.of_relations rfl⟩

/-- Adds a condition to those there are. -/
def addFilter (inc : Include) (clause : Clause) : Include :=
  inc.withFilter (Clause.andOpt inc.filter (some clause))

def addOrder (inc : Include) (term : OrderTerm) : Include :=
  ⟨{ inc.tree with order := inc.order ++ [term] }, inc.distinct.of_relations rfl⟩

end Include

end RecordQuery

/-
What the calls that make the options of a request come to. The last include
given is the one that is used. Filters add up: each brings its conjuncts,
the conditions that must hold one and all, and a condition that is put
together has those of its parts.

In a request by keys the filters stand beside the include, so that no call
takes anything from another, in whatever order they are made. The options
to find records keep their filters in the include, where the next include
takes their place: only those given behind the last include remain.
-/
import Mathlib.Data.List.DropRight
import RecordQuery.Proofs.Repository.Filters

namespace RecordQuery

-- ============================================================ conjuncts

namespace Clause

mutual

/-- The conjuncts of a condition: those of the members of a conjunction, or
the condition alone. -/
def conjuncts : Clause → List Clause
  | .and operands => conjunctsEach operands
  | .compare comparison lhs rhs => [.compare comparison lhs rhs]
  | .not operand => [.not operand]
  | .or operands => [.or operands]
  | .isIn lhs rows => [.isIn lhs rows]
  | .truthy element => [.truthy element]
termination_by structural clause => clause

/-- The conjuncts of conditions, one condition after the other. -/
def conjunctsEach : List Clause → List Clause
  | [] => []
  | clause :: rest => clause.conjuncts ++ conjunctsEach rest
termination_by structural clauses => clauses

end

/-- The conjuncts of a condition that may be absent. -/
def conjunctsOf (c? : Option Clause) : List Clause :=
  c?.toList.flatMap conjuncts

theorem conjunctsEach_eq_flatMap (clauses : List Clause) :
    conjunctsEach clauses = clauses.flatMap conjuncts := by
  induction clauses with
  | nil => rfl
  | cons clause rest ih => rw [List.flatMap_cons, conjunctsEach, ih]

theorem Gives.conjuncts_eq {c : Clause} {cs : List Clause} (h : c.Gives cs) :
    cs.flatMap conjuncts = c.conjuncts := by
  rcases h with rfl | rfl
  · exact List.flatMap_singleton _ _
  · exact (conjunctsEach_eq_flatMap cs).symm

/-- Conditions put together have the conjuncts of both. -/
theorem conjunctsOf_andOpt (x y : Option Clause) :
    conjunctsOf (andOpt x y) = conjunctsOf x ++ conjunctsOf y := by
  cases x with
  | none => cases y <;> rfl
  | some l =>
      cases y with
      | none => exact (List.append_nil _).symm
      | some r =>
          obtain ⟨more, hboth, hgives⟩ := andOpt_some l r
          have hone : ∀ c : Clause, conjunctsOf (some c) = c.conjuncts :=
            fun c => List.flatMap_singleton _ _
          rw [hboth, hone, hone, hone, conjuncts, conjunctsEach_eq_flatMap, List.flatMap_append,
            l.gives_members.conjuncts_eq, hgives.conjuncts_eq]

end Clause

open Clause

-- ================================================================ calls

section Calls

variable {α : Type} {filter? : α → Option Clause} {included? : α → Option Include}

/-- The last of the includes that calls give. -/
def lastInclude (included? : α → Option Include) (calls : List α) : Include :=
  (calls.filterMap included?).getLast?.getD .empty

theorem lastInclude_concat (calls : List α) (last : α) :
    lastInclude included? (calls ++ [last])
      = (included? last).getD (lastInclude included? calls) := by
  unfold lastInclude
  rw [List.filterMap_append, List.filterMap_cons, List.filterMap_nil]
  cases included? last <;> simp

theorem filterMap_concat (calls : List α) (last : α) :
    (calls ++ [last]).filterMap filter? = calls.filterMap filter? ++ (filter? last).toList := by
  rw [List.filterMap_append, List.filterMap_cons, List.filterMap_nil]
  cases filter? last <;> rfl

end Calls

-- ===================================================== requests by keys

namespace GetOptions

/-- A call that makes options of a request by keys. -/
inductive Call where
  | addFilter (clause : Clause)
  | withInclude (inc : Include)

def Call.filter? : Call → Option Clause
  | addFilter clause => some clause
  | withInclude _ => none

def Call.included? : Call → Option Include
  | addFilter _ => none
  | withInclude inc => some inc

def call (options : GetOptions) : Call → GetOptions
  | .addFilter clause => options.addFilter clause
  | .withInclude inc => options.withInclude inc

/-- The options that calls make. -/
def ofCalls (calls : List Call) : GetOptions :=
  calls.foldl call {}

theorem ofCalls_concat (calls : List Call) (last : Call) :
    ofCalls (calls ++ [last]) = (ofCalls calls).call last :=
  List.foldl_concat ..

/-- Includes replace each other, filters add up beside them. -/
theorem ofCalls_spec (calls : List Call) :
    (ofCalls calls).included = lastInclude Call.included? calls
      ∧ conjunctsOf (ofCalls calls).filter
        = (calls.filterMap Call.filter?).flatMap conjuncts := by
  induction calls using List.reverseRecOn with
  | nil => exact ⟨rfl, rfl⟩
  | append_singleton calls last ih =>
      obtain ⟨hincluded, hfilter⟩ := ih
      rw [ofCalls_concat, lastInclude_concat, filterMap_concat, List.flatMap_append]
      cases last with
      | addFilter clause =>
          refine ⟨hincluded, ?_⟩
          show conjunctsOf (andOpt _ _) = _
          rw [conjunctsOf_andOpt, hfilter]
          rfl
      | withInclude inc => exact ⟨rfl, hfilter.trans (List.append_nil _).symm⟩

/-- The condition of a request by keys: its keys, the filter of its include
and its filters. -/
theorem conjuncts_byKeys (options : GetOptions) (m : Mapping) (keys : List (List Value)) :
    conjunctsOf (options.byKeys m keys).filter
      = (m.keyClause keys).conjuncts
        ++ (conjunctsOf options.included.filter ++ conjunctsOf options.filter) := by
  show conjunctsOf (andOpt _ (andOpt _ _)) = _
  rw [conjunctsOf_andOpt, conjunctsOf_andOpt]
  exact congrArg (· ++ _) (List.flatMap_singleton _ _)

/-- With options that calls made, it has all filters given. -/
theorem conjuncts_ofCalls (calls : List Call) (m : Mapping) (keys : List (List Value)) :
    conjunctsOf ((ofCalls calls).byKeys m keys).filter
      = (m.keyClause keys).conjuncts
        ++ (conjunctsOf (lastInclude Call.included? calls).filter
          ++ (calls.filterMap Call.filter?).flatMap conjuncts) := by
  obtain ⟨hincluded, hfilter⟩ := ofCalls_spec calls
  rw [conjuncts_byKeys, hincluded, hfilter]

end GetOptions

-- ====================================================== finding records

namespace FindOptions

/-- A call that makes options to find records. -/
inductive Call where
  | addFilter (clause : Clause)
  | withInclude (inc : Include)
  | withOffset (offset : Nat)
  | withLimit (limit : Nat)

def Call.filter? : Call → Option Clause
  | addFilter clause => some clause
  | _ => none

def Call.included? : Call → Option Include
  | withInclude inc => some inc
  | _ => none

def call (options : FindOptions) : Call → FindOptions
  | .addFilter clause => options.addFilter clause
  | .withInclude inc => options.withInclude inc
  | .withOffset offset => options.withOffset offset
  | .withLimit limit => options.withLimit limit

/-- The options that calls make. -/
def ofCalls (calls : List Call) : FindOptions :=
  calls.foldl call {}

theorem ofCalls_concat (calls : List Call) (last : Call) :
    ofCalls (calls ++ [last]) = (ofCalls calls).call last :=
  List.foldl_concat ..

/-- The calls behind the last include given. -/
def sinceInclude (calls : List Call) : List Call :=
  calls.rtakeWhile fun call => call.included?.isNone

/-- No filter is given before an include. -/
def IncludesFirst (calls : List Call) : Prop :=
  ∀ before inc after, calls = before ++ .withInclude inc :: after →
    before.filterMap Call.filter? = []

section Step

variable {last : Call} {inc : Include}

/-- A call that gives no include adds the conjuncts of its filter, if it
gives one. -/
theorem conjuncts_call (h : last.included? = none) (options : FindOptions) :
    conjunctsOf (options.call last).included.filter
      = conjunctsOf options.included.filter ++ last.filter?.toList.flatMap conjuncts := by
  cases last with
  | addFilter clause => exact conjunctsOf_andOpt _ _
  | withInclude inc => cases h
  | withOffset offset => exact (List.append_nil _).symm
  | withLimit limit => exact (List.append_nil _).symm

theorem included_call (h : last.included? = some inc) (options : FindOptions) :
    (options.call last).included = inc ∧ last = .withInclude inc := by
  cases last <;> cases h
  exact ⟨rfl, rfl⟩

theorem sinceInclude_concat (h : last.included? = none) (calls : List Call) :
    sinceInclude (calls ++ [last]) = sinceInclude calls ++ [last] :=
  List.rtakeWhile_concat_pos _ _ _ (by rw [h]; rfl)

theorem sinceInclude_include (h : last.included? = some inc) (calls : List Call) :
    sinceInclude (calls ++ [last]) = [] :=
  List.rtakeWhile_concat_neg _ _ _ (by rw [h]; nofun)

end Step

/-- The filters behind the last include stand behind its own. -/
theorem ofCalls_spec (calls : List Call) :
    conjunctsOf (ofCalls calls).included.filter
      = conjunctsOf (lastInclude Call.included? calls).filter
        ++ ((sinceInclude calls).filterMap Call.filter?).flatMap conjuncts := by
  induction calls using List.reverseRecOn with
  | nil => rfl
  | append_singleton calls last ih =>
      rw [ofCalls_concat, lastInclude_concat]
      cases h : last.included? with
      | none =>
          rw [conjuncts_call h, sinceInclude_concat h, filterMap_concat, List.flatMap_append,
            ← List.append_assoc, ih]
          rfl
      | some inc =>
          rw [(included_call h _).1, sinceInclude_include h]
          exact (List.append_nil _).symm

/-- Behind the last include stand all filters, if none is given before an
include. -/
theorem IncludesFirst.filters {calls : List Call} (hfirst : IncludesFirst calls) :
    (sinceInclude calls).filterMap Call.filter? = calls.filterMap Call.filter? := by
  induction calls using List.reverseRecOn with
  | nil => rfl
  | append_singleton calls last ih =>
      rw [filterMap_concat]
      cases h : last.included? with
      | none =>
          have hbefore : IncludesFirst calls := by
            rintro before inc after rfl
            exact hfirst before inc (after ++ [last]) (by simp)
          rw [sinceInclude_concat h, filterMap_concat, ih hbefore]
      | some inc =>
          obtain ⟨-, rfl⟩ := included_call h {}
          rw [sinceInclude_include h, hfirst calls inc [] rfl]
          rfl

end FindOptions

-- ============================================================== no loss

/-- Filters given to the options of a request are kept. The condition of a
request by keys consists of the keys, the filter of the last include and
all filters, so that it does not matter whether a filter is given before
an include or after it. The condition for records to find consists of the
filter of the last include and the filters given after it, which are all
if none was given before an include. -/
theorem given_filters_hold (lookup : List GetOptions.Call) (search : List FindOptions.Call)
    (m : Mapping) (keys : List (List Value)) :
    conjunctsOf ((GetOptions.ofCalls lookup).byKeys m keys).filter
        = (m.keyClause keys).conjuncts
          ++ (conjunctsOf (lastInclude GetOptions.Call.included? lookup).filter
            ++ (lookup.filterMap GetOptions.Call.filter?).flatMap conjuncts)
      ∧ (∀ before after clause inc,
        lookup = before ++ .addFilter clause :: .withInclude inc :: after →
        conjunctsOf ((GetOptions.ofCalls lookup).byKeys m keys).filter
          = conjunctsOf ((GetOptions.ofCalls
            (before ++ .withInclude inc :: .addFilter clause :: after)).byKeys m keys).filter)
      ∧ conjunctsOf (FindOptions.ofCalls search).included.filter
        = conjunctsOf (lastInclude FindOptions.Call.included? search).filter
          ++ ((FindOptions.sinceInclude search).filterMap FindOptions.Call.filter?).flatMap
            conjuncts
      ∧ (FindOptions.IncludesFirst search →
        conjunctsOf (FindOptions.ofCalls search).included.filter
          = conjunctsOf (lastInclude FindOptions.Call.included? search).filter
            ++ (search.filterMap FindOptions.Call.filter?).flatMap conjuncts) := by
  have hfind := FindOptions.ofCalls_spec search
  refine ⟨GetOptions.conjuncts_ofCalls lookup m keys, ?_, hfind,
    fun hfirst => hfirst.filters ▸ hfind⟩
  rintro before after clause inc rfl
  -- neither call is among those that the other is looked for in
  have hincludes : (before ++ .addFilter clause :: .withInclude inc :: after).filterMap
        GetOptions.Call.included?
      = (before ++ .withInclude inc :: .addFilter clause :: after).filterMap
        GetOptions.Call.included? := by
    rw [List.filterMap_append, List.filterMap_append]
    rfl
  have hfilters : (before ++ .addFilter clause :: .withInclude inc :: after).filterMap
        GetOptions.Call.filter?
      = (before ++ .withInclude inc :: .addFilter clause :: after).filterMap
        GetOptions.Call.filter? := by
    rw [List.filterMap_append, List.filterMap_append]
    rfl
  rw [GetOptions.conjuncts_ofCalls, GetOptions.conjuncts_ofCalls, lastInclude, lastInclude,
    hincludes, hfilters]

/-- A filter given after the include, between the offset and the limit. -/
def guestCalls : List FindOptions.Call :=
  [.withInclude (.addFilter .empty (above 7)), .withOffset 1,
    .addFilter (.truthy (.field "hostId")), .withLimit 3]

/-- A filter given after the include of records to find, and one given
before the include of a request by keys. -/
theorem given_filters_hold_for_guests :
    FindOptions.IncludesFirst guestCalls
      ∧ conjunctsOf (FindOptions.ofCalls guestCalls).included.filter
        = [above 7, .truthy (.field "hostId")]
      ∧ conjunctsOf ((GetOptions.ofCalls [.addFilter (.truthy (.field "hostId")),
          .withInclude (.addFilter .empty (above 7))]).byKeys personMapping [[.int64 1]]).filter
        = [.isIn [.field "id"] [[.value (.int64 1)]], above 7, .truthy (.field "hostId")] := by
  obtain ⟨hget, -, -, hfind⟩ := given_filters_hold
    [.addFilter (.truthy (.field "hostId")), .withInclude (.addFilter .empty (above 7))] guestCalls
    personMapping [[.int64 1]]
  have hfirst : FindOptions.IncludesFirst guestCalls := by
    intro before inc after h
    cases before with
    | nil => rfl
    | cons first rest =>
        rw [guestCalls, List.cons_append] at h
        have hmem : FindOptions.Call.withInclude inc ∈ rest ++ .withInclude inc :: after :=
          List.mem_append_right _ List.mem_cons_self
        rw [← (List.cons.inj h).2] at hmem
        simp at hmem
  exact ⟨hfirst, hfind hfirst, hget⟩

/-- A filter given before the include of records to find is lost; in a
request by keys it is not, nor is it if the calls are made the other way
round. -/
theorem filter_before_include_lost :
    let filter := FindOptions.Call.addFilter (.truthy (.field "hostId"))
    let inc := FindOptions.Call.withInclude .empty
    conjunctsOf (FindOptions.ofCalls [filter, inc]).included.filter = []
      ∧ conjunctsOf (FindOptions.ofCalls [inc, filter]).included.filter
        = [.truthy (.field "hostId")] :=
  ⟨rfl, rfl⟩

end RecordQuery

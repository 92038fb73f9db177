/-
Included relations that are unknown. A plan walks the includes of a
request depth first and stops at the first that it cannot take. Where that
one names no relation of the mapping reached, the relation is reported
with the mapping's model and a path.

The path is made of what the walk hands down, and that is the alias of the
table reached instead of the relations followed to it. An alias glues the
names of relations together by underscores and drops empty ones at its
beginning. So the path is the one in which points separate the relations
as long as at most one relation was followed, and that one has a name; it
is another wherever the walk is deeper.
-/
import RecordQuery.Proofs.Path.Inward
import RecordQuery.Proofs.Path.Resolution

namespace RecordQuery

-- ================================================================= paths

namespace RelationPath

/-- The path that an included relation is reported with, by the relations
followed to where it is looked up. -/
def reported (taken : RelationPath) (name : String) : String :=
  if taken.tableAlias.isEmpty then name else taken.tableAlias ++ "." ++ name

/-- The relations followed and one more, separated by points. -/
def dotted (taken : RelationPath) (name : String) : String :=
  ".".intercalate (taken ++ [name])

theorem toList_dotted (taken : RelationPath) (r name : String) :
    (dotted (r :: taken) name).toList
      = r.toList ++ (taken.flatMap fun s => '.' :: s.toList) ++ '.' :: name.toList := by
  induction taken generalizing r with
  | nil => simp [dotted]
  | cons s taken ih =>
      have hrest := ih s
      unfold dotted at hrest ⊢
      rw [List.cons_append, List.cons_append, String.intercalate_cons_cons, String.toList_append,
        String.toList_append, ← List.cons_append, hrest, List.flatMap_cons]
      simp

/-- An alias that has begun goes on with each relation behind an
underscore. -/
theorem toList_foldl_joinAlias {begun : String} (h : begun ≠ "") (rest : RelationPath) :
    (rest.foldl Step.joinAlias begun).toList
      = begun.toList ++ rest.flatMap fun s => '_' :: s.toList := by
  induction rest generalizing begun with
  | nil => simp
  | cons s rest ih =>
      have hnext : begun ++ "_" ++ s ≠ "" := by simp
      rw [List.foldl_cons, joinAlias_of_ne h, ih hnext]
      simp

/-- An alias is no longer than its relations with a mark in front of
each. -/
theorem length_foldl_joinAlias_le (begun : String) (rest : RelationPath) :
    (rest.foldl Step.joinAlias begun).length
      ≤ begun.length + (rest.flatMap fun s => '.' :: s.toList).length := by
  induction rest generalizing begun with
  | nil => simp
  | cons s rest ih =>
      have hstep : (Step.joinAlias begun s).length ≤ begun.length + (s.length + 1) := by
        unfold Step.joinAlias
        split
        · omega
        · simp only [String.length_append, show "_".length = 1 from rfl]
          omega
      have hrest := ih (Step.joinAlias begun s)
      rw [List.foldl_cons, List.flatMap_cons]
      simp only [List.length_append, List.length_cons, String.length_toList] at hrest ⊢
      omega

theorem reported_nil (name : String) : reported [] name = name := rfl

theorem reported_of_ne {taken : RelationPath} (h : taken.tableAlias ≠ "") (name : String) :
    taken.reported name = taken.tableAlias ++ "." ++ name := by
  rw [reported, if_neg]
  rwa [String.isEmpty_iff]

theorem length_reported_le (taken : RelationPath) (name : String) :
    (taken.reported name).length ≤ taken.tableAlias.length + (name.length + 1) := by
  unfold reported
  split
  · omega
  · simp only [String.length_append, show ".".length = 1 from rfl]
    omega

/-- A first relation without a name is missing from what is reported. -/
theorem reported_ne_dotted_of_empty (taken : RelationPath) (name : String) :
    reported ("" :: taken) name ≠ dotted ("" :: taken) name := by
  intro h
  have hlength := congrArg String.length h
  rw [← String.length_toList (s := dotted _ _), toList_dotted] at hlength
  have hreported := length_reported_le ("" :: taken) name
  cases taken with
  | nil =>
      rw [show reported [""] name = name from rfl, ← String.length_toList] at hlength
      simp at hlength
  | cons s taken =>
      have halias := length_foldl_joinAlias_le s taken
      rw [show tableAlias ("" :: s :: taken) = taken.foldl Step.joinAlias s from rfl] at hreported
      simp only [List.flatMap_cons, List.length_append, List.length_cons, String.length_toList,
        String.toList_empty, List.length_nil] at hlength
      omega

/-- What is reported is the path with points where at most one relation was
followed, and that one has a name. -/
theorem reported_eq_dotted_iff (taken : RelationPath) (name : String) :
    taken.reported name = taken.dotted name ↔ taken = [] ∨ ∃ r, r ≠ "" ∧ taken = [r] := by
  constructor
  · intro h
    match taken with
    | [] => exact Or.inl rfl
    | r :: taken =>
        have hr : r ≠ "" := by
          rintro rfl
          exact reported_ne_dotted_of_empty taken name h
        cases taken with
        | nil => exact Or.inr ⟨r, hr, rfl⟩
        | cons s taken =>
            -- behind the first relation one has an underscore, one a point
            have halias : (tableAlias (r :: s :: taken)).toList
                = r.toList ++ (s :: taken).flatMap fun t => '_' :: t.toList :=
              toList_foldl_joinAlias hr (s :: taken)
            have hne : tableAlias (r :: s :: taken) ≠ "" := by
              intro hempty
              rw [hempty] at halias
              simp at halias
            rw [reported_of_ne hne, ← String.toList_inj, toList_dotted, String.toList_append,
              String.toList_append, halias] at h
            simp at h
  · rintro (rfl | ⟨r, hr, rfl⟩)
    · simp [reported_nil, dotted]
    · rw [reported_of_ne (show tableAlias [r] ≠ "" from hr)]
      simp [dotted, tableAlias, Step.joinAlias]

end RelationPath

-- ================================================================= walks

/-- A walk over includes comes to one of them. What it takes before is a
tree of its own: on the way, the includes are cut behind where it goes
on. -/
inductive IncludeTree.ComesTo : List (String × IncludeTree) → List (String × IncludeTree) →
    RelationPath → String → IncludeTree → Prop where
  | first {name : String} {inc : IncludeTree} {rest : List (String × IncludeTree)} :
      ComesTo ((name, inc) :: rest) [] [] name inc
  | under {name next : String} {fields : List String} {filter : Option Clause}
      {order : List OrderTerm} {relations rest earlier : List (String × IncludeTree)}
      {taken : RelationPath} {nested : IncludeTree}
      (h : ComesTo relations earlier taken next nested) :
      ComesTo ((name, ⟨fields, relations, filter, order⟩) :: rest)
        [(name, ⟨fields, earlier, filter, order⟩)] (name :: taken) next nested
  | later {entry : String × IncludeTree} {rest earlier : List (String × IncludeTree)}
      {taken : RelationPath} {name : String} {inc : IncludeTree}
      (h : ComesTo rest earlier taken name inc) :
      ComesTo (entry :: rest) (entry :: earlier) taken name inc

namespace Scope

variable {dialect : Dialect} {scope here : Scope} {walk : Walk} {e : CompileError}
  {relations rest : List (String × IncludeTree)} {name : String} {inc : IncludeTree}

/-- The walk over relations that are included in a scope. -/
def layoutEach (dialect : Dialect) (scope : Scope) (walk : Walk)
    (relations : List (String × IncludeTree)) :
    Except CompileError (List (Relation × Structure) × Walk) :=
  IncludeTree.layoutEach dialect scope.catalog scope.mapping scope.tableAlias scope.aliasPrefix walk
    relations

/-- Takes one include, without those below it. -/
def take (dialect : Dialect) (scope : Scope) (walk : Walk) (name : String) (inc : IncludeTree) :
    Except CompileError (Step × Structure × Walk) := do
  let path := if scope.aliasPrefix.isEmpty then name else scope.aliasPrefix ++ "." ++ name
  let step ← scope.catalog.step scope.mapping name scope.tableAlias scope.aliasPrefix path
  let (s, walk) ← walk.enter dialect scope.catalog step inc.fields inc.filter inc.order
  pure (step, s, walk)

/-- An include is taken, then those below it, then those behind it. -/
theorem layoutEach_cons :
    scope.layoutEach dialect walk ((name, inc) :: rest)
      = scope.take dialect walk name inc >>= fun taken =>
        (scope.enter taken.1).layoutEach dialect taken.2.2 inc.relations >>= fun below =>
        scope.layoutEach dialect below.2 rest >>= fun more =>
        pure ((taken.1.relation, { taken.2.1 with relations := below.1 }) :: more.1, more.2) := by
  cases inc with
  | mk fields relations filter order =>
      unfold layoutEach take
      rw [IncludeTree.layoutEach, IncludeTree.layout]
      simp only [bind_assoc, pure_bind]
      rfl

/-- A path is followed from where its first relation leads. -/
theorem reach_cons_of_take {step : Step} {s : Structure} {entered : Walk}
    (h : scope.take dialect walk name inc = .ok (step, s, entered)) (path : RelationPath) :
    scope.reach (name :: path) = (scope.enter step).reach path := by
  obtain ⟨step', hstep, h⟩ := bind_eq_ok.1 h
  obtain ⟨_, -, h⟩ := bind_eq_ok.1 h
  cases pure_eq_ok.1 h
  have hnext : scope.step name = .ok step := Catalog.step_of_path hstep ""
  unfold reach
  rw [List.foldlM_cons, hnext]
  rfl

/-- What a walk took when it went on to its end. -/
theorem layoutEach_cons_eq_ok_iff {entries : List (Relation × Structure)} {last : Walk} :
    scope.layoutEach dialect walk ((name, inc) :: rest) = .ok (entries, last)
      ↔ ∃ step s entered below left more,
        scope.take dialect walk name inc = .ok (step, s, entered)
        ∧ (scope.enter step).layoutEach dialect entered inc.relations = .ok (below, left)
        ∧ scope.layoutEach dialect left rest = .ok (more, last)
        ∧ (step.relation, { s with relations := below }) :: more = entries := by
  rw [layoutEach_cons]
  constructor
  · intro h
    obtain ⟨⟨step, s, entered⟩, htake, h⟩ := bind_eq_ok.1 h
    obtain ⟨⟨below, left⟩, hbelow, h⟩ := bind_eq_ok.1 h
    obtain ⟨⟨more, final⟩, hmore, h⟩ := bind_eq_ok.1 h
    cases h
    exact ⟨step, s, entered, below, left, more, htake, hbelow, hmore, rfl⟩
  · rintro ⟨step, s, entered, below, left, more, htake, hbelow, hmore, rfl⟩
    exact bind_eq_ok.2 ⟨_, htake, bind_eq_ok.2 ⟨_, hbelow, bind_eq_ok.2 ⟨_, hmore, rfl⟩⟩⟩

/-- Where a walk stopped: at its first include, below it or behind it. -/
theorem layoutEach_cons_eq_error_iff :
    scope.layoutEach dialect walk ((name, inc) :: rest) = .error e
      ↔ scope.take dialect walk name inc = .error e
        ∨ ∃ step s entered, scope.take dialect walk name inc = .ok (step, s, entered)
          ∧ ((scope.enter step).layoutEach dialect entered inc.relations = .error e
            ∨ ∃ below left,
              (scope.enter step).layoutEach dialect entered inc.relations = .ok (below, left)
              ∧ scope.layoutEach dialect left rest = .error e) := by
  rw [layoutEach_cons]
  constructor
  · intro h
    rcases bind_eq_error.1 h with h | ⟨⟨step, s, entered⟩, htake, h⟩
    · exact Or.inl h
    refine Or.inr ⟨step, s, entered, htake, ?_⟩
    rcases bind_eq_error.1 h with h | ⟨⟨below, left⟩, hbelow, h⟩
    · exact Or.inl h
    rcases bind_eq_error.1 h with h | ⟨more, -, h⟩
    · exact Or.inr ⟨below, left, hbelow, h⟩
    · cases h
  · rintro (h | ⟨step, s, entered, htake, h | ⟨below, left, hbelow, h⟩⟩)
    · exact bind_eq_error.2 (Or.inl h)
    · exact bind_eq_error.2 (Or.inr ⟨_, htake, bind_eq_error.2 (Or.inl h)⟩)
    · exact bind_eq_error.2 (Or.inr ⟨_, htake,
        bind_eq_error.2 (Or.inr ⟨_, hbelow, bind_eq_error.2 (Or.inl h)⟩)⟩)

/-- Where a walk stops, it has come to an include that it cannot take,
behind others that it took. -/
theorem comesTo_of_layoutEach : ∀ {relations : List (String × IncludeTree)} {scope : Scope}
    {walk : Walk}, scope.layoutEach dialect walk relations = .error e →
    ∃ earlier taken name inc, IncludeTree.ComesTo relations earlier taken name inc
      ∧ ∃ entries last here, scope.layoutEach dialect walk earlier = .ok (entries, last)
        ∧ scope.reach taken = .ok here ∧ here.take dialect last name inc = .error e
  | [], scope, walk, h => by cases h
  | (name, ⟨fields, relations, filter, order⟩) :: rest, scope, walk, h => by
      rcases layoutEach_cons_eq_error_iff.1 h with
        htake | ⟨step, s, entered, htake, hbelow | ⟨below, left, hbelow, hmore⟩⟩
      · exact ⟨_, _, _, _, .first, [], walk, scope, rfl, rfl, htake⟩
      · obtain ⟨earlier, taken, next, nested, hcomes, entries, last, here, hearlier, hreach,
          hfails⟩ := comesTo_of_layoutEach hbelow
        -- what is below an include has no part in taking it, so cut it is taken alike
        have hcut : scope.take dialect walk name ⟨fields, earlier, filter, order⟩
            = .ok (step, s, entered) := htake
        rw [← reach_cons_of_take htake] at hreach
        exact ⟨_, _, _, _, .under hcomes, _, last, here,
          layoutEach_cons_eq_ok_iff.2 ⟨_, _, _, _, _, _, hcut, hearlier, rfl, rfl⟩, hreach, hfails⟩
      · obtain ⟨earlier, taken, next, nested, hcomes, entries, last, here, hearlier, hreach,
          hfails⟩ := comesTo_of_layoutEach hmore
        exact ⟨_, _, _, _, .later hcomes, _, last, here,
          layoutEach_cons_eq_ok_iff.2 ⟨_, _, _, _, _, _, htake, hbelow, hearlier, rfl⟩, hreach,
          hfails⟩
termination_by relations => sizeOf relations

/-- An include that cannot be taken stops the walk that comes to it. -/
theorem layoutEach_of_comesTo {earlier : List (String × IncludeTree)} {taken : RelationPath}
    (hcomes : IncludeTree.ComesTo relations earlier taken name inc) :
    ∀ {scope : Scope} {walk last : Walk} {entries : List (Relation × Structure)},
      scope.layoutEach dialect walk earlier = .ok (entries, last) →
      scope.reach taken = .ok here → here.take dialect last name inc = .error e →
      scope.layoutEach dialect walk relations = .error e := by
  induction hcomes with
  | first =>
      intro scope walk last entries hearlier hreach hfails
      cases hearlier
      cases hreach
      exact layoutEach_cons_eq_error_iff.2 (Or.inl hfails)
  | under _ ih =>
      intro scope walk last entries hearlier hreach hfails
      obtain ⟨step, s, entered, below, left, more, htake, hbelow, hmore, -⟩ :=
        layoutEach_cons_eq_ok_iff.1 hearlier
      cases hmore
      rw [reach_cons_of_take htake] at hreach
      exact layoutEach_cons_eq_error_iff.2
        (Or.inr ⟨step, s, entered, htake, Or.inl (ih hbelow hreach hfails)⟩)
  | later _ ih =>
      intro scope walk last entries hearlier hreach hfails
      obtain ⟨step, s, entered, below, left, more, htake, hbelow, hmore, -⟩ :=
        layoutEach_cons_eq_ok_iff.1 hearlier
      exact layoutEach_cons_eq_error_iff.2
        (Or.inr ⟨step, s, entered, htake, Or.inr ⟨below, left, hbelow, ih hmore hreach hfails⟩⟩)

-- ================================================================ steps

/-- Where relations lead, a scope of the mapping there is reached. -/
theorem reach_of_reaches {catalog : Catalog} {m last : Mapping} {path : RelationPath}
    (h : catalog.Reaches m path last) : ∀ {scope : Scope}, scope.catalog = catalog →
      scope.mapping = m → ∃ here, scope.reach path = .ok here ∧ here.mapping = last := by
  induction h with
  | here => exact fun {scope} _ hm => ⟨scope, rfl, hm⟩
  | @follow m target last r name path hrelation htarget _ ih =>
      rintro scope rfl rfl
      obtain ⟨step, hstep, htaken⟩ : ∃ step, scope.step name = .ok step ∧ step.target = target :=
        ⟨_, Catalog.step_eq_ok hrelation htarget, rfl⟩
      obtain ⟨here, hreach, hlast⟩ :=
        ih (show (scope.enter step).catalog = scope.catalog from rfl) htaken
      refine ⟨here, ?_, hlast⟩
      unfold reach
      rw [List.foldlM_cons, hstep]
      exact hreach

theorem reaches_of_reach {path : RelationPath} : ∀ {scope here : Scope},
    scope.reach path = .ok here → scope.catalog.Reaches scope.mapping path here.mapping := by
  induction path with
  | nil =>
      intro scope here h
      cases h
      exact .here
  | cons name path ih =>
      intro scope here h
      unfold reach at h
      rw [List.foldlM_cons] at h
      obtain ⟨next, hnext, h⟩ := bind_eq_ok.1 h
      obtain ⟨step, hstep, rfl⟩ := map_eq_ok.1 hnext
      obtain ⟨hrelation, -, htarget⟩ := Catalog.of_step hstep
      exact .follow hrelation htarget (ih h)

/-- An include is refused for an unknown relation where its own is not one
of the mapping. The path is made of the alias that the walk has come to. -/
theorem take_eq_unknown_iff {model relation path : String} :
    scope.take dialect walk name inc = .error (.unknownRelation model relation path)
      ↔ scope.mapping.relation? name = none ∧ scope.mapping.model = model ∧ name = relation
        ∧ (if scope.aliasPrefix.isEmpty then name else scope.aliasPrefix ++ "." ++ name)
          = path := by
  constructor
  · intro h
    rcases bind_eq_error.1 h with h | ⟨step, -, h⟩
    · unfold Catalog.step at h
      split at h
      · next hnone =>
        cases h
        exact ⟨hnone, rfl, rfl, rfl⟩
      · split at h <;> cases h
    · rcases bind_eq_error.1 h with h | ⟨_, -, h⟩
      · exact absurd h (Walk.enter_neverUnknown scope.catalog walk step inc.fields inc.filter
          inc.order model relation path)
      · cases h
  · rintro ⟨hnone, rfl, rfl, rfl⟩
    exact bind_eq_error.2 (Or.inl (Catalog.step_unknown hnone))

end Scope

-- ================================================================= plans

/-- What building a plan starts with: the columns of the root, and the walk
over the relations included there. -/
def Plan.walk (catalog : Catalog) (dialect : Dialect) (m : Mapping) (tableAlias : String)
    (fields : List String) (relations : List (String × IncludeTree)) :
    Except CompileError (List (Relation × Structure) × Walk) := do
  let columns ← m.fieldStructure tableAlias fields
  IncludeTree.layoutEach dialect catalog m tableAlias ""
    { offset := (m.keyStructure tableAlias "_").length + columns.length } relations

/-- A request includes an unknown relation: a plan's walk comes to it, and
there, behind the relations followed, no relation has its name. -/
structure IncludeTree.Strays (catalog : Catalog) (dialect : Dialect) (m : Mapping)
    (tableAlias : String) (inc : IncludeTree) (taken : RelationPath) (name : String)
    (here : Mapping) : Prop where
  comes : ∃ earlier nested, IncludeTree.ComesTo inc.relations earlier taken name nested
    ∧ ∃ walked, Plan.walk catalog dialect m tableAlias inc.fields earlier = .ok walked
  reached : catalog.Reaches m taken here
  unknown : here.relation? name = none

section Plans

variable {catalog : Catalog} {dialect : Dialect} {m : Mapping} {inc : IncludeTree}
  {tableAlias : String} {offset : Nat} {limit : Option Nat}

/-- A plan fails as its walk does. -/
theorem Plan.build_of_walk {e : CompileError}
    (h : Plan.walk catalog dialect m tableAlias inc.fields inc.relations = .error e) :
    Plan.build catalog dialect m inc tableAlias offset limit = .error e := by
  unfold Plan.build
  rcases bind_eq_error.1 h with hfields | ⟨columns, hfields, hwalk⟩
  · exact bind_eq_error.2 (Or.inl hfields)
  · exact bind_eq_error.2 (Or.inr ⟨columns, hfields, bind_eq_error.2 (Or.inl hwalk)⟩)

/-- The walk of a plan reports an unknown relation where the request
includes one. -/
theorem Plan.walk_eq_unknown_iff {model name path : String} :
    Plan.walk catalog dialect m tableAlias inc.fields inc.relations
        = .error (.unknownRelation model name path)
      ↔ ∃ taken here, inc.Strays catalog dialect m tableAlias taken name here
        ∧ here.model = model ∧ taken.reported name = path := by
  set scope := IncludeTree.rootScope catalog m tableAlias
  have hbare : scope.aliasPrefix = "" := rfl
  constructor
  · intro h
    rcases bind_eq_error.1 h with h | ⟨columns, hcolumns, hwalk⟩
    · exact absurd h (m.fieldStructure_neverUnknown tableAlias inc.fields model name path)
    obtain ⟨earlier, taken, next, nested, hcomes, entries, last, here, hearlier, hreach, hfails⟩ :=
      Scope.comesTo_of_layoutEach (show scope.layoutEach dialect _ inc.relations = _ from hwalk)
    obtain ⟨hnone, hmodel, rfl, hpath⟩ := Scope.take_eq_unknown_iff.1 hfails
    obtain ⟨-, -, hbefore⟩ := Scope.aliases_of_reach hbare hreach
    rw [hbefore] at hpath
    exact ⟨taken, here.mapping,
      ⟨⟨earlier, nested, hcomes, _, bind_eq_ok.2 ⟨columns, hcolumns, hearlier⟩⟩,
        Scope.reaches_of_reach hreach, hnone⟩, hmodel, hpath⟩
  · rintro ⟨taken, last, ⟨⟨earlier, nested, hcomes, ⟨entries, walked⟩, hwalk⟩, hreaches, hnone⟩,
      rfl, rfl⟩
    obtain ⟨columns, hcolumns, hearlier⟩ := bind_eq_ok.1 hwalk
    obtain ⟨here, hreach, rfl⟩ : ∃ here, scope.reach taken = .ok here ∧ here.mapping = last :=
      Scope.reach_of_reaches hreaches rfl rfl
    obtain ⟨-, -, hbefore⟩ := Scope.aliases_of_reach hbare hreach
    have hfails : here.take dialect walked name nested
        = .error (.unknownRelation here.mapping.model name (taken.reported name)) := by
      refine Scope.take_eq_unknown_iff.2 ⟨hnone, rfl, rfl, ?_⟩
      rw [hbefore]
      rfl
    have hstops : scope.layoutEach dialect _ inc.relations = _ :=
      Scope.layoutEach_of_comesTo hcomes hearlier hreach hfails
    exact bind_eq_error.2 (Or.inr ⟨columns, hcolumns, hstops⟩)

/-- A request that includes an unknown relation fails for it, with the model
of the mapping reached and the relation's name. The path it is reported with
is the one with points between the relations exactly if at most one was
followed, and that one has a name. No other request fails for an unknown
relation before the filter and order of its root are compiled. -/
theorem Plan.unknown_include_reported (catalog : Catalog) (dialect : Dialect) (m : Mapping)
    (inc : IncludeTree) (tableAlias : String) (offset : Nat) (limit : Option Nat) :
    (∀ taken name here, inc.Strays catalog dialect m tableAlias taken name here →
      Plan.build catalog dialect m inc tableAlias offset limit
          = .error (.unknownRelation here.model name (taken.reported name))
        ∧ (Plan.build catalog dialect m inc tableAlias offset limit
            = .error (.unknownRelation here.model name (taken.dotted name))
          ↔ taken = [] ∨ ∃ r, r ≠ "" ∧ taken = [r]))
    ∧ ∀ model name path,
      Plan.build catalog dialect m inc tableAlias offset limit
          = .error (.unknownRelation model name path) →
      (∃ taken here, inc.Strays catalog dialect m tableAlias taken name here
        ∧ here.model = model ∧ taken.reported name = path)
      ∨ ∃ walked, Plan.walk catalog dialect m tableAlias inc.fields inc.relations
          = .ok walked := by
  constructor
  · intro taken name here h
    have hbuild : Plan.build catalog dialect m inc tableAlias offset limit
        = .error (.unknownRelation here.model name (taken.reported name)) :=
      Plan.build_of_walk (Plan.walk_eq_unknown_iff.2 ⟨taken, here, h, rfl, rfl⟩)
    refine ⟨hbuild, ?_⟩
    rw [hbuild, ← RelationPath.reported_eq_dotted_iff taken name]
    simp
  · intro model name path h
    cases hwalk : Plan.walk catalog dialect m tableAlias inc.fields inc.relations with
    | ok walked => exact Or.inr ⟨walked, rfl⟩
    | error e =>
        have hbuild : Plan.build catalog dialect m inc tableAlias offset limit = .error e :=
          Plan.build_of_walk hwalk
        cases hbuild.symm.trans h
        exact Or.inl (Plan.walk_eq_unknown_iff.1 hwalk)

end Plans

/-- An unknown relation below one that was followed, behind another that was
taken. -/
def strayInclude : IncludeTree where
  relations := [("sponsor", {}), ("sponsored", { relations := [("club", {})] })]

theorem strayInclude_strays :
    strayInclude.Strays memberCatalog Flavor.sqlite.dialect memberMapping "m" ["sponsored"] "club"
      memberMapping where
  comes := ⟨[("sponsor", {}), ("sponsored", {})], {}, .later (.under .first), _, rfl⟩
  reached := .follow rfl rfl .here
  unknown := rfl

/-- It is reported with the path to it. -/
theorem Plan.unknown_club_reported :
    strayInclude.Strays memberCatalog Flavor.sqlite.dialect memberMapping "m" ["sponsored"] "club"
        memberMapping
      ∧ Plan.build memberCatalog Flavor.sqlite.dialect memberMapping strayInclude "m" 0 none
        = .error (.unknownRelation "Member" "club" "sponsored.club") := by
  obtain ⟨hreported, -⟩ := Plan.unknown_include_reported memberCatalog Flavor.sqlite.dialect
    memberMapping strayInclude "m" 0 none
  exact ⟨strayInclude_strays, (hreported _ _ _ strayInclude_strays).1⟩

/-- An unknown relation below two that were followed. -/
def deepInclude : IncludeTree where
  relations := [("sponsored", { relations := [("sponsor", { relations := [("club", {})] })] })]

theorem deepInclude_strays :
    deepInclude.Strays memberCatalog Flavor.sqlite.dialect memberMapping "m"
      ["sponsored", "sponsor"] "club" memberMapping where
  comes := ⟨[("sponsored", { relations := [("sponsor", {})] })], {}, .under (.under .first), _, rfl⟩
  reached := .follow rfl rfl (.follow rfl rfl .here)
  unknown := rfl

/-- Where two relations were followed, the path reported glues their names
together. -/
theorem Plan.unknown_club_misreported :
    ¬ ∀ (catalog : Catalog) (dialect : Dialect) (m : Mapping) (inc : IncludeTree)
      (tableAlias : String) (offset : Nat) (limit : Option Nat) (taken : RelationPath)
      (name : String) (here : Mapping),
      inc.Strays catalog dialect m tableAlias taken name here →
        Plan.build catalog dialect m inc tableAlias offset limit
          = .error (.unknownRelation here.model name (taken.dotted name)) := by
  intro h
  have hdotted := h memberCatalog Flavor.sqlite.dialect memberMapping deepInclude "m" 0 none _ _ _
    deepInclude_strays
  have hglued : Plan.build memberCatalog Flavor.sqlite.dialect memberMapping deepInclude "m" 0 none
      = .error (.unknownRelation "Member" "club" "sponsored_sponsor.club") := rfl
  rw [hglued] at hdotted
  exact absurd (Except.error.inj hdotted) (by decide)

end RecordQuery

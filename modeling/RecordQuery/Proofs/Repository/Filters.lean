/-
Filters of requests to a repository. A filter is added to an include or to
the options of a request, and stands in the statement behind what was
there before: in a request by keys behind the key clause and the filter of
the include.

So no filter can be wrong unnoticed. What is wrong with the first one that
is wrong is what the request fails with, unless it is a conjunction
without members that does not stay: one adds nothing to a conjunction, not
even its error. It is noticed behind any other condition, and where there
is nothing else.
-/
import RecordQuery.Dialect.Flavor
import RecordQuery.Proofs.Acceptance.Conjoined
import RecordQuery.Proofs.Loading.FanOut
import RecordQuery.Repository.Reconcile

namespace RecordQuery

-- ======================================================== adding filters

theorem Include.filter_addFilters (inc : Include) (filters : List Clause) :
    (filters.foldl Include.addFilter inc).filter = Clause.conjoin inc.filter filters :=
  (List.foldl_hom Include.filter fun _ _ => rfl).symm

theorem FindOptions.filter_addFilters (options : FindOptions) (filters : List Clause) :
    (filters.foldl FindOptions.addFilter options).included.filter
      = Clause.conjoin options.included.filter filters :=
  (List.foldl_hom (fun options : FindOptions => options.included.filter) fun _ _ => rfl).symm

theorem GetOptions.addFilters_eq (options : GetOptions) (filters : List Clause) :
    filters.foldl GetOptions.addFilter options
      = { options with filter := Clause.conjoin options.filter filters } := by
  induction filters generalizing options with
  | nil => rfl
  | cons filter rest ih => exact ih (options.addFilter filter)

-- =================================================== what is not noticed

section Errors

variable (dialect : Dialect) (scope : Scope)

/-- A condition, if there is one, that is compiled. -/
def Clause.Compiles (c? : Option Clause) : Prop :=
  ∀ c ∈ c?, ∃ f, c.compile dialect scope = .ok f

/-- A condition that cannot be compiled for an error. -/
def Clause.FailsWith (e : CompileError) (c? : Option Clause) : Prop :=
  ∃ c, c? = some c ∧ c.compile dialect scope = .error e

end Errors

namespace Clause

variable {dialect : Dialect} {scope : Scope} {x : Option Clause} {c : Clause} {e : CompileError}

theorem Reports.failsWith (h : Reports dialect scope e x) : FailsWith dialect scope e x := by
  obtain ⟨c, hc, he⟩ := h
  exact ⟨c, hc, compile_eq_error he⟩

/-- What is left alone, or reported, behind a condition that is no
conjunction is reported. -/
theorem Reports.behind {l : Clause} (hl : Compiles dialect scope (some l))
    (hconjunction : l.isConjunction = false)
    (hcollision : ∀ name first second, e ≠ .aliasCollision name first second)
    (he : c.compile dialect scope = .error e) (hx : Reports dialect scope e x ∨ x = some c) :
    Reports dialect scope e (andOpt (some l) x) := by
  rcases hx with hx | rfl
  · exact hx.andOpt_right (.of_compile hl)
  · exact .of_stays (.of_compile hl) (fun _ => Or.inl ⟨l, rfl, hconjunction⟩) hcollision he

/-- A filter that fails and stays, behind others that do not fail, is what the
conjunction fails with. -/
theorem failsWith_conjoin {start : Option Clause} {before after : List Clause}
    (hstart : Compiles dialect scope start)
    (hbefore : ∀ b ∈ before, ∃ f, b.compile dialect scope = .ok f)
    (hstays : Stays (conjoin start before) c (∀ d ∈ after, d = .and []))
    (hcollision : ∀ name first second, e ≠ .aliasCollision name first second)
    (he : c.compile dialect scope = .error e) :
    FailsWith dialect scope e (conjoin start (before ++ c :: after)) := by
  have hends : Stays (conjoin start before) c ((∀ d ∈ after, d = .and []) ∧ True) := by
    rwa [and_true]
  rcases reports_conjoin (.of_compile hstart) hbefore hends hcollision he with
    hreports | ⟨rfl, -, halone⟩
  · exact hreports.failsWith
  · exact ⟨.and [], halone, he⟩

/-- Conditions that are put together hide nothing but a conjunction without
members that does not stay. Of two others, if they are compiled together,
each is compiled, and their parameters stand one after the other; so do
those of any number of filters. And if one of the filters that are added to
an include or to the options of a request fails behind others that do not,
for anything but a collision of aliases, then the condition of the request
fails with that error, whatever is added behind it. A conjunction without
members stays behind a condition that is no conjunction, and where there
is nothing but others like it; a request by keys puts the filters of the
options behind that of the include. -/
theorem conjoined_hide_nothing (dialect : Dialect) (scope : Scope) :
    (∀ l r whole : Clause, ∀ f, Stays none l (r = .and []) → Stays (some l) r True →
        andOpt (some l) (some r) = some whole → whole.compile dialect scope = .ok f →
        ∃ fl fr, l.compile dialect scope = .ok fl ∧ r.compile dialect scope = .ok fr
          ∧ f.params = fl.params ++ fr.params)
      ∧ (∀ first filters whole f,
        (∀ before c after, first :: filters = before ++ c :: after →
          Stays (conjoin none before) c (∀ d ∈ after, d = .and [])) →
        conjoin none (first :: filters) = some whole → whole.compile dialect scope = .ok f →
        ∃ fs, List.Forall₂ (fun c f => c.compile dialect scope = .ok f) (first :: filters) fs
          ∧ f.params = fs.flatMap Fragment.params)
      ∧ ∀ before c after e, (∀ b ∈ before, ∃ f, b.compile dialect scope = .ok f) →
        (∀ name first second, e ≠ .aliasCollision name first second) →
        c.compile dialect scope = .error e →
        let filters := before ++ c :: after
        (∀ inc : Include, Compiles dialect scope inc.filter →
          Stays (conjoin inc.filter before) c (∀ d ∈ after, d = .and []) →
          FailsWith dialect scope e (filters.foldl Include.addFilter inc).filter)
        ∧ (∀ options : FindOptions, Compiles dialect scope options.included.filter →
          Stays (conjoin options.included.filter before) c (∀ d ∈ after, d = .and []) →
          FailsWith dialect scope e (filters.foldl FindOptions.addFilter options).included.filter)
        ∧ ∀ (options : GetOptions) (m : Mapping) (keys : List (List Value)),
          Compiles dialect scope (some (m.keyClause keys)) →
          Compiles dialect scope options.included.filter →
          (Stays (conjoin options.included.filter before) c
              ((∀ d ∈ after, d = .and []) ∧ ∀ d ∈ options.filter, d = .and []) →
            FailsWith dialect scope e
              (({ options with included := filters.foldl Include.addFilter options.included } :
                GetOptions).byKeys m keys).filter)
          ∧ (Compiles dialect scope options.filter →
            Stays (conjoin options.filter before) c
              ((∀ d ∈ after, d = .and [])
                ∧ ∀ l ∈ options.included.filter, l.isConjunction = false) →
            FailsWith dialect scope e
              ((filters.foldl GetOptions.addFilter options).byKeys m keys).filter) := by
  refine ⟨fun l r whole f hl hr hwhole hf => ?_, ?_, ?_⟩
  · have halone : Stays none l (∀ d ∈ [r], d = .and []) := by rwa [List.forall_mem_singleton]
    have hfirst : l ≠ .and [] := ne_nil_of_stays halone hwhole hf
    exact compiles_of_andOpt hfirst (hr.behind hfirst) hwhole hf
  · intro first filters whole f hstays hwhole hf
    have hfirst : first ≠ .and [] := ne_nil_of_stays (hstays [] first filters rfl) hwhole hf
    obtain ⟨g, fs, hg, hfs, hparams⟩ := compiles_of_conjoin hfirst
      (fun before c after hsplit => hstays (first :: before) c after (congrArg _ hsplit)) hwhole hf
    exact ⟨g :: fs, .cons hg hfs, by rw [hparams, List.flatMap_cons]⟩
  · intro before c after e hbefore hcollision he filters
    have hadded : ∀ {start alone}, Compiles dialect scope start →
        Stays (conjoin start before) c ((∀ d ∈ after, d = .and []) ∧ alone) →
        Reports dialect scope e (conjoin start filters)
          ∨ c = .and [] ∧ alone ∧ conjoin start filters = some (.and []) :=
      fun hstart hstays => reports_conjoin (.of_compile hstart) hbefore hstays hcollision he
    refine ⟨fun inc hinc hstays => ?_, fun options hoptions hstays => ?_,
      fun options m keys hkeys hinc => ⟨fun hstays => ?_, fun hfilter hstays => ?_⟩⟩
    · rw [Include.filter_addFilters]
      exact failsWith_conjoin hinc hbefore hstays hcollision he
    · rw [FindOptions.filter_addFilters]
      exact failsWith_conjoin hoptions hbefore hstays hcollision he
    · refine (Reports.behind hkeys rfl hcollision he ?_).failsWith
      rw [Include.filter_addFilters]
      rcases hadded hinc hstays with hreports | ⟨rfl, hothers, halone⟩
      · exact Or.inl hreports.andOpt_left
      · rw [halone]
        cases hfound : options.filter with
        | none => exact Or.inr rfl
        | some r =>
            cases hothers r hfound
            exact Or.inr rfl
    · refine (Reports.behind hkeys rfl hcollision he ?_).failsWith
      rw [GetOptions.addFilters_eq]
      show Reports dialect scope e (andOpt options.included.filter (conjoin options.filter filters))
        ∨ andOpt options.included.filter (conjoin options.filter filters) = some c
      rcases hadded hfilter hstays with hreports | ⟨rfl, hothers, halone⟩
      · exact Or.inl (hreports.andOpt_right (.of_compile hinc))
      · rw [halone]
        cases hfound : options.included.filter with
        | none => exact Or.inr rfl
        | some l =>
            rw [hfound] at hinc hothers
            exact Or.inl (.behind hinc (hothers l rfl) hcollision he (Or.inr rfl))

/-- Persons whose number is above another. -/
def above (id : Int64) : Clause :=
  .compare .gt (.field "id") (.value (.int64 id))

/-- Two conditions with their parameters, and a disjunction without members
between them, which is noticed in requests of both kinds. A conjunction
without members is noticed behind one of them, and alone. -/
theorem above_hides_nothing :
    let scope := Scope.ofMapping personCatalog personMapping
    let e := CompileError.emptyBooleanGroup
    (∃ fl fr, (above 7).compile Flavor.sqlite.dialect scope = .ok fl
        ∧ (Clause.and [above 8, above 9]).compile Flavor.sqlite.dialect scope = .ok fr
        ∧ [.int64 7, .int64 8, .int64 9] = fl.params ++ fr.params)
      ∧ FailsWith Flavor.sqlite.dialect scope (e "or")
        ((({} : FindOptions).addFilter (above 7)).addFilter (.or [])).included.filter
      ∧ FailsWith Flavor.sqlite.dialect scope (e "and")
        ((({} : FindOptions).addFilter (above 7)).addFilter (.and [])).included.filter
      ∧ FailsWith Flavor.sqlite.dialect scope (e "or")
        ((((({} : GetOptions).addFilter (above 7)).addFilter (.or [])).addFilter (above 8)).byKeys
          personMapping [[.int64 1]]).filter
      ∧ FailsWith Flavor.sqlite.dialect scope (e "and")
        ((({} : GetOptions).addFilter (.and [])).byKeys personMapping [[.int64 1]]).filter := by
  intro scope e
  obtain ⟨htwo, -, hfails⟩ := conjoined_hide_nothing Flavor.sqlite.dialect scope
  have hfirst : ∀ b ∈ [above 7], ∃ f, b.compile Flavor.sqlite.dialect scope = .ok f :=
    List.forall_mem_singleton.2 ⟨_, rfl⟩
  have hcollision : ∀ group name first second, e group ≠ .aliasCollision name first second :=
    fun _ _ _ _ => nofun
  have hnone : Compiles Flavor.sqlite.dialect scope none := nofun
  have hkeys : Compiles Flavor.sqlite.dialect scope
      (some (personMapping.keyClause [[.int64 1]])) := by
    intro c hc
    cases hc
    exact ⟨_, rfl⟩
  have hor : ∀ sofar alone, Stays sofar (.or []) alone := fun _ _ => nofun
  obtain ⟨-, hfind, -⟩ := hfails [above 7] (.or []) [] (e "or") hfirst (hcollision _) rfl
  obtain ⟨-, hfindAnd, -⟩ := hfails [above 7] (.and []) [] (e "and") hfirst (hcollision _) rfl
  obtain ⟨-, -, hget⟩ := hfails [above 7] (.or []) [above 8] (e "or") hfirst (hcollision _) rfl
  obtain ⟨-, -, halone⟩ := hfails [] (.and []) [] (e "and") nofun (hcollision _) rfl
  refine ⟨htwo (above 7) (.and [above 8, above 9]) _ _ nofun nofun rfl rfl,
    hfind {} hnone (hor _ _), hfindAnd {} hnone fun _ => Or.inl ⟨above 7, rfl, rfl⟩, ?_, ?_⟩
  · exact (hget {} personMapping [[.int64 1]] hkeys hnone).2 hnone (hor _ _)
  · exact (halone {} personMapping [[.int64 1]] hkeys hnone).2 hnone fun _ =>
      Or.inr ⟨nofun, nofun, nofun⟩

/-- A conjunction without members cannot be compiled, but leaves no trace
before another condition or behind a conjunction. -/
theorem empty_conjunction_vanishes :
    let scope := Scope.ofMapping personCatalog personMapping
    (Clause.and []).compile Flavor.sqlite.dialect scope = .error (.emptyBooleanGroup "and")
      ∧ andOpt (some (.and [])) (some (above 7)) = some (.and [above 7])
      ∧ andOpt (some (.and [above 7])) (some (.and [])) = some (.and [above 7])
      ∧ ((({} : FindOptions).addFilter (.and [])).addFilter (above 7)).included.filter
        = some (.and [above 7])
      ∧ ((({} : GetOptions).addFilter (.and [above 7])).addFilter (.and [])).filter
        = some (.and [above 7])
      ∧ ∃ f, (Clause.and [above 7]).compile Flavor.sqlite.dialect scope = .ok f
        ∧ f.params = [.int64 7] :=
  ⟨rfl, rfl, rfl, rfl, rfl, _, rfl, rfl⟩

end Clause

end RecordQuery

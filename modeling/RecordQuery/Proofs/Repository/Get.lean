/-
Requests for known records. Whatever the connection delivers, a request
that fails leaves every target as it was, and one whose rows make records
either reports how many targets have none or brings all of them up to
date.
-/
import RecordQuery.Proofs.Loading.FanOut
import RecordQuery.Proofs.Repository.Reconcile

namespace RecordQuery

namespace Repository

variable {r : Repository} {c : Circumstances} {m : Mapping} {inc : Include} {offset : Nat}
  {limit : Option Nat}

/-- The records that are loaded are typed. -/
theorem typed_of_load (hm : m ∈ r.catalog.mappings) {records : List Record}
    (h : (r.load c m inc offset limit).result = .ok records) : ∀ t ∈ records, m.Typed t := by
  unfold load at h
  split at h
  · cases h
  · next plan hplan =>
    split at h
    · cases h
    · next r' hacquired =>
      obtain ⟨hbuilt, hmapping, -⟩ := Plan.layout_built hplan
      have hconsistent : plan.layout.mapping.Consistent := hmapping ▸ Catalog.consistent hm
      obtain ⟨source, -, hread⟩ := bind_eq_ok.1 h
      rw [← hmapping]
      exact hbuilt.typed_of_read hconsistent hread

/-- With its targets read, a request goes on from what was loaded: a failure
leaves the targets, and records are taken over by them. -/
theorem get_of_load {r repository : Repository} {c : Circumstances} {model : String} {m : Mapping}
    {targets : List Record} {options : GetOptions} {result : Except Error (List Record)}
    {sent : List Statement} (hm : r.catalog.mapping? model = some m) (hne : targets ≠ [])
    (htargets : ∀ t ∈ targets, t.model = m.model)
    (hload : r.load c m (options.byKeys m (targets.map m.keyValues)) 0 none
      = ⟨result, sent, repository⟩) :
    (∀ e, result = .error e →
      r.get c model targets options = ⟨.error (e.noted "get"), targets, sent, repository⟩)
    ∧ ∀ records, result = .ok records →
      r.get c model targets options
        = ⟨(m.reconcile options.included (targets.map m.keyValues) targets records).1,
          (m.reconcile options.included (targets.map m.keyValues) targets records).2,
          sent, repository⟩ := by
  have hempty : targets.isEmpty = false := by simpa using hne
  have hmapping : r.catalog.mapping model = .ok m := by
    unfold Catalog.mapping
    rw [hm]
  unfold get
  rw [hempty, if_neg Bool.false_ne_true, hmapping]
  dsimp only
  rw [Mapping.mapM_keyOf htargets]
  dsimp only
  rw [hload]
  constructor
  · rintro e rfl
    rfl
  · rintro records rfl
    rfl

/-- Getting known records is all or nothing. A request that fails, for
whatever reason, leaves every target as it was. Once records are loaded it
fails only if a target has no record, and then says how many have one; if
none lacks a record, every target is brought up to date from the first
record of its key, of targets with one key the first receiving what the
relations hold. -/
theorem get_all_or_nothing (r : Repository) (c : Circumstances) (model : String) (m : Mapping)
    (hm : r.catalog.mapping? model = some m) (targets : List Record) (hne : targets ≠ [])
    (htargets : ∀ t ∈ targets, t.model = m.model) (options : GetOptions) :
    (∀ e, (r.get c model targets options).result = .error e →
      (r.get c model targets options).targets = targets)
    ∧ (∀ e, (r.load c m (options.byKeys m (targets.map m.keyValues)) 0 none).result = .error e →
      (r.get c model targets options).result = .error (e.noted "get"))
    ∧ ∀ records,
      (r.load c m (options.byKeys m (targets.map m.keyValues)) 0 none).result = .ok records →
      (m.foundAmong targets records < targets.length →
        (r.get c model targets options).result
          = .error (Fault.notFound targets.length (m.foundAmong targets records)))
      ∧ (¬m.foundAmong targets records < targets.length →
        (r.get c model targets options).result = .ok ()
        ∧ (r.get c model targets options).targets.length = targets.length
        ∧ ∀ i target after, targets[i]? = some target →
          (r.get c model targets options).targets[i]? = some after →
          ∃ record, records.find? (fun t => m.keyTextOf t == m.keyTextOf target) = some record
            ∧ m.UpToDate options.included
              (m.keyTextOf target ∈ (targets.take i).map m.keyTextOf) target record after) := by
  obtain ⟨hmem, -⟩ := Catalog.mem_of_mapping? hm
  have hconsistent := Catalog.consistent hmem
  generalize hloaded : r.load c m (options.byKeys m (targets.map m.keyValues)) 0 none = loaded
  obtain ⟨result, sent, repository⟩ := loaded
  obtain ⟨hfailed, hserved⟩ := get_of_load hm hne htargets hloaded
  cases result with
  | error e =>
      have hget := hfailed e rfl
      refine ⟨fun e' h => ?_, fun e' h => ?_, fun records h => (by cases h)⟩
      · rw [hget]
      · cases h
        rw [hget]
  | ok records =>
      have hget := hserved records rfl
      have htyped : ∀ t ∈ records, m.Typed t := typed_of_load hmem (by rw [hloaded])
      obtain ⟨hmissing, hall⟩ :=
        Mapping.reconcile_eq hconsistent htargets htyped options.included.distinct.names
      refine ⟨fun e h => ?_, fun e h => (by cases h), fun records' h => ?_⟩
      · by_cases hlt : m.foundAmong targets records < targets.length
        · rw [hget]
          exact congrArg Prod.snd (hmissing hlt)
        · -- every target has a record, so the request succeeded
          obtain ⟨afters, hafters, -⟩ := hall hlt
          rw [hget] at h
          change (m.reconcile _ _ _ _).1 = _ at h
          rw [hafters] at h
          cases h
      · cases h
        refine ⟨fun hlt => ?_, fun hnot => ?_⟩
        · rw [hget]
          exact congrArg Prod.fst (hmissing hlt)
        · obtain ⟨afters, hafters, hlength, hupdated⟩ := hall hnot
          rw [hget]
          refine ⟨congrArg Prod.fst hafters, ?_, fun i target after htarget hafter => ?_⟩
          · show (m.reconcile _ _ _ _).2.length = _
            rw [hafters]
            exact hlength
          · change (m.reconcile _ _ _ _).2[i]? = _ at hafter
            rw [hafters] at hafter
            exact hupdated i target after htarget hafter

/-- People with their children, in a database that takes one connection. -/
def peopleRepository : Repository where
  catalog := personCatalog
  dialect := Flavor.sqlite.dialect
  pool := { capacity := 1, idle := 1, held := 0, opened := 1, attempts := [] }

/-- Three rows: a person with two children, and one without. -/
def peopleReply : Circumstances where
  reply := .rows (.buffered
    [[.int64 1, .int64 7, .int64 3, .null], [.int64 1, .int64 7, .int64 4, .null],
     [.int64 2, .null, .null, .null]])

def peopleOptions : GetOptions where
  included :=
    { tree := { fields := ["parentId"], relations := [("children", { fields := ["hostId"] })] } }

/-- Two targets for one person, and one for another between them. -/
def peopleTargets : List Record :=
  [person 1 [], person 2 [],
    { person 1 [] with values := [("id", .int64 1), ("hostId", .int64 5)] }]

/-- Of two targets for one person only the first receives the children, and
the second keeps the host it had. -/
theorem get_same_person_twice :
    peopleRepository.catalog.mapping? "Person" = some personMapping
      ∧ (∀ t ∈ peopleTargets, t.model = personMapping.model)
      ∧ ∃ got, got = peopleRepository.get peopleReply "Person" peopleTargets peopleOptions
        ∧ got.result = .ok ()
        ∧ ∀ after, got.targets[2]? = some after →
          after.relatedTo "children" = [] ∧ after.value? "hostId" = some (.int64 5) := by
  have hmapping : peopleRepository.catalog.mapping? "Person" = some personMapping := rfl
  have hmodel : ∀ t ∈ peopleTargets, t.model = personMapping.model := by decide
  refine ⟨hmapping, hmodel, _, rfl, ?_⟩
  obtain ⟨records, hload, hfound⟩ : ∃ records,
      (peopleRepository.load peopleReply personMapping (peopleOptions.byKeys personMapping
        (peopleTargets.map personMapping.keyValues)) 0 none).result = .ok records
        ∧ ¬personMapping.foundAmong peopleTargets records < peopleTargets.length :=
    ⟨_, rfl, by decide +kernel⟩
  obtain ⟨-, -, hrecords⟩ := get_all_or_nothing peopleRepository peopleReply "Person"
    personMapping hmapping peopleTargets (by decide) hmodel peopleOptions
  obtain ⟨hok, -, hupdated⟩ := (hrecords records hload).2 hfound
  refine ⟨hok, fun after hafter => ?_⟩
  obtain ⟨record, -, hafter⟩ := hupdated 2 _ after rfl hafter
  exact ⟨hafter.gone (by decide +kernel) _ List.mem_cons_self (by decide),
    hafter.others "hostId" (by decide)⟩

end Repository

end RecordQuery

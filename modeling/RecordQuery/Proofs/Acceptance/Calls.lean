/-
The calls that are accepted. A call is checked against the signatures, of
which no two have one name; what it is written as is then up to the
dialect, which has to have a form for every method.
-/
import RecordQuery.Proofs.Acceptance.Decided

namespace RecordQuery

namespace Signature

/-- Every literal in the place of a text is a text. -/
def TextsFit (takes : List Arg) (args : List Element) : Prop :=
  ∀ (i : Nat) (v : Value), takes[i]? = some .text → args[i]? = some (.value v) →
    ∃ text, v = .text text

/-- A call of a method as it is declared: there is a signature of the name,
which takes as many arguments and texts where it is given literals. -/
def Admits (name : String) (args : List Element) : Prop :=
  ∃ s ∈ all, s.name = name ∧ args.length = s.args.length ∧ TextsFit s.args args

/-- Literals fit if the first does and the others do. -/
theorem textsFit_cons {take : Arg} {takes : List Arg} {arg : Element} {args : List Element} :
    TextsFit (take :: takes) (arg :: args)
      ↔ (∀ v, take = .text → arg = .value v → ∃ text, v = .text text)
        ∧ TextsFit takes args := by
  constructor
  · intro h
    refine ⟨fun v htake harg => h 0 v ?_ ?_, fun i v => h (i + 1) v⟩
    · rw [List.getElem?_cons_zero, htake]
    · rw [List.getElem?_cons_zero, harg]
  · rintro ⟨hfirst, hrest⟩ (_ | i) v htake harg
    · exact hfirst v (Option.some.inj htake) (Option.some.inj harg)
    · exact hrest i v htake harg

theorem accepts_value_iff {take : Arg} {v : Value} :
    Arg.accepts take (.value v) ↔ (take = .text → ∃ text, v = .text text) := by
  cases take with
  | any => exact iff_of_true rfl nofun
  | text => cases v <;> simp [Arg.accepts, Value.isText]

theorem misfit?_eq_none_iff : ∀ {takes : List Arg} {args : List Element} {position : Nat},
    misfit? position takes args = none ↔ TextsFit takes args
  | [], args, position => iff_of_true rfl fun i v h => by simp at h
  | take :: takes, [], position => iff_of_true rfl fun i v _ h => by simp at h
  | take :: takes, arg :: args, position => by
      have ih : misfit? (position + 1) takes args = none ↔ TextsFit takes args :=
        misfit?_eq_none_iff
      rw [misfit?, textsFit_cons]
      cases arg with
      | value v =>
          have hfirst : (∀ v', take = .text → Element.value v = .value v' → ∃ text, v' = .text text)
              ↔ Arg.accepts take (.value v) := by
            rw [accepts_value_iff]
            refine ⟨fun h htake => h v htake rfl, fun h v' htake hv => ?_⟩
            cases hv
            exact h htake
          rw [hfirst, ← ih]
          simp only [Element.value?]
          split
          · next h => exact (and_iff_right h).symm
          · next h => exact iff_of_false nofun fun hboth => h hboth.1
      | field path => exact ih.trans (and_iff_right nofun).symm
      | method name args' => exact ih.trans (and_iff_right nofun).symm

/-- A call is checked by the one signature of its name. -/
theorem check_decided {name : String} {args : List Element} :
    Decided (check name args) (fun s => s ∈ all) (Admits name args) := by
  have hunique : ∀ s ∈ all, ∀ s' ∈ all, s.name = s'.name → s = s' := by decide
  unfold check
  cases hfind : find? name with
  | none =>
      refine Decided.error ?_
      rintro ⟨s, hs, rfl, -⟩
      exact List.find?_eq_none.1 hfind s hs (by simp)
  | some s =>
      have hs : s ∈ all := List.mem_of_find?_eq_some hfind
      have hname : s.name = name := by simpa using List.find?_some hfind
      have hadmits : Admits name args ↔ args.length = s.args.length ∧ TextsFit s.args args := by
        constructor
        · rintro ⟨s', hs', rfl, hfits⟩
          rwa [hunique s hs s' hs' hname]
        · exact fun hfits => ⟨s, hs, hname, hfits⟩
      rw [hadmits]
      dsimp only
      split
      · next hlength => exact Decided.error fun h => hlength h.1
      · next hlength =>
        cases hmisfit : misfit? 0 s.args args with
        | none =>
            have hfits := misfit?_eq_none_iff.1 hmisfit
            exact (Decided.pure hs).congr (iff_of_true trivial ⟨not_not.1 hlength, hfits⟩)
        | some misplaced =>
            refine Decided.error fun h => ?_
            rw [misfit?_eq_none_iff.2 h.2] at hmisfit
            cases hmisfit

end Signature

/-- A dialect that has a form for every method. -/
def Dialect.Complete (d : Dialect) : Prop :=
  ∀ s ∈ Signature.all, (d.template? s.name).isSome

theorem Flavor.dialect_complete (flavor : Flavor) : flavor.dialect.Complete := by
  unfold Dialect.Complete
  cases flavor <;> decide

theorem Dialect.form_decided {dialect : Dialect} (hd : dialect.Complete) {name : String}
    {args : List Element} :
    Decided (dialect.form name args) (fun _ => True) (Signature.Admits name args) := by
  refine (Signature.check_decided.bind (D := True) fun s hs => ?_).congr (iff_of_eq (and_true _))
  obtain ⟨template, htemplate⟩ := Option.isSome_iff_exists.1 (hd s hs)
  rw [htemplate]
  exact .pure trivial

end RecordQuery

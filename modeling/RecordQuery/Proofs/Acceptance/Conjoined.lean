/-
Conditions put together. Filters add up one by one: a conjunction takes
the next filter among its members, or all of the members that the filter
has if it is a conjunction itself. Compiling what has come together
compiles every filter, from left to right, so that it fails if one does,
with the same error if no filter before it fails. The parameters are those
of the filters, one after the other.

Being taken apart into its members, a conjunction is compiled without
being put together on its own. That could still fail for a collision of
aliases, but not if the whole is put together: the joins of its parts are
among those of the whole.

A conjunction without members is refused, but leaves no trace among the
members of another: it is lost behind a conjunction, and before whatever
comes next. It stays behind any other condition, as a member, and where
there is nothing else.
-/
import Mathlib.Data.List.Nodup
import RecordQuery.Proofs.Acceptance.Decided
import RecordQuery.Proofs.Path.Gathered

namespace RecordQuery

variable {dialect : Dialect} {scope : Scope}

-- ================================================================ joins

namespace Joins

/-- Joins of which one was kept for each alias agree. -/
theorem agree_firsts (joins : List Join) : Agree (firsts joins) := by
  intro j hj k hk halias
  have hnodup := nodup_map_firstsBy (fun join : Join => Casing.fold join.tableAlias) joins
  rw [List.inj_on_of_nodup_map hnodup hj hk halias]

end Joins

/-- A fragment whose joins are certain joins, which agree, each kept where
its alias comes first. -/
structure Fragment.Keeps (f : Fragment) (joins : List Join) : Prop where
  agree : Joins.Agree joins
  firsts : f.joins = Joins.firsts joins

namespace Fragment

variable {f g : Fragment} {js ks : List Join} {separator : String}

/-- A compiled clause keeps its joins. -/
theorem keeps_of_compile {clause : Clause} (h : clause.compile dialect scope = .ok f) :
    f.Keeps f.joins := by
  obtain ⟨brought, -, hjoins⟩ := Clause.gathers_of_compile h
  refine ⟨hjoins ▸ Joins.agree_firsts brought, ?_⟩
  have htwice : Joins.firsts (Joins.firsts brought) = Joins.firsts brought :=
    firstsBy_append_firstsBy [] brought
  rw [hjoins, htwice]

theorem append_keeps (hf : f.Keeps js) (hg : g.Keeps ks) :
    Decided (f.append g) (fun whole => whole.Keeps (js ++ ks)) (Joins.Agree (js ++ ks)) := by
  have hmerge : Decided (f.joins.merge g.joins)
      (fun more => more = Joins.firsts (js ++ ks) ∧ Joins.Agree (js ++ ks))
      (¬ ¬ Joins.Agree (js ++ ks)) := by
    rw [hf.firsts, hg.firsts]
    exact (Joins.merge_firsts_settled hf.agree hg.agree).decided
      (Joins.merge_collidesOnly _ _) fun _ hmore hno => hno hmore.2
  exact (hmerge.congr not_not).map fun _ hmore => ⟨hmore.2, hmore.1⟩

theorem appendAll_keeps {fs : List Fragment} {jss : List (List Join)}
    (hall : List.Forall₂ Keeps fs jss) : ∀ {f : Fragment} {js : List Join}, f.Keeps js →
      Decided (appendAll separator f fs) (fun whole => whole.Keeps (js ++ jss.flatten))
        (Joins.Agree (js ++ jss.flatten)) := by
  induction hall with
  | nil =>
      intro f js hf
      rw [List.flatten_nil, List.append_nil]
      have hdone : Decided (appendAll separator f []) (fun whole => whole.Keeps js) True :=
        .pure hf
      exact hdone.congr (iff_of_true trivial hf.agree)
  | @cons g ks fs jss hhead _ ih =>
      intro f js hf
      rw [List.flatten_cons, ← List.append_assoc]
      have hboth := append_keeps (f := f.wrap "" separator) ⟨hf.agree, hf.firsts⟩ hhead
      refine (hboth.bind fun both hboth => ih hboth).congr ?_
      exact ⟨And.right, fun h => ⟨h.subset (List.subset_append_left _ _), h⟩⟩

/-- Fragments are put together exactly if all of their joins agree. -/
theorem join_keeps {fs : List Fragment} {jss : List (List Join)}
    (hall : List.Forall₂ Keeps fs jss) :
    Decided (join separator fs) (fun whole => whole.Keeps jss.flatten)
      (Joins.Agree jss.flatten) := by
  cases hall with
  | nil =>
      have hnone : Joins.Agree [] := fun _ hj => absurd hj List.not_mem_nil
      have hdone : Decided (join separator []) (fun whole => whole.Keeps []) True :=
        .pure ⟨hnone, rfl⟩
      exact hdone.congr (iff_of_true trivial hnone)
  | cons hhead hrest => exact appendAll_keeps hrest hhead

-- =========================================================== parameters

theorem params_appendAll {fs : List Fragment} : ∀ {f whole : Fragment},
    appendAll separator f fs = .ok whole →
      whole.params = f.params ++ fs.flatMap Fragment.params := by
  induction fs with
  | nil =>
      intro f whole h
      cases h
      rw [List.flatMap_nil, List.append_nil]
  | cons g fs ih =>
      intro f whole h
      obtain ⟨both, hboth, h⟩ := bind_eq_ok.1 h
      obtain ⟨joins, -, rfl⟩ := map_eq_ok.1 hboth
      rw [ih h, List.flatMap_cons, ← List.append_assoc]
      rfl

theorem params_join {fs : List Fragment} {whole : Fragment} (h : join separator fs = .ok whole) :
    whole.params = fs.flatMap Fragment.params := by
  cases fs with
  | nil =>
      cases h
      rfl
  | cons f fs => exact params_appendAll h

end Fragment

-- =========================================================== collisions

theorem Fragment.append_collidesOnly (f g : Fragment) : CollidesOnly (f.append g) := by
  intro e h
  exact Joins.merge_collidesOnly g.joins f.joins e (map_eq_error.1 h)

theorem Fragment.appendAll_collidesOnly (separator : String) (fs : List Fragment) :
    ∀ f : Fragment, CollidesOnly (appendAll separator f fs) := by
  induction fs with
  | nil => exact fun f e h => by cases h
  | cons g fs ih => exact fun f => (append_collidesOnly _ g).bind ih

theorem Fragment.join_collidesOnly (separator : String) (fs : List Fragment) :
    CollidesOnly (join separator fs) := by
  cases fs with
  | nil =>
      intro e h
      cases h
  | cons f fs => exact appendAll_collidesOnly separator fs f

-- ============================================================== members

namespace Clause

variable {c l r : Clause} {cs : List Clause} {f : Fragment} {fs : List Fragment}
  {e : CompileError}

/-- The members of a condition: those of a conjunction, or the condition
alone. -/
def members : Clause → List Clause
  | .and operands => operands
  | clause => [clause]

/-- What a condition may be among the members of a conjunction: itself, or
its own members if it is a conjunction. -/
def Gives (clause : Clause) (members : List Clause) : Prop :=
  members = [clause] ∨ clause = .and members

theorem gives_members (clause : Clause) : clause.Gives clause.members := by
  cases clause with
  | and operands => exact .inr rfl
  | _ => exact .inl rfl

/-- What a condition gives is something, unless it is a conjunction without
members. -/
theorem Gives.ne_nil (h : c.Gives cs) (hne : c ≠ .and []) : cs ≠ [] := by
  rcases h with rfl | rfl
  · exact List.cons_ne_nil c []
  · rintro rfl
    exact hne rfl

def isConjunction : Clause → Bool
  | .and _ => true
  | _ => false

/-- Whether a condition stays when it is put behind what is there so far. A
conjunction without members stays behind a condition that is no
conjunction; and where there is nothing but others like it, if it is left
alone with them. -/
def Stays (sofar : Option Clause) (c : Clause) (alone : Prop) : Prop :=
  c = .and [] →
    (∃ l, sofar = some l ∧ l.isConjunction = false) ∨ (∀ l ∈ sofar, l = .and []) ∧ alone

/-- Behind another condition it is not left alone. -/
theorem Stays.behind {alone : Prop} (h : Stays (some l) c alone) (hl : l ≠ .and []) :
    Stays (some l) c False := by
  intro hc
  rcases h hc with hbehind | ⟨hothers, -⟩
  · exact Or.inl hbehind
  · exact absurd (hothers l rfl) hl

/-- A conjunction has the members of the condition on the left, and what
the condition on the right gives. -/
theorem andOpt_some (l r : Clause) :
    ∃ more, andOpt (some l) (some r) = some (.and (l.members ++ more)) ∧ r.Gives more := by
  cases l with
  | and operands => exact ⟨r.members, by cases r <;> rfl, r.gives_members⟩
  | _ => exact ⟨[r], by cases r <;> rfl, .inl rfl⟩

/-- What stays, without being left alone, is among the members. -/
theorem andOpt_of_stays (h : Stays (some l) r False) :
    ∃ more, andOpt (some l) (some r) = some (.and (l.members ++ more)) ∧ r.Gives more
      ∧ more ≠ [] := by
  by_cases hr : r = .and []
  · obtain ⟨l', heq, hl⟩ | ⟨-, hfalse⟩ := h hr
    · cases heq
      refine ⟨[r], ?_, .inl rfl, List.cons_ne_nil r []⟩
      cases l with
      | and operands => cases hl
      | _ => cases r <;> rfl
    · exact hfalse.elim
  · obtain ⟨more, hboth, hgives⟩ := andOpt_some l r
    exact ⟨more, hboth, hgives, hgives.ne_nil hr⟩

theorem compileEach_eq_mapM (clauses : List Clause) :
    compileEach dialect scope clauses = clauses.mapM (compile dialect scope) := by
  induction clauses with
  | nil => rfl
  | cons clause rest ih => rw [List.mapM_cons, compileEach, ih]

theorem compile_and (hne : cs ≠ []) :
    (Clause.and cs).compile dialect scope = (do
      let f ← Fragment.join " AND " (← cs.mapM (compile dialect scope))
      pure f.parenthesize) := by
  rw [compile, if_neg (by simpa using hne), compileEach_eq_mapM]

/-- The compiled members of a condition keep their joins. -/
theorem keeps_of_mapM (h : cs.mapM (compile dialect scope) = .ok fs) :
    List.Forall₂ Fragment.Keeps fs (fs.map Fragment.joins) := by
  rw [List.forall₂_map_right_iff, List.forall₂_same]
  intro f hf
  obtain ⟨c, -, hc⟩ := exists_of_mem_mapM h hf
  exact Fragment.keeps_of_compile hc

theorem mapM_singleton :
    [c].mapM (compile dialect scope) = (c.compile dialect scope).map ([·]) := by
  rw [List.mapM_cons, List.mapM_nil]
  cases c.compile dialect scope <;> rfl

/-- A compiled conjunction was put together from its compiled members. -/
theorem of_compile_and (h : (Clause.and cs).compile dialect scope = .ok f) :
    cs ≠ [] ∧ ∃ fs, cs.mapM (compile dialect scope) = .ok fs
      ∧ f.params = fs.flatMap Fragment.params
      ∧ Joins.Agree (fs.map Fragment.joins).flatten := by
  have hne : cs ≠ [] := by
    rintro rfl
    exact throw_ne_ok h
  rw [compile_and hne] at h
  obtain ⟨fs, hfs, h⟩ := bind_eq_ok.1 h
  obtain ⟨whole, hwhole, h⟩ := bind_eq_ok.1 h
  cases pure_eq_ok.1 h
  have hparams := Fragment.params_join hwhole
  exact ⟨hne, fs, hfs, hparams, ((Fragment.join_keeps (keeps_of_mapM hfs)).sound hwhole).2⟩

namespace Gives

/-- What a condition gives is compiled with it. -/
theorem of_compile (h : c.Gives cs) (hf : c.compile dialect scope = .ok f) :
    ∃ fs, cs.mapM (compile dialect scope) = .ok fs := by
  rcases h with rfl | rfl
  · exact ⟨[f], by rw [mapM_singleton, hf]; rfl⟩
  · obtain ⟨-, fs, hfs, -⟩ := of_compile_and hf
    exact ⟨fs, hfs⟩

/-- A condition is compiled with what it gives, if the joins of that
agree, and has its parameters. -/
theorem compile_eq_ok (h : c.Gives cs) (hne : cs ≠ [])
    (hfs : cs.mapM (compile dialect scope) = .ok fs)
    (hagree : Joins.Agree (fs.map Fragment.joins).flatten) :
    ∃ f, c.compile dialect scope = .ok f ∧ f.params = fs.flatMap Fragment.params := by
  rcases h with rfl | rfl
  · rw [mapM_singleton] at hfs
    obtain ⟨f, hf, rfl⟩ := map_eq_ok.1 hfs
    exact ⟨f, hf, (List.flatMap_singleton _ _).symm⟩
  · have hjoin : Decided (Fragment.join " AND " fs)
        (fun whole => whole.Keeps (fs.map Fragment.joins).flatten)
        (Joins.Agree (fs.map Fragment.joins).flatten) :=
      Fragment.join_keeps (keeps_of_mapM hfs)
    obtain ⟨whole, hwhole⟩ := hjoin.complete hagree
    have hparams := Fragment.params_join hwhole
    refine ⟨whole.parenthesize, ?_, hparams⟩
    rw [compile_and hne, hfs]
    exact bind_eq_ok.2 ⟨fs, rfl, bind_eq_ok.2 ⟨whole, hwhole, rfl⟩⟩

/-- Where a condition fails for anything but a collision, what it gives
does. -/
theorem mapM_eq_error (h : c.Gives cs) (hne : cs ≠ [])
    (hcollision : ∀ name first second, e ≠ .aliasCollision name first second)
    (he : c.compile dialect scope = .error e) : cs.mapM (compile dialect scope) = .error e := by
  rcases h with rfl | rfl
  · rw [mapM_singleton, he]
    rfl
  · rw [compile_and hne] at he
    rcases bind_eq_error.1 he with he | ⟨fs, -, he⟩
    · exact he
    · rcases bind_eq_error.1 he with he | ⟨whole, -, he⟩
      · obtain ⟨name, first, second, rfl⟩ := Fragment.join_collidesOnly _ _ _ he
        exact absurd rfl (hcollision name first second)
      · cases he

end Gives

/-- A condition fails as its members do. -/
theorem compile_eq_error (h : c.members.mapM (compile dialect scope) = .error e) :
    c.compile dialect scope = .error e := by
  rcases c.gives_members with hone | hand
  · rw [hone, mapM_singleton] at h
    exact map_eq_error.1 h
  · have hne : c.members ≠ [] := by
      intro hnil
      rw [hnil] at h
      cases h
    rw [hand, compile_and hne]
    exact bind_eq_error.2 (Or.inl h)

/-- What a condition gives fails as its members do. -/
theorem Gives.mapM_of_members (h : c.Gives cs)
    (he : c.members.mapM (compile dialect scope) = .error e) :
    cs.mapM (compile dialect scope) = .error e := by
  rcases h with rfl | rfl
  · rw [mapM_singleton, compile_eq_error he]
    rfl
  · exact he

-- ====================================================== two conditions

/-- Two conditions that are compiled together are compiled each, and have
their parameters one after the other. -/
theorem compiles_of_andOpt {whole : Clause} (hl : l ≠ .and []) (hr : Stays (some l) r False)
    (hwhole : andOpt (some l) (some r) = some whole) (hf : whole.compile dialect scope = .ok f) :
    ∃ fl fr, l.compile dialect scope = .ok fl ∧ r.compile dialect scope = .ok fr
      ∧ f.params = fl.params ++ fr.params := by
  obtain ⟨more, hboth, hgives, hmore⟩ := andOpt_of_stays hr
  cases hwhole.symm.trans hboth
  obtain ⟨-, fs, hfs, hparams, hagree⟩ := of_compile_and hf
  rw [List.mapM_append] at hfs
  obtain ⟨fs, hleft, hfs⟩ := bind_eq_ok.1 hfs
  obtain ⟨gs, hright, hfs⟩ := bind_eq_ok.1 hfs
  cases pure_eq_ok.1 hfs
  rw [List.map_append, List.flatten_append] at hagree
  obtain ⟨fl, hfl, hlparams⟩ := l.gives_members.compile_eq_ok (l.gives_members.ne_nil hl) hleft
    (hagree.subset (List.subset_append_left _ _))
  obtain ⟨fr, hfr, hrparams⟩ := hgives.compile_eq_ok hmore hright
    (hagree.subset (List.subset_append_right _ _))
  refine ⟨fl, fr, hfl, hfr, ?_⟩
  rw [hparams, List.flatMap_append, hlparams, hrparams]

theorem andOpt_ne_nil {whole : Clause} (hl : l ≠ .and [])
    (hwhole : andOpt (some l) (some r) = some whole) : whole ≠ .and [] := by
  obtain ⟨more, hboth, -⟩ := andOpt_some l r
  cases hwhole.symm.trans hboth
  intro hnil
  have hmembers : l.members = [] := (List.append_eq_nil_iff.1 (Clause.and.inj hnil)).1
  exact l.gives_members.ne_nil hl hmembers

-- ====================================================== many conditions

/-- Conditions that are added to one that may be absent, one by one. -/
def conjoin (start : Option Clause) (filters : List Clause) : Option Clause :=
  filters.foldl (fun sofar filter => andOpt sofar (some filter)) start

/-- Conjunctions without members come to another one. -/
theorem conjoin_nil {filters : List Clause} (h : ∀ d ∈ filters, d = .and []) :
    conjoin (some (.and [])) filters = some (.and []) := by
  induction filters with
  | nil => rfl
  | cons d rest ih =>
      obtain ⟨rfl, hrest⟩ := List.forall_mem_cons.1 h
      exact ih hrest

/-- A first condition that stays has members, if the whole is compiled. -/
theorem ne_nil_of_stays {first whole : Clause} {filters : List Clause}
    (hstays : Stays none first (∀ d ∈ filters, d = .and []))
    (hwhole : conjoin (some first) filters = some whole)
    (hf : whole.compile dialect scope = .ok f) : first ≠ .and [] := by
  rintro rfl
  obtain ⟨l, hl, -⟩ | ⟨-, hothers⟩ := hstays rfl
  · cases hl
  · -- left alone, it is what would have been compiled
    cases hwhole.symm.trans (conjoin_nil hothers)
    exact throw_ne_ok hf

/-- Conditions that are compiled together are compiled each, and have
their parameters one after the other. -/
theorem compiles_of_conjoin {filters : List Clause} : ∀ {start whole : Clause} {f : Fragment},
    start ≠ .and [] →
    (∀ before c after, filters = before ++ c :: after →
      Stays (conjoin (some start) before) c (∀ d ∈ after, d = .and [])) →
    conjoin (some start) filters = some whole →
    whole.compile dialect scope = .ok f →
    ∃ first fs, start.compile dialect scope = .ok first
      ∧ List.Forall₂ (fun c f => c.compile dialect scope = .ok f) filters fs
      ∧ f.params = first.params ++ fs.flatMap Fragment.params := by
  induction filters with
  | nil =>
      intro start whole f _ _ hwhole hf
      cases hwhole
      exact ⟨f, [], hf, .nil, by simp⟩
  | cons c rest ih =>
      intro start whole f hstart hstays hwhole hf
      obtain ⟨more, hmore, -⟩ := andOpt_some start c
      rw [conjoin, List.foldl_cons, hmore] at hwhole
      have hrest : ∀ before d after, rest = before ++ d :: after →
          Stays (conjoin (some (.and (start.members ++ more))) before) d
            (∀ d ∈ after, d = .and []) := by
        rintro before d after rfl
        have hstays := hstays (c :: before) d after rfl
        rwa [conjoin, List.foldl_cons, hmore] at hstays
      obtain ⟨both, fs, hboth, hfs, hparams⟩ :=
        ih (andOpt_ne_nil hstart hmore) hrest hwhole hf
      obtain ⟨first, g, hfirst, hg, hbothParams⟩ :=
        compiles_of_andOpt hstart ((hstays [] c rest rfl).behind hstart) hmore hboth
      refine ⟨first, g :: fs, hfirst, .cons hg hfs, ?_⟩
      rw [hparams, hbothParams, List.flatMap_cons, List.append_assoc]

end Clause

-- =========================================================== first errors

section Errors

variable (dialect : Dialect) (scope : Scope)

/-- A condition, if there is one, of which every member is compiled. -/
def Clause.Passes (c? : Option Clause) : Prop :=
  ∀ c ∈ c?, ∃ fs, c.members.mapM (Clause.compile dialect scope) = .ok fs

/-- A condition with a member that fails behind members that do not. -/
def Clause.Reports (e : CompileError) (c? : Option Clause) : Prop :=
  ∃ c ∈ c?, c.members.mapM (Clause.compile dialect scope) = .error e

end Errors

namespace Clause

variable {x y : Option Clause} {c : Clause} {e : CompileError}

theorem Passes.of_compile (h : ∀ c ∈ x, ∃ f, c.compile dialect scope = .ok f) :
    Passes dialect scope x := by
  intro c hc
  obtain ⟨f, hf⟩ := h c hc
  exact c.gives_members.of_compile hf

theorem Passes.andOpt (hx : Passes dialect scope x)
    (hy : ∀ c ∈ y, ∃ f, c.compile dialect scope = .ok f) :
    Passes dialect scope (andOpt x y) := by
  cases x with
  | none =>
      have hright : Clause.andOpt none y = y := by cases y <;> rfl
      rw [hright]
      exact .of_compile hy
  | some l =>
      cases y with
      | none => exact hx
      | some r =>
          obtain ⟨more, hboth, hgives⟩ := andOpt_some l r
          obtain ⟨fs, hfs⟩ := hx l rfl
          obtain ⟨f, hf⟩ := hy r rfl
          obtain ⟨gs, hgs⟩ := hgives.of_compile hf
          rw [hboth]
          intro whole hwhole
          cases hwhole
          refine ⟨fs ++ gs, ?_⟩
          show (l.members ++ more).mapM _ = _
          rw [List.mapM_append]
          exact bind_eq_ok.2 ⟨fs, hfs, bind_eq_ok.2 ⟨gs, hgs, rfl⟩⟩

theorem Reports.andOpt_left (h : Reports dialect scope e x) :
    Reports dialect scope e (andOpt x y) := by
  obtain ⟨l, hl, he⟩ := h
  cases hl
  cases y with
  | none => exact ⟨l, rfl, he⟩
  | some r =>
      obtain ⟨more, hboth, -⟩ := andOpt_some l r
      refine ⟨_, hboth, ?_⟩
      show (l.members ++ more).mapM _ = _
      rw [List.mapM_append]
      exact bind_eq_error.2 (Or.inl he)

theorem Reports.andOpt_right (hx : Passes dialect scope x) (h : Reports dialect scope e y) :
    Reports dialect scope e (andOpt x y) := by
  obtain ⟨r, hr, he⟩ := h
  cases hr
  cases x with
  | none => exact ⟨r, rfl, he⟩
  | some l =>
      obtain ⟨more, hboth, hgives⟩ := andOpt_some l r
      obtain ⟨fs, hfs⟩ := hx l rfl
      refine ⟨_, hboth, ?_⟩
      show (l.members ++ more).mapM _ = _
      rw [List.mapM_append]
      have hmembers := hgives.mapM_of_members he
      exact bind_eq_error.2 (Or.inr ⟨fs, hfs, bind_eq_error.2 (Or.inl hmembers)⟩)

/-- A condition that fails and stays is reported, behind others that do not
fail. -/
theorem Reports.of_stays (hx : Passes dialect scope x) (hstays : Stays x c False)
    (hcollision : ∀ name first second, e ≠ .aliasCollision name first second)
    (he : c.compile dialect scope = .error e) :
    Reports dialect scope e (andOpt x (some c)) := by
  cases x with
  | none =>
      have hne : c ≠ .and [] := by
        intro hc
        obtain ⟨l, hl, -⟩ | ⟨-, hfalse⟩ := hstays hc
        · cases hl
        · exact hfalse
      exact ⟨c, rfl, c.gives_members.mapM_eq_error (c.gives_members.ne_nil hne) hcollision he⟩
  | some l =>
      obtain ⟨more, hboth, hgives, hmore⟩ := andOpt_of_stays hstays
      obtain ⟨fs, hfs⟩ := hx l rfl
      have hmembers := hgives.mapM_eq_error hmore hcollision he
      refine ⟨_, hboth, ?_⟩
      show (l.members ++ more).mapM _ = _
      rw [List.mapM_append]
      exact bind_eq_error.2 (Or.inr ⟨fs, hfs, bind_eq_error.2 (Or.inl hmembers)⟩)

theorem Passes.conjoin {filters : List Clause} (hx : Passes dialect scope x)
    (hfilters : ∀ b ∈ filters, ∃ f, b.compile dialect scope = .ok f) :
    Passes dialect scope (conjoin x filters) := by
  induction filters generalizing x with
  | nil => exact hx
  | cons b rest ih =>
      obtain ⟨hb, hrest⟩ := List.forall_mem_cons.1 hfilters
      refine ih (hx.andOpt fun d hd => ?_) hrest
      cases hd
      exact hb

theorem Reports.conjoin {filters : List Clause} (h : Reports dialect scope e x) :
    Reports dialect scope e (conjoin x filters) := by
  induction filters generalizing x with
  | nil => exact h
  | cons d rest ih => exact ih h.andOpt_left

/-- The first condition that fails decides, or it has no members and is left
alone. -/
theorem reports_conjoin {before after : List Clause} {alone : Prop}
    (hx : Passes dialect scope x)
    (hbefore : ∀ b ∈ before, ∃ f, b.compile dialect scope = .ok f)
    (hstays : Stays (conjoin x before) c ((∀ d ∈ after, d = .and []) ∧ alone))
    (hcollision : ∀ name first second, e ≠ .aliasCollision name first second)
    (he : c.compile dialect scope = .error e) :
    Reports dialect scope e (conjoin x (before ++ c :: after))
      ∨ c = .and [] ∧ alone ∧ conjoin x (before ++ c :: after) = some (.and []) := by
  have hpassed := hx.conjoin hbefore
  have happend : conjoin x (before ++ c :: after)
      = conjoin (andOpt (conjoin x before) (some c)) after := by
    unfold conjoin
    rw [List.foldl_append, List.foldl_cons]
  rw [happend]
  generalize conjoin x before = sofar at hpassed hstays
  by_cases hmember : Stays sofar c False
  · exact Or.inl (Reports.of_stays hpassed hmember hcollision he).conjoin
  · have hc : c = .and [] := by
      by_contra hc
      exact hmember fun h => absurd h hc
    rcases hstays hc with hbehind | ⟨hothers, hafter, halone⟩
    · exact absurd (fun _ => Or.inl hbehind) hmember
    · -- there is nothing but conjunctions without members
      subst hc
      have hnil : andOpt sofar (some (.and [])) = some (.and []) := by
        cases sofar with
        | none => rfl
        | some l =>
            cases hothers l rfl
            rfl
      rw [hnil]
      exact Or.inr ⟨rfl, halone, conjoin_nil hafter⟩

end Clause

end RecordQuery

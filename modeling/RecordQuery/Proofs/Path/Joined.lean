/-
The joins that paths bring. A path brings the join of its last step, under
the path's alias; joins that were brought are kept once for each alias.
Putting joins together succeeds exactly if those of one alias stand for
the same relation, so a failure is a collision: two of the paths that
brought them differ and have one alias.

What is computed in a scope is said by `Settled`: what holds of the
result, and what must be so if there is none because aliases collide.
Other failures say nothing of aliases.
-/
import RecordQuery.Proofs.Path.Follow
import RecordQuery.Proofs.Statement.Rendering

namespace RecordQuery

-- ============================================================= outcomes

/-- What holds of the result of a computation, and what holds if it fails
for a collision of aliases. -/
structure Settled {α : Type} (x : Except CompileError α) (P : α → Prop) (Q : Prop) : Prop where
  ok : ∀ {a}, x = .ok a → P a
  collision : ∀ {name first second}, x = .error (.aliasCollision name first second) → Q

namespace Settled

variable {α β : Type} {x : Except CompileError α} {f : α → Except CompileError β}
  {P P' : α → Prop} {R : β → Prop} {Q Q' : Prop}

theorem pure {a : α} (h : P a) : Settled (pure a) P Q where
  ok := fun hok => pure_eq_ok.1 hok ▸ h
  collision := fun herror => by cases herror

/-- A failure that is no collision. -/
theorem error {e : CompileError} (h : ∀ name first second, e ≠ .aliasCollision name first second) :
    Settled (.error e : Except CompileError α) P Q where
  ok := fun hok => by cases hok
  collision := fun herror => absurd (Except.error.inj herror) (h _ _ _)

theorem imp (h : Settled x P Q) (hP : ∀ a, x = .ok a → P a → P' a) (hQ : Q → Q') :
    Settled x P' Q' where
  ok := fun hok => hP _ hok (h.ok hok)
  collision := fun herror => hQ (h.collision herror)

theorem bind (hx : Settled x P Q) (hf : ∀ a, x = .ok a → P a → Settled (f a) R Q) :
    Settled (x >>= f) R Q := by
  cases x with
  | error e =>
      constructor
      · intro b hok
        cases hok
      · intro name first second herror
        cases herror
        exact hx.collision rfl
  | ok a => exact hf a rfl (hx.ok rfl)

theorem map {g : α → β} (hx : Settled x P Q) (hg : ∀ a, P a → R (g a)) :
    Settled (x.map g) R Q := by
  have hmap : x.map g = x >>= fun a => Pure.pure (g a) := by cases x <;> rfl
  rw [hmap]
  exact hx.bind fun a _ ha => .pure (hg a ha)

theorem mapM {P : α → β → Prop} {as : List α} (h : ∀ a ∈ as, Settled (f a) (P a) Q) :
    Settled (as.mapM f) (List.Forall₂ P as) Q := by
  induction as with
  | nil =>
      rw [List.mapM_nil]
      exact .pure .nil
  | cons a as ih =>
      obtain ⟨hhead, hrest⟩ := List.forall_mem_cons.1 h
      rw [List.mapM_cons]
      exact hhead.bind fun b _ hb => (ih hrest).bind fun bs _ hbs => .pure (.cons hb hbs)

/-- A computation run over what may be absent. -/
theorem optionMapM {P : Option α → Option β → Prop} {a? : Option α} (hnone : P none none)
    (hsome : ∀ a, a? = some a → Settled (f a) (fun b => P (some a) (some b)) Q) :
    Settled (a?.mapM f) (P a?) Q := by
  cases a? with
  | none => exact .pure hnone
  | some a =>
      rw [Option.mapM_some]
      exact (hsome a rfl).map fun _ hb => hb

end Settled

-- ================================================================ joins

namespace Joins

/-- Joins of which those of one alias stand for the same relation. -/
def Agree (joins : List Join) : Prop :=
  ∀ j ∈ joins, ∀ k ∈ joins,
    Casing.fold j.tableAlias = Casing.fold k.tableAlias → j.source = k.source

variable {js ks : List Join} {join : Join} {Q : Prop}

theorem Agree.subset (h : Agree ks) (hsub : js ⊆ ks) : Agree js :=
  fun j hj k hk => h j (hsub hj) k (hsub hk)

/-- Every join agrees in alias with one that is kept. -/
theorem exists_mem_firsts (hjoin : join ∈ js) :
    ∃ kept ∈ firsts js, Casing.fold kept.tableAlias = Casing.fold join.tableAlias :=
  List.mem_map.1 (mem_map_firstsBy.2 (List.mem_map_of_mem hjoin))

/-- The join under an alias is one of those kept. -/
theorem of_find?_firsts {name : String} (h : (firsts js).find? name = some join) :
    join ∈ js ∧ Casing.fold join.tableAlias = Casing.fold name :=
  ⟨mem_of_mem_firstsBy (List.mem_of_find?_eq_some h),
    by simpa [Casing.same] using List.find?_some h⟩

/-- A join is added, or it collides. -/
theorem insert_settled (h : Agree js) :
    Settled ((firsts js).insert join)
      (fun more => more = firsts (js ++ [join]) ∧ Agree (js ++ [join]))
      (¬ Agree (js ++ [join])) where
  ok := by
    intro more hmore
    refine ⟨insert_firsts hmore, ?_⟩
    -- what has the alias of the new join is the one that it was compared with, or has its source
    have hnew : ∀ j ∈ js, Casing.fold j.tableAlias = Casing.fold join.tableAlias →
        j.source = join.source := by
      intro j hj halias
      unfold insert at hmore
      split at hmore
      case h_1 hnone =>
        obtain ⟨kept, hkept, hsame⟩ := exists_mem_firsts hj
        rw [find?_eq_none] at hnone
        exact absurd (List.mem_map.2 ⟨kept, hkept, hsame.trans halias⟩) hnone
      case h_2 present hsome =>
        split at hmore
        case isTrue hsource =>
          obtain ⟨hmem, hsame⟩ := of_find?_firsts hsome
          rw [← hsource]
          exact h j hj present hmem (halias.trans hsame.symm)
        case isFalse => cases hmore
    intro j hj k hk halias
    rcases List.mem_append.1 hj with hj | hj <;> rcases List.mem_append.1 hk with hk | hk
    · exact h j hj k hk halias
    · cases List.mem_singleton.1 hk
      exact hnew j hj halias
    · cases List.mem_singleton.1 hj
      exact (hnew k hk halias.symm).symm
    · cases List.mem_singleton.1 hj
      cases List.mem_singleton.1 hk
      rfl
  collision := by
    intro name first second herror hagree
    unfold insert at herror
    split at herror
    case h_1 => cases herror
    case h_2 present hsome =>
      obtain ⟨hmem, hsame⟩ := of_find?_firsts hsome
      split at herror
      case isTrue => cases herror
      case isFalse hsource =>
        exact hsource (hagree present (List.mem_append_left _ hmem) join (by simp) hsame)

theorem merge_singleton (joins : Joins) (join : Join) :
    joins.merge [join] = joins.insert join := by
  unfold merge
  cases joins.insert join <;> rfl

/-- Joins are added, or there is a collision. -/
theorem merge_settled (h : Agree js) :
    Settled ((firsts js).merge ks)
      (fun more => more = firsts (js ++ ks) ∧ Agree (js ++ ks)) (¬ Agree (js ++ ks)) := by
  induction ks generalizing js with
  | nil =>
      rw [List.append_nil]
      exact .pure ⟨rfl, h⟩
  | cons join rest ih =>
      have hassoc : js ++ join :: rest = js ++ [join] ++ rest := by simp
      rw [hassoc]
      refine ((insert_settled h).imp (fun _ _ hmore => hmore) fun hno hall => hno ?_).bind ?_
      · exact hall.subset (List.subset_append_left _ _)
      · rintro more - ⟨rfl, hagree⟩
        exact ih hagree

/-- Joins that were themselves reduced agree with others as all of them
do. -/
theorem Agree.append_firsts (hks : Agree ks) (h : Agree (js ++ firsts ks)) :
    Agree (js ++ ks) := by
  -- every join on the right is replaced by the one kept for it
  have hkept : ∀ j ∈ js ++ ks, ∃ kept ∈ js ++ firsts ks,
      Casing.fold kept.tableAlias = Casing.fold j.tableAlias ∧ kept.source = j.source := by
    intro j hj
    rcases List.mem_append.1 hj with hj | hj
    · exact ⟨j, List.mem_append_left _ hj, rfl, rfl⟩
    · obtain ⟨kept, hkept, hsame⟩ := exists_mem_firsts hj
      exact ⟨kept, List.mem_append_right _ hkept, hsame,
        hks kept (mem_of_mem_firstsBy hkept) j hj hsame⟩
  intro j hj k hk halias
  obtain ⟨j', hj', hsame, hsource⟩ := hkept j hj
  obtain ⟨k', hk', hsame', hsource'⟩ := hkept k hk
  rw [← hsource, ← hsource']
  exact h j' hj' k' hk' (by rw [hsame, halias, hsame'])

/-- Joins of which each was kept once are put together, or there is a
collision. -/
theorem merge_firsts_settled (hjs : Agree js) (hks : Agree ks) :
    Settled ((firsts js).merge (firsts ks))
      (fun more => more = firsts (js ++ ks) ∧ Agree (js ++ ks)) (¬ Agree (js ++ ks)) := by
  refine (merge_settled hjs).imp ?_ fun hno hall => hno (hall.subset ?_)
  · rintro more - ⟨rfl, hagree⟩
    refine ⟨?_, hks.append_firsts hagree⟩
    unfold firsts
    rw [firstsBy_append_firstsBy]
  · exact List.append_subset_of_subset_of_subset (List.subset_append_left _ _) fun j hj =>
      List.mem_append_right _ (mem_of_mem_firstsBy hj)

/-- No join has the alias of the root, or one has. -/
theorem apartFrom_settled {root : String} :
    Settled ((firsts js).apartFrom root)
      (fun _ => ∀ j ∈ js, Casing.fold j.tableAlias ≠ Casing.fold root)
      (∃ j ∈ js, Casing.fold j.tableAlias = Casing.fold root) where
  ok := by
    intro _ hok j hj halias
    unfold apartFrom at hok
    split at hok
    case h_1 hnone =>
      obtain ⟨kept, hkept, hsame⟩ := exists_mem_firsts hj
      rw [find?_eq_none] at hnone
      exact hnone (List.mem_map.2 ⟨kept, hkept, hsame.trans halias⟩)
    case h_2 => cases hok
  collision := by
    intro name first second herror
    unfold apartFrom at herror
    split at herror
    case h_1 => cases herror
    case h_2 join hsome => exact ⟨join, of_find?_firsts hsome⟩

end Joins

-- ================================================================ paths

theorem Casing.same_iff {a b : String} : Casing.same a b ↔ fold a = fold b :=
  beq_iff_eq

/-- Two different paths whose tables have one alias, or a path whose table
has the alias of the root. -/
def RelationPath.Clash (root : String) (paths : List RelationPath) : Prop :=
  (∃ p ∈ paths, ∃ q ∈ paths, p ≠ q ∧ Casing.same p.tableAlias q.tableAlias)
    ∨ ∃ p ∈ paths, Casing.same p.tableAlias root

namespace Scope

/-- A path brings the join of the step it leads to. A filter in the join's
condition is one of the table joined alone. -/
def Brings (dialect : Dialect) (scope : Scope) (path : RelationPath) (join : Join) : Prop :=
  ∃ last filter, scope.Leads path last ∧ join = last.join dialect filter
    ∧ ∀ f, filter = some f → ∃ clause : Clause, clause.compile dialect (scope.within last) = .ok f

/-- Joins that were brought by paths, each kept where it was brought
first. -/
structure Takes (dialect : Dialect) (scope : Scope) (joins : Joins)
    (brought : List (RelationPath × Join)) : Prop where
  brings : ∀ b ∈ brought, scope.Brings dialect b.1 b.2
  agree : Joins.Agree (brought.map Prod.snd)
  firsts : joins = Joins.firsts (brought.map Prod.snd)

/-- Joins that certain paths brought. -/
def Joined (dialect : Dialect) (scope : Scope) (joins : Joins) (paths : List RelationPath) :
    Prop :=
  ∃ brought, brought.map Prod.fst = paths ∧ scope.Takes dialect joins brought

variable {dialect : Dialect} {scope : Scope} {path : RelationPath} {join : Join}
  {joins more : Joins} {paths paths' named : List RelationPath}

/-- A join is named as the path that brings it. -/
theorem Brings.names (hbare : scope.aliasPrefix = "") (h : scope.Brings dialect path join) :
    join.tableAlias = path.tableAlias ∧ join.source = path.source scope.tableAlias := by
  obtain ⟨last, filter, hleads, rfl, -⟩ := h
  obtain ⟨halias, -, hsource⟩ := hleads.aliases hbare
  exact ⟨halias, hsource⟩

/-- Joins of one alias that stand for different relations were brought by
paths that clash. -/
theorem clash_of_not_agree {brought : List (RelationPath × Join)}
    (hbare : scope.aliasPrefix = "") (hbrings : ∀ b ∈ brought, scope.Brings dialect b.1 b.2)
    (hnamed : brought.map Prod.fst ⊆ named) (h : ¬ Joins.Agree (brought.map Prod.snd)) :
    RelationPath.Clash scope.tableAlias named := by
  by_contra hclash
  apply h
  intro j hj k hk halias
  obtain ⟨b, hb, rfl⟩ := List.mem_map.1 hj
  obtain ⟨c, hc, rfl⟩ := List.mem_map.1 hk
  obtain ⟨hbAlias, hbSource⟩ := (hbrings b hb).names hbare
  obtain ⟨hcAlias, hcSource⟩ := (hbrings c hc).names hbare
  by_cases hpaths : b.1 = c.1
  · rw [hbSource, hcSource, hpaths]
  · rw [hbAlias, hcAlias] at halias
    exact absurd (Or.inl ⟨b.1, hnamed (List.mem_map_of_mem hb), c.1,
      hnamed (List.mem_map_of_mem hc), hpaths, Casing.same_iff.2 halias⟩) hclash

namespace Joined

theorem nil : scope.Joined dialect [] [] :=
  ⟨[], rfl, by simp, by simp [Joins.Agree], rfl⟩

/-- A single join. -/
theorem singleton (h : scope.Brings dialect path join) : scope.Joined dialect [join] [path] :=
  ⟨[(path, join)], rfl, by simpa using h, by simp [Joins.Agree], rfl⟩

/-- Joins put together are those of all the paths, unless paths clash. -/
theorem merge (hbare : scope.aliasPrefix = "") (h : scope.Joined dialect joins paths)
    (hmore : scope.Joined dialect more paths') (hnamed : paths ++ paths' ⊆ named) :
    Settled (joins.merge more) (fun all => scope.Joined dialect all (paths ++ paths'))
      (RelationPath.Clash scope.tableAlias named) := by
  obtain ⟨brought, rfl, hbrings, hagree, rfl⟩ := h
  obtain ⟨brought', rfl, hbrings', hagree', rfl⟩ := hmore
  have hall : ∀ b ∈ brought ++ brought', scope.Brings dialect b.1 b.2 :=
    List.forall_mem_append.2 ⟨hbrings, hbrings'⟩
  rw [← List.map_append] at hnamed ⊢
  refine (Joins.merge_firsts_settled hagree hagree').imp ?_ ?_ <;> rw [← List.map_append]
  · rintro all - ⟨rfl, hboth⟩
    exact ⟨_, rfl, hall, hboth, rfl⟩
  · exact clash_of_not_agree hbare hall hnamed

/-- A join added is that of one more path, unless paths clash. -/
theorem insert (hbare : scope.aliasPrefix = "") (h : scope.Joined dialect joins paths)
    (hjoin : scope.Brings dialect path join) (hnamed : paths ++ [path] ⊆ named) :
    Settled (joins.insert join) (fun all => scope.Joined dialect all (paths ++ [path]))
      (RelationPath.Clash scope.tableAlias named) := by
  have hmerge := h.merge hbare (singleton hjoin) hnamed
  rwa [Joins.merge_singleton] at hmerge

/-- No path has the alias of the root, unless paths clash. -/
theorem apartFrom (hbare : scope.aliasPrefix = "") (h : scope.Joined dialect joins paths)
    (hnamed : paths ⊆ named) :
    Settled (joins.apartFrom scope.tableAlias)
      (fun _ => ∀ p ∈ paths, Casing.fold p.tableAlias ≠ Casing.fold scope.tableAlias)
      (RelationPath.Clash scope.tableAlias named) := by
  obtain ⟨brought, rfl, hbrings, -, rfl⟩ := h
  refine Joins.apartFrom_settled.imp ?_ ?_
  · intro _ _ hapart p hp
    obtain ⟨b, hb, rfl⟩ := List.mem_map.1 hp
    rw [← ((hbrings b hb).names hbare).1]
    exact hapart b.2 (List.mem_map_of_mem hb)
  · rintro ⟨j, hj, halias⟩
    obtain ⟨b, hb, rfl⟩ := List.mem_map.1 hj
    rw [((hbrings b hb).names hbare).1] at halias
    exact Or.inr ⟨b.1, hnamed (List.mem_map_of_mem hb), Casing.same_iff.2 halias⟩

/-- Among grounded paths apart from the root, an alias is that of one
path. -/
theorem eq_of_tableAlias (hbare : scope.aliasPrefix = "") (h : scope.Joined dialect joins paths)
    (hgrounded : RelationPath.Grounded paths)
    (hapart : ∀ p ∈ paths, Casing.fold p.tableAlias ≠ Casing.fold scope.tableAlias)
    {p q : RelationPath} (hp : p ∈ paths) (hq : q ∈ paths)
    (halias : Casing.fold p.tableAlias = Casing.fold q.tableAlias) : p = q := by
  obtain ⟨brought, rfl, hbrings, hagree, -⟩ := h
  refine hgrounded.eq_of_tableAlias (fun p hp heq => hapart p hp (congrArg _ heq)) ?_ hp hq halias
  intro p hp q hq halias
  obtain ⟨b, hb, rfl⟩ := List.mem_map.1 hp
  obtain ⟨c, hc, rfl⟩ := List.mem_map.1 hq
  obtain ⟨hbAlias, hbSource⟩ := (hbrings b hb).names hbare
  obtain ⟨hcAlias, hcSource⟩ := (hbrings c hc).names hbare
  rw [← hbSource, ← hcSource]
  rw [← hbAlias, ← hcAlias] at halias
  exact hagree b.2 (List.mem_map_of_mem hb) c.2 (List.mem_map_of_mem hc) halias

/-- Where an alias is that of one path, there is one join for each path, in
the order in which they are used first. -/
theorem kept (hbare : scope.aliasPrefix = "") (h : scope.Joined dialect joins paths)
    (hone : ∀ p ∈ paths, ∀ q ∈ paths,
      Casing.fold p.tableAlias = Casing.fold q.tableAlias → p = q) :
    ∃ kept : List (RelationPath × Join), kept.map Prod.fst = paths.eraseDups
      ∧ kept.map Prod.snd = joins ∧ ∀ b ∈ kept, scope.Brings dialect b.1 b.2 := by
  obtain ⟨brought, rfl, hbrings, -, rfl⟩ := h
  have hkeys : ∀ b ∈ brought, ∀ c ∈ brought, (b.1 == c.1)
      = (Casing.fold b.2.tableAlias == Casing.fold c.2.tableAlias) := by
    intro b hb c hc
    rw [((hbrings b hb).names hbare).1, ((hbrings c hc).names hbare).1, Bool.eq_iff_iff,
      beq_iff_eq, beq_iff_eq]
    exact ⟨fun heq => heq ▸ rfl,
      hone b.1 (List.mem_map_of_mem hb) c.1 (List.mem_map_of_mem hc)⟩
  refine ⟨firstsBy Prod.fst brought, ?_, ?_, fun b hb => hbrings b (mem_of_mem_firstsBy hb)⟩
  · show _ = firstsBy id (brought.map Prod.fst)
    rw [firstsBy_map]
    rfl
  · rw [firstsBy_congr hkeys, Joins.firsts, firstsBy_map]

end Joined

end Scope

end RecordQuery

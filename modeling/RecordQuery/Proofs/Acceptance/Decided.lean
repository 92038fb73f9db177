/-
What a computation accepts. A condition decides a computation if it holds
exactly when there is a result; what is known of the result is carried
along, since the next step's condition depends on it. Conditions of steps
are put together as the steps are, so a request is accepted under the
conditions of its parts.

Putting joins together is decided by the paths that brought them: it
succeeds unless paths clash. A collision of aliases shows that two paths
clash; that there is no other way to clash takes the paths' beginnings,
which is why joins and paths are kept together as `Clear`.
-/
import RecordQuery.Proofs.Path.Compiled

namespace RecordQuery

-- ============================================================== decided

/-- A computation has a result exactly under a condition, and something
holds of the result. -/
structure Decided {ε α : Type} (x : Except ε α) (P : α → Prop) (C : Prop) : Prop where
  sound : ∀ {a}, x = .ok a → P a ∧ C
  complete : C → ∃ a, x = .ok a

namespace Decided

variable {ε α β : Type} {x : Except ε α} {f : α → Except ε β} {P : α → Prop} {R : β → Prop}
  {C D : Prop}

theorem iff (h : Decided x P C) : (∃ a, x = .ok a) ↔ C :=
  ⟨fun ⟨_, ha⟩ => (h.sound ha).2, h.complete⟩

theorem congr (h : Decided x P C) (hcd : C ↔ D) : Decided x P D where
  sound := fun ha => (h.sound ha).imp_right hcd.1
  complete := fun hd => h.complete (hcd.2 hd)

/-- More may be known of a result. -/
theorem imp {P' : α → Prop} (h : Decided x P C) (hP : ∀ a, x = .ok a → P a → P' a) :
    Decided x P' C where
  sound := fun ha => (h.sound ha).imp_left (hP _ ha)
  complete := h.complete

theorem pure {a : α} (h : P a) : Decided (pure a : Except ε α) P True where
  sound := fun ha => ⟨pure_eq_ok.1 ha ▸ h, trivial⟩
  complete := fun _ => ⟨a, rfl⟩

theorem error {e : ε} (hc : ¬ C) : Decided (.error e : Except ε α) P C where
  sound := fun ha => by cases ha
  complete := fun h => absurd h hc

/-- The condition of a chain: that of its first step, and that of the rest
for whatever the first step gives. -/
theorem bind (hx : Decided x P C) (hf : ∀ a, P a → Decided (f a) R D) :
    Decided (x >>= f) R (C ∧ D) where
  sound := fun hb => by
    obtain ⟨a, ha, hb⟩ := bind_eq_ok.1 hb
    obtain ⟨hp, hc⟩ := hx.sound ha
    obtain ⟨hr, hd⟩ := (hf a hp).sound hb
    exact ⟨hr, hc, hd⟩
  complete := fun ⟨hc, hd⟩ => by
    obtain ⟨a, ha⟩ := hx.complete hc
    obtain ⟨b, hb⟩ := (hf a (hx.sound ha).1).complete hd
    exact ⟨b, bind_eq_ok.2 ⟨a, ha, hb⟩⟩

/-- What is made of a result is no further condition. -/
theorem thenPure {g : α → β} (hx : Decided x P C) (hg : ∀ a, P a → R (g a)) :
    Decided (x >>= fun a => Pure.pure (g a)) R C :=
  (hx.bind fun a ha => .pure (hg a ha)).congr (iff_of_eq (and_true C))

theorem map {g : α → β} (hx : Decided x P C) (hg : ∀ a, P a → R (g a)) :
    Decided (x.map g) R C := by
  have hmap : x.map g = x >>= fun a => Pure.pure (g a) := by cases x <;> rfl
  rw [hmap]
  exact hx.thenPure hg

theorem mapM {P : α → β → Prop} {C : α → Prop} {as : List α}
    (h : ∀ a ∈ as, Decided (f a) (P a) (C a)) :
    Decided (as.mapM f) (List.Forall₂ P as) (∀ a ∈ as, C a) := by
  induction as with
  | nil =>
      rw [List.mapM_nil]
      exact (pure .nil).congr (by simp)
  | cons a as ih =>
      obtain ⟨hhead, hrest⟩ := List.forall_mem_cons.1 h
      rw [List.mapM_cons]
      refine Decided.congr (hhead.bind fun b hb => ?_) List.forall_mem_cons.symm
      exact (ih hrest).thenPure fun bs hbs => .cons hb hbs

/-- A check before the rest. -/
theorem check {p : Prop} [Decidable p] {e : ε} {x : Except ε α} (hx : Decided x P C) :
    Decided (if p then .error e else x) P (¬ p ∧ C) := by
  split
  · next hp => exact error fun h => h.1 hp
  · next hp => exact hx.congr ⟨fun hc => ⟨hp, hc⟩, And.right⟩

end Decided

-- =========================================================== collisions

/-- A computation that fails for collisions of aliases only. -/
def CollidesOnly {α : Type} (x : Except CompileError α) : Prop :=
  ∀ e, x = .error e → ∃ name first second, e = .aliasCollision name first second

theorem CollidesOnly.bind {α β : Type} {x : Except CompileError α}
    {f : α → Except CompileError β} (hx : CollidesOnly x) (hf : ∀ a, CollidesOnly (f a)) :
    CollidesOnly (x >>= f) := by
  intro e h
  cases x with
  | error e' =>
      cases h
      exact hx e rfl
  | ok a => exact hf a e h

/-- What fails for collisions only is decided by what a collision shows,
if no result allows it. -/
theorem Settled.decided {α : Type} {x : Except CompileError α} {P : α → Prop} {Q : Prop}
    (h : Settled x P Q) (honly : CollidesOnly x) (hapart : ∀ a, P a → ¬ Q) :
    Decided x P (¬ Q) where
  sound := fun ha => ⟨h.ok ha, hapart _ (h.ok ha)⟩
  complete := fun hno => by
    cases hx : x with
    | ok a => exact ⟨a, rfl⟩
    | error e =>
        obtain ⟨name, first, second, rfl⟩ := honly e hx
        exact absurd (h.collision hx) hno

namespace Joins

theorem insert_collidesOnly (joins : Joins) (join : Join) : CollidesOnly (joins.insert join) := by
  intro e h
  unfold insert at h
  split at h
  · cases h
  · split at h
    · cases h
    · cases h
      exact ⟨_, _, _, rfl⟩

theorem merge_collidesOnly (added : Joins) : ∀ joins : Joins, CollidesOnly (joins.merge added) := by
  induction added with
  | nil => exact fun joins e h => by cases h
  | cons join rest ih => exact fun joins => (insert_collidesOnly joins join).bind ih

theorem apartFrom_collidesOnly (joins : Joins) (root : String) :
    CollidesOnly (joins.apartFrom root) := by
  intro e h
  unfold apartFrom at h
  split at h
  · cases h
  · cases h
    exact ⟨_, _, _, rfl⟩

end Joins

-- ================================================================ clear

namespace RelationPath

variable {root : String} {a b : List RelationPath}

theorem not_clash_nil : ¬ Clash root [] := by
  rintro (⟨p, hp, -⟩ | ⟨p, hp, -⟩) <;> cases hp

theorem not_clash_left (h : ¬ Clash root (a ++ b)) : ¬ Clash root a :=
  fun hclash => h (hclash.subset (List.subset_append_left a b))

theorem not_clash_right (h : ¬ Clash root (a ++ b)) : ¬ Clash root b :=
  fun hclash => h (hclash.subset (List.subset_append_right a b))

end RelationPath

namespace Scope

/-- Joins that certain paths brought, which have their beginnings among
them and do not clash. -/
structure Clear (dialect : Dialect) (scope : Scope) (joins : Joins) (paths : List RelationPath) :
    Prop where
  joined : scope.Joined dialect joins paths
  grounded : RelationPath.Grounded paths
  apart : ¬ RelationPath.Clash scope.tableAlias paths

variable {dialect : Dialect} {scope : Scope} {joins more : Joins} {a b : List RelationPath}

/-- Paths whose joins were put together, apart from the root, do not
clash. -/
theorem Joined.not_clash (hbare : scope.aliasPrefix = "") (h : scope.Joined dialect joins a)
    (hgrounded : RelationPath.Grounded a)
    (hapart : ∀ p ∈ a, Casing.fold p.tableAlias ≠ Casing.fold scope.tableAlias) :
    ¬ RelationPath.Clash scope.tableAlias a := by
  rintro (⟨p, hp, q, hq, hne, halias⟩ | ⟨p, hp, halias⟩)
  · exact hne (h.eq_of_tableAlias hbare hgrounded hapart hp hq (Casing.same_iff.1 halias))
  · exact hapart p hp (Casing.same_iff.1 halias)

namespace Clear

theorem nil : scope.Clear dialect [] [] := ⟨.nil, .nil, RelationPath.not_clash_nil⟩

theorem apartFrom_root (h : scope.Clear dialect joins a) :
    ∀ p ∈ a, Casing.fold p.tableAlias ≠ Casing.fold scope.tableAlias :=
  fun p hp halias => h.apart (Or.inr ⟨p, hp, Casing.same_iff.2 halias⟩)

/-- Joins are put together unless their paths clash. -/
theorem merge (hbare : scope.aliasPrefix = "") (h : scope.Clear dialect joins a)
    (hmore : scope.Clear dialect more b) :
    Decided (joins.merge more) (fun all => scope.Clear dialect all (a ++ b))
      (¬ RelationPath.Clash scope.tableAlias (a ++ b)) := by
  have hapart : ∀ p ∈ a ++ b, Casing.fold p.tableAlias ≠ Casing.fold scope.tableAlias :=
    List.forall_mem_append.2 ⟨h.apartFrom_root, hmore.apartFrom_root⟩
  have hgrounded := h.grounded.append hmore.grounded
  have hsettled : Settled (joins.merge more) (fun all => scope.Clear dialect all (a ++ b))
      (RelationPath.Clash scope.tableAlias (a ++ b)) :=
    (h.joined.merge hbare hmore.joined (List.Subset.refl _)).imp
      (fun all _ hall => ⟨hall, hgrounded, hall.not_clash hbare hgrounded hapart⟩) id
  exact hsettled.decided (Joins.merge_collidesOnly more joins) fun all hall => hall.apart

end Clear

end Scope

-- ============================================================ fragments

namespace Fragment

open RelationPath

variable {dialect : Dialect} {scope : Scope} {f g : Fragment} {a b : List RelationPath}

theorem append_decided (hbare : scope.aliasPrefix = "") (hf : scope.Clear dialect f.joins a)
    (hg : scope.Clear dialect g.joins b) :
    Decided (f.append g) (fun whole => scope.Clear dialect whole.joins (a ++ b))
      (¬ Clash scope.tableAlias (a ++ b)) :=
  (hf.merge hbare hg).map fun _ hjoins => hjoins

variable {α : Type} {paths : α → List RelationPath} {separator : String}

theorem appendAll_decided (hbare : scope.aliasPrefix = "") {fs : List Fragment} {xs : List α}
    (hall : List.Forall₂ (fun x f => scope.Clear dialect f.joins (paths x)) xs fs) :
    ∀ {f : Fragment} {a : List RelationPath}, scope.Clear dialect f.joins a →
      Decided (Fragment.appendAll separator f fs)
        (fun whole => scope.Clear dialect whole.joins (a ++ xs.flatMap paths))
        (¬ Clash scope.tableAlias (a ++ xs.flatMap paths)) := by
  induction hall with
  | nil =>
      intro f a hf
      rw [List.flatMap_nil, List.append_nil]
      have hdone : Decided (Fragment.appendAll separator f [])
          (fun whole => scope.Clear dialect whole.joins a) True := .pure hf
      exact hdone.congr (iff_of_true trivial hf.apart)
  | @cons x g xs fs hhead _ ih =>
      intro f a hf
      rw [List.flatMap_cons, ← List.append_assoc]
      have hboth := append_decided hbare (f := f.wrap "" separator) hf hhead
      refine (hboth.bind fun both hboth => ih hboth).congr ?_
      exact ⟨And.right, fun h => ⟨not_clash_left h, h⟩⟩

/-- Fragments are put together unless the paths of all of them clash. -/
theorem join_decided (hbare : scope.aliasPrefix = "") {fs : List Fragment} {xs : List α}
    (hall : List.Forall₂ (fun x f => scope.Clear dialect f.joins (paths x)) xs fs) :
    Decided (Fragment.join separator fs)
      (fun whole => scope.Clear dialect whole.joins (xs.flatMap paths))
      (¬ Clash scope.tableAlias (xs.flatMap paths)) := by
  cases hall with
  | nil =>
      have hdone : Decided (Fragment.join separator [])
          (fun whole => scope.Clear dialect whole.joins []) True := .pure .nil
      exact hdone.congr (iff_of_true trivial not_clash_nil)
  | cons hhead hrest => exact appendAll_decided hbare hrest hhead

end Fragment

end RecordQuery

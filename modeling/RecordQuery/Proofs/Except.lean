/-
Successful computations, taken apart. Each function of the library that
can fail is a chain of steps; what it returned determines what every
step of the chain returned, and these lemmas read the steps off.
-/
import Mathlib.Data.List.Forall2

namespace RecordQuery

variable {ε α β : Type}

/-- A chain succeeded, so its first step did and the rest went on from
there. -/
theorem bind_eq_ok {x : Except ε α} {f : α → Except ε β} {b : β} :
    x >>= f = .ok b ↔ ∃ a, x = .ok a ∧ f a = .ok b := by
  cases x with
  | error e =>
      constructor
      · intro h
        cases h
      · rintro ⟨a, ha, -⟩
        cases ha
  | ok a =>
      constructor
      · intro h
        exact ⟨a, rfl, h⟩
      · rintro ⟨a', ha, hf⟩
        cases ha
        exact hf

/-- The result of a mapped computation is the image of a result. -/
theorem map_eq_ok {x : Except ε α} {f : α → β} {b : β} :
    x.map f = .ok b ↔ ∃ a, x = .ok a ∧ f a = b := by
  cases x with
  | error e => simp [Except.map]
  | ok a => simp [Except.map]

/-- A chain failed, so its first step did, or the rest did behind it. -/
theorem bind_eq_error {x : Except ε α} {f : α → Except ε β} {e : ε} :
    x >>= f = .error e ↔ x = .error e ∨ ∃ a, x = .ok a ∧ f a = .error e := by
  cases x with
  | error e' =>
      constructor
      · intro h
        cases h
        exact Or.inl rfl
      · rintro (h | ⟨a, ha, -⟩)
        · cases h
          rfl
        · cases ha
  | ok a =>
      constructor
      · intro h
        exact Or.inr ⟨a, rfl, h⟩
      · rintro (h | ⟨a', ha, hf⟩)
        · cases h
        · cases ha
          exact hf

/-- A mapped computation fails as the computation does. -/
theorem map_eq_error {x : Except ε α} {f : α → β} {e : ε} :
    x.map f = .error e ↔ x = .error e := by
  cases x with
  | error e => simp [Except.map]
  | ok a => simp [Except.map]

/-- `pure` succeeds with what it is given. -/
theorem pure_eq_ok {a b : α} : (pure a : Except ε α) = .ok b ↔ a = b := by
  constructor
  · intro h
    cases h
    rfl
  · rintro rfl
    rfl

/-- A failed step is no success. -/
theorem throw_ne_ok {e : ε} {a : α} : (throw e : Except ε α) ≠ .ok a := by
  intro h
  cases h

/-- A computation run over a list succeeded on each of its elements. -/
theorem forall₂_of_mapM {f : α → Except ε β} :
    ∀ {as : List α} {bs : List β}, as.mapM f = .ok bs →
      List.Forall₂ (fun a b => f a = .ok b) as bs := by
  intro as
  induction as with
  | nil =>
      intro bs h
      rw [List.mapM_nil, pure_eq_ok] at h
      subst h
      exact .nil
  | cons a as ih =>
      intro bs h
      rw [List.mapM_cons, bind_eq_ok] at h
      obtain ⟨b, hb, h⟩ := h
      obtain ⟨bs', hbs, h⟩ := bind_eq_ok.1 h
      cases pure_eq_ok.1 h
      exact .cons hb (ih hbs)

/-- Each element of a list is related to one of a related list. -/
theorem exists_of_forall₂ {R : α → β → Prop} {as : List α} {bs : List β}
    (h : List.Forall₂ R as bs) {a : α} (ha : a ∈ as) : ∃ b ∈ bs, R a b := by
  induction h with
  | nil => cases ha
  | cons hhead _ ih =>
      rcases List.mem_cons.1 ha with rfl | ha
      · exact ⟨_, List.mem_cons_self, hhead⟩
      · obtain ⟨b, hb, hab⟩ := ih ha
        exact ⟨b, List.mem_cons_of_mem _ hb, hab⟩

/-- Each result of a computation run over a list is that of an element. -/
theorem exists_of_mem_mapM {f : α → Except ε β} {as : List α} {bs : List β}
    (h : as.mapM f = .ok bs) {b : β} (hb : b ∈ bs) : ∃ a ∈ as, f a = .ok b :=
  exists_of_forall₂ (forall₂_of_mapM h).flip hb

/-- Each of several computations that succeeded has a result. -/
theorem ok_of_forall₂ {f : α → Except ε β} {as : List α} {bs : List β}
    (h : List.Forall₂ (fun a b => f a = .ok b) as bs) {a : α} (ha : a ∈ as) :
    ∃ b, f a = .ok b := by
  obtain ⟨b, -, hb⟩ := exists_of_forall₂ h ha
  exact ⟨b, hb⟩

/-- A computation that succeeded on a list succeeded on each element. -/
theorem ok_of_mem_mapM {f : α → Except ε β} {as : List α} {bs : List β}
    (h : as.mapM f = .ok bs) {a : α} (ha : a ∈ as) : ∃ b, f a = .ok b :=
  ok_of_forall₂ (forall₂_of_mapM h) ha

/-- A computation run over what may be absent: it was absent, or it
succeeded on what is there. -/
theorem option_mapM_eq_ok {f : α → Except ε β} {a? : Option α}
    {b? : Option β} (h : a?.mapM f = .ok b?) :
    (a? = none ∧ b? = none)
      ∨ ∃ a b, a? = some a ∧ b? = some b ∧ f a = .ok b := by
  cases a? with
  | none =>
      cases pure_eq_ok.1 h
      exact Or.inl ⟨rfl, rfl⟩
  | some a =>
      rw [Option.mapM_some] at h
      obtain ⟨b, hb, h⟩ := map_eq_ok.1 h
      exact Or.inr ⟨a, b, rfl, h.symm, hb⟩

/-- What is there was computed with success. -/
theorem ok_of_option_mapM {f : α → Except ε β} {a? : Option α} {b? : Option β}
    (h : a?.mapM f = .ok b?) {a : α} (ha : a? = some a) : ∃ b, f a = .ok b := by
  rcases option_mapM_eq_ok h with ⟨hnone, -⟩ | ⟨a', b, hsome, -, hb⟩
  · cases ha.symm.trans hnone
  · cases ha.symm.trans hsome
    exact ⟨b, hb⟩

/-- A result stems from what is there. -/
theorem exists_of_option_mapM {f : α → Except ε β} {a? : Option α} {b? : Option β}
    (h : a?.mapM f = .ok b?) {b : β} (hb : b? = some b) : ∃ a, a? = some a ∧ f a = .ok b := by
  rcases option_mapM_eq_ok h with ⟨-, hnone⟩ | ⟨a, b', hsome, hsome', hab⟩
  · cases hb.symm.trans hnone
  · cases hb.symm.trans hsome'
    exact ⟨a, hsome, hab⟩

/-- What a fold starts with and every step of it keeps, it ends with. -/
theorem foldlM_ok_keeps {P : β → Prop} {step : β → α → Except ε β} {as : List α}
    (hstep : ∀ a ∈ as, ∀ b b', P b → step b a = .ok b' → P b') :
    ∀ {b b' : β}, P b → as.foldlM step b = .ok b' → P b' := by
  induction as with
  | nil =>
      intro b b' hb h
      cases pure_eq_ok.1 h
      exact hb
  | cons a as ih =>
      intro b b' hb h
      rw [List.foldlM_cons, bind_eq_ok] at h
      obtain ⟨next, hnext, h⟩ := h
      obtain ⟨hhead, hrest⟩ := List.forall_mem_cons.1 hstep
      exact ih hrest (hhead b next hb hnext) h

end RecordQuery

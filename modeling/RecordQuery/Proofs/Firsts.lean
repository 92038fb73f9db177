/-
Lists reduced to the first element of each key. Joins are kept once for
each alias and children once for each key, always where they are met
first; both are this reduction.

It is read from either end: from the front it keeps an element and drops
the later ones of its key, from the back it drops an element if its key
was met before. Reducing a part first changes nothing.

Lists that agree once they are reduced have the same first elements: maps
and filters keep them so, whatever was repeated in between.
-/
import Mathlib.Data.List.Forall2
import Mathlib.Data.List.Induction

namespace RecordQuery

variable {α β γ : Type} [BEq β]

/-- The elements of a list whose key is that of none before them. -/
def firstsBy (key : α → β) (xs : List α) : List α :=
  xs.eraseDupsBy fun x y => key x == key y

variable {key : α → β}

@[simp] theorem firstsBy_nil : firstsBy key [] = [] := rfl

/-- From the front: an element stays, later ones of its key go. -/
theorem firstsBy_cons (x : α) (xs : List α) :
    firstsBy key (x :: xs) = x :: firstsBy key (xs.filter fun y => !(key y == key x)) := by
  unfold firstsBy
  rw [List.eraseDupsBy_cons]
  congr 2
  refine List.filter_congr fun y _ => ?_
  cases key y == key x <;> rfl

/-- A reduction goes on with a shorter list, so a property of all lists
may be shown of a list whose tail it holds of after any filter. -/
theorem firsts_induction {P : List α → Prop} (nil : P [])
    (cons : ∀ x xs, (∀ p : α → Bool, P (xs.filter p)) → P (x :: xs)) (xs : List α) : P xs := by
  suffices h : ∀ n, ∀ xs : List α, xs.length ≤ n → P xs from h _ xs (Nat.le_refl _)
  intro n
  induction n with
  | zero =>
      intro xs hxs
      rw [List.length_eq_zero_iff.1 (Nat.le_zero.1 hxs)]
      exact nil
  | succ n ih =>
      intro xs hxs
      cases xs with
      | nil => exact nil
      | cons x xs =>
          refine cons x xs fun p => ih _ ?_
          have hle := List.length_filter_le p xs
          rw [List.length_cons] at hxs
          omega

/-- Reducing commutes with a map, the keys being those of the images. -/
theorem firstsBy_map (f : γ → α) (xs : List γ) :
    firstsBy key (xs.map f) = (firstsBy (fun x => key (f x)) xs).map f := by
  induction xs using firsts_induction with
  | nil => rfl
  | cons x xs ih =>
      rw [List.map_cons, firstsBy_cons, firstsBy_cons, List.map_cons, List.filter_map, ih]
      rfl

/-- Keys that are equal for the same elements keep the same. -/
theorem firstsBy_congr [BEq γ] {other : α → γ} {xs : List α}
    (h : ∀ x ∈ xs, ∀ y ∈ xs, (key x == key y) = (other x == other y)) :
    firstsBy key xs = firstsBy other xs := by
  induction xs using firsts_induction with
  | nil => rfl
  | cons x xs ih =>
      have hfilter : (xs.filter fun y => !(key y == key x))
          = xs.filter fun y => !(other y == other x) :=
        List.filter_congr fun y hy =>
          congrArg not (h y (List.mem_cons_of_mem _ hy) x List.mem_cons_self)
      rw [firstsBy_cons, firstsBy_cons, hfilter, ih]
      intro y hy z hz
      exact h y (List.mem_cons_of_mem _ (List.mem_filter.1 hy).1) z
        (List.mem_cons_of_mem _ (List.mem_filter.1 hz).1)

/-- The keys kept are those of the list, without repetitions. -/
theorem map_firstsBy (key : α → β) (xs : List α) :
    (firstsBy key xs).map key = (xs.map key).eraseDups := by
  have h : firstsBy id (xs.map key) = _ := firstsBy_map key xs
  exact h.symm

/-- Every element kept is one of the list. -/
theorem mem_of_mem_firstsBy {x : α} {xs : List α} (h : x ∈ firstsBy key xs) : x ∈ xs := by
  induction xs using firsts_induction with
  | nil => exact h
  | cons y ys ih =>
      rw [firstsBy_cons, List.mem_cons] at h
      rcases h with rfl | h
      · exact List.mem_cons_self
      · exact List.mem_cons_of_mem _ (List.mem_filter.1 (ih _ h)).1

/-- Related lists whose keys are equal for the same elements are reduced to
related lists. -/
theorem forall₂_firstsBy [BEq γ] {δ : Type} {other : δ → γ} {R : α → δ → Prop} {xs : List α}
    {ys : List δ} (h : List.Forall₂ R xs ys)
    (hkeys : ∀ x y x' y', R x y → R x' y' → x ∈ xs → x' ∈ xs →
      (key x == key x') = (other y == other y')) :
    List.Forall₂ R (firstsBy key xs) (firstsBy other ys) := by
  obtain ⟨hlength, hzip⟩ := List.forall₂_iff_zip.1 h
  have hpairs : ∀ z ∈ xs.zip ys, R z.1 z.2 ∧ z.1 ∈ xs := fun z hz =>
    ⟨hzip hz, (List.of_mem_zip hz).1⟩
  have hsame : firstsBy (fun z : α × δ => key z.1) (xs.zip ys)
      = firstsBy (fun z => other z.2) (xs.zip ys) :=
    firstsBy_congr fun z hz z' hz' => hkeys _ _ _ _ (hpairs z hz).1 (hpairs z' hz').1
      (hpairs z hz).2 (hpairs z' hz').2
  have hleft : firstsBy key ((xs.zip ys).map Prod.fst) = _ := firstsBy_map Prod.fst (xs.zip ys)
  have hright : firstsBy other ((xs.zip ys).map Prod.snd) = _ :=
    firstsBy_map Prod.snd (xs.zip ys)
  rw [List.map_fst_zip (Nat.le_of_eq hlength)] at hleft
  rw [List.map_snd_zip (Nat.le_of_eq hlength.symm)] at hright
  rw [hleft, hright, ← hsame, List.forall₂_map_left_iff, List.forall₂_map_right_iff,
    List.forall₂_same]
  exact fun z hz => (hpairs z (mem_of_mem_firstsBy hz)).1

variable [LawfulBEq β]

/-- Every key of a list is that of an element kept. -/
theorem mem_map_firstsBy {b : β} {xs : List α} :
    b ∈ (firstsBy key xs).map key ↔ b ∈ xs.map key := by
  induction xs using firsts_induction with
  | nil => rfl
  | cons x xs ih =>
      rw [firstsBy_cons, List.map_cons, List.map_cons, List.mem_cons, List.mem_cons, ih]
      by_cases hb : b = key x
      · simp [hb]
      · have hmem : b ∈ (xs.filter fun y => !(key y == key x)).map key ↔ b ∈ xs.map key := by
          simp only [List.mem_map, List.mem_filter, Bool.not_eq_true', beq_eq_false_iff_ne]
          constructor
          · rintro ⟨y, ⟨hy, -⟩, rfl⟩
            exact ⟨y, hy, rfl⟩
          · rintro ⟨y, hy, rfl⟩
            exact ⟨y, ⟨hy, hb⟩, rfl⟩
        rw [hmem]

/-- The element kept of a key is the first one of the key. -/
theorem find?_of_mem_firstsBy {x : α} {xs : List α} (h : x ∈ firstsBy key xs) :
    xs.find? (fun y => key y == key x) = some x := by
  induction xs using firsts_induction with
  | nil => cases h
  | cons y ys ih =>
      rw [firstsBy_cons, List.mem_cons] at h
      rcases h with rfl | h
      · simp
      · have hne : key x ≠ key y := by
          simpa using (List.mem_filter.1 (mem_of_mem_firstsBy h)).2
        have hfind := ih _ h
        rw [List.find?_filter] at hfind
        have hsame : (fun z => decide ((!(key z == key y)) = true ∧ (key z == key x) = true))
            = fun z : α => key z == key x := by
          funext z
          by_cases hz : key z = key x
          · simp [hz, hne]
          · simp [hz]
        rw [hsame] at hfind
        rw [List.find?_cons_of_neg (by simpa using Ne.symm hne), hfind]

/-- No key is kept twice. -/
theorem nodup_map_firstsBy (key : α → β) (xs : List α) : ((firstsBy key xs).map key).Nodup := by
  induction xs using firsts_induction with
  | nil => exact List.nodup_nil
  | cons x xs ih =>
      rw [firstsBy_cons, List.map_cons, List.nodup_cons]
      refine ⟨fun hmem => ?_, ih _⟩
      obtain ⟨y, hy, heq⟩ := List.mem_map.1 (mem_map_firstsBy.1 hmem)
      rw [List.mem_filter, heq] at hy
      simp at hy

/-- Nothing is kept twice where elements are their own keys. -/
theorem nodup_eraseDups (xs : List β) : xs.eraseDups.Nodup := by
  have hnodup := nodup_map_firstsBy id xs
  rwa [List.map_id] at hnodup

/-- From the back: an element whose key was met before goes. -/
theorem firstsBy_append_singleton (xs : List α) (x : α) :
    firstsBy key (xs ++ [x])
      = if key x ∈ xs.map key then firstsBy key xs else firstsBy key xs ++ [x] := by
  induction xs using firsts_induction with
  | nil => simp [firstsBy_cons]
  | cons y ys ih =>
      rw [List.cons_append, firstsBy_cons, List.filter_append, firstsBy_cons]
      by_cases hx : key x = key y
      · simp [hx]
      · have hkeep : [x].filter (fun z => !(key z == key y)) = [x] := by simp [hx]
        have hmem : key x ∈ (ys.filter fun z => !(key z == key y)).map key
            ↔ key x ∈ (y :: ys).map key := by
          simp only [List.mem_map, List.mem_filter, Bool.not_eq_true', beq_eq_false_iff_ne,
            List.mem_cons]
          constructor
          · rintro ⟨z, ⟨hz, -⟩, hk⟩
            exact ⟨z, Or.inr hz, hk⟩
          · rintro ⟨z, rfl | hz, hk⟩
            · exact absurd hk.symm hx
            · exact ⟨z, ⟨hz, fun h => hx (hk ▸ h)⟩, hk⟩
        rw [hkeep, ih]
        by_cases hm : key x ∈ (y :: ys).map key
        · rw [if_pos hm, if_pos (hmem.2 hm)]
        · rw [if_neg hm, if_neg fun h => hm (hmem.1 h)]
          rfl

/-- Reducing the second of two lists first changes nothing. -/
theorem firstsBy_append_firstsBy (xs ys : List α) :
    firstsBy key (xs ++ firstsBy key ys) = firstsBy key (xs ++ ys) := by
  induction ys using List.reverseRecOn with
  | nil => rfl
  | append_singleton ys y ih =>
      have hmem : key y ∈ (xs ++ firstsBy key ys).map key ↔ key y ∈ (xs ++ ys).map key := by
        rw [List.map_append, List.map_append, List.mem_append, List.mem_append,
          mem_map_firstsBy]
      rw [firstsBy_append_singleton, ← List.append_assoc xs ys, firstsBy_append_singleton, ← ih]
      by_cases hy : key y ∈ ys.map key
      · rw [if_pos hy, if_pos]
        rw [List.map_append]
        exact List.mem_append_right _ hy
      · rw [if_neg hy, ← List.append_assoc, firstsBy_append_singleton]
        by_cases hm : key y ∈ (xs ++ ys).map key
        · rw [if_pos hm, if_pos (hmem.2 hm)]
        · rw [if_neg hm, if_neg fun h => hm (hmem.1 h)]

-- ========================================================== same firsts

theorem eraseDups_append_singleton (xs : List β) (x : β) :
    (xs ++ [x]).eraseDups = if x ∈ xs then xs.eraseDups else xs.eraseDups ++ [x] := by
  have happend : firstsBy id (xs ++ [x])
      = if id x ∈ xs.map id then firstsBy id xs else firstsBy id xs ++ [x] :=
    firstsBy_append_singleton xs x
  rwa [List.map_id] at happend

theorem eraseDups_of_nodup {xs : List β} (h : xs.Nodup) : xs.eraseDups = xs := by
  induction xs with
  | nil => rfl
  | cons x xs ih =>
      obtain ⟨hx, hxs⟩ := List.nodup_cons.1 h
      have hothers : xs.filter (fun y => !y == x) = xs := by
        rw [List.filter_eq_self]
        intro y hy
        rw [Bool.not_eq_true', beq_eq_false_iff_ne]
        exact fun heq => hx (heq ▸ hy)
      rw [List.eraseDups_cons, hothers, ih hxs]

/-- Lists in which the same elements appear, in the same order of their first
appearances. -/
def SameFirsts (xs ys : List β) : Prop :=
  xs.eraseDups = ys.eraseDups

namespace SameFirsts

variable {xs ys xs' ys' : List β}

omit [LawfulBEq β] in
theorem trans {zs : List β} (h : SameFirsts xs ys) (h' : SameFirsts ys zs) :
    SameFirsts xs zs :=
  Eq.trans h h'

theorem mem_iff (h : SameFirsts xs ys) (x : β) : x ∈ xs ↔ x ∈ ys := by
  rw [← List.mem_eraseDups, h, List.mem_eraseDups]

omit [LawfulBEq β] in
theorem head? (h : SameFirsts xs ys) : xs.head? = ys.head? := by
  have hfirst : ∀ zs : List β, zs.eraseDups.head? = zs.head? := by
    intro zs
    cases zs with
    | nil => rfl
    | cons z zs => rw [List.eraseDups_cons, List.head?_cons, List.head?_cons]
  rw [← hfirst, h, hfirst]

theorem map [BEq γ] [LawfulBEq γ] (f : β → γ) (h : SameFirsts xs ys) :
    SameFirsts (xs.map f) (ys.map f) := by
  have hreduce : ∀ zs : List β, (zs.eraseDups.map f).eraseDups = (zs.map f).eraseDups := by
    intro zs
    induction zs using List.reverseRecOn with
    | nil => rfl
    | append_singleton zs z ih =>
        rw [eraseDups_append_singleton, List.map_append, List.map_singleton,
          eraseDups_append_singleton]
        by_cases hz : z ∈ zs
        · rw [if_pos hz, if_pos (List.mem_map_of_mem hz), ih]
        · have hmem : f z ∈ zs.eraseDups.map f ↔ f z ∈ zs.map f := by
            simp only [List.mem_map, List.mem_eraseDups]
          rw [if_neg hz, List.map_append, List.map_singleton, eraseDups_append_singleton, ih]
          by_cases hf : f z ∈ zs.map f
          · rw [if_pos hf, if_pos (hmem.2 hf)]
          · rw [if_neg hf, if_neg fun hm => hf (hmem.1 hm)]
  unfold SameFirsts
  rw [← hreduce, h, hreduce]

theorem filter (p : β → Bool) (h : SameFirsts xs ys) :
    SameFirsts (xs.filter p) (ys.filter p) := by
  have hcommute : ∀ zs : List β, (zs.filter p).eraseDups = zs.eraseDups.filter p := by
    intro zs
    induction zs using List.reverseRecOn with
    | nil => rfl
    | append_singleton zs z ih =>
        rw [eraseDups_append_singleton, List.filter_append]
        cases hp : p z with
        | false =>
            have hdrop : [z].filter p = [] := List.filter_cons_of_neg (by simp [hp])
            rw [hdrop, List.append_nil, ih]
            split
            · rfl
            · rw [List.filter_append, hdrop, List.append_nil]
        | true =>
            have hkeep : [z].filter p = [z] := List.filter_cons_of_pos hp
            rw [hkeep, eraseDups_append_singleton, ih]
            by_cases hz : z ∈ zs
            · rw [if_pos hz, if_pos (List.mem_filter.2 ⟨hz, hp⟩)]
            · rw [if_neg hz, if_neg fun hm => hz (List.mem_filter.1 hm).1, List.filter_append,
                hkeep]
  unfold SameFirsts
  rw [hcommute, h, hcommute]

theorem append (hxs : SameFirsts xs xs') (hys : SameFirsts ys ys') :
    SameFirsts (xs ++ ys) (xs' ++ ys') := by
  have hremove : ys.removeAll xs = ys.filter fun y => !xs'.elem y := by
    refine List.filter_congr fun y _ => ?_
    rw [Bool.eq_iff_iff]
    simp [hxs.mem_iff y]
  unfold SameFirsts
  rw [List.eraseDups_append, List.eraseDups_append, hremove, hxs]
  exact congrArg _ (hys.filter _)

/-- What only repeats changes nothing. -/
theorem append_of_subset (h : ∀ y ∈ ys, y ∈ xs) : SameFirsts (xs ++ ys) xs := by
  have hnone : ys.removeAll xs = [] := by
    rw [List.removeAll, List.filter_eq_nil_iff]
    intro y hy
    simp [h y hy]
  unfold SameFirsts
  rw [List.eraseDups_append, hnone, List.eraseDups_nil, List.append_nil]

/-- A list repeated. -/
theorem flatMap_repeat {xs : List α} (h : xs ≠ []) (ys : List β) :
    SameFirsts (xs.flatMap fun _ => ys) ys := by
  cases xs with
  | nil => exact absurd rfl h
  | cons x xs =>
      refine append_of_subset fun y hy => ?_
      obtain ⟨-, -, hy⟩ := List.mem_flatMap.1 hy
      exact hy

/-- A list each of whose elements is repeated in place. -/
theorem flatMap_copies {xs : List α} {f : α → List β} {g : α → β}
    (h : ∀ x ∈ xs, f x ≠ [] ∧ ∀ y ∈ f x, y = g x) : SameFirsts (xs.flatMap f) (xs.map g) := by
  induction xs with
  | nil => rfl
  | cons x xs ih =>
      obtain ⟨⟨hne, hcopy⟩, hrest⟩ := List.forall_mem_cons.1 h
      have hfirst : SameFirsts (f x) [g x] := by
        cases hfx : f x with
        | nil => exact absurd hfx hne
        | cons y ys =>
            rw [hfx, List.forall_mem_cons] at hcopy
            obtain ⟨rfl, hcopy⟩ := hcopy
            exact append_of_subset fun z hz => List.mem_singleton.2 (hcopy z hz)
      exact hfirst.append (ih hrest)

end SameFirsts

end RecordQuery

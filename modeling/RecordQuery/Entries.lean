/-
Entries: lists of named entries in which each name occurs once and keeps
the position of its first appearance. They are looked up with
`List.lookup`.
-/

namespace RecordQuery.Entries

/-- Puts an entry into the list: in the place of the one of its name, or at
the end. -/
def put {α : Type} (name : String) (entry : α) : List (String × α) → List (String × α)
  | [] => [(name, entry)]
  | (n, e) :: rest => if n = name then (n, entry) :: rest else (n, e) :: put name entry rest

/-- What was put under a name is what is found there. -/
theorem lookup_put {α : Type} (name : String) (entry : α) (entries : List (String × α)) :
    (put name entry entries).lookup name = some entry := by
  induction entries with
  | nil => simp [put]
  | cons head rest ih =>
    obtain ⟨n, e⟩ := head
    by_cases h : n = name
    · simp [put, h]
    · have hn : (name == n) = false := by simpa using Ne.symm h
      simp [put, h, List.lookup_cons, hn, ih]

/-- Other names keep what they had. -/
theorem lookup_put_ne {α : Type} {name other : String} (h : other ≠ name) (entry : α)
    (entries : List (String × α)) :
    (put name entry entries).lookup other = entries.lookup other := by
  have hn : (other == name) = false := by simpa using h
  induction entries with
  | nil => simp [put, List.lookup_cons, hn]
  | cons head rest ih =>
    obtain ⟨n, e⟩ := head
    by_cases hs : n = name
    · subst hs; simp [put, List.lookup_cons, hn]
    · simp [put, hs, List.lookup_cons, ih]

/-- What is put in the place of an entry leaves the list as it is if it is
the entry. -/
theorem put_eq_self_iff {α : Type} {name : String} {entry : α}
    {entries : List (String × α)} :
    put name entry entries = entries ↔ entries.lookup name = some entry := by
  constructor
  · intro h
    rw [← h]
    exact lookup_put name entry entries
  · intro h
    induction entries with
    | nil => cases h
    | cons head rest ih =>
      obtain ⟨n, e⟩ := head
      rw [put]
      by_cases hn : n = name
      · simp_all
      · have hbeq : (name == n) = false := by simpa using Ne.symm hn
        rw [List.lookup_cons, hbeq] at h
        rw [if_neg hn, ih h]

/-- A new name is put at the end. -/
theorem put_of_notMem {α : Type} {name : String} {entries : List (String × α)}
    (h : name ∉ entries.map Prod.fst) (entry : α) :
    put name entry entries = entries ++ [(name, entry)] := by
  induction entries with
  | nil => rfl
  | cons head rest ih =>
    obtain ⟨n, e⟩ := head
    rw [List.map_cons, List.mem_cons, not_or] at h
    rw [put, if_neg (Ne.symm h.1), ih h.2, List.cons_append]

/-- The names after an entry is put: the same, or one more. -/
theorem map_fst_put {α : Type} (name : String) (entry : α) (entries : List (String × α)) :
    (put name entry entries).map Prod.fst
      = if name ∈ entries.map Prod.fst then entries.map Prod.fst
        else entries.map Prod.fst ++ [name] := by
  induction entries with
  | nil => rfl
  | cons head rest ih =>
    obtain ⟨n, e⟩ := head
    rw [put]
    by_cases hn : n = name
    · simp [hn]
    · rw [if_neg hn, List.map_cons, ih]
      by_cases hmem : name ∈ rest.map Prod.fst
      · simp [hmem]
      · simp [hmem, Ne.symm hn]

/-- Every entry after one is put is that one or was there before. -/
theorem mem_of_mem_put {α : Type} {name : String} {entry : α} {entries : List (String × α)}
    {x : String × α} (h : x ∈ put name entry entries) : x = (name, entry) ∨ x ∈ entries := by
  induction entries with
  | nil => exact Or.inl (List.mem_singleton.1 h)
  | cons head rest ih =>
    obtain ⟨n, e⟩ := head
    rw [put] at h
    split at h
    · next hn =>
      rcases List.mem_cons.1 h with rfl | h
      · exact Or.inl (by rw [hn])
      · exact Or.inr (List.mem_cons_of_mem _ h)
    · rcases List.mem_cons.1 h with rfl | h
      · exact Or.inr List.mem_cons_self
      · exact (ih h).imp id (List.mem_cons_of_mem _)

section Named

variable {α β : Type} {name : String} (key : α → String) (content : α → β)

/-- A name that stands for one of some things is given another content,
the others keep theirs. -/
theorem put_map {things : List α} (hmem : name ∈ things.map key)
    (hnodup : (things.map key).Nodup) (entry : β) :
    put name entry (things.map fun x => (key x, content x))
      = things.map fun x => (key x, if key x = name then entry else content x) := by
  induction things with
  | nil => cases hmem
  | cons x rest ih =>
    rw [List.map_cons, List.nodup_cons] at hnodup
    rw [List.map_cons, List.map_cons, put]
    by_cases hx : key x = name
    · have hrest : ∀ y ∈ rest, ¬key y = name := by
        intro y hy hname
        exact hnodup.1 (hx ▸ hname ▸ List.mem_map_of_mem hy)
      rw [if_pos hx, if_pos hx]
      congr 1
      refine List.map_congr_left fun y hy => ?_
      rw [if_neg (hrest y hy)]
    · rw [if_neg hx, if_neg hx, ih ?_ hnodup.2]
      rw [List.map_cons, List.mem_cons] at hmem
      exact hmem.resolve_left (Ne.symm hx)

/-- What is found under the name of one of some things is its content. -/
theorem lookup_map {things : List α} (hnodup : (things.map key).Nodup) {x : α}
    (hx : x ∈ things) :
    (things.map fun y => (key y, content y)).lookup (key x) = some (content x) := by
  induction things with
  | nil => cases hx
  | cons y rest ih =>
    rw [List.map_cons, List.nodup_cons] at hnodup
    rw [List.map_cons, List.lookup_cons]
    rcases List.mem_cons.1 hx with rfl | hx
    · simp
    · have hne : (key x == key y) = false := by
        rw [beq_eq_false_iff_ne]
        intro heq
        exact hnodup.1 (heq ▸ List.mem_map_of_mem hx)
      rw [hne]
      exact ih hnodup.2 hx

end Named

end RecordQuery.Entries

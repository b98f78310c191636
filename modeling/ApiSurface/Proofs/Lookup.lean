/-
# `ApiSurface.Proofs.Lookup` — tables as partial functions

A table is determined by its look-ups.  The lemmas here say what insertion does to a look-up and
tie look-ups to membership, so that no later module opens `Table.insert` or `Table.find?`.
-/
import ApiSurface.Table

namespace ApiSurface.Table

variable {κ α : Type} [Ord κ] [Std.LawfulEqOrd κ]

theorem find?_cons_self (k : κ) (a : α) (t : Table κ α) : find? ((k, a) :: t) k = some a := by
  simp [find?]

theorem find?_cons_of_ne {k k' : κ} (h : k ≠ k') (a : α) (t : Table κ α) :
    find? ((k', a) :: t) k = find? t k := by
  simp [find?, h]

@[simp] theorem find?_insert_self (t : Table κ α) (k : κ) (a : α) :
    find? (insert t k a) k = some a := by
  induction t with
  | nil => exact find?_cons_self k a []
  | cons p t ih =>
      obtain ⟨k', b⟩ := p
      simp only [insert]
      split
      · exact find?_cons_self k a _
      · exact find?_cons_self k a _
      next hc =>
        have hne : k ≠ k' := by
          rintro rfl
          simp at hc
        rw [find?_cons_of_ne hne, ih]

theorem find?_insert_of_ne {j k : κ} (h : j ≠ k) (t : Table κ α) (a : α) :
    find? (insert t k a) j = find? t j := by
  induction t with
  | nil => exact find?_cons_of_ne h a []
  | cons p t ih =>
      obtain ⟨k', b⟩ := p
      simp only [insert]
      split
      · exact find?_cons_of_ne h a _
      next hc =>
        have hk : k = k' := Std.LawfulEqCmp.eq_of_compare hc
        subst hk
        rw [find?_cons_of_ne h, find?_cons_of_ne h]
      · by_cases hj : j = k'
        · subst hj
          rw [find?_cons_self, find?_cons_self]
        · rw [find?_cons_of_ne hj, find?_cons_of_ne hj, ih]

/-- Insertion is the update of a function at one point. -/
theorem find?_insert [DecidableEq κ] (t : Table κ α) (k : κ) (a : α) (j : κ) :
    find? (insert t k a) j = if j = k then some a else find? t j := by
  by_cases h : j = k
  · subst h
    rw [if_pos rfl, find?_insert_self]
  · rw [if_neg h, find?_insert_of_ne h]

theorem mem_of_find? {t : Table κ α} {k : κ} {a : α} (h : find? t k = some a) : (k, a) ∈ t := by
  induction t with
  | nil => simp [find?] at h
  | cons p t ih =>
      obtain ⟨k', b⟩ := p
      by_cases hk : k = k'
      · subst hk
        rw [find?_cons_self] at h
        exact List.mem_cons.mpr (Or.inl (by rw [Option.some.inj h]))
      · rw [find?_cons_of_ne hk] at h
        exact List.mem_cons_of_mem _ (ih h)

/-- In an ascending table no key occurs twice, so membership is look-up. -/
theorem find?_eq_some_iff {t : Table κ α} (ht : Ascending t) {k : κ} {a : α} :
    find? t k = some a ↔ (k, a) ∈ t := by
  refine ⟨mem_of_find?, ?_⟩
  induction t with
  | nil => simp
  | cons p t ih =>
      obtain ⟨k', b⟩ := p
      have hp := List.pairwise_cons.mp ht
      intro hmem
      rcases List.mem_cons.mp hmem with heq | hmem
      · obtain ⟨rfl, rfl⟩ := Prod.mk.inj heq
        exact find?_cons_self _ _ _
      · have hlt : compare k' k = .lt := hp.1 _ hmem
        have hne : k ≠ k' := by
          rintro rfl
          simp at hlt
        rw [find?_cons_of_ne hne, ih hp.2 hmem]

theorem find?_eq_none_iff {t : Table κ α} {k : κ} : find? t k = none ↔ k ∉ keys t := by
  induction t with
  | nil => simp [find?, keys]
  | cons p t ih =>
      obtain ⟨k', b⟩ := p
      by_cases hk : k = k'
      · subst hk
        simp [find?_cons_self, keys]
      · rw [find?_cons_of_ne hk, ih]
        simp [keys, hk]

theorem has_iff {t : Table κ α} {k : κ} : has t k = true ↔ k ∈ keys t := by
  rw [has, Option.isSome_iff_ne_none, ne_eq, find?_eq_none_iff, Classical.not_not]

theorem has_insert [DecidableEq κ] (t : Table κ α) (k : κ) (a : α) (j : κ) :
    has (insert t k a) j = (decide (j = k) || has t j) := by
  rw [has, find?_insert, has]
  split
  next h => simp [h]
  next h => simp [h]

/-- What is left of a table. -/
theorem find?_filter (t : Table κ α) (keep : κ → Bool) (k : κ) :
    find? (t.filter fun p => keep p.1) k = if keep k then find? t k else none := by
  induction t with
  | nil => simp [find?]
  | cons p t ih =>
      obtain ⟨k', a⟩ := p
      by_cases hk : k = k'
      · subst hk
        cases hkeep : keep k with
        | true => simp [hkeep, find?_cons_self]
        | false => simp [hkeep, ih]
      · rw [find?_cons_of_ne hk, ← ih]
        cases hkeep : keep k' with
        | true => simp [hkeep, find?_cons_of_ne hk]
        | false => simp [hkeep]

theorem has_filter (t : Table κ α) (keep : κ → Bool) (k : κ) :
    has (t.filter fun p => keep p.1) k = (keep k && has t k) := by
  rw [has, find?_filter, has]
  cases keep k with
  | true => simp
  | false => simp

/-- New entries under the old keys. -/
theorem find?_map {β : Type} (t : Table κ α) (f : α → β) (k : κ) :
    find? (t.map fun p => (p.1, f p.2)) k = (find? t k).map f := by
  induction t with
  | nil => rfl
  | cons p t ih =>
      obtain ⟨k', a⟩ := p
      rw [List.map_cons]
      by_cases hk : k = k'
      · subst hk
        rw [find?_cons_self, find?_cons_self, Option.map_some]
      · rw [find?_cons_of_ne hk, find?_cons_of_ne hk, ih]

theorem insert_comm_of_lt [Std.TransOrd κ] {j k : κ} (h : compare j k = .lt) (t : Table κ α)
    (a b : α) : insert (insert t j a) k b = insert (insert t k b) j a := by
  have hgt : compare k j = .gt := Std.OrientedCmp.gt_of_lt h
  induction t with
  | nil => simp only [insert, h, hgt]
  | cons p t ih =>
      obtain ⟨k', c⟩ := p
      cases hk : compare k k' with
      | lt =>
          have hj : compare j k' = .lt := Std.TransCmp.lt_trans h hk
          simp only [insert, h, hgt, hj, hk]
      | eq =>
          obtain rfl := Std.LawfulEqCmp.eq_of_compare hk
          simp only [insert, h, hgt, hk]
      | gt => cases hj : compare j k' <;> simp only [insert, hgt, hj, hk, ih]

/-- Insertions under different keys may change places. -/
theorem insert_comm [Std.TransOrd κ] {j k : κ} (h : j ≠ k) (t : Table κ α) (a b : α) :
    insert (insert t j a) k b = insert (insert t k b) j a := by
  cases hjk : compare j k with
  | lt => exact insert_comm_of_lt hjk t a b
  | eq => exact absurd (Std.LawfulEqCmp.eq_of_compare hjk) h
  | gt => exact (insert_comm_of_lt (Std.OrientedCmp.gt_iff_lt.mp hjk) t b a).symm

/-- A later entry takes the place of an earlier one. -/
theorem insert_insert (t : Table κ α) (k : κ) (a b : α) :
    insert (insert t k a) k b = insert t k b := by
  have hself : compare k k = .eq := Std.ReflCmp.compare_self
  induction t with
  | nil => simp only [insert, hself]
  | cons p t ih =>
      obtain ⟨k', c⟩ := p
      cases hc : compare k k' <;> simp only [insert, hc, hself, ih]

omit [Std.LawfulEqOrd κ] in
theorem map_insert {β : Type} (t : Table κ α) (f : α → β) (k : κ) (a : α) :
    (insert t k a).map (fun p => (p.1, f p.2)) = insert (t.map fun p => (p.1, f p.2)) k (f a) := by
  induction t with
  | nil => rfl
  | cons p t ih =>
      obtain ⟨k', b⟩ := p
      simp only [insert, List.map_cons]
      split
      · rfl
      · rfl
      · rw [List.map_cons, ih]

/-- A table in order is determined by its look-ups. -/
theorem eq_of_find? [Std.OrientedOrd κ] {t u : Table κ α} (ht : Ascending t) (hu : Ascending u)
    (h : ∀ k, find? t k = find? u k) : t = u := by
  have hnodup : ∀ {t : Table κ α}, Ascending t → t.Nodup := by
    refine fun ht => ht.imp ?_
    rintro p q hlt rfl
    simp at hlt
  have hpairs : t.Perm u := by
    refine (List.perm_ext_iff_of_nodup (hnodup ht) (hnodup hu)).mpr fun p => ?_
    rw [← find?_eq_some_iff ht, ← find?_eq_some_iff hu, h]
  refine hpairs.eq_of_pairwise ?_ ht hu
  intro a b _ _ hab hba
  rw [Std.OrientedCmp.gt_of_lt hab] at hba
  cases hba

/-- What is made along keys is looked up where it was made. -/
theorem find?_filterMap [DecidableEq κ] {keys : List κ} {f : κ → Option (κ × α)}
    (hf : ∀ k p, f k = some p → p.1 = k) (k : κ) :
    find? (keys.filterMap f) k = if k ∈ keys then (f k).map Prod.snd else none := by
  induction keys with
  | nil => rfl
  | cons j keys ih =>
      cases hj : f j with
      | none =>
          rw [List.filterMap_cons_none hj, ih]
          by_cases h : k = j
          · subst h
            simp [hj]
          · simp [h]
      | some p =>
          obtain ⟨j', a⟩ := p
          obtain rfl : j' = j := hf j _ hj
          rw [List.filterMap_cons_some hj]
          by_cases h : k = j'
          · subst h
            simp [hj, find?_cons_self]
          · simp [h, find?_cons_of_ne h, ih]

/-! ## Keys -/

theorem nodup_keys {t : Table κ α} (ht : Ascending t) : (keys t).Nodup := by
  refine List.pairwise_map.mpr (ht.imp ?_)
  rintro p q hlt heq
  rw [heq] at hlt
  simp at hlt

omit [Std.LawfulEqOrd κ] in
theorem pairwise_keys {t : Table κ α} (ht : Ascending t) :
    (keys t).Pairwise fun a b => compare a b = .lt :=
  List.pairwise_map.mpr ht

/-- Tables with entries under the same keys list the same keys. -/
theorem keys_eq_of_has [Std.OrientedOrd κ] {β : Type} {t : Table κ α} {u : Table κ β}
    (ht : Ascending t) (hu : Ascending u) (h : ∀ k, has t k = has u k) : keys t = keys u := by
  have hperm : (keys t).Perm (keys u) := by
    refine (List.perm_ext_iff_of_nodup (nodup_keys ht) (nodup_keys hu)).mpr fun k => ?_
    rw [← has_iff, ← has_iff, h]
  refine hperm.eq_of_pairwise ?_ (pairwise_keys ht) (pairwise_keys hu)
  intro a b _ _ hab hba
  rw [Std.OrientedCmp.gt_of_lt hab] at hba
  cases hba

/-- A key that is new is put between the others. -/
theorem keys_insert_perm {t : Table κ α} {k : κ} (h : has t k = false) (a : α) :
    (keys (insert t k a)).Perm (k :: keys t) := by
  induction t with
  | nil => exact .refl _
  | cons p t ih =>
      obtain ⟨k', b⟩ := p
      have hne : k ≠ k' := by
        rintro rfl
        simp [has, find?_cons_self] at h
      simp only [insert]
      split
      · exact .refl _
      next hc => exact absurd (Std.LawfulEqCmp.eq_of_compare hc) hne
      · rw [has, find?_cons_of_ne hne] at h
        exact ((ih h).cons k').trans (.swap k k' _)

omit [Ord κ] [Std.LawfulEqOrd κ] in
theorem keys_filter (t : Table κ α) (keep : κ → Bool) :
    keys (t.filter fun p => keep p.1) = (keys t).filter keep := by
  rw [keys, keys, List.filter_map]
  rfl

/-! ## Tables of pairs -/

omit [Std.LawfulEqOrd κ] in
theorem mem_of_mem_foldl_insert {p : κ × α} {l : List (κ × α)} {t : Table κ α}
    (h : p ∈ l.foldl (fun t p => insert t p.1 p.2) t) : p ∈ l ∨ p ∈ t := by
  induction l generalizing t with
  | nil => exact Or.inr h
  | cons q l ih =>
      rcases ih h with hp | hp
      · exact Or.inl (List.mem_cons_of_mem _ hp)
      · rcases mem_insert hp with rfl | hp
        · exact Or.inl List.mem_cons_self
        · exact Or.inr hp

omit [Std.LawfulEqOrd κ] in
/-- A table made from pairs holds no others. -/
theorem mem_of_mem_ofList {l : List (κ × α)} {p : κ × α} (h : p ∈ ofList l) : p ∈ l :=
  (mem_of_mem_foldl_insert h).resolve_right List.not_mem_nil

/-- The keys of a table made from pairs. -/
theorem mem_keys_ofList [DecidableEq κ] {l : List (κ × α)} {k : κ} :
    k ∈ keys (ofList l) ↔ k ∈ l.map Prod.fst := by
  have hfold : ∀ (l : List (κ × α)) (t : Table κ α),
      has (l.foldl (fun t p => insert t p.1 p.2) t) k = true ↔
        k ∈ l.map Prod.fst ∨ has t k = true := by
    intro l
    induction l with
    | nil => simp
    | cons p l ih =>
        intro t
        rw [List.foldl_cons, ih, has_insert, List.map_cons, List.mem_cons, Bool.or_eq_true,
          decide_eq_true_eq, or_left_comm, or_assoc]
  rw [← has_iff]
  exact (hfold l []).trans (by simp [has, find?])

end ApiSurface.Table

/-!
Tables: association lists in strictly ascending order of their keys, so that a table is determined
by its look-ups and lists its keys in order. Every operation keeps the order (`ascending_insert`,
`ascending_erase`, `ascending_filter`).
-/

namespace ApiSurface

/-- Pairs of a key and its entry. -/
abbrev Table (κ α : Type) := List (κ × α)

namespace Table

variable {κ α β : Type} [Ord κ]

/-- The keys, each smaller than the ones after it. -/
def Ascending (t : Table κ α) : Prop :=
  t.Pairwise fun a b => compare a.1 b.1 = .lt

/-- The entry of a key. -/
def find? (t : Table κ α) (k : κ) : Option α :=
  match t with
  | [] => none
  | (k', a) :: r => if compare k k' = .eq then some a else find? r k

/-- Whether a key has an entry. -/
def has (t : Table κ α) (k : κ) : Bool :=
  (find? t k).isSome

/-- Gives a key an entry, in place of the one it had. -/
def insert (t : Table κ α) (k : κ) (a : α) : Table κ α :=
  match t with
  | [] => [(k, a)]
  | (k', b) :: r =>
    match compare k k' with
    | .lt => (k, a) :: (k', b) :: r
    | .eq => (k, a) :: r
    | .gt => (k', b) :: insert r k a

/-- Takes the entry of a key away. -/
def erase (t : Table κ α) (k : κ) : Table κ α :=
  match t with
  | [] => []
  | (k', b) :: r => if compare k k' = .eq then r else (k', b) :: erase r k

omit [Ord κ] in
/-- The keys in order. -/
def keys (t : Table κ α) : List κ :=
  t.map Prod.fst

/-- The table of the pairs, where a later pair wins over an earlier one with its key. -/
def ofList (l : List (κ × α)) : Table κ α :=
  l.foldl (fun t p => insert t p.1 p.2) []

theorem mem_insert {t : Table κ α} {k : κ} {a : α} {p : κ × α} (h : p ∈ insert t k a) :
    p = (k, a) ∨ p ∈ t := by
  induction t with
  | nil => simpa [insert] using h
  | cons q r ih =>
    obtain ⟨k', b⟩ := q
    simp only [insert] at h
    split at h
    · simpa using h
    · rcases List.mem_cons.1 h with h | h
      · exact .inl h
      · exact .inr (List.mem_cons_of_mem _ h)
    · rcases List.mem_cons.1 h with h | h
      · exact .inr (h ▸ List.mem_cons_self)
      · exact (ih h).imp_right (List.mem_cons_of_mem _)

theorem ascending_nil : Ascending ([] : Table κ α) :=
  List.Pairwise.nil

theorem ascending_insert [Std.TransOrd κ] [Std.LawfulEqOrd κ] {t : Table κ α} (h : Ascending t)
    (k : κ) (a : α) : Ascending (insert t k a) := by
  induction t with
  | nil => simp [insert, Ascending]
  | cons q r ih =>
    obtain ⟨k', b⟩ := q
    have hr := List.pairwise_cons.1 h
    simp only [insert]
    split
    next hc =>
      refine List.pairwise_cons.2 ⟨?_, h⟩
      intro p hp
      rcases List.mem_cons.1 hp with rfl | hp
      · exact hc
      · exact Std.TransCmp.lt_trans hc (hr.1 p hp)
    next hc =>
      have : k = k' := Std.LawfulEqCmp.eq_of_compare hc
      subst this
      exact List.pairwise_cons.2 ⟨hr.1, hr.2⟩
    next hc =>
      refine List.pairwise_cons.2 ⟨?_, ih hr.2⟩
      intro p hp
      rcases mem_insert hp with rfl | hp
      · exact Std.OrientedCmp.gt_iff_lt.1 hc
      · exact hr.1 p hp

theorem erase_sublist (t : Table κ α) (k : κ) : (erase t k).Sublist t := by
  induction t with
  | nil => exact .slnil
  | cons q r ih =>
    simp only [erase]
    split
    · exact List.sublist_cons_self _ _
    · exact ih.cons_cons _

theorem ascending_erase {t : Table κ α} (h : Ascending t) (k : κ) : Ascending (erase t k) :=
  h.sublist (erase_sublist t k)

theorem ascending_filter {t : Table κ α} (h : Ascending t) (p : κ × α → Bool) :
    Ascending (t.filter p) :=
  h.sublist List.filter_sublist

theorem ascending_ofList [Std.TransOrd κ] [Std.LawfulEqOrd κ] (l : List (κ × α)) :
    Ascending (ofList l) := by
  suffices ∀ t : Table κ α, Ascending t → Ascending (l.foldl (fun t p => insert t p.1 p.2) t) from
    this [] ascending_nil
  induction l with
  | nil => exact fun _ h => h
  | cons p l ih => exact fun t h => ih _ (ascending_insert h _ _)

end Table

end ApiSurface

/-
# `ApiSurface.Proofs.Live.Lines` — prototypes followed to their end

A heap follows prototypes for as many steps as it has objects.  Where they come to an end, the end
is within that bound: a `Line` is followed link by link without any, no object is on it twice
(`Line.nodup`), and all but the last are objects of the heap (`Line.length_le`).  So what the heap
says about the prototypes of an object (`Line.chain_eq`) and about what it has under a name
(`Line.get_eq`) is what the line says.
-/
import ApiSurface.Proofs.Live.Extended

namespace ApiSurface.Live.Heap

variable {β : Type} {h : Heap β}

/-- The objects from one along its prototypes to one that has none. -/
inductive Line (h : Heap β) : Nat → List Nat → Prop
  | last {id : Nat} (ends : h.prototype? id = none) : Line h id [id]
  | next {id p : Nat} {line : List Nat} (step : h.prototype? id = some p) (rest : Line h p line) :
      Line h id (id :: line)

/-- What is found under a name along a line: the value that the first object to have the name has
there. -/
def along (h : Heap β) (line : List Nat) (key : String) : Value :=
  ((line.findSome? (h.own? · key)).bind Property.value?).getD .undefined

/-- Every chain of prototypes comes to an end. -/
def Grounded (h : Heap β) : Prop :=
  ∀ id, ∃ line, h.Line id line

namespace Line

variable {id : Nat} {line : List Nat}

theorem unique (hl : h.Line id line) : ∀ {line'}, h.Line id line' → line' = line := by
  induction hl with
  | last ends =>
      intro line' hl'
      cases hl' with
      | last => rfl
      | next step => cases ends.symm.trans step
  | next step rest ih =>
      intro line' hl'
      cases hl' with
      | last ends => cases ends.symm.trans step
      | next step' rest' =>
          cases step.symm.trans step'
          rw [ih rest']

/-- From every object of a line there is a line, no longer than the whole. -/
theorem exists_of_mem (hl : h.Line id line) {x : Nat} (hx : x ∈ line) :
    ∃ line', h.Line x line' ∧ line'.length ≤ line.length := by
  induction hl with
  | last ends =>
      obtain rfl := List.mem_singleton.mp hx
      exact ⟨_, .last ends, Nat.le_refl _⟩
  | next step rest ih =>
      rcases List.mem_cons.mp hx with rfl | hx
      · exact ⟨_, .next step rest, Nat.le_refl _⟩
      · obtain ⟨line', hl', hle⟩ := ih hx
        exact ⟨line', hl', Nat.le_succ_of_le hle⟩

/-- No object is on a line twice: the line from there on would be longer than itself. -/
theorem nodup (hl : h.Line id line) : line.Nodup := by
  induction hl with
  | last => exact List.nodup_singleton _
  | @next id p line step rest ih =>
      refine List.nodup_cons.mpr ⟨fun hmem => ?_, ih⟩
      obtain ⟨line', hl', hle⟩ := rest.exists_of_mem hmem
      rw [(Line.next step rest).unique hl', List.length_cons] at hle
      exact absurd hle (Nat.not_succ_le_self _)

/-- Whatever has a prototype is an object of the heap. -/
theorem dropLast_subset (hl : h.Line id line) :
    line.dropLast ⊆ List.range h.objects.size := by
  induction hl with
  | last => exact List.nil_subset _
  | @next id p line step rest ih =>
      have hne : line ≠ [] := by
        cases rest with
        | last => exact List.cons_ne_nil _ _
        | next => exact List.cons_ne_nil _ _
      rw [List.dropLast_cons_of_ne_nil hne]
      obtain ⟨o, ho, -⟩ := Option.bind_eq_some_iff.mp step
      exact List.cons_subset.mpr ⟨List.mem_range.mpr (lt_of_obj? ho), ih⟩

theorem length_le (hl : h.Line id line) : line.length ≤ h.objects.size + 1 := by
  have hnodup : line.dropLast.Nodup := hl.nodup.sublist (List.dropLast_sublist line)
  have hle := hnodup.length_le_of_subset hl.dropLast_subset
  rw [List.length_dropLast, List.length_range] at hle
  omega

theorem chainTo_eq (hl : h.Line id line) :
    ∀ {n : Nat}, line.length ≤ n + 1 → id :: h.chainTo n id = line := by
  induction hl with
  | last ends =>
      rintro (_ | n) _
      · rfl
      · rw [chainTo, ends]
  | @next id p line step rest ih =>
      rintro (_ | n) hn
      · cases rest <;> simp at hn
      · rw [chainTo, step]
        exact congrArg (id :: ·) (ih (Nat.le_of_succ_le_succ hn))

/-- **The prototypes of an object are those of its line.** -/
theorem chain_eq (hl : h.Line id line) : id :: h.chain id = line :=
  hl.chainTo_eq (Nat.le_succ_of_le hl.length_le)

/-- **What an object has under a name is what its line has there.** -/
theorem get_eq (hl : h.Line id line) (key : String) :
    h.get (.object id) key = h.along line key := by
  rw [get, chainFuel, lookup_eq, hl.chainTo_eq hl.length_le, along]

end Line

end ApiSurface.Live.Heap

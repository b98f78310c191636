/-
# `ApiSurface.Proofs.Declaration.Mapped` — looking names up in changed scopes

Every scope of a table is changed in the same way, and the change leaves alone the way through the
scopes: what each one stands in, and where its namespaces are (`Scope.KeepsWays`).  Then a look-up
goes to the same scope as before, and finds there what the change makes of the answer
(`lookup_map`).  An enumeration is looked at on the way to its members, so that the change has to
leave it one (`typeNamed?_map`).
-/
import ApiSurface.Declaration.Depth
import Mathlib.Data.List.Basic

namespace ApiSurface.Declaration

/-- The change leaves alone what the way through the scopes is read from. -/
structure Scope.KeepsWays (g : Scope → Scope) : Prop where
  parent : ∀ sc, (g sc).parent = sc.parent
  namespaces : ∀ sc, (g sc).namespaces = sc.namespaces

/-- The change keeps enumerations and their members, and makes no others. -/
structure TypeSymbol.KeepsEnums (τ : TypeSymbol → TypeSymbol) : Prop where
  ofEnum_iff : ∀ t e, τ t = .ofEnum e ↔ t = .ofEnum e
  enumMember : ∀ v, τ (.enumMember v) = .enumMember v

namespace Scopes

/-- Every scope is changed. -/
def map (s : Scopes) (g : Scope → Scope) : Scopes :=
  ⟨s.all.map g⟩

variable {g : Scope → Scope} (s : Scopes)

theorem get?_map (id : Nat) : (s.map g).get? id = (s.get? id).map g :=
  List.getElem?_map

/-! ## Look-ups -/

section

variable {α β : Type} {r : α → β} (hg : Scope.KeepsWays g)

include hg

theorem outward_map {f : Nat → Scope → Option α} {k : Nat → Scope → Option β}
    (hf : ∀ id sc, k id (g sc) = (f id sc).map r) (id : Nat) :
    (s.map g).outward k id = (s.outward f id).map r := by
  induction id using Nat.strongRecOn with
  | ind id ih =>
      rw [outward, outward, get?_map]
      cases s.get? id with
      | none => rfl
      | some sc =>
          simp only [Option.map_some, hf, hg.parent]
          cases f id sc with
          | some a => rfl
          | none =>
              cases sc.parent with
              | none => rfl
              | some p =>
                  simp only [Option.map_none]
                  split
                  next hlt => exact ih p hlt
                  · rfl

theorem find?_namespaces_map (id : Nat) (n : String) :
    ((s.map g).get? id).bind (fun sc => Table.find? sc.namespaces n) =
      (s.get? id).bind fun sc => Table.find? sc.namespaces n := by
  rw [get?_map, Option.bind_map]
  simp only [Function.comp_def, hg.namespaces]

theorem descend_map (names : List String) :
    ∀ id, (s.map g).descend id names = s.descend id names := by
  induction names with
  | nil => exact fun _ => rfl
  | cons n names ih =>
      intro id
      simp only [descend, s.find?_namespaces_map hg, ih]

theorem namespaceNamed?_map (start : Nat) (path : List String) :
    (s.map g).namespaceNamed? start path = s.namespaceNamed? start path := by
  cases path with
  | nil => rfl
  | cons n ns =>
      have hout := s.outward_map hg (f := fun _ sc => Table.find? sc.namespaces n)
        (k := fun _ sc => Table.find? sc.namespaces n) (r := id)
        (fun _ sc => by rw [hg.namespaces, Option.map_id, id]) start
      rw [Option.map_id, id] at hout
      simp only [namespaceNamed?, hout, s.descend_map hg]

theorem lookup_map {f : Nat → Scope → String → Option α} {k : Nat → Scope → String → Option β}
    (hf : ∀ id sc n, k id (g sc) n = (f id sc n).map r) (start : Nat) (parts : List String) :
    (s.map g).lookup start k parts = (s.lookup start f parts).map r := by
  unfold lookup
  split
  · rfl
  · exact s.outward_map hg (fun id sc => hf id sc _) start
  · rw [s.namespaceNamed?_map hg]
    cases s.namespaceNamed? start _ with
    | none => rfl
    | some id =>
        simp only [get?_map]
        cases s.get? id with
        | none => rfl
        | some sc => exact hf id sc _

theorem typeNamed?_map {τ : TypeSymbol → TypeSymbol} (hτ : TypeSymbol.KeepsEnums τ)
    (hf : ∀ id sc n, (g sc).typeNamed? id n = (sc.typeNamed? id n).map τ) (start : Nat)
    (path : List String) :
    (s.map g).typeNamed? start path = (s.typeNamed? start path).map τ := by
  have hparts : ∀ parts, (s.map g).typeOfParts? start parts =
      (s.typeOfParts? start parts).map τ := by
    intro parts
    induction parts with
    | nil => rfl
    | cons last owner ih =>
        have hlook := s.lookup_map hg (k := fun id sc n => sc.typeNamed? id n) hf start
          (last :: owner)
        rw [typeOfParts?, typeOfParts?, ih]
        cases s.typeOfParts? start owner with
        | none => exact hlook
        | some t =>
            rw [Option.map_some]
            cases ht : τ t with
            | ofEnum e =>
                rw [(hτ.ofEnum_iff t e).mp ht]
                dsimp only
                rw [Option.map_map]
                exact congrArg (fun f => Option.map f _) (funext fun m => (hτ.enumMember m.2).symm)
            | ofClass | ofInterface | ofAlias | enumMember =>
                cases t with
                | ofEnum e => cases ht.symm.trans ((hτ.ofEnum_iff _ e).mpr rfl)
                | ofClass | ofInterface | ofAlias | enumMember => exact hlook
  exact hparts path.reverse

theorem valueNamed?_map (hf : ∀ id sc n, (g sc).valueNamed? id n = sc.valueNamed? id n)
    (start : Nat) (path : List String) :
    (s.map g).valueNamed? start path = s.valueNamed? start path := by
  have hlook := s.lookup_map hg (f := fun id sc n => sc.valueNamed? id n)
    (k := fun id sc n => sc.valueNamed? id n) (r := id)
    (fun id sc n => by rw [hf, Option.map_id]; rfl) start path.reverse
  rw [Option.map_id] at hlook
  exact hlook

end

/-! ## What is counted -/

theorem count_map {f : Scope → Nat} (hf : ∀ sc, f (g sc) = f sc) :
    (s.map g).count f = s.count f := by
  simp only [count, map, List.foldr_map, hf]

theorem length_collect_map {α : Type} {f : Scope → Nat → List α}
    (hf : ∀ sc id, (f (g sc) id).length = (f sc id).length) :
    ((s.map g).all.zipIdx.flatMap fun p => f p.1 p.2).length =
      (s.all.zipIdx.flatMap fun p => f p.1 p.2).length := by
  simp only [map, List.zipIdx_map, List.flatMap_map, Prod.map, List.length_flatMap, hf, id]

end Scopes

end ApiSurface.Declaration

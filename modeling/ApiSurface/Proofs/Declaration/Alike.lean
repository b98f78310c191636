/-
# `ApiSurface.Proofs.Declaration.Alike` — conversion does not look at the exports

The scopes of a text say what is declared and what is exported.  Names are looked up among the
declarations alone, so scopes without their exports answer every look-up as before
(`typeNamed?_bare`), and worlds that are the same but for exports agree on all that conversions read
(`World.Alike.agree`).
-/
import ApiSurface.Proofs.Declaration.Agreeing
import ApiSurface.Proofs.Declaration.Mapped

namespace ApiSurface.Declaration

/-! ## Scopes without their exports -/

/-- A scope that exports nothing. -/
def Scope.bare (sc : Scope) : Scope :=
  { sc with exports := [] }

theorem Scope.keepsWays_bare : Scope.KeepsWays Scope.bare :=
  ⟨fun _ => rfl, fun _ => rfl⟩

namespace Scopes

/-- The scopes without their exports. -/
def bare (s : Scopes) : Scopes :=
  ⟨s.all.map Scope.bare⟩

theorem typeNamed?_bare (s : Scopes) : s.bare.typeNamed? = s.typeNamed? := by
  have hid : TypeSymbol.KeepsEnums id := ⟨fun _ _ => Iff.rfl, fun _ => rfl⟩
  funext start path
  rw [← Option.map_id_apply (x := s.typeNamed? start path)]
  exact s.typeNamed?_map Scope.keepsWays_bare hid (fun _ _ _ => Option.map_id_apply.symm) start path

theorem valueNamed?_bare (s : Scopes) : s.bare.valueNamed? = s.valueNamed? := by
  funext start path
  exact s.valueNamed?_map Scope.keepsWays_bare (fun _ _ _ => rfl) start path

end Scopes

/-! ## Worlds that are the same but for exports -/

/-- The worlds have the same declarations, and classes have the same names in them. -/
structure World.Alike (w w' : World) : Prop where
  scopes : w.scopes.bare = w'.scopes.bare
  className : w.className = w'.className

variable {w w' : World} (h : w.Alike w')

include h

namespace World.Alike

theorem typeNamed? : w.scopes.typeNamed? = w'.scopes.typeNamed? := by
  rw [← w.scopes.typeNamed?_bare, ← w'.scopes.typeNamed?_bare, h.scopes]

/-- What is counted in scopes without a look at the exports. -/
theorem count {f : Scope → Nat} (hf : ∀ sc, f sc.bare = f sc) :
    w.scopes.count f = w'.scopes.count f := by
  rw [← w.scopes.count_map hf, ← w'.scopes.count_map hf]
  exact congrArg (Scopes.count · f) h.scopes

/-- What is gathered in scopes without a look at the exports. -/
theorem length_collect {α : Type} {f : Scope → Nat → List α}
    (hf : ∀ sc id, f sc.bare id = f sc id) :
    (w.scopes.all.zipIdx.flatMap fun p => f p.1 p.2).length =
      (w'.scopes.all.zipIdx.flatMap fun p => f p.1 p.2).length := by
  have hlength : ∀ sc id, (f sc.bare id).length = (f sc id).length := fun sc id => by rw [hf]
  rw [← w.scopes.length_collect_map hlength, ← w'.scopes.length_collect_map hlength]
  exact congrArg (fun s : Scopes => (s.all.zipIdx.flatMap fun p => f p.1 p.2).length) h.scopes

/-- **Types are converted alike**, and so is all that is made of them. -/
theorem agree : w.Agree w' where
  typeNamed? := fun start path => h.typeNamed? ▸ .refl _
  valueNamed? := by
    rw [← w.scopes.valueNamed?_bare, ← w'.scopes.valueNamed?_bare, h.scopes]
  className := h.className
  interfaceCount := h.count fun _ => rfl
  aliasCount := h.count fun _ => rfl
  classCount := h.count fun _ => rfl
  depthFor := by
    have hexpandable : w.scopes.expandable.length = w'.scopes.expandable.length :=
      h.length_collect (f := fun sc id => sc.expandable id) fun _ _ => rfl
    have hplaces : w.scopes.places.length = w'.scopes.places.length :=
      h.length_collect (f := fun sc id => sc.places id) fun _ _ => rfl
    funext ty
    rw [World.depthFor, World.depthFor, hexpandable, hplaces]

end World.Alike

end ApiSurface.Declaration

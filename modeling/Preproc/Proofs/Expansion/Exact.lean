import Preproc.Proofs.Expansion.Accord

/-! # Streams that differ in nothing

Likeness with nothing left open: streams are alike if they differ in nothing that is still read.
Contexts with one table and the same diagnostics are akin, and moving alike streams in akin contexts
gives the same.
-/

namespace Preproc

open Engine (Kinship)

namespace Engine

/-- Contexts with one table and the same diagnostics. -/
def akin (table : MacroTable) (context context' : Context) : Prop :=
  context.table = table ∧ context'.table = table ∧ context'.sink = context.sink

theorem kinship_akin (table : MacroTable) : Kinship table (akin table) where
  first same := same.1
  second same := same.2.1
  traced same _ _ := same
  allocated same _ _ := same
  reported same _ _ := ⟨same.1, same.2.1, by simp only [same.2.2]⟩

end Engine

namespace Likeness

/-- Streams that differ in nothing that is still read. -/
def exact : Likeness where
  loose := False
  origins := Eq
  supplies _ _ := False

theorem same_exact {token token' : Token} : exact.Same token token' ↔ token' = token := by
  constructor
  · rintro (same | ⟨loose, _⟩)
    · exact same.symm
    · exact loose.elim
  · exact fun same => .inl same.symm

theorem lawful_exact (table : MacroTable) : exact.Lawful table where
  known := by
    rintro origin _ rfl
    rfl
  fresh _ _ := rfl
  places := by
    rintro entry _ op _ _ origin _ rfl
    rfl
  busy := False.elim
  finished := False.elim

theorem agree_exact {table : MacroTable} {kin : Context → Context → Prop}
    (kinship : Kinship table kin) (fuel : Nat) :
    exact.Agree kin (TokenStream.move fuel) (TokenStream.move fuel) := by
  have supplied : exact.Supplied kin 0 := ⟨False.elim, False.elim⟩
  exact agree_move (lawful_exact table) kinship supplied (Nat.le_refl _)

end Likeness

end Preproc

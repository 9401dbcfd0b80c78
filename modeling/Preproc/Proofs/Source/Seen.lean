import Mathlib.Data.List.Forall2
import Preproc.Proofs.Source.Scanned
import Preproc.Token.Spelling

/-! # What is seen of a place

Some things depend on where tokens stand, most do not. What is `seen` of a token is the whole of it
if it is placed, and everything but its place otherwise. Tokens are near each other if what is seen
of them is the same.
-/

namespace Preproc

open Source

namespace Location

def seen (placed : Bool) (place : Location) : Location :=
  if placed then place else .unknown

/-- Places of which the same is seen. -/
def Near (placed : Bool) (place place' : Location) : Prop :=
  place'.seen placed = place.seen placed

variable {placed : Bool} {place place' : Location}

theorem near_false (place place' : Location) : place.Near false place' :=
  rfl

end Location

namespace Token

def seen (placed : Bool) (token : Token) : Token :=
  token.relocated (token.location.seen placed)

/-- Tokens of which the same is seen. -/
def Near (placed : Bool) (token token' : Token) : Prop :=
  token'.seen placed = token.seen placed

variable {placed : Bool} {token token' : Token}

namespace Near

section

variable (near : token.Near placed token')

include near

theorem congr {α : Type} {read : Token → α}
    (blind : ∀ token : Token, read (token.seen placed) = read token) : read token' =
      read token := by
  rw [← blind token', ← blind token, near]

theorem kind : token'.kind = token.kind :=
  near.congr fun _ => rfl

theorem lexeme : token'.lexeme = token.lexeme :=
  near.congr fun _ => rfl

theorem leadingSpace : token'.leadingSpace = token.leadingSpace :=
  near.congr fun _ => rfl

theorem endsLine : token'.endsLine = token.endsLine :=
  near.congr fun _ => rfl

theorem isEof : token'.isEof = token.isEof :=
  near.congr fun _ => rfl

theorem isIdentifier : token'.isIdentifier = token.isIdentifier :=
  near.congr fun _ => rfl

theorem isPunctuator (text : String) : token'.isPunctuator text = token.isPunctuator text := by
  unfold Token.isPunctuator
  rw [near.kind, near.lexeme]

end

theorem mk (kind : token'.kind = token.kind) (lexeme : token'.lexeme = token.lexeme)
    (leadingSpace : token'.leadingSpace = token.leadingSpace)
    (place : token.location.Near placed token'.location) : token.Near placed token' := by
  unfold Near Token.seen Token.relocated
  rw [kind, lexeme, leadingSpace, place]

end Near

end Token

/-- Lists of tokens of which the same is seen. -/
abbrev NearTokens (placed : Bool) : List Token → List Token → Prop :=
  List.Forall₂ (Token.Near placed)

namespace NearTokens

variable {placed : Bool} {tokens tokens' : List Token}

theorem iff_map : NearTokens placed tokens tokens' ↔
    tokens'.map (Token.seen placed) = tokens.map (Token.seen placed) := by
  constructor
  · intro near
    induction near with
    | nil => rfl
    | cons here _ ih => rw [List.map_cons, List.map_cons, here, ih]
  · intro same
    induction tokens generalizing tokens' with
    | nil => simp_all
    | cons token tokens ih =>
      obtain ⟨token', rest, rfl, here, same⟩ := List.map_eq_cons_iff.mp same
      exact .cons here (ih same)

theorem exists_append {front back : List Token} (near : NearTokens placed (front ++ back) tokens) :
    ∃ front' back', tokens = front' ++ back' ∧ NearTokens placed front front' ∧
      NearTokens placed back back' := by
  have same := iff_map.mp near
  rw [List.map_append] at same
  obtain ⟨front', back', rfl, fronts, backs⟩ := List.map_eq_append_iff.mp same
  exact ⟨front', back', rfl, iff_map.mpr fronts, iff_map.mpr backs⟩

variable (near : NearTokens placed tokens tokens')

include near

/-- What does not change when only that is kept of tokens which is seen is the same for tokens that
are near each other. -/
theorem congr {α : Type} {read : List Token → α}
    (blind : ∀ tokens, read (tokens.map (Token.seen placed)) = read tokens) :
    read tokens' = read tokens := by
  rw [← blind tokens', ← blind tokens, iff_map.mp near]

theorem forall_mem {holds : Token → Prop}
    (blind : ∀ {token token' : Token}, token.Near placed token' → holds token → holds token')
    (each : ∀ token ∈ tokens, holds token) : ∀ token ∈ tokens', holds token := by
  induction near with
  | nil => simp
  | cons here _ ih =>
    rw [List.forall_mem_cons] at each ⊢
    exact ⟨blind here each.1, ih each.2⟩

theorem goingOn : NearTokens placed (tokens.filter fun token => !token.endsLine)
      (tokens'.filter fun token => !token.endsLine) := by
  induction near with
  | nil => exact .nil
  | cons here _ ih =>
    rw [List.filter_cons, List.filter_cons, here.endsLine]
    split
    · exact .cons here ih
    · exact ih

end NearTokens

namespace Token

variable {placed : Bool} {tokens tokens' : List Token}

theorem spell_near (near : NearTokens placed tokens tokens') : spell tokens' = spell tokens := by
  unfold spell
  have kept := near.goingOn
  generalize tokens.filter _ = front at kept ⊢
  generalize tokens'.filter _ = front' at kept ⊢
  cases kept with
  | nil => rfl
  | cons first rest =>
    dsimp only
    rw [first.lexeme]
    congr 2
    induction rest with
    | nil => rfl
    | cons here _ ih =>
      rw [List.map_cons, List.map_cons, ih]
      unfold spelledAfter
      rw [here.leadingSpace, here.lexeme]

end Token

end Preproc

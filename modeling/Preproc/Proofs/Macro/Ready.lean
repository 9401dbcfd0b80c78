import Preproc.Proofs.Macro.Playable

/-! # Macros that are ready to be played

Playback of a macro opens spans of its body and arguments of its parameters. A macro is ready if
all of these are there. Every macro that a definition line gives is ready, unless its ops end in a
paste.
-/

namespace Preproc

/-- Whether the span or the parameter of an op is one of its macro. -/
def Op.Within (definition : Macro) : Op → Prop
  | span first last => 0 ≤ first ∧ first ≤ last ∧ last ≤ definition.body.length
  | expanded _ parameter | unexpanded _ parameter | stringized _ parameter =>
    0 ≤ parameter ∧ parameter < definition.parameterCount
  | paste _ _ | line _ _ | file _ _ => True

namespace Macro

/-- The macros that lines give: the builtin ones, and those that a definition line gives with the
rest of the line as their body. -/
def Written (definition : Macro) : Prop :=
  definition = lineBuiltin ∨ definition = fileBuiltin ∨
    ∃ nameToken parameters body endLocation,
      (build nameToken parameters body endLocation).1 = .ok definition ∧
        ∀ token ∈ body, token.endsLine = false

/-- Whether all that playback looks up is there, and no end is among it. -/
structure Ready (definition : Macro) : Prop extends definition.Playable where
  within : ∀ op ∈ definition.ops, op.Within definition
  endless : ∀ token ∈ definition.body, token.isEof = false
  parameterless : definition.isFunctionLike = false → definition.parameters = []

variable {definition : Macro}

theorem parameters_of_build {nameToken : Token} {parameters : Option (List Parameter)}
    {body : List Token} {endLocation : Location}
    (built : (build nameToken parameters body endLocation).1 = .ok definition) :
    definition.parameters = parameters.getD [] ∧
      definition.isFunctionLike = parameters.isSome := by
  have same := eq_of_checked built
  rw [same]
  cases parameters <;> exact ⟨rfl, rfl⟩

theorem lt_parameterCount {names : List String} {body : List Token} {place number : Nat}
    (named : body[place]?.bind (Op.nameIndex names.idxOf?) = some number) :
    number < names.length := by
  obtain ⟨token, _, named⟩ := Option.bind_eq_some_iff.mp named
  unfold Op.nameIndex at named
  split at named
  · obtain ⟨inside, _⟩ := List.findIdx?_eq_some_iff_getElem.mp named
    exact inside
  · cases named

theorem within_of_placed {op : Op}
    (placed : op.Placed (Op.nameIndex (definition.parameters.map (·.name)).idxOf?)
      definition.body) : op.Within definition := by
  have counted {place number : Nat} (named : definition.body[place]?.bind
      (Op.nameIndex (definition.parameters.map (·.name)).idxOf?) = some number) :
      0 ≤ (number : Int) ∧ (number : Int) < definition.parameterCount := by
    have short := lt_parameterCount named
    rw [List.length_map] at short
    exact ⟨Int.natCast_nonneg number, Int.ofNat_lt.mpr short⟩
  obtain ⟨start, stop, covers⟩ := placed
  cases op with
  | span first last =>
    obtain ⟨rfl, rfl, ordered, inside, _⟩ := covers
    exact ⟨Int.natCast_nonneg start, Int.ofNat_le.mpr ordered, Int.ofNat_le.mpr inside⟩
  | expanded index parameter | unexpanded index parameter =>
    obtain ⟨_, _, number, rfl, named⟩ := covers
    exact counted named
  | stringized index parameter =>
    obtain ⟨_, _, _, number, rfl, named⟩ := covers
    exact counted named
  | paste index second => trivial
  | line first second => trivial
  | file first second => trivial

theorem Written.ready (written : definition.Written)
    (last : ∀ op ∈ definition.ops.getLast?, op.isPaste = false) : definition.Ready := by
  obtain rfl | rfl | ⟨nameToken, parameters, body, endLocation, built, inLine⟩ := written
  · exact ⟨Sound.playable (.inl rfl), by simp [lineBuiltin, Op.Within], by simp [lineBuiltin],
      fun _ => rfl⟩
  · exact ⟨Sound.playable (.inr (.inl rfl)), by simp [fileBuiltin, Op.Within],
      by simp [fileBuiltin],
      fun _ => rfl⟩
  · obtain ⟨sameBody, sameOps⟩ := ops_of_build built
    obtain ⟨sameParameters, flavor⟩ := parameters_of_build built
    refine ⟨(sound_of_build built last).playable, ?_, ?_, ?_⟩
    · intro op member
      apply within_of_placed
      rw [sameOps] at member
      rw [sameParameters, sameBody]
      exact Op.placed_compile _ _ body op member
    · intro token member
      rw [sameBody] at member
      have plain := inLine token member
      simp only [Token.endsLine, Bool.or_eq_false_iff] at plain
      exact plain.2
    · intro plain
      rw [flavor, Option.isSome_eq_false_iff, Option.isNone_iff_eq_none] at plain
      rw [sameParameters, plain]
      rfl

end Macro

end Preproc

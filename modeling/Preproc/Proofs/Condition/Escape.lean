import Preproc.Proofs.Condition.Parse

/-! # Conditions that stop at a constant

A character constant whose hexadecimal escape has digits that are no number, and a decimal constant
that is too long, stop the evaluation altogether, where every other malformed operand is an error of
the condition. No operator is spelled like a constant, so the parser either stops before such a
constant or reads it as an operand: the evaluation is stopped exactly if what comes before the
constant breaks off where a value is expected (`Preproc.Condition.evaluate_eq_badEscape_iff`).
-/

namespace Preproc.Condition

variable {token : Token}

theorem kind_of_unreadable (bad : unreadable token = true) : token.kind ≠ .punctuator := by
  intro isMark
  simp [unreadable, isMark] at bad

theorem isPunctuator_of_unreadable (bad : unreadable token = true)
    (text : String) : token.isPunctuator text = false := by
  simp [Token.isPunctuator, kind_of_unreadable bad]

section Extension

variable {culprit : Token} {rest : List Token}

/-- What is read from some tokens, when an unreadable constant and more tokens come after
them: the end of the tokens is no longer an end. -/
def extended (culprit : Token) (rest : List Token) : Parsed → Parsed
  | .ok (value, left) => .ok (value, left ++ culprit :: rest)
  | .error (.error .expectedValue) => .error .badEscape
  | .error (.error (.expectedBefore text none)) =>
    .error (.error (.expectedBefore text (some culprit)))
  | .error stop => .error stop

/-- Unless the fuel for the tokens alone was too short, reading goes on as it is extended. -/
def Extends (culprit : Token) (rest : List Token) (short long : Parsed) : Prop :=
  short = .error .outOfFuel ∨ long = extended culprit rest short

theorem Extends.bind {short long : Parsed} {next next' : Value × List Token → Parsed}
    (first : Extends culprit rest short long) (goesOn : ∀ value left,
      Extends culprit rest (next (value, left)) (next' (value, left ++ culprit :: rest))) :
    Extends culprit rest (short >>= next) (long >>= next') := by
  obtain empty | same := first
  · rw [empty]
    exact .inl rfl
  · rw [same]
    match short with
    | .ok (value, left) => exact goesOn value left
    | .error .outOfFuel => exact .inl rfl
    | .error .badEscape => exact .inr rfl
    | .error (.error error) =>
      right
      cases error with
      | expectedBefore text found => cases found <;> rfl
      | _ => rfl

theorem Extends.expect {text : String} {left : List Token} {next next' : List Token → Parsed}
    (bad : unreadable culprit = true)
    (goesOn : ∀ left, Extends culprit rest (next left) (next' (left ++ culprit :: rest))) :
    Extends culprit rest (expect text left >>= next)
      (expect text (left ++ culprit :: rest) >>= next') := by
  cases left with
  | nil =>
    right
    rw [List.nil_append, Condition.expect, Condition.expect, isPunctuator_of_unreadable bad]
    rfl
  | cons token left =>
    by_cases fits : token.isPunctuator text = true
    · simp only [List.cons_append, Condition.expect, fits, ↓reduceIte]
      exact goesOn left
    · right
      simp only [List.cons_append, Condition.expect, fits, Bool.false_eq_true, ↓reduceIte]
      rfl

theorem Extends.value (value : Value) (left : List Token) :
    Extends culprit rest (.ok (value, left)) (.ok (value, left ++ culprit :: rest)) :=
  .inr rfl

/-- With some fuel the five functions of the parser go on as extended, with more fuel too. -/
structure ExtendsAt (culprit : Token) (rest : List Token) (fuel : Nat) : Prop where
  conditional : ∀ ⦃more⦄, fuel ≤ more → ∀ evaluated tokens, Extends culprit rest
    (parseConditional fuel evaluated tokens)
    (parseConditional more evaluated (tokens ++ culprit :: rest))
  binary : ∀ ⦃more⦄, fuel ≤ more → ∀ level evaluated tokens, Extends culprit rest
    (parseBinary fuel level evaluated tokens)
    (parseBinary more level evaluated (tokens ++ culprit :: rest))
  chain : ∀ ⦃more⦄, fuel ≤ more → ∀ level evaluated left tokens, Extends culprit rest
    (parseRest fuel level evaluated left tokens)
    (parseRest more level evaluated left (tokens ++ culprit :: rest))
  unary : ∀ ⦃more⦄, fuel ≤ more → ∀ evaluated tokens, Extends culprit rest
    (parseUnary fuel evaluated tokens) (parseUnary more evaluated (tokens ++ culprit :: rest))
  primary : ∀ ⦃more⦄, fuel ≤ more → ∀ evaluated tokens, Extends culprit rest
    (parsePrimary fuel evaluated tokens) (parsePrimary more evaluated (tokens ++ culprit :: rest))

variable {fuel more : Nat}

theorem extends_primary (bad : unreadable culprit = true)
    (inside : ExtendsAt culprit rest fuel) (enough : fuel ≤ more) (evaluated : Bool)
    (tokens : List Token) : Extends culprit rest (parsePrimary (fuel + 1) evaluated tokens)
      (parsePrimary (more + 1) evaluated (tokens ++ culprit :: rest)) := by
  cases tokens with
  | nil =>
    right
    simp [parsePrimary, isPunctuator_of_unreadable bad, operand_eq_badEscape_iff.mpr bad, bind,
      Except.bind, extended]
  | cons token tokens =>
    rw [List.cons_append, parsePrimary, parsePrimary]
    by_cases opens : token.isPunctuator "(" = true
    · rw [if_pos opens, if_pos opens]
      apply Extends.bind (inside.conditional enough evaluated tokens)
      intro value left
      exact Extends.expect bad fun left => .value value left
    · rw [if_neg opens, if_neg opens]
      cases constant : operand token with
      | ok value => exact .value value tokens
      | error stop =>
        right
        unfold operand at constant
        split at constant
        · split at constant <;> cases constant <;> rfl
        · split at constant <;> cases constant <;> rfl
        · cases constant
        · cases constant
          rfl

theorem extends_unary (bad : unreadable culprit = true)
    (inside : ExtendsAt culprit rest fuel) (enough : fuel ≤ more) (evaluated : Bool)
    (tokens : List Token) : Extends culprit rest (parseUnary (fuel + 1) evaluated tokens)
      (parseUnary (more + 1) evaluated (tokens ++ culprit :: rest)) := by
  have primary := inside.primary enough evaluated tokens
  rw [parseUnary, parseUnary]
  cases tokens with
  | nil => simpa [unaryAt?, kind_of_unreadable bad] using primary
  | cons token tokens =>
    rw [List.cons_append, unaryAt?_cons, unaryAt?_cons]
    cases unaryOp? token with
    | none => exact primary
    | some op =>
      apply Extends.bind (inside.unary enough evaluated tokens)
      intro value left
      exact .value _ left

theorem extends_chain (bad : unreadable culprit = true)
    (inside : ExtendsAt culprit rest fuel) (enough : fuel ≤ more) (level : Nat) (evaluated : Bool)
    (left : Value) (tokens : List Token) :
    Extends culprit rest (parseRest (fuel + 1) level evaluated left tokens)
      (parseRest (more + 1) level evaluated left (tokens ++ culprit :: rest)) := by
  cases found : binaryAt? level tokens with
  | none =>
    have still : binaryAt? level (tokens ++ culprit :: rest) = none := by
      cases tokens with
      | nil => simp [binaryAt?, kind_of_unreadable bad]
      | cons token tokens =>
        rw [List.cons_append, binaryAt?_cons]
        rw [binaryAt?_cons] at found
        cases op : binaryOp? token with
        | none => rfl
        | some op => simp_all
    rw [parseRest, parseRest, found, still]
    exact .value left tokens
  | some operator =>
    obtain ⟨op, after⟩ := operator
    have still : binaryAt? level (tokens ++ culprit :: rest) =
        some (op, after ++ culprit :: rest) := by
      cases tokens with
      | nil => cases found
      | cons token tokens =>
        rw [List.cons_append, binaryAt?_cons]
        rw [binaryAt?_cons] at found
        cases sign : binaryOp? token with
        | none => simp_all
        | some op =>
          rw [sign, Option.bind_some] at found
          split at found <;> simp_all
    rw [parseRest_eq found, parseRest_eq still]
    apply Extends.bind (inside.binary enough (level + 1) _ after)
    intro right following
    dsimp only
    cases op.combine evaluated left right with
    | none => exact .inr rfl
    | some value => exact inside.chain enough level evaluated value following

theorem extends_binary (inside : ExtendsAt culprit rest fuel) (enough : fuel ≤ more)
    (level : Nat) (evaluated : Bool) (tokens : List Token) :
    Extends culprit rest (parseBinary (fuel + 1) level evaluated tokens)
      (parseBinary (more + 1) level evaluated (tokens ++ culprit :: rest)) := by
  rw [parseBinary, parseBinary]
  by_cases tightest : levelCount ≤ level
  · rw [if_pos tightest, if_pos tightest]
    exact inside.unary enough evaluated tokens
  · rw [if_neg tightest, if_neg tightest]
    apply Extends.bind (inside.binary enough (level + 1) evaluated tokens)
    intro value left
    exact inside.chain enough level evaluated value left

theorem extends_conditional (bad : unreadable culprit = true)
    (inside : ExtendsAt culprit rest fuel) (enough : fuel ≤ more) (evaluated : Bool)
    (tokens : List Token) : Extends culprit rest (parseConditional (fuel + 1) evaluated tokens)
      (parseConditional (more + 1) evaluated (tokens ++ culprit :: rest)) := by
  apply Extends.bind (inside.binary enough 0 evaluated tokens)
  intro condition left
  cases left with
  | nil =>
    simp only [List.nil_append, isPunctuator_of_unreadable bad, Bool.false_eq_true, ↓reduceIte]
    exact .value condition []
  | cons token left =>
    by_cases asks : token.isPunctuator "?" = true
    · simp only [List.cons_append, asks, ↓reduceIte]
      apply Extends.bind (inside.conditional enough _ left)
      intro whenTrue left
      apply Extends.expect bad
      intro left
      apply Extends.bind (inside.conditional enough _ left)
      intro whenFalse left
      exact .value _ left
    · simp only [List.cons_append, asks]
      exact .value condition (token :: left)

theorem extendsAt (bad : unreadable culprit = true) (rest : List Token) (fuel : Nat) :
    ExtendsAt culprit rest fuel := by
  induction fuel with
  | zero => constructor <;> intros <;> exact .inl rfl
  | succ fuel inside =>
    constructor
    · intro more enough
      obtain ⟨more, rfl⟩ := Nat.exists_eq_add_of_le' enough
      exact extends_conditional bad inside (Nat.le_add_left fuel more)
    · intro more enough
      obtain ⟨more, rfl⟩ := Nat.exists_eq_add_of_le' enough
      exact extends_binary inside (Nat.le_add_left fuel more)
    · intro more enough
      obtain ⟨more, rfl⟩ := Nat.exists_eq_add_of_le' enough
      exact extends_chain bad inside (Nat.le_add_left fuel more)
    · intro more enough
      obtain ⟨more, rfl⟩ := Nat.exists_eq_add_of_le' enough
      exact extends_unary bad inside (Nat.le_add_left fuel more)
    · intro more enough
      obtain ⟨more, rfl⟩ := Nat.exists_eq_add_of_le' enough
      exact extends_primary bad inside (Nat.le_add_left fuel more)

end Extension

/-- What is read from some tokens with the fuel for them tells what is read from more tokens with
the fuel for those. -/
theorem parse_append {culprit : Token} (bad : unreadable culprit = true)
    (front rest : List Token) :
    parseConditional (parseFuel (front ++ culprit :: rest).length) true
        (front ++ culprit :: rest) =
      extended culprit rest (parseConditional (parseFuel front.length) true front) := by
  have enough : parseFuel front.length ≤ parseFuel (front ++ culprit :: rest).length := by
    simp only [parseFuel, List.length_append]
    exact Nat.mul_le_mul_left _ (by omega)
  obtain empty | same := (extendsAt bad rest (parseFuel front.length)).conditional enough true front
  · have faithful := faithful_parseFuel front
    rw [empty] at faithful
    exact absurd trivial faithful
  · exact same

/-- Some tokens break off where a value is expected. -/
def AwaitsValue (front : List Token) : Prop :=
  front = [] ∨ evaluate front = .error (.error .expectedValue)

/-- A constant stops the evaluation: it is unreadable, and the tokens before it break off where a
value is expected. -/
def Stopped (tokens : List Token) : Prop :=
  ∃ front culprit rest, tokens.filter (fun token => !token.endsLine) = front ++ culprit :: rest ∧
    unreadable culprit = true ∧ AwaitsValue front

theorem awaitsValue_iff {front : List Token}
    (inLine : ∀ token ∈ front, (!token.endsLine) = true) :
    AwaitsValue front ↔
      parseConditional (parseFuel front.length) true front = .error (.error .expectedValue) := by
  by_cases present : front = []
  · subst present
    exact iff_of_true (.inl rfl) rfl
  · have whole : front.filter (fun token => !token.endsLine) = front :=
      List.filter_eq_self.mpr inLine
    rw [AwaitsValue, or_iff_right present, evaluate_of_ne_nil (by rwa [whole]), whole]
    match parseConditional (parseFuel front.length) true front with
    | .ok (value, []) => exact iff_of_false nofun nofun
    | .ok (value, token :: left) => exact iff_of_false nofun nofun
    | .error stop =>
      constructor
      · intro ends
        cases ends
        rfl
      · intro ends
        cases ends
        rfl

theorem awaitsValue_of_parse {line : List Token}
    (inLine : ∀ token ∈ line, (!token.endsLine) = true)
    (stops : parseConditional (parseFuel line.length) true line = .error .badEscape) :
    ∃ front culprit rest, line = front ++ culprit :: rest ∧ unreadable culprit = true ∧
      AwaitsValue front := by
  have faithful := faithful_parseFuel line
  rw [stops] at faithful
  obtain ⟨token, member, bad⟩ := faithful
  have present : (line.find? unreadable).isSome = true :=
    List.find?_isSome.mpr ⟨token, member, operand_eq_badEscape_iff.mp bad⟩
  obtain ⟨culprit, found⟩ := Option.isSome_iff_exists.mp present
  obtain ⟨bad, front, rest, rfl, fine⟩ := List.find?_eq_some_iff_append.mp found
  refine ⟨front, culprit, rest, rfl, bad, ?_⟩
  rw [awaitsValue_iff fun token member => inLine token (List.mem_append_left _ member)]
  rw [parse_append bad] at stops
  have faithful := faithful_parseFuel front
  match before : parseConditional (parseFuel front.length) true front, faithful with
  | .ok (value, left), _ => rw [before] at stops; cases stops
  | .error .outOfFuel, short => exact absurd trivial short
  | .error .badEscape, ⟨token, member, bad⟩ =>
    have := fine token member
    simp [operand_eq_badEscape_iff.mp bad] at this
  | .error (.error error), _ =>
    rw [before] at stops
    cases error with
    | expectedValue => rfl
    | expectedBefore text found => cases found <;> cases stops
    | _ => cases stops

/-- **Where evaluation stops.** The evaluation is stopped exactly by an unreadable constant that is
read as an operand. -/
theorem evaluate_eq_badEscape_iff (tokens : List Token) :
    evaluate tokens = .error .badEscape ↔ Stopped tokens := by
  have inLine : ∀ token ∈ tokens.filter (fun token => !token.endsLine),
      (!token.endsLine) = true := fun token member => (List.mem_filter.mp member).2
  constructor
  · intro stops
    have present : tokens.filter (fun token => !token.endsLine) ≠ [] := by
      intro empty
      simp only [evaluate, empty] at stops
      cases stops
    rw [evaluate_of_ne_nil present] at stops
    apply awaitsValue_of_parse inLine
    cases parsed : parseConditional (parseFuel _) true (tokens.filter _) with
    | ok found =>
      obtain ⟨value, left⟩ := found
      rw [parsed] at stops
      cases left <;> cases stops
    | error stop =>
      rw [parsed] at stops
      cases stops
      rfl
  · rintro ⟨front, culprit, rest, line, bad, awaits⟩
    rw [line] at inLine
    rw [awaitsValue_iff fun token member => inLine token (List.mem_append_left _ member)] at awaits
    rw [evaluate_of_ne_nil (by simp [line]), line, parse_append bad, awaits]
    rfl

theorem evaluate_ne_outOfFuel (tokens : List Token) : evaluate tokens ≠ .error .outOfFuel := by
  intro empty
  by_cases present : tokens.filter (fun token => !token.endsLine) = []
  · simp only [evaluate, present] at empty
    cases empty
  · rw [evaluate_of_ne_nil present] at empty
    have faithful := faithful_parseFuel (tokens.filter (fun token => !token.endsLine))
    cases parsed : parseConditional (parseFuel _) true
      (tokens.filter (fun token => !token.endsLine)) with
    | ok found =>
      obtain ⟨value, left⟩ := found
      rw [parsed] at empty
      cases left <;> cases empty
    | error stop =>
      rw [parsed] at empty faithful
      cases empty
      exact absurd trivial faithful

end Preproc.Condition

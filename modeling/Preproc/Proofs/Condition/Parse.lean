import Preproc.Proofs.Condition.Constant
import Preproc.Proofs.Condition.Unambiguous

/-! # Parsing a condition evaluates its tree

The parser evaluates while it parses. What it gives is what its tree gives: it accepts exactly the
yields of conditionals, and the value that it computes on the way is the lazy value of the tree
(`Preproc.Condition.evaluate_iff_tree`).
-/

namespace Preproc.Condition

theorem binaryAt?_cons (level : Nat) (token : Token) (rest : List Token) :
    binaryAt? level (token :: rest) = (binaryOp? token).bind fun op =>
      if op.level = level then some (op, rest) else none := by
  simp only [binaryAt?, binaryOp?]
  split
  · cases BinaryOp.ofLexeme? token.lexeme <;> rfl
  · rfl

theorem unaryAt?_cons (token : Token) (rest : List Token) :
    unaryAt? (token :: rest) = (unaryOp? token).map (·, rest) := by
  simp only [unaryAt?, unaryOp?]
  split <;> rfl

theorem operand_ne_outOfFuel (token : Token) : operand token ≠ .error .outOfFuel := by
  unfold operand
  split
  · split <;> simp
  · split <;> simp
  · simp
  · simp

variable {level fuel : Nat} {rest : List Token} {evaluated : Bool}

theorem Tree.Ends.binaryAt?_eq_none
    (ends : Tree.Ends (.binary level) rest) : binaryAt? level rest = none := by
  cases rest with
  | nil => rfl
  | cons token rest =>
    rw [binaryAt?_cons]
    cases found : binaryOp? token with
    | none => rfl
    | some op =>
      have less := ends op found
      simp [Nat.ne_of_lt less]

theorem Tree.Ends.tighter
    (ends : Tree.Ends (.binary level) rest) : Tree.Ends (.binary (level + 1)) rest := by
  cases rest with
  | nil => trivial
  | cons token rest => exact fun op found => Nat.lt_succ_of_lt (ends op found)

variable {tokens : List Token} {tree : Tree}

theorem parseRest_eq {left : Value}
    {op : BinaryOp} (found : binaryAt? level tokens = some (op, rest)) :
    parseRest (fuel + 1) level evaluated left tokens =
      parseBinary fuel (level + 1) (op.asks evaluated left) rest >>= fun (right, rest) =>
        match op.combine evaluated left right with
        | some value => parseRest fuel level evaluated value rest
        | none => .error (.error .divisionByZero) := by
  rcases op.or_and_other with rfl | rfl | ⟨notOr, notAnd⟩
  · rw [parseRest, found]
    rfl
  · rw [parseRest, found]
    rfl
  · have combines : op.combine evaluated left = op.apply evaluated left :=
      funext (BinaryOp.combine_eq_apply notOr notAnd evaluated left)
    rewrite [parseRest, found, BinaryOp.asks_other notOr notAnd, combines]
    cases op with
    | or => exact absurd rfl notOr
    | and => exact absurd rfl notAnd
    | _ => rfl

namespace Tree

/-- What parsing an expression gives: its eager value and what follows it, or a division by zero. -/
def parsed (tree : Tree) (evaluated : Bool) (rest : List Token) : Parsed :=
  match tree.eager evaluated with
  | some value => .ok (value, rest)
  | none => .error (.error .divisionByZero)

/-- A result that is the expected one unless the fuel has run out. -/
def Settles (result expected : Parsed) : Prop :=
  result = .error .outOfFuel ∨ result = expected

variable {result : Parsed} {goOn : Value × List Token → Parsed} {category : Category}

theorem Settles.trans {middle expected : Parsed} (first : Settles result middle)
    (rest : Settles middle expected) : Settles result expected := by
  rcases first with empty | rfl
  · exact .inl empty
  · exact rest

theorem Settles.bind {expected : Parsed} (first : Settles result (tree.parsed evaluated rest))
    (divides : tree.eager evaluated = none → expected = .error (.error .divisionByZero))
    (goes : ∀ value, tree.eager evaluated = some value → Settles (goOn (value, rest)) expected) :
    Settles (result >>= goOn) expected := by
  rcases first with rfl | rfl
  · exact .inl rfl
  unfold parsed
  cases computed : tree.eager evaluated with
  | none => exact .inr (divides computed).symm
  | some value => exact goes value computed

/-- An expression of a category is read as what it is. A chain of operators can be read up to any
of its links, and the rest of the level goes on from there. -/
def Reads : Category → Tree → Prop
  | .conditional, tree => ∀ fuel evaluated rest, Ends .conditional rest →
      Settles (parseConditional fuel evaluated (tree.yield ++ rest)) (tree.parsed evaluated rest)
  | .binary level, tree =>
    (∀ fuel evaluated rest, Ends (.binary level) rest →
      Settles (parseBinary fuel level evaluated (tree.yield ++ rest))
        (tree.parsed evaluated rest)) ∧
    (level < levelCount → ∀ fuel evaluated rest, Ends (.binary (level + 1)) rest →
      ∃ less, Settles (parseBinary fuel (level + 1) evaluated (tree.yield ++ rest) >>=
          fun (left, tokens) => parseRest fuel level evaluated left tokens)
        (tree.parsed evaluated rest >>=
          fun (left, tokens) => parseRest less level evaluated left tokens))
  | .unary, tree => ∀ fuel evaluated rest,
      Settles (parseUnary fuel evaluated (tree.yield ++ rest)) (tree.parsed evaluated rest)
  | .primary, tree => ∀ fuel evaluated rest,
      Settles (parsePrimary fuel evaluated (tree.yield ++ rest)) (tree.parsed evaluated rest)

theorem reads_leaf {token : Token} {value : Value} (constant : operand token = .ok value) :
    Reads .primary (.leaf token value) := by
  intro fuel evaluated rest
  cases fuel with
  | zero => exact .inl rfl
  | succ fuel =>
    have notOpening : token.isPunctuator "(" = false := by
      simp [Token.isPunctuator, kind_ne_punctuator constant]
    refine .inr ?_
    simp [yield, parsePrimary, notOpening, constant, parsed, eager, Functor.map, Except.map]

theorem reads_group {opening closing : Token} {inner : Tree}
    (opens : opening.isPunctuator "(" = true) (inside : Reads .conditional inner)
    (closes : closing.isPunctuator ")" = true) : Reads .primary (.group opening inner closing) := by
  intro fuel evaluated rest
  cases fuel with
  | zero => exact .inl rfl
  | succ fuel =>
    have read := inside fuel evaluated (closing :: rest)
      (ends_conditional_mark closes rfl (by decide) rest)
    simp only [yield, List.cons_append, List.append_assoc, List.nil_append, parsePrimary, opens,
      ↓reduceIte, parsed, eager]
    refine read.bind (fun missing => by rw [missing]) fun value computed => .inr ?_
    simp [computed, expect, closes, bind, Except.bind, pure, Except.pure]

theorem reads_signed {op : UnaryOp} {sign : Token} {operand : Tree}
    (isSign : unaryOp? sign = some op) (inside : Reads .unary operand) :
    Reads .unary (.unary op sign operand) := by
  intro fuel evaluated rest
  cases fuel with
  | zero => exact .inl rfl
  | succ fuel =>
    simp only [yield, List.cons_append, parseUnary, unaryAt?_cons, isSign, Option.map_some,
      parsed, eager]
    refine (inside fuel evaluated rest).bind (fun missing => by rw [missing]; rfl)
      fun value computed => ?_
    rw [computed]
    exact .inr rfl

theorem reads_primary (fits : Fits .primary tree) (inside : Reads .primary tree) :
    Reads .unary tree := by
  intro fuel evaluated rest
  cases fuel with
  | zero => exact .inl rfl
  | succ fuel =>
    have notSigned : unaryAt? (tree.yield ++ rest) = none := by
      cases tokens : tree.yield ++ rest with
      | nil => rfl
      | cons token others =>
        rw [unaryAt?_cons, Option.map_eq_none_iff]
        cases found : unaryOp? token with
        | none => rfl
        | some op => exact absurd tokens (fits.not_signed found)
    rw [parseUnary, notSigned]
    exact inside fuel evaluated rest

theorem reads_tightest (inside : Reads .unary tree) : Reads (.binary levelCount) tree := by
  refine ⟨?_, fun below => absurd below (Nat.lt_irrefl _)⟩
  intro fuel evaluated rest _
  cases fuel with
  | zero => exact .inl rfl
  | succ fuel =>
    exact inside fuel evaluated rest

theorem reads_binary (below : level < levelCount)
    (links : ∀ fuel evaluated rest, Ends (.binary (level + 1)) rest →
      ∃ less, Settles (parseBinary fuel (level + 1) evaluated (tree.yield ++ rest) >>=
          fun (left, tokens) => parseRest fuel level evaluated left tokens)
        (tree.parsed evaluated rest >>=
          fun (left, tokens) => parseRest less level evaluated left tokens)) :
    Reads (.binary level) tree := by
  refine ⟨?_, fun _ => links⟩
  intro fuel evaluated rest ends
  cases fuel with
  | zero => exact .inl rfl
  | succ fuel =>
    rw [parseBinary, if_neg (Nat.not_le_of_lt below)]
    obtain ⟨less, read⟩ := links fuel evaluated rest ends.tighter
    refine read.trans (.bind (.inr rfl) (fun missing => by rw [parsed, missing])
      fun value computed => ?_)
    cases less with
    | zero => exact .inl rfl
    | succ less =>
      refine .inr ?_
      simp [parsed, computed, parseRest, ends.binaryAt?_eq_none]

theorem reads_tighter (below : level < levelCount)
    (inside : Reads (.binary (level + 1)) tree) : Reads (.binary level) tree := by
  refine reads_binary below fun fuel evaluated rest ends => ⟨fuel, ?_⟩
  rcases inside.1 fuel evaluated rest ends with empty | read
  · rw [empty]
    exact .inl rfl
  · rw [read]
    exact .inr rfl

theorem reads_applied {op : BinaryOp} {left right : Tree} {sign : Token}
    (isSign : binaryOp? sign = some op) (leftReads : Reads (.binary op.level) left)
    (rightReads : Reads (.binary (op.level + 1)) right) :
    Reads (.binary op.level) (.binary op left sign right) := by
  have below := op.level_lt
  refine reads_binary below fun fuel evaluated rest ends => ?_
  have signEnds : Ends (.binary (op.level + 1)) (sign :: (right.yield ++ rest)) := by
    intro other found
    rw [isSign] at found
    cases found
    exact Nat.lt_succ_self _
  have found : binaryAt? op.level (sign :: (right.yield ++ rest)) =
      some (op, right.yield ++ rest) := by
    simp [binaryAt?_cons, isSign]
  obtain ⟨less, empty | read⟩ :=
    leftReads.2 below fuel evaluated (sign :: (right.yield ++ rest)) signEnds
  · refine ⟨0, .inl ?_⟩
    rw [yield, List.append_assoc]
    exact empty
  · rw [yield, List.append_assoc, List.cons_append, read]
    simp only [parsed, eager]
    cases left.eager evaluated with
    | none => exact ⟨0, .inr rfl⟩
    | some first =>
      cases less with
      | zero => exact ⟨0, .inl rfl⟩
      | succ less =>
        refine ⟨less, ?_⟩
        simp only [bind, Except.bind, parseRest_eq found, Option.bind_some]
        refine (rightReads.1 less (op.asks evaluated first) rest ends).bind
          (fun missing => by rw [missing]; rfl) fun second computed => .inr ?_
        simp only [computed, Option.bind_some]
        cases op.combine evaluated first second <;> rfl

theorem reads_plain (inside : Reads (.binary 0) tree) : Reads .conditional tree := by
  intro fuel evaluated rest ends
  cases fuel with
  | zero => exact .inl rfl
  | succ fuel =>
    rw [parseConditional]
    refine (inside.1 fuel evaluated rest ends.binary_of_conditional).bind
      (fun missing => by rw [parsed, missing]) fun value computed => .inr ?_
    rw [parsed, computed]
    cases rest with
    | nil => rfl
    | cons token rest => simp [ends.2, pure, Except.pure]

theorem reads_choice {condition whenTrue whenFalse : Tree} {question colon : Token}
    (conditionReads : Reads (.binary 0) condition) (asks : question.isPunctuator "?" = true)
    (trueReads : Reads .conditional whenTrue) (divides : colon.isPunctuator ":" = true)
    (falseReads : Reads .conditional whenFalse) :
    Reads .conditional (.choice condition question whenTrue colon whenFalse) := by
  intro fuel evaluated rest ends
  cases fuel with
  | zero => exact .inl rfl
  | succ fuel =>
    simp only [yield, List.append_assoc, List.cons_append, parseConditional, parsed, eager]
    refine (conditionReads.1 fuel evaluated _ (ends_binary_question asks _)).bind
      (fun missing => by rw [missing]; rfl) fun decided computed => ?_
    simp only [computed, asks, ↓reduceIte, Option.bind_eq_bind, Option.bind_some]
    have divided := ends_conditional_mark divides rfl (by decide) (whenFalse.yield ++ rest)
    refine (trueReads fuel (evaluated && decided.isTrue) _ divided).bind
      (fun missing => by rw [missing]; rfl) fun first computed => ?_
    simp only [computed, expect, divides, ↓reduceIte, Option.bind_some]
    simp only [bind, Except.bind]
    refine (falseReads fuel (evaluated && !decided.isTrue) rest ends).bind
      (fun missing => by rw [missing]; rfl) fun second computed => ?_
    rw [computed]
    exact .inr rfl

/-- **Completeness.** Every expression is read as what it is. -/
theorem Fits.reads (fits : Fits category tree) : Reads category tree := by
  induction fits with
  | leaf constant => exact reads_leaf constant
  | group opens _ closes inside => exact reads_group opens inside closes
  | primary fits inside => exact reads_primary fits inside
  | signed isSign _ inside => exact reads_signed isSign inside
  | unary _ inside => exact reads_tightest inside
  | tighter below _ inside => exact reads_tighter below inside
  | applied isSign _ _ leftReads rightReads => exact reads_applied isSign leftReads rightReads
  | plain _ inside => exact reads_plain inside
  | choice _ asks _ divides _ conditionReads trueReads falseReads =>
    exact reads_choice conditionReads asks trueReads divides falseReads

theorem yield_length_pos (tree : Tree) : 0 < tree.yield.length := by
  cases tree <;> simp only [yield, List.length_append, List.length_cons] <;> omega

/-- What reading an expression of a category may give: a value with the tree that has it, an error,
an unreadable constant among the tokens, or the end of the fuel unless there was enough of it. -/
def Faithful (category : Category) (evaluated : Bool) (tokens : List Token) (enough : Prop) :
    Parsed → Prop
  | .ok (value, rest) => ∃ tree, Fits category tree ∧ tree.yield ++ rest = tokens ∧
      tree.eager evaluated = some value
  | .error (.error _) => True
  | .error .badEscape => ∃ token ∈ tokens, operand token = .error .badEscape
  | .error .outOfFuel => ¬ enough

theorem Faithful.bind {next : Category} {other : Bool} {whole : List Token} {enough most : Prop}
    (first : Faithful category evaluated tokens enough result)
    (part : ∀ token ∈ tokens, token ∈ whole) (fuel : most → enough)
    (rest : ∀ tree value rest, Fits category tree → tree.yield ++ rest = tokens →
      tree.eager evaluated = some value → Faithful next other whole most (goOn (value, rest))) :
    Faithful next other whole most (result >>= goOn) := by
  match result, first with
  | .ok (value, after), ⟨tree, fits, yields, computed⟩ =>
    exact rest tree value after fits yields computed
  | .error (.error _), _ => trivial
  | .error .badEscape, ⟨token, member, bad⟩ => exact ⟨token, part token member, bad⟩
  | .error .outOfFuel, short => exact fun much => short (fuel much)

theorem Faithful.imp {wider : Category} {enough most : Prop}
    (faithful : Faithful category evaluated tokens enough result)
    (widen : ∀ tree, Fits category tree → Fits wider tree) (fuel : most → enough) :
    Faithful wider evaluated tokens most result := by
  match result, faithful with
  | .ok (value, after), ⟨tree, fits, yields, computed⟩ =>
    exact ⟨tree, widen tree fits, yields, computed⟩
  | .error (.error _), _ => trivial
  | .error .badEscape, bad => exact bad
  | .error .outOfFuel, short => exact fun much => short (fuel much)

/-- Every parser is faithful with some fuel. Between two tokens a parse goes through each category
at most once, which bounds the fuel that it takes. -/
structure FaithfulAt (fuel : Nat) : Prop where
  conditional : ∀ evaluated tokens, Faithful .conditional evaluated tokens
    (15 * tokens.length + 14 ≤ fuel) (parseConditional fuel evaluated tokens)
  binary : ∀ level evaluated tokens, level ≤ levelCount → Faithful (.binary level) evaluated tokens
    (15 * tokens.length + 13 ≤ fuel + level) (parseBinary fuel level evaluated tokens)
  rest : ∀ level evaluated left value tokens, level < levelCount → Fits (.binary level) left →
    left.eager evaluated = some value → Faithful (.binary level) evaluated (left.yield ++ tokens)
      (15 * tokens.length + 1 ≤ fuel) (parseRest fuel level evaluated value tokens)
  unary : ∀ evaluated tokens, Faithful .unary evaluated tokens
    (15 * tokens.length + 2 ≤ fuel) (parseUnary fuel evaluated tokens)
  primary : ∀ evaluated tokens, Faithful .primary evaluated tokens
    (15 * tokens.length + 1 ≤ fuel) (parsePrimary fuel evaluated tokens)

section

variable (inside : FaithfulAt fuel)

include inside

theorem faithful_primary (evaluated : Bool)
    (tokens : List Token) : Faithful .primary evaluated tokens
      (15 * tokens.length + 1 ≤ fuel + 1) (parsePrimary (fuel + 1) evaluated tokens) := by
  cases tokens with
  | nil => trivial
  | cons token rest =>
    rw [parsePrimary]
    split
    · rename_i opens
      refine .bind (inside.conditional evaluated rest)
        (fun token member => by simp [member])
        (by simp only [List.length_cons]; omega) fun tree value after fits yields computed => ?_
      cases after with
      | nil => trivial
      | cons closing after =>
        by_cases closes : closing.isPunctuator ")" = true
        · simp only [expect, closes, ↓reduceIte]
          refine ⟨.group token tree closing, .group opens fits closes, ?_, computed⟩
          simp [yield, ← yields]
        · simp [expect, closes, bind, Except.bind, Faithful]
    · cases constant : operand token with
      | ok value => exact ⟨.leaf token value, .leaf constant, rfl, rfl⟩
      | error stop =>
        cases stop with
        | error _ => trivial
        | badEscape => exact ⟨token, by simp, constant⟩
        | outOfFuel => exact absurd constant (operand_ne_outOfFuel token)

theorem faithful_unary (evaluated : Bool) (tokens : List Token) : Faithful .unary evaluated tokens
      (15 * tokens.length + 2 ≤ fuel + 1) (parseUnary (fuel + 1) evaluated tokens) := by
  rw [parseUnary]
  cases found : unaryAt? tokens with
  | none =>
    exact .imp (inside.primary evaluated tokens) (fun tree => .primary) (by omega)
  | some pair =>
    obtain ⟨op, rest⟩ := pair
    cases tokens with
    | nil => cases found
    | cons sign others =>
      rw [unaryAt?_cons, Option.map_eq_some_iff] at found
      obtain ⟨_, isSign, same⟩ := found
      cases same
      refine .bind (inside.unary evaluated rest)
        (fun token member => by simp [member]) (by simp only [List.length_cons]; omega)
        fun tree value after fits yields computed => ?_
      refine ⟨.unary op sign tree, .signed isSign fits, ?_, ?_⟩
      · simp [yield, ← yields]
      · simp [eager, computed]

theorem faithful_rest (level : Nat) (evaluated : Bool)
    (left : Tree) (value : Value) (tokens : List Token) (below : level < levelCount)
    (fits : Fits (.binary level) left) (computed : left.eager evaluated = some value) :
    Faithful (.binary level) evaluated (left.yield ++ tokens)
      (15 * tokens.length + 1 ≤ fuel + 1) (parseRest (fuel + 1) level evaluated value tokens) := by
  cases found : binaryAt? level tokens with
  | none =>
    rw [parseRest, found]
    exact ⟨left, fits, rfl, computed⟩
  | some pair =>
    obtain ⟨op, rest⟩ := pair
    cases tokens with
    | nil => cases found
    | cons sign others =>
      have signed := found
      rw [binaryAt?_cons, Option.bind_eq_some_iff] at signed
      obtain ⟨_, isSign, same⟩ := signed
      split at same
      · rename_i isLevel
        cases same
        subst isLevel
        rw [parseRest_eq found]
        refine .bind (inside.binary (op.level + 1) (op.asks evaluated value) rest below)
          (fun token member => by simp [member]) (by simp only [List.length_cons]; omega)
          fun right second after rightFits yields rightComputed => ?_
        dsimp only
        cases combined : op.combine evaluated value second with
        | none => trivial
        | some result =>
          have again := inside.rest op.level evaluated (.binary op left sign right) result
            after below (.applied isSign fits rightFits) (by
              simp [eager, computed, rightComputed, combined])
          rw [← yields]
          simp only [yield, List.append_assoc, List.cons_append] at again
          refine .imp again (fun _ fits => fits) ?_
          simp only [List.length_cons, List.length_append]
          omega
      · cases same

theorem faithful_binary (level : Nat) (evaluated : Bool)
    (tokens : List Token) (bounded : level ≤ levelCount) : Faithful (.binary level) evaluated tokens
      (15 * tokens.length + 13 ≤ fuel + 1 + level)
      (parseBinary (fuel + 1) level evaluated tokens) := by
  rw [parseBinary]
  split
  · rename_i tightest
    cases Nat.le_antisymm bounded tightest
    exact .imp (inside.unary evaluated tokens) (fun tree => .unary) (by
      simp only [levelCount]
      omega)
  · rename_i notTightest
    have below : level < levelCount := Nat.lt_of_not_le notTightest
    refine .bind (inside.binary (level + 1) evaluated tokens below)
      (fun token member => member) (by omega) fun tree value after fits yields computed => ?_
    have rest := inside.rest level evaluated tree value after below (.tighter below fits) computed
    rw [yields] at rest
    refine .imp rest (fun _ fits => fits) ?_
    rw [← yields, List.length_append]
    simp only [levelCount] at bounded
    omega

theorem faithful_conditional (evaluated : Bool)
    (tokens : List Token) : Faithful .conditional evaluated tokens
      (15 * tokens.length + 14 ≤ fuel + 1) (parseConditional (fuel + 1) evaluated tokens) := by
  refine .bind (inside.binary 0 evaluated tokens (Nat.zero_le _))
    (fun token member => member) (by omega) fun condition decided after fits yields computed => ?_
  subst yields
  cases after with
  | nil => exact ⟨condition, .plain fits, rfl, computed⟩
  | cons question rest =>
    dsimp only
    split
    · rename_i asks
      refine .bind (inside.conditional (evaluated && decided.isTrue) rest)
        (fun token member => by simp [member])
        (by simp only [List.length_append, List.length_cons]; omega)
        fun whenTrue first after trueFits yields trueComputed => ?_
      subst yields
      cases after with
      | nil => trivial
      | cons colon rest =>
        by_cases divides : colon.isPunctuator ":" = true
        · simp only [expect, divides, ↓reduceIte]
          refine .bind (inside.conditional (evaluated && !decided.isTrue) rest)
            (fun token member => by simp [member])
            (by simp only [List.length_append, List.length_cons]; omega)
            fun whenFalse second after falseFits yields falseComputed => ?_
          subst yields
          refine ⟨.choice condition question whenTrue colon whenFalse,
            .choice fits asks trueFits divides falseFits, ?_, ?_⟩
          · simp [yield]
          · simp [eager, computed, trueComputed, falseComputed]
        · simp [expect, divides, bind, Except.bind, Faithful]
    · exact ⟨condition, .plain fits, rfl, computed⟩

end

/-- **Soundness.** What is read is an expression, and the fuel suffices. -/
theorem faithfulAt (fuel : Nat) : FaithfulAt fuel := by
  induction fuel with
  | zero =>
    constructor
    · intro evaluated tokens
      exact fun much => by omega
    · intro level evaluated tokens bounded
      exact fun much => by simp only [levelCount] at bounded; omega
    · intro level evaluated left value tokens _ _ _
      exact fun much => by omega
    · intro evaluated tokens
      exact fun much => by omega
    · intro evaluated tokens
      exact fun much => by omega
  | succ fuel inside =>
    exact ⟨faithful_conditional inside, faithful_binary inside, faithful_rest inside,
      faithful_unary inside, faithful_primary inside⟩

end Tree

/-- Whether a token is a constant that cannot be read: the digits of its escape are no number, or it
is decimal and too long. -/
def unreadable (token : Token) : Bool :=
  token.kind == .character && characterConstant token.lexeme.toList == .badEscape ||
    token.kind == .number && integerConstant token.lexeme.toList == .tooLong

theorem operand_eq_badEscape_iff {token : Token} :
    operand token = .error .badEscape ↔ unreadable token = true := by
  unfold operand unreadable
  split
  next isNumber => cases integerConstant token.lexeme.toList <;> simp [isNumber]
  next isCharacter => cases characterConstant token.lexeme.toList <;> simp [isCharacter]
  next isName => simp [isName]
  next other _ _ => simp_all

theorem evaluate_of_ne_nil (present : tokens.filter (fun token => !token.endsLine) ≠ []) :
    evaluate tokens =
      parseConditional (parseFuel (tokens.filter (fun token => !token.endsLine)).length) true
        (tokens.filter (fun token => !token.endsLine)) >>= fun (value, rest) =>
          match rest with
          | [] => .ok value.value
          | token :: _ => .error (.error (.unexpectedToken token)) := by
  unfold evaluate
  cases filtered : tokens.filter (fun token => !token.endsLine) with
  | nil => exact absurd filtered present
  | cons token rest => rfl

theorem faithful_parseFuel (tokens : List Token) :
    Tree.Faithful .conditional true tokens True
      (parseConditional (parseFuel tokens.length) true tokens) := by
  refine Tree.Faithful.imp ((Tree.faithfulAt _).conditional true tokens) (fun _ fits => fits) ?_
  simp only [parseFuel, levelCount]
  omega

theorem evaluate_of_tree {value : Value} (fits : Tree.Fits .conditional tree)
    (yields : tree.yield = tokens.filter (fun token => !token.endsLine))
    (computed : tree.value? = some value) : evaluate tokens = .ok value.value := by
  have positive := tree.yield_length_pos
  have present : tokens.filter (fun token => !token.endsLine) ≠ [] := by
    rw [← yields]
    exact List.length_pos_iff.mp positive
  rw [evaluate_of_ne_nil present, ← yields]
  have faithful := faithful_parseFuel tree.yield
  rcases fits.reads (parseFuel tree.yield.length) true [] trivial with empty | read
  · rw [List.append_nil] at empty
    rw [empty] at faithful
    exact absurd trivial faithful
  · rw [List.append_nil, Tree.parsed, Tree.eager_true, computed] at read
    rw [read]
    rfl

theorem tree_of_evaluate {result : Int} (success : evaluate tokens = .ok result) :
    ∃ tree value, Tree.Fits .conditional tree ∧
      tree.yield = tokens.filter (fun token => !token.endsLine) ∧
      tree.value? = some value ∧ value.value = result := by
  by_cases present : tokens.filter (fun token => !token.endsLine) = []
  · simp only [evaluate, present] at success
    cases success
  · rw [evaluate_of_ne_nil present] at success
    have faithful := faithful_parseFuel (tokens.filter (fun token => !token.endsLine))
    match parsed : parseConditional _ true (tokens.filter (fun token => !token.endsLine)),
      faithful with
    | .error _, _ =>
      rw [parsed] at success
      cases success
    | .ok (value, rest), ⟨tree, fits, yields, computed⟩ =>
      rw [parsed] at success
      cases rest with
      | nil =>
        refine ⟨tree, value, fits, ?_, ?_, Except.ok.inj success⟩
        · rw [← yields, List.append_nil]
        · rw [← Tree.eager_true, computed]
      | cons token rest => cases success

theorem evaluate_ok_or_error (tokens : List Token) :
    (∃ result, evaluate tokens = .ok result) ∨
      (∃ error, evaluate tokens = .error (.error error)) ∨
      evaluate tokens = .error .badEscape ∧ ∃ token ∈ tokens, unreadable token = true := by
  by_cases present : tokens.filter (fun token => !token.endsLine) = []
  · exact .inr (.inl ⟨.missingExpression, by simp only [evaluate, present]⟩)
  · rw [evaluate_of_ne_nil present]
    have faithful := faithful_parseFuel (tokens.filter (fun token => !token.endsLine))
    match parseConditional _ true (tokens.filter (fun token => !token.endsLine)), faithful with
    | .ok (value, []), _ => exact .inl ⟨value.value, rfl⟩
    | .ok (value, token :: _), _ => exact .inr (.inl ⟨.unexpectedToken token, rfl⟩)
    | .error (.error error), _ => exact .inr (.inl ⟨error, rfl⟩)
    | .error .badEscape, ⟨token, member, bad⟩ =>
      exact .inr (.inr ⟨rfl, token, (List.mem_filter.mp member).1, operand_eq_badEscape_iff.mp bad⟩)
    | .error .outOfFuel, short => exact absurd trivial short

/-- The condition `0 ? 1 / 0 : '\x41' == 65u || 1 % 0`, in which neither division is evaluated. -/
def unaskedDivisions : List Token :=
  [(.number, "0"), (.punctuator, "?"), (.number, "1"), (.punctuator, "/"), (.number, "0"),
    (.punctuator, ":"), (.character, "'\\x41'"), (.punctuator, "=="), (.number, "65u"),
    (.punctuator, "||"), (.number, "1"), (.punctuator, "%"), (.number, "0")].map
      fun (kind, lexeme) => { kind, lexeme, location := .unknown }

theorem evaluate_of_tooLong {token : Token} (isNumber : token.kind = .number)
    (long : integerConstant token.lexeme.toList = .tooLong) :
    evaluate [token] = .error .badEscape := by
  have stops : operand token = .error .badEscape := by simp [operand, isNumber, long]
  simp [evaluate, parseFuel, levelCount, parseConditional, parseBinary, parseUnary, parsePrimary,
    unaryAt?, Token.endsLine, Token.isPunctuator, isNumber, stops, bind, Except.bind]

end Preproc.Condition

import Preproc.Proofs.Condition.Parse
import Preproc.Proofs.Condition.Word

/-! # The types of conditions

The C standard computes a condition over integer constants in words of 64 bits. Which of them are
unsigned is a typing: it says which constants are unsigned and whether a shift is; for all other
operators the usual conversions say it. The typing of the standard makes a large hexadecimal or
octal constant unsigned without a mark, and gives a shift the type of its left operand
(`Typing.standard`). Evaluation has a typing of its own: a constant is unsigned if it is marked, and
a shift if either operand is (`Typing.marked`). Evaluation is the value of the tree in the second
one, so it is that of the standard wherever no part of the tree is typed otherwise.
-/

namespace Preproc.Condition

/-- What makes constants and shifts unsigned. -/
structure Typing where
  /-- Whether a constant is unsigned, given its text and its value. -/
  constant : List Char → Nat → Bool
  /-- Whether a shift is unsigned, given whether its operands are. -/
  shift : Bool → Bool → Bool

namespace Typing

/-- The typing of the standard: what does not fit a signed word is unsigned, unless it is decimal,
and a shift has the type of its left operand. -/
def standard : Typing where
  constant text value :=
    isUnsignedConstant text || (decide (Nat.pow 2 63 ≤ value) && text.head? == some '0')
  shift left _ := left

/-- The typing of evaluation: constants are unsigned by their mark only, and a shift goes by the
usual conversions. -/
def marked : Typing where
  constant text _ := isUnsignedConstant text
  shift left right := left || right

/-- The word of a constant or an identifier; identifiers are zero. -/
def word (typing : Typing) (token : Token) : Word :=
  if token.kind == .number then
    (integer? token.lexeme.toList).elim ⟨0, false⟩ fun value =>
      ⟨BitVec.ofNat 64 value, typing.constant token.lexeme.toList value⟩
  else ⟨0, false⟩

end Typing

/-- Whether a token is an identifier, or an integer constant that has a type: it fits a signed word,
or is unsigned and fits a word. -/
def isIntegerOperand (token : Token) : Bool :=
  token.kind == .identifier ||
    token.kind == .number && (integer? token.lexeme.toList).any fun value =>
      decide (value < if Typing.standard.constant token.lexeme.toList value then Nat.pow 2 64
        else Nat.pow 2 63)

namespace BinaryOp

/-- Whether the operator moves bits. -/
def shifts : BinaryOp → Bool
  | .shiftLeft | .shiftRight => true
  | _ => false

/-- Whether a logical operator needs no second operand. -/
def decidedBy (op : BinaryOp) (first : Word) : Bool :=
  match op with
  | .and => !first.isTrue
  | .or => first.isTrue
  | _ => false

/-- A word moved by another one in a given signedness. No bits are moved by a negative amount, or by
the width of a word. -/
def shiftWord (op : BinaryOp) (isUnsigned : Bool) (left right : Word) : Option Word :=
  if 0 ≤ right.value ∧ right.value < 64 then
    let left := left.taken isUnsigned
    some (if op == .shiftLeft then left.shiftedLeft right.value.toNat
      else left.shiftedRight right.value.toNat)
  else none

end BinaryOp

variable {tree : Tree}

namespace Tree

/-- Whether all operands of the expression are identifiers and integer constants. -/
def OverIntegers : Tree → Prop
  | leaf token _ => isIntegerOperand token = true
  | group _ inner _ => inner.OverIntegers
  | unary _ _ operand => operand.OverIntegers
  | binary _ left _ right => left.OverIntegers ∧ right.OverIntegers
  | choice condition _ whenTrue _ whenFalse =>
    condition.OverIntegers ∧ whenTrue.OverIntegers ∧ whenFalse.OverIntegers

def unsignedIn (typing : Typing) : Tree → Bool
  | leaf token _ => (typing.word token).isUnsigned
  | group _ inner _ => inner.unsignedIn typing
  | unary op _ operand => op != .not && operand.unsignedIn typing
  | binary op left _ right =>
    if op.shifts then typing.shift (left.unsignedIn typing) (right.unsignedIn typing)
    else !op.givesTruth && (left.unsignedIn typing || right.unsignedIn typing)
  | choice _ _ whenTrue _ whenFalse => whenTrue.unsignedIn typing || whenFalse.unsignedIn typing

/-- **The word of an expression** in a typing. Operands that are not needed are not asked for; an
evaluated division by zero and an evaluated shift by less than 0 or more than 63 have no word. -/
def word? (typing : Typing) : Tree → Option Word
  | leaf token _ => some (typing.word token)
  | group _ inner _ => inner.word? typing
  | unary op _ operand => (operand.word? typing).map op.onWord
  | binary op left _ right => do
    let first ← left.word? typing
    if op.decidedBy first then return .ofBool first.isTrue
    else
      let second ← right.word? typing
      if op.shifts then
        op.shiftWord (typing.shift (left.unsignedIn typing) (right.unsignedIn typing)) first second
      else op.onWords first second
  | choice condition _ whenTrue _ whenFalse => do
    let decided ← condition.word? typing
    let chosen := if decided.isTrue then whenTrue.word? typing else whenFalse.word? typing
    chosen.map (·.taken (whenTrue.unsignedIn typing || whenFalse.unsignedIn typing))

/-- Whether two typings agree on every constant and on every shift of the expression. -/
def Agrees (first second : Typing) : Tree → Prop
  | leaf token _ => first.word token = second.word token
  | group _ inner _ => inner.Agrees first second
  | unary _ _ operand => operand.Agrees first second
  | binary op left _ right => left.Agrees first second ∧ right.Agrees first second ∧
    (op.shifts = true → first.shift (left.unsignedIn first) (right.unsignedIn first) =
      second.shift (left.unsignedIn first) (right.unsignedIn first))
  | choice condition _ whenTrue _ whenFalse => condition.Agrees first second ∧
    whenTrue.Agrees first second ∧ whenFalse.Agrees first second

variable {first second : Typing}

theorem Agrees.unsignedIn_eq (agrees : tree.Agrees first second) :
    tree.unsignedIn first = tree.unsignedIn second := by
  induction tree with
  | leaf token value => exact congrArg Word.isUnsigned agrees
  | group opening inner closing ih => exact ih agrees
  | unary op sign operand ih => rw [unsignedIn, ih agrees, unsignedIn]
  | binary op left sign right leftIh rightIh =>
    obtain ⟨leftAgrees, rightAgrees, shift⟩ := agrees
    rw [unsignedIn, unsignedIn, ← leftIh leftAgrees, ← rightIh rightAgrees]
    split
    · exact shift ‹_›
    · rfl
  | choice condition question whenTrue colon whenFalse _ trueIh falseIh =>
    obtain ⟨-, trueAgrees, falseAgrees⟩ := agrees
    rw [unsignedIn, trueIh trueAgrees, falseIh falseAgrees, unsignedIn]

theorem Agrees.word?_eq (agrees : tree.Agrees first second) :
    tree.word? first = tree.word? second := by
  induction tree with
  | leaf token value => exact congrArg some agrees
  | group opening inner closing ih => exact ih agrees
  | unary op sign operand ih => rw [word?, ih agrees, word?]
  | binary op left sign right leftIh rightIh =>
    obtain ⟨leftAgrees, rightAgrees, shift⟩ := agrees
    rw [word?, word?, leftIh leftAgrees, rightIh rightAgrees, ← leftAgrees.unsignedIn_eq,
      ← rightAgrees.unsignedIn_eq]
    cases moves : op.shifts with
    | true => rw [shift moves]
    | false => rfl
  | choice condition question whenTrue colon whenFalse conditionIh trueIh falseIh =>
    obtain ⟨conditionAgrees, trueAgrees, falseAgrees⟩ := agrees
    rw [word?, word?, conditionIh conditionAgrees, trueIh trueAgrees, falseIh falseAgrees,
      trueAgrees.unsignedIn_eq, falseAgrees.unsignedIn_eq]

end Tree

theorem operand_eq_word {token : Token} (integer : isIntegerOperand token = true) :
    operand token = .ok (Typing.marked.word token).toValue := by
  unfold Typing.word
  rw [isIntegerOperand, Bool.or_eq_true, beq_iff_eq] at integer
  rcases integer with isName | isNumber
  · simp only [operand, isName]
    rfl
  · rw [Bool.and_eq_true, beq_iff_eq, Option.any_eq_true] at isNumber
    obtain ⟨isNumber, number, reads, fits⟩ := isNumber
    have small : number < Nat.pow 2 64 := by
      refine Nat.lt_of_lt_of_le (of_decide_eq_true fits) ?_
      split <;> decide
    simp only [operand, isNumber, reads, integerConstant_of_lt reads small, Value.wrapped_eq,
      BitVec.ofInt_natCast]
    rfl

theorem value_eq_word {token : Token} (integer : isIntegerOperand token = true) {value : Value}
    (constant : operand token = .ok value) : value = (Typing.marked.word token).toValue :=
  Except.ok.inj (constant.symm.trans (operand_eq_word integer))

variable {category : Category} {op : BinaryOp}

namespace Tree

theorem Fits.isUnsigned_eq (fits : Fits category tree)
    (integers : tree.OverIntegers) : tree.isUnsigned = tree.unsignedIn .marked := by
  induction fits with
  | leaf constant => exact congrArg Value.isUnsigned (value_eq_word integers constant)
  | group _ _ _ ih => exact ih integers
  | primary _ ih | unary _ ih | tighter _ _ ih | plain _ ih => exact ih integers
  | signed _ _ ih => rw [isUnsigned, ih integers, unsignedIn]
  | @applied op _ _ _ _ _ _ leftIh rightIh =>
    rw [isUnsigned, leftIh integers.1, rightIh integers.2, unsignedIn]
    cases op <;> rfl
  | choice _ _ _ _ _ _ trueIh falseIh =>
    rw [isUnsigned, trueIh integers.2.1, falseIh integers.2.2, unsignedIn]

end Tree

theorem BinaryOp.onWords_eq_shiftWord (moves : op.shifts = true) {left right word : Word}
    (moved : op.shiftWord (left.isUnsigned || right.isUnsigned) left right = some word) :
    op.onWords left right = some word := by
  unfold shiftWord at moved
  split at moved
  · rename_i inside
    have count : right.bits.toNat % 64 = right.value.toNat := by
      rw [← shiftCount_value, shiftCount, Int.emod_eq_of_lt inside.1 inside.2]
    rw [← moved]
    cases op with
    | shiftLeft => rw [onWords, count]; rfl
    | shiftRight => rw [onWords, count]; rfl
    | _ => cases moves
  · cases moved

namespace Tree

theorem isUnsigned_of_value? {word : Word}
    (computed : tree.value? = some word.toValue) : word.isUnsigned = tree.isUnsigned :=
  eager_isUnsigned ((eager_true tree).trans computed)

theorem value?_logical (logical : op = .or ∨ op = .and) {left right : Tree}
    {sign : Token} {a word : Word} (leftValue : left.value? = some a.toValue)
    (computed : (if op.decidedBy a then some (.ofBool a.isTrue)
      else (right.word? .marked).bind fun b => op.onWords a b) = some word)
    (rightValue : ∀ b, right.word? .marked = some b → right.value? = some b.toValue) :
    (binary op left sign right).value? = some word.toValue := by
  rcases logical with rfl | rfl
  · simp only [value?, leftValue, BinaryOp.decidedBy] at computed ⊢
    cases truth : a.isTrue with
    | true =>
      simp only [truth, if_true, Option.some.injEq] at computed
      simp [truth, ← computed, Word.ofBool_toValue]
    | false =>
      simp only [truth, Bool.false_eq_true, if_false] at computed
      obtain ⟨b, rightWord, computed⟩ := Option.bind_eq_some_iff.mp computed
      simp only [BinaryOp.onWords, Option.some.injEq] at computed
      simp [truth, rightValue b rightWord, ← computed, Word.ofBool_toValue]
  · simp only [value?, leftValue, BinaryOp.decidedBy] at computed ⊢
    cases truth : a.isTrue with
    | false =>
      simp only [truth, Bool.not_false, if_true, Option.some.injEq] at computed
      simp [truth, ← computed, Word.ofBool_toValue]
    | true =>
      simp only [truth, Bool.not_true, Bool.false_eq_true, if_false] at computed
      obtain ⟨b, rightWord, computed⟩ := Option.bind_eq_some_iff.mp computed
      simp only [BinaryOp.onWords, Option.some.injEq] at computed
      simp [truth, rightValue b rightWord, ← computed, Word.ofBool_toValue]

/-- **Evaluation types by marks**: the value of an expression is its word in that typing. -/
theorem Fits.value?_of_word? (fits : Fits category tree)
    (integers : tree.OverIntegers) {word : Word} (computed : tree.word? .marked = some word) :
    tree.value? = some word.toValue := by
  induction fits generalizing word with
  | leaf constant =>
    cases computed
    exact congrArg some (value_eq_word integers constant)
  | group _ _ _ ih | primary _ ih | unary _ ih | tighter _ _ ih | plain _ ih =>
    exact ih integers computed
  | signed _ _ ih =>
    obtain ⟨inner, innerWord, rfl⟩ := Option.map_eq_some_iff.mp computed
    rw [value?, ih integers innerWord, Option.map_some, UnaryOp.apply_toValue]
  | @applied op left right sign _ leftFits rightFits leftIh rightIh =>
    obtain ⟨a, leftWord, computed⟩ := Option.bind_eq_some_iff.mp computed
    have leftValue := leftIh integers.1 leftWord
    rcases op.or_and_other with rfl | rfl | ⟨notOr, notAnd⟩
    · exact value?_logical (.inl rfl) leftValue computed fun b => rightIh integers.2
    · exact value?_logical (.inr rfl) leftValue computed fun b => rightIh integers.2
    · have undecided : op.decidedBy a = false := by
        cases op <;> first | rfl | contradiction
      rw [if_neg (by simp [undecided])] at computed
      obtain ⟨b, rightWord, computed⟩ := Option.bind_eq_some_iff.mp computed
      have rightValue := rightIh integers.2 rightWord
      have both : op.onWords a b = some word := by
        split at computed
        · rename_i moves
          rw [← leftFits.isUnsigned_eq integers.1, ← rightFits.isUnsigned_eq integers.2,
            ← isUnsigned_of_value? leftValue, ← isUnsigned_of_value? rightValue] at computed
          exact BinaryOp.onWords_eq_shiftWord moves computed
        · exact computed
      rw [value?_binary notOr notAnd, leftValue, rightValue, Option.bind_some, Option.bind_some,
        BinaryOp.apply_toValue notOr notAnd, both, Option.map_some, Option.some_or]
  | @choice condition whenTrue whenFalse _ _ _ _ trueFits _ falseFits conditionIh trueIh falseIh =>
    obtain ⟨decided, conditionWord, computed⟩ := Option.bind_eq_some_iff.mp computed
    obtain ⟨chosen, chosenWord, rfl⟩ := Option.map_eq_some_iff.mp computed
    have types : (whenTrue.isUnsigned || whenFalse.isUnsigned) =
        (whenTrue.unsignedIn .marked || whenFalse.unsignedIn .marked) := by
      rw [trueFits.isUnsigned_eq integers.2.1, falseFits.isUnsigned_eq integers.2.2]
    have converted (isUnsigned : Bool) :
        ({ chosen.toValue with isUnsigned } : Value).wrapped =
          (chosen.taken isUnsigned).toValue := by
      rw [Value.wrapped_eq]
      simp [Word.toValue, Word.taken]
    rw [value?, conditionIh integers.1 conditionWord, types]
    cases truth : decided.isTrue with
    | true =>
      rw [truth, if_pos rfl] at chosenWord
      simp [truth, trueIh integers.2.1 chosenWord, converted]
    | false =>
      rw [truth, if_neg Bool.false_ne_true] at chosenWord
      simp [truth, falseIh integers.2.2 chosenWord, converted]

/-- **Conditions are typed by marks.** Let a tree over identifiers and integer constants have a
word, so that no division by zero and no shift outside of 0 to 63 is evaluated. If the typing is
that of marks, the word is the value of the condition. So it is for the typing of the standard, if
the two agree on the tree: a constant that does not fit a signed word is marked, and a shift by an
unsigned amount has an unsigned left operand. -/
theorem evaluate_eq_word {tokens : List Token} {tree : Tree} (fits : Fits .conditional tree)
    (integers : tree.OverIntegers)
    (yields : tree.yield = tokens.filter fun token => !token.endsLine) :
    (∀ word, tree.word? .marked = some word → evaluate tokens = .ok word.value) ∧
    (tree.Agrees .standard .marked →
      ∀ word, tree.word? .standard = some word → evaluate tokens = .ok word.value) := by
  have marked (word : Word) (computed : tree.word? .marked = some word) :
      evaluate tokens = .ok word.value :=
    evaluate_of_tree fits yields (fits.value?_of_word? integers computed)
  refine ⟨marked, ?_⟩
  intro agrees word computed
  exact marked word (agrees.word?_eq ▸ computed)

variable {level : Nat}

theorem Fits.looser {higher : Nat} (fits : Fits (.binary higher) tree)
    (below : level ≤ higher) (inside : higher ≤ levelCount) : Fits (.binary level) tree := by
  obtain ⟨steps, rfl⟩ := Nat.exists_eq_add_of_le below
  induction steps with
  | zero => exact fits
  | succ steps ih => exact ih (.tighter (by omega) fits) (by omega) (by omega)

/-- The expression of an integer constant. -/
def constant (text : String) : Tree :=
  let token : Token := { kind := .number, lexeme := text, location := .unknown }
  .leaf token (Typing.marked.word token).toValue

/-- The negative of an expression. -/
def negative (operand : Tree) : Tree :=
  .unary .negate { kind := .punctuator, lexeme := "-", location := .unknown } operand

/-- An operator between two expressions. -/
def combined (op : BinaryOp) (sign : String) (left right : Tree) : Tree :=
  .binary op left { kind := .punctuator, lexeme := sign, location := .unknown } right

theorem fits_constant {text : String} (below : level ≤ levelCount)
    (integer : isIntegerOperand { kind := .number, lexeme := text, location := .unknown } = true) :
    Fits (.binary level) (constant text) :=
  (Fits.unary (.primary (.leaf (operand_eq_word integer)))).looser below (Nat.le_refl _)

theorem Fits.combined {sign : String} {left right : Tree}
    (isSign : BinaryOp.ofLexeme? sign = some op) (leftFits : Fits (.binary op.level) left)
    (rightFits : Fits (.binary (op.level + 1)) right) (below : level ≤ op.level) :
    Fits (.binary level) (combined op sign left right) := by
  have found : binaryOp? { kind := .punctuator, lexeme := sign, location := .unknown } = some op :=
    isSign
  exact (Fits.applied found leftFits rightFits).looser below (Nat.le_of_lt op.level_lt)

/-- The condition `0x8000000000000000u >> 62u == 2 && -1 >> 1 < 0`, in which each of the shifts has
the type of its left operand. -/
def typedShifts : Tree :=
  combined .and "&&"
    (combined .equal "=="
      (combined .shiftRight ">>" (constant "0x8000000000000000u") (constant "62u")) (constant "2"))
    (combined .less "<" (combined .shiftRight ">>" (negative (constant "1")) (constant "1"))
      (constant "0"))

theorem fits_negativeOne : Fits (.binary BinaryOp.shiftRight.level) (negative (constant "1")) := by
  have inner : Fits .unary (constant "1") :=
    .primary (.leaf (operand_eq_word (by decide +kernel)))
  exact (Fits.unary (.signed rfl inner)).looser (by decide) (Nat.le_refl _)

theorem fits_typedShifts : Fits .conditional typedShifts := by
  refine .plain (.combined rfl (.combined rfl (.combined rfl ?_ ?_ (by decide)) ?_ (by decide))
    (.combined rfl (.combined rfl fits_negativeOne ?_ (by decide)) ?_ (by decide)) (by decide))
  all_goals exact fits_constant (by decide) (by decide +kernel)

theorem evaluate_typedShifts :
    Fits .conditional typedShifts ∧ typedShifts.OverIntegers ∧
      typedShifts.Agrees .standard .marked ∧
      typedShifts.word? .standard = some (.ofBool true) ∧ evaluate typedShifts.yield = .ok 1 := by
  have integers : typedShifts.OverIntegers := by
    simp only [typedShifts, combined, negative, constant, OverIntegers]
    decide +kernel
  have agrees : typedShifts.Agrees .standard .marked := by
    simp only [typedShifts, combined, negative, constant, Agrees]
    decide +kernel
  have computed : typedShifts.word? .standard = some (.ofBool true) := by decide +kernel
  exact ⟨fits_typedShifts, integers, agrees, computed,
    (evaluate_eq_word fits_typedShifts integers (by decide +kernel)).2 agrees _ computed⟩

/-- The largest word, written without a mark: in the standard it is unsigned, and evaluation takes
it for -1. The shift `-1 >> 1u` is -1 in the standard, and evaluation shifts an unsigned word. -/
theorem largeConstant_and_mixedShift_depart :
    (Fits .conditional (constant "0xFFFFFFFFFFFFFFFF") ∧
      (constant "0xFFFFFFFFFFFFFFFF").OverIntegers ∧
      ((constant "0xFFFFFFFFFFFFFFFF").word? .standard).map Word.value =
        some 18446744073709551615 ∧
      evaluate (constant "0xFFFFFFFFFFFFFFFF").yield = .ok (-1)) ∧
    (Fits .conditional (combined .shiftRight ">>" (negative (constant "1")) (constant "1u")) ∧
      (combined .shiftRight ">>" (negative (constant "1")) (constant "1u")).OverIntegers ∧
      ((combined .shiftRight ">>" (negative (constant "1")) (constant "1u")).word? .standard).map
        Word.value = some (-1) ∧
      evaluate (combined .shiftRight ">>" (negative (constant "1")) (constant "1u")).yield =
        .ok 9223372036854775807) := by
  refine ⟨⟨.plain (fits_constant (by decide) (by decide +kernel)), ?_, by decide +kernel,
    by rfl⟩, .plain (.combined rfl fits_negativeOne
      (fits_constant (by decide) (by decide +kernel)) (by decide)), ?_, by decide +kernel,
    by rfl⟩
  · simp only [constant, OverIntegers]
    decide +kernel
  · simp only [combined, negative, constant, OverIntegers]
    decide +kernel

end Tree

end Preproc.Condition

import Preproc.Proofs.Condition.Typing

/-! # The range of values

A value in the range of its signedness is a word of 64 bits, and on such values the operators are
those of words (`BinaryOp.apply_inRange`). Every operator gives values in range whatever its
operands are. So of all expressions only a character constant, in any number of parentheses, can
have a value out of range: its number is not wrapped (`Tree.evaluate_inRange_iff`).
-/

namespace Preproc.Condition

/-- Whether a value lies in the range of its signedness. -/
def Value.InRange (operand : Value) : Prop :=
  if operand.isUnsigned then 0 ≤ operand.value ∧ operand.value < Int.pow 2 64
  else -Int.pow 2 63 ≤ operand.value ∧ operand.value < Int.pow 2 63

instance (operand : Value) : Decidable operand.InRange :=
  inferInstanceAs (Decidable (ite _ _ _))

/-- The bits of a value in its signedness. -/
def Value.toWord (operand : Value) : Word :=
  { bits := BitVec.ofInt 64 operand.value, isUnsigned := operand.isUnsigned }

theorem Word.inRange_toValue (word : Word) : word.toValue.InRange := by
  have below : word.bits.toNat < 18446744073709551616 := word.bits.isLt
  unfold Value.InRange toValue value
  cases word.isUnsigned with
  | true => exact ⟨Int.natCast_nonneg _, Int.ofNat_lt.mpr below⟩
  | false => exact ⟨BitVec.le_toInt word.bits, BitVec.toInt_lt⟩

namespace Value

theorem inRange_wrapped (operand : Value) : operand.wrapped.InRange := by
  rw [wrapped_eq]
  exact Word.inRange_toValue _

theorem inRange_ofBool (truth : Bool) : (ofBool truth).InRange := by
  rw [← Word.ofBool_toValue]
  exact Word.inRange_toValue _

theorem InRange.toValue_toWord {operand : Value} (inside : operand.InRange) :
    operand.toWord.toValue = operand := by
  obtain ⟨value, isUnsigned⟩ := operand
  have half : Int.pow 2 63 = 9223372036854775808 := rfl
  have whole : Int.pow 2 64 = 18446744073709551616 := rfl
  rw [toWord, ← wrapped_eq, wrapped, residue, half, whole]
  cases isUnsigned with
  | true =>
    obtain ⟨low, high⟩ : 0 ≤ value ∧ value < 18446744073709551616 := inside
    simp [Int.emod_eq_of_lt low high]
  | false =>
    obtain ⟨low, high⟩ : -9223372036854775808 ≤ value ∧ value < 9223372036854775808 := inside
    dsimp only
    split <;> rename_i small <;> rw [Bool.false_or, decide_eq_true_eq] at small <;>
      congr 1 <;> omega

theorem InRange.wrapped_eq_self {operand : Value} (inside : operand.InRange) :
    operand.wrapped = operand := by
  rw [← inside.toValue_toWord, Word.wrapped_toValue]

/-- The integer of a value in a signedness: its bits are taken so. -/
def takenAs (operand : Value) (isUnsigned : Bool) : Int :=
  (operand.toWord.taken isUnsigned).value

theorem inRange_takenAs (operand : Value) (isUnsigned : Bool) :
    InRange { value := operand.takenAs isUnsigned, isUnsigned } :=
  Word.inRange_toValue (operand.toWord.taken isUnsigned)

section Division

variable {a b : Int} {isUnsigned : Bool}

theorem InRange.tdiv (dividend : InRange { value := a, isUnsigned })
    (divisor : InRange { value := b, isUnsigned }) (fits : ¬ (a = -Int.pow 2 63 ∧ b = -1)) :
    InRange { value := a.tdiv b, isUnsigned } := by
  have half : Int.pow 2 63 = 9223372036854775808 := rfl
  have whole : Int.pow 2 64 = 18446744073709551616 := rfl
  have size : (a.tdiv b).natAbs = a.natAbs / b.natAbs := Int.natAbs_tdiv a b
  have less : a.natAbs / b.natAbs ≤ a.natAbs := Nat.div_le_self _ _
  cases isUnsigned with
  | true =>
    obtain ⟨low, high⟩ : 0 ≤ a ∧ a < 18446744073709551616 := dividend
    have positive : 0 ≤ a.tdiv b := Int.tdiv_nonneg low divisor.1
    exact ⟨positive, by dsimp only; omega⟩
  | false =>
    obtain ⟨low, high⟩ : -9223372036854775808 ≤ a ∧ a < 9223372036854775808 := dividend
    refine ⟨by dsimp only; omega, ?_⟩
    dsimp only
    rcases Nat.lt_or_ge 1 b.natAbs with large | small
    · have half : a.natAbs / b.natAbs ≤ a.natAbs / 2 := Nat.div_le_div_left large (by decide)
      omega
    · obtain rfl | rfl | rfl : b = 0 ∨ b = 1 ∨ b = -1 := by omega
      · rw [Int.tdiv_zero]
        decide
      · rw [Int.tdiv_one]
        exact high
      · omega

theorem InRange.tmod (dividend : InRange { value := a, isUnsigned }) :
    InRange { value := a.tmod b, isUnsigned } := by
  have size : (a.tmod b).natAbs = a.natAbs % b.natAbs := Int.natAbs_tmod a b
  have less : a.natAbs % b.natAbs ≤ a.natAbs := Nat.mod_le _ _
  have positive : 0 ≤ a → 0 ≤ a.tmod b := Int.tmod_nonneg b
  unfold InRange at dividend ⊢
  cases isUnsigned with
  | true =>
    obtain ⟨low, high⟩ := dividend
    exact ⟨positive low, by dsimp only at low high ⊢; omega⟩
  | false =>
    obtain ⟨low, high⟩ := dividend
    dsimp only at low high ⊢
    by_cases sign : 0 ≤ a
    · exact ⟨by omega, by omega⟩
    · have negative : 0 ≤ (-a).tmod b := Int.tmod_nonneg b (by omega)
      rw [Int.neg_tmod] at negative
      exact ⟨by omega, by omega⟩

theorem value_wrapped_tdiv (dividend : InRange { value := a, isUnsigned })
    (divisor : InRange { value := b, isUnsigned }) :
    (wrapped { value := a.tdiv b, isUnsigned }).value =
      if a = -Int.pow 2 63 ∧ b = -1 then -Int.pow 2 63 else a.tdiv b := by
  split
  next least =>
    obtain ⟨rfl, rfl⟩ := least
    cases isUnsigned with
    | true => exact absurd dividend.1 (by decide)
    | false => rfl
  next fits => rw [(dividend.tdiv divisor fits).wrapped_eq_self]

theorem residue_division (left right : Value) (isUnsigned : Bool) :
    residue ((wrapped ⟨(left.takenAs isUnsigned).tdiv (right.takenAs isUnsigned),
        isUnsigned⟩).value * right.value +
      (wrapped ⟨(left.takenAs isUnsigned).tmod (right.takenAs isUnsigned), isUnsigned⟩).value) =
      residue left.value := by
  have taken (operand : Value) :
      BitVec.ofInt 64 operand.value = BitVec.ofInt 64 (operand.takenAs isUnsigned) :=
    (Word.ofInt_value (operand.toWord.taken isUnsigned)).symm
  have kept (value : Int) :
      BitVec.ofInt 64 (wrapped { value, isUnsigned }).value = BitVec.ofInt 64 value := by
    rw [wrapped_eq]
    exact Word.ofInt_value _
  rw [Word.residue_eq, Word.residue_eq, BitVec.ofInt_add, BitVec.ofInt_mul, kept, kept, taken right,
    taken left, ← BitVec.ofInt_mul, ← BitVec.ofInt_add, Int.mul_comm, Int.mul_tdiv_add_tmod]

end Division

end Value

namespace BinaryOp

theorem onWords_eq_none_iff (op : BinaryOp) (left right : Word) :
    op.onWords left right = none ↔ op.divides = true ∧ right.bits = 0#64 := by
  cases op <;> simp [onWords, divides]

section Words

variable {left right : Value} (leftIn : left.InRange) (rightIn : right.InRange)
include leftIn rightIn

theorem apply_divides (op : BinaryOp) (divides : op.divides = true) (divisor : right.value ≠ 0)
    (evaluated : Bool) :
    op.apply evaluated left right = some (Value.wrapped
      { value := op.compute (left.takenAs (left.isUnsigned || right.isUnsigned))
          (right.takenAs (left.isUnsigned || right.isUnsigned))
        isUnsigned := left.isUnsigned || right.isUnsigned }) := by
  have nonzero : right.toWord.bits ≠ 0#64 := by
    intro zero
    rw [← rightIn.toValue_toWord] at divisor
    exact divisor ((Word.value_eq_zero _).mpr zero)
  have words := apply_words op evaluated left.toWord right.toWord rfl
  rw [leftIn.toValue_toWord, rightIn.toValue_toWord] at words
  rw [words, Value.wrapped_eq]
  cases op with
  | divide | remainder => simp [nonzero, compares?]; rfl
  | _ => cases divides

/-- **Operators are those of words.** On values in range each operator other than the logical ones
is the operation on their bits in the signedness that they have in common. It has no value exactly
where a division by zero is evaluated. A quotient is truncated, and that of the least signed value
by -1 wraps around; a remainder has the sign of the dividend; and modulo the size of a word, the
quotient times the divisor and the remainder make up the dividend. -/
theorem apply_inRange {op : BinaryOp} (notOr : op ≠ .or) (notAnd : op ≠ .and) (evaluated : Bool) :
    op.apply evaluated left right =
      ((op.onWords left.toWord right.toWord).map Word.toValue).or
        (if evaluated then none
          else some { value := 0, isUnsigned := left.isUnsigned || right.isUnsigned }) ∧
    (op.apply evaluated left right = none ↔
      op.divides = true ∧ right.value = 0 ∧ evaluated = true) ∧
    (right.value ≠ 0 → ∃ quotient remainder,
      BinaryOp.divide.apply evaluated left right = some quotient ∧
      BinaryOp.remainder.apply evaluated left right = some remainder ∧
      (let a := left.takenAs (left.isUnsigned || right.isUnsigned)
       let b := right.takenAs (left.isUnsigned || right.isUnsigned)
       quotient.value = (if a = -Int.pow 2 63 ∧ b = -1 then -Int.pow 2 63 else a.tdiv b) ∧
       remainder.value = a.tmod b) ∧
      (quotient.value * right.value + remainder.value) % Int.pow 2 64 =
        left.value % Int.pow 2 64) := by
  have words := apply_toValue notOr notAnd evaluated left.toWord right.toWord
  rw [leftIn.toValue_toWord, rightIn.toValue_toWord] at words
  have zero : right.toWord.bits = 0#64 ↔ right.value = 0 := by
    rw [← Word.value_eq_zero]
    exact iff_of_eq (congrArg (·.value = 0) rightIn.toValue_toWord)
  refine ⟨words, ?_, ?_⟩
  · have undefined := onWords_eq_none_iff op left.toWord right.toWord
    rw [zero] at undefined
    rw [words, ← and_assoc, ← undefined]
    cases op.onWords left.toWord right.toWord <;> cases evaluated <;> simp
  · intro divisor
    have quotient := apply_divides leftIn rightIn .divide rfl divisor evaluated
    have remainder := apply_divides leftIn rightIn .remainder rfl divisor evaluated
    have dividendIn := left.inRange_takenAs (left.isUnsigned || right.isUnsigned)
    have divisorIn := right.inRange_takenAs (left.isUnsigned || right.isUnsigned)
    refine ⟨_, _, quotient, remainder, ⟨?_, ?_⟩, Value.residue_division left right _⟩
    · exact Value.value_wrapped_tdiv dividendIn divisorIn
    · exact congrArg Value.value (Value.InRange.tmod dividendIn).wrapped_eq_self

end Words

/-- The least signed value divided by -1 is itself. -/
theorem apply_inRange_least :
    Value.InRange { value := -Int.pow 2 63 } ∧ Value.InRange { value := -1 } ∧
      BinaryOp.divide.apply true { value := -Int.pow 2 63 } { value := -1 } =
        some { value := -Int.pow 2 63 } := by
  have leftIn : Value.InRange { value := -Int.pow 2 63 } := by decide
  have rightIn : Value.InRange { value := -1 } := by decide
  refine ⟨leftIn, rightIn, ?_⟩
  rw [(apply_inRange leftIn rightIn (by decide : BinaryOp.divide ≠ .or) (by decide) true).1]
  decide

theorem combine_inRange {op : BinaryOp} {evaluated : Bool} {left right value : Value}
    (combined : op.combine evaluated left right = some value) : value.InRange := by
  rcases op.or_and_other with rfl | rfl | ⟨notOr, notAnd⟩
  · cases combined
    exact Value.inRange_ofBool _
  · cases combined
    exact Value.inRange_ofBool _
  · rw [combine_eq_apply notOr notAnd, BinaryOp.apply] at combined
    generalize (left.isUnsigned || right.isUnsigned) = isUnsigned at combined
    generalize (if isUnsigned = true then right.asUnsigned else right.value) = b at combined
    split at combined
    · cases evaluated <;> cases combined
      cases isUnsigned <;> decide
    · split at combined <;> cases combined
      · exact Value.inRange_ofBool _
      · exact Value.inRange_wrapped _

end BinaryOp

theorem UnaryOp.apply_inRange_of (op : UnaryOp) (operand : Value) : (op.apply operand).InRange := by
  cases op with
  | not => exact Value.inRange_ofBool _
  | plus | negate | complement => exact Value.inRange_wrapped _

/-- Whether the number that a token stands for as a character constant, if it is one, fits a signed
word. -/
def Narrow (token : Token) : Prop :=
  token.kind = .character → ∀ number, characterConstant token.lexeme.toList = .value number →
    Value.InRange { value := number }

theorem operand_inRange_iff {token : Token} {value : Value} (constant : operand token = .ok value) :
    value.InRange ↔ Narrow token := by
  unfold operand at constant
  unfold Narrow
  split at constant
  next isNumber =>
    split at constant <;> cases constant
    simp [isNumber, Value.inRange_wrapped]
  next isCharacter =>
    split at constant <;> cases constant
    next number found => simp [isCharacter, found]
  next isName =>
    cases constant
    simp only [isName, reduceCtorEq, false_imp_iff, iff_true]
    decide
  next => cases constant

namespace Tree

/-- The operand that an expression is, in any number of parentheses. -/
def bare? : Tree → Option Token
  | leaf token _ => some token
  | group _ inner _ => inner.bare?
  | _ => none

/-- An expression and all of its parts, and whether the value of each is needed. -/
def parts (evaluated : Bool) : Tree → List (Bool × Tree)
  | leaf token value => [(evaluated, .leaf token value)]
  | group opening inner closing =>
    (evaluated, .group opening inner closing) :: inner.parts evaluated
  | unary op sign operand => (evaluated, .unary op sign operand) :: operand.parts evaluated
  | binary op left sign right =>
    (evaluated, .binary op left sign right) :: left.parts evaluated ++
      (left.eager evaluated).elim [] fun first => right.parts (op.asks evaluated first)
  | choice condition question whenTrue colon whenFalse =>
    (evaluated, .choice condition question whenTrue colon whenFalse) ::
      condition.parts evaluated ++ (condition.eager evaluated).elim [] fun decided =>
        whenTrue.parts (evaluated && decided.isTrue) ++
          whenFalse.parts (evaluated && !decided.isTrue)

section Parts

variable {category : Category} {tree : Tree} {evaluated : Bool} {value : Value}

theorem Fits.inRange_iff (fits : Fits category tree)
    (computed : tree.eager evaluated = some value) :
    value.InRange ↔ ∀ token, tree.bare? = some token → Narrow token := by
  induction fits with
  | leaf constant =>
    cases computed
    simpa [bare?] using operand_inRange_iff constant
  | group _ _ _ ih => exact ih computed
  | primary _ ih | unary _ ih | tighter _ _ ih | plain _ ih => exact ih computed
  | signed _ _ _ =>
    obtain ⟨inside, -, rfl⟩ := Option.map_eq_some_iff.mp computed
    simpa [bare?] using UnaryOp.apply_inRange_of _ _
  | applied _ _ _ _ _ =>
    obtain ⟨first, -, rest⟩ := Option.bind_eq_some_iff.mp computed
    obtain ⟨second, -, combined⟩ := Option.bind_eq_some_iff.mp rest
    simpa [bare?] using BinaryOp.combine_inRange combined
  | choice _ _ _ _ _ _ _ _ =>
    obtain ⟨decided, -, rest⟩ := Option.bind_eq_some_iff.mp computed
    obtain ⟨first, -, rest⟩ := Option.bind_eq_some_iff.mp rest
    obtain ⟨second, -, rest⟩ := Option.bind_eq_some_iff.mp rest
    cases rest
    simpa [bare?] using Value.inRange_wrapped _

theorem bare?_mem_yield {token : Token} (bare : tree.bare? = some token) :
    token ∈ tree.yield := by
  induction tree with
  | leaf _ _ => simp_all [bare?, yield]
  | group opening inner closing ih => simp [yield, ih bare]
  | unary _ _ _ _ | binary _ _ _ _ _ _ | choice _ _ _ _ _ _ _ _ => cases bare

/-- What holds of a part of an expression and of whether its value is needed: it has a value, which
is in range unless the part is nothing but a wide constant among the tokens of the expression. -/
def Ranged (tokens : List Token) (part : Bool × Tree) : Prop :=
  ∃ inside, part.2.eager part.1 = some inside ∧
    (inside.InRange ↔ ∀ token, part.2.bare? = some token → Narrow token) ∧
    ∀ token, part.2.bare? = some token → token ∈ tokens

theorem Ranged.mono {tokens more : List Token} {part : Bool × Tree} (ranged : Ranged tokens part)
    (among : ∀ token ∈ tokens, token ∈ more) : Ranged more part := by
  obtain ⟨inside, found, range, bare⟩ := ranged
  exact ⟨inside, found, range, fun token isBare => among token (bare token isBare)⟩

theorem Fits.ranged (fits : Fits category tree) (computed : tree.eager evaluated = some value) :
    Ranged tree.yield (evaluated, tree) :=
  ⟨value, computed, fits.inRange_iff computed, fun _ => bare?_mem_yield⟩

/-- Every part of a tree that has a value has one, in range under the same condition. -/
theorem Fits.ranged_parts (fits : Fits category tree)
    (computed : tree.eager evaluated = some value) :
    ∀ part ∈ tree.parts evaluated, Ranged tree.yield part := by
  induction fits generalizing evaluated value with
  | leaf constant => exact List.forall_mem_singleton.mpr ((Fits.leaf constant).ranged computed)
  | primary _ ih | unary _ ih | tighter _ _ ih | plain _ ih => exact ih computed
  | group opens inside closes ih =>
    refine List.forall_mem_cons.mpr ⟨(Fits.group opens inside closes).ranged computed, ?_⟩
    intro part member
    exact (ih computed part member).mono (by simp +contextual [yield])
  | signed isSign inside ih =>
    obtain ⟨_, found, -⟩ := Option.map_eq_some_iff.mp computed
    refine List.forall_mem_cons.mpr ⟨(Fits.signed isSign inside).ranged computed, ?_⟩
    intro part member
    exact (ih found part member).mono (by simp +contextual [yield])
  | applied isSign leftFits rightFits leftIh rightIh =>
    obtain ⟨first, firstFound, rest⟩ := Option.bind_eq_some_iff.mp computed
    obtain ⟨second, secondFound, -⟩ := Option.bind_eq_some_iff.mp rest
    rw [parts, firstFound]
    refine List.forall_mem_cons.mpr ⟨(Fits.applied isSign leftFits rightFits).ranged computed,
      List.forall_mem_append.mpr ⟨fun part member => ?_, fun part member => ?_⟩⟩
    · exact (leftIh firstFound part member).mono (by simp +contextual [yield])
    · exact (rightIh secondFound part member).mono (by simp +contextual [yield])
  | choice conditionFits asks trueFits divides falseFits conditionIh trueIh falseIh =>
    obtain ⟨decided, decidedFound, rest⟩ := Option.bind_eq_some_iff.mp computed
    obtain ⟨first, firstFound, rest⟩ := Option.bind_eq_some_iff.mp rest
    obtain ⟨second, secondFound, -⟩ := Option.bind_eq_some_iff.mp rest
    rw [parts, decidedFound]
    refine List.forall_mem_cons.mpr
      ⟨(Fits.choice conditionFits asks trueFits divides falseFits).ranged computed,
        List.forall_mem_append.mpr ⟨fun part member => ?_,
          List.forall_mem_append.mpr ⟨fun part member => ?_, fun part member => ?_⟩⟩⟩
    · exact (conditionIh decidedFound part member).mono (by simp +contextual [yield])
    · exact (trueIh firstFound part member).mono (by simp +contextual [yield])
    · exact (falseIh secondFound part member).mono (by simp +contextual [yield])

end Parts

/-- **Only character constants leave the range.** In a condition with a value every part has one. It
lies in the range of its signedness, unless the part is nothing but a character constant whose
number does not fit a signed word. So all values lie in their range, the result among them, if no
token is such a constant. -/
theorem evaluate_inRange_iff {tokens : List Token} {result : Int}
    (success : evaluate tokens = .ok result) :
    ∃ tree value, Fits .conditional tree ∧
      tree.yield = tokens.filter (fun token => !token.endsLine) ∧
      tree.eager true = some value ∧ value.value = result ∧
      ∀ part ∈ tree.parts true, ∃ inside, part.2.eager part.1 = some inside ∧
        (inside.InRange ↔ ∀ token, part.2.bare? = some token → Narrow token) ∧
        ((∀ token ∈ tokens, Narrow token) → inside.InRange) := by
  obtain ⟨tree, value, fits, yields, computed, same⟩ := tree_of_evaluate success
  rw [← eager_true] at computed
  refine ⟨tree, value, fits, yields, computed, same, ?_⟩
  intro part member
  obtain ⟨inside, found, range, bare⟩ := fits.ranged_parts computed part member
  refine ⟨inside, found, range, fun narrow => range.mpr fun token isBare => narrow token ?_⟩
  have inYield := bare token isBare
  rw [yields] at inYield
  exact (List.mem_filter.mp inYield).1

/-- In the negative of a small constant all values are in range. -/
theorem evaluate_inRange_iff_negative :
    let tokens : List Token := [{ kind := .punctuator, lexeme := "-", location := .unknown },
      { kind := .character, lexeme := "'\\x7f'", location := .unknown }]
    evaluate tokens = .ok (-127) ∧ ∃ tree, Fits .conditional tree ∧ tree.yield = tokens ∧
      ∀ part ∈ tree.parts true, ∃ inside, part.2.eager part.1 = some inside ∧ inside.InRange := by
  intro tokens
  have success : evaluate tokens = .ok (-127) := by rfl
  have narrow : ∀ token ∈ tokens, Narrow token := by
    refine List.forall_mem_cons.mpr ⟨by rintro ⟨⟩, List.forall_mem_singleton.mpr ?_⟩
    intro _ number found
    have constant : characterConstant "'\\x7f'".toList = .value 127 := by decide +kernel
    cases constant.symm.trans found
    decide
  obtain ⟨tree, value, fits, yields, -, -, ranged⟩ := evaluate_inRange_iff success
  refine ⟨success, tree, fits, yields, ?_⟩
  intro part member
  obtain ⟨inside, found, -, inRange⟩ := ranged part member
  exact ⟨inside, found, inRange narrow⟩

/-- The character constant of 2^63, the least number that does not fit a signed word. -/
def wideConstant : Token :=
  { kind := .character, lexeme := "'\\x8000000000000000'", location := .unknown }

/-- A wide constant by itself is a condition whose value is out of range. -/
theorem wideConstant_out_of_range :
    ∃ value, Fits .conditional (.leaf wideConstant value) ∧ value.isUnsigned = false ∧
      (Tree.leaf wideConstant value).eager true = some value ∧
      evaluate [wideConstant] = .ok value.value ∧ ¬ value.InRange := by
  have constant : operand wideConstant = .ok { value := Int.pow 2 63 } := by rfl
  refine ⟨{ value := Int.pow 2 63 }, .plain ?_, rfl, rfl, by rfl, by decide⟩
  exact (Fits.unary (.primary (.leaf constant))).looser (Nat.zero_le _) (Nat.le_refl _)

end Tree

end Preproc.Condition

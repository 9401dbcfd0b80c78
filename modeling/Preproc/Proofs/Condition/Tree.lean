import Preproc.Condition.Evaluate

/-! # Expression trees of conditions

A condition is the yield of an expression tree. The grammar says which trees there are: a
conditional is a binary expression, or a binary expression, a question mark and two conditionals;
ten levels of binary operators associate to the left; below them stand prefix operators,
parentheses and operands.

A tree has a lazy value (`Preproc.Condition.Tree.value?`), which asks only for the operands that
are needed, and an eager one (`Preproc.Condition.Tree.eager`), which computes all of them and
remembers which are not needed. The two agree (`Preproc.Condition.Tree.eager_true`).
-/

namespace Preproc.Condition

def binaryOp? (token : Token) : Option BinaryOp :=
  if token.kind == .punctuator then BinaryOp.ofLexeme? token.lexeme else none

/-- The prefix operator that a token is. -/
def unaryOp? (token : Token) : Option UnaryOp :=
  if token.kind == .punctuator then UnaryOp.ofLexeme? token.lexeme else none

variable {token : Token} {text : String} {value : Value} {op : BinaryOp}

theorem binaryOp?_of_isPunctuator
    (isMark : token.isPunctuator text = true) : binaryOp? token = BinaryOp.ofLexeme? text := by
  simp only [Token.isPunctuator, Bool.and_eq_true, beq_iff_eq] at isMark
  simp [binaryOp?, isMark]

theorem unaryOp?_of_isPunctuator
    (isMark : token.isPunctuator text = true) : unaryOp? token = UnaryOp.ofLexeme? text := by
  simp only [Token.isPunctuator, Bool.and_eq_true, beq_iff_eq] at isMark
  simp [unaryOp?, isMark]

theorem kind_ne_punctuator (constant : operand token = .ok value) : token.kind ≠ .punctuator := by
  intro isMark
  simp [operand, isMark] at constant

/-- Whether the operator gives a truth, which is signed whatever its operands are. -/
def BinaryOp.givesTruth : BinaryOp → Bool
  | .or | .and | .equal | .notEqual | .less | .lessEqual | .greater | .greaterEqual => true
  | _ => false

/-- Whether the right operand of an operator is evaluated, given the value of the left one. -/
def BinaryOp.asks (op : BinaryOp) (evaluated : Bool) (left : Value) : Bool :=
  match op with
  | .and => evaluated && left.isTrue
  | .or => evaluated && !left.isTrue
  | _ => evaluated

/-- The value that an operator, logical or not, gives to two operands. -/
def BinaryOp.combine (op : BinaryOp) (evaluated : Bool) (left right : Value) : Option Value :=
  match op with
  | .and => some (.ofBool (left.isTrue && right.isTrue))
  | .or => some (.ofBool (left.isTrue || right.isTrue))
  | op => op.apply evaluated left right

/-- An expression with all of its tokens. -/
inductive Tree where
  | leaf (token : Token) (value : Value)
  | group (opening : Token) (inner : Tree) (closing : Token)
  | unary (op : UnaryOp) (sign : Token) (operand : Tree)
  | binary (op : BinaryOp) (left : Tree) (sign : Token) (right : Tree)
  | choice (condition : Tree) (question : Token) (whenTrue : Tree) (colon : Token)
      (whenFalse : Tree)

/-- The syntactic categories of expressions. -/
inductive Category where
  | conditional
  | binary (level : Nat)
  | unary
  | primary

namespace Tree

/-- The tokens of an expression, in order. -/
def yield : Tree → List Token
  | leaf token _ => [token]
  | group opening inner closing => opening :: inner.yield ++ [closing]
  | unary _ sign operand => sign :: operand.yield
  | binary _ left sign right => left.yield ++ sign :: right.yield
  | choice condition question whenTrue colon whenFalse =>
    condition.yield ++ question :: whenTrue.yield ++ colon :: whenFalse.yield

/-- **The grammar.** Which trees are expressions of a category. -/
inductive Fits : Category → Tree → Prop where
  | leaf {token : Token} {value : Value} (constant : operand token = .ok value) :
      Fits .primary (.leaf token value)
  | group {opening closing : Token} {inner : Tree} (opens : opening.isPunctuator "(" = true)
      (inside : Fits .conditional inner) (closes : closing.isPunctuator ")" = true) :
      Fits .primary (.group opening inner closing)
  | primary {tree : Tree} (fits : Fits .primary tree) : Fits .unary tree
  | signed {op : UnaryOp} {sign : Token} {operand : Tree} (isSign : unaryOp? sign = some op)
      (inside : Fits .unary operand) : Fits .unary (.unary op sign operand)
  | unary {tree : Tree} (fits : Fits .unary tree) : Fits (.binary levelCount) tree
  | tighter {level : Nat} {tree : Tree} (below : level < levelCount)
      (fits : Fits (.binary (level + 1)) tree) : Fits (.binary level) tree
  | applied {op : BinaryOp} {left right : Tree} {sign : Token} (isSign : binaryOp? sign = some op)
      (leftFits : Fits (.binary op.level) left) (rightFits : Fits (.binary (op.level + 1)) right) :
      Fits (.binary op.level) (.binary op left sign right)
  | plain {tree : Tree} (fits : Fits (.binary 0) tree) : Fits .conditional tree
  | choice {condition whenTrue whenFalse : Tree} {question colon : Token}
      (conditionFits : Fits (.binary 0) condition) (asks : question.isPunctuator "?" = true)
      (trueFits : Fits .conditional whenTrue) (divides : colon.isPunctuator ":" = true)
      (falseFits : Fits .conditional whenFalse) :
      Fits .conditional (.choice condition question whenTrue colon whenFalse)

/-- Whether an expression is unsigned, which does not depend on its value: comparisons and logical
operators are signed, and a choice is unsigned if either of its branches is. -/
def isUnsigned : Tree → Bool
  | leaf _ value => value.isUnsigned
  | group _ inner _ => inner.isUnsigned
  | unary op _ operand => op != .not && operand.isUnsigned
  | binary op left _ right => !op.givesTruth && (left.isUnsigned || right.isUnsigned)
  | choice _ _ whenTrue _ whenFalse => whenTrue.isUnsigned || whenFalse.isUnsigned

/-- **The lazy value.** The operand of a logical operator and the branch of a choice that are not
needed are not asked for their value. A division by zero has none. -/
def value? : Tree → Option Value
  | leaf _ value => some value
  | group _ inner _ => inner.value?
  | unary op _ operand => operand.value?.map op.apply
  | binary .and left _ right => do
    let first ← left.value?
    if first.isTrue then return .ofBool (← right.value?).isTrue else return .ofBool false
  | binary .or left _ right => do
    let first ← left.value?
    if first.isTrue then return .ofBool true else return .ofBool (← right.value?).isTrue
  | binary op left _ right => do
    let first ← left.value?
    let second ← right.value?
    op.apply true first second
  | choice condition _ whenTrue _ whenFalse => do
    let decided ← condition.value?
    let chosen ← if decided.isTrue then whenTrue.value? else whenFalse.value?
    return { chosen with isUnsigned := whenTrue.isUnsigned || whenFalse.isUnsigned : Value }.wrapped

/-- The eager value: every operand is computed, and `evaluated` tells whether its value is needed.
Where it is not needed, a division by zero is no error. -/
def eager : (evaluated : Bool) → Tree → Option Value
  | _, leaf _ value => some value
  | evaluated, group _ inner _ => inner.eager evaluated
  | evaluated, unary op _ operand => (operand.eager evaluated).map op.apply
  | evaluated, binary op left _ right => do
    let first ← left.eager evaluated
    let second ← right.eager (op.asks evaluated first)
    op.combine evaluated first second
  | evaluated, choice condition _ whenTrue _ whenFalse => do
    let decided ← condition.eager evaluated
    let first ← whenTrue.eager (evaluated && decided.isTrue)
    let second ← whenFalse.eager (evaluated && !decided.isTrue)
    let chosen := if decided.isTrue then first else second
    return { chosen with isUnsigned := first.isUnsigned || second.isUnsigned : Value }.wrapped

end Tree

@[simp]
theorem Value.wrapped_isUnsigned (operand : Value) :
    operand.wrapped.isUnsigned = operand.isUnsigned := by
  unfold Value.wrapped
  dsimp only
  split <;> rfl

@[simp]
theorem Value.ofBool_isUnsigned (truth : Bool) : (Value.ofBool truth).isUnsigned = false := rfl

theorem UnaryOp.apply_isUnsigned (op : UnaryOp) (operand : Value) :
    (op.apply operand).isUnsigned = (op != .not && operand.isUnsigned) := by
  cases op <;> simp [UnaryOp.apply]

theorem BinaryOp.level_lt (op : BinaryOp) : op.level < levelCount := by
  cases op <;> decide

theorem BinaryOp.or_and_other (op : BinaryOp) : op = .or ∨ op = .and ∨ (op ≠ .or ∧ op ≠ .and) := by
  cases op <;> simp

theorem BinaryOp.combine_eq_apply (notOr : op ≠ .or) (notAnd : op ≠ .and)
    (evaluated : Bool) (left right : Value) :
    op.combine evaluated left right = op.apply evaluated left right := by
  cases op <;> first | rfl | contradiction

theorem BinaryOp.combine_isUnsigned {evaluated : Bool} {left right : Value}
    (combined : op.combine evaluated left right = some value) :
    value.isUnsigned = (!op.givesTruth && (left.isUnsigned || right.isUnsigned)) := by
  rcases op.or_and_other with rfl | rfl | ⟨notOr, notAnd⟩
  · cases combined
    rfl
  · cases combined
    rfl
  · rw [combine_eq_apply notOr notAnd, BinaryOp.apply] at combined
    generalize (if (left.isUnsigned || right.isUnsigned) = true then right.asUnsigned
      else right.value) = second at combined
    split at combined
    · rename_i zero
      cases op <;> simp [BinaryOp.divides] at zero <;> cases evaluated <;> simp at combined <;>
        subst combined <;> simp [BinaryOp.givesTruth]
    · cases op <;> simp [BinaryOp.compares?] at combined notOr notAnd <;> subst combined <;>
        simp [BinaryOp.givesTruth]

theorem BinaryOp.combine_unevaluated (op : BinaryOp) (left right : Value) :
    ∃ value, op.combine false left right = some value := by
  rcases op.or_and_other with rfl | rfl | ⟨notOr, notAnd⟩
  · exact ⟨_, rfl⟩
  · exact ⟨_, rfl⟩
  · rw [combine_eq_apply notOr notAnd, BinaryOp.apply]
    generalize (if (left.isUnsigned || right.isUnsigned) = true then right.asUnsigned
      else right.value) = second
    split
    · exact ⟨_, rfl⟩
    · split <;> exact ⟨_, rfl⟩

theorem BinaryOp.asks_other (notOr : op ≠ .or) (notAnd : op ≠ .and)
    (evaluated : Bool) (left : Value) : op.asks evaluated left = evaluated := by
  cases op <;> first | rfl | contradiction

@[simp]
theorem BinaryOp.asks_false (op : BinaryOp) (left : Value) : op.asks false left = false := by
  cases op <;> rfl

namespace Tree

theorem value?_binary (notOr : op ≠ .or) (notAnd : op ≠ .and)
    (left : Tree) (sign : Token) (right : Tree) :
    (binary op left sign right).value? =
      left.value?.bind fun first => right.value?.bind fun second => op.apply true first second := by
  cases op <;> first | rfl | contradiction

theorem eager_isUnsigned {tree : Tree} {evaluated : Bool}
    (computed : tree.eager evaluated = some value) : value.isUnsigned = tree.isUnsigned := by
  induction tree generalizing evaluated value with
  | leaf token constant =>
    cases computed
    rfl
  | group opening inner closing ih => exact ih computed
  | unary op sign operand ih =>
    obtain ⟨inside, found, rfl⟩ := Option.map_eq_some_iff.mp computed
    rw [UnaryOp.apply_isUnsigned, ih found, isUnsigned]
  | binary op left sign right leftIh rightIh =>
    obtain ⟨first, firstFound, rest⟩ := Option.bind_eq_some_iff.mp computed
    obtain ⟨second, secondFound, combined⟩ := Option.bind_eq_some_iff.mp rest
    rw [BinaryOp.combine_isUnsigned combined, leftIh firstFound, rightIh secondFound, isUnsigned]
  | choice condition question whenTrue colon whenFalse conditionIh trueIh falseIh =>
    obtain ⟨decided, _, rest⟩ := Option.bind_eq_some_iff.mp computed
    obtain ⟨first, firstFound, rest⟩ := Option.bind_eq_some_iff.mp rest
    obtain ⟨second, secondFound, rest⟩ := Option.bind_eq_some_iff.mp rest
    cases rest
    simp only [Value.wrapped_isUnsigned, trueIh firstFound, falseIh secondFound, isUnsigned]

theorem eager_false (tree : Tree) : ∃ value, tree.eager false = some value := by
  induction tree with
  | leaf token value => exact ⟨value, rfl⟩
  | group opening inner closing ih => exact ih
  | unary op sign operand ih =>
    obtain ⟨inside, found⟩ := ih
    exact ⟨op.apply inside, by rw [eager, found]; rfl⟩
  | binary op left sign right leftIh rightIh =>
    obtain ⟨first, firstFound⟩ := leftIh
    obtain ⟨second, secondFound⟩ := rightIh
    obtain ⟨value, combined⟩ := op.combine_unevaluated first second
    exact ⟨value, by simp [eager, firstFound, secondFound, combined]⟩
  | choice condition question whenTrue colon whenFalse conditionIh trueIh falseIh =>
    obtain ⟨decided, decidedFound⟩ := conditionIh
    obtain ⟨first, firstFound⟩ := trueIh
    obtain ⟨second, secondFound⟩ := falseIh
    simp [eager, decidedFound, firstFound, secondFound]

/-- **Laziness.** What is computed for operands that are not needed never shows: where everything
is evaluated, the eager value is the lazy one. -/
theorem eager_true (tree : Tree) : tree.eager true = tree.value? := by
  induction tree with
  | leaf token value => rfl
  | group opening inner closing ih => exact ih
  | unary op sign operand ih => rw [eager, value?, ih]
  | binary op left sign right leftIh rightIh =>
    obtain ⟨unneeded, found⟩ := right.eager_false
    rcases op.or_and_other with rfl | rfl | ⟨notOr, notAnd⟩
    rotate_left 2
    · rw [eager, value?_binary notOr notAnd, leftIh]
      simp only [BinaryOp.asks_other notOr notAnd, BinaryOp.combine_eq_apply notOr notAnd,
        rightIh]
      rfl
    all_goals
      rw [eager, value?, leftIh]
      congr 1
      funext first
      cases truth : first.isTrue <;> simp [BinaryOp.asks, BinaryOp.combine, truth, rightIh, found]
  | choice condition question whenTrue colon whenFalse conditionIh trueIh falseIh =>
    obtain ⟨firstUnneeded, firstFound⟩ := whenTrue.eager_false
    obtain ⟨secondUnneeded, secondFound⟩ := whenFalse.eager_false
    rw [eager, value?, conditionIh]
    congr 1
    funext decided
    cases truth : decided.isTrue with
    | true =>
      cases found : whenTrue.value? with
      | none => simp [trueIh, found]
      | some first =>
        rw [found] at trueIh
        simp [trueIh, secondFound, eager_isUnsigned trueIh, eager_isUnsigned secondFound]
    | false =>
      cases found : whenFalse.value? with
      | none => simp [falseIh, found, firstFound]
      | some second =>
        rw [found] at falseIh
        simp [falseIh, firstFound, eager_isUnsigned falseIh, eager_isUnsigned firstFound]

end Tree

end Preproc.Condition

import Preproc.Condition.Value

/-! # Words of 64 bits

Operators give values in the range of their signedness. Such a value is a word of 64 bits that is
taken as signed or as unsigned, and on words the operators are operations on bits: a result that is
wrapped has the bits of the integer that was computed (`Value.wrapped_eq`). So each operator takes
both operands in the signedness that they have in common and computes with their bits
(`BinaryOp.apply_toValue`).
-/

namespace Preproc.Condition

/-- Bits, and whether they are taken as unsigned. -/
structure Word where
  bits : BitVec 64
  isUnsigned : Bool := false
  deriving DecidableEq, Repr

namespace Word

/-- The integer that the word stands for. -/
def value (word : Word) : Int :=
  if word.isUnsigned then word.bits.toNat else word.bits.toInt

def toValue (word : Word) : Value :=
  { value := word.value, isUnsigned := word.isUnsigned }

def isTrue (word : Word) : Bool :=
  word.bits != 0#64

def ofBool (truth : Bool) : Word :=
  { bits := if truth then 1#64 else 0#64 }

/-- The same bits in another signedness. -/
def taken (word : Word) (isUnsigned : Bool) : Word :=
  { word with isUnsigned }

/-- The bits of the word moved to the left. -/
def shiftedLeft (word : Word) (count : Nat) : Word :=
  { word with bits := word.bits <<< count }

/-- The bits of the word moved to the right; a signed word keeps its sign. -/
def shiftedRight (word : Word) (count : Nat) : Word :=
  { word with bits := if word.isUnsigned then word.bits >>> count else word.bits.sshiftRight count }

end Word

/-- What an operator with one operand does to a word. -/
def UnaryOp.onWord (op : UnaryOp) (word : Word) : Word :=
  match op with
  | .not => .ofBool !word.isTrue
  | .plus => word
  | .negate => { word with bits := -word.bits }
  | .complement => { word with bits := ~~~word.bits }

/-- What an operator gives for two words: both are taken as unsigned if either of them is. A shift
goes by the right operand modulo 64. There is no division by zero. -/
def BinaryOp.onWords (op : BinaryOp) (left right : Word) : Option Word :=
  let isUnsigned := left.isUnsigned || right.isUnsigned
  let a := left.bits
  let b := right.bits
  match op with
  | .or => some (.ofBool (left.isTrue || right.isTrue))
  | .and => some (.ofBool (left.isTrue && right.isTrue))
  | .bitOr => some ⟨a ||| b, isUnsigned⟩
  | .bitXor => some ⟨a ^^^ b, isUnsigned⟩
  | .bitAnd => some ⟨a &&& b, isUnsigned⟩
  | .equal => some (.ofBool (a == b))
  | .notEqual => some (.ofBool (a != b))
  | .less => some (.ofBool (if isUnsigned then a.ult b else a.slt b))
  | .lessEqual => some (.ofBool (if isUnsigned then a.ule b else a.sle b))
  | .greater => some (.ofBool (if isUnsigned then b.ult a else b.slt a))
  | .greaterEqual => some (.ofBool (if isUnsigned then b.ule a else b.sle a))
  | .shiftLeft => some ((left.taken isUnsigned).shiftedLeft (b.toNat % 64))
  | .shiftRight => some ((left.taken isUnsigned).shiftedRight (b.toNat % 64))
  | .add => some ⟨a + b, isUnsigned⟩
  | .subtract => some ⟨a - b, isUnsigned⟩
  | .multiply => some ⟨a * b, isUnsigned⟩
  | .divide =>
    if b = 0#64 then none else some ⟨if isUnsigned then a / b else a.sdiv b, isUnsigned⟩
  | .remainder =>
    if b = 0#64 then none else some ⟨if isUnsigned then a % b else a.srem b, isUnsigned⟩

namespace Word

theorem ofInt_toNat (bits : BitVec 64) : BitVec.ofInt 64 bits.toNat = bits := by
  rw [BitVec.ofInt_natCast, BitVec.ofNat_toNat, BitVec.setWidth_eq]

@[simp]
theorem ofInt_value (word : Word) : BitVec.ofInt 64 word.value = word.bits := by
  unfold value
  split
  · exact ofInt_toNat word.bits
  · exact BitVec.ofInt_toInt

theorem residue_eq (value : Int) : Value.residue value = (BitVec.ofInt 64 value).toNat := by
  rw [BitVec.toNat_ofInt, Int.toNat_of_nonneg (Int.emod_nonneg _ (by decide))]
  rfl

@[simp]
theorem asUnsigned_toValue (word : Word) : word.toValue.asUnsigned = word.bits.toNat := by
  rw [Value.asUnsigned, residue_eq]
  simp [toValue]

theorem value_eq_zero (word : Word) : word.value = 0 ↔ word.bits = 0#64 := by
  constructor
  · intro zero
    rw [← ofInt_value, zero]
    rfl
  · intro zero
    rw [value, zero]
    split <;> rfl

@[simp]
theorem isTrue_toValue (word : Word) : word.toValue.isTrue = word.isTrue := by
  unfold Value.isTrue isTrue
  rw [Bool.eq_iff_iff]
  simp [toValue, word.value_eq_zero]

theorem ofBool_toValue (truth : Bool) : (ofBool truth).toValue = .ofBool truth := by
  cases truth <;> rfl

end Word

/-- **Wrapping keeps 64 bits** of the integer. -/
theorem Value.wrapped_eq (value : Int) (isUnsigned : Bool) :
    ({ value, isUnsigned } : Value).wrapped =
      ({ bits := BitVec.ofInt 64 value, isUnsigned } : Word).toValue := by
  unfold wrapped Word.toValue Word.value
  rw [Word.residue_eq]
  generalize BitVec.ofInt 64 value = bits
  cases isUnsigned with
  | true => rfl
  | false =>
    have half : Int.pow 2 63 = 9223372036854775808 := rfl
    have whole : Int.pow 2 64 = 18446744073709551616 := rfl
    rw [BitVec.toInt_eq_toNat_cond, half, whole]
    by_cases low : (bits.toNat : Int) < 9223372036854775808
    · have low' : 2 * bits.toNat < 18446744073709551616 := by omega
      simp [low, low']
    · have high : ¬ 2 * bits.toNat < 18446744073709551616 := by omega
      simp [low, high]

theorem Word.wrapped_toValue (word : Word) : word.toValue.wrapped = word.toValue := by
  rw [Word.toValue, Value.wrapped_eq, ofInt_value]
  rfl

theorem Word.ofInt_sub (left right : Int) :
    BitVec.ofInt 64 (left - right) = BitVec.ofInt 64 left - BitVec.ofInt 64 right := by
  rw [Int.sub_eq_add_neg, BitVec.ofInt_add, BitVec.ofInt_neg, BitVec.sub_eq_add_neg]

theorem UnaryOp.apply_toValue (op : UnaryOp) (word : Word) :
    op.apply word.toValue = (op.onWord word).toValue := by
  cases op with
  | not => rw [apply, Word.isTrue_toValue, onWord, Word.ofBool_toValue]
  | plus => exact word.wrapped_toValue
  | negate =>
    rw [apply, Word.toValue, Value.wrapped_eq, BitVec.ofInt_neg, Word.ofInt_value]
    rfl
  | complement =>
    have bits : BitVec.ofInt 64 (-word.value - 1) = ~~~word.bits := by
      rw [Word.ofInt_sub, BitVec.ofInt_neg, Word.ofInt_value, BitVec.neg_eq_not_add]
      exact BitVec.add_sub_cancel _ _
    rw [apply, Word.toValue, Value.wrapped_eq, bits]
    rfl

namespace BinaryOp

theorem shiftCount_value (word : Word) : shiftCount word.value = word.bits.toNat % 64 := by
  unfold shiftCount Word.value
  split
  · omega
  · rw [BitVec.toInt_eq_toNat_cond]
    split <;> omega

theorem xor_and_left (x y : BitVec 64) : x ^^^ (x &&& y) = x &&& ~~~y := by
  ext index inside
  cases bit : x[index] <;> simp [bit]

theorem xor_and_right (x y : BitVec 64) : y ^^^ (x &&& y) = y &&& ~~~x := by
  rw [BitVec.and_comm, xor_and_left]

/-- The last bits of what integers share are those that the last bits share. -/
theorem ofInt_bitsAnd (left right : Int) :
    BitVec.ofInt 64 (bitsAnd left right) = BitVec.ofInt 64 left &&& BitVec.ofInt 64 right := by
  cases left <;> cases right <;>
    simp [bitsAnd, BitVec.ofInt_negSucc_eq_not_ofNat, BitVec.ofNat_and, BitVec.ofNat_or,
      BitVec.ofNat_xor, xor_and_left, xor_and_right, BitVec.not_or, BitVec.and_comm]

theorem ofInt_bitsOr (left right : Int) :
    BitVec.ofInt 64 (bitsOr left right) = BitVec.ofInt 64 left ||| BitVec.ofInt 64 right := by
  cases left <;> cases right <;>
    simp [bitsOr, BitVec.ofInt_negSucc_eq_not_ofNat, BitVec.ofNat_and, BitVec.ofNat_or,
      BitVec.ofNat_xor, xor_and_left, xor_and_right, BitVec.not_and, BitVec.or_comm]

theorem ofInt_bitsXor (left right : Int) :
    BitVec.ofInt 64 (bitsXor left right) = BitVec.ofInt 64 left ^^^ BitVec.ofInt 64 right := by
  cases left <;> cases right <;>
    simp [bitsXor, BitVec.ofInt_negSucc_eq_not_ofNat, BitVec.ofNat_xor, ← BitVec.not_xor_left,
      ← BitVec.not_xor_right]

theorem intPow_two (count : Nat) : Int.pow 2 count = (Nat.pow 2 count : Nat) :=
  (Int.natCast_pow 2 count).symm

theorem ofInt_shiftLeft (word : Word) (count : Nat) :
    BitVec.ofInt 64 (word.value * Int.pow 2 count) = (word.shiftedLeft count).bits := by
  have power : BitVec.ofNat 64 (Nat.pow 2 count) = BitVec.twoPow 64 count :=
    BitVec.eq_of_toNat_eq (by rw [BitVec.toNat_ofNat, BitVec.toNat_twoPow]; rfl)
  rw [BitVec.ofInt_mul, Word.ofInt_value, intPow_two, BitVec.ofInt_natCast, power,
    ← BitVec.shiftLeft_eq_mul_twoPow]
  rfl

theorem ofInt_shiftRight (word : Word) (count : Nat) :
    BitVec.ofInt 64 (Int.fdiv word.value (Int.pow 2 count)) = (word.shiftedRight count).bits := by
  rw [intPow_two, Int.fdiv_eq_ediv_of_nonneg _ (Int.natCast_nonneg _)]
  unfold Word.shiftedRight Word.value
  split
  · have quotient : word.bits.toNat / Nat.pow 2 count = (word.bits >>> count).toNat := by
      rw [BitVec.toNat_ushiftRight, Nat.shiftRight_eq_div_pow]
      rfl
    rw [← Int.natCast_ediv, quotient, Word.ofInt_toNat]
  · have quotient : word.bits.toInt / (Nat.pow 2 count : Nat) =
        (word.bits.sshiftRight count).toInt := by
      rw [BitVec.toInt_sshiftRight, Int.shiftRight_eq_div_pow]
      rfl
    rw [quotient, BitVec.ofInt_toInt]

/-- The bits of a truncated quotient. The quotient of the least signed word by -1 is the one that
does not fit. -/
theorem ofInt_tdiv (left right : BitVec 64) (isUnsigned : Bool) :
    BitVec.ofInt 64 (Int.tdiv (Word.value ⟨left, isUnsigned⟩) (Word.value ⟨right, isUnsigned⟩)) =
      if isUnsigned then left / right else left.sdiv right := by
  cases isUnsigned with
  | true =>
    change BitVec.ofInt 64 (Int.tdiv left.toNat right.toNat) = left / right
    rw [← Int.ofNat_tdiv, ← BitVec.toNat_udiv, Word.ofInt_toNat]
  | false =>
    refine BitVec.eq_of_toInt_eq ?_
    change (BitVec.ofInt 64 (Int.tdiv left.toInt right.toInt)).toInt = (left.sdiv right).toInt
    rw [BitVec.toInt_ofInt, BitVec.toInt_sdiv]

theorem ofInt_tmod (left right : BitVec 64) (isUnsigned : Bool) :
    BitVec.ofInt 64 (Int.tmod (Word.value ⟨left, isUnsigned⟩) (Word.value ⟨right, isUnsigned⟩)) =
      if isUnsigned then left % right else left.srem right := by
  cases isUnsigned with
  | true =>
    change BitVec.ofInt 64 (Int.tmod left.toNat right.toNat) = left % right
    rw [← Int.ofNat_tmod, ← BitVec.toNat_umod, Word.ofInt_toNat]
  | false =>
    change BitVec.ofInt 64 (Int.tmod left.toInt right.toInt) = left.srem right
    rw [← BitVec.toInt_srem, BitVec.ofInt_toInt]

theorem operand_eq {word : Word} {isUnsigned : Bool}
    (wider : word.isUnsigned = true → isUnsigned = true) :
    (if isUnsigned then word.toValue.asUnsigned else word.toValue.value) =
      (word.taken isUnsigned).value := by
  cases isUnsigned with
  | true => exact word.asUnsigned_toValue
  | false =>
    have signed : word.isUnsigned = false := by simpa using wider
    simp [Word.taken, Word.toValue, Word.value, signed]

theorem value_lt (left right : BitVec 64) (isUnsigned : Bool) :
    decide (Word.value ⟨left, isUnsigned⟩ < Word.value ⟨right, isUnsigned⟩) =
      if isUnsigned then left.ult right else left.slt right := by
  cases isUnsigned <;> simp [Word.value, BitVec.ult, BitVec.slt]

theorem value_le (left right : BitVec 64) (isUnsigned : Bool) :
    decide (Word.value ⟨left, isUnsigned⟩ ≤ Word.value ⟨right, isUnsigned⟩) =
      if isUnsigned then left.ule right else left.sle right := by
  cases isUnsigned <;> simp [Word.value, BitVec.ule, BitVec.sle]

theorem value_beq (left right : BitVec 64) (isUnsigned : Bool) :
    (Word.value ⟨left, isUnsigned⟩ == Word.value ⟨right, isUnsigned⟩) = (left == right) := by
  rw [Bool.eq_iff_iff, beq_iff_eq, beq_iff_eq]
  constructor
  · intro same
    have bits := congrArg (BitVec.ofInt 64) same
    rwa [Word.ofInt_value, Word.ofInt_value] at bits
  · intro same
    rw [same]

theorem apply_words (op : BinaryOp) (evaluated : Bool) (left right : Word) {isUnsigned : Bool}
    (common : (left.isUnsigned || right.isUnsigned) = isUnsigned) :
    op.apply evaluated left.toValue right.toValue =
      if op.divides && right.bits == 0#64 then
        if evaluated then none else some { value := 0, isUnsigned }
      else (op.compares? (Word.value ⟨left.bits, isUnsigned⟩)
        (Word.value ⟨right.bits, isUnsigned⟩)).elim
          (some (Word.toValue ⟨BitVec.ofInt 64 (op.compute (Word.value ⟨left.bits, isUnsigned⟩)
            (Word.value ⟨right.bits, isUnsigned⟩)), isUnsigned⟩))
          (fun truth => some (Word.ofBool truth).toValue) := by
  have first := operand_eq (show left.isUnsigned = true → isUnsigned = true by grind)
  have second := operand_eq (show right.isUnsigned = true → isUnsigned = true by grind)
  have zero : ((right.taken isUnsigned).value == 0) = (right.bits == 0#64) := by
    rw [Bool.eq_iff_iff, beq_iff_eq, beq_iff_eq]
    exact Word.value_eq_zero _
  have common' : (left.toValue.isUnsigned || right.toValue.isUnsigned) = isUnsigned := common
  unfold apply
  dsimp only
  rw [common', first, second, zero, Value.wrapped_eq]
  congr 1
  change _ = Option.elim (op.compares? (left.taken isUnsigned).value
    (right.taken isUnsigned).value) _ _
  cases op.compares? (left.taken isUnsigned).value (right.taken isUnsigned).value with
  | none => rfl
  | some truth => exact congrArg some (Word.ofBool_toValue truth).symm

/-- **Operators compute with bits**: on words, each operator other than the logical ones is the
operation on their bits in the signedness that they have in common. Where it is not evaluated, a
division by zero is zero. -/
theorem apply_toValue {op : BinaryOp} (notOr : op ≠ .or) (notAnd : op ≠ .and) (evaluated : Bool)
    (left right : Word) :
    op.apply evaluated left.toValue right.toValue = ((op.onWords left right).map Word.toValue).or
      (if evaluated then none
        else some { value := 0, isUnsigned := left.isUnsigned || right.isUnsigned }) := by
  rw [apply_words op evaluated left right rfl]
  unfold onWords
  cases op with
  | or => exact absurd rfl notOr
  | and => exact absurd rfl notAnd
  | equal => simp [divides, compares?, value_beq]
  | notEqual => simp [divides, compares?, bne, value_beq]
  | less => simp [divides, compares?, value_lt]
  | lessEqual => simp [divides, compares?, value_le]
  | greater => simp [divides, compares?, value_lt]
  | greaterEqual => simp [divides, compares?, value_le]
  | add => simp [divides, compares?, compute, BitVec.ofInt_add]
  | subtract => simp [divides, compares?, compute, Word.ofInt_sub]
  | multiply => simp [divides, compares?, compute, BitVec.ofInt_mul]
  | divide =>
    simp only [divides, compares?, compute, Bool.true_and, beq_iff_eq, Option.elim_none, ofInt_tdiv]
    split <;> simp
  | remainder =>
    simp only [divides, compares?, compute, Bool.true_and, beq_iff_eq, Option.elim_none, ofInt_tmod]
    split <;> simp
  | shiftLeft =>
    simp only [divides, compares?, compute, shiftCount_value, ofInt_shiftLeft, Option.elim_none]
    rfl
  | shiftRight =>
    simp only [divides, compares?, compute, shiftCount_value, ofInt_shiftRight, Option.elim_none]
    rfl
  | bitOr =>
    simp [divides, compares?, compute, ofInt_bitsOr, Word.ofInt_value]
  | bitAnd =>
    simp [divides, compares?, compute, ofInt_bitsAnd, Word.ofInt_value]
  | bitXor =>
    simp [divides, compares?, compute, ofInt_bitsXor, Word.ofInt_value]

end BinaryOp

end Preproc.Condition

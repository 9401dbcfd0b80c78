import Mathlib.Data.List.Induction
import Mathlib.Data.Nat.Digits.Defs
import Mathlib.Tactic.IntervalCases
import Preproc.Condition.Literal

/-! # Integer constants

An integer constant is hexadecimal, octal or decimal, and may have a suffix. No digit is a letter of
suffixes, so a constant can be cut in one way only: its suffix is what its last letters spell. A
constant has the positional value of its digits, of any size, unless it is decimal and too long.

Main statement: `integerConstant_iff`.
-/

namespace Preproc.Condition

open Preproc.Text

/-- The ways to write a number. -/
inductive Radix where
  | hexadecimal
  | octal
  | decimal

namespace Radix

def base : Radix → Nat
  | hexadecimal => 16
  | octal => 8
  | decimal => 10

def Digit : Radix → Char → Prop
  | hexadecimal, c => '0' ≤ c ∧ c ≤ '9' ∨ 'a' ≤ c ∧ c ≤ 'f' ∨ 'A' ≤ c ∧ c ≤ 'F'
  | octal, c => '0' ≤ c ∧ c ≤ '7'
  | decimal, c => '0' ≤ c ∧ c ≤ '9'

/-- How digits are written as a constant without a suffix: after `0x` or `0X`, where there has to be
one, after `0`, or by themselves, where the first of them is not zero. -/
inductive Writes : Radix → (digits text : List Char) → Prop
  | hexadecimal {mark : Char} {digits : List Char} (marks : mark = 'x' ∨ mark = 'X')
      (nonempty : digits ≠ []) : Writes hexadecimal digits ('0' :: mark :: digits)
  | octal (digits : List Char) : Writes octal digits ('0' :: digits)
  | decimal {first : Char} (rest : List Char) (nonzero : first ≠ '0') :
      Writes decimal (first :: rest) (first :: rest)

/-- What a digit counts: its place in the row of digits. -/
def worth (c : Char) : Nat :=
  "0123456789abcdef".toList.idxOf c.toLower

def number (radix : Radix) (digits : List Char) : Nat :=
  Nat.ofDigits radix.base (digits.map worth).reverse

variable (radix : Radix) {digits text : List Char}

theorem isDigitOf_iff (c : Char) : isDigitOf radix.base c = true ↔ radix.Digit c := by
  have le (a b : Char) : a ≤ b ↔ a.toNat ≤ b.toNat := Iff.rfl
  have seven : '7'.toNat = 55 := rfl
  unfold isDigitOf digitValue?
  simp only [le, Bool.and_eq_true, decide_eq_true_eq, Char.reduceToNat]
  cases radix <;> simp only [Digit, base, le, Char.reduceToNat, seven] <;> grind

theorem all_isDigitOf_iff :
    digits.all (isDigitOf radix.base) = true ↔ ∀ c ∈ digits, radix.Digit c := by
  simp only [List.all_eq_true, isDigitOf_iff]

variable {radix}

theorem Digit.hexadecimal {c : Char} (digit : radix.Digit c) : Radix.hexadecimal.Digit c := by
  cases radix with
  | hexadecimal => exact digit
  | octal => exact .inl ⟨digit.1, Char.le_trans digit.2 (by decide)⟩
  | decimal => exact .inl digit

variable {c : Char}

theorem Digit.mem (digit : radix.Digit c) : c ∈ "0123456789abcdefABCDEF".toList := by
  have le (a b : Char) : a ≤ b ↔ a.toNat ≤ b.toNat := Iff.rfl
  have ranges := digit.hexadecimal
  simp only [Digit, le, Char.reduceToNat] at ranges
  rw [← Char.ofNat_toNat c]
  rcases ranges with ⟨low, high⟩ | ⟨low, high⟩ | ⟨low, high⟩ <;>
    interval_cases c.toNat <;> decide

theorem Digit.of_all (digit : radix.Digit c) {test : Char → Bool}
    (all : "0123456789abcdefABCDEF".toList.all test = true) : test c = true :=
  List.all_eq_true.mp all c digit.mem

theorem Digit.digitValue? (digit : radix.Digit c) : digitValue? c = some (worth c) :=
  beq_iff_eq.mp (digit.of_all (by decide : List.all _
    (fun c => Text.digitValue? c == some (worth c)) = true))

theorem Digit.not_isSuffixLetter (digit : radix.Digit c) : isSuffixLetter c = false :=
  Bool.not_eq_true' _ |>.mp (digit.of_all (by decide :
    List.all _ (fun c => !isSuffixLetter c) = true))

theorem positional_eq (all : ∀ c ∈ digits, radix.Digit c) :
    positional radix.base digits = radix.number digits := by
  induction digits using List.reverseRecOn with
  | nil => rfl
  | append_singleton digits last ih =>
    obtain ⟨front, final⟩ := List.forall_mem_append.mp all
    have value := (final last List.mem_cons_self).digitValue?
    calc positional radix.base (digits ++ [last])
        = positional radix.base digits * radix.base + worth last := by
          rw [positional, List.foldl_append, List.foldl_cons, List.foldl_nil, value]
          rfl
      _ = worth last + radix.base * radix.number digits := by
          rw [ih front, Nat.mul_comm, Nat.add_comm]
      _ = radix.number (digits ++ [last]) := by
          simp [number, Nat.ofDigits_cons]

theorem pow_le_number {first : Char} (rest : List Char) (digit : decimal.Digit first)
    (nonzero : first ≠ '0') : Nat.pow 10 rest.length ≤ decimal.number (first :: rest) := by
  have positive : 0 < worth first := by
    have counts := digit.of_all (by decide : List.all _ (fun c => c == '0' || 0 < worth c) = true)
    simpa [nonzero] using counts
  have last : decimal.number (first :: rest) =
      decimal.number rest + Nat.pow 10 rest.length * worth first := by
    simp [number, base, Nat.ofDigits_append]
  rw [last]
  exact Nat.le_add_left_of_le (Nat.le_mul_of_pos_right _ positive)

theorem Writes.last (writes : radix.Writes digits text) (all : ∀ c ∈ digits, radix.Digit c) :
    ∀ c ∈ text.getLast?, isSuffixLetter c = false := by
  have ends (front : List Char) (nonempty : digits ≠ []) :
      ∀ c ∈ (front ++ digits).getLast?, isSuffixLetter c = false := by
    intro c last
    obtain ⟨final, found⟩ := Option.isSome_iff_exists.mp (List.getLast?_isSome.mpr nonempty)
    rw [List.getLast?_append, found, Option.some_or] at last
    exact (all c (List.mem_of_getLast? (found.trans last))).not_isSuffixLetter
  cases writes with
  | @hexadecimal mark _ _ nonempty => exact ends ['0', mark] nonempty
  | octal =>
    cases digits with
    | nil => simp [isSuffixLetter]
    | cons first rest => exact ends ['0'] (by simp)
  | decimal => exact ends [] (by simp)

end Radix

/-- **The digits of a constant** are read in the base that they are written in. -/
theorem integerDigits?_iff (text : List Char) (value : Nat) :
    integerDigits? text = some value ↔ ∃ (radix : Radix) (digits : List Char),
      radix.Writes digits text ∧ (∀ c ∈ digits, radix.Digit c) ∧ value = radix.number digits := by
  constructor
  · have reads (radix : Radix) {digits : List Char} (writes : radix.Writes digits text)
        (all : digits.all (isDigitOf radix.base) = true)
        (read : some (positional radix.base digits) = some value) :
        ∃ (radix : Radix) (digits : List Char), radix.Writes digits text ∧
          (∀ c ∈ digits, radix.Digit c) ∧ value = radix.number digits := by
      have all := radix.all_isDigitOf_iff.mp all
      exact ⟨radix, digits, writes, all, by rw [← Option.some.inj read, Radix.positional_eq all]⟩
    fun_cases integerDigits? text with
    | case1 => intro read; cases read
    | case2 c digit =>
      by_cases zero : c = '0'
      · subst zero
        exact reads .octal (.octal []) rfl
      · exact reads .decimal (.decimal [] zero) (by simpa [Radix.base] using digit)
    | case3 => intro read; cases read
    | case4 c mark rest marks fits =>
      simp only [Bool.and_eq_true, Bool.or_eq_true, beq_iff_eq] at marks
      obtain ⟨rfl, marks⟩ := marks
      simp only [Bool.and_eq_true, Bool.not_eq_true', List.isEmpty_eq_false_iff] at fits
      exact reads .hexadecimal (.hexadecimal marks fits.1) fits.2
    | case5 => intro read; cases read
    | case6 c mark rest unmarked zero fits =>
      obtain rfl := beq_iff_eq.mp zero
      exact reads .octal (.octal _) fits
    | case7 => intro read; cases read
    | case8 c mark rest unmarked nonzero fits =>
      exact reads .decimal (.decimal _ (by simpa using nonzero)) fits
    | case9 => intro read; cases read
  · rintro ⟨radix, digits, writes, all, rfl⟩
    rw [← Radix.positional_eq all]
    have all := radix.all_isDigitOf_iff.mpr all
    cases writes with
    | hexadecimal marks nonempty =>
      have all : digits.all (isDigitOf 16) = true := all
      simp [integerDigits?, marks, nonempty, all, Radix.base]
    | octal =>
      cases digits with
      | nil => rfl
      | cons first rest =>
        have all : (first :: rest).all (isDigitOf 8) = true := all
        have unmarked : (first == 'x' || first == 'X') = false := by
          have digit : Radix.octal.Digit first :=
            (Radix.octal.isDigitOf_iff first).mp (List.all_eq_true.mp all first List.mem_cons_self)
          simpa using digit.of_all (by decide :
            List.all _ (fun c => !(c == 'x' || c == 'X')) = true)
        simp [integerDigits?, unmarked, all, Radix.base]
    | decimal rest nonzero =>
      have all : (_ :: rest).all (isDigitOf 10) = true := all
      cases rest with
      | nil => simpa [integerDigits?, Radix.base] using all
      | cons second rest => simp [integerDigits?, nonzero, all, Radix.base]

/-- The suffixes: at most one mark of each kind, in either order. -/
def Suffix (text : List Char) : Prop :=
  ∃ unsigned long : List Char, unsigned ∈ [[], ['u'], ['U']] ∧
    long ∈ [[], ['l'], ['L'], ['l', 'l'], ['L', 'L']] ∧
    (text = unsigned ++ long ∨ text = long ++ unsigned)

theorem mem_suffixes_iff (text : List Char) : text ∈ suffixes ↔ Suffix text := by
  constructor
  · have all : ∀ text ∈ suffixes, ∃ unsigned ∈ [[], ['u'], ['U']],
        ∃ long ∈ [[], ['l'], ['L'], ['l', 'l'], ['L', 'L']],
          text = unsigned ++ long ∨ text = long ++ unsigned := by decide
    intro member
    obtain ⟨unsigned, first, long, second, whole⟩ := all text member
    exact ⟨unsigned, long, first, second, whole⟩
  · have all : ∀ unsigned ∈ [[], ['u'], ['U']],
        ∀ long ∈ [[], ['l'], ['L'], ['l', 'l'], ['L', 'L']],
          unsigned ++ long ∈ suffixes ∧ long ++ unsigned ∈ suffixes := by decide
    rintro ⟨unsigned, long, first, second, rfl | rfl⟩
    · exact (all unsigned first long second).1
    · exact (all unsigned first long second).2

section Cut

variable {radix : Radix} {digits front suffix : List Char} (writes : radix.Writes digits front)
  (all : ∀ c ∈ digits, radix.Digit c) (fits : Suffix suffix)

include writes all fits

/-- The letters at the end of a constant are its suffix. -/
theorem suffix_of_writes :
    (front ++ suffix).reverse.takeWhile isSuffixLetter = suffix.reverse ∧
      (front ++ suffix).reverse.dropWhile isSuffixLetter = front.reverse := by
  have letters : suffixes.all (·.all isSuffixLetter) = true := by decide
  have letters : ∀ c ∈ suffix.reverse, isSuffixLetter c = true := by
    simpa using List.all_eq_true.mp letters suffix ((mem_suffixes_iff suffix).mpr fits)
  have ends := writes.last all
  rw [← List.head?_reverse] at ends
  rw [List.reverse_append, List.takeWhile_append_of_pos letters,
    List.dropWhile_append_of_pos letters]
  cases back : front.reverse with
  | nil => simp
  | cons last rest =>
    rw [back] at ends
    simp [ends last rfl]

theorem isTooLong_iff :
    isTooLong (front ++ suffix) = true ↔ radix = .decimal ∧ decimalLimit < digits.length := by
  unfold isTooLong
  rw [(suffix_of_writes writes all fits).2]
  cases writes with
  | hexadecimal => simp
  | octal => simp
  | decimal rest nonzero => simp [nonzero]

end Cut

theorem integer?_iff_constant (text : List Char) (value : Nat) :
    integer? text = some value ↔ ∃ (radix : Radix) (digits front suffix : List Char),
      text = front ++ suffix ∧ radix.Writes digits front ∧ (∀ c ∈ digits, radix.Digit c) ∧
        Suffix suffix ∧ value = radix.number digits := by
  constructor
  · intro read
    let suffix := (text.reverse.takeWhile isSuffixLetter).reverse
    let front := (text.reverse.dropWhile isSuffixLetter).reverse
    have whole : text = front ++ suffix := by
      rw [← List.reverse_append, List.takeWhile_append_dropWhile, List.reverse_reverse]
    have read : (if suffix ∈ suffixes then integerDigits? front else none) = some value := by
      simpa [integer?] using read
    split at read
    next member =>
      obtain ⟨radix, digits, writes, all, value⟩ := (integerDigits?_iff front _).mp read
      exact ⟨radix, digits, front, suffix, whole, writes, all, (mem_suffixes_iff suffix).mp member,
        value⟩
    next => cases read
  · rintro ⟨radix, digits, front, suffix, rfl, writes, all, fits, rfl⟩
    obtain ⟨ends, begins⟩ := suffix_of_writes writes all fits
    have member := (mem_suffixes_iff suffix).mpr fits
    have read := (integerDigits?_iff front _).mpr ⟨radix, digits, writes, all, rfl⟩
    unfold integer?
    rw [ends, begins, List.reverse_reverse]
    simp [member, read]

/-- A number that fits a word has no constant that is too long. -/
theorem integerConstant_of_lt {text : List Char} {value : Nat} (read : integer? text = some value)
    (small : value < Nat.pow 2 64) : integerConstant text = .value value := by
  have short : isTooLong text = false := by
    by_contra exceeds
    obtain ⟨radix, digits, front, suffix, rfl, writes, all, fits, rfl⟩ :=
      (integer?_iff_constant text value).mp read
    obtain ⟨rfl, long⟩ := (isTooLong_iff writes all fits).mp (by simpa using exceeds)
    cases writes with
    | @decimal first rest nonzero =>
      have least := Radix.pow_le_number rest (all first List.mem_cons_self) nonzero
      have length : 20 ≤ rest.length := by
        simp only [List.length_cons, decimalLimit] at long
        omega
      have grows : Nat.pow 10 20 ≤ Nat.pow 10 rest.length := Nat.pow_le_pow_right (by decide) length
      have wide : Nat.pow 2 64 < Nat.pow 10 20 := by decide
      omega
  unfold integerConstant
  rw [read, short]
  rfl

/-- One digit more than are read. -/
def longDigits : List Char :=
  List.replicate (decimalLimit + 1) '1'

theorem integerConstant_longDigits : integerConstant longDigits = .tooLong := by
  have writes : Radix.decimal.Writes longDigits longDigits := .decimal _ (by decide)
  have all : ∀ c ∈ longDigits, Radix.decimal.Digit c := by
    intro c member
    rw [List.eq_of_mem_replicate member]
    exact ⟨by decide, by decide⟩
  have fits : Suffix [] := ⟨[], [], by decide, by decide, .inl rfl⟩
  have read : integer? longDigits = some (Radix.decimal.number longDigits) :=
    (integer?_iff_constant _ _).mpr
      ⟨_, _, _, [], (List.append_nil _).symm, writes, all, fits, rfl⟩
  have long : isTooLong longDigits = true := by
    rw [← List.append_nil longDigits]
    exact (isTooLong_iff writes all fits).mpr ⟨rfl, by simp [longDigits]⟩
  unfold integerConstant
  rw [read, long]
  rfl

end Preproc.Condition

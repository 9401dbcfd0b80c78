import Preproc.Source.Scan

/-! # Shapes of lexemes

A finished lexeme that is cut off a text has one of a few shapes, one for each kind. A shape says
what the lexeme is by itself, without the text that follows it.

Main statement: `shape_of_begins`.
-/

namespace Preproc.Source

open Preproc.Text

/-- What can stand before the quote of a literal. -/
def encodingMarks : List (List Char) :=
  [[], ['u'], ['U'], ['L'], ['u', '8']]

/-- Whether a character is a lexeme of its own that is of no other kind. -/
structure Stray (c : Char) : Prop where
  newline : c ≠ '\n'
  blank : isBlank c = false
  quote : isQuote c = false
  digit : isDigit c = false
  start : isIdentifierStart c = false
  punctuator : [c] ∉ punctuators

/-- The finished lexemes, by themselves. -/
inductive Shape : TokenKind → List Char → Prop
  | newline : Shape .newline ['\n']
  | literal {mark body : List Char} {quote : Char} (marked : mark ∈ encodingMarks)
      (quotes : isQuote quote = true) (closed : splitQuoted quote body = (body, true, [])) :
      Shape (if quote == '\x22' then .string else .character) (mark ++ quote :: body)
  | number {c : Char} {body : List Char} (starts : startsNumber (c :: body) = true)
      (whole : splitNumber body = (body, [])) : Shape .number (c :: body)
  | identifier {c : Char} {body : List Char} (starts : isIdentifierStart c = true)
      (noDigit : isDigit c = false) (parts : ∀ d ∈ body, isIdentifierPart d = true) :
      Shape .identifier (c :: body)
  | punctuator {mark : List Char} (listed : mark ∈ punctuators) : Shape .punctuator mark
  | other {c : Char} (stray : Stray c) : Shape .other [c]

/-- Whether a text begins with a lexeme, before which there is no trivia and after which there is
another text. -/
def Begins (text : List Char) (lexeme : Lexeme) (after : List Char) : Prop :=
  trivia? text = none ∧ ∃ c rest, text = c :: rest ∧ splitLexeme c rest = (lexeme, after)

theorem forall_mem_of_all {α : Type} {property : α → Prop} [DecidablePred property]
    {items : List α} (all : (items.all fun item => decide (property item)) = true) :
    ∀ item ∈ items, property item := by
  simpa using all

variable {text rest : List Char} {c : Char}

section Front

variable {c : Char} {rest : List Char}

theorem trivia?_eq_none_iff :
    trivia? (c :: rest) = none ↔
      isBlank c = false ∧ ¬ (c = '/' ∧ (rest.head? = some '/' ∨ rest.head? = some '*')) := by
  unfold trivia?
  split
  next rest' whole => simp_all
  next rest' whole =>
    obtain ⟨rfl, rfl⟩ : c = '/' ∧ rest = '*' :: rest' := by simpa using whole
    split <;> simp
  next c' rest' notLine notBlock whole =>
    obtain ⟨rfl, rfl⟩ : c = c' ∧ rest = rest' := by simpa using whole
    cases blank : isBlank c with
    | true => simp
    | false =>
      have noComment : ¬ (c = '/' ∧ (rest.head? = some '/' ∨ rest.head? = some '*')) := by
        rintro ⟨rfl, opens⟩
        cases rest with
        | nil => simp at opens
        | cons next rest =>
          rcases opens with line | block
          · simp_all
          · simp_all
      simpa using noComment
  next whole => cases whole

/-- The characters that no word begins with, and no part of a word is one of. -/
def breaks : List Char :=
  ['\n', ' ', '\t', '\x0b', '\x0c', '/', '\x22', '\x27']

theorem not_mem_breaks_of_part (part : isNumberPart c = true ∨ isIdentifierPart c = true) :
    c ∉ breaks := by
  intro member
  have noPart : ∀ d ∈ breaks, isNumberPart d = false ∧ isIdentifierPart d = false :=
    forall_mem_of_all (by decide)
  obtain ⟨noNumber, noIdentifier⟩ := noPart c member
  rw [noNumber, noIdentifier] at part
  simp at part

theorem trivia?_of_not_mem_breaks (clear : c ∉ breaks) : trivia? (c :: rest) = none := by
  rw [trivia?_eq_none_iff]
  simp_all [breaks, isBlank]

theorem ne_newline_of_not_mem_breaks (clear : c ∉ breaks) : (c == '\n') = false := by
  simp_all [breaks]

theorem isQuote_of_not_mem_breaks (clear : c ∉ breaks) : isQuote c = false := by
  simp_all [breaks, isQuote]

theorem literal?_of_unmarked (unquoted : isQuote c = false) (small : c ≠ 'u') (large : c ≠ 'U')
    (long : c ≠ 'L') : literal? (c :: rest) = none := by
  match rest with
  | [] => simp [literal?, unquoted]
  | [next] => simp [literal?, unquoted, small, large, long]
  | next :: third :: rest => simp [literal?, unquoted, small, large, long]

theorem literal?_of_mark {mark : List Char} {quote : Char} (marked : mark ∈ encodingMarks)
    (quotes : isQuote quote = true) :
    literal? (mark ++ quote :: rest) = some (literal mark quote rest) := by
  have plain : isQuote 'u' = false ∧ isQuote 'U' = false ∧ isQuote 'L' = false ∧
      isQuote '8' = false := by decide
  obtain ⟨small, large, long, eight⟩ := plain
  rcases (by simpa [encodingMarks] using marked) with rfl | rfl | rfl | rfl | rfl
  · simp [literal?, quotes]
  · simp [literal?, quotes, small]
  · simp [literal?, quotes, large]
  · simp [literal?, quotes, long]
  · simp [literal?, quotes, small, eight]

variable {found : Lexeme × List Char}

theorem mark_of_literal? (fits : literal? text = some found) :
    ∃ mark ∈ encodingMarks, ∃ quote rest, isQuote quote = true ∧ text = mark ++ quote :: rest ∧
      found = literal mark quote rest := by
  unfold literal? at fits
  split at fits
  · cases fits
  next c rest =>
    split at fits
    next quotes =>
      exact ⟨[], by decide, c, rest, quotes, rfl, (Option.some.inj fits).symm⟩
    split at fits
    · cases fits
    next next rest =>
      split at fits
      next marked =>
        simp only [Bool.and_eq_true, Bool.or_eq_true, beq_iff_eq] at marked
        obtain ⟨mark, quotes⟩ := marked
        refine ⟨[c], ?_, next, rest, quotes, rfl, (Option.some.inj fits).symm⟩
        rcases mark with (rfl | rfl) | rfl <;> decide
      split at fits
      · cases fits
      next third rest =>
        split at fits
        next marked =>
          simp only [Bool.and_eq_true, beq_iff_eq] at marked
          obtain ⟨⟨rfl, rfl⟩, quotes⟩ := marked
          exact ⟨['u', '8'], by decide, third, rest, quotes, rfl, (Option.some.inj fits).symm⟩
        next => cases fits

theorem kind_of_literal? (fits : literal? text = some found) :
    found.1.kind = .string ∨ found.1.kind = .character := by
  obtain ⟨mark, _, quote, rest, _, _, rfl⟩ := mark_of_literal? fits
  unfold literal
  split
  · exact .inl rfl
  · exact .inr rfl

end Front

variable {body after : List Char}

section Literals

variable {quote : Char}

theorem splitQuoted_of_closed (closed : splitQuoted quote text = (body, true, after)) :
    body.getLast? = some quote ∧
      ∀ more, splitQuoted quote (body ++ more) = (body, true, more) := by
  fun_induction splitQuoted quote text generalizing body after with
  | case1 => simp at closed
  | case2 c newline => simp at closed
  | case3 c notNewline =>
    obtain ⟨rfl, rfl, rfl⟩ : [c] = body ∧ c = quote ∧ [] = after := by simpa using closed
    exact ⟨rfl, fun more => by cases more <;> simp_all [splitQuoted]⟩
  | case4 c next rest newline => simp at closed
  | case5 c next rest notNewline ends =>
    obtain ⟨rfl, rfl⟩ : [c] = body ∧ next :: rest = after := by simpa using closed
    exact ⟨by simpa using ends, fun more => by cases more <;> simp_all [splitQuoted]⟩
  | case6 c next rest notNewline goesOn escapes inner innerClosed left found ih =>
    obtain ⟨rfl, rfl, rfl⟩ : c :: next :: inner = body ∧ innerClosed = true ∧ left = after := by
      simpa using closed
    obtain ⟨last, again⟩ := ih found
    exact ⟨by simp [List.getLast?_cons, last], fun more => by
      simp [splitQuoted, notNewline, goesOn, escapes, again]⟩
  | case7 c next rest notNewline goesOn plain inner innerClosed left found ih =>
    obtain ⟨rfl, rfl, rfl⟩ : c :: inner = body ∧ innerClosed = true ∧ left = after := by
      simpa using closed
    obtain ⟨last, again⟩ := ih found
    have whole := splitQuoted_text quote (next :: rest)
    rw [found] at whole
    cases inner with
    | nil => simp at last
    | cons first inner =>
      obtain ⟨rfl, _⟩ : first = next ∧ _ := by simpa using whole
      refine ⟨by simpa using last, fun more => ?_⟩
      have later := again more
      rw [List.cons_append] at later
      simp [splitQuoted, notNewline, goesOn, plain, later]

theorem ne_newline_of_mem_splitQuoted : ∀ c ∈ (splitQuoted quote text).1, c ≠ '\n' := by
  fun_induction splitQuoted quote text with
  | case1 => simp
  | case2 c newline => simp
  | case3 c notNewline => simpa using notNewline
  | case4 c next rest newline => simp
  | case5 c next rest notNewline ends => simpa using notNewline
  | case6 c next rest notNewline goesOn escapes inner innerClosed left found ih =>
    rw [found] at ih
    have notNext : next ≠ '\n' := by simp_all
    exact List.forall_mem_cons.mpr
      ⟨by simpa using notNewline, List.forall_mem_cons.mpr ⟨notNext, ih⟩⟩
  | case7 c next rest notNewline goesOn plain inner innerClosed left found ih =>
    rw [found] at ih
    exact List.forall_mem_cons.mpr ⟨by simpa using notNewline, ih⟩

end Literals

section Numbers

theorem isNumberPart_of_isExponentMark (mark : isExponentMark c = true) :
    isNumberPart c = true := by
  have all : ∀ d ∈ ['e', 'E', 'p', 'P'], isNumberPart d = true := forall_mem_of_all (by decide)
  exact all c (by simpa [isExponentMark, or_assoc] using mark)

theorem splitNumber_fst (text : List Char) :
    splitNumber (splitNumber text).1 = ((splitNumber text).1, []) := by
  fun_induction splitNumber text with
  | case1 => rfl
  | case2 c part => simp [splitNumber, part]
  | case3 c noPart => rfl
  | case4 c sign rest pair body after found ih =>
    rw [found] at ih
    simp [splitNumber, pair, ih]
  | case5 c sign rest noPair part body after found ih =>
    rw [found] at ih
    have whole := splitNumber_text (sign :: rest)
    rw [found] at whole
    cases body with
    | nil => simp [splitNumber, part]
    | cons first body =>
      obtain ⟨rfl, _⟩ : first = sign ∧ _ := by simpa using whole
      simp [splitNumber, noPair, part, ih]
  | case6 c sign rest noPair noPart => rfl

theorem splitNumber_eq_nil_iff {text : List Char} :
    splitNumber text = ([], text) ↔ text.head?.any isNumberPart = false := by
  match text with
  | [] => simp [splitNumber]
  | [c] => cases part : isNumberPart c <;> simp [splitNumber, part]
  | c :: sign :: rest =>
    unfold splitNumber
    by_cases pair : (isExponentMark c && (sign == '+' || sign == '-')) = true
    · have part : isNumberPart c = true :=
        isNumberPart_of_isExponentMark (by simp_all)
      simp [pair, part]
    · cases part : isNumberPart c <;> simp [pair, part]

end Numbers

theorem startsNumber_cons_append
    (starts : startsNumber (c :: body) = true) : startsNumber (c :: (body ++ after)) = true := by
  cases body with
  | nil =>
    have digit : isDigit c = true := starts
    cases after <;> simp [startsNumber, digit]
  | cons next body => exact starts

theorem digit_or_point_of_startsNumber
    (starts : startsNumber (c :: rest) = true) : isDigit c = true ∨ c = '.' := by
  cases rest with
  | nil => exact .inl starts
  | cons next rest =>
    rcases (by simpa [startsNumber] using starts) with digit | ⟨point, _⟩
    · exact .inl digit
    · exact .inr point

theorem isNumberPart_of_startsNumber
    (starts : startsNumber (c :: rest) = true) : isNumberPart c = true := by
  rcases digit_or_point_of_startsNumber starts with digit | rfl
  · simp [isNumberPart, digit]
  · decide

theorem unmarked_of_startsNumber
    (starts : startsNumber (c :: rest) = true) : c ∉ ['u', 'U', 'L', 'e', 'E', 'p', 'P'] := by
  intro member
  have noPart : ∀ d ∈ ['u', 'U', 'L', 'e', 'E', 'p', 'P'], isDigit d = false ∧ d ≠ '.' :=
    forall_mem_of_all (by decide)
  obtain ⟨noDigit, noPoint⟩ := noPart c member
  rcases digit_or_point_of_startsNumber starts with digit | point
  · rw [noDigit] at digit
    cases digit
  · exact noPoint point

theorem isIdentifierPart_of_isIdentifierStart (starts : isIdentifierStart c = true) :
    isIdentifierPart c = true := by
  unfold isIdentifierPart
  unfold isIdentifierStart at starts
  simp [starts]

theorem startsNumber_fst (starts : startsNumber (c :: rest) = true) :
    startsNumber (c :: (splitNumber rest).1) = true := by
  cases rest with
  | nil => exact starts
  | cons next rest =>
    have whole := splitNumber_text (next :: rest)
    rcases (by simpa [startsNumber] using starts) with digit | ⟨rfl, digit⟩
    · cases body : (splitNumber (next :: rest)).1 <;> simp [startsNumber, digit]
    · cases body : (splitNumber (next :: rest)).1 with
      | nil =>
        have noPart := splitNumber_eq_nil_iff.mp
          (Prod.ext body (by simpa [body] using whole) : splitNumber (next :: rest) = _)
        simp [isNumberPart, digit] at noPart
      | cons first inner =>
        rw [body] at whole
        obtain ⟨rfl, _⟩ : first = next ∧ _ := by simpa using whole
        simp [startsNumber, digit]

theorem isDigit_of_not_startsNumber
    (starts : ¬ startsNumber (c :: rest) = true) : isDigit c = false := by
  cases rest with
  | nil => simpa [startsNumber] using starts
  | cons next rest =>
    cases digit : isDigit c with
    | false => rfl
    | true => simp [startsNumber, digit] at starts

/-- **A lexeme that is finished has the shape of its kind.** -/
theorem shape_of_begins {lexeme : Lexeme}
    (begins : Begins text lexeme after) (finished : lexeme.unfinishedAt = none) :
    Shape lexeme.kind lexeme.text := by
  obtain ⟨noTrivia, c, rest, rfl, split⟩ := begins
  unfold splitLexeme at split
  split at split
  next newline =>
    obtain ⟨rfl, _⟩ := Prod.mk.inj split
    obtain rfl : c = '\n' := by simpa using newline
    exact .newline
  next notNewline =>
  split at split
  next found fits =>
    obtain ⟨mark, marked, quote, inner, quotes, _, rfl⟩ := mark_of_literal? fits
    generalize whole : splitQuoted quote inner = parts at split
    obtain ⟨body, closed, left⟩ := parts
    have lexeme_eq : lexeme = (literal mark quote inner).1 := by rw [split]
    subst lexeme_eq
    have closed : closed = true := by simpa [literal, whole] using finished
    subst closed
    have shape := Shape.literal marked quotes (by simpa using (splitQuoted_of_closed whole).2 [])
    simpa [literal, whole] using shape
  next noLiteral =>
  split at split
  next starts =>
    obtain ⟨rfl, _⟩ := Prod.mk.inj split
    exact .number (startsNumber_fst starts) (splitNumber_fst rest)
  next noNumber =>
  split at split
  next starts =>
    obtain ⟨rfl, _⟩ := Prod.mk.inj split
    refine .identifier starts (isDigit_of_not_startsNumber noNumber) ?_
    exact List.all_eq_true.mp List.all_takeWhile
  next noStart =>
  split at split
  next mark fits =>
    obtain ⟨rfl, _⟩ := Prod.mk.inj split
    exact .punctuator (List.mem_of_find?_eq_some fits)
  next noMark =>
    obtain ⟨rfl, _⟩ := Prod.mk.inj split
    have unquoted : isQuote c = false := by
      cases quotes : isQuote c with
      | false => rfl
      | true => simp [literal?, quotes] at noLiteral
    have unlisted : [c] ∉ punctuators := by
      intro listed
      exact List.find?_eq_none.mp noMark [c] listed (by simp)
    exact .other ⟨by simpa using notNewline, (trivia?_eq_none_iff.mp noTrivia).1, unquoted,
      isDigit_of_not_startsNumber noNumber, by simpa using noStart, unlisted⟩

section Characters

theorem sign_or_part_of_mem_splitNumber :
    ∀ c ∈ (splitNumber text).1, isNumberPart c = true ∨ c = '+' ∨ c = '-' := by
  fun_induction splitNumber text with
  | case1 => simp
  | case2 c part => simp [part]
  | case3 c noPart => simp
  | case4 c sign rest pair body after found ih =>
    rw [found] at ih
    obtain ⟨mark, signs⟩ : isExponentMark c = true ∧ (sign = '+' ∨ sign = '-') := by
      simpa using pair
    exact List.forall_mem_cons.mpr
      ⟨.inl (isNumberPart_of_isExponentMark mark), List.forall_mem_cons.mpr ⟨.inr signs, ih⟩⟩
  | case5 c sign rest noPair part body after found ih =>
    rw [found] at ih
    exact List.forall_mem_cons.mpr ⟨.inl part, ih⟩
  | case6 c sign rest noPair noPart => simp

variable {kind : TokenKind} {text : List Char}

theorem Shape.ne_nil (shape : Shape kind text) : text ≠ [] := by
  cases shape with
  | punctuator listed => exact punctuators_ne_nil _ listed
  | _ => simp

theorem ne_of_part (part : isNumberPart c = true ∨ isIdentifierPart c = true) :
    c ≠ '\n' ∧ c ≠ ' ' := by
  have clear := not_mem_breaks_of_part part
  simp_all [breaks]

theorem ne_of_isQuote {quote : Char} (quotes : isQuote quote = true) :
    quote ≠ '\n' ∧ quote ≠ ' ' := by
  rcases (by simpa [isQuote] using quotes) with rfl | rfl <;> decide

theorem ne_newline_of_mem_literal {mark : List Char} {quote : Char}
    (marked : mark ∈ encodingMarks) (quotes : isQuote quote = true) (plain : ∀ c ∈ body, c ≠ '\n') :
    ∀ c ∈ mark ++ quote :: body, c ≠ '\n' := by
  have marks : ∀ c ∈ encodingMarks.flatten, c ≠ '\n' := forall_mem_of_all (by decide)
  refine List.forall_mem_append.mpr ⟨fun c front => ?_, List.forall_mem_cons.mpr ⟨?_, plain⟩⟩
  · exact marks c (List.mem_flatten_of_mem marked front)
  · exact (ne_of_isQuote quotes).1

variable (shape : Shape kind text)

include shape

theorem Shape.literal_or_plain (notNewline : kind ≠ .newline) :
    (∃ mark ∈ encodingMarks, ∃ quote body, isQuote quote = true ∧
      splitQuoted quote body = (body, true, []) ∧ text = mark ++ quote :: body) ∨
      ∀ c ∈ text, c ≠ '\n' ∧ c ≠ ' ' := by
  cases shape with
  | newline => exact absurd rfl notNewline
  | literal marked quotes closed => exact .inl ⟨_, marked, _, _, quotes, closed, rfl⟩
  | @number c body starts whole =>
    refine .inr (List.forall_mem_cons.mpr ⟨?_, fun d member => ?_⟩)
    · exact ne_of_part (.inl (isNumberPart_of_startsNumber starts))
    have inside : d ∈ (splitNumber body).1 := by rwa [whole]
    rcases sign_or_part_of_mem_splitNumber d inside with part | rfl | rfl
    · exact ne_of_part (.inl part)
    · decide
    · decide
  | identifier starts noDigit parts =>
    refine .inr (List.forall_mem_cons.mpr ⟨?_, fun d member => ?_⟩)
    · exact ne_of_part (.inr (isIdentifierPart_of_isIdentifierStart starts))
    · exact ne_of_part (.inr (parts d member))
  | punctuator listed =>
    have all : ∀ c ∈ punctuators.flatten, c ≠ '\n' ∧ c ≠ ' ' := forall_mem_of_all (by decide)
    exact .inr fun c member => all c (List.mem_flatten_of_mem listed member)
  | other stray =>
    refine .inr (List.forall_mem_singleton.mpr ⟨stray.newline, ?_⟩)
    rintro rfl
    exact absurd stray.blank (by decide)

theorem Shape.ne_newline (notNewline : kind ≠ .newline) : ∀ c ∈ text, c ≠ '\n' := by
  rcases shape.literal_or_plain notNewline with
    ⟨mark, marked, quote, body, quotes, closed, rfl⟩ | plain
  · refine ne_newline_of_mem_literal marked quotes fun c inside => ?_
    exact ne_newline_of_mem_splitQuoted c (by rwa [closed])
  · exact fun c member => (plain c member).1

theorem Shape.ne_directive : kind ≠ .directive := by
  intro directive
  cases shape with
  | literal => split at directive <;> exact nomatch directive
  | newline | number | identifier | punctuator | other => exact nomatch directive

theorem Shape.eq_of_newline (newline : kind = .newline) : text = ['\n'] := by
  cases shape with
  | newline => rfl
  | literal => split at newline <;> exact nomatch newline
  | number | identifier | punctuator | other => exact nomatch newline

theorem Shape.head_ne_space (notNewline : kind ≠ .newline) : ∀ c ∈ text.head?, c ≠ ' ' := by
  rcases shape.literal_or_plain notNewline with
    ⟨mark, marked, quote, body, quotes, closed, rfl⟩ | plain
  · have space := (ne_of_isQuote quotes).2
    rcases (by simpa [encodingMarks] using marked) with rfl | rfl | rfl | rfl | rfl
    · simpa using space
    all_goals simp
  · exact fun c member => (plain c (List.mem_of_mem_head? member)).2

theorem Shape.getLast_ne_space (notNewline : kind ≠ .newline) : ∀ c ∈ text.getLast?, c ≠ ' ' := by
  rcases shape.literal_or_plain notNewline with
    ⟨mark, marked, quote, body, quotes, closed, rfl⟩ | plain
  · have last : (mark ++ quote :: body).getLast? = some quote := by
      have inner := (splitQuoted_of_closed closed).1
      simp [List.getLast?_append, List.getLast?_cons, inner]
    rw [last]
    simpa using (ne_of_isQuote quotes).2
  · exact fun c member => (plain c (List.mem_of_getLast? member)).2

end Characters

end Preproc.Source

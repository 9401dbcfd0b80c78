import Preproc.Proofs.Source.Shape

/-! # Lexemes that run on

Whether a lexeme of some shape is cut off a text that it begins depends on the first characters
after it: there may be more to an identifier or a number, a longer punctuator may fit, or a comment
may begin.

Main statement: `Shape.begins_iff`.
-/

namespace Preproc.Source

open Preproc.Text

/-- Whether a number with a last character goes on with a text. -/
def numberGoesOn (last : Option Char) (after : List Char) : Bool :=
  after.head?.any isNumberPart
    || (last.any isExponentMark && after.head?.any fun c => c == '+' || c == '-')

/-- Whether a lexeme runs on into the text after it. -/
def runsOn (kind : TokenKind) (text after : List Char) : Bool :=
  match kind with
  | .identifier =>
    after.head?.any isIdentifierPart || (encodingMarks.contains text && after.head?.any isQuote)
  | .number => numberGoesOn text.getLast? after
  | .punctuator =>
    (text == ['/'] && after.head?.any fun c => c == '/' || c == '*')
      || (text == ['.'] && after.head?.any isDigit)
      || punctuator? (text ++ after) != some text
  | _ => false

section Following

theorem splitNumber_append_iff {body after : List Char}
    (whole : splitNumber body = (body, [])) :
    splitNumber (body ++ after) = (body, after) ↔ numberGoesOn body.getLast? after = false := by
  fun_induction splitNumber body with
  | case1 => simp [splitNumber_eq_nil_iff, numberGoesOn]
  | case2 c part =>
    cases after with
    | nil => simp [splitNumber, part, numberGoesOn]
    | cons next after =>
      rw [List.singleton_append, splitNumber]
      by_cases pair : (isExponentMark c && (next == '+' || next == '-')) = true
      · have goesOn : numberGoesOn [c].getLast? (next :: after) = true := by
          simp_all [numberGoesOn]
        rw [if_pos pair, goesOn]
        simp
      · have later := @splitNumber_eq_nil_iff (next :: after)
        have goesOn : numberGoesOn [c].getLast? (next :: after) = isNumberPart next := by
          simp_all [numberGoesOn]
        rw [if_neg pair, if_pos part, goesOn]
        simpa [Prod.ext_iff] using later
  | case3 c noPart => simp at whole
  | case4 c sign rest pair inner left found ih =>
    obtain ⟨rfl, rfl⟩ : inner = rest ∧ left = [] := by simpa using whole
    have last : numberGoesOn (c :: sign :: inner).getLast? after =
        numberGoesOn inner.getLast? after := by
      cases inner with
      | nil =>
        have noMark : isExponentMark sign = false := by
          rcases (by simpa using pair : _ ∧ _).2 with rfl | rfl <;> decide
        simp [numberGoesOn, noMark]
      | cons first inner => simp [numberGoesOn, List.getLast?_cons_cons]
    rw [last, ← ih found, List.cons_append, List.cons_append, splitNumber, if_pos pair]
    simp [Prod.ext_iff]
  | case5 c sign rest noPair part inner left found ih =>
    obtain ⟨rfl, rfl⟩ : inner = sign :: rest ∧ left = [] := by simpa using whole
    have last : numberGoesOn (c :: sign :: rest).getLast? after =
        numberGoesOn (sign :: rest).getLast? after := by
      rw [List.getLast?_cons_cons]
    rw [last, ← ih found, List.cons_append, List.cons_append, splitNumber, if_neg noPair,
      if_pos part]
    simp [Prod.ext_iff]
  | case6 c sign rest noPair noPart => simp at whole

variable {c quote : Char} {mark body rest after : List Char} {lexeme : Lexeme}

theorem begins_cons_iff :
    Begins (c :: rest) lexeme after ↔
      trivia? (c :: rest) = none ∧ splitLexeme c rest = (lexeme, after) := by
  constructor
  · rintro ⟨noTrivia, first, more, same, split⟩
    obtain ⟨rfl, rfl⟩ := List.cons.inj same
    exact ⟨noTrivia, split⟩
  · rintro ⟨noTrivia, split⟩
    exact ⟨noTrivia, c, rest, rfl, split⟩

theorem begins_literal (marked : mark ∈ encodingMarks) (quotes : isQuote quote = true) :
    Begins (mark ++ quote :: rest) (literal mark quote rest).1 (literal mark quote rest).2 := by
  obtain ⟨c, text, whole, first⟩ : ∃ c text, mark ++ quote :: rest = c :: text ∧
      c ∈ ['\x22', '\x27', 'u', 'U', 'L'] := by
    rcases (by simpa [encodingMarks] using marked) with rfl | rfl | rfl | rfl | rfl
    · refine ⟨quote, _, rfl, ?_⟩
      rcases (by simpa [isQuote] using quotes) with rfl | rfl <;> decide
    all_goals exact ⟨_, _, rfl, by decide⟩
  have clear : ∀ d ∈ ['\x22', '\x27', 'u', 'U', 'L'],
      isBlank d = false ∧ d ≠ '/' ∧ (d == '\n') = false := forall_mem_of_all (by decide)
  obtain ⟨noBlank, noSlash, noNewline⟩ := clear c first
  have fits := @literal?_of_mark rest mark quote marked quotes
  rw [whole, begins_cons_iff]
  refine ⟨trivia?_eq_none_iff.mpr ⟨noBlank, fun slash => noSlash slash.1⟩, ?_⟩
  unfold splitLexeme
  rw [if_neg (by simp [noNewline]), ← whole, fits]

theorem begins_number_iff (starts : startsNumber (c :: body) = true)
    (whole : splitNumber body = (body, [])) :
    Begins (c :: body ++ after) ⟨.number, c :: body, none⟩ after ↔
      runsOn .number (c :: body) after = false := by
  have part := isNumberPart_of_startsNumber starts
  have clear := not_mem_breaks_of_part (.inl part)
  have unmarked := unmarked_of_startsNumber starts
  have last : numberGoesOn (c :: body).getLast? after = numberGoesOn body.getLast? after := by
    cases body with
    | nil =>
      have noMark : isExponentMark c = false := by simp_all [isExponentMark]
      simp [numberGoesOn, noMark]
    | cons first body => rw [List.getLast?_cons_cons]
  have noLiteral : literal? (c :: (body ++ after)) = none :=
    literal?_of_unmarked (isQuote_of_not_mem_breaks clear) (by simp_all) (by simp_all)
      (by simp_all)
  have split : splitLexeme c (body ++ after) =
      (⟨.number, c :: (splitNumber (body ++ after)).1, none⟩, (splitNumber (body ++ after)).2) := by
    unfold splitLexeme
    rw [if_neg (by simp [ne_newline_of_not_mem_breaks clear]), noLiteral]
    rw [if_pos (startsNumber_cons_append starts)]
  unfold runsOn
  rw [last, ← splitNumber_append_iff whole, List.cons_append, begins_cons_iff, split]
  simp [trivia?_of_not_mem_breaks clear, Prod.ext_iff]

theorem isIdentifierPart_of_isQuote (quotes : isQuote c = true) : isIdentifierPart c = false := by
  rcases (by simpa [isQuote] using quotes) with rfl | rfl <;> decide

theorem literal?_identifier_iff (starts : isIdentifierStart c = true)
    (parts : ∀ d ∈ body, isIdentifierPart d = true)
    (ends : after.head?.any isIdentifierPart = false) :
    literal? (c :: (body ++ after)) = none ↔
      (encodingMarks.contains (c :: body) && after.head?.any isQuote) = false := by
  constructor
  · intro noLiteral
    cases after with
    | nil => simp
    | cons quote rest =>
      refine Bool.eq_false_iff.mpr fun marked => ?_
      obtain ⟨marked, quotes⟩ : c :: body ∈ encodingMarks ∧ isQuote quote = true := by
        simpa using marked
      have fits := @literal?_of_mark rest (c :: body) quote marked quotes
      rw [List.cons_append, noLiteral] at fits
      cases fits
  · intro unmarked
    refine Option.eq_none_iff_forall_ne_some.mpr fun found fits => ?_
    obtain ⟨mark, marked, quote, rest, quotes, same, _⟩ := mark_of_literal? fits
    have impossible (sameMark : mark = c :: body) (sameAfter : after = quote :: rest) : False := by
      subst sameMark sameAfter
      simp [marked, quotes] at unmarked
    -- The mark cannot be shorter than the identifier, whose parts are no quotes, nor longer,
    -- since then the identifier would go on.
    have aligned : (c :: body) ++ after = mark ++ quote :: rest := same
    rcases List.append_eq_append_iff.mp aligned with
      ⟨more, longer, left⟩ | ⟨more, shorter, left⟩
    · cases more with
      | nil => exact impossible (by simpa using longer) (by simpa using left)
      | cons d more =>
        have markParts : ∀ d ∈ encodingMarks.flatten, isIdentifierPart d = true :=
          forall_mem_of_all (by decide)
        have part := markParts d (List.mem_flatten_of_mem marked (by simp [longer]))
        simp [left, part] at ends
    · cases more with
      | nil => exact impossible (by simpa using shorter.symm) (by simpa using left.symm)
      | cons d more =>
        obtain ⟨rfl, _⟩ : quote = d ∧ _ := by simpa using left
        have inside : quote ∈ c :: body := by simp [shorter]
        have part : isIdentifierPart quote = true := by
          rcases List.mem_cons.mp inside with rfl | later
          · exact isIdentifierPart_of_isIdentifierStart starts
          · exact parts quote later
        rw [isIdentifierPart_of_isQuote quotes] at part
        cases part

theorem takeWhile_append_iff {part : Char → Bool} (parts : ∀ d ∈ body, part d = true) :
    (body ++ after).takeWhile part = body ↔ after.head?.any part = false := by
  rw [List.takeWhile_append_of_pos parts]
  cases after with
  | nil => simp
  | cons d after => cases here : part d <;> simp [here]

theorem begins_identifier_iff (starts : isIdentifierStart c = true) (noDigit : isDigit c = false)
    (parts : ∀ d ∈ body, isIdentifierPart d = true) :
    Begins (c :: body ++ after) ⟨.identifier, c :: body, none⟩ after ↔
      runsOn .identifier (c :: body) after = false := by
  have clear := not_mem_breaks_of_part (.inr (isIdentifierPart_of_isIdentifierStart starts))
  have noPoint : c ≠ '.' := by
    rintro rfl
    exact absurd starts (by decide)
  have noNumber : startsNumber (c :: (body ++ after)) = false := by
    cases body ++ after <;> simp [startsNumber, noDigit, noPoint]
  have ends := @takeWhile_append_iff body after isIdentifierPart parts
  have whole := @List.takeWhile_append_dropWhile _ isIdentifierPart (body ++ after)
  unfold runsOn
  rw [List.cons_append, begins_cons_iff, Bool.or_eq_false_iff]
  unfold splitLexeme
  rw [if_neg (by simp [ne_newline_of_not_mem_breaks clear])]
  constructor
  · rintro ⟨_, split⟩
    split at split
    next found fits =>
      have kinds := kind_of_literal? fits
      simp [split] at kinds
    next noLiteral =>
      rw [if_neg (by simp [noNumber]), if_pos starts] at split
      have taken : (body ++ after).takeWhile isIdentifierPart = body := by
        simpa using congrArg (·.1.text) split
      exact ⟨ends.mp taken, (literal?_identifier_iff starts parts (ends.mp taken)).mp noLiteral⟩
  · rintro ⟨stops, unmarked⟩
    have taken := ends.mpr stops
    rw [taken, List.append_cancel_left_eq] at whole
    refine ⟨trivia?_of_not_mem_breaks clear, ?_⟩
    rw [(literal?_identifier_iff starts parts stops).mpr unmarked]
    rw [if_neg (by simp [noNumber]), if_pos starts, taken, whole]

theorem unmarked_of_not_start (noStart : isIdentifierStart c = false) : c ∉ ['u', 'U', 'L'] := by
  intro member
  have starts : ∀ d ∈ ['u', 'U', 'L'], isIdentifierStart d = true := forall_mem_of_all (by decide)
  rw [starts c member] at noStart
  cases noStart

/-- What all punctuators have in common: how their first character is classed, and that none but
a slash or a point alone can begin a comment or a number. -/
def isPlainMark : List Char → Bool
  | [] => false
  | c :: rest =>
    c != '\n' && !isBlank c && !isQuote c && !isDigit c && !isIdentifierStart c
      && (c != '/' || rest.isEmpty || rest.head? == some '=')
      && (c != '.' || rest.isEmpty || rest.head? == some '.')

theorem begins_punctuator_iff (listed : mark ∈ punctuators) :
    Begins (mark ++ after) ⟨.punctuator, mark, none⟩ after ↔
      runsOn .punctuator mark after = false := by
  have plain : ∀ mark ∈ punctuators, isPlainMark mark = true := by decide
  have plain := plain mark listed
  match mark with
  | [] => cases plain
  | c :: rest =>
    simp only [isPlainMark, Bool.and_eq_true, bne_iff_ne, ne_eq, Bool.not_eq_true',
      Bool.or_eq_true, List.isEmpty_iff, beq_iff_eq] at plain
    obtain ⟨⟨⟨⟨⟨⟨noNewline, noBlank⟩, unquoted⟩, noDigit⟩, noStart⟩, slash⟩, point⟩ := plain
    have unmarked := unmarked_of_not_start noStart
    have comment : trivia? (c :: (rest ++ after)) = none ↔
        (c :: rest == ['/'] && after.head?.any fun d => d == '/' || d == '*') = false := by
      rw [trivia?_eq_none_iff]
      cases rest with
      | nil => cases after <;> simp [noBlank]
      | cons next rest =>
        rcases slash with (noSlash | empty) | equals
        · simp [noBlank, noSlash]
        · cases empty
        · obtain rfl : next = '=' := by simpa using equals
          simp [noBlank]
    have number : startsNumber (c :: (rest ++ after)) =
        (c :: rest == ['.'] && after.head?.any isDigit) := by
      cases rest with
      | nil => cases after <;> simp [startsNumber, noDigit]
      | cons next rest =>
        have noPoint : isDigit '.' = false := by decide
        rcases point with (noPoint | empty) | second
        · simp [startsNumber, noDigit, noPoint]
        · cases empty
        · obtain rfl : next = '.' := by simpa using second
          simp [startsNumber, noDigit, noPoint]
    have split : splitLexeme c (rest ++ after) = (⟨.punctuator, c :: rest, none⟩, after) ↔
        startsNumber (c :: (rest ++ after)) = false ∧
          punctuator? (c :: (rest ++ after)) = some (c :: rest) := by
      unfold splitLexeme
      rw [if_neg (by simpa using noNewline), literal?_of_unmarked unquoted (by simp_all)
        (by simp_all) (by simp_all)]
      cases starts : startsNumber (c :: (rest ++ after)) with
      | true => simp
      | false =>
        rw [if_neg (by simp), if_neg (by simp [noStart])]
        cases fits : punctuator? (c :: (rest ++ after)) with
        | none => simp
        | some mark =>
          simp only [Prod.mk.injEq, Lexeme.mk.injEq, true_and, and_true, Option.some.injEq]
          refine ⟨And.left, ?_⟩
          rintro rfl
          exact ⟨rfl, by simp⟩
    unfold runsOn
    rw [List.cons_append, begins_cons_iff, comment, split, number, Bool.or_eq_false_iff,
      Bool.or_eq_false_iff, bne_eq_false_iff_eq, and_assoc]

theorem begins_other (stray : Stray c) : Begins (c :: after) ⟨.other, [c], none⟩ after := by
  have noSlash : c ≠ '/' := by
    rintro rfl
    exact stray.punctuator (by decide)
  have noPoint : c ≠ '.' := by
    rintro rfl
    exact stray.punctuator (by decide)
  have unmarked := unmarked_of_not_start stray.start
  have noNumber : startsNumber (c :: after) = false := by
    cases after <;> simp [startsNumber, stray.digit, noPoint]
  have noMark : punctuator? (c :: after) = none := by
    refine List.find?_eq_none.mpr fun mark listed fits => ?_
    have firsts : ∀ mark ∈ punctuators, mark.take 1 ∈ punctuators ∧ mark ≠ [] := by decide
    obtain ⟨single, nonempty⟩ := firsts mark listed
    cases mark with
    | nil => exact nonempty rfl
    | cons d mark =>
      obtain ⟨rfl, _⟩ : d = c ∧ _ := by simpa using fits
      exact stray.punctuator single
  rw [begins_cons_iff]
  refine ⟨trivia?_eq_none_iff.mpr ⟨stray.blank, fun slash => noSlash slash.1⟩, ?_⟩
  unfold splitLexeme
  rw [if_neg (by simpa using stray.newline),
    literal?_of_unmarked stray.quote (by simp_all) (by simp_all) (by simp_all)]
  rw [if_neg (by simp [noNumber]), if_neg (by simp [stray.start]), noMark]

/-- **Running on.** A lexeme is cut off a text that it begins exactly when it does not run on into
what follows it. -/
theorem Shape.begins_iff {kind : TokenKind} {text : List Char} (shape : Shape kind text)
    (notNewline : kind ≠ .newline) :
    Begins (text ++ after) ⟨kind, text, none⟩ after ↔ runsOn kind text after = false := by
  cases shape with
  | newline => exact absurd rfl notNewline
  | @literal mark body quote marked quotes closed =>
    have ends : runsOn (if quote == '\x22' then .string else .character)
        (mark ++ quote :: body) after = false := by
      split <;> rfl
    have begins := @begins_literal quote mark (body ++ after) marked quotes
    refine ⟨fun _ => ends, fun _ => ?_⟩
    simpa [Source.literal, (splitQuoted_of_closed closed).2] using begins
  | number starts whole => exact begins_number_iff starts whole
  | identifier starts noDigit parts => exact begins_identifier_iff starts noDigit parts
  | punctuator listed => exact begins_punctuator_iff listed
  | other stray => exact ⟨fun _ => rfl, fun _ => begins_other stray⟩

end Following

section Spaced

variable {text after after' : List Char}

/-- Whether a text ends, or goes on with a space or on another line. -/
def Apart (text : List Char) : Prop :=
  ∀ c ∈ text.head?, c = ' ' ∨ c = '\n'

variable {front : List Char}

theorem prefix_of_prefix_apart {mark : List Char} (noBreak : ' ' ∉ mark ∧ '\n' ∉ mark)
    (apart : Apart after) (fits : mark <+: front ++ after) : mark <+: front := by
  induction front generalizing mark with
  | nil =>
    cases mark with
    | nil => exact List.nil_prefix
    | cons c mark =>
      obtain ⟨rest, rfl⟩ := fits
      rcases apart c rfl with rfl | rfl <;> simp at noBreak
  | cons d front ih =>
    cases mark with
    | nil => exact List.nil_prefix
    | cons c mark =>
      rw [List.cons_append, List.cons_prefix_cons] at fits
      simp only [List.mem_cons, not_or] at noBreak
      exact List.cons_prefix_cons.mpr ⟨fits.1, ih ⟨noBreak.1.2, noBreak.2.2⟩ fits.2⟩

theorem punctuator?_apart {mark : List Char} (apart : Apart after)
    (found : punctuator? (front ++ after') = some mark) (inside : mark <+: front) :
    punctuator? (front ++ after) = some mark := by
  have noBreak : ∀ mark ∈ punctuators, ' ' ∉ mark ∧ '\n' ∉ mark := by decide
  obtain ⟨_, before, later, whole, earlier⟩ := List.find?_eq_some_iff_append.mp found
  refine List.find?_eq_some_iff_append.mpr
    ⟨List.isPrefixOf_iff_prefix.mpr (inside.trans (List.prefix_append ..)), before, later, whole,
      ?_⟩
  intro other member
  have listed : other ∈ punctuators := by simp [whole, member]
  rw [Bool.not_eq_eq_eq_not, Bool.not_true, Bool.eq_false_iff]
  intro fits
  have inside := prefix_of_prefix_apart (noBreak other listed) apart
    (List.isPrefixOf_iff_prefix.mp fits)
  have early := List.isPrefixOf_iff_prefix.mpr (inside.trans (List.prefix_append front after'))
  simpa [early] using earlier other member

theorem runsOn_apart {kind : TokenKind} (apart : Apart after)
    (ends : runsOn kind text (front ++ after') = false) :
    runsOn kind text (front ++ after) = false := by
  have head (part : Char → Bool) (noBreak : part ' ' = false ∧ part '\n' = false)
      (breaks : (front ++ after').head?.any part = false) : (front ++ after).head?.any part =
        false := by
    cases front with
    | nil =>
      cases after with
      | nil => rfl
      | cons c after => rcases apart c rfl with rfl | rfl <;> simp [noBreak]
    | cons c front => exact breaks
  cases kind with
  | identifier =>
    simp only [runsOn, Bool.or_eq_false_iff, Bool.and_eq_false_iff] at ends ⊢
    exact ⟨head _ (by decide) ends.1, ends.2.imp_right (head _ (by decide))⟩
  | number =>
    simp only [runsOn, numberGoesOn, Bool.or_eq_false_iff, Bool.and_eq_false_iff] at ends ⊢
    exact ⟨head _ (by decide) ends.1, ends.2.imp_right (head _ (by decide))⟩
  | punctuator =>
    simp only [runsOn, Bool.or_eq_false_iff, Bool.and_eq_false_iff, bne_eq_false_iff_eq] at ends ⊢
    refine ⟨⟨ends.1.1.imp_right (head _ (by decide)), ends.1.2.imp_right (head _ (by decide))⟩, ?_⟩
    rw [← List.append_assoc] at ends ⊢
    exact punctuator?_apart apart ends.2 (List.prefix_append ..)
  | _ => rfl

/-- Before another text that goes on after it, a finished lexeme is found again when that text is
cut off. -/
theorem splitLexeme_apart {c : Char} {rest more more' : List Char} {lexeme : Lexeme}
    (whole : lexeme.text ++ after = c :: rest)
    (begins : Begins (c :: (rest ++ more)) lexeme (after ++ more))
    (finished : lexeme.unfinishedAt = none) (notNewline : lexeme.kind ≠ .newline)
    (apart : Apart more') : splitLexeme c (rest ++ more') = (lexeme, after ++ more') := by
  obtain ⟨kind, text, _⟩ := lexeme
  cases finished
  have shape := shape_of_begins begins rfl
  rw [← List.cons_append, ← whole, List.append_assoc, shape.begins_iff notNewline] at begins
  have found := (shape.begins_iff notNewline).mpr (runsOn_apart apart begins)
  rw [← List.append_assoc, whole, List.cons_append, begins_cons_iff] at found
  exact found.2

end Spaced

end Preproc.Source

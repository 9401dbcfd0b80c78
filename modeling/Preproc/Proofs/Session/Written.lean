import Preproc.Proofs.Session.LineTokens
import Preproc.Proofs.Session.Describe

/-! # Macros written as lines

A macro is written as a definition line: its name, its parameters if it takes arguments, and its
body after a space. `Macro.written` are the tokens of that line, and `Macro.line` is its text. The
text of a tidy macro is cut into those tokens again.

Main statements: `Macro.Tidy.clean`, `Macro.Tidy.not_spliced` and `Macro.Tidy.lineTokens`.
-/

namespace Preproc

open Source

namespace Token

/-- A word with no space before it. -/
def word (text : String) : Token :=
  ⟨.identifier, text, .unknown, false⟩

/-- A sign with no space before it. -/
def sign (text : String) : Token :=
  ⟨.punctuator, text, .unknown, false⟩

/-- Tokens after a space. -/
def apart : List Token → List Token
  | [] => []
  | first :: rest => first.withLeadingSpace true :: rest

end Token

def Parameter.written (parameter : Parameter) : List Token :=
  if parameter.variadic then
    if parameter.name == variadicName then [.sign "..."] else [.word parameter.name, .sign "..."]
  else [.word parameter.name]

/-- The tokens that declare parameters, up to the closing parenthesis. -/
def Parameter.writtenAll : List Parameter → List Token
  | [] => [.sign ")"]
  | [last] => last.written ++ [.sign ")"]
  | parameter :: next :: rest => parameter.written ++ .sign "," :: writtenAll (next :: rest)

namespace Macro

/-- The tokens of the definition line of a macro that stand after its name. -/
def writtenAfter (definition : Macro) : List Token :=
  (if definition.isFunctionLike then .sign "(" ::
    Parameter.writtenAll definition.parameters else []) ++
    Token.apart definition.body

def written (definition : Macro) : List Token :=
  .sign "#" :: .word "define" :: (Token.word definition.name).withLeadingSpace true ::
    definition.writtenAfter

/-- The space at the end of the definition line of a macro with no body. -/
def trail (definition : Macro) : List Char :=
  if definition.body.isEmpty then [' '] else []

def line (definition : Macro) : List Char :=
  "#define ".toList ++ definition.signature.toList ++ ' ' :: (Token.spell definition.body).toList

end Macro

variable {tokens : List Token}

section Text

theorem Parameter.following_written (parameter : Parameter) :
    Token.following parameter.written = parameter.render.toList := by
  unfold written render
  split
  · split <;> simp [Token.following, Token.word, Token.sign, Token.space]
  · simp [Token.following, Token.word, Token.space]

theorem Parameter.following_writtenAll (parameters : List Parameter) :
    Token.following (writtenAll parameters) =
      (",".intercalate (parameters.map render)).toList ++ [')'] := by
  fun_induction writtenAll parameters with
  | case1 => decide
  | case2 last =>
    have one : Token.following last.written = last.render.toList := last.following_written
    simp_all [Token.following, Token.sign, Token.space]
  | case3 parameter next rest ih =>
    have one : Token.following parameter.written = parameter.render.toList :=
      parameter.following_written
    simp_all [Token.following, Token.sign, Token.space, String.intercalate_cons_cons]

theorem Token.Shaped.inside {token : Token} (shaped : token.Shaped) : token.endsLine = false := by
  have ne_eof {kind : TokenKind} {text : List Char} (shape : Shape kind text) : kind ≠ .eof := by
    intro eof
    cases shape with
    | literal => split at eof <;> cases eof
    | newline | number | identifier | punctuator | other => cases eof
  simp [Token.endsLine, shaped.2, ne_eof shaped.1]

theorem following_apart (inside : ∀ token ∈ tokens, token.endsLine = false) :
    Token.following (Token.apart tokens) ++ (if tokens.isEmpty then [' '] else []) =
      ' ' :: (Token.spell tokens).toList := by
  rw [toList_spell, List.filter_eq_self.mpr (by simpa using inside)]
  cases tokens with
  | nil => rfl
  | cons first rest => simp [Token.apart, Token.following, Token.space, Token.withLeadingSpace]

theorem Macro.following_written {definition : Macro}
    (shaped : ∀ token ∈ definition.body, token.Shaped) :
    Token.following definition.written ++ definition.trail = definition.line := by
  have body := following_apart fun token member => (shaped token member).inside
  have front : Token.following definition.written =
      "#define ".toList ++ definition.signature.toList ++
        Token.following (Token.apart definition.body) := by
    have parameters := Parameter.following_writtenAll definition.parameters
    unfold written writtenAfter Macro.signature
    split <;> simp_all [Token.following, Token.sign, Token.word, Token.space,
      Token.withLeadingSpace]
  rw [front, List.append_assoc, trail, body]
  rfl

end Text

namespace Source.Shape

theorem eq_of_backslash {kind : TokenKind} {text : List Char} (shape : Shape kind text)
    (last : text.getLast? = some '\\') : text = ['\\'] := by
  have member := List.mem_of_getLast? last
  have noPart : ¬ (isNumberPart '\\' = true ∨ isIdentifierPart '\\' = true) := by decide
  cases shape with
  | newline => simp at last
  | @literal mark body quote marked quotes closed =>
    have inner := (splitQuoted_of_closed closed).1
    obtain rfl : quote = '\\' := by
      simpa [List.getLast?_append, List.getLast?_cons, inner] using last
    cases quotes
  | @number c body starts whole =>
    rcases List.mem_cons.mp member with rfl | inside
    · exact absurd (.inl (isNumberPart_of_startsNumber starts)) noPart
    · rw [← show (splitNumber body).1 = body by rw [whole]] at inside
      rcases sign_or_part_of_mem_splitNumber _ inside with part | plus | minus
      · exact absurd (.inl part) noPart
      · cases plus
      · cases minus
  | identifier starts noDigit parts =>
    exact absurd (.inr ((Shape.identifier starts noDigit parts).parts _ member)) noPart
  | punctuator listed =>
    have noBackslash : ∀ c ∈ punctuators.flatten, c ≠ '\\' := forall_mem_of_all (by decide)
    exact absurd rfl (noBackslash _ (List.mem_flatten_of_mem listed member))
  | other stray => simpa using last

end Source.Shape

section Cut

/-- Whether a token can stand on a line. -/
def Token.Fit (token : Token) : Prop :=
  token.Shaped ∧ token.Unbroken

variable {text : String}

theorem fit_sign (listed : text ∈ ["#", "(", ",", ")", "..."]) : (Token.sign text).Fit := by
  have each : ∀ text ∈ ["#", "(", ",", ")", "..."],
      text.toList ∈ punctuators ∧ (Token.sign text).Unbroken := by decide
  obtain ⟨known, unbroken⟩ := each text listed
  exact ⟨⟨.punctuator known, nofun⟩, unbroken⟩

theorem fit_word (shape : Shape .identifier text.toList) : (Token.word text).Fit := by
  refine ⟨⟨shape, nofun⟩, fun c member => ?_⟩
  have part := shape.parts c member
  constructor <;>
  · rintro rfl
    revert part
    decide

theorem Parameter.fit_written {parameter : Parameter}
    (shape : Shape .identifier parameter.name.toList) : ∀ token ∈ parameter.written, token.Fit := by
  have dots : (Token.sign "...").Fit := fit_sign (by decide)
  have name := fit_word shape
  unfold written
  split
  · split <;> simp [dots, name]
  · simp [name]

theorem Parameter.fit_writtenAll {parameters : List Parameter}
    (shapes : ∀ parameter ∈ parameters, Shape .identifier parameter.name.toList) :
    ∀ token ∈ writtenAll parameters, token.Fit := by
  have comma : (Token.sign ",").Fit := fit_sign (by decide)
  have closing : (Token.sign ")").Fit := fit_sign (by decide)
  fun_induction writtenAll parameters with
  | case1 => simp [closing]
  | case2 last =>
    obtain ⟨here, _⟩ := List.forall_mem_cons.mp shapes
    exact List.forall_mem_append.mpr ⟨fit_written here, by simp [closing]⟩
  | case3 parameter next rest ih =>
    obtain ⟨here, later⟩ := List.forall_mem_cons.mp shapes
    exact List.forall_mem_append.mpr
      ⟨fit_written here, List.forall_mem_cons.mpr ⟨comma, ih later⟩⟩

theorem runsOn_word {text after : List Char} (ends : after.head?.any isIdentifierPart = false)
    (unquoted : after.head?.any isQuote = false) : runsOn .identifier text after = false := by
  simp [runsOn, ends, unquoted]

variable {rest : List Token}

theorem separate_sign (listed : text ∈ ["(", ",", ")", "..."])
    (separate : Token.Separate rest) : Token.Separate (.sign text :: rest) := by
  refine ⟨?_, separate⟩
  simp only [List.mem_cons, List.not_mem_nil, or_false] at listed
  rcases listed with rfl | rfl | rfl | rfl <;> rfl

theorem separate_word (name : String) (listed : text ∈ ["(", ",", ")", "..."])
    (separate : Token.Separate rest) : Token.Separate (.word name :: .sign text :: rest) := by
  refine ⟨?_, separate_sign listed separate⟩
  simp only [List.mem_cons, List.not_mem_nil, or_false] at listed
  rcases listed with rfl | rfl | rfl | rfl <;> exact runsOn_word rfl rfl

theorem Parameter.separate_written (parameter : Parameter)
    (listed : text ∈ ["(", ",", ")", "..."]) (separate : Token.Separate rest) :
    Token.Separate (parameter.written ++ .sign text :: rest) := by
  unfold written
  split
  · split
    · exact separate_sign (by decide) (separate_sign listed separate)
    · exact separate_word _ (by decide) (separate_sign listed separate)
  · exact separate_word _ listed separate

theorem Parameter.separate_writtenAll (parameters : List Parameter)
    (separate : Token.Separate rest) : Token.Separate (writtenAll parameters ++ rest) := by
  fun_induction writtenAll parameters with
  | case1 => exact separate_sign (by decide) separate
  | case2 last =>
    rw [List.append_assoc]
    exact last.separate_written (by decide) separate
  | case3 parameter next others ih =>
    rw [List.append_assoc]
    exact parameter.separate_written (by decide) ih

theorem separate_apart (separate : Token.Separate tokens) :
    Token.Separate (Token.apart tokens) := by
  cases tokens with
  | nil => exact separate
  | cons first rest => exact separate

namespace Macro.Tidy

variable {definition : Macro} (tidy : definition.Tidy)

include tidy

theorem fit_written : ∀ token ∈ definition.written, token.Fit := by
  have parameters : ∀ token ∈ Parameter.writtenAll definition.parameters, token.Fit :=
    Parameter.fit_writtenAll fun parameter member =>
      tidy.parameters _ (List.mem_map_of_mem member)
  have body : ∀ token ∈ Token.apart definition.body, token.Fit := by
    have each : ∀ token ∈ definition.body, token.Fit := fun token member =>
      ⟨tidy.shaped token member, tidy.unbroken token member⟩
    generalize definition.body = tokens at each ⊢
    cases tokens with
    | nil => exact each
    | cons first rest =>
      obtain ⟨here, later⟩ := List.forall_mem_cons.mp each
      exact List.forall_mem_cons.mpr ⟨here, later⟩
  have define : (Token.word "define").Fit :=
    fit_word (.identifier (by decide) (by decide) (List.all_eq_true.mp (by decide)))
  have name : ((Token.word definition.name).withLeadingSpace true).Fit := fit_word tidy.name
  have after : ∀ token ∈ definition.writtenAfter, token.Fit := by
    unfold writtenAfter
    split
    · have opening : (Token.sign "(").Fit := fit_sign (by decide)
      exact List.forall_mem_append.mpr ⟨List.forall_mem_cons.mpr ⟨opening, parameters⟩, body⟩
    · exact body
  exact List.forall_mem_cons.mpr ⟨fit_sign (by decide), List.forall_mem_cons.mpr
    ⟨define, List.forall_mem_cons.mpr ⟨name, after⟩⟩⟩

theorem separate_written : Token.Separate definition.written := by
  have body := separate_apart tidy.separate
  have name : Token.Separate
      ((Token.word definition.name).withLeadingSpace true :: definition.writtenAfter) := by
    unfold writtenAfter
    split
    · exact separate_word definition.name (by decide)
        (Parameter.separate_writtenAll definition.parameters body)
    · refine ⟨?_, body⟩
      cases definition.body with
      | nil => exact runsOn_word rfl rfl
      | cons first rest => exact runsOn_word rfl rfl
  exact ⟨rfl, runsOn_word rfl rfl, name⟩

theorem cut_line :
    cut definition.line = ⟨definition.written.map Token.piece, definition.trail.map .blank⟩ := by
  rw [← following_written tidy.shaped]
  refine cut_following (fun token member => (tidy.fit_written token member).1)
    tidy.separate_written ?_
  unfold trail
  split
  · exact .inr rfl
  · exact .inl rfl

/-- **A definition line is scanned by itself.** -/
theorem clean : Clean definition.line := by
  have unbroken : ∀ c ∈ definition.line, c ≠ '\n' ∧ c ≠ '\r' := by
    rw [← following_written tidy.shaped]
    refine List.forall_mem_append.mpr ⟨unbroken_following fun token member =>
      (tidy.fit_written token member).2, ?_⟩
    unfold trail
    split <;> simp
  refine ⟨fun member => (unbroken _ member).1 rfl, fun member => (unbroken _ member).2 rfl, ?_, ?_⟩
  · unfold ClosesComments
    rw [tidy.cut_line]
    unfold trail
    split <;> rfl
  · rw [tidy.cut_line]
    rintro piece member
    obtain ⟨token, _, rfl⟩ := List.mem_map.mp member
    rfl

/-- **A definition line is not spliced to the next** unless a backslash ends the body. -/
theorem not_spliced (last : ∀ token ∈ definition.body.getLast?, token.lexeme ≠ "\\") :
    definition.line.getLast? ≠ some '\\' := by
  rw [← following_written tidy.shaped]
  obtain ⟨front, whole⟩ : ∃ front, definition.written = front ++ Token.apart definition.body := by
    exact ⟨_ :: _ :: _ :: _, rfl⟩
  have ends {text : List Char} (front : List Char) (nonempty : text ≠ []) :
      (front ++ text).getLast? = text.getLast? := by
    rw [List.getLast?_append, Option.or_of_isSome (List.getLast?_isSome.mpr nonempty)]
  unfold trail
  rw [whole]
  have shaped := tidy.shaped
  rcases List.eq_nil_or_concat definition.body with empty | ⟨init, token, body⟩
  · rw [empty]
    simp
  · rw [List.concat_eq_append] at body
    rw [body] at last shaped ⊢
    have written : ∃ before, Token.following (Token.apart (init ++ [token])) =
        before ++ token.lexeme.toList := by
      cases init with
      | nil => exact ⟨[' '], by simp [Token.apart, Token.following, Token.space,
          Token.withLeadingSpace]⟩
      | cons first rest =>
        refine ⟨Token.following (first.withLeadingSpace true :: rest) ++ token.space, ?_⟩
        simp [Token.apart, Token.following]
    obtain ⟨before, spelled⟩ := written
    have shape : Shape token.kind token.lexeme.toList := (shaped token (by simp)).1
    intro backslash
    refine last token (by simp) (String.toList_inj.mp (shape.eq_of_backslash ?_))
    rw [← backslash, if_neg (by simp), List.append_nil, Token.following, List.flatMap_append]
    change _ = (Token.following front ++ Token.following (Token.apart (init ++ [token]))).getLast?
    rw [spelled, ← List.append_assoc, ends _ shape.ne_nil]

omit tidy in
theorem near_placeLine (file : String) (number column : Nat) (tokens : List Token) :
    NearTokens false tokens (placeLine file number false column (tokens.map Token.piece)) := by
  induction tokens generalizing column with
  | nil => exact .nil
  | cons token tokens ih =>
    refine .cons (.mk rfl ?_ ?_ (Location.near_false _ _)) (ih _)
    · simp [tokenOf, Token.piece, Token.toLexeme]
    · cases spaced : token.leadingSpace <;> simp [tokenOf, Token.piece, Token.space, spaced]

/-- **The tokens of a definition line** are those it was written with. The first opens a directive.
-/
theorem lineTokens (file : String) (number : Nat) :
    ∃ mark rest, lineTokens file number definition.line = mark :: rest ∧ mark.kind = .directive ∧
      NearTokens false definition.written.tail rest := by
  unfold Preproc.lineTokens
  rw [tidy.cut_line]
  exact ⟨_, _, rfl, rfl, near_placeLine file number _ _⟩

end Macro.Tidy

end Cut

end Preproc

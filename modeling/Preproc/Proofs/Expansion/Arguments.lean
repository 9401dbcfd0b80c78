import Preproc.Expansion.Settle

/-! # The arguments of a call

Between the parentheses of a call stand arguments with commas between them. An argument may have
parentheses of its own, and commas inside those. Collecting takes tokens one by one up to the
parenthesis that closes the call, and splits them at the commas outside inner parentheses.

Main statements: `argumentsIn_spec`, `collectArguments_consumes`, `getElem?_spansFrom` and
`getLast?_spansFrom`.
-/

namespace Preproc

open TokenStream (Mover readStack peekStack readWith peekWith)

/-- Arguments with commas between them. -/
def separated : (arguments : List (List Token)) → (commas : List Token) → List Token
  | [], _ => []
  | [argument], _ => argument
  | argument :: next :: arguments, commas =>
    argument ++ commas.head?.toList ++ separated (next :: arguments) commas.tail

/-- Whether tokens inside so many parentheses close all of these, no others, and have no comma
outside. -/
def isBalanced : (depth : Nat) → List Token → Bool
  | depth, [] => depth == 0
  | depth, token :: rest =>
    if token.isPunctuator "(" then isBalanced (depth + 1) rest
    else if token.isPunctuator ")" then depth != 0 && isBalanced (depth - 1) rest
    else !(depth == 0 && token.isPunctuator ",") && isBalanced depth rest

/-- A token inside a line: neither its end, nor the end of the input, nor the beginning of a
directive. -/
def Token.Inside (token : Token) : Prop :=
  token.isEof = false ∧ token.kind ≠ .newline ∧ token.kind ≠ .directive

instance (token : Token) : Decidable token.Inside :=
  inferInstanceAs (Decidable (_ ∧ _))

/-- Tokens that can stand as one argument. -/
structure IsArgument (tokens : List Token) : Prop where
  inside : ∀ token ∈ tokens, token.Inside
  balanced : isBalanced 0 tokens = true

instance (tokens : List Token) : Decidable (IsArgument tokens) :=
  decidable_of_iff ((∀ token ∈ tokens, token.Inside) ∧ isBalanced 0 tokens = true)
    ⟨fun ⟨inside, balanced⟩ => ⟨inside, balanced⟩, fun ⟨inside, balanced⟩ => ⟨inside, balanced⟩⟩

/-- The spans of arguments with single tokens between them. -/
def spansFrom : (start : Nat) → (arguments : List (List Token)) → List (Int × Int)
  | _, [] => []
  | start, argument :: arguments =>
    ((start : Int), ((start + argument.length : Nat) : Int)) ::
      spansFrom (start + argument.length + 1) arguments

variable {commas argument : List Token}

theorem forall_mem_separated {arguments : List (List Token)} {property : Token → Prop}
    (each : ∀ argument ∈ arguments, ∀ token ∈ argument, property token)
    (between : ∀ comma ∈ commas, property comma) :
    ∀ token ∈ separated arguments commas, property token := by
  fun_induction separated arguments commas with
  | case1 => exact List.forall_mem_nil _
  | case2 _ argument => exact each argument (List.mem_singleton_self _)
  | case3 commas argument next arguments ih =>
    obtain ⟨here, each⟩ := List.forall_mem_cons.mp each
    have rest := ih each fun comma member => between comma (List.mem_of_mem_tail member)
    rw [List.forall_mem_append, List.forall_mem_append]
    exact ⟨⟨here, fun comma member => between comma (List.mem_of_head? (by simpa using member))⟩,
      rest⟩

section Punctuators

variable {token : Token}

theorem Token.inside_of_isPunctuator {text : String} (same : token.isPunctuator text = true) :
    token.Inside := by
  simp only [Token.isPunctuator, Bool.and_eq_true, beq_iff_eq] at same
  simp [Token.Inside, Token.isEof, same.1]

end Punctuators

section Split

variable {depth : Nat} {token : Token} {tokens : List Token}

/-- How many inner parentheses are open after a token that closes no call. -/
def depthPast (depth : Nat) (token : Token) : Nat :=
  if token.isPunctuator "(" then depth + 1
  else if token.isPunctuator ")" then depth - 1
  else depth

/-- How many inner parentheses are open after tokens; nothing if one of the tokens closes the call.
-/
def depthAfter : (depth : Nat) → List Token → Option Nat
  | depth, [] => some depth
  | depth, token :: rest =>
    if depth == 0 && token.isPunctuator ")" then none else depthAfter (depthPast depth token) rest

/-- The commas outside inner parentheses. -/
def outerCommas : (depth : Nat) → List Token → List Token
  | _, [] => []
  | depth, token :: rest =>
    if depth == 0 && token.isPunctuator "," then token :: outerCommas depth rest
    else outerCommas (depthPast depth token) rest

/-- What stands between the commas outside inner parentheses. -/
def argumentsIn : (depth : Nat) → List Token → List (List Token)
  | _, [] => [[]]
  | depth, token :: rest =>
    if depth == 0 && token.isPunctuator "," then [] :: argumentsIn depth rest
    else (argumentsIn (depthPast depth token) rest).modifyHead (token :: ·)

/-- Tokens without the newlines among them. -/
def withoutNewlines (tokens : List Token) : List Token :=
  tokens.filter (·.kind != .newline)

theorem depthAfter_withoutNewlines (depth : Nat) (tokens : List Token) :
    depthAfter depth (withoutNewlines tokens) = depthAfter depth tokens := by
  induction tokens generalizing depth with
  | nil => rfl
  | cons token tokens ih =>
    by_cases newline : token.kind = .newline
    · simpa [withoutNewlines, depthAfter, depthPast, Token.isPunctuator, newline] using ih depth
    · rw [withoutNewlines, List.filter_cons_of_pos (by simpa using newline), ← withoutNewlines]
      simp only [depthAfter, ih]

theorem separated_cons_cons (token : Token) (argument : List Token) (arguments : List (List Token))
    (commas : List Token) :
    separated ((token :: argument) :: arguments) commas =
      token :: separated (argument :: arguments) commas := by
  cases arguments <;> rfl

theorem modifyHead_nil_append (arguments : List (List Token)) :
    arguments.modifyHead ([] ++ ·) = arguments := by
  cases arguments <;> rfl

theorem isBalanced_cons_iff : isBalanced depth (token :: tokens) = true ↔
    (depth == 0 && token.isPunctuator ")") = false ∧
      (depth == 0 && token.isPunctuator ",") = false ∧
        isBalanced (depthPast depth token) tokens = true := by
  rw [isBalanced, depthPast]
  by_cases opens : token.isPunctuator "(" = true
  · simp [opens, Token.isPunctuator_eq_false opens (show "(" ≠ ")" by decide),
      Token.isPunctuator_eq_false opens (show "(" ≠ "," by decide)]
  by_cases closes : token.isPunctuator ")" = true
  · simp [opens, closes, Token.isPunctuator_eq_false closes (show ")" ≠ "," by decide)]
  · rw [if_neg opens, if_neg closes, if_neg opens, if_neg closes, Bool.and_eq_true,
      Bool.not_eq_true']
    simp [closes]

theorem depthPast_comma (isComma : token.isPunctuator "," = true) : depthPast depth token =
    depth := by
  simp [depthPast, Token.isPunctuator_eq_false isComma (show "," ≠ "(" by decide),
    Token.isPunctuator_eq_false isComma (show "," ≠ ")" by decide)]

/-- **Splitting loses nothing.** Arguments and the commas between them make up the tokens again, and
every argument is balanced; the first one closes the parentheses that were open. -/
theorem argumentsIn_spec (closed : depthAfter depth tokens = some 0) :
    ∃ first others, argumentsIn depth tokens = first :: others ∧
      isBalanced depth first = true ∧ (∀ argument ∈ others, isBalanced 0 argument = true) ∧
      others.length = (outerCommas depth tokens).length ∧
      separated (first :: others) (outerCommas depth tokens) = tokens := by
  induction tokens generalizing depth with
  | nil =>
    cases closed
    exact ⟨[], [], rfl, rfl, by simp, rfl, rfl⟩
  | cons token tokens ih =>
    rw [depthAfter] at closed
    split at closed
    · cases closed
    next isOpen =>
    obtain ⟨first, others, split, balanced, each, counted, joined⟩ := ih closed
    by_cases comma : (depth == 0 && token.isPunctuator ",") = true
    · obtain ⟨rfl, isComma⟩ : depth = 0 ∧ token.isPunctuator "," = true := by simpa using comma
      rw [depthPast_comma isComma] at split balanced counted joined
      refine ⟨[], first :: others, by simp [argumentsIn, isComma, split], rfl,
        List.forall_mem_cons.mpr ⟨balanced, each⟩, by simp [outerCommas, isComma, counted], ?_⟩
      simp [outerCommas, isComma, separated, joined]
    · refine ⟨token :: first, others, by simp [argumentsIn, comma, split], ?_, each, ?_, ?_⟩
      · exact isBalanced_cons_iff.mpr ⟨by simpa using isOpen, by simpa using comma, balanced⟩
      · rw [outerCommas, if_neg comma, counted]
      · rw [outerCommas, if_neg comma, separated_cons_cons, joined]

theorem argumentsIn_balanced (balanced : isBalanced depth argument = true) (rest : List Token) :
    argumentsIn depth (argument ++ rest) = (argumentsIn 0 rest).modifyHead (argument ++ ·) ∧
      depthAfter depth (argument ++ rest) = depthAfter 0 rest := by
  induction argument generalizing depth with
  | nil =>
    have flat : depth = 0 := by simpa [isBalanced] using balanced
    subst flat
    exact ⟨(modifyHead_nil_append _).symm, rfl⟩
  | cons token argument ih =>
    obtain ⟨isOpen, inner, balanced⟩ := isBalanced_cons_iff.mp balanced
    obtain ⟨found, after⟩ := ih balanced
    rw [List.cons_append, argumentsIn, inner, depthAfter, isOpen, found, after]
    simp [List.modifyHead_modifyHead, Function.comp_def]

theorem argumentsIn_separated {arguments : List (List Token)}
    (each : ∀ argument ∈ arguments, isBalanced 0 argument = true)
    (counted : commas.length + 1 = arguments.length)
    (separate : ∀ comma ∈ commas, comma.isPunctuator "," = true) :
    argumentsIn 0 (separated arguments commas) = arguments ∧
      depthAfter 0 (separated arguments commas) = some 0 := by
  induction arguments generalizing commas with
  | nil => cases counted
  | cons argument arguments ih =>
    obtain ⟨here, each⟩ := List.forall_mem_cons.mp each
    cases arguments with
    | nil =>
      obtain ⟨found, after⟩ := argumentsIn_balanced here []
      rw [List.append_nil] at found after
      exact ⟨by simp [separated, found, argumentsIn], after⟩
    | cons next arguments =>
      cases commas with
      | nil => cases counted
      | cons comma commas =>
        obtain ⟨isComma, separate⟩ := List.forall_mem_cons.mp separate
        obtain ⟨found, after⟩ := ih each (by simpa using counted) separate
        obtain ⟨first, flat⟩ := argumentsIn_balanced here
          (comma :: separated (next :: arguments) commas)
        have noClosing := Token.isPunctuator_eq_false isComma (show "," ≠ ")" by decide)
        have whole : separated (argument :: next :: arguments) (comma :: commas) =
            argument ++ comma :: separated (next :: arguments) commas := by
          simp [separated]
        rw [whole, first, flat]
        exact ⟨by simp [argumentsIn, isComma, found],
          by simpa [depthAfter, noClosing, depthPast_comma isComma] using after⟩

end Split

namespace Collecting

variable {state : Collecting} {token : Token} {tokens : List Token}

/-- The arguments, if the call is closed here. -/
def arguments (state : Collecting) : Arguments :=
  ⟨state.endArgument.tokens.toList, state.endArgument.spans.toList⟩

/-- Takes a token that does not close the call; newlines vanish. -/
def meet (state : Collecting) (token : Token) : Collecting :=
  if token.kind == .newline then state else state.take token

/-- Takes tokens that do not close the call. -/
def takeAll (state : Collecting) (tokens : List Token) : Collecting :=
  tokens.foldl meet state

theorem depth_meet (state : Collecting) (token : Token) :
    (state.meet token).depth = depthPast state.depth token := by
  unfold meet take
  split
  next newline =>
    have newline : token.kind = .newline := by simpa using newline
    simp [depthPast, Token.isPunctuator, newline]
  split
  next comma =>
    obtain ⟨-, isComma⟩ : state.depth = 0 ∧ token.isPunctuator "," = true := by simpa using comma
    exact (depthPast_comma isComma).symm
  · rfl

theorem depth_takeAll {depth : Nat} (isOpen : depthAfter state.depth tokens = some depth) :
    (state.takeAll tokens).depth = depth := by
  induction tokens generalizing state with
  | nil => exact Option.some.inj isOpen
  | cons token tokens ih =>
    rw [depthAfter] at isOpen
    split at isOpen
    · cases isOpen
    · exact ih (by rwa [depth_meet])

theorem tokens_takeAll (state : Collecting) (tokens : List Token) :
    (state.takeAll tokens).tokens.toList = state.tokens.toList ++ withoutNewlines tokens := by
  induction tokens generalizing state with
  | nil => simp [takeAll, withoutNewlines]
  | cons token tokens ih =>
    have taken : (state.take token).tokens = state.tokens.push token := by
      unfold take
      split <;> rfl
    rw [takeAll, List.foldl_cons, ← takeAll, ih, meet]
    by_cases newline : token.kind = .newline <;> simp [newline, withoutNewlines, taken]

/-- The spans after tokens have been taken: those before, and those of the arguments in the tokens.
The first of these began with what was already taken of it. -/
theorem spans_takeAll (begun : List Token) (begins : state.first + begun.length = state.tokens.size)
    (tokens : List Token) :
    (state.takeAll tokens).endArgument.spans.toList = state.spans.toList ++
      spansFrom state.first
        ((argumentsIn state.depth (withoutNewlines tokens)).modifyHead (begun ++ ·)) := by
  induction tokens generalizing state begun with
  | nil => simp [takeAll, endArgument, withoutNewlines, argumentsIn, spansFrom, ← begins]
  | cons token tokens ih =>
    rw [takeAll, List.foldl_cons, ← takeAll, meet]
    by_cases newline : token.kind = .newline
    · simpa [newline, withoutNewlines] using ih begun begins
    have kept : withoutNewlines (token :: tokens) = token :: withoutNewlines tokens := by
      simp [withoutNewlines, newline]
    rw [if_neg (by simpa using newline), kept, argumentsIn]
    by_cases comma : (state.depth == 0 && token.isPunctuator ",") = true
    · have taken : state.take token =
          { state.endArgument with
            tokens := state.tokens.push token, first := state.tokens.size + 1 } := by
        rw [take, if_pos comma]
        rfl
      rw [taken, ih [] (by simp), if_pos comma, modifyHead_nil_append]
      simp [endArgument, spansFrom, begins]
    · have taken : state.take token =
          { state with
            tokens := state.tokens.push token
            depth := depthPast state.depth token } := by
        rw [take, if_neg comma]
        rfl
      rw [taken, ih (begun ++ [token]) (by simp [← begins, Nat.add_assoc]), if_neg comma]
      simp [List.modifyHead_modifyHead, Function.comp_def]

theorem arguments_takeAll (tokens : List Token) :
    (takeAll {} tokens).arguments =
      ⟨withoutNewlines tokens, spansFrom 0 (argumentsIn 0 (withoutNewlines tokens))⟩ := by
  have spans := @spans_takeAll {} [] rfl tokens
  have all := tokens_takeAll {} tokens
  rw [modifyHead_nil_append] at spans
  rw [arguments, spans]
  simp [endArgument, all]

end Collecting

/-! ## What collecting takes -/

/-- Tokens that a stack of streams shows and gives, one after the other. -/
inductive Consumes (move : Mover) :
    List Token → List TokenStream → Context → List TokenStream → Context → Prop where
  | nil {sources context} : Consumes move [] sources context sources context
  | cons {token tokens sources shown rest after context next middle last}
      (shows : peekStack move sources context = .ok (token, shown) next)
      (reads : readStack move shown next = .ok (token, rest) middle)
      (more : Consumes move tokens rest middle after last) :
      Consumes move (token :: tokens) sources context after last

/-- A token that does not stop collecting by itself. -/
def Token.GoesOn (token : Token) : Prop :=
  token.isEof = false ∧ token.kind ≠ .directive

instance (token : Token) : Decidable token.GoesOn :=
  inferInstanceAs (Decidable (_ ∧ _))

section Collects

variable {move : Mover} {state : Collecting} {inside : List Token} {bound : Nat}
  {sources middle rest : List TokenStream} {context next last : Context}

/-- Collecting takes tokens that neither close the call nor stop it. -/
theorem collectArguments_consumes (consumes : Consumes move inside sources context middle next)
    (goOn : ∀ token ∈ inside, token.GoesOn) (isOpen : (depthAfter state.depth inside).isSome) :
    collectArguments move (bound + inside.length) state sources context =
      collectArguments move bound (state.takeAll inside) middle next := by
  induction consumes generalizing state with
  | nil => rfl
  | @cons token tokens sources shown rest after context next middle last shows reads more ih =>
    obtain ⟨⟨goesOn, noDirective⟩, goOn⟩ := List.forall_mem_cons.mp goOn
    rw [depthAfter] at isOpen
    split at isOpen
    · cases isOpen
    next unclosed =>
    have step : collectArguments move (bound + tokens.length + 1) state sources context =
        collectArguments move (bound + tokens.length) (state.meet token) rest middle := by
      have directive : (token.kind == .directive) = false := by simpa using noDirective
      simp only [collectArguments, bind, EStateM.bind, shows, goesOn, directive, Bool.or_self,
        Bool.false_eq_true, ↓reduceIte, reads, Collecting.meet]
      split
      · rfl
      · rw [if_neg (by simpa [Collecting.closedBy] using unclosed)]
    rw [List.length_cons, ← Nat.add_assoc, step]
    exact ih goOn (by rwa [Collecting.depth_meet])

/-- How collecting ends: with the parenthesis that closes the call, or before the end of the input
or a directive. -/
inductive Collecting.Ends (move : Mover) (state : Collecting) (sources : List TokenStream)
    (context : Context) (rest : List TokenStream) (last : Context) : Collected → Prop where
  | closed {closing : Token} (consumes : Consumes move [closing] sources context rest last)
      (closes : closing.isPunctuator ")" = true) (flat : state.depth = 0) :
      Ends move state sources context rest last (.closed state.arguments)
  | unclosed {token : Token} (shows : peekStack move sources context = .ok (token, rest) last)
      (stops : token.isEof = true ∨ token.kind = .directive) :
      Ends move state sources context rest last (.unclosed state.tokens.toList)

theorem Collecting.Ends.collects {found : Collected}
    (ends : state.Ends move sources context rest last found) :
    collectArguments move (bound + 1) state sources context = .ok (found, rest) last := by
  cases ends with
  | closed consumes closes flat =>
    cases consumes with
    | @cons _ _ _ _ _ _ _ _ _ _ shows reads more =>
      cases more
      obtain ⟨goesOn, noNewline, noDirective⟩ := Token.inside_of_isPunctuator closes
      simp [collectArguments, bind, EStateM.bind, shows, reads, goesOn, noNewline, noDirective,
        closedBy, flat, closes, arguments, pure, EStateM.pure]
  | unclosed shows stops =>
    simp [collectArguments, bind, EStateM.bind, shows, stops, pure, EStateM.pure]

theorem consumes_queue (fuel : Nat) (inside rest : List Token) (finish : Token)
    (busy : List Macro.Entry) (context : Context) :
    Consumes (TokenStream.move (fuel + 1)) inside [.queue ⟨inside ++ rest, finish, busy⟩] context
      [.queue ⟨rest, finish, busy⟩] context := by
  induction inside with
  | nil => exact .nil
  | cons token inside ih => exact .cons rfl rfl ih

variable {finish : Token} {busy : List Macro.Entry} {after : List Token} {closing : Token}

theorem collectArguments_queue (fuel : Nat) (goOn : ∀ token ∈ inside, token.GoesOn)
    (balanced : depthAfter 0 inside = some 0) (closes : closing.isPunctuator ")" = true)
    (enough : inside.length < bound) :
    collectArguments (TokenStream.move (fuel + 1)) bound {}
        [.queue ⟨inside ++ closing :: after, finish, busy⟩] =
      pure (.closed ⟨withoutNewlines inside, spansFrom 0 (argumentsIn 0 (withoutNewlines inside))⟩,
        [.queue ⟨after, finish, busy⟩]) := by
  funext context
  obtain ⟨more, rfl⟩ : ∃ more, bound = more + 1 + inside.length :=
    ⟨bound - 1 - inside.length, by omega⟩
  rw [collectArguments_consumes (consumes_queue fuel inside (closing :: after) finish busy context)
    goOn (by rw [balanced]; rfl), ← Collecting.arguments_takeAll]
  exact (Collecting.Ends.closed (.cons rfl rfl .nil) closes
    (Collecting.depth_takeAll balanced)).collects

theorem skipNewlines_queue {newlines : List Token} {next : Token}
    (blank : ∀ token ∈ newlines, token.kind = .newline) (other : next.kind ≠ .newline) (fuel : Nat)
    (enough : newlines.length < bound) :
    Stack.skipNewlines (readWith (TokenStream.move (fuel + 1)))
        (peekWith (TokenStream.move (fuel + 1))) bound
        [.queue ⟨newlines ++ next :: after, finish, busy⟩] =
      pure [.queue ⟨next :: after, finish, busy⟩] := by
  induction newlines generalizing bound with
  | nil =>
    obtain ⟨bound, rfl⟩ := Nat.exists_eq_succ_of_ne_zero (Nat.ne_of_gt enough)
    change (if next.kind == .newline then _ else pure _ : Engine _) = _
    rw [beq_eq_false_iff_ne.mpr other]
    rfl
  | cons newline newlines ih =>
    obtain ⟨bound, rfl⟩ := Nat.exists_eq_succ_of_ne_zero (Nat.ne_of_gt (Nat.zero_lt_of_lt enough))
    obtain ⟨isNewline, blank⟩ := List.forall_mem_cons.mp blank
    change (if newline.kind == .newline then _ else pure _ : Engine _) = _
    rw [isNewline]
    exact ih blank (Nat.lt_of_succ_lt_succ enough)

theorem collectArguments_unclosed (fuel : Nat) (goOn : ∀ token ∈ inside, token.GoesOn)
    (isOpen : (depthAfter 0 inside).isSome) (ends : finish.isEof = true)
    (stops : ∀ token ∈ after.head?, token.isEof = true ∨ token.kind = .directive)
    (enough : inside.length < bound) :
    collectArguments (TokenStream.move (fuel + 1)) bound {}
      [.queue ⟨inside ++ after, finish, busy⟩] =
      pure (.unclosed (withoutNewlines inside), [.queue ⟨after, finish, busy⟩]) := by
  funext context
  obtain ⟨more, rfl⟩ : ∃ more, bound = more + 1 + inside.length :=
    ⟨bound - 1 - inside.length, by omega⟩
  have all : (Collecting.takeAll {} inside).tokens.toList = withoutNewlines inside :=
    Collecting.tokens_takeAll {} inside
  rw [collectArguments_consumes (consumes_queue fuel inside after finish busy context) goOn isOpen,
    ← all]
  refine (Collecting.Ends.unclosed rfl ?_).collects
  cases after with
  | nil => exact .inl ends
  | cons token after => exact stops token rfl

section Calls

variable {expansion : Expansion TokenStream} {entry : Macro.Entry} {newlines : List Token}
  {opening : Token} (blank : ∀ token ∈ newlines, token.kind = .newline)

include blank

theorem opening_queue
    (opens : opening.isPunctuator "(" = true) (fuel : Nat) (short : newlines.length < bound) :
    Stack.skipNewlines (readWith (TokenStream.move (fuel + 1)))
        (peekWith (TokenStream.move (fuel + 1))) bound
        [.queue ⟨newlines ++ opening :: after, finish, busy⟩] =
      pure [.queue ⟨opening :: after, finish, busy⟩] ∧
    peekStack (TokenStream.move (fuel + 1)) [.queue ⟨opening :: after, finish, busy⟩] =
      pure (opening, [.queue ⟨opening :: after, finish, busy⟩]) ∧
    readStack (TokenStream.move (fuel + 1)) [.queue ⟨opening :: after, finish, busy⟩] =
      pure (opening, [.queue ⟨after, finish, busy⟩]) :=
  ⟨skipNewlines_queue blank (Token.inside_of_isPunctuator opens).2.1 fuel short, rfl, rfl⟩

theorem Expansion.attemptCall_unclosed
    (opens : opening.isPunctuator "(" = true) (fuel : Nat) (goOn : ∀ token ∈ inside, token.GoesOn)
    (isOpen : (depthAfter 0 inside).isSome) (ends : finish.isEof = true)
    (stops : ∀ token ∈ after.head?, token.isEof = true ∨ token.kind = .directive)
    (short : newlines.length < bound) (enough : inside.length < bound)
    (stack : expansion.sources = [.queue ⟨newlines ++ opening :: (inside ++ after), finish, busy⟩])
    (outermost : Bool) :
    expansion.attemptCall (TokenStream.move (fuel + 1)) bound entry outermost = do
      Engine.report expansion.lookahead.location (.unterminatedCall entry.definition.name)
      return .stays { expansion with
        leftAlone := true
        sources := replay (opening :: withoutNewlines inside) [.queue ⟨after, finish, busy⟩] } := by
  obtain ⟨skips, looks, reads⟩ := @opening_queue bound finish busy (inside ++ after) newlines
    opening blank opens fuel short
  have collects := @collectArguments_unclosed inside bound finish busy after fuel goOn isOpen ends
    stops enough
  unfold Expansion.attemptCall
  simp only [stack, skips, looks, reads, collects, pure_bind, opens]
  rfl

/-- A call that is closed is taken up to its closing parenthesis. Then the invocation begins, or the
call vanishes if its arguments do not fit. -/
theorem Expansion.attemptCall_closed
    (opens : opening.isPunctuator "(" = true) (fuel : Nat) (goOn : ∀ token ∈ inside, token.GoesOn)
    (balanced : depthAfter 0 inside = some 0) (closes : closing.isPunctuator ")" = true)
    (short : newlines.length < bound) (enough : inside.length < bound) {taken : Arguments}
    (adjusted : entry.definition.adjustArguments
      ⟨withoutNewlines inside, spansFrom 0 (argumentsIn 0 (withoutNewlines inside))⟩ = taken)
    (stack : expansion.sources =
      [.queue ⟨newlines ++ opening :: (inside ++ closing :: after), finish, busy⟩])
    (outermost : Bool) :
    expansion.attemptCall (TokenStream.move (fuel + 1)) bound entry outermost =
      if entry.definition.acceptsCount taken.spans.length then do
        return .again (← expansion.begin (TokenStream.move (fuel + 1))
          { entry, nameToken := expansion.lookahead, origin := expansion.origin, arguments := taken,
            outermost, lookahead := .endOfInput expansion.lookahead.location } busy
          [.queue ⟨after, finish, busy⟩])
      else do
        Engine.report expansion.lookahead.location (.wrongArgumentCount entry.definition.name
          (toString entry.definition.requiredArguments) (toString taken.spans.length))
        let (lookahead, sources) ← readStack (TokenStream.move (fuel + 1))
          [.queue ⟨after, finish, busy⟩]
        return .again { expansion with lookahead, sources } := by
  obtain ⟨skips, looks, reads⟩ := @opening_queue bound finish busy (inside ++ closing :: after)
    newlines opening blank opens fuel short
  unfold Expansion.attemptCall
  simp only [stack, skips, looks, reads, collectArguments_queue fuel goOn balanced closes enough,
    pure_bind, opens, adjusted]
  rfl

end Calls

theorem withoutNewlines_of_inside {tokens : List Token} (inside : ∀ token ∈ tokens, token.Inside) :
    withoutNewlines tokens = tokens :=
  List.filter_eq_self.mpr fun token member => by simpa using (inside token member).2.1

theorem Expansion.attemptCall_separated (fuel : Nat) {expansion : Expansion TokenStream}
    {entry : Macro.Entry} {opening : Token} (opens : opening.isPunctuator "(" = true)
    (closes : closing.isPunctuator ")" = true) {arguments : List (List Token)}
    (each : ∀ argument ∈ arguments, IsArgument argument)
    (counted : commas.length + 1 = arguments.length)
    (separate : ∀ comma ∈ commas, comma.isPunctuator "," = true)
    (enough : (separated arguments commas).length < bound) {taken : Arguments}
    (adjusted : entry.definition.adjustArguments
      ⟨separated arguments commas, spansFrom 0 arguments⟩ = taken)
    (accepted : entry.definition.acceptsCount taken.spans.length = true)
    (stack : expansion.sources =
      [.queue ⟨opening :: (separated arguments commas ++ closing :: after), finish, busy⟩])
    (outermost : Bool) :
    expansion.attemptCall (TokenStream.move (fuel + 1)) bound entry outermost = do
      return .again (← expansion.begin (TokenStream.move (fuel + 1))
        { entry, nameToken := expansion.lookahead, origin := expansion.origin, arguments := taken,
          outermost, lookahead := .endOfInput expansion.lookahead.location } busy
        [.queue ⟨after, finish, busy⟩]) := by
  obtain ⟨found, balanced⟩ :=
    argumentsIn_separated (fun argument member => (each argument member).balanced) counted separate
  have inside : ∀ token ∈ separated arguments commas, token.Inside :=
    forall_mem_separated (fun argument member => (each argument member).inside)
      fun comma member => Token.inside_of_isPunctuator (separate comma member)
  have whole := withoutNewlines_of_inside inside
  have goOn (token : Token) (member : token ∈ separated arguments commas) : token.GoesOn :=
    ⟨(inside token member).1, (inside token member).2.2⟩
  rw [attemptCall_closed (List.forall_mem_nil _) opens fuel goOn balanced closes
    (Nat.zero_lt_of_lt enough) enough (by rw [whole, found, adjusted]) stack, if_pos accepted]

end Collects

section Spans

variable {arguments : List (List Token)} {commas : List Token}

theorem separated_cons (argument : List Token) (arguments : List (List Token))
    (commas : List Token) :
    ∃ more, separated (argument :: arguments) commas = argument ++ more := by
  cases arguments with
  | nil => exact ⟨[], by simp [separated]⟩
  | cons next arguments => exact ⟨_, by rw [separated, List.append_assoc]⟩

/-- The span of an argument begins where the argument and those after it stand. -/
theorem getElem?_spansFrom (front : List Token) (counted : commas.length + 1 = arguments.length)
    {number : Nat} (found : arguments[number]? = some argument) :
    ∃ start : Nat, (spansFrom front.length arguments)[number]? =
        some ((start : Int), ((start + argument.length : Nat) : Int)) ∧
      start ≤ (front ++ separated arguments commas).length ∧
      (front ++ separated arguments commas).drop start =
        separated (arguments.drop number) (commas.drop number) := by
  induction arguments generalizing front commas number with
  | nil => cases found
  | cons first arguments ih =>
    cases number with
    | zero =>
      cases found
      exact ⟨front.length, by simp [spansFrom]⟩
    | succ number =>
      cases arguments with
      | nil => cases found
      | cons next arguments =>
        cases commas with
        | nil => cases counted
        | cons comma commas =>
          have counted : commas.length + 1 = (next :: arguments).length := by
            simpa using counted
          obtain ⟨start, spanned, inside, rest⟩ :=
            ih (front ++ first ++ [comma]) counted found
          refine ⟨start, ?_, ?_, ?_⟩
          · simpa [spansFrom, Nat.add_assoc] using spanned
          · simpa [separated] using inside
          · simpa [separated] using rest

/-- The last span ends where the arguments end. -/
theorem getLast?_spansFrom (front : List Token)
    (counted : commas.length + 1 = arguments.length) :
    ∃ start : Int, (spansFrom front.length arguments).getLast? =
      some (start, ((front ++ separated arguments commas).length : Int)) := by
  induction arguments generalizing front commas with
  | nil => cases counted
  | cons first arguments ih =>
    cases arguments with
    | nil => exact ⟨front.length, by simp [spansFrom, separated]⟩
    | cons next arguments =>
      cases commas with
      | nil => cases counted
      | cons comma commas =>
        obtain ⟨start, last⟩ := ih (front ++ first ++ [comma]) (by simpa using counted)
        refine ⟨start, ?_⟩
        have same : front ++ first ++ [comma] ++ separated (next :: arguments) commas =
            front ++ separated (first :: next :: arguments) (comma :: commas) := by
          simp [separated]
        rw [← same, ← last, spansFrom]
        simp [spansFrom, Nat.add_assoc]

theorem length_spansFrom (start : Nat) (arguments : List (List Token)) :
    (spansFrom start arguments).length = arguments.length := by
  induction arguments generalizing start with
  | nil => rfl
  | cons argument arguments ih => simp [spansFrom, ih]

end Spans

end Preproc

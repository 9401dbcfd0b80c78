import Preproc.Proofs.Session.Written

/-! # Reading definition lines back

A session that stands before a definition line as it is written for a tidy macro defines a macro of
the same description, with nothing to report. Each lemma says what an action gives, provided that
the means suffice.

Main statement: `Session.step_written`.
-/

namespace Preproc

variable {tokens : List Token}

theorem Parameter.goesOn_writtenAll (parameters : List Parameter) :
    ∀ token ∈ writtenAll parameters, token.isEof = false := by
  have one (parameter : Parameter) : ∀ token ∈ parameter.written, token.isEof = false := by
    unfold written
    split
    · split <;> simp [Token.isEof, Token.word, Token.sign]
    · simp [Token.isEof, Token.word]
  fun_induction writtenAll parameters with
  | case1 => simp [Token.isEof, Token.sign]
  | case2 last => exact List.forall_mem_append.mpr ⟨one last, by simp [Token.isEof, Token.sign]⟩
  | case3 parameter next rest ih =>
    exact List.forall_mem_append.mpr ⟨one parameter, List.forall_mem_cons.mpr ⟨rfl, ih⟩⟩

theorem Parameter.length_le_writtenAll (parameters : List Parameter) :
    parameters.length ≤ (writtenAll parameters).length := by
  have one (parameter : Parameter) : 0 < parameter.written.length := by
    unfold written
    split
    · split <;> simp
    · simp
  fun_induction writtenAll parameters with
  | case1 => simp
  | case2 last => simp
  | case3 parameter next rest ih =>
    simp only [List.length_cons, List.length_append] at ih ⊢
    omega

theorem Parameter.exists_first (parameter : Parameter) (parameters : List Parameter) :
    ∃ token rest, writtenAll (parameter :: parameters) = token :: rest ∧
      token.isPunctuator ")" = false := by
  have one : ∃ token rest, parameter.written = token :: rest ∧ token.isPunctuator ")" = false := by
    unfold written
    split
    · split <;> exact ⟨_, _, rfl, rfl⟩
    · exact ⟨_, _, rfl, rfl⟩
  obtain ⟨token, rest, whole, opens⟩ := one
  cases parameters <;>
    exact ⟨token, _, by rw [writtenAll, whole, List.cons_append], opens⟩

/-- Parameters that are written alike. -/
structure Parameter.Near (parameter parameter' : Parameter) : Prop where
  name : parameter'.name = parameter.name
  variadic : parameter'.variadic = parameter.variadic

variable {parameters parameters' : List Parameter}

section

variable (near : List.Forall₂ Parameter.Near parameters parameters')

include near

theorem Parameter.names_near : parameters'.map (·.name) = parameters.map (·.name) := by
  induction near with
  | nil => rfl
  | cons here _ ih => rw [List.map_cons, List.map_cons, here.name, ih]

theorem Parameter.render_near : parameters'.map render = parameters.map render := by
  induction near with
  | nil => rfl
  | cons here _ ih =>
    rw [List.map_cons, List.map_cons, ih]
    unfold render
    rw [here.name, here.variadic]

theorem Parameter.settled_near
    (settled : ∀ parameter ∈ parameters.dropLast, parameter.variadic = false) :
    ∀ parameter ∈ parameters'.dropLast, parameter.variadic = false := by
  induction near with
  | nil => exact settled
  | cons here later ih =>
    cases later with
    | nil => simp
    | cons next later =>
      obtain ⟨first, settled⟩ := List.forall_mem_cons.mp settled
      exact List.forall_mem_cons.mpr ⟨here.variadic.trans first, ih settled⟩

end

namespace Session

def before (session : Session) (path : String) (below : List InputFile) (tokens : List Token) :
    Session :=
  { session with files := (Spot.start path).input tokens [] :: below }

variable {session : Session} {path : String} {below : List InputFile} {context : Context}
  {token newline separator : Token} {operands tokens rest : List Token} (fuel : Nat)

section Raw

theorem rawHead_before : rawHead (session.before path below (token :: rest)) context =
    .ok (token, session.before path below (token :: rest)) context :=
  rfl

theorem takeRaw_before (goesOn : token.isEof = false) (ends : Terminated rest) :
    takeRaw (fuel + 2) (session.before path below (token :: rest)) context =
      .ok (token, session.before path below rest) context := by
  unfold takeRaw
  rw [bind_of_ok rawHead_before, bind_of_ok (moveFile_of_input fuel rfl goesOn ends)]
  rfl

theorem restOfLine_before (inside : ∀ token ∈ operands, token.endsLine = false)
    (kind : newline.kind = .newline) (ends : Terminated rest) {bound : Nat}
    (enough : operands.length < bound) :
    restOfLine (fuel + 2) bound (session.before path below (operands ++ newline :: rest)) context =
      .ok (operands, session.before path below (newline :: rest)) context := by
  induction operands generalizing bound with
  | nil =>
    obtain ⟨bound, rfl⟩ := Nat.exists_eq_add_one_of_ne_zero (Nat.ne_zero_of_lt enough)
    unfold restOfLine
    rw [List.nil_append, bind_of_ok rawHead_before, if_pos (endsLine_of_newline kind)]
    rfl
  | cons operand operands ih =>
    obtain ⟨here, later⟩ := List.forall_mem_cons.mp inside
    obtain ⟨bound, rfl⟩ := Nat.exists_eq_add_one_of_ne_zero (Nat.ne_zero_of_lt enough)
    unfold restOfLine
    rw [List.cons_append, bind_of_ok rawHead_before, if_neg (by simp [here]),
      bind_of_ok (takeRaw_before fuel (isEof_of_inside here) (terminated_line later kind ends)),
      bind_of_ok (ih later (Nat.lt_of_succ_lt_succ enough))]
    rfl

end Raw

section Parameters

variable (session path below context) {parameter : Parameter} {known : List Parameter}

theorem takeParameter_before (near : NearTokens false parameter.written tokens)
    (fresh : ∀ other ∈ known, other.name ≠ parameter.name)
    (separates : separator.isPunctuator "..." = false) (ends : Terminated (separator :: rest)) :
    ∃ parameter', parameter.Near parameter' ∧
      takeParameter (fuel + 2) known (session.before path below (tokens ++ separator :: rest))
        context = .ok (some parameter', session.before path below (separator :: rest)) context := by
  have unknown : known.any (·.name == parameter.name) = false := by simpa using fresh
  unfold Parameter.written at near
  split at near
  next variadic =>
    split at near
    next bare =>
      obtain ⟨dots, _, here, ⟨⟩, rfl⟩ := List.forall₂_cons_left_iff.mp near
      have bare : variadicName = parameter.name := (beq_iff_eq.mp bare).symm
      have identifier : dots.isIdentifier = false := here.isIdentifier
      have isDots : dots.isPunctuator "..." = true := here.isPunctuator "..."
      refine ⟨⟨parameter.name, dots.location, true⟩, ⟨rfl, variadic.symm⟩, ?_⟩
      unfold takeParameter
      rw [List.singleton_append, bind_of_ok rawHead_before, if_neg (by simp [isDots])]
      simp only [identifier, bare, unknown, Bool.false_eq_true, if_false]
      rw [bind_of_ok rawHead_before, if_pos isDots,
        bind_of_ok (takeRaw_before fuel here.isEof ends), isDots]
      rfl
    next named =>
      obtain ⟨name, _, here, later, rfl⟩ := List.forall₂_cons_left_iff.mp near
      obtain ⟨dots, _, next, ⟨⟩, rfl⟩ := List.forall₂_cons_left_iff.mp later
      have identifier : name.isIdentifier = true := here.isIdentifier
      have lexeme : name.lexeme = parameter.name := here.lexeme
      have isDots : dots.isPunctuator "..." = true := next.isPunctuator "..."
      refine ⟨⟨parameter.name, name.location, true⟩, ⟨rfl, variadic.symm⟩, ?_⟩
      unfold takeParameter
      rw [List.cons_append, List.singleton_append, bind_of_ok rawHead_before,
        if_neg (by simp [identifier])]
      simp only [identifier, lexeme, unknown, Bool.false_eq_true, if_false, if_true]
      rw [bind_of_ok (takeRaw_before fuel here.isEof (ends.cons next.isEof)),
        bind_of_ok rawHead_before, if_pos isDots,
        bind_of_ok (takeRaw_before fuel next.isEof ends), isDots]
      rfl
  next plain =>
    obtain ⟨name, _, here, ⟨⟩, rfl⟩ := List.forall₂_cons_left_iff.mp near
    have identifier : name.isIdentifier = true := here.isIdentifier
    have lexeme : name.lexeme = parameter.name := here.lexeme
    refine ⟨⟨parameter.name, name.location, false⟩, ⟨rfl, by simpa using plain⟩, ?_⟩
    unfold takeParameter
    rw [List.singleton_append, bind_of_ok rawHead_before, if_neg (by simp [identifier])]
    simp only [identifier, lexeme, unknown, Bool.false_eq_true, if_false, if_true]
    rw [bind_of_ok (takeRaw_before fuel here.isEof ends), bind_of_ok rawHead_before,
      if_neg (by simp [separates]), separates]
    rfl

theorem takeParameters_before
    (near : NearTokens false (Parameter.writtenAll (parameter :: parameters)) tokens)
    (distinct : ((known ++ parameter :: parameters).map (·.name)).Nodup)
    (ends : Terminated rest) {bound : Nat} (enough : parameters.length < bound) :
    ∃ parameters', List.Forall₂ Parameter.Near (parameter :: parameters) parameters' ∧
      takeParameters (fuel + 2) bound known (session.before path below (tokens ++ rest)) context =
        .ok (some (known ++ parameters'), session.before path below rest) context := by
  have apart {parameter : Parameter} {parameters known : List Parameter}
      (distinct : ((known ++ parameter :: parameters).map (·.name)).Nodup) :
      ∀ other ∈ known, other.name ≠ parameter.name := by
    intro other member same
    rw [List.map_append, List.map_cons] at distinct
    exact (List.nodup_append.mp distinct).2.2 _
      (List.mem_map_of_mem member) _ List.mem_cons_self same
  induction parameters generalizing parameter known tokens bound with
  | nil =>
    obtain ⟨bound, rfl⟩ := Nat.exists_eq_add_one_of_ne_zero (Nat.ne_zero_of_lt enough)
    obtain ⟨front, _, rfl, here, later⟩ := NearTokens.exists_append near
    obtain ⟨closing, _, closes, ⟨⟩, rfl⟩ := List.forall₂_cons_left_iff.mp later
    have isClosing : closing.isPunctuator ")" = true := closes.isPunctuator ")"
    obtain ⟨parameter', near', takes⟩ := takeParameter_before session path below context fuel here
      (apart distinct) (closes.isPunctuator "...") (ends.cons closes.isEof)
    refine ⟨[parameter'], .cons near' .nil, ?_⟩
    unfold takeParameters
    rw [List.append_assoc, List.singleton_append, bind_of_ok takes]
    dsimp only
    rw [bind_of_ok rawHead_before, if_pos isClosing,
      bind_of_ok (takeRaw_before fuel closes.isEof ends)]
    rfl
  | cons next parameters ih =>
    obtain ⟨bound, rfl⟩ := Nat.exists_eq_add_one_of_ne_zero (Nat.ne_zero_of_lt enough)
    obtain ⟨front, _, rfl, here, later⟩ := NearTokens.exists_append near
    obtain ⟨comma, back, separates, others, rfl⟩ := List.forall₂_cons_left_iff.mp later
    have isComma : comma.isPunctuator "," = true := separates.isPunctuator ","
    have notClosing : comma.isPunctuator ")" = false := separates.isPunctuator ")"
    have more : Terminated (back ++ rest) := by
      refine ends.append (NearTokens.forall_mem others (fun near kept => ?_)
        (Parameter.goesOn_writtenAll (next :: parameters)))
      rwa [near.isEof]
    obtain ⟨parameter', near', takes⟩ := takeParameter_before session path below context fuel here
      (apart distinct) (separates.isPunctuator "...") (more.cons separates.isEof)
    have distinct' : ((known ++ [parameter'] ++ next :: parameters).map (·.name)).Nodup := by
      simpa [near'.name] using distinct
    obtain ⟨parameters', nears, takesAll⟩ := ih others distinct' (Nat.lt_of_succ_lt_succ enough)
    refine ⟨parameter' :: parameters', .cons near' nears, ?_⟩
    unfold takeParameters
    rw [List.append_assoc, List.cons_append, bind_of_ok takes]
    dsimp only
    rw [bind_of_ok rawHead_before, if_neg (by simp [notClosing]), if_pos isComma,
      bind_of_ok (takeRaw_before fuel separates.isEof more), takesAll, List.append_assoc,
      List.singleton_append]

omit path below in
theorem settleVariadics_of
    (settled : ∀ parameter ∈ parameters.dropLast, parameter.variadic = false) :
    settleVariadics parameters session context = .ok (parameters, session) context := by
  induction parameters with
  | nil => rfl
  | cons parameter rest ih =>
    cases rest with
    | nil => rfl
    | cons next rest =>
      obtain ⟨here, later⟩ := List.forall_mem_cons.mp settled
      obtain ⟨name, location, variadic⟩ := parameter
      cases here
      unfold settleVariadics
      exact bind_of_ok (ih later)

theorem parameterList_before (near : NearTokens false (Parameter.writtenAll parameters) tokens)
    (distinct : (parameters.map (·.name)).Nodup)
    (settled : ∀ parameter ∈ parameters.dropLast, parameter.variadic = false)
    (ends : Terminated rest) (enough : parameters.length < fuel + 2) :
    ∃ parameters', List.Forall₂ Parameter.Near parameters parameters' ∧
      parameterList (fuel + 2) (session.before path below (tokens ++ rest)) context =
        .ok (some parameters', session.before path below rest) context := by
  unfold parameterList
  cases parameters with
  | nil =>
    obtain ⟨closing, _, closes, ⟨⟩, rfl⟩ := List.forall₂_cons_left_iff.mp near
    have isClosing : closing.isPunctuator ")" = true := closes.isPunctuator ")"
    refine ⟨[], .nil, ?_⟩
    rw [List.singleton_append, bind_of_ok rawHead_before, if_pos isClosing,
      bind_of_ok (takeRaw_before fuel closes.isEof ends)]
    rfl
  | cons parameter parameters =>
    have distinct : (([] ++ parameter :: parameters).map Parameter.name).Nodup := distinct
    obtain ⟨parameters', nears, takes⟩ := takeParameters_before session path below context fuel near
      distinct ends (Nat.lt_of_succ_lt enough)
    refine ⟨parameters', nears, ?_⟩
    obtain ⟨first, others, whole, opens⟩ := Parameter.exists_first parameter parameters
    obtain ⟨token, later, here, _, rfl⟩ := List.forall₂_cons_left_iff.mp (whole ▸ near)
    rw [List.cons_append] at takes ⊢
    rw [bind_of_ok rawHead_before, if_neg (by simp [here.isPunctuator, opens]), bind_of_ok takes]
    exact bind_of_ok (settleVariadics_of _ _ (Parameter.settled_near nears settled))

end Parameters

end Session

section Building

theorem Token.spell_apart (tokens : List Token) : spell (apart tokens) = spell tokens := by
  cases tokens with
  | nil => rfl
  | cons first rest =>
    have ends : (first.withLeadingSpace true).endsLine = first.endsLine := rfl
    unfold spell apart
    rw [List.filter_cons, ends, List.filter_cons]
    cases first.endsLine <;> rfl

theorem Token.bare_near {body : List Token} (near : NearTokens false (apart body) tokens) :
    tokens.map bare = body.map bare := by
  have blind (tokens : List Token) : (tokens.map (seen false)).map bare = tokens.map bare := by
    rw [List.map_map]
    rfl
  rw [near.congr blind]
  cases body <;> rfl

/-- A macro of the same description. -/
structure Macro.Redefines (definition definition' : Macro) : Prop where
  name : definition'.name = definition.name
  plain : definition'.isBuiltin = false
  describe : definition'.describe = definition.describe

theorem Macro.Tidy.exists_build {definition : Macro} (tidy : definition.Tidy) {name : Token}
    (named : name.lexeme = definition.name) {parameters : Option (List Parameter)}
    (flavor : parameters.isSome = definition.isFunctionLike) (plain : definition.isBuiltin = false)
    (declared : List.Forall₂ Parameter.Near definition.parameters (parameters.getD []))
    {body : List Token} (near : NearTokens false (Token.apart definition.body) body)
    (place : Location) :
    ∃ definition', (build name parameters body place).1 = .ok definition' ∧
      (build name parameters body place).2 = [] ∧ definition.Redefines definition' := by
  obtain ⟨definition', built⟩ :=
    Macro.exists_build (Parameter.settled_near declared tidy.variadic)
  refine ⟨definition', built, ?_, ?_⟩
  · have bare := Op.compile_bare (definition.parameters.map (·.name)) definition.isFunctionLike
    have alike := (bare body).2
    rw [Token.bare_near near, (bare _).2, tidy.accepted, ← Parameter.names_near declared,
      ← flavor] at alike
    exact List.map_eq_nil_iff.mp alike.symm
  · have plain' : definition'.isBuiltin = false := by
      rw [eq_of_checked built]
      cases parameters <;> rfl
    refine ⟨(name_of_build built).trans named, plain', ?_⟩
    unfold Macro.describe signature
    rw [plain', plain, (parameters_of_build built).1, (parameters_of_build built).2, flavor,
      name_of_build built, named, Parameter.render_near declared, (ops_of_build built).1,
      Token.spell_near near, Token.spell_apart]

end Building

def Context.defined (context : Context) (definition : Macro) : Context :=
  { context with
    table := context.table.define definition
    events := context.events.push (.defining definition) }

namespace Session

variable {definition : Macro} (tidy : definition.Tidy) (plain : definition.isBuiltin = false)
  {name mark word newline : Token} {tokens rest : List Token} (kind : newline.kind = .newline)
  (ends : Terminated rest) {context : Context}
  (fresh : context.table.lookup definition.name = none)
  (session : Session) (path : String) (below : List InputFile) (fuel : Nat)

include tidy plain kind ends fresh

theorem defineFrom_before (named : name.lexeme = definition.name)
    {parameters : Option (List Parameter)} (flavor : parameters.isSome = definition.isFunctionLike)
    (declared : List.Forall₂ Parameter.Near definition.parameters (parameters.getD []))
    (near : NearTokens false (Token.apart definition.body) tokens)
    (inside : ∀ token ∈ tokens, token.endsLine = false) (enough : tokens.length < fuel + 2) :
    ∃ definition', definition.Redefines definition' ∧
      defineFrom (fuel + 2) name parameters (session.before path below (tokens ++ newline :: rest))
        context = .ok ((), session.before path below (newline :: rest))
          (context.defined definition') := by
  obtain ⟨definition', built, accepted, redefines⟩ :=
    tidy.exists_build named flavor plain declared near newline.location
  refine ⟨definition', redefines, ?_⟩
  have found : table (session.before path below (newline :: rest)) context =
      .ok (context.table, session.before path below (newline :: rest)) context := rfl
  unfold defineFrom
  rw [bind_of_ok (restOfLine_before fuel inside kind ends enough), bind_of_ok found, named, fresh]
  dsimp only
  rw [bind_of_ok rawHead_before]
  have builds : (liftM (Engine.build name parameters tokens newline.location) : SessionM Macro)
      (session.before path below (newline :: rest)) context =
        .ok (definition', session.before path below (newline :: rest)) context := by
    refine lift_ok_iff.mpr ⟨?_, rfl⟩
    rw [Engine.build, Prod.ext (y := (.ok definition', [])) built accepted]
    rfl
  rw [bind_of_ok builds]
  rfl

theorem handleDefine_before (identifier : name.isIdentifier = true)
    (named : name.lexeme = definition.name) (near : NearTokens false definition.writtenAfter tokens)
    (inside : ∀ token ∈ tokens, token.endsLine = false) (enough : tokens.length < fuel + 2) :
    ∃ definition', definition.Redefines definition' ∧
      handleDefine (fuel + 2) word
        (session.before path below (name :: (tokens ++ newline :: rest))) context =
          .ok (.checked, session.before path below (newline :: rest))
            (context.defined definition') := by
  have goesOn : name.isEof = false := by simp_all [Token.isEof, Token.isIdentifier]
  have more := terminated_line inside kind ends
  have expects : expectName (fuel + 2) word
      (session.before path below (name :: (tokens ++ newline :: rest))) context =
        .ok (some name, session.before path below (tokens ++ newline :: rest)) context := by
    unfold expectName
    rw [bind_of_ok rawHead_before, if_pos identifier, bind_of_ok (takeRaw_before fuel goesOn more)]
    rfl
  unfold Macro.writtenAfter at near
  split at near
  next functionLike =>
    obtain ⟨opening, later, here, nears, rfl⟩ := List.forall₂_cons_left_iff.mp near
    obtain ⟨declaring, body, rfl, declares, bodies⟩ := NearTokens.exists_append nears
    obtain ⟨first, others⟩ := List.forall_mem_cons.mp inside
    obtain ⟨_, insideBody⟩ := List.forall_mem_append.mp others
    have moreBody := terminated_line insideBody kind ends
    have longer : definition.parameters.length < fuel + 2 := by
      have least := Parameter.length_le_writtenAll definition.parameters
      rw [declares.length_eq] at least
      simp only [List.length_cons, List.length_append] at enough
      omega
    obtain ⟨parameters, declared, takes⟩ := parameterList_before session path below context fuel
      declares tidy.distinct tidy.variadic moreBody longer
    have shorter : body.length < fuel + 2 := by
      simp only [List.length_cons, List.length_append] at enough
      omega
    have flavor : (some parameters).isSome = definition.isFunctionLike := functionLike.symm
    obtain ⟨definition', redefines, defines⟩ := defineFrom_before tidy plain kind ends fresh session
      path below fuel named flavor declared bodies insideBody shorter
    refine ⟨definition', redefines, ?_⟩
    have opens : (opening.isPunctuator "(" && !opening.leadingSpace) = true := by
      rw [here.isPunctuator, here.leadingSpace]
      rfl
    unfold handleDefine
    rw [bind_of_ok expects]
    dsimp only
    rw [List.cons_append, bind_of_ok rawHead_before, if_pos opens,
      bind_of_ok (takeRaw_before fuel (isEof_of_inside first) (terminated_line others kind ends)),
      List.append_assoc, bind_of_ok takes]
    dsimp only
    rw [bind_of_ok defines]
    rfl
  next objectLike =>
    have bare : definition.isFunctionLike = false := by simpa using objectLike
    have flavor : (none : Option (List Parameter)).isSome = definition.isFunctionLike := bare.symm
    have declared : List.Forall₂ Parameter.Near definition.parameters [] := by
      rw [tidy.bare bare]
      exact .nil
    obtain ⟨definition', redefines, defines⟩ := defineFrom_before tidy plain kind ends fresh session
      path below fuel named flavor declared near inside enough
    refine ⟨definition', redefines, ?_⟩
    -- A parenthesis that opens a body has a space before it.
    have first : ∃ token later, tokens ++ newline :: rest = token :: later ∧
        (token.isPunctuator "(" && !token.leadingSpace) = false := by
      generalize definition.body = body at near
      cases body with
      | nil =>
        cases near
        exact ⟨newline, rest, rfl, by simp [Token.isPunctuator, kind]⟩
      | cons first others =>
        obtain ⟨token, later, here, _, rfl⟩ := List.forall₂_cons_left_iff.mp near
        refine ⟨token, later ++ newline :: rest, rfl, ?_⟩
        rw [here.leadingSpace]
        simp [Token.withLeadingSpace]
    obtain ⟨token, later, whole, closed⟩ := first
    unfold handleDefine
    rw [bind_of_ok expects]
    dsimp only
    rw [whole] at defines ⊢
    rw [bind_of_ok rawHead_before, if_neg (by simp [closed]), bind_of_ok defines]
    rfl

theorem handleDirective_before (goesOn : mark.isEof = false)
    (near : NearTokens false definition.written.tail tokens) (enough : tokens.length < fuel + 2) :
    ∃ definition', definition.Redefines definition' ∧
      handleDirective (fuel + 2) (session.before path below (mark :: (tokens ++ newline :: rest)))
        context = .ok ((), session.before path below rest) (context.defined definition') := by
  have inside : ∀ token ∈ tokens, token.endsLine = false :=
    near.forall_mem (fun near kept => near.endsLine.trans kept) fun token member =>
      (tidy.fit_written token (List.mem_of_mem_tail member)).1.inside
  obtain ⟨word, _, isWord, later, rfl⟩ := List.forall₂_cons_left_iff.mp near
  obtain ⟨name, body, isName, bodies, rfl⟩ := List.forall₂_cons_left_iff.mp later
  obtain ⟨insideWord, insideLater⟩ := List.forall_mem_cons.mp inside
  obtain ⟨_, insideBody⟩ := List.forall_mem_cons.mp insideLater
  have shorter : body.length < fuel + 2 := by
    simp only [List.length_cons] at enough
    omega
  obtain ⟨definition', redefines, defines⟩ :=
    @handleDefine_before _ tidy plain name word newline body
    rest kind ends context fresh session path below fuel isName.isIdentifier isName.lexeme bodies
    insideBody shorter
  refine ⟨definition', redefines, ?_⟩
  have identifier : word.isIdentifier = true := isWord.isIdentifier
  have lexeme : word.lexeme = "define" := isWord.lexeme
  have known : Directive.ofName? word.lexeme = some .define := by
    rw [lexeme]
    rfl
  have active (tokens : List Token) : isSkipping (session.before path below tokens) context =
      .ok (false, session.before path below tokens) context := rfl
  have endsLine : endLine (fuel + 2) word .checked (session.before path below (newline :: rest))
      (context.defined definition') =
        .ok ((), session.before path below rest) (context.defined definition') := by
    rw [endLine.eq_def]
    dsimp only
    rw [bind_of_ok rawHead_before, if_neg (by simp [endsLine_of_newline kind])]
    rw [bind_of_ok rawHead_before, if_pos (by simp [kind]),
      bind_of_ok (takeRaw_before fuel (isEof_of_newline kind) ends)]
    rfl
  unfold handleDirective
  rw [bind_of_ok (takeRaw_before fuel goesOn (terminated_line inside kind ends)), List.cons_append,
    bind_of_ok rawHead_before, if_neg (by simp [insideWord]), bind_of_ok (active _),
    if_neg (by simp [identifier]), known]
  dsimp only
  rw [if_neg (by simp), bind_of_ok (takeRaw_before fuel (isEof_of_inside insideWord)
    (terminated_line insideLater kind ends)), List.cons_append]
  change (handleDefine (fuel + 2) word >>= endLine (fuel + 2) word) _ context = _
  rw [bind_of_ok defines, endsLine]

/-- **One step reads one definition line** and defines a macro of the same description. -/
theorem step_written (unlimited : session.options.errorLimit = 0) (opens : mark.kind = .directive)
    (near : NearTokens false definition.written.tail tokens) (enough : tokens.length < fuel + 2) :
    ∃ definition', definition.Redefines definition' ∧
      step (fuel + 2) (session.before path below (mark :: (tokens ++ newline :: rest))) context =
        .ok (none, session.before path below rest) (context.defined definition') := by
  have goesOn : mark.isEof = false := by simp [Token.isEof, opens]
  obtain ⟨definition', redefines, handles⟩ :=
    handleDirective_before tidy plain kind ends fresh session
    path below fuel goesOn near enough
  have goes : stops (session.before path below (mark :: (tokens ++ newline :: rest))) context =
    false := by
    simp [stops, before, unlimited]
  refine ⟨definition', redefines, ?_⟩
  have marks : ((Spot.start path).input (mark :: (tokens ++ newline :: rest)) []).stream.head.kind =
      .directive := opens
  rw [step_of_files _ rfl goes, stepIn_of_directive _ marks, bind_of_ok handles]
  rfl

end Session

end Preproc

import Preproc.Proofs.Session.Tidy

/-! # Descriptions of macros

A macro that a definition line gives is told apart by its description. The signature ends at the
first equals sign, its parameters are separated by commas, and what is spelled of a body can be read
again in one way only. So macros of one description are of one name and equivalent, and equivalent
macros have bodies of the same kinds and the same ops.

Main statement: `equivalent_iff_describe`.
-/

namespace Preproc

open Source

/-! ### Bodies -/

theorem Source.Begins.unique {text after after' : List Char} {lexeme lexeme' : Lexeme}
    (begins : Begins text lexeme after) (begins' : Begins text lexeme' after') :
    lexeme = lexeme' ∧ after = after' := by
  obtain ⟨_, c, rest, rfl, split⟩ := begins
  obtain ⟨_, _, _, ⟨⟩, split'⟩ := begins'
  exact Prod.mk.inj (split.symm.trans split')

namespace Token

variable {tokens tokens' : List Token}

theorem following_cons (token : Token) (tokens : List Token) :
    following (token :: tokens) = token.space ++ (token.lexeme.toList ++ following tokens) := by
  simp [following]

theorem Legible.near_of_following (legible : Legible tokens) (legible' : Legible tokens')
    (same : following tokens = following tokens') : NearTokens false tokens tokens' := by
  induction tokens generalizing tokens' with
  | nil =>
    cases tokens' with
    | nil => exact .nil
    | cons token' tokens' =>
      obtain ⟨⟨_, _, c, rest, whole, _⟩, _⟩ := legible'
      rw [following_cons, whole] at same
      simp [following] at same
  | cons token tokens ih =>
    obtain ⟨⟨flaw, begins⟩, legible⟩ := legible
    cases tokens' with
    | nil =>
      obtain ⟨_, c, rest, whole, _⟩ := begins
      rw [following_cons, whole] at same
      simp [following] at same
    | cons token' tokens' =>
      obtain ⟨⟨flaw', begins'⟩, legible'⟩ := legible'
      rw [following_cons, following_cons] at same
      have blank (rest : List Char) : trivia? (' ' :: rest) ≠ none := by simp [trivia?, isBlank]
      obtain ⟨spaces, texts⟩ : token.space = token'.space ∧ token.lexeme.toList ++
        following tokens =
          token'.lexeme.toList ++ following tokens' := by
        rcases space_eq token with none | one <;> rcases space_eq token' with none' | one'
        · exact ⟨none.trans none'.symm, by simpa [none, none'] using same⟩
        · rw [none, one'] at same
          exact absurd begins.1 (by rw [List.nil_append] at same; rw [same]; exact blank _)
        · rw [one, none'] at same
          exact absurd begins'.1 (by rw [List.nil_append] at same; rw [← same]; exact blank _)
        · exact ⟨one.trans one'.symm, by simpa [one, one'] using same⟩
      rw [texts] at begins
      obtain ⟨lexemes, after⟩ := Begins.unique begins begins'
      obtain ⟨kind, text, _⟩ := Lexeme.mk.inj lexemes
      refine .cons (.mk kind.symm (String.toList_inj.mp text.symm) ?_ (Location.near_false _ _))
        (ih legible legible' after)
      cases here : token.leadingSpace <;> cases here' : token'.leadingSpace <;>
        simp_all [Token.space]

/-- Tokens on a line that are spelled the same are near each other, apart from the space before the
first. -/
theorem Legible.near_of_spell (legible : Legible tokens) (legible' : Legible tokens')
    (within : ∀ token ∈ tokens, token.endsLine = false)
    (within' : ∀ token ∈ tokens', token.endsLine = false) (same : spell tokens = spell tokens') :
    NearTokens false (tokens.modifyHead (·.withLeadingSpace false))
      (tokens'.modifyHead (·.withLeadingSpace false)) := by
  have texts := congrArg String.toList same
  rw [toList_spell, toList_spell, List.filter_eq_self.mpr (by simpa using within),
    List.filter_eq_self.mpr (by simpa using within')] at texts
  have unspaced {tokens : List Token} (legible : Legible tokens) :
      Legible (tokens.modifyHead (·.withLeadingSpace false)) := by
    cases tokens <;> exact legible
  exact (unspaced legible).near_of_following (unspaced legible') texts

/-- What counts of a token in a body: its kind and its text. -/
def bare (token : Token) : Token :=
  ⟨token.kind, token.lexeme, .unknown, false⟩

theorem spell_of_sameBody (within : ∀ token ∈ tokens, token.endsLine = false)
    (within' : ∀ token ∈ tokens', token.endsLine = false)
    (same : Macro.sameBody tokens tokens' = true) : spell tokens = spell tokens' := by
  have texts (rest : List Token) : following rest = (rest.map Macro.sameBody.spaced).flatMap
      fun look => (if look.2 then [' '] else []) ++ look.1.toList := by
    rw [List.flatMap_map]
    rfl
  rw [← String.toList_inj, toList_spell, toList_spell,
    List.filter_eq_self.mpr (by simpa using within),
    List.filter_eq_self.mpr (by simpa using within')]
  unfold Macro.sameBody at same
  split at same
  · rfl
  next first rest first' rest' =>
    obtain ⟨lexeme, spaced⟩ : first.lexeme = first'.lexeme ∧ _ := by simpa using same
    rw [List.modifyHead_cons, List.modifyHead_cons, following_cons, following_cons, texts rest,
      texts rest', spaced]
    simp [Token.space, Token.withLeadingSpace, lexeme]
  · cases same

/-- **Bodies that are spelled the same** are the same, kinds included. -/
theorem Legible.sameBody (legible : Legible tokens) (legible' : Legible tokens')
    (within : ∀ token ∈ tokens, token.endsLine = false)
    (within' : ∀ token ∈ tokens', token.endsLine = false) (same : spell tokens = spell tokens') :
    Macro.sameBody tokens tokens' = true ∧ tokens'.map bare = tokens.map bare := by
  have near := legible.near_of_spell legible' within within' same
  have reads {α : Type} {rest rest' : List Token} (near : NearTokens false rest rest')
      {read : Token → α} (blind : ∀ token : Token, read (token.seen false) = read token) :
      rest'.map read = rest.map read := by
    refine near.congr fun tokens => ?_
    rw [List.map_map]
    exact List.map_congr_left fun token _ => blind token
  cases tokens with
  | nil =>
    cases tokens' with
    | nil => exact ⟨rfl, rfl⟩
    | cons first' rest' => cases near
  | cons first rest =>
    cases tokens' with
    | nil => cases near
    | cons first' rest' =>
      cases near with
      | cons here later =>
        have lexeme : first'.lexeme = first.lexeme := here.lexeme
        have spaced : rest'.map Macro.sameBody.spaced = rest.map Macro.sameBody.spaced :=
          reads later fun _ => rfl
        have bares : (first'.withLeadingSpace false).bare = (first.withLeadingSpace false).bare :=
          here.congr fun _ => rfl
        refine ⟨by simp [Macro.sameBody, lexeme, spaced], ?_⟩
        exact congrArg₂ List.cons bares (reads later fun _ => rfl)

end Token

/-- **Bodies are compiled alike** if they have the same kinds and texts. -/
theorem Op.compile_bare (names : List String) (functionLike : Bool) (body : List Token) :
    (compile (firstIndex names) functionLike (body.map Token.bare)).ops =
        (compile (firstIndex names) functionLike body).ops ∧
      (compile (firstIndex names) functionLike (body.map Token.bare)).complaints.map (·.2) =
        (compile (firstIndex names) functionLike body).complaints.map (·.2) := by
  have index (token : Token) : firstIndex names token.bare = firstIndex names token := rfl
  have sign (token : Token) (text : String) :
      token.bare.isPunctuator text = token.isPunctuator text := rfl
  have all (before : Before) (first last : Nat) :
      (compileFrom (firstIndex names) functionLike before first last (body.map Token.bare)).ops =
          (compileFrom (firstIndex names) functionLike before first last body).ops ∧
        (compileFrom (firstIndex names) functionLike before first last
          (body.map Token.bare)).complaints.map (·.2) =
          (compileFrom (firstIndex names) functionLike before first last body).complaints.map
            (·.2) := by
    fun_induction compileFrom (firstIndex names) functionLike before first last body
    -- Each case reads the same branch back for the bare tokens.
    all_goals
      rw [compileFrom.eq_def]
      simp_all only [List.map_cons, List.map_nil, List.isEmpty_map, Compiled.complain,
        Compiled.after,
        ↓reduceIte, Bool.false_eq_true, and_self]
  exact (all .nothing 0 0).imp_left (congrArg (shieldOperands false))

/-! ### Signatures -/

theorem Source.Shape.parts {text : List Char} (shape : Shape .identifier text) :
    ∀ c ∈ text, isIdentifierPart c = true := by
  generalize identifier : TokenKind.identifier = kind at shape
  cases shape with
  | identifier starts _ parts =>
    exact List.forall_mem_cons.mpr ⟨isIdentifierPart_of_isIdentifierStart starts, parts⟩
  | literal => split at identifier <;> cases identifier
  | newline | number | punctuator | other => cases identifier

theorem append_inj_of_parts {part : Char → Bool} {front front' rest rest' : List Char}
    (parts : ∀ c ∈ front, part c = true) (parts' : ∀ c ∈ front', part c = true)
    (ends : rest.head?.any part = false) (ends' : rest'.head?.any part = false)
    (same : front ++ rest = front' ++ rest') : front = front' ∧ rest = rest' := by
  obtain rfl : front = front' := by
    rw [← (takeWhile_append_iff parts).mpr ends, same, (takeWhile_append_iff parts').mpr ends']
  exact ⟨rfl, List.append_cancel_left same⟩

namespace Parameter

variable {parameter parameter' : Parameter} {parameters parameters' : List Parameter}

section

variable (shape : Shape .identifier parameter.name.toList)

include shape

theorem mem_render : ∀ c ∈ parameter.render.toList,
      isIdentifierPart c = true ∨ parameter.variadic = true ∧ c = '.' := by
  have name : ∀ c ∈ parameter.name.toList, isIdentifierPart c = true := shape.parts
  unfold render
  split
  next variadic =>
    have dots : ∀ c ∈ "...".toList, isIdentifierPart c = true ∨ parameter.variadic = true ∧ c =
      '.' := by
      simp [variadic]
    split
    · exact dots
    · rw [String.toList_append]
      exact List.forall_mem_append.mpr ⟨fun c member => .inl (name c member), dots⟩
  · exact fun c member => .inl (name c member)

theorem declared_of_render
    (shape' : Shape .identifier parameter'.name.toList)
      (same : parameter.render = parameter'.render) :
    Macro.equivalent.declared parameter = Macro.equivalent.declared parameter' := by
  have dotted {parameter : Parameter} (shape : Shape .identifier parameter.name.toList) :
      '.' ∈ parameter.render.toList ↔ parameter.variadic = true := by
    constructor
    · intro member
      rcases mem_render shape _ member with part | ⟨variadic, _⟩
      · exact absurd part (by decide)
      · exact variadic
    · intro variadic
      unfold render
      rw [if_pos variadic]
      split <;> simp
  have variadic : parameter.variadic = parameter'.variadic :=
    Bool.eq_iff_iff.mpr ((dotted shape).symm.trans (same ▸ dotted shape'))
  have unlike {name : String} (shape : Shape .identifier name.toList) : "..." ≠ name ++ "..." := by
    intro same
    have texts := congrArg String.toList same
    exact shape.ne_nil (by simpa using texts)
  refine Prod.ext ?_ variadic
  unfold render at same
  rw [← variadic] at same
  split at same
  · split at same <;> split at same
    · simp_all [Macro.equivalent.declared]
    · exact absurd same (unlike shape')
    · exact absurd same.symm (unlike shape)
    · exact (String.append_left_inj _).mp same
  · exact same

theorem render_clear : ',' ∉ parameter.render.toList ∧ parameter.render.toList ≠ [] := by
  constructor
  · intro member
    rcases mem_render shape _ member with part | ⟨_, dot⟩
    · exact absurd part (by decide)
    · cases dot
  · unfold render
    split
    · split <;> simp
    · exact shape.ne_nil

end

theorem intercalate_inj {texts texts' : List (List Char)}
    (clear : ∀ text ∈ texts, ',' ∉ text ∧ text ≠ []) (clear' : ∀ text ∈ texts', ',' ∉ text ∧ text ≠
      [])
    (same : [','].intercalate texts = [','].intercalate texts') : texts = texts' := by
  have nil_iff {texts : List (List Char)} (clear : ∀ text ∈ texts, ',' ∉ text ∧ text ≠ []) :
      [','].intercalate texts = [] ↔ texts = [] := by
    cases texts with
    | nil => simp
    | cons first rest => cases rest <;> simp [(clear first List.mem_cons_self).2]
  by_cases empty : texts = []
  · rw [(nil_iff clear).mpr empty, eq_comm, nil_iff clear'] at same
    rw [empty, same]
  · have nonempty' : texts' ≠ [] := by rwa [Ne, ← nil_iff clear', ← same, nil_iff clear]
    rw [← List.splitOn_intercalate ',' (fun text member => (clear text member).1) empty, same,
      List.splitOn_intercalate ',' (fun text member => (clear' text member).1) nonempty']

theorem declared_of_intercalate
    (shapes : ∀ name ∈ parameters.map Parameter.name, Shape .identifier name.toList)
    (shapes' : ∀ name ∈ parameters'.map Parameter.name, Shape .identifier name.toList)
    (same : ",".intercalate (parameters.map render) = ",".intercalate (parameters'.map render)) :
    parameters.map Macro.equivalent.declared = parameters'.map Macro.equivalent.declared := by
  have texts := congrArg String.toList same
  rw [String.toList_intercalate, String.toList_intercalate] at texts
  have clear {parameters : List Parameter}
      (shapes : ∀ name ∈ parameters.map Parameter.name, Shape .identifier name.toList) :
      ∀ text ∈ (parameters.map render).map String.toList, ',' ∉ text ∧ text ≠ [] := by
    simpa using fun parameter member => render_clear (shapes _ (List.mem_map_of_mem member))
  have renders := List.map_injective_iff.mpr (fun _ _ => String.toList_inj.mp)
    (intercalate_inj (clear shapes) (clear shapes') texts)
  clear same texts
  induction parameters generalizing parameters' with
  | nil => rw [List.map_eq_nil_iff.mp renders.symm]
  | cons parameter parameters ih =>
    obtain ⟨parameter', rest, rfl, here, later⟩ := List.map_eq_cons_iff.mp renders.symm
    rw [List.map_cons, List.forall_mem_cons] at shapes shapes'
    rw [List.map_cons, List.map_cons, declared_of_render shapes.1 shapes'.1 here.symm,
      ih shapes.2 shapes'.2 later.symm]

theorem mem_intercalate_render
    (shapes : ∀ name ∈ parameters.map Parameter.name, Shape .identifier name.toList) :
    ∀ c ∈ (",".intercalate (parameters.map render)).toList,
      isIdentifierPart c = true ∨ c = '.' ∨ c = ',' := by
  have one {parameter : Parameter} (shape : Shape .identifier parameter.name.toList) :
      ∀ c ∈ parameter.render.toList, isIdentifierPart c = true ∨ c = '.' ∨ c = ',' :=
    fun c member => (mem_render shape c member).imp_right fun dot => .inl dot.2
  induction parameters with
  | nil => simp
  | cons parameter rest ih =>
    obtain ⟨here, later⟩ := List.forall_mem_cons.mp shapes
    cases rest with
    | nil => simpa using one here
    | cons next rest =>
      rw [List.map_cons, List.map_cons, String.intercalate_cons_cons, String.toList_append,
        String.toList_append]
      exact List.forall_mem_append.mpr ⟨List.forall_mem_append.mpr ⟨one here, by simp⟩, ih later⟩

end Parameter

namespace Macro

variable {definition definition' : Macro}

/-- What stands behind the name in a signature. -/
def behind (definition : Macro) : List Char :=
  if definition.isFunctionLike then
    '(' :: ((",".intercalate (definition.parameters.map Parameter.render)).toList ++ [')'])
  else []

theorem toList_signature (definition : Macro) :
    definition.signature.toList = definition.name.toList ++ definition.behind := by
  unfold signature behind
  split <;> simp

variable (legible : definition.Legible)

include legible

theorem Legible.behind_eq : definition.behind = [] ∨
    ∃ inner, definition.behind = '(' :: (inner ++ [')']) ∧ ')' ∉ inner ∧ '=' ∉ inner := by
  unfold behind
  split
  · refine .inr ⟨_, rfl, ?_⟩
    constructor <;>
    · intro member
      rcases Parameter.mem_intercalate_render legible.parameters _ member with part | dot | comma
      · exact absurd part (by decide)
      · cases dot
      · cases comma
  · exact .inl rfl

theorem Legible.equals_not_mem : '=' ∉ definition.signature.toList := by
  have name : '=' ∉ definition.name.toList := fun member =>
    absurd (legible.name.parts _ member) (by decide)
  rw [toList_signature]
  rcases legible.behind_eq with none | ⟨inner, some, _, noEquals⟩
  · simp [none, name]
  · simp [some, name, noEquals]

theorem Legible.signature_iff (legible' : definition'.Legible) :
    definition.signature = definition'.signature ↔ definition.name = definition'.name ∧
      definition.isFunctionLike = definition'.isFunctionLike ∧
      definition.parameters.map equivalent.declared =
        definition'.parameters.map equivalent.declared := by
  constructor
  · intro same
    have ends {definition : Macro} : definition.behind.head?.any isIdentifierPart = false := by
      unfold behind
      split <;> rfl
    have texts := congrArg String.toList same
    rw [toList_signature, toList_signature] at texts
    obtain ⟨name, behind⟩ :=
      append_inj_of_parts legible.name.parts legible'.name.parts ends ends texts
    refine ⟨String.toList_inj.mp name, ?_⟩
    unfold Macro.behind at behind
    split at behind <;> split at behind
    next here here' =>
      refine ⟨here.trans here'.symm, ?_⟩
      have lists := List.append_cancel_right (List.cons.inj behind).2
      exact Parameter.declared_of_intercalate legible.parameters legible'.parameters
        (String.toList_inj.mp lists)
    · cases behind
    · cases behind
    next bare bare' =>
      simp only [Bool.not_eq_true] at bare bare'
      rw [bare, bare', legible.bare bare, legible'.bare bare']
      exact ⟨rfl, rfl⟩
  · rintro ⟨name, flavor, declared⟩
    have renders (parameters : List Parameter) : parameters.map Parameter.render =
        (parameters.map equivalent.declared).map fun look =>
          Parameter.render ⟨look.1, .unknown, look.2⟩ := by
      rw [List.map_map]
      rfl
    unfold signature
    rw [name, flavor, renders, renders, declared]

/-- **Descriptions are the same** exactly when the signatures are and the bodies are spelled the
same. -/
theorem Legible.describe_iff (legible' : definition'.Legible)
    (plain : definition.isBuiltin = false) (plain' : definition'.isBuiltin = false) :
    definition.describe = definition'.describe ↔ definition.signature = definition'.signature ∧
      Token.spell definition.body = Token.spell definition'.body := by
  have chars {definition : Macro} (plain : definition.isBuiltin = false) :
      definition.describe.toList =
        definition.signature.toList ++ '=' :: (Token.spell definition.body).toList := by
    simp [Macro.describe, plain]
  have parts {definition : Macro} (legible : definition.Legible) :
      ∀ c ∈ definition.signature.toList, (c != '=') = true := fun c member =>
    bne_iff_ne.mpr (ne_of_mem_of_not_mem member legible.equals_not_mem)
  rw [← String.toList_inj, chars plain, chars plain', ← String.toList_inj, ← String.toList_inj]
  constructor
  · intro same
    obtain ⟨signatures, bodies⟩ :=
      append_inj_of_parts (parts legible) (parts legible') (by simp) (by simp) same
    exact ⟨signatures, (List.cons.inj bodies).2⟩
  · rintro ⟨signatures, bodies⟩
    rw [signatures, bodies]

end Macro

/-- A macro that a definition line of some source gives. -/
def Macro.Defined (definition : Macro) : Prop :=
  ∃ (run : Run) (entry : Macro.Entry), run.Reached ∧ entry ∈ run.context.table.entries ∧
    entry.definition = definition ∧ definition.isBuiltin = false

/-- **Macros are told apart by their descriptions.** Two macros that definition lines give are
equivalent and of one name exactly when they have the same description. Equivalent macros have the
same ops, and bodies of the same kinds. -/
theorem equivalent_iff_describe {left right : Macro} (defined : left.Defined)
    (defined' : right.Defined) :
    (left.equivalent right = true ∧ left.name = right.name ↔ left.describe = right.describe) ∧
      (left.equivalent right = true →
        left.ops = right.ops ∧ left.body.map (·.kind) = right.body.map (·.kind)) := by
  obtain ⟨run, entry, reached, member, rfl, plain⟩ := defined
  obtain ⟨run', entry', reached', member', rfl, plain'⟩ := defined'
  have legible := reached.legible member plain
  have legible' := reached'.legible member' plain'
  generalize entry.definition = left at *
  generalize entry'.definition = right at *
  have flavors : left.flavor = right.flavor ↔ left.isFunctionLike = right.isFunctionLike := by
    unfold Macro.isFunctionLike Macro.isBuiltin at *
    cases here : left.flavor <;> cases there : right.flavor <;> simp_all
  have within : ∀ token ∈ left.body, token.endsLine = false := fun token member =>
    (legible.within token member).1
  have within' : ∀ token ∈ right.body, token.endsLine = false := fun token member =>
    (legible'.within token member).1
  have read := legible.body.sameBody legible'.body within within'
  have written := @Token.spell_of_sameBody _ _ within within'
  have equivalent : left.equivalent right = true ↔ left.isFunctionLike = right.isFunctionLike ∧
      left.parameters.map Macro.equivalent.declared =
        right.parameters.map Macro.equivalent.declared ∧
      Token.spell left.body = Token.spell right.body := by
    unfold Macro.equivalent
    rw [Bool.and_eq_true, Bool.and_eq_true, beq_iff_eq, beq_iff_eq, flavors, and_assoc]
    exact and_congr_right' (and_congr_right' ⟨written, fun spelled => (read spelled).1⟩)
  rw [legible.describe_iff legible' plain plain', legible.signature_iff legible', equivalent]
  refine ⟨⟨?_, ?_⟩, ?_⟩
  · rintro ⟨⟨flavor, declared, spelled⟩, name⟩
    exact ⟨⟨name, flavor, declared⟩, spelled⟩
  · rintro ⟨⟨name, flavor, declared⟩, spelled⟩
    exact ⟨⟨flavor, declared, spelled⟩, name⟩
  rintro ⟨flavor, declared, spelled⟩
  have bares := (read spelled).2
  have names (parameters : List Parameter) : parameters.map (·.name) =
      (parameters.map Macro.equivalent.declared).map Prod.fst := by
    rw [List.map_map]
    rfl
  have kinds (body : List Token) : body.map (·.kind) = (body.map Token.bare).map (·.kind) := by
    rw [List.map_map]
    rfl
  have compiled := fun body => (Op.compile_bare
    (left.parameters.map (·.name)) left.isFunctionLike body).1
  constructor
  · rw [legible.ops, legible'.ops, ← flavor, names right.parameters, ← declared, ← names, ←
      compiled,
      ← bares, compiled]
  · rw [kinds, kinds right.body, bares]

/-- A macro with an ellipsis and an unfinished literal that two sources write in their own ways. -/
theorem equivalent_iff_describe_unfinished : ∃ left right : Macro, left.Defined ∧ right.Defined ∧
    left ≠ right ∧ left.describe = "F(x,y...)=x##y #x 'un" ∧ left.equivalent right = true ∧
      left.ops = right.ops ∧ left.body.map (·.kind) = right.body.map (·.kind) := by
  let text := "F(x,y...)=x##y #x 'un"
  have defined (source : String) (column : Int)
      (passes : ((Run.reading? 60 1 source).any fun run =>
        run.context.table.entries.any fun entry =>
        !entry.definition.isBuiltin && entry.definition.describe == text &&
          entry.definition.location.column == column) = true) :
      ∃ definition : Macro, definition.Defined ∧ definition.describe = text ∧
        definition.location.column = column := by
    obtain ⟨run, reading, passes⟩ := (Option.any_eq_true _ _).mp passes
    obtain ⟨entry, member, passes⟩ := List.any_eq_true.mp passes
    simp only [Bool.and_eq_true, Bool.not_eq_true', beq_iff_eq] at passes
    obtain ⟨⟨plain, described⟩, column⟩ := passes
    exact ⟨_, ⟨run, entry, Run.reached_of_reading? reading, member, rfl, plain⟩, described, column⟩
  obtain ⟨left, given, described, first⟩ :=
    defined "#define F(x,y...) x##y #x 'un" 9 (by decide +kernel)
  obtain ⟨right, given', described', second⟩ :=
    defined "# define F( x, y ... )/**/x##y  #x\t'un" 10 (by decide +kernel)
  obtain ⟨alike, same⟩ := equivalent_iff_describe given given'
  have equivalent := (alike.mpr (described.trans described'.symm)).1
  refine ⟨left, right, given, given', ?_, described, equivalent, same equivalent⟩
  rintro rfl
  rw [first] at second
  cases second

end Preproc

import Preproc.Proofs.Macro.Ready

/-! # Bodies as templates

A body without pastes is a template: each parameter in it stands for an argument, a `#` with the
parameter after it for the string literal of an argument, and every other token for itself. The ops
of such a body, one after the other, give what the template stands for.

Main statement: `Macro.flatMap_ops_of_build`.
-/

namespace Preproc

/-- The string literal of tokens in the place of a `#`. -/
def Token.stringizing (mark : Token) (tokens : List Token) : Token :=
  { kind := .string, lexeme := Token.stringize tokens, location := mark.location,
    leadingSpace := mark.leadingSpace }

namespace Op

/-- What a template stands for, given the number of each parameter and the argument of each
number. Arguments are put in as they are: their tokens are not parameters again. -/
def substitute (parameter? : Token → Option Nat) (argument : Nat → List Token) :
    List Token → List Token
  | [] => []
  | token :: rest =>
    match parameter? token with
    | some number => argument number ++ substitute parameter? argument rest
    | none =>
      if token.isPunctuator "#" then
        match rest with
        | [] => [token]
        | name :: rest =>
          match parameter? name with
          | some number =>
            token.stringizing (argument number) :: substitute parameter? argument rest
          | none => token :: substitute parameter? argument (name :: rest)
      else token :: substitute parameter? argument rest

def tokensFor (body : List Token) (argument : Nat → List Token) : Op → List Token
  | span first last => Index.slice body first last
  | expanded _ number | unexpanded _ number => argument number.toNat
  | stringized index number =>
    (Index.get? body index).toList.map (·.stringizing (argument number.toNat))
  | paste _ _ | line _ _ | file _ _ => []

variable {parameter? : Token → Option Nat} {argument : Nat → List Token} {body : List Token}

section Substitute

variable {token name : Token} {number : Nat}

theorem substitute_parameter (rest : List Token) (named : parameter? token = some number) :
    substitute parameter? argument (token :: rest) =
      argument number ++ substitute parameter? argument rest := by
  rw [substitute.eq_def]
  simp [named]

theorem substitute_stringized (rest : List Token) (unnamed : parameter? token = none)
    (isHash : token.isPunctuator "#" = true) (named : parameter? name = some number) :
    substitute parameter? argument (token :: name :: rest) =
      token.stringizing (argument number) :: substitute parameter? argument rest := by
  rw [substitute.eq_def]
  simp [unnamed, isHash, named]

theorem substitute_other (rest : List Token) (unnamed : parameter? token = none)
    (other : token.isPunctuator "#" = true → ∀ next ∈ rest.head?, parameter? next = none) :
    substitute parameter? argument (token :: rest) =
      token :: substitute parameter? argument rest := by
  rw [substitute.eq_def]
  by_cases isHash : token.isPunctuator "#" = true
  · cases rest with
    | nil => simp [unnamed, isHash, substitute]
    | cons next rest => simp [unnamed, isHash, other isHash next rfl]
  · simp [unnamed, isHash]

/-- What a template stands for consists of tokens of the body and of arguments, and of string
literals. -/
theorem forall_mem_substitute {property : Token → Prop} (body : List Token)
    (own : ∀ token ∈ body, property token)
    (given : ∀ number, ∀ token ∈ argument number, property token)
    (literal : ∀ mark tokens, property (Token.stringizing mark tokens)) :
    ∀ token ∈ substitute parameter? argument body, property token := by
  fun_induction substitute parameter? argument body with
  | case1 => exact List.forall_mem_nil _
  | case2 token rest number named ih =>
    exact List.forall_mem_append.mpr ⟨given number, ih (List.forall_mem_cons.mp own).2⟩
  | case3 token unnamed isHash => exact own
  | case4 token unnamed isHash name rest number named ih =>
    have own := (List.forall_mem_cons.mp (List.forall_mem_cons.mp own).2).2
    exact List.forall_mem_cons.mpr ⟨literal _ _, ih own⟩
  | case5 _ _ _ _ _ _ ih | case6 _ _ _ _ ih =>
    obtain ⟨here, own⟩ := List.forall_mem_cons.mp own
    exact List.forall_mem_cons.mpr ⟨here, ih own⟩

end Substitute

theorem flatMap_finish (before : Before) (first last : Nat) :
    (finish before first last).ops.flatMap (tokensFor body argument) =
      (body.take last).drop first := by
  unfold finish
  split
  next both => simp [both.1]
  next => simp [tokensFor]

theorem flatMap_after (compiled : Compiled) (first last : Nat) (op : Op) :
    (compiled.after first last op).ops.flatMap (tokensFor body argument) =
      (body.take last).drop first ++ tokensFor body argument op ++
        compiled.ops.flatMap (tokensFor body argument) := by
  unfold Compiled.after
  split
  next same => simp [same]
  next => simp [tokensFor]

theorem drop_take_succ {rest : List Token} {first index : Nat} {token : Token}
    (ordered : first ≤ index) (here : body.drop index = token :: rest) :
    (body.take (index + 1)).drop first = (body.take index).drop first ++ [token] := by
  obtain ⟨found, _, short⟩ := drop_succ_of_drop_eq_cons here
  rw [List.take_add_one, found]
  exact List.drop_append_of_le_length (by simp; omega)

/-- The ops for the rest of a body stand for the span before it and for what the rest stands for.
The induction follows how the rest is compiled. -/
theorem flatMap_compileFrom (before : Before) (first index : Nat) (rest : List Token)
    (ordered : first ≤ index) (here : body.drop index = rest)
    (plain : ∀ token ∈ rest, token.isPasteMark = false) :
    (compileFrom parameter? true before first index rest).ops.flatMap (tokensFor body argument) =
      (body.take index).drop first ++ substitute parameter? argument rest := by
  have unmarked {token : Token} {rest : List Token}
      (plain : ∀ other ∈ token :: rest, other.isPasteMark = false)
      (mark : token.isPunctuator "##" = true) : False := by
    have other := plain token (List.mem_cons_self ..)
    rw [Token.isPasteMark, mark] at other
    cases other
  fun_induction compileFrom parameter? true before first index rest with
  | case1 before first index =>
    rw [flatMap_finish, substitute, List.append_nil]
  | case2 before first index token rest number named ih =>
    obtain ⟨_, next, _⟩ := drop_succ_of_drop_eq_cons here
    have later := ih (Nat.le_refl _) next (List.forall_mem_cons.mp plain).2
    rw [flatMap_after, later, substitute_parameter rest named]
    simp [tokensFor]
  | case3 before first index token unnamed isHash =>
    rw [Compiled.complain, flatMap_finish, drop_take_succ ordered here,
      substitute_other [] unnamed (by simp), substitute]
  | case4 before first index token unnamed isHash name rest unnamedNext ih =>
    obtain ⟨_, next, _⟩ := drop_succ_of_drop_eq_cons here
    have later := ih (Nat.le_succ_of_le ordered) next (List.forall_mem_cons.mp plain).2
    rw [Compiled.complain, later, drop_take_succ ordered here,
      substitute_other (name :: rest) unnamed (by simpa using fun _ => unnamedNext)]
    simp
  | case5 before first index token unnamed isHash name rest number named ih =>
    obtain ⟨found, next, _⟩ := drop_succ_of_drop_eq_cons here
    obtain ⟨_, next, _⟩ := drop_succ_of_drop_eq_cons next
    have plain := (List.forall_mem_cons.mp (List.forall_mem_cons.mp plain).2).2
    have later := ih (Nat.le_refl _) next plain
    rw [flatMap_after, later, substitute_stringized rest unnamed isHash named]
    simp [tokensFor, found]
  | case6 _ _ _ _ _ _ _ isMark | case7 _ _ _ _ _ _ _ isMark | case8 _ _ _ _ _ _ _ isMark
  | case9 _ _ _ _ _ _ _ isMark =>
    exact (unmarked plain isMark).elim
  | case10 before first index token rest unnamed notHash notMark ih =>
    obtain ⟨_, next, _⟩ := drop_succ_of_drop_eq_cons here
    have later := ih (Nat.le_succ_of_le ordered) next (List.forall_mem_cons.mp plain).2
    rw [later, drop_take_succ ordered here,
      substitute_other rest unnamed fun isHash => absurd isHash notHash]
    simp

theorem isPaste_compileFrom (functionLike : Bool)
    (plain : ∀ token ∈ body, token.isPasteMark = false) :
    ∀ op ∈ (compileFrom parameter? functionLike .nothing 0 0 body).ops, op.isPaste = false := by
  intro op member
  obtain ⟨start, stop, covers⟩ := (tiles_compileFrom functionLike .nothing 0 0 body rfl
    (.empty (Nat.zero_le _))).placed op member
  cases op with
  | paste index second =>
    obtain ⟨_, _, mark, found, marks⟩ := covers
    rw [plain mark (List.mem_of_getElem? found)] at marks
    cases marks
  | _ => rfl

theorem shieldOperands_of_plain {ops : List Op} (plain : ∀ op ∈ ops, op.isPaste = false) :
    shieldOperands false ops = ops := by
  induction ops with
  | nil => rfl
  | cons op rest ih =>
    obtain ⟨here, later⟩ := List.forall_mem_cons.mp plain
    have begins : beginsWithPaste rest = false := by
      unfold beginsWithPaste
      split
      next index second next rest =>
        exact absurd (later _ (List.mem_cons_self ..)) (by simp [isPaste])
      next => rfl
    rw [shieldOperands, here, begins, ih later]
    rfl

end Op

namespace Macro

variable {nameToken : Token} {parameters : List Parameter} {body : List Token}
  {endLocation : Location} {definition : Macro}

def parameterNumber (definition : Macro) : Token → Option Nat :=
  firstIndex (definition.parameters.map (·.name))

theorem ops_of_build_plain
    (built : (build nameToken (some parameters) body endLocation).1 = .ok definition)
    (plain : ∀ token ∈ body, token.isPasteMark = false) :
    definition.body = body ∧ definition.ops =
      (Op.compileFrom definition.parameterNumber true .nothing 0 0 body).ops := by
  obtain ⟨sameBody, sameOps⟩ := ops_of_build built
  obtain ⟨sameParameters, _⟩ := parameters_of_build built
  refine ⟨sameBody, ?_⟩
  rw [sameOps, parameterNumber, sameParameters]
  exact Op.shieldOperands_of_plain (Op.isPaste_compileFrom true plain)

/-- **Ops are a template.** The ops of a function-like macro without pastes stand for its body with
arguments in the place of parameters. -/
theorem flatMap_ops_of_build
    (built : (build nameToken (some parameters) body endLocation).1 = .ok definition)
    (plain : ∀ token ∈ body, token.isPasteMark = false) (argument : Nat → List Token) :
    definition.ops.flatMap (Op.tokensFor definition.body argument) =
      Op.substitute definition.parameterNumber argument definition.body := by
  obtain ⟨rfl, sameOps⟩ := ops_of_build_plain built plain
  rw [sameOps]
  exact Op.flatMap_compileFrom .nothing 0 0 definition.body (Nat.le_refl 0) rfl plain

end Macro

end Preproc

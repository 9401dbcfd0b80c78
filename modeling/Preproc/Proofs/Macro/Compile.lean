import Preproc.Macro.Op

/-! # What compiled bodies look like

Ops are read from left to right, and of what has been read only the last op matters: a paste needs
an operand before it. Compiling gives ops that can be read this way whatever the body, so the first
op is no paste and no two pastes stand side by side. The last op can be a paste. It is one exactly
when the body ends in two `##` or more with something before them: only a single `##` at the end is
left out.

Main statements: `through?_compile` and `placed_compile`.
-/

namespace Preproc

/-- Whether a token is the punctuator that pastes its neighbours. -/
def Token.isPasteMark (token : Token) : Bool :=
  token.isPunctuator "##"

namespace Op

def endsInPastes (body : List Token) : Bool :=
  match body.reverse with
  | last :: second :: rest => last.isPasteMark && second.isPasteMark && rest.any (!·.isPasteMark)
  | _ => false

variable {op : Op} {token : Token} {first : Nat} {index : Nat} {left right : Op} {ops : List Op}

namespace Before

/-- What comes before the next op once an op has been read. A paste needs an operand before it. -/
def next? (before : Before) (op : Op) : Option Before :=
  if op.isPaste then if before = .operand then some .paste else none else some .operand

/-- What comes before the next op once ops have been read. -/
def through? : Before → List Op → Option Before
  | before, [] => some before
  | before, op :: ops => (before.next? op).bind (·.through? ops)

/-- What comes before the next token of a body: an open span counts as an operand. -/
def withSpan (before : Before) (first index : Nat) : Before :=
  if first = index then before else .operand

/-- What comes before the next token once a token has been read that is not the last. -/
def nextToken (before : Before) (token : Token) : Before :=
  if token.isPasteMark then if before = .operand then .paste else before else .operand

/-- What the last op of a body is. A paste at its very end is left out if an operand is before
it. -/
def atEnd : Before → List Token → Before
  | before, [] => if before = .paste then .paste else .operand
  | before, token :: rest =>
    if token.isPasteMark && rest.isEmpty && before = .operand then .operand
    else atEnd (before.nextToken token) rest

variable {before : Before}

theorem next?_of_isPaste (paste : op.isPaste = true) :
    before.next? op = if before = .operand then some .paste else none := by
  simp [next?, paste]

theorem next?_of_not_isPaste (operand : op.isPaste = false) : before.next? op = some .operand := by
  simp [next?, operand]

theorem next?_span (before : Before) (first last : Int) :
    before.next? (span first last) = some .operand :=
  next?_of_not_isPaste rfl

theorem atEnd_cons_of_not_mark {rest : List Token} (plain : token.isPasteMark = false) :
    before.atEnd (token :: rest) = Before.operand.atEnd rest := by
  simp [atEnd, nextToken, plain]

theorem withSpan_self (before : Before) (index : Nat) : before.withSpan index index = before := by
  simp [withSpan]

theorem withSpan_of_lt (opened : first < index) : before.withSpan first index = .operand := by
  simp [withSpan, Nat.ne_of_lt opened]

theorem atEnd_concat (before : Before) (front : List Token) (last : Token) :
    before.atEnd (front ++ [last]) =
      if last.isPasteMark ∧ front.foldl nextToken before = .paste then .paste else .operand := by
  induction front generalizing before with
  | nil =>
    cases mark : last.isPasteMark <;> cases before <;> simp [atEnd, nextToken, mark]
  | cons token front ih =>
    have step : before.atEnd (token :: (front ++ [last])) =
        (before.nextToken token).atEnd (front ++ [last]) := by simp [atEnd]
    exact step.trans (ih (before.nextToken token))

theorem foldl_nextToken_eq_nothing (tokens : List Token) :
    tokens.foldl nextToken .nothing = .nothing ↔ tokens.all (·.isPasteMark) = true := by
  have operand_ne (rest : List Token) (before : Before) (present : before ≠ .nothing) :
      rest.foldl nextToken before ≠ .nothing := by
    induction rest generalizing before with
    | nil => exact present
    | cons token rest ih =>
      refine ih _ ?_
      unfold nextToken
      cases before <;> split <;> simp_all
  induction tokens with
  | nil => simp
  | cons token tokens ih =>
    cases mark : token.isPasteMark with
    | true => simpa [nextToken, mark] using ih
    | false => simpa [nextToken, mark] using operand_ne tokens .operand (by decide)

theorem atEnd_nothing (body : List Token) :
    Before.nothing.atEnd body = if endsInPastes body then .paste else .operand := by
  unfold endsInPastes
  split
  next last second rest reversed =>
    have split : body = (rest.reverse ++ [second]) ++ [last] := by
      simpa using congrArg List.reverse reversed
    have before : (rest.reverse ++ [second]).foldl nextToken .nothing = .paste ↔
        second.isPasteMark ∧ rest.any (!·.isPasteMark) := by
      have nothing := foldl_nextToken_eq_nothing rest.reverse
      simp only [List.foldl_append, List.foldl_cons, List.foldl_nil]
      generalize rest.reverse.foldl nextToken .nothing = state at nothing ⊢
      cases mark : second.isPasteMark <;> cases state <;> simp_all [nextToken]
    rw [split, atEnd_concat]
    simp only [before, Bool.and_eq_true, and_assoc]
  next short =>
    match body, short with
    | [], _ => rfl
    | [token], _ => cases mark : token.isPasteMark <;> simp [atEnd, nextToken, mark]
    | first :: second :: rest, short =>
      exfalso
      have long : 2 ≤ (first :: second :: rest).reverse.length := by simp
      match reversed : (first :: second :: rest).reverse, long with
      | last :: before :: front, _ => exact short last before front reversed

end Before

open Before

theorem isPasteMark_of_isPunctuator {text : String}
    (same : token.isPunctuator text = true) (other : text ≠ "##") :
    token.isPasteMark = false := by
  simp only [Token.isPunctuator, Bool.and_eq_true, beq_iff_eq] at same
  simp [Token.isPasteMark, Token.isPunctuator, same.2, other]

theorem through?_finish (before : Before) (first last : Nat) :
    before.through? (finish before first last).ops =
      some ((before.withSpan first last).atEnd []) := by
  unfold finish withSpan
  by_cases empty : first = last
  · cases before <;> simp [empty, through?, next?, isPaste, atEnd]
  · simp [empty, through?, next?, isPaste, atEnd]

theorem through?_after_operand (before : Before) (compiled : Compiled) (first last : Nat)
    (operand : op.isPaste = false) :
    before.through? (compiled.after first last op).ops = Before.operand.through? compiled.ops := by
  unfold Compiled.after
  by_cases empty : first = last
  · simp [empty, through?, next?_of_not_isPaste operand]
  · simp [empty, through?, next?_of_not_isPaste operand, next?_span]

theorem through?_after_paste (before : Before) (compiled : Compiled) (first last : Nat)
    (paste : op.isPaste = true) (ready : before.withSpan first last = .operand) :
    before.through? (compiled.after first last op).ops = Before.paste.through? compiled.ops := by
  unfold Compiled.after
  unfold withSpan at ready
  by_cases empty : first = last
  · simp_all [through?, next?_of_isPaste paste]
  · simp [empty, through?, next?_of_isPaste paste, next?_span]

section Compiling

variable (parameter? : Token → Option Nat)
  (identifiers : ∀ token number, parameter? token = some number → token.isIdentifier = true)

include identifiers

theorem not_mark_of_parameter {number : Nat}
    (named : parameter? token = some number) : token.isPasteMark = false := by
  simp_all [Token.isIdentifier, Token.isPasteMark, Token.isPunctuator]

theorem through?_compileFrom (functionLike : Bool) (before : Before) (first index : Nat)
    (rest : List Token) (ordered : first ≤ index) :
    before.through? (compileFrom parameter? functionLike before first index rest).ops =
      some ((before.withSpan first index).atEnd rest) := by
  fun_induction compileFrom parameter? functionLike before first index rest with
  | case1 before first index => exact through?_finish before first index
  | case2 before first index token rest parameter named ih =>
    rw [through?_after_operand _ _ _ _ rfl, ih (Nat.le_refl _), withSpan_self,
      atEnd_cons_of_not_mark (not_mark_of_parameter parameter? identifiers named)]
  | case3 before first index token _ hash =>
    have plain : token.isPasteMark = false :=
      isPasteMark_of_isPunctuator (Bool.and_eq_true _ _ ▸ hash).2 (by decide)
    have read := through?_finish before first (index + 1)
    rw [withSpan_of_lt (Nat.lt_succ_of_le ordered)] at read
    rw [atEnd_cons_of_not_mark plain]
    exact read
  | case4 before first index token _ hash name rest _ ih =>
    have plain : token.isPasteMark = false :=
      isPasteMark_of_isPunctuator (Bool.and_eq_true _ _ ▸ hash).2 (by decide)
    have read := ih (Nat.le_succ_of_le ordered)
    rw [withSpan_of_lt (Nat.lt_succ_of_le ordered)] at read
    rw [atEnd_cons_of_not_mark plain]
    exact read
  | case5 before first index token _ hash name rest parameter named ih =>
    have plain : token.isPasteMark = false :=
      isPasteMark_of_isPunctuator (Bool.and_eq_true _ _ ▸ hash).2 (by decide)
    rw [through?_after_operand _ _ _ _ rfl, ih (Nat.le_refl _), withSpan_self,
      atEnd_cons_of_not_mark plain,
      atEnd_cons_of_not_mark (not_mark_of_parameter parameter? identifiers named)]
  | case6 before first index token rest _ _ mark start ih =>
    obtain ⟨rfl, rfl⟩ := start
    have read := ih (Nat.le_refl _)
    rw [withSpan_self] at read ⊢
    have step : Before.nothing.atEnd (token :: rest) = Before.nothing.atEnd rest := by
      simp [atEnd, nextToken, Token.isPasteMark, mark]
    rw [step]
    exact read
  | case7 before first index token rest _ _ mark notStart last =>
    obtain rfl := List.isEmpty_iff.mp last
    have read := through?_finish before first index
    have step : (before.withSpan first index).atEnd [token] =
        (before.withSpan first index).atEnd [] := by
      simp only [atEnd, nextToken, Token.isPasteMark, mark]
      cases before <;> split <;> simp_all
    rw [step]
    exact read
  | case8 before first index token rest _ _ mark _ more repeated ih =>
    obtain ⟨rfl, rfl⟩ := repeated
    have read := ih (Nat.le_refl _)
    rw [withSpan_self] at read ⊢
    have step : Before.paste.atEnd (token :: rest) = Before.paste.atEnd rest := by
      simp [atEnd, nextToken, Token.isPasteMark, mark]
    rw [step]
    exact read
  | case9 before first index token rest _ _ mark notStart more notRepeated ih =>
    have ready : before.withSpan first index = .operand := by
      unfold withSpan
      cases before <;> split <;> simp_all
    have step : Before.operand.atEnd (token :: rest) = Before.paste.atEnd rest := by
      simp [atEnd, nextToken, Token.isPasteMark, mark, more]
    rw [through?_after_paste _ _ _ _ rfl ready, ih (Nat.le_refl _), withSpan_self, ready, step]
  | case10 before first index token rest _ _ plain ih =>
    have read := ih (Nat.le_succ_of_le ordered)
    rw [withSpan_of_lt (Nat.lt_succ_of_le ordered)] at read
    rw [atEnd_cons_of_not_mark (by simpa [Token.isPasteMark] using plain)]
    exact read

end Compiling

/-- Whether the op is a parameter whose argument is expanded first. -/
def isExpanded : Op → Bool
  | expanded _ _ => true
  | _ => false

@[simp]
theorem isPaste_shielded (op : Op) : op.shielded.isPaste = op.isPaste := by
  cases op <;> rfl

@[simp]
theorem isExpanded_shielded (op : Op) : op.shielded.isExpanded = false := by
  cases op <;> rfl

theorem isPaste_eq_false {rest : List Op}
    (notLast : ∀ index second, op = paste index second → rest = [] → False)
    (notBefore : ∀ index second next more, op = paste index second → rest = next :: more → False) :
    op.isPaste = false := by
  cases op with
  | paste index second =>
    cases rest with
    | nil => exact (notLast index second rfl rfl).elim
    | cons next more => exact (notBefore index second next more rfl rfl).elim
  | _ => rfl

theorem through?_shieldOperands (before : Before) (afterPaste : Bool) (ops : List Op) :
    before.through? (shieldOperands afterPaste ops) = before.through? ops := by
  induction ops generalizing before afterPaste with
  | nil => rfl
  | cons op ops ih =>
    have same : ∀ shield : Bool,
        before.next? (if shield then op.shielded else op) = before.next? op := by
      intro shield
      cases shield <;> simp [next?]
    simp only [shieldOperands, through?, same, ih]

theorem not_isExpanded_after_paste (afterPaste : Bool)
    (neighbours : [left, right] <:+: shieldOperands afterPaste ops)
    (paste : left.isPaste = true) : right.isExpanded = false := by
  induction ops generalizing afterPaste with
  | nil => simp [shieldOperands] at neighbours
  | cons op ops ih =>
    rw [shieldOperands, List.infix_cons_iff] at neighbours
    obtain first | later := neighbours
    · rw [List.cons_prefix_cons] at first
      obtain ⟨rfl, first⟩ := first
      have opPaste : op.isPaste = true := by
        split at paste <;> simpa using paste
      cases ops with
      | nil => simp [shieldOperands] at first
      | cons second ops =>
        simp only [shieldOperands, opPaste, Bool.true_or, ↓reduceIte,
          List.cons_prefix_cons] at first
        rw [first.1]
        exact isExpanded_shielded second
    · exact ih op.isPaste later

theorem not_isExpanded_before_paste {next : Op} (afterPaste : Bool)
    (neighbours : [left, right, next] <:+: shieldOperands afterPaste ops)
    (paste : right.isPaste = true) : left.isExpanded = false := by
  induction ops generalizing afterPaste with
  | nil => simp [shieldOperands] at neighbours
  | cons op ops ih =>
    rw [shieldOperands, List.infix_cons_iff] at neighbours
    obtain first | later := neighbours
    · rw [List.cons_prefix_cons] at first
      obtain ⟨rfl, first⟩ := first
      match ops, first with
      | [_], first => simp [shieldOperands] at first
      | second :: third :: ops, first =>
        have secondPaste : second.isPaste = true := by
          rw [shieldOperands, List.cons_prefix_cons] at first
          rw [first.1] at paste
          split at paste <;> simpa using paste
        have begins : beginsWithPaste (second :: third :: ops) = true := by
          cases second <;> simp_all [isPaste, beginsWithPaste]
        simp [begins]
    · exact ih op.isPaste later

/-- Whether an op covers a body from `start` up to, and without, `stop`: there is no parameter in a
span, and every other op stands for the tokens that it covers. -/
def Covers (parameter? : Token → Option Nat) (body : List Token) (start stop : Nat) : Op → Prop
  | span first last =>
    first = start ∧ last = stop ∧ start ≤ stop ∧ stop ≤ body.length ∧
      ∀ place, start ≤ place → place < stop → body[place]?.bind parameter? = none
  | expanded index parameter | unexpanded index parameter =>
    index = start ∧ stop = start + 1 ∧
      ∃ number : Nat, parameter = number ∧ body[start]?.bind parameter? = some number
  | stringized index parameter =>
    index = start ∧ stop = start + 2 ∧ (∃ mark ∈ body[start]?, mark.isPunctuator "#" = true) ∧
      ∃ number : Nat, parameter = number ∧ body[start + 1]?.bind parameter? = some number
  | paste index _ =>
    index = start ∧ stop = start + 1 ∧ ∃ mark ∈ body[start]?, mark.isPasteMark = true
  | line _ _ | file _ _ => False

/-- Ops that cover a body from an index on, one after the other. What is left out before an op and
at the end are pastes. -/
inductive Tiles (parameter? : Token → Option Nat) (body : List Token) : Nat → List Op → Prop
  | done {first : Nat} (past : body.length ≤ first) : Tiles parameter? body first []
  | left {first : Nat} {ops : List Op} {mark : Token} (here : body[first]? = some mark)
      (pastes : mark.isPasteMark = true) (rest : Tiles parameter? body (first + 1) ops) :
      Tiles parameter? body first ops
  | op {first stop : Nat} {op : Op} {ops : List Op}
      (covers : op.Covers parameter? body first stop) (rest : Tiles parameter? body stop ops) :
      Tiles parameter? body first (op :: ops)

section Tiling

variable {parameter? : Token → Option Nat} {body : List Token}

theorem covers_shielded {start stop : Nat} (covers : op.Covers parameter? body start stop) :
    op.shielded.Covers parameter? body start stop := by
  cases op <;> exact covers

theorem Tiles.shieldOperands (tiles : Tiles parameter? body first ops) (afterPaste : Bool) :
    Tiles parameter? body first (shieldOperands afterPaste ops) := by
  induction tiles generalizing afterPaste with
  | done past => exact .done past
  | left here pastes _ ih => exact .left here pastes (ih afterPaste)
  | @op first stop op ops covers _ ih =>
    refine .op ?_ (ih op.isPaste)
    split
    · exact covers_shielded covers
    · exact covers

theorem drop_succ_of_drop_eq_cons {rest : List Token} (here : body.drop index = token :: rest) :
    body[index]? = some token ∧ body.drop (index + 1) = rest ∧ index < body.length := by
  have found : body[index]? = some token := by rw [← List.head?_drop, here]; rfl
  refine ⟨found, ?_, (List.getElem?_eq_some_iff.mp found).1⟩
  rw [← List.tail_drop, here]
  rfl

def Spans (parameter? : Token → Option Nat) (body : List Token) (first index : Nat) : Prop :=
  (span first index).Covers parameter? body first index

theorem Spans.empty (inside : index ≤ body.length) : Spans parameter? body index index :=
  ⟨rfl, rfl, Nat.le_refl _, inside, fun _ from' before => absurd from' (Nat.not_le.mpr before)⟩

theorem Spans.grow (spans : Spans parameter? body first index)
    (found : body[index]? = some token) (plain : parameter? token = none) :
    Spans parameter? body first (index + 1) := by
  obtain ⟨_, _, ordered, _, never⟩ := spans
  refine ⟨rfl, rfl, Nat.le_succ_of_le ordered, (List.getElem?_eq_some_iff.mp found).1, ?_⟩
  intro place start stop
  rcases Nat.lt_succ_iff_lt_or_eq.mp stop with before | rfl
  · exact never place start before
  · simpa [found] using plain

theorem Spans.finish {last : Nat} (spans : Spans parameter? body first last) (before : Before)
    (rest : Tiles parameter? body last []) :
    Tiles parameter? body first (finish before first last).ops := by
  unfold Op.finish
  split
  next both => exact both.1 ▸ rest
  next => exact .op spans rest

theorem Spans.after {stop : Nat} {compiled : Compiled}
    (spans : Spans parameter? body first index) (covers : op.Covers parameter? body index stop)
    (rest : Tiles parameter? body stop compiled.ops) :
    Tiles parameter? body first (compiled.after first index op).ops := by
  unfold Compiled.after
  split
  next same => exact same ▸ .op covers rest
  next => exact .op spans (.op covers rest)

theorem tiles_compileFrom (functionLike : Bool) (before : Before) (first index : Nat)
    (rest : List Token) (here : body.drop index = rest)
    (spans : Spans parameter? body first index) :
    Tiles parameter? body first (compileFrom parameter? functionLike before first index
      rest).ops := by
  have inside {index : Nat} {token : Token} (found : body[index]? = some token) :
      index + 1 ≤ body.length := (List.getElem?_eq_some_iff.mp found).1
  fun_induction compileFrom parameter? functionLike before first index rest with
  | case1 before first index => exact spans.finish before (.done (List.drop_eq_nil_iff.mp here))
  | case2 before first index token rest parameter named ih =>
    obtain ⟨found, next, _⟩ := drop_succ_of_drop_eq_cons here
    refine spans.after ?_ (ih next (.empty (inside found)))
    exact ⟨rfl, rfl, parameter, rfl, by simp [found, named]⟩
  | case3 before first index token plain =>
    obtain ⟨found, next, _⟩ := drop_succ_of_drop_eq_cons here
    exact (spans.grow found plain).finish before (.done (List.drop_eq_nil_iff.mp next))
  | case4 before first index token plain _ name rest _ ih =>
    obtain ⟨found, next, _⟩ := drop_succ_of_drop_eq_cons here
    exact ih next (spans.grow found plain)
  | case5 before first index token plain hash name rest parameter named ih =>
    obtain ⟨mark, next, _⟩ := drop_succ_of_drop_eq_cons here
    obtain ⟨found, next, _⟩ := drop_succ_of_drop_eq_cons next
    refine spans.after ?_ (ih next (.empty (inside found)))
    exact ⟨rfl, rfl, ⟨token, mark, (Bool.and_eq_true_iff.mp hash).2⟩, parameter, rfl,
      by simp [found, named]⟩
  | case6 before first index token rest _ _ mark start ih =>
    obtain ⟨found, next, _⟩ := drop_succ_of_drop_eq_cons here
    obtain ⟨_, rfl⟩ := start
    exact .left found mark (ih next (.empty (inside found)))
  | case7 before first index token rest _ _ mark _ last =>
    obtain ⟨found, next, _⟩ := drop_succ_of_drop_eq_cons here
    rw [List.isEmpty_iff.mp last] at next
    exact spans.finish before (.left found mark (.done (List.drop_eq_nil_iff.mp next)))
  | case8 before first index token rest _ _ mark _ _ again ih =>
    obtain ⟨found, next, _⟩ := drop_succ_of_drop_eq_cons here
    obtain ⟨_, rfl⟩ := again
    exact .left found mark (ih next (.empty (inside found)))
  | case9 before first index token rest _ _ mark _ _ _ ih =>
    obtain ⟨found, next, _⟩ := drop_succ_of_drop_eq_cons here
    exact spans.after ⟨rfl, rfl, token, found, mark⟩ (ih next (.empty (inside found)))
  | case10 before first index token rest plain _ _ ih =>
    obtain ⟨found, next, _⟩ := drop_succ_of_drop_eq_cons here
    exact ih next (spans.grow found plain)

/-- **Compiled ops cover their body.** -/
theorem tiles_compile (parameter? : Token → Option Nat) (functionLike : Bool) (body : List Token) :
    Tiles parameter? body 0 (compile parameter? functionLike body).ops :=
  (tiles_compileFrom functionLike .nothing 0 0 body rfl (.empty (Nat.zero_le _))).shieldOperands
    false

/-- Whether an op refers to a body: it covers some of it. -/
def Placed (parameter? : Token → Option Nat) (body : List Token) (op : Op) : Prop :=
  ∃ start stop, op.Covers parameter? body start stop

theorem Tiles.placed (tiles : Tiles parameter? body first ops) :
    ∀ op ∈ ops, op.Placed parameter? body := by
  induction tiles with
  | done => exact List.forall_mem_nil _
  | left _ _ _ ih => exact ih
  | op covers _ ih => exact List.forall_mem_cons.mpr ⟨⟨_, _, covers⟩, ih⟩

theorem Placed.span_or_paste (nameless : ∀ token, parameter? token = none)
    (placed : op.Placed parameter? body) :
    (∃ start stop : Nat, op = span start stop ∧ start ≤ stop ∧ stop ≤ body.length) ∨
      op.isPaste = true := by
  have noName (token : Option Token) (number : Nat) : token.bind parameter? ≠ some number := by
    cases token <;> simp [nameless]
  obtain ⟨start, stop, covers⟩ := placed
  cases op with
  | span first last =>
    obtain ⟨rfl, rfl, ordered, inside, _⟩ := covers
    exact .inl ⟨start, stop, rfl, ordered, inside⟩
  | expanded index parameter | unexpanded index parameter =>
    obtain ⟨_, _, number, _, named⟩ := covers
    exact absurd named (noName _ number)
  | stringized index parameter =>
    obtain ⟨_, _, _, number, _, named⟩ := covers
    exact absurd named (noName _ number)
  | paste index second => exact .inr rfl
  | line first second => exact covers.elim
  | file first second => exact covers.elim

end Tiling

/-- **Each op stands for a stretch of the body.** -/
theorem placed_compile (parameter? : Token → Option Nat) (functionLike : Bool)
    (body : List Token) :
    ∀ op ∈ (compile parameter? functionLike body).ops, op.Placed parameter? body :=
  (tiles_compile parameter? functionLike body).placed

namespace Before

theorem through?_append (before : Before) (front back : List Op) :
    before.through? (front ++ back) = (before.through? front).bind (·.through? back) := by
  induction front generalizing before with
  | nil => rfl
  | cons op front ih =>
    cases step : before.next? op <;> simp [through?, step, ih]

variable {before final : Before} {ops : List Op}

theorem not_pastes_of_through? (read : before.through? ops = some final)
    (neighbours : [left, right] <:+: ops) (paste : left.isPaste = true) :
    right.isPaste = false := by
  obtain ⟨front, back, rfl⟩ := neighbours
  rw [List.append_assoc, through?_append] at read
  cases reached : before.through? front with
  | none => simp [reached] at read
  | some state =>
    cases second : right.isPaste with
    | false => rfl
    | true =>
      exfalso
      cases state <;>
        simp [reached, through?, next?_of_isPaste paste, next?_of_isPaste second] at read

theorem getLast?_of_through? (read : before.through? ops = some final) :
    (ops = [] ∧ final = before) ∨
      ∃ front last, ops = front ++ [last] ∧
        final = if last.isPaste then .paste else .operand := by
  cases List.eq_nil_or_concat ops with
  | inl empty =>
    subst empty
    exact .inl ⟨rfl, (Option.some.inj read).symm⟩
  | inr split =>
    obtain ⟨front, last, rfl⟩ := split
    refine .inr ⟨front, last, by simp, ?_⟩
    rw [List.concat_eq_append, through?_append] at read
    cases reached : before.through? front with
    | none => simp [reached] at read
    | some state =>
      cases paste : last.isPaste <;> cases state <;>
        simp_all [through?, next?]

end Before

/-- The index that a map from names gives to an identifier. -/
def nameIndex (indices : String → Option Nat) (token : Token) : Option Nat :=
  if token.isIdentifier then indices token.lexeme else none

theorem isIdentifier_of_nameIndex (indices : String → Option Nat) (token : Token) (number : Nat)
    (named : nameIndex indices token = some number) : token.isIdentifier = true := by
  unfold nameIndex at named
  split at named
  next identifier => exact identifier
  next => simp at named

/-- **Reading compiled ops.** The ops of every body can be read from the first to the last, and
the last is a paste exactly when the body ends in two pastes after something else. -/
theorem through?_compile (indices : String → Option Nat) (functionLike : Bool)
    (body : List Token) :
    Before.nothing.through? (compile (nameIndex indices) functionLike body).ops =
      some (if endsInPastes body then .paste else .operand) := by
  unfold compile
  rw [through?_shieldOperands,
    through?_compileFrom _ (isIdentifier_of_nameIndex indices) _ _ _ _ _ (Nat.le_refl 0),
    withSpan_self, atEnd_nothing]

section Compiled

variable (indices : String → Option Nat) (functionLike : Bool) (body : List Token)

theorem compile_ops_ne_nil : (compile (nameIndex indices) functionLike body).ops ≠ [] := by
  intro empty
  have read := through?_compile indices functionLike body
  rw [empty] at read
  cases paste : endsInPastes body <;> simp [Before.through?, paste] at read

theorem compile_last (op : Op)
    (last : op ∈ (compile (nameIndex indices) functionLike body).ops.getLast?) :
    op.isPaste = endsInPastes body := by
  have read := through?_compile indices functionLike body
  obtain ⟨empty, _⟩ | ⟨front, final, whole, same⟩ := Before.getLast?_of_through? read
  · exact absurd empty (compile_ops_ne_nil indices functionLike body)
  · have final_eq : final = op := by simpa [whole] using last
    cases paste : op.isPaste <;> cases pastes : endsInPastes body <;> simp_all

end Compiled

end Op

end Preproc

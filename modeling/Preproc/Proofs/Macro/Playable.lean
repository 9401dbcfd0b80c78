import Preproc.Index
import Preproc.Macro.Basic
import Preproc.Proofs.Macro.Compile

/-! # Macros that can be played

Playback opens the ops of a macro one after the other and looks up tokens of its body. A macro is
playable if this can be done to the end. The builtin macros are, and so is every macro that a
definition line gives with a body that does not end in pastes.
-/

namespace Preproc

variable {body : List Token}

namespace Op

/-- Whether the operands of an op that are looked up lie inside a body, and its parameter counts
from the front. -/
def Inside (body : List Token) : Op → Prop
  | expanded _ parameter | unexpanded _ parameter => 0 ≤ parameter
  | stringized index parameter => (∃ mark, Index.get? body index = some mark) ∧ 0 ≤ parameter
  | paste index _ => ∃ mark, Index.get? body index = some mark
  | span _ _ | line _ _ | file _ _ => True

theorem inside_of_placed {parameter? : Token → Option Nat} {op : Op}
    (placed : op.Placed parameter? body) : op.Inside body := by
  obtain ⟨start, stop, covers⟩ := placed
  cases op with
  | span first last => trivial
  | line first second => trivial
  | file first second => trivial
  | expanded index parameter | unexpanded index parameter =>
    obtain ⟨rfl, _, number, rfl, _⟩ := covers
    exact Int.natCast_nonneg number
  | stringized index parameter =>
    obtain ⟨rfl, _, ⟨mark, found, _⟩, number, rfl, _⟩ := covers
    exact ⟨⟨mark, by simpa using found⟩, Int.natCast_nonneg number⟩
  | paste index second =>
    obtain ⟨rfl, _, mark, found, _⟩ := covers
    exact ⟨mark, by simpa using found⟩

end Op

/-- Whether playback can go through the ops of a macro: read from the left they end in an operand,
and what they look up in the body is there. -/
structure Macro.Playable (definition : Macro) : Prop where
  reads : Op.Before.nothing.through? definition.ops = some .operand
  inside : ∀ op ∈ definition.ops, op.Inside definition.body

namespace Macro.Playable

variable {definition : Macro} (playable : definition.Playable)

include playable

theorem isPaste_last {op : Op} (last : [op] <:+ definition.ops) : op.isPaste = false := by
  obtain ⟨front, whole⟩ := last
  obtain ⟨empty, _⟩ | ⟨front', last', whole', final⟩ :=
    Op.Before.getLast?_of_through? playable.reads
  · simp [empty] at whole
  · obtain ⟨_, rfl⟩ : front = front' ∧ op = last' := by
      simpa using List.append_inj' (whole.trans whole') rfl
    cases paste : op.isPaste with
    | false => rfl
    | true => simp [paste] at final

theorem isPaste_after_paste {left right : Op} {rest : List Op}
    (suffix : left :: right :: rest <:+ definition.ops) (paste : left.isPaste = true) :
    right.isPaste = false := by
  refine Op.Before.not_pastes_of_through? playable.reads ?_ paste
  exact List.IsInfix.trans ⟨[], rest, rfl⟩ suffix.isInfix

theorem isPaste_first {op : Op} {rest : List Op}
    (whole : definition.ops = op :: rest) : op.isPaste = false := by
  have reads := playable.reads
  rw [whole] at reads
  cases paste : op.isPaste with
  | false => rfl
  | true => simp [Op.Before.through?, Op.Before.next?_of_isPaste paste] at reads

theorem ops_ne_nil : definition.ops ≠ [] := by
  intro empty
  have reads := playable.reads
  simp [empty, Op.Before.through?] at reads

end Macro.Playable

variable {parameters : Option (List Parameter)}

namespace Macro

/-- The macros whose playback goes well: the builtin ones, and those that a definition line gives
with a body that does not end in pastes. -/
def Sound (definition : Macro) : Prop :=
  definition = lineBuiltin ∨ definition = fileBuiltin ∨
    ∃ nameToken parameters body endLocation,
      (build nameToken parameters body endLocation).1 = .ok definition ∧
        Op.endsInPastes body = false

variable {definition : Macro} {endLocation : Location}

theorem eq_of_checked {accepted : Macro} (checked : definition.checked = .ok accepted) :
    accepted = definition := by
  unfold Macro.checked at checked
  split at checked
  · cases checked
  · split at checked
    · cases checked
    · cases checked
      rfl

theorem ops_of_build {nameToken : Token}
    (built : (build nameToken parameters body endLocation).1 = .ok definition) :
    definition.body = body ∧ definition.ops =
      (Op.compile (Op.nameIndex ((parameters.getD []).map (·.name)).idxOf?) parameters.isSome
        body).ops := by
  have same := eq_of_checked built
  rw [same]
  exact ⟨rfl, rfl⟩

theorem sound_of_build {nameToken : Token}
    (built : (build nameToken parameters body endLocation).1 = .ok definition)
    (last : ∀ op ∈ definition.ops.getLast?, op.isPaste = false) : definition.Sound := by
  refine .inr (.inr ⟨nameToken, parameters, body, endLocation, built, ?_⟩)
  obtain ⟨_, sameOps⟩ := ops_of_build built
  have someOps : definition.ops ≠ [] := by
    rw [sameOps]
    exact Op.compile_ops_ne_nil _ parameters.isSome body
  obtain ⟨op, final⟩ := Option.isSome_iff_exists.mp (List.getLast?_isSome.mpr someOps)
  rw [← last op final]
  rw [sameOps] at final
  exact (Op.compile_last _ parameters.isSome body op final).symm

theorem Sound.playable (sound : definition.Sound) : definition.Playable := by
  rcases sound with rfl | rfl | ⟨nameToken, parameters, body, endLocation, built, plain⟩
  · exact ⟨rfl, by simp [lineBuiltin, Op.Inside]⟩
  · exact ⟨rfl, by simp [fileBuiltin, Op.Inside]⟩
  · obtain ⟨sameBody, sameOps⟩ := ops_of_build built
    constructor
    · rw [sameOps, Op.through?_compile, plain]
      rfl
    · intro op member
      rw [sameBody]
      rw [sameOps] at member
      exact Op.inside_of_placed (Op.placed_compile _ _ body op member)

end Macro

/-- What is said about bodies. -/
def Op.complaints : List Notice :=
  [.stringizeWithoutParameter, .pasteAtStart, .pasteAtEnd]

theorem Op.mem_complaints_compileFrom (parameter? : Token → Option Nat) (functionLike : Bool)
    (before : Op.Before) (first index : Nat) (body : List Token) :
    ∀ complaint ∈ (compileFrom parameter? functionLike before first index body).complaints,
      complaint.2 ∈ Op.complaints := by
  have stringize : Notice.stringizeWithoutParameter ∈ Op.complaints := by decide
  have atStart : Notice.pasteAtStart ∈ Op.complaints := by decide
  have atEnd : Notice.pasteAtEnd ∈ Op.complaints := by decide
  fun_induction compileFrom parameter? functionLike before first index body with
  | case1 => exact List.forall_mem_nil _
  | case2 before first index token rest parameter named ih => exact ih
  | case3 => exact List.forall_mem_singleton.mpr stringize
  | case4 before first index token unnamed name rest mark other ih =>
    exact List.forall_mem_cons.mpr ⟨stringize, ih⟩
  | case5 before first index token unnamed name rest mark parameter named ih => exact ih
  | case6 before first index token rest unnamed mark paste start ih =>
    exact List.forall_mem_cons.mpr ⟨atStart, ih⟩
  | case7 => exact List.forall_mem_singleton.mpr atEnd
  | case8 before first index token rest unnamed mark paste start last again ih => exact ih
  | case9 before first index token rest unnamed mark paste start last first ih => exact ih
  | case10 before first index token rest unnamed mark paste ih => exact ih

theorem Macro.mem_complaints_build {name : Token} {place : Location} :
    ∀ complaint ∈ (build name parameters body place).2, complaint.2 ∈ Op.complaints :=
  Op.mem_complaints_compileFrom _ _ _ _ _ _

end Preproc

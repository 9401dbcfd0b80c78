import Preproc.Index
import Preproc.Proofs.Macro.Compile

/-! # Compiling loses nothing

Each op covers some indices of the body. Read in order, the ops of a body cover its indices from the
first to the last; the ones left out hold pastes that have nothing to paste. No parameter is left in
a span, and a span is empty only if there is no other op.

Main statement: `compile_accounts_for_body`.
-/

namespace Preproc.Op

/-- The indices of the body that an op covers. -/
def covered : Op → List Int
  | span first last => (List.range (last - first).toNat).map fun place : Nat => first + place
  | expanded index _ | unexpanded index _ | paste index _ => [index]
  | stringized index _ => [index, index + 1]
  | line _ _ | file _ _ => []

section Covering

variable {parameter? : Token → Option Nat} {body : List Token} {op : Op} {start stop : Nat}

section

variable (covers : op.Covers parameter? body start stop)

include covers

theorem Covers.ordered : start ≤ stop ∧ stop ≤ body.length := by
  have inside {place number : Nat} (named : body[place]?.bind parameter? = some number) :
      place < body.length := by
    obtain ⟨name, found, _⟩ := Option.bind_eq_some_iff.mp named
    exact (List.getElem?_eq_some_iff.mp found).1
  cases op with
  | span first last =>
    obtain ⟨_, _, ordered, short, _⟩ := covers
    exact ⟨ordered, short⟩
  | expanded index parameter | unexpanded index parameter =>
    obtain ⟨_, rfl, number, _, named⟩ := covers
    exact ⟨Nat.le_succ _, inside named⟩
  | stringized index parameter =>
    obtain ⟨_, rfl, _, number, _, named⟩ := covers
    exact ⟨Nat.le_add_right _ _, inside named⟩
  | paste index second =>
    obtain ⟨_, rfl, mark, found, _⟩ := covers
    exact ⟨Nat.le_succ _, (List.getElem?_eq_some_iff.mp found).1⟩
  | line _ _ => exact covers.elim
  | file _ _ => exact covers.elim

theorem Covers.covered_eq :
    op.covered = (List.range (stop - start)).map fun place : Nat => (start : Int) + place := by
  cases op with
  | span first last =>
    obtain ⟨rfl, rfl, _⟩ := covers
    have size : ((stop : Int) - start).toNat = stop - start := by omega
    simp [covered, size]
  | stringized index parameter =>
    obtain ⟨rfl, rfl, _⟩ := covers
    simp [covered, List.range_succ]
  | expanded index parameter | unexpanded index parameter | paste index second =>
    obtain ⟨rfl, rfl, _⟩ := covers
    simp [covered]
  | line _ _ => exact covers.elim
  | file _ _ => exact covers.elim

theorem Covers.mem_covered (place : Int) : place ∈ op.covered ↔ start ≤ place ∧ place < stop := by
  rw [covers.covered_eq, List.mem_map]
  constructor
  · rintro ⟨distance, short, rfl⟩
    have short := List.mem_range.mp short
    omega
  · rintro ⟨from', before⟩
    exact ⟨(place - start).toNat, List.mem_range.mpr (by omega), by omega⟩

theorem Covers.pairwise : op.covered.Pairwise (· < ·) := by
  rw [covers.covered_eq, List.pairwise_map]
  exact List.pairwise_lt_range.imp fun before => by omega

end

variable {first : Nat} {ops : List Op} (tiles : Tiles parameter? body first ops)

include tiles

theorem Tiles.within :
    ∀ place ∈ ops.flatMap covered, (first : Int) ≤ place ∧ place < body.length := by
  induction tiles with
  | done => simp
  | left _ _ _ ih =>
    intro place member
    have bounds := ih place member
    omega
  | op covers _ ih =>
    intro place member
    have ordered := covers.ordered
    rcases List.mem_append.mp (List.flatMap_cons ▸ member) with here | later
    · have bounds := (covers.mem_covered place).mp here
      omega
    · have bounds := ih place later
      omega

theorem Tiles.pairwise : (ops.flatMap covered).Pairwise (· < ·) := by
  induction tiles with
  | done => exact .nil
  | left _ _ _ ih => exact ih
  | op covers rest ih =>
    rw [List.flatMap_cons, List.pairwise_append]
    refine ⟨covers.pairwise, ih, fun place here other later => ?_⟩
    have before := (covers.mem_covered place).mp here
    have after := rest.within other later
    omega

theorem Tiles.isPasteMark_of_not_covered {place : Nat}
    (from' : first ≤ place) (short : place < body.length)
    (left : (place : Int) ∉ ops.flatMap covered) :
    ∃ mark ∈ body[place]?, mark.isPasteMark = true := by
  induction tiles with
  | done past => omega
  | @left first _ mark here pastes _ ih =>
    rcases Nat.eq_or_lt_of_le from' with rfl | later
    · exact ⟨mark, here, pastes⟩
    · exact ih later left
  | op covers _ ih =>
    rw [List.flatMap_cons, List.mem_append, not_or] at left
    refine ih (Nat.not_lt.mp fun before => ?_) left.2
    exact left.1 ((covers.mem_covered place).mpr ⟨by omega, by omega⟩)

end Covering

/-- Whether an op is a span of nothing. -/
def isVoid : Op → Bool
  | span first last => last ≤ first
  | _ => false

/-- Ops in which a span of nothing stands alone, with nothing before it. -/
def Filled (before : Before) (ops : List Op) : Prop :=
  ∀ op ∈ ops, op.isVoid = true → before = .nothing ∧ ops = [op]

theorem filled_finish (before : Before) {first last : Nat} (ordered : first ≤ last) :
    Filled before (finish before first last).ops := by
  intro op member void
  unfold finish at member ⊢
  split at member
  next => cases member
  next present =>
    rw [if_neg present]
    obtain rfl := List.mem_singleton.mp member
    have same : first = last := by
      have reached : (last : Int) ≤ first := of_decide_eq_true void
      omega
    exact ⟨by simpa [same] using present, rfl⟩

theorem Filled.after {before' : Before} {compiled : Compiled} (filled : Filled before' compiled.ops)
    (present : before' ≠ .nothing) (before : Before) {first last : Nat} (ordered : first ≤ last)
      {op : Op}
    (full : op.isVoid = false) : Filled before (compiled.after first last op).ops := by
  have rest : ∀ other ∈ compiled.ops, other.isVoid = false := fun other member =>
    Bool.eq_false_iff.mpr fun void => present (filled other member void).1
  have noVoid : ∀ other ∈ (compiled.after first last op).ops, other.isVoid = false := by
    unfold Compiled.after
    split
    next => exact List.forall_mem_cons.mpr ⟨full, rest⟩
    next differ =>
      have spanned : (span first last).isVoid = false := decide_eq_false (by omega)
      exact List.forall_mem_cons.mpr ⟨spanned, List.forall_mem_cons.mpr ⟨full, rest⟩⟩
  intro other member void
  rw [noVoid other member] at void
  cases void

theorem filled_compileFrom (parameter? : Token → Option Nat) (functionLike : Bool)
    (before : Before) (first index : Nat) (rest : List Token) (ordered : first ≤ index) :
    Filled before (compileFrom parameter? functionLike before first index rest).ops := by
  fun_induction compileFrom parameter? functionLike before first index rest with
  | case1 before first index => exact filled_finish before ordered
  | case2 before first index token rest parameter named ih =>
    exact (ih (Nat.le_refl _)).after (by decide) before ordered rfl
  | case3 before first index token => exact filled_finish before (Nat.le_succ_of_le ordered)
  | case4 before first index token _ _ name rest _ ih => exact ih (Nat.le_succ_of_le ordered)
  | case5 before first index token _ _ name rest parameter named ih =>
    exact (ih (Nat.le_refl _)).after (by decide) before ordered rfl
  | case6 before first index token rest _ _ _ _ ih => exact ih (Nat.le_refl _)
  | case7 before first index token rest => exact filled_finish before ordered
  | case8 before first index token rest _ _ _ _ _ _ ih => exact ih (Nat.le_refl _)
  | case9 before first index token rest _ _ _ _ _ _ ih =>
    exact (ih (Nat.le_refl _)).after (by decide) before ordered rfl
  | case10 before first index token rest _ _ _ ih => exact ih (Nat.le_succ_of_le ordered)

theorem mem_of_mem_shieldOperands {afterPaste : Bool} {ops : List Op} {first last : Int}
    (member : span first last ∈ shieldOperands afterPaste ops) : span first last ∈ ops := by
  induction ops generalizing afterPaste with
  | nil => cases member
  | cons op ops ih =>
    rw [shieldOperands, List.mem_cons] at member
    rcases member with here | later
    · have same : op = span first last := by
        cases op <;> split at here <;> simp_all [shielded]
      exact same ▸ List.mem_cons_self
    · exact List.mem_cons_of_mem _ (ih later)

theorem sole_of_void {parameter? : Token → Option Nat} {functionLike : Bool} {body : List Token}
    {first last : Int} (member : span first last ∈ (compile parameter? functionLike body).ops)
    (void : last ≤ first) : (compile parameter? functionLike body).ops = [span first last] := by
  obtain ⟨_, sole⟩ := filled_compileFrom parameter? functionLike .nothing 0 0 body (Nat.le_refl 0)
    (span first last) (mem_of_mem_shieldOperands member) (decide_eq_true void)
  unfold compile
  dsimp only
  rw [sole]
  rfl

structure Accounts (indices : String → Option Nat) (body : List Token) (ops : List Op) : Prop where
  /-- Indices are covered in increasing order, and so none of them twice. -/
  increasing : (ops.flatMap covered).Pairwise (· < ·)
  inside : ∀ place ∈ ops.flatMap covered, 0 ≤ place ∧ place < body.length
  /-- What is not covered is a paste. -/
  left : ∀ place : Nat, place < body.length → (place : Int) ∉ ops.flatMap covered →
    ∃ mark ∈ body[place]?, mark.isPunctuator "##" = true
  /-- No token of a span names a parameter. -/
  spanned : ∀ first last, span first last ∈ ops → ∀ place : Nat, first ≤ place → place < last →
    ∀ token ∈ body[place]?, nameIndex indices token = none
  /-- A span is empty only if there is no other op. -/
  filled : ∀ first last, span first last ∈ ops → last ≤ first → ops = [span first last]
  /-- An op for a parameter has the number of the parameter in its place. -/
  numbered : ∀ index parameter,
    expanded index parameter ∈ ops ∨ unexpanded index parameter ∈ ops →
      ∃ name ∈ Index.get? body index, (nameIndex indices name).map Nat.cast = some parameter
  /-- The parameter of a string literal comes after the `#` in its place. -/
  stringized : ∀ index parameter, stringized index parameter ∈ ops →
    (∃ mark ∈ Index.get? body index, mark.isPunctuator "#" = true) ∧
      ∃ name ∈ Index.get? body (index + 1),
        (nameIndex indices name).map Nat.cast = some parameter
  pasted : ∀ index second, paste index second ∈ ops →
    ∃ mark ∈ Index.get? body index, mark.isPunctuator "##" = true

/-- **Compiling loses nothing and finds every parameter,** whatever the body is. -/
theorem compile_accounts_for_body (indices : String → Option Nat) (functionLike : Bool)
    (body : List Token) :
    Accounts indices body (compile (nameIndex indices) functionLike body).ops := by
  have tiles := tiles_compile (nameIndex indices) functionLike body
  have named {place number : Nat} (names : body[place]?.bind (nameIndex indices) = some number) :
      ∃ name ∈ Index.get? body (place : Int),
        (nameIndex indices name).map Nat.cast = some (number : Int) := by
    obtain ⟨name, found, names⟩ := Option.bind_eq_some_iff.mp names
    exact ⟨name, by simpa using found, by simp [names]⟩
  refine ⟨tiles.pairwise, tiles.within, fun place => tiles.isPasteMark_of_not_covered
    (Nat.zero_le _),
    ?_, fun _ _ => sole_of_void, ?_, ?_, ?_⟩
  · intro first last member place from' before token found
    obtain ⟨start, stop, rfl, rfl, _, _, plain⟩ := tiles.placed _ member
    simpa [Option.mem_def.mp found] using
      plain place (Int.ofNat_le.mp from') (Int.ofNat_lt.mp before)
  · rintro index parameter (member | member)
    all_goals
      obtain ⟨start, _, rfl, _, number, rfl, names⟩ := tiles.placed _ member
      exact named names
  · intro index parameter member
    obtain ⟨start, _, rfl, _, ⟨mark, found, hash⟩, number, rfl, names⟩ := tiles.placed _ member
    exact ⟨⟨mark, by simpa using found, hash⟩, named names⟩
  · intro index second member
    obtain ⟨start, _, rfl, _, mark, found, pastes⟩ := tiles.placed _ member
    exact ⟨mark, by simpa using found, pastes⟩

end Preproc.Op

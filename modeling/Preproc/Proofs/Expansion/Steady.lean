import Preproc.Proofs.Expansion.Echo
import Preproc.Proofs.Regime.Expansion

/-! # Expansion leaves the table alone

Only definition lines change the table of macros. Whatever stream is moved, expanding it looks
macros up, makes up text and reports, and leaves the table as it was.

Main statement: `TokenStream.steady_move`.
-/

namespace Preproc

open TokenStream (Mover readStack peekStack readWith peekWith expandWith)

namespace Engine

/-- An action that does the same whatever was told before, and leaves the table as it was. -/
def Steady {α : Type} (action : Engine α) : Prop :=
  ∀ table, Echoes (.of (· = table)) action action fun value value' => value' = value

namespace Steady

variable {α β : Type} {action : Engine α}

theorem bind {next : α → Engine β} (first : Steady action)
    (rest : ∀ value, Steady (next value)) : Steady (action >>= next) := by
  refine fun table => Echoes.bind (first table) ?_
  rintro _ value rfl
  exact rest value table

theorem pure (value : α) : Steady (pure value) :=
  fun _ => .pure rfl

theorem throw (failure : Failure) : Steady (throw failure : Engine α) :=
  fun _ => .throw failure

theorem of_ok {look : MacroTable → α} {told : List (Location × Notice)}
    (ran : ∀ context : Context, ∃ next, action context = .ok (look context.table) next ∧
      next.table = context.table ∧ context.Hears told next) : Steady action :=
  fun _ => @Echoes.of_ok _ _ _ look id told ran fun _ => id

theorem report (place : Location) {notice : Notice} (other : notice ≠ .tooManyErrors) :
    Steady (Engine.report place notice) :=
  @of_ok _ _ (fun _ => ()) [(place, notice)] fun _ =>
    ⟨_, rfl, rfl, rfl, List.forall_mem_singleton.mpr other, .push rfl rfl⟩

theorem trace (event : Event) : Steady (Engine.trace event) :=
  @of_ok _ _ (fun _ => ()) [] fun _ => ⟨_, rfl, rfl, .nothing rfl (.push rfl rfl)⟩

theorem allocate (text : String) : Steady (Engine.allocate text) :=
  @of_ok _ _ (fun _ => ()) [] fun _ => ⟨_, rfl, rfl, .nothing rfl ⟨fun _ => id, fun _ => .inl⟩⟩

theorem look (view : MacroTable → α) : Steady (do return view (← get).table : Engine α) :=
  @of_ok _ _ view [] fun context => ⟨context, rfl, rfl, .refl context⟩

theorem lookup (name : String) : Steady (Engine.entry? name) :=
  look fun table => table.entry? name

theorem forM_report {γ : Type} {items : List γ} (place : γ → Location) {notice : γ → Notice}
    (other : ∀ item ∈ items, notice item ≠ .tooManyErrors) :
    Steady (items.forM fun item => Engine.report (place item) (notice item)) := by
  induction items with
  | nil => exact pure _
  | cons item items ih =>
    obtain ⟨here, other⟩ := List.forall_mem_cons.mp other
    exact bind (report _ here) fun _ => ih other

theorem noticeOf_ne (what : Source.Unfinished) : Engine.noticeOf what ≠ .tooManyErrors := by
  cases what <;> simp [Engine.noticeOf]

theorem rescan (text : String) (place : Location) : Steady (Engine.rescan text place) :=
  bind (forM_report Flaw.location fun flaw _ => noticeOf_ne flaw.what) fun _ => pure _

section

variable (steady : Steady action)

include steady

theorem echoes_self (context : Context) {value : α} {next : Context}
    (ran : action context = .ok value next) :
    next.table = context.table ∧ ∃ told, context.Hears told next := by
  obtain ⟨_, _, _, echo, same, _⟩ := steady context.table context context value next rfl rfl ran
    fun quiet => absurd quiet Bool.false_ne_true
  obtain ⟨told, hears, _⟩ := echo.told
  exact ⟨same, told, hears⟩

theorem table (context : Context) (value : α) (next : Context)
    (ran : action context = .ok value next) : next.table = context.table :=
  (steady.echoes_self context ran).1

theorem growing : Growing action :=
  .of_hears fun ran => (steady.echoes_self _ ran).2

theorem echoes {realm : Realm} : Echoes realm action action fun value value' => value' = value := by
  intro context context' value next fit table ran _
  obtain ⟨value', next', ran', echo, same, holds⟩ := steady context.table context context' value
    next rfl table ran fun quiet => absurd quiet Bool.false_ne_true
  exact ⟨value', next', ran', echo, same ▸ fit, holds⟩

end

theorem grants {table : MacroTable} {condition : α → Prop} (steady : Steady action)
    (ensures : ∀ context value next, context.table = table → action context = .ok value next →
      condition value) : Grants table True action condition := by
  refine fun _ => ⟨?_, fun _ _ => trivial⟩
  rintro context value next ⟨same, _⟩ ran
  exact ⟨⟨(steady.table context value next ran).trans same, .inl trivial⟩,
    ensures context value next same ran⟩

end Steady

end Engine

open Engine (Steady)

theorem Scanner.steady_meet (strict : Bool) (flaw : Option Flaw) : Steady (meet strict flaw) := by
  unfold meet
  split
  · exact .pure _
  split
  · exact .throw _
  · exact .report _ (Steady.noticeOf_ne _)

theorem Scanner.steady_advance (scanner : Scanner) : Steady scanner.advance := by
  unfold advance
  split
  · exact .pure _
  split
  · exact .throw _
  · exact .bind (steady_meet _ _) fun _ => .pure _

theorem Scanner.steady_openSource (file source : String) (strict : Bool) :
    Steady (openSource file source strict) := by
  unfold openSource
  split
  · exact .throw _
  · exact .bind (steady_meet _ _) fun _ => .pure _

theorem Expansion.steady_busyOnTop (streams : List TokenStream) : Steady (busyOnTop streams) := by
  cases streams with
  | nil => exact .throw _
  | cons top below => exact .pure _

/-- The regime that keeps everything. -/
def Regime.any : Regime :=
  ofMacros (fun _ => True) fun _ => True

theorem Regime.lawful_any : any.Lawful :=
  lawful_ofMacros (fun _ => .inr ⟨trivial, trivial⟩) fun _ _ => trivial

/-- To be steady is a judgement that asks for nothing. -/
abbrev Regime.steady : any.Logic where
  Keeps _ action _ := Steady action
  bind first _ rest := .bind first rest
  imp kept _ _ := kept
  pure _ := .pure _
  throw _ := .throw _
  report := .report
  trace := .trace
  allocate := .allocate
  rescan := .rescan
  lookup := .lookup

open Regime (lawful_any steady)

/-- **Moving a stream leaves the table alone.** -/
theorem TokenStream.steady_move (fuel : Nat) : steady.Moves (move fuel) :=
  lawful_any.moves steady Scanner.steady_advance fuel

theorem TokenStream.steady_expand (fuel : Nat) (base : TokenStream) (origin : Option Token) :
    Steady (expand fuel base origin) :=
  lawful_any.expandWith (steady_move fuel) base origin

theorem steady_expandTokens (fuel : Nat) (tokens : List Token) (finish : Location) :
    Steady (expandTokens fuel tokens finish) :=
  lawful_any.expandTokens (TokenStream.steady_move fuel) (fun _ _ => trivial) tokens finish

end Preproc

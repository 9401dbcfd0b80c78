import Preproc.Proofs.Expansion.Reading
import Preproc.Proofs.Macro.Table

/-! # The reference expansion of macros without parameters

The reference expansion is a recursion over tokens: a token that names an idle macro stands for the
tokens that the macro plays, each expanded while that macro is busy. Only for the last token of an
outermost call is the macro idle again, unless the token names that very macro.

A machine over stacks of token lists computes the same. It differs from the engine only in that it
holds the tokens of a stream and not the stream.

Main statement: `Reader.gives_base`.
-/

namespace Preproc

namespace Macro

/-- The tokens of an op of a macro without parameters, if the macro is called by a name inside the
expansion of an origin. -/
def opTokens (definition : Macro) (origin name : Token) : Op → List Token
  | .span first last => Index.slice definition.body first last
  | .line _ _ => [{ name with kind := .number, lexeme := toString origin.location.line }]
  | .file _ _ => [{ name with kind := .string, lexeme := quoteText origin.location.file }]
  | _ => []

def markAt (definition : Macro) (index : Int) : Token :=
  (Index.get? definition.body index).getD (.endOfInput .unknown)

/-- The tokens that a macro without parameters plays. -/
def play (definition : Macro) (origin name : Token) : List Token :=
  Playback.reading (definition.opTokens origin name) definition.markAt [] definition.ops

end Macro

variable {chain : List Macro.Entry}

namespace MacroTable

def expandInside (table : MacroTable) (origin : Token) (busy : List String) (token : Token) :
    List Token :=
  match _named : table.entryFor? token with
  | none => [token]
  | some entry =>
    if entry.name ∈ busy then [token]
    else (entry.definition.play origin token).flatMap
      (table.expandInside origin (entry.name :: busy))
termination_by table.idle busy
decreasing_by exact idle_cons_lt (inForce_of_entryFor? _named).mem ‹_›

/-- The expansion of a token of the list that is being expanded. The macro that it names is busy
for all the tokens that the macro plays but the last, which only the macro itself leaves alone. -/
def expandOutermost (table : MacroTable) (token : Token) : List Token :=
  match table.entryFor? token with
  | none => [token]
  | some entry =>
    let played := entry.definition.play token token
    played.dropLast.flatMap (table.expandInside token [entry.name]) ++
      match played.getLast? with
      | none => []
      | some last =>
        if table.entryFor? last = some entry then [last] else table.expandInside token [] last

/-- Whether a token is left alone by the macros of a table while some are busy. -/
def Stays (table : MacroTable) (token : Token) (chain : List Macro.Entry) : Prop :=
  ∀ entry, table.entryFor? token = some entry → entry.name ∈ chain.map (·.name)

variable {table : MacroTable} {origin token : Token} {busy : List String} {entry : Macro.Entry}

theorem expandInside_of_stays (stays : table.Stays token chain) :
    table.expandInside origin (chain.map (·.name)) token = [token] := by
  rw [expandInside]
  split
  · rfl
  next entry named => rw [if_pos (stays entry named)]

theorem expandInside_of_idle (named : table.entryFor? token = some entry)
    (free : entry.name ∉ busy) :
    table.expandInside origin busy token =
      (entry.definition.play origin token).flatMap
        (table.expandInside origin (entry.name :: busy)) := by
  rw [expandInside]
  split
  next missing =>
    rw [named] at missing
    cases missing
  next other found =>
    obtain rfl : entry = other := Option.some.inj (named.symm.trans found)
    rw [if_neg free]

end MacroTable

/-- A list of tokens being read: what is left of it, the macros that are busy for its tokens, and
whether it is what an outermost call played. -/
structure Frame where
  tokens : List Token
  chain : List Macro.Entry
  outermost : Bool

/-- A machine that reads from a stack of frames: the token from which the current expansion began,
the next token, and the frames under it. -/
structure Reader where
  origin : Token
  shown : Option Token
  frames : List Frame

namespace Reader

/-- The next token of a stack of frames. The frames that the read ran past are gone, apart from
the bottom one. -/
def takeNext : List Frame → Option Token × List Frame
  | [] => (none, [])
  | [bottom] => (bottom.tokens.head?, [{ bottom with tokens := bottom.tokens.tail }])
  | top :: below =>
    match top.tokens with
    | [] => takeNext below
    | token :: rest => (some token, { top with tokens := rest } :: below)

/-- The machine that has just taken a token from a stack of frames. -/
def after (origin : Token) (frames : List Frame) : Reader :=
  ⟨origin, (takeNext frames).1, (takeNext frames).2⟩

/-- The frames that stay when a call begins: an outermost one that has nothing left is dropped. -/
def retire (top : Frame) (below : List Frame) : List Frame :=
  if top.outermost = true ∧ top.tokens = [] then below else top :: below

/-- The stack on which a call begins, with what it plays on top. -/
def pushCall (entry : Macro.Entry) (origin name : Token) (top : Frame) (below : List Frame) :
    List Frame :=
  let stack := retire top below
  ⟨entry.definition.play origin name, entry :: (stack.head?.map (·.chain)).getD [],
    below.isEmpty⟩ :: stack

/-- The runs of the machine to the end of its input, with what they give and how many steps they
take. -/
inductive Runs (table : MacroTable) : Reader → List Token → Nat → Prop
  | done {origin : Token} {frames : List Frame} : Runs table ⟨origin, none, frames⟩ [] 0
  | stay {origin token : Token} {top : Frame} {below : List Frame} {out : List Token} {steps : Nat}
      (stays : table.Stays token top.chain)
      (rest : Runs table (after origin (top :: below)) out steps) :
      Runs table ⟨origin, some token, top :: below⟩ (token :: out) (steps + 1)
  | call {origin token : Token} {entry : Macro.Entry} {top : Frame} {below : List Frame}
      {out : List Token} {steps : Nat} (named : table.entryFor? token = some entry)
      (free : entry.name ∉ top.chain.map (·.name))
      (rest : Runs table
        (after (if below.isEmpty then token else origin)
          (pushCall entry (if below.isEmpty then token else origin) token top below)) out steps) :
      Runs table ⟨origin, some token, top :: below⟩ out (steps + 1)

/-- Whether the machine comes to its end with an output. -/
def Gives (table : MacroTable) (reader : Reader) (out : List Token) : Prop :=
  ∃ steps, Runs table reader out steps

variable {table : MacroTable} {origin token : Token} {entry : Macro.Entry} {top : Frame}
  {below : List Frame} {out : List Token}

theorem Gives.stay (stays : table.Stays token top.chain)
    (rest : Gives table (after origin (top :: below)) out) :
    Gives table ⟨origin, some token, top :: below⟩ (token :: out) := by
  obtain ⟨steps, runs⟩ := rest
  exact ⟨steps + 1, .stay stays runs⟩

theorem after_exhausted (origin : Token) (chain : List Macro.Entry) (outermost : Bool)
    (bottom : Frame) (below : List Frame) :
    after origin (⟨[], chain, outermost⟩ :: bottom :: below) = after origin (bottom :: below) := rfl

theorem after_cons (origin token : Token) (tokens : List Token) (chain : List Macro.Entry)
    (outermost : Bool) (below : List Frame) :
    after origin (⟨token :: tokens, chain, outermost⟩ :: below) =
      ⟨origin, some token, ⟨tokens, chain, outermost⟩ :: below⟩ := by
  cases below <;> rfl

variable {tokens : List Token}

theorem Gives.nestedCall {outermost : Bool}
    {bottom : Frame} (named : table.entryFor? token = some entry)
    (free : entry.name ∉ chain.map (·.name)) (kept : outermost = false ∨ tokens ≠ [])
    (rest : Gives table (after origin
      (⟨entry.definition.play origin token, entry :: chain, false⟩ ::
        ⟨tokens, chain, outermost⟩ :: bottom :: below)) out) :
    Gives table ⟨origin, some token, ⟨tokens, chain, outermost⟩ :: bottom :: below⟩ out := by
  obtain ⟨steps, runs⟩ := rest
  refine ⟨steps + 1, .call named free ?_⟩
  have stays : retire ⟨tokens, chain, outermost⟩ (bottom :: below) =
      ⟨tokens, chain, outermost⟩ :: bottom :: below := by
    refine if_neg ?_
    rintro ⟨rfl, rfl⟩
    simp at kept
  unfold pushCall
  rw [stays]
  exact runs

/-- The tokens of a frame above the bottom one are expanded one after the other, while the macros
of its chain are busy. The induction is on how many macros are idle, and inside it on the
tokens. -/
theorem gives_inside {bottom : Frame} (tokens rest : List Token) (chain : List Macro.Entry)
    (outermost : Bool) (kept : outermost = false ∨ rest ≠ [])
    (gives : Gives table (after origin (⟨rest, chain, outermost⟩ :: bottom :: below)) out) :
    Gives table (after origin (⟨tokens ++ rest, chain, outermost⟩ :: bottom :: below))
      (tokens.flatMap (table.expandInside origin (chain.map (·.name))) ++ out) := by
  induction measure : table.idle (chain.map (·.name)) using Nat.strongRecOn
    generalizing tokens rest chain outermost bottom below out with
  | ind count ihCalls =>
    subst measure
    induction tokens with
    | nil => exact gives
    | cons token tokens ih =>
      rw [List.cons_append, after_cons, List.flatMap_cons, List.append_assoc]
      by_cases stays : table.Stays token chain
      · rw [MacroTable.expandInside_of_stays stays]
        exact .stay stays ih
      · obtain ⟨entry, named, free⟩ : ∃ entry, table.entryFor? token = some entry ∧
            entry.name ∉ chain.map (·.name) := by
          simpa [MacroTable.Stays] using stays
        rw [MacroTable.expandInside_of_idle named free]
        refine .nestedCall named free ?_ ?_
        · exact kept.imp_right fun more => List.append_ne_nil_of_right_ne_nil _ more
        · have fewer := MacroTable.idle_cons_lt
            (MacroTable.inForce_of_entryFor? named).mem free
          rw [← after_exhausted origin (entry :: chain) false] at ih
          have inner := ihCalls _ fewer (entry.definition.play origin token) []
            (entry :: chain) false (.inl rfl) ih rfl
          rw [List.append_nil] at inner
          exact inner

theorem gives_outermost (named : table.entryFor? token = some entry)
    (gives : ∀ origin, Gives table (after origin [⟨tokens, [], false⟩]) out) :
    Gives table
      (after token [⟨entry.definition.play token token, [entry], true⟩, ⟨tokens, [], false⟩])
      (table.expandOutermost token ++ out) := by
  have expanded : table.expandOutermost token =
      (entry.definition.play token token).dropLast.flatMap
          (table.expandInside token [entry.name]) ++
        match (entry.definition.play token token).getLast? with
        | none => []
        | some last =>
          if table.entryFor? last = some entry then [last]
          else table.expandInside token [] last := by
    unfold MacroTable.expandOutermost
    rw [named]
  rw [expanded]
  rcases List.eq_nil_or_concat (entry.definition.play token token) with empty | ⟨front, last, whole⟩
  · rw [empty]
    exact gives token
  · rw [whole]
    simp only [List.concat_eq_append, List.dropLast_concat, List.getLast?_append,
      List.getLast?_singleton, Option.some_or, List.append_assoc]
    refine gives_inside front [last] [entry] true (.inr (List.cons_ne_nil _ _)) ?_
    by_cases same : table.entryFor? last = some entry
    · rw [if_pos same]
      refine .stay ?_ (gives token)
      intro other found
      obtain rfl := Option.some.inj (same.symm.trans found)
      simp
    · rw [if_neg same]
      cases found : table.entryFor? last with
      | none =>
        have stays (chain : List Macro.Entry) : table.Stays last chain := by
          simp [MacroTable.Stays, found]
        have alone : table.expandInside token [] last = [last] :=
          MacroTable.expandInside_of_stays (stays [])
        rw [alone]
        exact .stay (stays [entry]) (gives token)
      | some other =>
        -- The finished outermost frame is dropped, so nothing is busy around the call.
        have differs : other.name ∉ [entry].map (·.name) := by
          intro sameName
          have sameName : other.name = entry.name := by simpa using sameName
          have otherInForce := MacroTable.inForce_of_entryFor? found
          have inForce := MacroTable.inForce_of_entryFor? named
          unfold MacroTable.InForce at otherInForce inForce
          rw [sameName, inForce] at otherInForce
          exact same (found.trans otherInForce.symm)
        rw [MacroTable.expandInside_of_idle found (by simp)]
        have base := gives token
        rw [← after_exhausted token [other] false] at base
        obtain ⟨steps, runs⟩ := gives_inside (other.definition.play token last) [] [other] false
          (.inl rfl) base
        rw [List.append_nil] at runs
        exact ⟨steps + 1, .call found differs runs⟩

/-- The machine that reads a list gives the reference expansion of its tokens. -/
theorem gives_base (tokens : List Token) (origin : Token) :
    Gives table (after origin [⟨tokens, [], false⟩])
      (tokens.flatMap table.expandOutermost) := by
  induction tokens generalizing origin with
  | nil => exact ⟨0, .done⟩
  | cons token tokens ih =>
    rw [after_cons, List.flatMap_cons]
    cases named : table.entryFor? token with
    | none =>
      have alone : table.expandOutermost token = [token] := by
        unfold MacroTable.expandOutermost
        rw [named]
      rw [alone]
      exact .stay (by simp [MacroTable.Stays, named]) (ih origin)
    | some entry =>
      obtain ⟨steps, runs⟩ := gives_outermost named ih
      exact ⟨steps + 1, .call named (by simp) runs⟩

end Reader

end Preproc

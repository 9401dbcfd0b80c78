import Preproc.Proofs.Source.Shape

/-! # Scanned tokens

Every token of a scan is the token of a lexeme that was cut off its text, or the end of the input.
So no token of a scan is empty, apart from the end.
-/

namespace Preproc

open Source

/-- Whether a token stands for some text. -/
def Token.Solid (token : Token) : Prop :=
  token.isEof = false ∧ token.lexeme ≠ ""

instance (token : Token) : Decidable token.Solid :=
  inferInstanceAs (Decidable (_ ∧ _))

/-- Whether a token is no end and, where it may be pasted to another, stands for some text. -/
def Token.Firm (pasting : Prop) (token : Token) : Prop :=
  token.isEof = false ∧ (pasting → token.lexeme ≠ "")

variable {token : Token} {file text : String} {positions : List Position} {pieces : List Piece}
  {lastGap : List Trivia} {scanned : Scanned} {place : Location}

theorem Token.Solid.firm (solid : token.Solid) {pasting : Prop} : token.Firm pasting :=
  ⟨solid.1, fun _ => solid.2⟩

namespace Source

theorem trivia?_splitGap (text : List Char) : trivia? (splitGap text).2 = none := by
  fun_induction splitGap text with
  | case1 text missing => exact missing
  | case2 text trivia rest found gap after split ih =>
    rw [split] at ih
    exact ih

theorem begins_of_mem_cut {text : List Char} {piece : Piece} (member : piece ∈ (cut text).pieces) :
    ∃ front after, Begins front piece.lexeme after := by
  fun_induction cut text with
  | case1 text gap split => simp at member
  | case2 text gap c rest split whole ih =>
    have noTrivia := trivia?_splitGap text
    rw [split] at noTrivia
    rcases List.mem_cons.mp member with here | later
    · exact ⟨c :: rest, (splitLexeme c rest).2, noTrivia, c, rest, rfl, by rw [here]⟩
    · exact ih later

theorem kind_splitLexeme (c : Char) (rest : List Char) :
    (splitLexeme c rest).1.kind ≠ .eof ∧ (splitLexeme c rest).1.kind ≠ .directive := by
  unfold splitLexeme
  split
  · simp
  split
  next found fits => rcases kind_of_literal? fits with kind | kind <;> simp [kind]
  split
  · simp
  split
  · simp
  split <;> simp

end Source

theorem mem_placePieces {lineStart : Bool}
    (member : scanned ∈ placePieces file lineStart positions pieces lastGap) :
    (∃ piece ∈ pieces, ∃ location spaced start,
      scanned.token = tokenOf piece.lexeme location spaced start ∧ 0 ≤ location.line ∧
        (scanned.flaw = none → piece.lexeme.unfinishedAt = none)) ∨
      ∃ location, scanned.token = .endOfInput location ∧ 0 ≤ location.line := by
  induction pieces generalizing lineStart positions with
  | nil =>
    rw [placePieces, List.mem_singleton] at member
    exact .inr ⟨_, by rw [member], Int.natCast_nonneg _⟩
  | cons piece pieces ih =>
    rcases List.mem_cons.mp member with here | later
    · refine .inl ⟨piece, List.mem_cons_self .., _, _, _, by rw [here], Int.natCast_nonneg _, ?_⟩
      intro flawless
      simpa [here] using flawless
    · rcases ih later with ⟨other, among, found⟩ | ended
      · exact .inl ⟨other, List.mem_cons_of_mem _ among, found⟩
      · exact .inr ended

theorem mem_scan {source : String} (member : scanned ∈ scan file source) :
    (∃ lexeme front after location spaced start, Begins front lexeme after ∧
      scanned.token = tokenOf lexeme location spaced start ∧ 0 ≤ location.line ∧
        (scanned.flaw = none → lexeme.unfinishedAt = none)) ∨
      ∃ location, scanned.token = .endOfInput location ∧ 0 ≤ location.line := by
  rcases mem_placePieces member with ⟨piece, among, location, spaced, start, token, rest⟩ | ended
  · obtain ⟨front, after, begins⟩ := begins_of_mem_cut among
    exact .inl ⟨piece.lexeme, front, after, location, spaced, start, begins, token, rest⟩
  · exact .inr ended

/-- A token of a scan that was scanned without a flaw is an end, a `#` that opens a directive, or
of the shape of its kind. -/
theorem shape_of_mem_scan {source : String}
    (member : scanned ∈ scan file source) (flawless : scanned.flaw = none) :
    0 ≤ scanned.token.location.line ∧ (scanned.token.endsLine = true ∨
      (scanned.token.kind = .directive ∧ scanned.token.lexeme = "#") ∨
        Shape scanned.token.kind scanned.token.lexeme.toList) := by
  rcases mem_scan member with
    ⟨lexeme, front, after, location, spaced, start, begins, token, line, finished⟩ |
      ⟨location, token, line⟩
  · have shape := shape_of_begins begins (finished flawless)
    rw [token]
    refine ⟨line, .inr ?_⟩
    by_cases opens : (start && lexeme.kind == .punctuator && lexeme.text == ['#']) = true
    · have text : lexeme.text = ['#'] := by simpa using (Bool.and_eq_true_iff.mp opens).2
      exact .inl ⟨by simp [tokenOf, opens], by simp [tokenOf, text]⟩
    · refine .inr ?_
      unfold tokenOf
      simpa only [opens, String.toList_ofList, Bool.false_eq_true, if_false] using shape
  · rw [token]
    exact ⟨line, .inl rfl⟩

theorem solid_tokenOf {lexeme : Lexeme} {front after : List Char}
    (begins : Begins front lexeme after) (location : Location) (spaced start : Bool) :
    (tokenOf lexeme location spaced start).Solid := by
  obtain ⟨_, c, rest, _, split⟩ := begins
  obtain rfl : (splitLexeme c rest).1 = lexeme := by rw [split]
  obtain ⟨notEnd, _⟩ := kind_splitLexeme c rest
  refine ⟨?_, ?_⟩
  · unfold tokenOf Token.isEof
    dsimp only
    split
    · decide
    · simpa using notEnd
  · intro empty
    have nothing : (splitLexeme c rest).1.text = [] := by
      simpa [tokenOf] using congrArg String.toList empty
    exact splitLexeme_ne_nil c rest nothing

/-- The tokens of made-up text are those of a scan, up to their place, their white space and the
meaning of `#`. -/
theorem mem_rescan (member : token ∈ rescan text place) :
    ∃ scanned ∈ scan place.file text, scanned.token.endsLine = false ∧
      token = placeTogether.place place token.leadingSpace scanned.token := by
  unfold rescan placeTogether at member
  split at member
  · simp at member
  next first rest kept =>
    have among {found : Token} (inside : found ∈ first :: rest) :
        ∃ scanned ∈ scan place.file text, scanned.token.endsLine = false ∧
          scanned.token = found := by
      rw [← kept] at inside
      obtain ⟨inside, notEnd⟩ := List.mem_filter.mp inside
      obtain ⟨scanned, among, rfl⟩ := List.mem_map.mp inside
      exact ⟨scanned, among, by simpa using notEnd, rfl⟩
    rcases List.mem_cons.mp member with rfl | later
    · obtain ⟨scanned, inside, notEnd, rfl⟩ := among (List.mem_cons_self ..)
      exact ⟨scanned, inside, notEnd, rfl⟩
    · obtain ⟨found, inRest, rfl⟩ := List.mem_map.mp later
      obtain ⟨scanned, inside, notEnd, rfl⟩ := among (List.mem_cons_of_mem _ inRest)
      exact ⟨scanned, inside, notEnd, rfl⟩

theorem solid_of_mem_rescan (member : token ∈ rescan text place) : token.Solid := by
  obtain ⟨scanned, found, notEnd, same⟩ := mem_rescan member
  have solid : scanned.token.Solid := by
    rcases mem_scan found with ⟨lexeme, front, after, location, spaced, start, begins, token, _⟩ |
      ⟨location, token, _⟩
    · rw [token]
      exact solid_tokenOf begins location spaced start
    · rw [token] at notEnd
      cases notEnd
  rw [same]
  refine ⟨?_, solid.2⟩
  unfold placeTogether.place Token.isEof
  dsimp only
  split
  · decide
  · exact solid.1

/-- A token that stays inside a line: it neither opens a directive nor ends a line before the end of
the input. -/
def Token.Midline (token : Token) : Prop :=
  token.kind ≠ .directive ∧ token.kind ≠ .newline

theorem midline_of_mem_rescan (member : token ∈ rescan text place) : token.Midline := by
  obtain ⟨scanned, _, goesOn, same⟩ := mem_rescan member
  rw [same]
  unfold placeTogether.place
  by_cases opens : (scanned.token.kind == .directive) = true
  · simp only [opens, if_true]
    exact ⟨nofun, nofun⟩
  · simp only [opens, Bool.false_eq_true, if_false]
    constructor
    · simpa using opens
    · intro newline
      have newline : scanned.token.kind = .newline := newline
      simp [Token.endsLine, newline] at goesOn

/-- Tokens that open directives only at the beginning of a line. -/
def Lined : (lineStart : Bool) → List Token → Prop
  | _, [] => True
  | lineStart, token :: rest =>
    (token.kind = .directive → lineStart = true) ∧ Lined (token.kind == .newline) rest

theorem newline_tokenOf (lexeme : Lexeme) (location : Location) (spaced lineStart : Bool) :
    ((tokenOf lexeme location spaced lineStart).kind == .newline) = (lexeme.kind == .newline) := by
  unfold tokenOf
  dsimp only
  split
  next opens =>
    have punctuator : lexeme.kind = .punctuator := by simp_all
    rw [punctuator]
    rfl
  next => rfl

theorem lined_placePieces (file : String) {lineStart : Bool}
    (plain : ∀ piece ∈ pieces, piece.lexeme.kind ≠ .directive) :
    Lined lineStart ((placePieces file lineStart positions pieces lastGap).map (·.token)) := by
  induction pieces generalizing lineStart positions with
  | nil => exact ⟨nofun, trivial⟩
  | cons piece rest ih =>
    obtain ⟨here, later⟩ := List.forall_mem_cons.mp plain
    refine ⟨?_, ?_⟩
    · unfold tokenOf
      dsimp only
      split
      next opens =>
        simp only [Bool.and_eq_true] at opens
        exact fun _ => opens.1.1
      next => exact fun directive => absurd directive here
    · rw [newline_tokenOf]
      exact ih later

theorem lined_scan (file source : String) :
    Lined true ((scan file source).map (·.token)) := by
  apply lined_placePieces
  intro piece member
  obtain ⟨_, _, _, c, rest, _, split⟩ := begins_of_mem_cut member
  have kind := (kind_splitLexeme c rest).2
  rw [split] at kind
  exact kind

end Preproc

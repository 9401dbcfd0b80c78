import Preproc.Proofs.Source.Respell

/-! # Physical positions

Splicing takes characters out of a text, and those that stay keep their place in the physical lines.
A walk through a text meets its characters in the order of their positions; splicing is compared
with the walk, and the walk with the lines.

Main statement: `splice_keeps_positions`.
-/

namespace Preproc.Source

namespace Position

/-- The order in which positions are read. -/
def Before (p q : Position) : Prop :=
  p.line < q.line ∨ p.line = q.line ∧ p.column < q.column

/-- A walk from a position meets only positions further on, and every line from its first column. -/
def Reaches (p q : Position) : Prop :=
  p.line = q.line ∧ p.column ≤ q.column ∨ p.line < q.line ∧ 1 ≤ q.column

variable {p q r : Position}

theorem Reaches.refl (p : Position) : p.Reaches p :=
  .inl ⟨rfl, Nat.le_refl _⟩

theorem Reaches.trans (first : p.Reaches q) (second : q.Reaches r) : p.Reaches r := by
  unfold Reaches at *
  omega

theorem before_after (p : Position) (c : Char) : p.Before (p.after c) := by
  unfold after Before nextLine nextColumn
  split <;> simp

theorem reaches_after (p : Position) (c : Char) : p.Reaches (p.after c) := by
  unfold after Reaches nextLine nextColumn
  split <;> simp

theorem Before.reaches (first : p.Before q) (second : q.Reaches r) : p.Before r := by
  unfold Before Reaches at *
  omega

theorem Before.ne (before : p.Before q) : p ≠ q := by
  rintro rfl
  unfold Before at before
  omega

end Position

/-- The character that a walk from a position meets at another one. -/
def charFrom (position : Position) : List Char → Position → Option Char
  | [], _ => none
  | c :: rest, place => if position = place then some c else charFrom (position.after c) rest place

variable {position place : Position} {text rest : List Char} {c : Char}

theorem reaches_of_charFrom (found : charFrom position text place = some c) :
    position.Reaches place := by
  fun_induction charFrom position text place with
  | case1 => cases found
  | case2 => exact .refl _
  | case3 position d rest place apart ih => exact (position.reaches_after d).trans (ih found)

/-- A place belongs to a backslash and the newline directly after it. -/
def Continues (char : Position → Option Char) (place : Position) : Prop :=
  ∃ backslash : Position, char backslash = some '\\' ∧ char backslash.nextColumn = some '\n' ∧
    (place = backslash ∨ place = backslash.nextColumn)

theorem charFrom_self (position : Position) (text : List Char) :
    charFrom position text position = text.head? := by
  cases text <;> simp [charFrom]

theorem charFrom_cons (c : Char) (rest : List Char) (later : position.Before place) :
    charFrom position (c :: rest) place = charFrom (position.after c) rest place := by
  rw [charFrom, if_neg later.ne]

theorem charFrom_cons_of_charFrom {d : Char} (found :
    charFrom (position.after c) rest place = some d) :
    charFrom position (c :: rest) place = some d := by
  rw [charFrom_cons c rest ((position.before_after c).reaches (reaches_of_charFrom found)), found]

theorem Continues.cons (continues : Continues (charFrom (position.after c) rest) place) :
    Continues (charFrom position (c :: rest)) place := by
  obtain ⟨backslash, first, second, near⟩ := continues
  exact ⟨backslash, charFrom_cons_of_charFrom first, charFrom_cons_of_charFrom second, near⟩

theorem Continues.of_cons (continues : Continues (charFrom position (c :: rest)) place) :
    (c = '\\' ∧ rest.head? = some '\n' ∧ (place = position ∨ place = position.nextColumn)) ∨
      Continues (charFrom (position.after c) rest) place := by
  obtain ⟨backslash, first, second, near⟩ := continues
  by_cases same : position = backslash
  · subst same
    obtain rfl : c = '\\' := by simpa [charFrom] using first
    have next : position.Before position.nextColumn := position.before_after '\\'
    rw [charFrom_cons _ _ next] at second
    exact .inl ⟨rfl, (charFrom_self _ rest).symm.trans second, near⟩
  · rw [charFrom, if_neg same] at first
    have later := (position.before_after c).reaches (reaches_of_charFrom first)
    have next : backslash.Reaches backslash.nextColumn := backslash.reaches_after '\\'
    rw [charFrom_cons _ _ (later.reaches next)] at second
    exact .inr ⟨backslash, first, second, near⟩

theorem Continues.reaches (continues : Continues (charFrom position text) place) :
    position.Reaches place := by
  obtain ⟨backslash, first, second, rfl | rfl⟩ := continues
  · exact reaches_of_charFrom first
  · exact reaches_of_charFrom second

theorem reaches_of_mem_positions
    (member : place ∈ (spliceFrom position text).positions) : position.Reaches place := by
  fun_induction spliceFrom position text with
  | case1 position =>
    obtain rfl : place = position := by simpa [Spliced.positions] using member
    exact .refl _
  | case2 position rest ih =>
    have next : position.Reaches position.nextLine := position.reaches_after '\n'
    exact next.trans (ih member)
  | case3 position c rest unpaired spliced ih =>
    obtain rfl | member := List.mem_cons.mp member
    · exact .refl _
    · exact (position.reaches_after c).trans (ih member)

/-- **Splicing keeps the order** of positions. -/
theorem pairwise_positions (position : Position) (text : List Char) :
    (spliceFrom position text).positions.Pairwise Position.Before := by
  fun_induction spliceFrom position text with
  | case1 position => exact List.pairwise_singleton _ _
  | case2 position rest ih => exact ih
  | case3 position c rest unpaired spliced ih =>
    refine List.pairwise_cons.mpr ⟨?_, ih⟩
    intro place member
    exact (position.before_after c).reaches (reaches_of_mem_positions member)

/-- **Splicing follows the walk**: what stays is where the walk meets it. -/
theorem charFrom_of_mem_chars (member : (c, place) ∈ (spliceFrom position text).chars) :
    charFrom position text place = some c := by
  fun_induction spliceFrom position text with
  | case1 position => cases member
  | case2 position rest ih =>
    exact charFrom_cons_of_charFrom (charFrom_cons_of_charFrom (ih member))
  | case3 position d rest unpaired spliced ih =>
    obtain same | member := List.mem_cons.mp member
    · obtain ⟨rfl, rfl⟩ := Prod.mk.inj same
      simp [charFrom]
    · exact charFrom_cons_of_charFrom (ih member)

/-- **Splicing removes the pairs** of a backslash and a newline, and nothing else. -/
theorem mem_chars_iff (found : charFrom position text place = some c) :
    place ∈ (spliceFrom position text).chars.map (·.2) ↔
      ¬ Continues (charFrom position text) place := by
  -- a place that splicing keeps is one of those that the walk still has before it
  have later {position : Position} {text : List Char}
      (member : place ∈ (spliceFrom position text).chars.map (·.2)) : position.Reaches place :=
    reaches_of_mem_positions (List.mem_append_left _ member)
  fun_induction spliceFrom position text with
  | case1 position => cases found
  | case2 position rest ih =>
    have next : position.Before position.nextColumn := position.before_after '\\'
    have past : position.Before position.nextLine := position.before_after '\n'
    have line : position.nextColumn.Before position.nextLine :=
      position.nextColumn.before_after '\n'
    by_cases inside : place = position ∨ place = position.nextColumn
    · have pair : Continues (charFrom position ('\\' :: '\n' :: rest)) place := by
        refine ⟨position, by simp [charFrom], ?_, inside⟩
        rw [charFrom_cons _ _ next]
        exact charFrom_self _ _
      refine iff_of_false (fun member => ?_) (not_not_intro pair)
      obtain rfl | rfl := inside
      · exact (past.reaches (later member)).ne rfl
      · exact (line.reaches (later member)).ne rfl
    · obtain ⟨first, second⟩ := not_or.mp inside
      have second : position.after '\\' ≠ place := Ne.symm second
      rw [charFrom, if_neg (Ne.symm first), charFrom, if_neg second] at found
      refine (ih found).trans (not_congr ⟨fun pair => ?_, fun pair => ?_⟩)
      · have pair : Continues (charFrom (position.nextColumn.after '\n') rest) place := pair
        have pair : Continues (charFrom (position.after '\\') ('\n' :: rest)) place := pair.cons
        exact pair.cons
      · obtain ⟨-, -, near⟩ | pair := pair.of_cons
        · exact absurd near inside
        · obtain ⟨clash, -⟩ | pair := pair.of_cons
          · exact absurd clash (by decide)
          · exact pair
  | case3 position d rest unpaired spliced ih =>
    have whole : Continues (charFrom position (d :: rest)) place →
        Continues (charFrom (position.after d) rest) place := by
      intro pair
      obtain ⟨rfl, newline, -⟩ | pair := pair.of_cons
      · obtain ⟨rest, rfl⟩ := List.head?_eq_some_iff.mp newline
        exact (unpaired rest rfl rfl).elim
      · exact pair
    by_cases same : place = position
    · subst same
      refine iff_of_true List.mem_cons_self fun pair => ?_
      exact ((place.before_after d).reaches (whole pair).reaches).ne rfl
    · rw [charFrom, if_neg (Ne.symm same)] at found
      refine (List.mem_cons.trans (or_iff_right same)).trans ((ih found).trans ?_)
      exact not_congr ⟨.cons, whole⟩

theorem finish_spliceFrom (position : Position) (text : List Char) :
    (spliceFrom position text).finish = text.foldl Position.after position := by
  fun_induction spliceFrom position text with
  | case1 position => rfl
  | case2 position rest ih => exact ih
  | case3 position c rest unpaired spliced ih => exact ih

/-- The character in a row and a column of lines, counted from zero. Every line but the last one has
a newline behind it. -/
def charIn (lines : List (List Char)) (row column : Nat) : Option Char :=
  lines[row]?.bind fun chars =>
    if column = chars.length ∧ row + 1 < lines.length then some '\n' else chars[column]?

theorem charIn_cons_succ (line : List Char) (lines : List (List Char)) (row column : Nat) :
    charIn (line :: lines) (row + 1) column = charIn lines row column := by
  simp [charIn]

theorem splitOn_newline (rest : List Char) :
    ('\n' :: rest).splitOn '\n' = [] :: rest.splitOn '\n' :=
  List.splitOn_cons_eq_if_modifyHead ..

theorem splitOn_cons (other : c ≠ '\n') :
    (c :: rest).splitOn '\n' = (rest.splitOn '\n').modifyHead (c :: ·) := by
  rw [List.splitOn_cons_eq_if_modifyHead, if_neg (by simpa using other)]

theorem charFrom_eq_charIn (line start row column : Nat) (text : List Char) :
    charFrom ⟨line, start⟩ text ⟨line + row, (if row = 0 then start else 1) + column⟩ =
      charIn (text.splitOn '\n') row column := by
  induction text generalizing line start row column with
  | nil => cases row <;> simp [charFrom, charIn]
  | cons c rest ih =>
    by_cases newline : c = '\n'
    · subst newline
      rw [splitOn_newline]
      cases row with
      | zero =>
        cases column with
        | zero => simp [charFrom, charIn, List.length_pos_iff]
        | succ column =>
          have unreached : charFrom ⟨line + 1, 1⟩ rest ⟨line, start + (column + 1)⟩ = none := by
            refine Option.eq_none_iff_forall_ne_some.mpr fun c found => ?_
            have reached := reaches_of_charFrom found
            simp only [Position.Reaches] at reached
            omega
          simpa [charFrom, charIn, Position.after, Position.nextLine] using unreached
      | succ row =>
        rw [charIn_cons_succ, ← ih (line + 1) 1 row column, charFrom, if_neg (by simp)]
        simp [Position.after, Position.nextLine, Nat.add_right_comm, Nat.add_assoc]
    · obtain ⟨first, others, lines⟩ := List.exists_cons_of_ne_nil (List.splitOn_ne_nil '\n' rest)
      have next : Position.after ⟨line, start⟩ c = ⟨line, start + 1⟩ := by
        simp [Position.after, Position.nextColumn, newline]
      have ih := fun row column => ih line (start + 1) row column
      rw [lines] at ih
      rw [splitOn_cons newline, lines, List.modifyHead_cons]
      cases row with
      | zero =>
        cases column with
        | zero => simp [charFrom, charIn]
        | succ column =>
          have ih := ih 0 column
          rw [charFrom, if_neg (by simp), next]
          simpa [charIn, Nat.add_right_comm, Nat.add_assoc] using ih
      | succ row =>
        rw [charIn_cons_succ, ← charIn_cons_succ first, ← ih, charFrom, if_neg (by simp), next]
        simp

theorem foldl_after (line start : Nat) (text : List Char) :
    ∃ front last, text.splitOn '\n' = front ++ [last] ∧ text.foldl Position.after ⟨line, start⟩ =
      ⟨line + front.length, (if front.isEmpty then start else 1) + last.length⟩ := by
  induction text generalizing line start with
  | nil => exact ⟨[], [], rfl, rfl⟩
  | cons c rest ih =>
    by_cases newline : c = '\n'
    · subst newline
      obtain ⟨front, last, lines, finish⟩ := ih (line + 1) 1
      refine ⟨[] :: front, last, by rw [splitOn_newline, lines, List.cons_append], ?_⟩
      refine finish.trans ?_
      simp [Nat.add_right_comm, Nat.add_assoc]
    · have next : Position.after ⟨line, start⟩ c = ⟨line, start + 1⟩ := by
        simp [Position.after, Position.nextColumn, newline]
      obtain ⟨front, last, lines, finish⟩ := ih line (start + 1)
      rw [List.foldl_cons, next, finish, splitOn_cons newline, lines]
      cases front with
      | nil => exact ⟨[], c :: last, rfl, by simp [Nat.add_right_comm, Nat.add_assoc]⟩
      | cons first front => exact ⟨(c :: first) :: front, last, rfl, by simp⟩

/-- The characters at positions of lines, which are counted from one. -/
def charAt (lines : List (List Char)) : Position → Option Char
  | ⟨row + 1, column + 1⟩ => charIn lines row column
  | _ => none

theorem charFrom_start (text : List Char) (place : Position) :
    charFrom .start text place = charAt (text.splitOn '\n') place := by
  have unreached {row column : Nat} (outside : row = 0 ∨ column = 0) :
      charFrom .start text ⟨row, column⟩ = none := by
    refine Option.eq_none_iff_forall_ne_some.mpr fun c found => ?_
    have reached := reaches_of_charFrom found
    simp only [Position.Reaches, Position.start] at reached
    omega
  fun_cases charAt (text.splitOn '\n') place with
  | case1 row column =>
    rw [← charFrom_eq_charIn 1 1 row column text, ite_self, Nat.add_comm 1, Nat.add_comm 1]
    rfl
  | case2 place outside =>
    obtain ⟨row, column⟩ := place
    cases row with
    | zero => exact unreached (.inl rfl)
    | succ row =>
      cases column with
      | zero => exact unreached (.inr rfl)
      | succ column => exact (outside row column rfl).elim

/-- Carriage returns directly before a newline go. -/
def dropReturns : List Char → List Char
  | [] => []
  | '\r' :: '\n' :: rest => '\n' :: dropReturns rest
  | c :: rest => c :: dropReturns rest

/-- The physical lines of a source: a return with a newline behind it, or alone, ends a line as a
newline does. -/
def physicalLines (source : List Char) : List (List Char) :=
  ((dropReturns source).map fun c => if c = '\r' then '\n' else c).splitOn '\n'

theorem splitOn_normalizeNewlines (source : List Char) :
    (normalizeNewlines source).splitOn '\n' = physicalLines source := by
  unfold physicalLines
  congr 1
  fun_induction normalizeNewlines source with
  | case1 => rfl
  | case2 rest ih => simp [dropReturns, ih]
  | case3 c rest single ih =>
    rw [dropReturns, List.map_cons, ih]
    · simp
    · exact single

/-- **Physical positions survive splicing.** There is one position more than characters, and
positions are in order. Each character of the text is the one at its position in the physical lines;
of the characters in those lines, the text lacks those of a backslash and a newline next to each
other, and no others. The last position is the one behind the last line. -/
theorem splice_keeps_positions (source : List Char) :
    (splice source).positions.length = (splice source).text.length + 1 ∧
      (splice source).positions.Pairwise Position.Before ∧
      (∀ (i : Nat) (c : Char), (splice source).text[i]? = some c →
        ∃ place, (splice source).positions[i]? = some place ∧
          charAt (physicalLines source) place = some c) ∧
      (∀ (place : Position) (c : Char), charAt (physicalLines source) place = some c →
        (place ∈ (splice source).positions.dropLast ↔
          ¬ Continues (charAt (physicalLines source)) place)) ∧
      ∃ front last, physicalLines source = front ++ [last] ∧
        (splice source).positions.getLast? = some ⟨front.length + 1, last.length + 1⟩ := by
  have walk : charFrom .start (normalizeNewlines source) = charAt (physicalLines source) := by
    rw [← splitOn_normalizeNewlines]
    exact funext (charFrom_start _)
  refine ⟨(splice source).length_positions, pairwise_positions _ _, ?_, ?_, ?_⟩
  · intro i c found
    have found : (splice source).chars[i]?.map (·.1) = some c := by
      rwa [← List.getElem?_map]
    obtain ⟨⟨c, place⟩, entry, rfl⟩ := Option.map_eq_some_iff.mp found
    refine ⟨place, ?_, ?_⟩
    · have inside : i < ((splice source).chars.map (·.2)).length := by
        rw [List.length_map]
        exact (List.getElem?_eq_some_iff.mp entry).1
      rw [Spliced.positions, List.getElem?_append_left inside, List.getElem?_map, entry]
      rfl
    · rw [← walk]
      exact charFrom_of_mem_chars (List.mem_of_getElem? entry)
  · intro place c found
    rw [← walk] at found ⊢
    rw [Spliced.positions, List.dropLast_concat]
    exact mem_chars_iff found
  · obtain ⟨front, last, lines, finish⟩ := foldl_after 1 1 (normalizeNewlines source)
    refine ⟨front, last, by rw [← splitOn_normalizeNewlines, lines], ?_⟩
    rw [Spliced.positions, List.getLast?_concat, splice, finish_spliceFrom]
    refine congrArg some (finish.trans ?_)
    rw [ite_self, Nat.add_comm 1, Nat.add_comm 1]

end Preproc.Source

import Preproc.Proofs.Condition.Tree

/-! # The grammar of conditions is unambiguous

A list of tokens is the yield of at most one conditional. Reading from the left, an expression ends
at the first token with which its category cannot go on, so two expressions that begin one list of
tokens are compared part by part. A binary expression is taken as a chain of operators of its level
(`Preproc.Condition.Tree.Fits.chain`), which turns the recursion to the left into a list.
-/

namespace Preproc.Condition.Tree

/-- Tokens that follow an expression of a category without going on with it. -/
def Ends : Category → List Token → Prop
  | .conditional, token :: _ => binaryOp? token = none ∧ token.isPunctuator "?" = false
  | .binary level, token :: _ => ∀ op, binaryOp? token = some op → op.level < level
  | _, _ => True

/-- An operator and its right operand, in a chain of operators of one level. -/
structure Link where
  op : BinaryOp
  sign : Token
  right : Tree

variable {level : Nat} {tree : Tree}

namespace Link

/-- The expression that a link makes of its left operand. -/
def attach (left : Tree) (link : Link) : Tree :=
  .binary link.op left link.sign link.right

/-- The tokens of a chain. -/
def yields (links : List Link) : List Token :=
  links.flatMap fun link => link.sign :: link.right.yield

structure Fits (level : Nat) (link : Link) : Prop where
  isSign : binaryOp? link.sign = some link.op
  level_eq : link.op.level = level
  right : Tree.Fits (.binary (level + 1)) link.right

theorem yield_attach (links : List Link) (first : Tree) :
    (links.foldl attach first).yield = first.yield ++ yields links := by
  induction links generalizing first with
  | nil => simp [yields]
  | cons link rest ih =>
    rw [List.foldl_cons, ih]
    simp [attach, yield, yields]

theorem ends_tighter {links : List Link} {rest : List Token}
    (fit : ∀ link ∈ links, link.Fits level) (ends : Ends (.binary level) rest) :
    Ends (.binary (level + 1)) (yields links ++ rest) := by
  cases links with
  | nil =>
    cases rest with
    | nil => trivial
    | cons token rest => exact fun op found => Nat.lt_succ_of_lt (ends op found)
  | cons link links =>
    intro op found
    have same := (fit link (by simp)).isSign
    rw [same] at found
    cases found
    exact Nat.lt_succ_of_le (Nat.le_of_eq (fit link (by simp)).level_eq)

end Link

/-- A binary expression is a chain of operators of its level on tighter operands. -/
theorem Fits.chain (fits : Fits (.binary level) tree) (below : level < levelCount) :
    ∃ (first : Tree) (links : List Link), Fits (.binary (level + 1)) first ∧
      (∀ link ∈ links, Link.Fits level link) ∧ tree = links.foldl Link.attach first := by
  generalize same : Category.binary level = category at fits
  induction fits with
  | unary fits =>
    cases same
    exact absurd below (Nat.lt_irrefl _)
  | tighter _ fits _ =>
    cases same
    exact ⟨_, [], fits, by simp, rfl⟩
  | @applied op left right sign isSign leftFits rightFits leftIh _ =>
    cases same
    obtain ⟨first, links, firstFits, fit, rfl⟩ := leftIh rfl
    refine ⟨first, links ++ [⟨op, sign, right⟩], firstFits, ?_, ?_⟩
    · intro link member
      rcases List.mem_append.mp member with earlier | last
      · exact fit link earlier
      · rw [List.mem_singleton.mp last]
        exact ⟨isSign, rfl, rightFits⟩
    · simp [Link.attach]
  | _ => cases same

theorem Fits.ofTightest (fits : Fits (.binary levelCount) tree) : Fits .unary tree := by
  generalize same : Category.binary levelCount = category at fits
  cases fits with
  | unary fits => exact fits
  | tighter below fits =>
    cases same
    exact absurd below (Nat.lt_irrefl _)
  | @applied op _ _ _ _ _ _ =>
    have level := op.level_lt
    simp only [Category.binary.injEq] at same
    omega
  | _ => cases same

/-- Two expressions of a category, the first of a bounded size, that begin a list of tokens and end
where they can no longer go on are the same. -/
def Unique (category : Category) (size : Nat) : Prop :=
  ∀ (first second : Tree) (firstRest secondRest : List Token), first.yield.length ≤ size →
    Fits category first → Fits category second → Ends category firstRest →
    Ends category secondRest → first.yield ++ firstRest = second.yield ++ secondRest →
    first = second ∧ firstRest = secondRest

variable {size : Nat}

theorem Link.unique (tighter : Unique (.binary (level + 1)) size)
    (firsts seconds : List Link) (firstRest secondRest : List Token)
    (bounded : (yields firsts).length ≤ size + 1)
    (firstsFit : ∀ link ∈ firsts, link.Fits level) (secondsFit : ∀ link ∈ seconds, link.Fits level)
    (firstEnds : Ends (.binary level) firstRest) (secondEnds : Ends (.binary level) secondRest)
    (same : yields firsts ++ firstRest = yields seconds ++ secondRest) :
    firsts = seconds ∧ firstRest = secondRest := by
  induction firsts generalizing seconds with
  | nil =>
    cases seconds with
    | nil => exact ⟨rfl, same⟩
    | cons link seconds =>
      have fits := secondsFit link (by simp)
      subst same
      exact absurd (firstEnds _ fits.isSign) (by simp [fits.level_eq])
  | cons link firsts ih =>
    have fits := firstsFit link (by simp)
    cases seconds with
    | nil =>
      subst same
      exact absurd (secondEnds _ fits.isSign) (by simp [fits.level_eq])
    | cons other seconds =>
      have otherFits := secondsFit other (by simp)
      have firstsFit : ∀ link ∈ firsts, Link.Fits level link :=
        fun link member => firstsFit link (by simp [member])
      have secondsFit : ∀ link ∈ seconds, Link.Fits level link :=
        fun link member => secondsFit link (by simp [member])
      simp only [yields, List.flatMap_cons, List.cons_append, List.append_assoc,
        List.cons.injEq, List.length_cons, List.length_append] at same bounded
      obtain ⟨signs, same⟩ := same
      obtain ⟨rights, same⟩ := tighter link.right other.right _ _ (by omega) fits.right
        otherFits.right (ends_tighter firstsFit firstEnds) (ends_tighter secondsFit secondEnds)
        same
      obtain ⟨rests, same⟩ :=
        ih seconds (by simp only [yields]; omega) firstsFit secondsFit same
      have ops : link.op = other.op := by
        have found := fits.isSign
        rw [signs, otherFits.isSign] at found
        exact (Option.some.inj found).symm
      refine ⟨?_, same⟩
      cases link
      cases other
      simp_all

theorem Ends.binary_of_conditional {rest : List Token} (ends : Ends .conditional rest) :
    Ends (.binary 0) rest := by
  cases rest with
  | nil => trivial
  | cons token rest =>
    intro op found
    rw [ends.1] at found
    cases found

theorem ends_binary_question {question : Token} (asks : question.isPunctuator "?" = true)
    (rest : List Token) : Ends (.binary 0) (question :: rest) := by
  intro op found
  rw [binaryOp?_of_isPunctuator asks] at found
  cases found

theorem ends_conditional_mark {mark : Token} {text : String}
    (isMark : mark.isPunctuator text = true) (notOp : BinaryOp.ofLexeme? text = none)
    (notQuestion : text ≠ "?") (rest : List Token) : Ends .conditional (mark :: rest) :=
  ⟨by rw [binaryOp?_of_isPunctuator isMark, notOp], Token.isPunctuator_eq_false isMark notQuestion⟩

theorem Fits.not_signed (fits : Fits .primary tree) {sign : Token} {op : UnaryOp}
    {front back : List Token} (isSign : unaryOp? sign = some op) :
    tree.yield ++ front ≠ sign :: back := by
  intro same
  cases fits with
  | leaf constant =>
    cases same
    simp [unaryOp?, kind_ne_punctuator constant] at isSign
  | group opens _ _ =>
    cases same
    rw [unaryOp?_of_isPunctuator opens] at isSign
    cases isSign

theorem unique_primary
    (inside : ∀ smaller < size, Unique .conditional smaller) : Unique .primary size := by
  intro first second firstRest secondRest bounded firstFits secondFits _ _ same
  cases firstFits with
  | leaf firstConstant =>
    cases secondFits with
    | leaf secondConstant =>
      cases same
      rw [firstConstant] at secondConstant
      cases secondConstant
      exact ⟨rfl, rfl⟩
    | group opens _ _ =>
      cases same
      simp [Token.isPunctuator, kind_ne_punctuator firstConstant] at opens
  | @group opening closing inner opens fits closes =>
    cases secondFits with
    | leaf secondConstant =>
      cases same
      simp [Token.isPunctuator, kind_ne_punctuator secondConstant] at opens
    | @group _ otherClosing other _ otherFits otherCloses =>
      simp only [yield, List.cons_append, List.append_assoc, List.cons.injEq,
        List.nil_append] at same
      obtain ⟨openings, same⟩ := same
      simp only [yield, List.length_cons, List.length_append] at bounded
      obtain ⟨inners, same⟩ := inside inner.yield.length (by omega) inner other _ _
        (Nat.le_refl _) fits otherFits (ends_conditional_mark closes rfl (by decide) _)
        (ends_conditional_mark otherCloses rfl (by decide) _) same
      cases same
      exact ⟨by rw [openings, inners], rfl⟩

theorem unique_unary (primary : Unique .primary size)
    (operands : ∀ smaller < size, Unique .unary smaller) : Unique .unary size := by
  intro first second firstRest secondRest bounded firstFits secondFits _ _ same
  cases firstFits with
  | primary firstFits =>
    cases secondFits with
    | primary secondFits =>
      exact primary first second firstRest secondRest bounded firstFits secondFits trivial
        trivial same
    | signed isSign _ => exact absurd same (firstFits.not_signed isSign)
  | @signed op sign operand isSign fits =>
    cases secondFits with
    | primary secondFits => exact absurd same.symm (secondFits.not_signed isSign)
    | @signed otherOp otherSign other otherIsSign otherFits =>
      simp only [yield, List.cons_append, List.cons.injEq] at same
      obtain ⟨rfl, same⟩ := same
      simp only [yield, List.length_cons] at bounded
      obtain ⟨operands, rests⟩ := operands operand.yield.length (by omega) operand other _ _
        (Nat.le_refl _) fits otherFits trivial trivial same
      rw [isSign] at otherIsSign
      cases otherIsSign
      exact ⟨by rw [operands], rests⟩

theorem unique_binary (below : level < levelCount)
    (tighter : Unique (.binary (level + 1)) size) : Unique (.binary level) size := by
  intro first second firstRest secondRest bounded firstFits secondFits firstEnds secondEnds same
  obtain ⟨head, links, headFits, fit, rfl⟩ := firstFits.chain below
  obtain ⟨otherHead, otherLinks, otherHeadFits, otherFit, rfl⟩ := secondFits.chain below
  rw [Link.yield_attach, Link.yield_attach, List.append_assoc, List.append_assoc] at same
  rw [Link.yield_attach, List.length_append] at bounded
  obtain ⟨heads, same⟩ := tighter head otherHead _ _ (by omega) headFits otherHeadFits
    (Link.ends_tighter fit firstEnds) (Link.ends_tighter otherFit secondEnds) same
  obtain ⟨chains, rests⟩ := Link.unique tighter links otherLinks firstRest secondRest (by omega)
    fit otherFit firstEnds secondEnds same
  exact ⟨by rw [heads, chains], rests⟩

theorem unique_tightest (unary : Unique .unary size) : Unique (.binary levelCount) size := by
  intro first second firstRest secondRest bounded firstFits secondFits _ _ same
  exact unary first second firstRest secondRest bounded firstFits.ofTightest secondFits.ofTightest
    trivial trivial same

theorem unique_conditional (binary : Unique (.binary 0) size)
    (branches : ∀ smaller < size, Unique .conditional smaller) : Unique .conditional size := by
  intro first second firstRest secondRest bounded firstFits secondFits firstEnds secondEnds same
  cases firstFits with
  | plain firstFits =>
    cases secondFits with
    | plain secondFits =>
      exact binary first second firstRest secondRest bounded firstFits secondFits
        firstEnds.binary_of_conditional secondEnds.binary_of_conditional same
    | choice conditionFits asks _ _ _ =>
      simp only [yield, List.append_assoc, List.cons_append] at same
      obtain ⟨_, rfl⟩ := binary _ _ _ _ bounded firstFits conditionFits
        firstEnds.binary_of_conditional (ends_binary_question asks _) same
      exact absurd asks (by simp [firstEnds.2])
  | @choice condition whenTrue whenFalse question colon conditionFits asks trueFits divides
      falseFits =>
      simp only [yield, List.length_append, List.length_cons] at bounded
      cases secondFits with
      | plain secondFits =>
        simp only [yield, List.append_assoc, List.cons_append] at same
        obtain ⟨_, rfl⟩ := binary _ _ _ _ (by omega) conditionFits secondFits
          (ends_binary_question asks _) secondEnds.binary_of_conditional same
        exact absurd asks (by simp [secondEnds.2])
      | @choice _ otherTrue otherFalse _ _ otherFits otherAsks otherTrueFits otherDivides
          otherFalseFits =>
          simp only [yield, List.append_assoc, List.cons_append] at same
          obtain ⟨conditions, same⟩ := binary _ _ _ _ (by omega) conditionFits otherFits
            (ends_binary_question asks _) (ends_binary_question otherAsks _) same
          obtain ⟨questions, same⟩ := List.cons.inj same
          obtain ⟨trues, same⟩ := branches whenTrue.yield.length (by omega) _ _ _ _
            (Nat.le_refl _) trueFits otherTrueFits (ends_conditional_mark divides rfl (by decide) _)
            (ends_conditional_mark otherDivides rfl (by decide) _) same
          obtain ⟨colons, same⟩ := List.cons.inj same
          obtain ⟨falses, rests⟩ := branches whenFalse.yield.length (by omega) _ _ _ _
            (Nat.le_refl _) falseFits otherFalseFits firstEnds secondEnds same
          exact ⟨by rw [conditions, questions, trues, colons, falses], rests⟩

theorem unique_levels (tightest : Unique (.binary levelCount) size) :
    ∀ up ≤ levelCount, Unique (.binary (levelCount - up)) size := by
  intro up
  induction up with
  | zero => exact fun _ => tightest
  | succ up ih =>
    intro bounded
    have below : levelCount - (up + 1) < levelCount := by omega
    have next : levelCount - (up + 1) + 1 = levelCount - up := by omega
    apply unique_binary below
    rw [next]
    exact ih (by omega)

theorem unique_all (size : Nat) : Unique .unary size ∧ Unique .conditional size := by
  induction size using Nat.strongRecOn with
  | ind size ih =>
    have unary : Unique .unary size :=
      unique_unary (unique_primary fun smaller less => (ih smaller less).2)
        fun smaller less => (ih smaller less).1
    have loosest := unique_levels (unique_tightest unary) levelCount (Nat.le_refl _)
    exact ⟨unary, unique_conditional loosest fun smaller less => (ih smaller less).2⟩

/-- **The grammar is unambiguous.** -/
theorem Fits.unique {first second : Tree} (firstFits : Fits .conditional first)
    (secondFits : Fits .conditional second) (same : first.yield = second.yield) :
    first = second :=
  ((unique_all first.yield.length).2 first second [] [] (Nat.le_refl _) firstFits secondFits
    trivial trivial (by rw [same])).1

end Preproc.Condition.Tree

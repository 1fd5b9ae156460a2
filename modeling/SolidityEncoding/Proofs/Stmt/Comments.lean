import SolidityEncoding.Proofs.Composition
import SolidityEncoding.Proofs.Functions.Application
import SolidityEncoding.Proofs.Stmt.Attributes
import SolidityEncoding.Proofs.Text.Lines

/-!
# Comments on lines of their own

The text of a statement with its comments is compared with the text without them, line by line.
Other lines do not look like comments: the text of an expression has no slash
(`Expr.slashFree_render`), and where an attribute has one, its line begins with the word `assert`.
So the text without comments is what is left of the other when the comment lines are dropped,
provided that every comment stays a comment (`Stmt.dropComments_render_iff`).  A comment of one line
does; a line feed ends it, and what follows is dropped only if it looks like a comment again.
-/

namespace SolidityEncoding

open Text

/-! ### Texts without slashes -/

/-- The text has neither a slash nor a line feed. -/
def SlashFree (text : String) : Prop := ∀ c ∈ text.toList, c ≠ '/' ∧ c ≠ '\n'

instance (text : String) : Decidable (SlashFree text) := List.decidableBAll _ text.toList

namespace SlashFree

variable {s t : String}

theorem append_iff : SlashFree (s ++ t) ↔ SlashFree s ∧ SlashFree t := by
  rw [SlashFree, String.toList_append, List.forall_mem_append, SlashFree, SlashFree]

theorem append (hs : SlashFree s) (ht : SlashFree t) : SlashFree (s ++ t) := append_iff.2 ⟨hs, ht⟩

theorem of_isWordChar (h : ∀ c ∈ s.toList, isWordChar c = true) : SlashFree s := by
  intro c hc
  have hword := h c hc
  constructor
  all_goals
    rintro rfl
    exact absurd hword (by decide)

theorem int (value : Int) : SlashFree (toString value) := by
  intro c hc
  have hnumeral := isNumeralChar_of_mem_toString hc
  constructor
  all_goals
    rintro rfl
    exact absurd hnumeral (by decide)

theorem nat (value : Nat) : SlashFree value.repr := int value

theorem enclose (h : SlashFree s) (place strength : Nat) :
    SlashFree (SolidityEncoding.enclose place strength s) := by
  rw [SolidityEncoding.enclose]
  split
  · exact (append (by decide) h).append (by decide)
  · exact h

theorem intercalate {texts : List String} (h : ∀ text ∈ texts, SlashFree text) :
    SlashFree (", ".intercalate texts) := by
  induction texts with
  | nil => decide
  | cons text rest ih =>
    obtain ⟨htext, hrest⟩ := List.forall_mem_cons.1 h
    by_cases hne : rest = []
    · rwa [hne, String.intercalate_singleton]
    · rw [String.intercalate_cons_of_ne_nil hne]
      exact (htext.append (by decide)).append (ih hrest)

end SlashFree

namespace Expr

/-- All identifiers of an expression are rows of word characters. -/
def HasWordNames (e : Expr) : Prop :=
  ∀ name, .ident name ∈ e.nodes → ∀ c ∈ name.toList, isWordChar c = true

theorem HasWordNames.part {e part : Expr} (h : e.HasWordNames)
    (hpart : ∀ node ∈ part.nodes, node ∈ e.nodes) : part.HasWordNames :=
  fun name hname => h name (hpart _ hname)

mutual

/-- Division is written as a word, so that an expression has no slash. -/
theorem slashFree_render : ∀ e : Expr, e.HasWordNames → SlashFree e.render
  | .bool value, _ => by cases value <;> decide
  | .int value, _ => .int value
  | .bv value width, _ => by simp +decide [render, SlashFree.append_iff, SlashFree.nat]
  | .ident name, h => .of_isWordChar (h name List.mem_cons_self)
  | .error, _ => by decide
  | .unary op operand, h => by
    have hop : SlashFree op.symbol := by cases op <;> decide
    have hoperand := slashFree_render operand (h.part fun _ hnode => by simp [hnode])
    exact hop.append (hoperand.enclose _ _)
  | .binary op lhs rhs, h => by
    have hop : SlashFree op.symbol := by cases op <;> decide
    have hlhs := slashFree_render lhs (h.part fun _ hnode => by simp [hnode])
    have hrhs := slashFree_render rhs (h.part fun _ hnode => by simp [hnode])
    simp +decide [render, SlashFree.append_iff, hop, hlhs.enclose, hrhs.enclose]
  | .ite cond thenExpr elseExpr, h => by
    have hcond := slashFree_render cond (h.part fun _ hnode => by simp [hnode])
    have hthen := slashFree_render thenExpr (h.part fun _ hnode => by simp [hnode])
    have helse := slashFree_render elseExpr (h.part fun _ hnode => by simp [hnode])
    simp +decide [render, SlashFree.append_iff, hcond, hthen, helse]
  | .select base index, h => by
    have hbase := slashFree_render base (h.part fun _ hnode => by simp [hnode])
    have hindex := slashFree_render index (h.part fun _ hnode => by simp [hnode])
    simp +decide [render, SlashFree.append_iff, hbase.enclose, hindex]
  | .update base index value, h => by
    have hbase := slashFree_render base (h.part fun _ hnode => by simp [hnode])
    have hindex := slashFree_render index (h.part fun _ hnode => by simp [hnode])
    have hvalue := slashFree_render value (h.part fun _ hnode => by simp [hnode])
    simp +decide [render, SlashFree.append_iff, hbase.enclose, hindex, hvalue]
  | .tuple elements, h => by
    have helements := slashFree_renderAll elements fun name hname => h name (by simp [hname])
    simp +decide [render, SlashFree.append_iff, SlashFree.intercalate helements]
  | .bvUnary op width operand, h => by
    have hname : SlashFree (op.functionName width) :=
      .of_isWordChar fun _ => (BvFunction.unary op width).isWordChar_of_mem_name
    have hoperand := slashFree_render operand (h.part fun _ hnode => by simp [hnode])
    simp +decide [render, SlashFree.append_iff, hname, hoperand]
  | .bvBinary op width lhs rhs, h => by
    have hname : SlashFree (op.functionName width) :=
      .of_isWordChar fun _ => (BvFunction.binary op width).isWordChar_of_mem_name
    have hlhs := slashFree_render lhs (h.part fun _ hnode => by simp [hnode])
    have hrhs := slashFree_render rhs (h.part fun _ hnode => by simp [hnode])
    simp +decide [render, SlashFree.append_iff, hname, hlhs, hrhs]
  | .extend kind source target operand, h => by
    have hname : SlashFree (kind.functionName source target) :=
      .of_isWordChar fun _ => (BvFunction.extension kind source target).isWordChar_of_mem_name
    have hoperand := slashFree_render operand (h.part fun _ hnode => by simp [hnode])
    simp +decide [render, SlashFree.append_iff, hname, hoperand]
  | .extract operand hi lo, h => by
    have hoperand := slashFree_render operand (h.part fun _ hnode => by simp [hnode])
    simp +decide [render, SlashFree.append_iff, hoperand.enclose, SlashFree.nat]

theorem slashFree_renderAll : ∀ es : List Expr,
    (∀ name, .ident name ∈ nodesOfAll es → ∀ c ∈ name.toList, isWordChar c = true) →
      ∀ text ∈ renderAll es, SlashFree text
  | [], _ => nofun
  | e :: rest, h => by
    have hnames := slashFree_render e fun name hname => h name (List.mem_append_left _ hname)
    have hrest := slashFree_renderAll rest fun name hname => h name (List.mem_append_right _ hname)
    exact List.forall_mem_cons.2 ⟨hnames, hrest⟩

end

end Expr

/-! ### Attributes on one line -/

namespace Attribute

/-- The name of an attribute is a row of word characters, and no text of it has a line feed. -/
structure IsOneLine (a : Attribute) : Prop where
  name : a.HasWordName
  texts : ∀ text, .text text ∈ a.args → '\n' ∉ text.toList

theorem not_mem_escapeChar {c : Char} (h : c ≠ '\n') : '\n' ∉ escapeChar c := by
  rw [escapeChar]
  split
  · decide
  split
  · decide
  · exact mt List.mem_singleton.1 h.symm

theorem not_mem_render_arg {arg : AttributeArg}
    (h : ∀ text, arg = .text text → '\n' ∉ text.toList) : '\n' ∉ arg.render.toList := by
  cases arg with
  | int value => exact fun hmem => (SlashFree.int value _ hmem).2 rfl
  | text text =>
    rw [AttributeArg.toList_render_text, List.mem_cons, List.mem_append, List.mem_flatMap]
    rintro (hquote | ⟨c, hc, hescape⟩ | hquote)
    · exact absurd hquote (by decide)
    · refine not_mem_escapeChar (fun hfeed => ?_) hescape
      exact h text rfl (hfeed ▸ hc)
    · exact absurd hquote (by decide)

theorem not_mem_furtherArgs {args : List AttributeArg}
    (h : ∀ text, .text text ∈ args → '\n' ∉ text.toList) : '\n' ∉ furtherArgs args := by
  rw [furtherArgs, List.mem_flatMap]
  rintro ⟨arg, harg, hmem⟩
  have hrender := not_mem_render_arg fun text htext => h text (htext ▸ harg)
  simp [hrender] at hmem

theorem not_mem_argsText {args : List AttributeArg}
    (h : ∀ text, .text text ∈ args → '\n' ∉ text.toList) : '\n' ∉ argsText args := by
  -- the arguments are written alike, whether they are the first or not
  have hfurther := not_mem_furtherArgs h
  cases args with
  | nil => exact List.not_mem_nil
  | cons arg rest => exact fun hmem => hfurther (List.mem_cons_of_mem ',' hmem)

theorem IsOneLine.not_mem_render {a : Attribute} (h : a.IsOneLine) : '\n' ∉ a.render.toList := by
  have hname : '\n' ∉ a.name.toList := fun hmem => absurd (h.name _ hmem) (by decide)
  rw [toList_render]
  simp [hname, not_mem_argsText h.texts]

theorem not_mem_renderAll {attributes : List Attribute} (h : ∀ a ∈ attributes, a.IsOneLine) :
    '\n' ∉ (renderAll attributes).toList := by
  induction attributes with
  | nil => decide
  | cons a rest ih =>
    obtain ⟨ha, hrest⟩ := List.forall_mem_cons.1 h
    rw [toList_renderAll_cons]
    simp [ha.not_mem_render, ih hrest]

end Attribute

/-! ### Lines that are no comments -/

/-- The text of a line that is no comment. -/
structure IsCodeLine (text : String) : Prop where
  oneLine : '\n' ∉ text.toList
  head : ∀ c ∈ (text.toList.dropWhile isBlank).head?, c ≠ '/'

theorem SlashFree.isCodeLine {text : String} (h : SlashFree text) : IsCodeLine text where
  oneLine hmem := (h _ hmem).2 rfl
  head c hc := (h c ((List.dropWhile_sublist _).mem (List.mem_of_mem_head? hc))).1

theorem isCodeLine_assert {attributes : List Attribute} {condition : Expr}
    (hattributes : ∀ a ∈ attributes, a.IsOneLine) (hcondition : condition.HasWordNames) :
    IsCodeLine ("assert " ++ Attribute.renderAll attributes ++ condition.render ++ ";") where
  oneLine := by
    have hrender : '\n' ∉ condition.render.toList :=
      fun hmem => (condition.slashFree_render hcondition _ hmem).2 rfl
    simp [Attribute.not_mem_renderAll hattributes, hrender]
  head := by
    intro c hc
    simp only [String.toList_append, List.append_assoc] at hc
    cases hc
    decide

namespace Layout

/-- Lines are indented by blanks and not coloured. -/
structure IsPlain (l : Layout) : Prop where
  colors : l.colors = false
  unit : ∀ c ∈ l.unit.toList, isBlank c = true ∧ c ≠ '\n'

theorem isPlain_ofStyle {style : Style} (h : style.colors = false) (depth : Nat) :
    IsPlain { ofStyle style with depth := depth } where
  colors := h
  unit := by
    show ∀ c ∈ style.indent.unit.toList, isBlank c = true ∧ c ≠ '\n'
    cases style.indent with
    | spaces count => simp +decide [Indent.unit]
    | tabs =>
      intro c hc
      cases List.mem_singleton.1 hc
      decide

theorem IsPlain.deeper {l : Layout} (h : l.IsPlain) : l.deeper.IsPlain := ⟨h.colors, h.unit⟩

theorem IsPlain.margin {l : Layout} (h : l.IsPlain) :
    ∀ c ∈ l.margin.toList, isBlank c = true ∧ c ≠ '\n' := by
  have hunit : ∀ c, l.depth ≠ 0 → c ∈ l.unit.toList → isBlank c = true ∧ c ≠ '\n' :=
    fun c _ hc => h.unit c hc
  simpa [Layout.margin] using hunit

theorem toList_line (l : Layout) (text : String) :
    (l.line text).toList = l.margin.toList ++ (text.toList ++ ['\n']) := by
  simp [line]

end Layout

/-! ### Statements -/

/-- What is left of a text when its comment lines are dropped is another text if every comment stays
one, and otherwise longer. -/
structure Leaves (full plain : String) (stays : Prop) : Prop where
  ended : Ended full.toList
  length_le : plain.toList.length ≤ (dropComments full.toList).length
  eq_iff : dropComments full.toList = plain.toList ↔ stays

namespace Leaves

variable {full full' plain plain' : String} {stays stays' : Prop}

theorem congr (h : Leaves full plain stays) (hiff : stays ↔ stays') : Leaves full plain stays' :=
  ⟨h.ended, h.length_le, h.eq_iff.trans hiff⟩

theorem empty : Leaves "" "" True := ⟨ended_nil, Nat.le_refl _, iff_of_true rfl trivial⟩

theorem append (h : Leaves full plain stays) (h' : Leaves full' plain' stays') :
    Leaves (full ++ full') (plain ++ plain') (stays ∧ stays') where
  ended := by
    rw [String.toList_append]
    exact h.ended.append h'.ended
  length_le := by
    rw [String.toList_append, String.toList_append, dropComments_append h.ended,
      List.length_append, List.length_append]
    exact Nat.add_le_add h.length_le h'.length_le
  eq_iff := by
    rw [String.toList_append, String.toList_append, dropComments_append h.ended, ← h.eq_iff,
      ← h'.eq_iff]
    constructor
    · intro heq
      -- nothing gets shorter, so that the two texts part where the statements do
      have hlength := congrArg List.length heq
      rw [List.length_append, List.length_append] at hlength
      have hle := h.length_le
      have hle' := h'.length_le
      exact List.append_inj heq (by omega)
    · rintro ⟨heq, heq'⟩
      rw [heq, heq']

section

variable {l : Layout} (hl : l.IsPlain)

include hl

theorem line {text : String} (h : IsCodeLine text) : Leaves (l.line text) (l.line text) True := by
  have hrow : '\n' ∉ l.margin.toList ++ text.toList := by
    rw [List.mem_append, not_or]
    exact ⟨fun hmem => (hl.margin _ hmem).2 rfl, h.oneLine⟩
  have hcode : isCommentLine (l.margin.toList ++ text.toList ++ ['\n']) = false := by
    rw [List.append_assoc, isCommentLine_append fun c hc => (hl.margin c hc).1]
    exact isCommentLine_concat_of_head h.head
  have hkept : dropComments (l.line text).toList = (l.line text).toList := by
    rw [Layout.toList_line, ← List.append_assoc]
    exact dropComments_line hrow hcode
  refine ⟨?_, by rw [hkept], iff_of_true hkept trivial⟩
  rw [Layout.toList_line, ← List.append_assoc]
  exact ended_concat _

theorem comment (text : String) : Leaves (l.comment text) "" (StaysComment text) := by
  have htext : (l.comment text).toList =
      l.margin.toList ++ ("// ".toList ++ (text.toList ++ ['\n'])) := by
    rw [Layout.comment, Layout.coloredLine, hl.colors, if_neg (by decide), Layout.toList_line,
      String.toList_append, List.append_assoc]
  refine ⟨?_, Nat.zero_le _, ?_⟩
  · rw [htext, ← List.append_assoc, ← List.append_assoc]
    exact ended_concat _
  · rw [htext]
    exact dropComments_comment_eq_nil_iff (fun c hc => (hl.margin c hc).1)
      (fun hmem => (hl.margin _ hmem).2 rfl) text

end

end Leaves

namespace Stmt

/-- The identifiers of a statement itself are rows of word characters, and so are the names of its
attributes, whose texts have no line feeds. -/
def IsSpelled : Stmt → Prop
  | .assign lhs rhs => lhs.HasWordNames ∧ rhs.HasWordNames
  | .assume condition => condition.HasWordNames
  | .assert condition attributes =>
    condition.HasWordNames ∧ ∀ a ∈ attributes, a.IsOneLine
  | .comment _ => True
  | .branch condition _ _ => ∀ e ∈ condition, e.HasWordNames
  | .block _ => True

/-- Of a list of statements all comments stay comments. -/
def CommentsStay (nodes : List Stmt) : Prop := ∀ text, .comment text ∈ nodes → StaysComment text

theorem isCodeLine_condition {condition : Option Expr} (h : ∀ e ∈ condition, e.HasWordNames) :
    IsCodeLine ("if (" ++ renderCondition condition ++ ") \x7b") := by
  have hcondition : SlashFree (renderCondition condition) := by
    cases condition with
    | none => decide
    | some e => exact e.slashFree_render (h e rfl)
  exact (((by decide : SlashFree "if (").append hcondition).append (by decide)).isCodeLine

theorem isCodeLine_openBrace : IsCodeLine "\x7b" := SlashFree.isCodeLine (by decide)

theorem isCodeLine_closeBrace : IsCodeLine "\x7d" := SlashFree.isCodeLine (by decide)

theorem isCodeLine_else : IsCodeLine "\x7d else \x7b" := SlashFree.isCodeLine (by decide)

variable (style : Style)

mutual

/-- The text of a statement without its comments is what dropping the comment lines leaves, if they
stay comments. -/
theorem leaves_render : ∀ (stmt : Stmt) {l : Layout}, l.IsPlain →
    (∀ node ∈ stmt.nodes, node.IsSpelled) →
      Leaves (stmt.render { style with comments := true } l)
        (stmt.render { style with comments := false } l) (CommentsStay stmt.nodes)
  | .assign lhs rhs, l, hl, h => by
    obtain ⟨hlhs, hrhs⟩ := h _ List.mem_cons_self
    have htext : SlashFree (lhs.render ++ " := " ++ rhs.render ++ ";") := by
      simp +decide [SlashFree.append_iff, lhs.slashFree_render hlhs, rhs.slashFree_render hrhs]
    rw [render, render]
    exact (Leaves.line hl htext.isCodeLine).congr (by simp [CommentsStay])
  | .assume condition, l, hl, h => by
    have hcondition : condition.HasWordNames := h _ List.mem_cons_self
    have htext : SlashFree ("assume " ++ condition.render ++ ";") := by
      simp +decide [SlashFree.append_iff, condition.slashFree_render hcondition]
    rw [render, render]
    exact (Leaves.line hl htext.isCodeLine).congr (by simp [CommentsStay])
  | .assert condition attributes, l, hl, h => by
    obtain ⟨hcondition, hattributes⟩ := h _ List.mem_cons_self
    have hvisible : ∀ a ∈ Attribute.visible style attributes, a.IsOneLine :=
      fun a ha => hattributes a (List.mem_filter.1 ha |>.1)
    rw [render, render]
    exact (Leaves.line hl (isCodeLine_assert hvisible hcondition)).congr (by simp [CommentsStay])
  | .comment text, l, hl, _ => by
    rw [render, render]
    exact (Leaves.comment hl text).congr (by simp [CommentsStay])
  | .branch condition thenBlock elseBlock, l, hl, h => by
    obtain ⟨hcondition, hblocks⟩ := List.forall_mem_cons.1 h
    obtain ⟨hthen, helse⟩ := List.forall_mem_append.1 hblocks
    have hheader := Leaves.line hl (isCodeLine_condition hcondition)
    have hthenBlock := leaves_renderBlock thenBlock hl.deeper hthen
    have helseBlock := leaves_renderElse elseBlock hl helse
    have hclose := Leaves.line hl isCodeLine_closeBrace
    rw [render, render]
    refine (((hheader.append hthenBlock).append helseBlock).append hclose).congr ?_
    simp [CommentsStay, or_imp, forall_and]
  | .block body, l, hl, h => by
    have hopen := Leaves.line hl isCodeLine_openBrace
    have hbody := leaves_renderBlock body hl.deeper (List.forall_mem_cons.1 h).2
    have hclose := Leaves.line hl isCodeLine_closeBrace
    rw [render, render]
    exact ((hopen.append hbody).append hclose).congr (by simp [CommentsStay])

theorem leaves_renderBlock : ∀ (body : List Stmt) {l : Layout}, l.IsPlain →
    (∀ node ∈ nodesOfBlock body, node.IsSpelled) →
      Leaves (renderBlock { style with comments := true } l body)
        (renderBlock { style with comments := false } l body) (CommentsStay (nodesOfBlock body))
  | [], _, _, _ => Leaves.empty.congr (by simp [CommentsStay])
  | stmt :: rest, l, hl, h => by
    obtain ⟨hstmt, hrest⟩ := List.forall_mem_append.1 h
    rw [renderBlock, renderBlock]
    exact ((leaves_render stmt hl hstmt).append (leaves_renderBlock rest hl hrest)).congr
      (by simp [CommentsStay, or_imp, forall_and])

theorem leaves_renderElse : ∀ (body : Option (List Stmt)) {l : Layout}, l.IsPlain →
    (∀ node ∈ nodesOfElse body, node.IsSpelled) →
      Leaves (renderElse { style with comments := true } l body)
        (renderElse { style with comments := false } l body) (CommentsStay (nodesOfElse body))
  | none, _, _, _ => Leaves.empty.congr (by simp [CommentsStay])
  | some body, l, hl, h => by
    have helse := Leaves.line hl isCodeLine_else
    rw [renderElse, renderElse]
    exact (helse.append (leaves_renderBlock body hl.deeper h)).congr (by simp [CommentsStay])

end

/-- The characters of a statement at a depth, with or without comments. -/
def textAt (style : Style) (depth : Nat) (comments : Bool) (stmt : Stmt) : List Char :=
  (stmt.render { style with comments } { Layout.ofStyle style with depth }).toList

/-- The text of a statement without comments is its text with comments without the comment lines, at
every depth and in every style without colours, exactly if every comment stays a comment. -/
theorem dropComments_render_iff {stmt : Stmt} {style : Style} (hcolors : style.colors = false)
    (hspelled : ∀ node ∈ stmt.nodes, node.IsSpelled) (depth : Nat) :
    dropComments (stmt.textAt style depth true) = stmt.textAt style depth false ↔
      ∀ text, .comment text ∈ stmt.nodes → StaysComment text :=
  (leaves_render style stmt (Layout.isPlain_ofStyle hcolors depth) hspelled).eq_iff

/-- The first comment of this branch goes on as a comment after its line feed, the second one does
not. -/
theorem dropComments_render_iff_branch :
    dropComments ((Stmt.branch (some (.ident "paid")) [.comment "of the\n// callee"]
        (some [.comment "not paid\nassume false;"])).textAt .standard 1 true) ≠
      (Stmt.branch (some (.ident "paid")) [.comment "of the\n// callee"]
        (some [.comment "not paid\nassume false;"])).textAt .standard 1 false := by
  intro h
  have hpaid : ∀ c ∈ "paid".toList, isWordChar c = true := List.all_eq_true.1 rfl
  have hspelled : ∀ node ∈ (Stmt.branch (some (.ident "paid")) [.comment "of the\n// callee"]
      (some [.comment "not paid\nassume false;"])).nodes, node.IsSpelled := by
    simpa [IsSpelled, Expr.HasWordNames] using hpaid
  exact absurd ((dropComments_render_iff rfl hspelled 1).1 h "not paid\nassume false;" (by simp))
    (by decide)

/-- Not every comment is dropped with the comment lines: a line feed ends it. -/
theorem not_forall_dropComments_render :
    ¬∀ (stmt : Stmt) (style : Style) (depth : Nat), style.colors = false →
      (∀ node ∈ stmt.nodes, node.IsSpelled) →
        dropComments (stmt.textAt style depth true) = stmt.textAt style depth false := by
  intro h
  have hspelled : ∀ node ∈ (Stmt.comment "see below\nassume false;").nodes, node.IsSpelled := by
    simp [IsSpelled]
  exact absurd (h (.comment "see below\nassume false;") .standard 0 rfl hspelled) (by decide)

/-- Comments of one line each are dropped without a trace. -/
theorem dropComments_render {stmt : Stmt} {style : Style} (hcolors : style.colors = false)
    (hspelled : ∀ node ∈ stmt.nodes, node.IsSpelled) (depth : Nat)
    (hcomments : ∀ text, .comment text ∈ stmt.nodes → '\n' ∉ text.toList) :
    dropComments (stmt.textAt style depth true) = stmt.textAt style depth false :=
  (leaves_render style stmt (Layout.isPlain_ofStyle hcolors depth) hspelled).eq_iff.2
    fun text htext => staysComment_of_not_mem (hcomments text htext)

end Stmt

end SolidityEncoding

import SolidityEncoding.Proofs.Expr.Words

/-!
# Printed expressions are unambiguous

Two expressions have the same text only if they are the same, up to the two ways to write a negative
number (`Expr.render?_eq_iff`).  The texts are read back: `Expr.Reads` says that the reader, at the
text of an expression in front of any other text, goes on as it does after having read the
expression.  It needs that the text after the expression does not bind tighter than the right edge
of the expression (`Stops`), which the parentheses of the printer provide for.
-/

namespace SolidityEncoding

open Text

/-! ### Right edges -/

/-- How tightly something binds that is taken into an expression without parentheses. -/
def Expr.edge : Expr → Nat
  | .ite .. => Strength.conditional
  | .binary op _ _ => op.placeRight
  | .unary .. => Strength.unary
  | .int value => if value < 0 then Strength.unary else Strength.atom
  | _ => Strength.atom

namespace BinaryOp

theorem strength_lt_unary (op : BinaryOp) : op.strength < Strength.unary := by
  cases op <;> decide

theorem strength_le_placeRight (op : BinaryOp) : op.strength ≤ op.placeRight := by
  cases op <;> decide

theorem strength_le_placeLeft (op : BinaryOp) (lhs : Expr) : op.strength ≤ op.placeLeft lhs := by
  cases op with
  | and | or =>
    rw [placeLeft]
    split
    · exact Nat.le_refl _
    · exact Nat.le_succ _
  | add | sub | mul | div | mod => exact Nat.le_refl _
  | _ => exact Nat.le_succ _

theorem logical_le_placeLeft (op : BinaryOp) (lhs : Expr) :
    Strength.logical ≤ op.placeLeft lhs := by
  by_cases h : op = .implies
  · rw [h]
    exact Nat.le_refl Strength.logical
  · have hstrength : Strength.logical ≤ op.strength := by
      cases op <;> first | decide | exact absurd rfl h
    exact Nat.le_trans hstrength (op.strength_le_placeLeft lhs)

end BinaryOp

theorem UnaryOp.unary_le_place (op : UnaryOp) (operand : Expr) :
    Strength.unary ≤ op.place operand := by
  cases op with
  | not => exact Nat.le_refl _
  | neg =>
    show Strength.unary ≤
      if operand.strength = Strength.unary then Strength.atom else Strength.unary
    split <;> decide

namespace Expr

theorem strength_le_edge (e : Expr) : e.strength ≤ e.edge := by
  cases e with
  | binary op => exact op.strength_le_placeRight
  | select | update | extract => exact Nat.le_succ Strength.postfixed
  | _ => exact Nat.le_refl _

theorem edge_of_postfixed {e : Expr} (h : Strength.postfixed ≤ e.strength) :
    e.edge = Strength.atom := by
  cases e with
  | ite => exact absurd h (show ¬ Strength.postfixed ≤ Strength.conditional by decide)
  | binary op =>
    have hlt := Nat.lt_of_le_of_lt h op.strength_lt_unary
    exact absurd hlt (by decide)
  | unary => exact absurd h (show ¬ Strength.postfixed ≤ Strength.unary by decide)
  | int value =>
    rw [strength] at h
    split at h
    · exact absurd h (by decide)
    · next hneg => exact if_neg hneg
  | _ => rfl

/-- A left operand without parentheses does not take in the operator after it. -/
theorem strength_lt_edge {op : BinaryOp} {lhs : Expr} (h : op.placeLeft lhs ≤ lhs.strength) :
    op.strength < lhs.edge := by
  have hlogical := Nat.le_trans (op.logical_le_placeLeft lhs) h
  have hle := Nat.le_trans (op.strength_le_placeLeft lhs) h
  have hunary := op.strength_lt_unary
  have hatom : op.strength < Strength.atom := Nat.lt_trans hunary (by decide)
  cases lhs with
  | ite => exact absurd hlogical (show ¬ Strength.logical ≤ Strength.conditional by decide)
  | binary other =>
    cases other with
    | implies => exact absurd hlogical (show ¬ Strength.logical ≤ Strength.implication by decide)
    | _ => exact Nat.lt_succ_of_le hle
  | unary => exact hunary
  | int value =>
    rw [edge]
    split
    · exact hunary
    · exact hatom
  | _ => exact hatom

end Expr

/-! ### Texts after an expression -/

theorem boundary_cons {c : Char} (hword : isWordChar c = false) (hparen : c ≠ '(')
    (rest : List Char) : Boundary (c :: rest) := by
  intro d h
  cases h
  exact ⟨hword, hparen⟩

/-- Nothing after an expression is taken in at a place of strength `n`. -/
structure Stops (n : Nat) (rest : List Char) : Prop where
  following : ∀ f cs, following? rest = some (f, cs) → f.strength < n
  boundary : Boundary rest

namespace Stops

variable {n m : Nat} {rest : List Char}

theorem mono (h : Stops n rest) (hle : n ≤ m) : Stops m rest :=
  ⟨fun f cs hf => Nat.lt_of_lt_of_le (h.following f cs hf) hle, h.boundary⟩

theorem of_none (hf : following? rest = none) (hb : Boundary rest) : Stops n rest := by
  refine ⟨?_, hb⟩
  intro f cs h
  rw [hf] at h
  cases h

theorem nil : Stops n [] := of_none rfl nofun

theorem parenthesis : Stops n (')' :: rest) := of_none rfl (boundary_cons rfl (by decide) _)

theorem comma : Stops n (',' :: rest) := of_none rfl (boundary_cons rfl (by decide) _)

theorem closing : Stops n (']' :: rest) := of_none rfl (boundary_cons rfl (by decide) _)

theorem colon : Stops n (':' :: rest) := of_none rfl (boundary_cons rfl (by decide) _)

theorem becomes : Stops n (" := ".toList ++ rest) :=
  of_none rfl (boundary_cons rfl (by decide) _)

theorem thenBranch : Stops n (" then ".toList ++ rest) :=
  of_none rfl (boundary_cons rfl (by decide) _)

theorem elseBranch : Stops n (" else ".toList ++ rest) :=
  of_none rfl (boundary_cons rfl (by decide) _)

theorem operator {op : BinaryOp} (h : op.strength < n) :
    Stops n (" ".toList ++ (op.symbol.toList ++ (" ".toList ++ rest))) := by
  refine ⟨?_, boundary_cons rfl (by decide) _⟩
  intro f cs hf
  rw [following?_operator] at hf
  cases hf
  exact h

theorem bracket : Stops Strength.atom ('[' :: rest) := by
  refine ⟨?_, boundary_cons rfl (by decide) _⟩
  intro f cs hf
  cases hf
  exact Nat.lt_succ_self Strength.postfixed

end Stops

/-! ### Steps of the reader -/

namespace Expr

section Steps

variable {place : Nat} {cs cs' rest : List Char} {e lhs : Expr} {result : Expr × List Char}

theorem gives_read {opening : Opening} (hopening : opening? cs = some (opening, cs'))
    (hoperand : Gives (readOperand · opening cs') (e, rest))
    (hon : Gives (readOn · place e rest) result) : Gives (read · place cs) result := by
  have hstep (steps : Nat) : read (steps + 1) place cs =
      readOperand steps opening cs' >>= fun operand => readOn steps place operand.1 operand.2 := by
    rw [read, hopening]
    rfl
  exact .step hstep (hoperand.bind hon)

theorem gives_readOn_of_stops (h : Stops place rest) (lhs : Expr) :
    Gives (readOn · place lhs rest) (lhs, rest) := by
  have hstep (steps : Nat) : readOn (steps + 1) place lhs rest = some (lhs, rest) := by
    rw [readOn]
    split
    · rfl
    · next f cs hf => rw [if_neg (Nat.not_le.2 (h.following f cs hf))]
  exact .step hstep (.of_eq rfl)

theorem gives_readOn_of_following {f : Following} (hf : following? cs = some (f, cs'))
    (hplace : place ≤ f.strength) (hfollowing : Gives (readFollowing · lhs f cs') (e, rest))
    (hon : Gives (readOn · place e rest) result) : Gives (readOn · place lhs cs) result := by
  have hstep (steps : Nat) : readOn (steps + 1) place lhs cs =
      readFollowing steps lhs f cs' >>= fun read => readOn steps place read.1 read.2 := by
    rw [readOn, hf]
    exact if_pos hplace
  exact .step hstep (hfollowing.bind hon)

end Steps

/-- At the text of an expression in front of another text, the reader goes on as it does after the
expression. -/
def Reads (e : Expr) : Prop :=
  ∀ (place : Nat) (rest : List Char), place ≤ e.strength → Stops e.edge rest →
    ∀ {result : Expr × List Char}, Gives (readOn · place e.norm rest) result →
      Gives (read · place (e.render.toList ++ rest)) result

/-- An expression is read whole in front of a text that does not go on with it. -/
theorem Reads.free {e : Expr} (h : Reads e) {rest : List Char}
    (hstops : Stops Strength.conditional rest) :
    Gives (read · Strength.conditional (e.render.toList ++ rest)) (e.norm, rest) :=
  h Strength.conditional rest (Nat.zero_le _) (hstops.mono (Nat.zero_le _))
    (gives_readOn_of_stops hstops e.norm)

/-! ### Calls and parentheses -/

theorem gives_readArguments {cs rest : List Char} {es : List Expr}
    (h : Gives (readSequence · cs) (es, rest)) : Gives (readArguments · cs) (es, rest) := by
  have hhead : ∀ cs', cs ≠ ')' :: cs' := by
    rintro cs' rfl
    -- no expression begins with a closing parenthesis
    obtain ⟨least, h⟩ := h
    have hread : readSequence (least + 1 + 1) (')' :: cs') = some (es, rest) :=
      h _ (Nat.le_add_right least 2)
    rw [readSequence, read] at hread
    cases hread
  have hstep (steps : Nat) : readArguments (steps + 1) cs = readSequence steps cs := by
    rw [readArguments]
    exact hhead
  exact .step hstep h

theorem gives_readOperand_call {name cs rest : List Char} {es : List Expr} {e : Expr}
    (harguments : Gives (readArguments · cs) (es, rest)) (hcall : call? name es = some e) :
    Gives (readOperand · (.call name) cs) (e, rest) := by
  refine .step (fun _ => rfl) (harguments.bind (.of_eq ?_))
  dsimp only
  rw [hcall]
  rfl

/-- A call is read if its arguments are. -/
theorem gives_read_call {name cs rest : List Char} {es : List Expr} {e : Expr} {place : Nat}
    {result : Expr × List Char} (hname : ∀ c ∈ name, isWordChar c = true)
    (harguments : Gives (readArguments · cs) (es, rest)) (hcall : call? name es = some e)
    (hon : Gives (readOn · place e rest) result) :
    Gives (read · place (name ++ '(' :: cs)) result :=
  gives_read (opening?_call hname cs) (gives_readOperand_call harguments hcall) hon

theorem gives_readSequence_singleton {e : Expr} (h : Reads e) (rest : List Char) :
    Gives (readSequence · (e.render.toList ++ ')' :: rest)) ([e.norm], rest) :=
  .step (fun _ => rfl) ((h.free .parenthesis).bind (.of_eq rfl))

theorem gives_readSequence_cons {e : Expr} {es : List Expr} {cs rest : List Char} (h : Reads e)
    (hrest : Gives (readSequence · cs) (es, rest)) :
    Gives (readSequence · (e.render.toList ++ (", ".toList ++ cs))) (e.norm :: es, rest) := by
  refine .step (fun _ => rfl) ((h.free .comma).bind ?_)
  exact hrest.bind (.of_eq rfl)

theorem toList_enclose (place strength : Nat) (text : String) :
    (enclose place strength text).toList =
      if strength < place then '(' :: (text.toList ++ [')']) else text.toList := by
  rw [enclose]
  split
  · simp
  · rfl

/-- An operand is read at its place, with or without parentheses. -/
theorem Reads.enclosed {e : Expr} (h : Reads e) {place n : Nat} (hle : place ≤ n)
    {rest : List Char} (hstops : n ≤ e.strength → Stops e.edge rest) {result : Expr × List Char}
    (hon : Gives (readOn · place e.norm rest) result) :
    Gives (read · place ((enclose n e.strength e.render).toList ++ rest)) result := by
  rw [toList_enclose]
  by_cases hlt : e.strength < n
  · have harguments := gives_readArguments (gives_readSequence_singleton h rest)
    rw [if_pos hlt, List.cons_append, List.append_assoc]
    exact gives_read_call (List.forall_mem_nil _) harguments rfl hon
  · have hn := Nat.not_lt.1 hlt
    rw [if_neg hlt]
    exact h place rest (Nat.le_trans hle hn) (hstops hn) hon

/-! ### Leaves -/

theorem reads_of_leaf {e : Expr} (hword : ∀ c ∈ e.render.toList, isWordChar c = true)
    (hleaf : leaf? e.render.toList = some e.norm) (hif : e.norm ≠ .ident "if") : Reads e := by
  intro place rest _ hstops result hon
  have hopening := opening?_leaf hword hleaf hif hstops.boundary
  have hoperand : Gives (readOperand · (.leaf e.norm) rest) (e.norm, rest) :=
    .step (fun _ => rfl) (.of_eq rfl)
  exact gives_read hopening hoperand hon

theorem reads_bool (value : Bool) : Reads (.bool value) := by
  cases value
  all_goals exact reads_of_leaf (List.all_eq_true.1 rfl) rfl nofun

theorem reads_error : Reads .error := reads_of_leaf (List.all_eq_true.1 rfl) rfl nofun

theorem reads_ident {name : String} (h : isIdentifier name = true) : Reads (.ident name) := by
  obtain ⟨hword, -, hreserved⟩ := isIdentifier_iff.1 h
  refine reads_of_leaf hword (leaf?_ident h) ?_
  intro heq
  cases heq
  exact hreserved (by decide)

theorem reads_ofNat (n : Nat) : Reads (.int n) := by
  refine reads_of_leaf (fun _ => isWordChar_of_mem_toString) ?_ ?_
  · rw [norm_ofNat]
    exact leaf?_toString n
  · rw [norm_ofNat]
    nofun

theorem gives_read_number (n : Nat) {rest : List Char} (hstops : Stops Strength.conditional rest) :
    Gives (read · Strength.conditional ((toString n).toList ++ rest)) (.int n, rest) := by
  have h := (reads_ofNat n).free hstops
  rwa [norm_ofNat] at h

theorem reads_bv (value : Nat) (width : UInt32) : Reads (.bv value width) := by
  have htext : (Expr.bv value width).render.toList =
      (toString value).toList ++ 'b' :: 'v' :: (toString width.toNat).toList := by
    simp [render]
  refine reads_of_leaf ?_ ?_ nofun
  · intro c hc
    rw [htext] at hc
    simp only [List.mem_append, List.mem_cons] at hc
    rcases hc with h | rfl | rfl | h
    · exact isWordChar_of_mem_toString h
    · decide
    · decide
    · exact isWordChar_of_mem_toString h
  · rw [htext]
    exact leaf?_bv value width

/-! ### Operators -/

/-- An enclosed operand is read whole in front of a text that does not go on with it. -/
theorem Reads.operand {e : Expr} (h : Reads e) {place n : Nat} (hle : place ≤ n)
    {rest : List Char} (hstops : Stops place rest) :
    Gives (read · place ((enclose n e.strength e.render).toList ++ rest)) (e.norm, rest) := by
  have hedge (hn : n ≤ e.strength) : Stops e.edge rest :=
    hstops.mono (Nat.le_trans hle (Nat.le_trans hn e.strength_le_edge))
  exact h.enclosed hle hedge (gives_readOn_of_stops hstops e.norm)

theorem reads_unary {op : UnaryOp} {operand : Expr} (h : Reads operand) :
    Reads (.unary op operand) := by
  intro place rest _ hstops result hon
  have hplace := op.unary_le_place operand
  rw [render, String.toList_append, List.append_assoc]
  refine gives_read (opening?_unary op _) ?_ hon
  exact .step (fun _ => rfl) ((h.operand hplace hstops).bind (.of_eq rfl))

/-- A negative literal is read as the negation that has the same text. -/
theorem reads_int : ∀ value : Int, Reads (.int value)
  | .ofNat n => reads_ofNat n
  | .negSucc n => by
    intro place rest hplace hstops result hon
    have hnorm := norm_negSucc n
    have hedge : (Expr.int (Int.negSucc n)).edge = Strength.unary := if_pos (Int.negSucc_lt_zero n)
    rw [← strength_norm, hnorm] at hplace
    rw [hedge] at hstops
    rw [hnorm] at hon
    rw [← render_norm, hnorm]
    refine reads_unary (reads_ofNat (n + 1)) place rest hplace hstops ?_
    rwa [norm, norm_ofNat]

theorem reads_binary {op : BinaryOp} {lhs rhs : Expr} (hl : Reads lhs) (hr : Reads rhs) :
    Reads (.binary op lhs rhs) := by
  intro place rest hplace hstops result hon
  have hright := hr.operand (Nat.le_refl op.placeRight) hstops
  have hfollowing : Gives (readFollowing · lhs.norm (.operator op)
      ((enclose op.placeRight rhs.strength rhs.render).toList ++ rest))
        (.binary op lhs.norm rhs.norm, rest) :=
    .step (fun _ => rfl) (hright.bind (.of_eq rfl))
  have hleft : place ≤ op.placeLeft lhs := Nat.le_trans hplace (op.strength_le_placeLeft lhs)
  rw [render]
  simp only [String.toList_append, List.append_assoc]
  refine hl.enclosed hleft (fun h => .operator (strength_lt_edge h)) ?_
  exact gives_readOn_of_following (following?_operator op _) hplace hfollowing hon

/-! ### Conditionals -/

theorem reads_ite {cond thenExpr elseExpr : Expr} (hc : Reads cond) (ht : Reads thenExpr)
    (he : Reads elseExpr) : Reads (.ite cond thenExpr elseExpr) := by
  intro place rest _ hstops result hon
  rw [render]
  simp only [String.toList_append, List.append_assoc]
  refine gives_read (opening?_conditional _) (.step (fun _ => rfl) ?_) hon
  refine (hc.free .thenBranch).bind (.bind (.of_eq rfl) ?_)
  refine (ht.free .elseBranch).bind (.bind (.of_eq rfl) ?_)
  exact (he.free hstops).bind (.of_eq rfl)

/-! ### Brackets -/

section Brackets

variable {base : Expr} (hb : Reads base)

include hb

/-- A base is read at its place, and then what is in the brackets after it. -/
theorem gives_read_bracket {cs rest : List Char} {place : Nat} {e : Expr}
    {result : Expr × List Char} (hplace : place ≤ Strength.postfixed)
    (hfollowing : Gives (readFollowing · base.norm .bracket cs) (e, rest))
    (hon : Gives (readOn · place e rest) result) :
    Gives (read · place
      ((enclose Strength.postfixed base.strength base.render).toList ++ '[' :: cs)) result := by
  have hstops (h : Strength.postfixed ≤ base.strength) : Stops base.edge ('[' :: cs) := by
    rw [edge_of_postfixed h]
    exact .bracket
  exact hb.enclosed hplace hstops (gives_readOn_of_following rfl hplace hfollowing hon)

theorem reads_select {index : Expr} (hi : Reads index) : Reads (.select base index) := by
  intro place rest hplace _ result hon
  have hfollowing : Gives (readFollowing · base.norm .bracket (index.render.toList ++ ']' :: rest))
      (.select base.norm index.norm, rest) :=
    .step (fun _ => rfl) ((hi.free .closing).bind (.of_eq rfl))
  rw [render]
  simp only [String.toList_append, List.append_assoc]
  exact gives_read_bracket hb hplace hfollowing hon

theorem reads_update {index value : Expr} (hi : Reads index) (hv : Reads value) :
    Reads (.update base index value) := by
  intro place rest hplace _ result hon
  have hfollowing : Gives (readFollowing · base.norm .bracket
      (index.render.toList ++ (" := ".toList ++ (value.render.toList ++ ']' :: rest))))
        (.update base.norm index.norm value.norm, rest) := by
    refine .step (fun _ => rfl) ((hi.free .becomes).bind (.bind (.of_eq rfl) ?_))
    exact (hv.free .closing).bind (.of_eq rfl)
  rw [render]
  simp only [String.toList_append, List.append_assoc]
  exact gives_read_bracket hb hplace hfollowing hon

theorem reads_extract (hi lo : UInt32) : Reads (.extract base hi lo) := by
  intro place rest hplace _ result hon
  have hbounds : some (Expr.extract base.norm (((hi.toNat + 1 : Nat) : Int).toNat - 1).toUInt32
      ((lo.toNat : Nat) : Int).toNat.toUInt32, rest) = some (.extract base.norm hi lo, rest) := by
    show some (Expr.extract base.norm (UInt32.ofNat hi.toNat) (UInt32.ofNat lo.toNat), rest) = _
    rw [UInt32.ofNat_toNat, UInt32.ofNat_toNat]
  have hfollowing : Gives (readFollowing · base.norm .bracket
      ((toString (hi.toNat + 1)).toList ++ ':' :: ((toString lo.toNat).toList ++ ']' :: rest)))
        (.extract base.norm hi lo, rest) := by
    refine .step (fun _ => rfl) ((gives_read_number _ .colon).bind (.bind (.of_eq rfl) ?_))
    refine (gives_read_number _ .closing).bind (.bind (.of_eq rfl) (.bind (.of_eq rfl) ?_))
    exact .of_eq hbounds
  rw [render]
  simp only [String.toList_append, List.append_assoc]
  exact gives_read_bracket hb hplace hfollowing hon

end Brackets

/-! ### Functions and tuples -/

/-- The application of a function is read if its arguments are. -/
theorem gives_read_application (f : BvFunction) {cs rest : List Char} {es : List Expr} {e : Expr}
    {place : Nat} {result : Expr × List Char} (harguments : Gives (readSequence · cs) (es, rest))
    (happly : f.applied? es = some e) (hon : Gives (readOn · place e rest) result) :
    Gives (read · place (f.name.toList ++ '(' :: cs)) result :=
  gives_read_call (fun _ => f.isWordChar_of_mem_name) (gives_readArguments harguments)
    ((f.call?_name es).trans happly) hon

theorem reads_bvUnary {op : BvUnaryOp} {width : UInt32} {operand : Expr} (h : Reads operand) :
    Reads (.bvUnary op width operand) := by
  intro place rest _ _ result hon
  rw [render]
  simp only [String.toList_append, List.append_assoc]
  exact gives_read_application (.unary op width) (gives_readSequence_singleton h rest) rfl hon

theorem reads_bvBinary {op : BvBinaryOp} {width : UInt32} {lhs rhs : Expr} (hl : Reads lhs)
    (hr : Reads rhs) : Reads (.bvBinary op width lhs rhs) := by
  intro place rest _ _ result hon
  rw [render]
  simp only [String.toList_append, List.append_assoc]
  exact gives_read_application (.binary op width)
    (gives_readSequence_cons hl (gives_readSequence_singleton hr rest)) rfl hon

theorem reads_extend {kind : Extension} {source target : UInt32} {operand : Expr}
    (h : Reads operand) : Reads (.extend kind source target operand) := by
  intro place rest _ _ result hon
  rw [render]
  simp only [String.toList_append, List.append_assoc]
  exact gives_read_application (.extension kind source target)
    (gives_readSequence_singleton h rest) rfl hon

/-- The elements of a tuple are read one after the other. -/
theorem gives_readSequence_renderAll (rest : List Char) : ∀ es : List Expr, es ≠ [] →
    (∀ e ∈ es, Reads e) →
    Gives (readSequence · ((", ".intercalate (renderAll es)).toList ++ ')' :: rest))
      (normAll es, rest)
  | [], hne, _ => absurd rfl hne
  | [e], _, h => by
    rw [renderAll, renderAll, String.intercalate_singleton]
    exact gives_readSequence_singleton (h e List.mem_cons_self) rest
  | e :: e' :: es, _, h => by
    have hfirst := h e List.mem_cons_self
    have hrest := gives_readSequence_renderAll rest (e' :: es) (List.cons_ne_nil e' es)
      fun e he => h e (List.mem_cons_of_mem _ he)
    have hne : renderAll (e' :: es) ≠ [] := List.cons_ne_nil e'.render (renderAll es)
    rw [renderAll, String.intercalate_cons_of_ne_nil hne]
    simp only [String.toList_append, List.append_assoc]
    exact gives_readSequence_cons hfirst hrest

theorem reads_tuple {elements : List Expr} (hlength : elements.length ≠ 1)
    (h : ∀ e ∈ elements, Reads e) : Reads (.tuple elements) := by
  intro place rest _ _ result hon
  have hname : ∀ c ∈ ([] : List Char), isWordChar c = true := nofun
  rw [render]
  simp only [String.toList_append, List.append_assoc]
  cases elements with
  | nil =>
    have harguments : Gives (readArguments · (')' :: rest)) ([], rest) :=
      .step (fun _ => rfl) (.of_eq rfl)
    exact gives_read_call hname harguments rfl hon
  | cons e es =>
    have hsequence := gives_readSequence_renderAll rest (e :: es) (List.cons_ne_nil e es) h
    have hcall : call? [] (normAll (e :: es)) = some (.tuple (normAll (e :: es))) := by
      cases es with
      | nil => exact absurd rfl hlength
      | cons => rfl
    exact gives_read_call hname (gives_readArguments hsequence) hcall hon

/-! ### Unambiguity -/

mutual

/-- The text of every readable expression is read back. -/
theorem reads_of_isReadable : ∀ e : Expr, e.isReadable = true → Reads e
  | .bool value, _ => reads_bool value
  | .int value, _ => reads_int value
  | .bv value width, _ => reads_bv value width
  | .ident _, h => reads_ident h
  | .error, _ => reads_error
  | .unary _ operand, h => reads_unary (reads_of_isReadable operand h)
  | .binary _ lhs rhs, h => by
    rw [isReadable, Bool.and_eq_true] at h
    exact reads_binary (reads_of_isReadable lhs h.1) (reads_of_isReadable rhs h.2)
  | .ite cond thenExpr elseExpr, h => by
    rw [isReadable, Bool.and_eq_true, Bool.and_eq_true] at h
    exact reads_ite (reads_of_isReadable cond h.1.1) (reads_of_isReadable thenExpr h.1.2)
      (reads_of_isReadable elseExpr h.2)
  | .select base index, h => by
    rw [isReadable, Bool.and_eq_true] at h
    exact reads_select (reads_of_isReadable base h.1) (reads_of_isReadable index h.2)
  | .update base index value, h => by
    rw [isReadable, Bool.and_eq_true, Bool.and_eq_true] at h
    exact reads_update (reads_of_isReadable base h.1.1) (reads_of_isReadable index h.1.2)
      (reads_of_isReadable value h.2)
  | .tuple elements, h => by
    rw [isReadable, Bool.and_eq_true, bne_iff_ne] at h
    exact reads_tuple h.1 (reads_of_allReadable elements h.2)
  | .bvUnary _ _ operand, h => reads_bvUnary (reads_of_isReadable operand h)
  | .bvBinary _ _ lhs rhs, h => by
    rw [isReadable, Bool.and_eq_true] at h
    exact reads_bvBinary (reads_of_isReadable lhs h.1) (reads_of_isReadable rhs h.2)
  | .extend _ _ _ operand, h => reads_extend (reads_of_isReadable operand h)
  | .extract operand hi lo, h => by
    rw [isReadable, Bool.and_eq_true] at h
    exact reads_extract (reads_of_isReadable operand h.1) hi lo

theorem reads_of_allReadable : ∀ es : List Expr, allReadable es = true → ∀ e ∈ es, Reads e
  | [], _ => nofun
  | e :: rest, h => by
    rw [allReadable, Bool.and_eq_true] at h
    intro e' he'
    rcases List.mem_cons.1 he' with heq | hrest
    · rw [heq]
      exact reads_of_isReadable e h.1
    · exact reads_of_allReadable rest h.2 e' hrest

end

/-- The whole text of a readable expression is read as its normal form. -/
theorem gives_read_render {e : Expr} (h : e.isReadable = true) :
    Gives (read · Strength.conditional e.render.toList) (e.norm, []) := by
  have hread := (reads_of_isReadable e h).free (Stops.nil)
  rwa [List.append_nil] at hread

/-- Printed expressions are unambiguous: two readable expressions have the same text exactly if they
have the same normal form. -/
theorem render?_eq_iff {e₁ e₂ : Expr} (h₁ : e₁.isReadable = true) (h₂ : e₂.isReadable = true) :
    e₁.render? = e₂.render? ↔ e₁.norm = e₂.norm := by
  have htext {e : Expr} (h : e.isReadable = true) : e.render? = some e.render :=
    if_pos (isPrintable_of_isReadable e h)
  rw [htext h₁, htext h₂, Option.some_inj]
  constructor
  · intro h
    have hread := gives_read_render h₁
    rw [h] at hread
    exact congrArg Prod.fst (hread.unique (gives_read_render h₂))
  · intro h
    rw [← render_norm e₁, h, render_norm e₂]

/-- A negative literal and the negation of its magnitude have the same text; two groupings of a
conjunction and a disjunction have not. -/
theorem render?_eq_iff_literal_and_grouping :
    let cell (index : Expr) := Expr.select (.ident "cells") (.binary .sub (.ident "x") index)
    let both := Expr.binary .and (.ident "a") (.binary .or (.ident "b") (.ident "c"))
    let either := Expr.binary .or (.binary .and (.ident "a") (.ident "b")) (.ident "c")
    ((cell (.int (-5))).isReadable = true ∧ (cell (.unary .neg (.int 5))).isReadable = true ∧
      (cell (.int (-5))).render? = (cell (.unary .neg (.int 5))).render?) ∧
    (both.isReadable = true ∧ either.isReadable = true ∧ both.render? ≠ either.render?) := by
  intro cell both either
  have hliteral : (cell (.int (-5))).isReadable = true := by decide
  have hnegation : (cell (.unary .neg (.int 5))).isReadable = true := by decide
  have hboth : both.isReadable = true := by decide
  have heither : either.isReadable = true := by decide
  refine ⟨⟨hliteral, hnegation, ?_⟩, ⟨hboth, heither, ?_⟩⟩
  · exact (render?_eq_iff hliteral hnegation).2 rfl
  · intro h
    have hnorm := (render?_eq_iff hboth heither).1 h
    cases hnorm

end Expr

end SolidityEncoding

import Mathlib.Logic.Relation
import SolidityEncoding.Proofs.Functions.Program

/-!
# All functions of a run are declared

A run is a sequence of requests to one session: to encode operations and to convert expressions.
The operands of a request may be built from earlier results, but apply no bitvector functions
besides.  Then every function that a result applies is declared, once and as the printer and the
typing rules say (`Transcript.functions_declared`).

One request keeps this (`Transcript.Step.declared`), and so does every run
(`Transcript.declared_of_run`).
-/

namespace SolidityEncoding

open Session

/-! ### Requests -/

/-- What a session is asked for: to encode an operation, or to convert an expression. -/
inductive Request where
  | binary (op : SourceBinaryOp) (shape : Shape) (lhs rhs : Expr) (node : Option NodeId)
  | unary (op : SourceUnaryOp) (shape : Shape) (operand : Expr) (node : Option NodeId)
  | implicit (e : Expr) (source target : SourceType)
  | explicit (e : Expr) (source target : Option SourceType)

namespace Request

/-- The expressions that a request is about. -/
def operands : Request → List Expr
  | .binary _ _ lhs rhs _ => [lhs, rhs]
  | .unary _ _ operand _ => [operand]
  | .implicit e _ _ => [e]
  | .explicit e _ _ => [e]

/-- The result of a conversion; none if it is refused. -/
def converted (conversion : Convert Expr) : Encode (List Expr) := do
  return (← conversion.run).toOption.toList

/-- The value and the condition of an encoded operation. -/
def encoded (operation : Encode Encoded) : Encode (List Expr) := do
  let encoded ← operation
  return encoded.value :: encoded.condition.toList

/-- All expressions that a request returns. -/
def answer : Request → Encode (List Expr)
  | .binary op shape lhs rhs node => encoded (op.encode shape lhs rhs node)
  | .unary op shape operand node => encoded (op.encode shape operand node)
  | .implicit e source target => converted (implicitConversion e source target)
  | .explicit e source target => converted (explicitConversion e source target)

variable {s : Session}

theorem registers_encoded {operation : Encode Encoded}
    (h : s.Registers operation CoversEncoded) :
    s.Registers (encoded operation) fun s' results => ∀ r ∈ results, s'.Covers r := by
  refine h.bind fun encoded s' hs' _ hencoded => .pure hs' ?_
  refine List.forall_mem_cons.2 ⟨hencoded.value, fun condition hcondition => ?_⟩
  exact hencoded.condition condition (Option.mem_toList.1 hcondition)

theorem registers_converted {conversion : Convert Expr} (h : s.Converts conversion Covers) :
    s.Registers (converted conversion) fun s' results => ∀ r ∈ results, s'.Covers r := by
  refine Registers.bind h fun result s' hs' _ hresult => .pure hs' ?_
  cases result with
  | error error => exact nofun
  | ok r => exact List.forall_mem_singleton.2 (hresult r rfl)

/-- Whatever a request returns only applies declared functions if its operands do. -/
theorem registers_answer (hs : s.Registered) (request : Request)
    (h : ∀ operand ∈ request.operands, s.Covers operand) :
    s.Registers request.answer fun s' results => ∀ r ∈ results, s'.Covers r := by
  cases request with
  | binary op shape lhs rhs node =>
    obtain ⟨hl, hr, -⟩ := List.forall_mem_cons.1 h |>.imp_right List.forall_mem_cons.1
    exact registers_encoded (op.registers_encode hs shape node hl hr)
  | unary op shape operand node =>
    have hoperand := List.forall_mem_singleton.1 h
    exact registers_encoded (op.registers_encode hs shape node hoperand)
  | implicit e source target =>
    have he := List.forall_mem_singleton.1 h
    exact registers_converted (converts_implicitConversion target s hs source e he)
  | explicit e source target =>
    have he := List.forall_mem_singleton.1 h
    exact registers_converted (converts_explicitConversion hs he source target)

end Request

/-! ### Runs -/

/-- A session, with all expressions that it has returned. -/
structure Transcript where
  session : Session
  results : List Expr

namespace Transcript

/-- Nothing has been asked for yet. -/
def start (config : EncodingConfig) : Transcript := ⟨Session.start config, []⟩

/-- One more request is answered. -/
def after (t : Transcript) (request : Request) : Transcript where
  session := (request.answer.run t.session).2
  results := t.results ++ (request.answer.run t.session).1

/-- A request follows whose operands apply no functions but those of the results so far. -/
inductive Step (t : Transcript) : Transcript → Prop where
  | request (request : Request)
    (h : ∀ operand ∈ request.operands,
      operand.AppliesOnly fun f => ∃ r ∈ t.results, r.Applies f) :
    Step t (t.after request)

/-- All functions of the results are declared. -/
structure Declared (t : Transcript) : Prop where
  registered : t.session.Registered
  covers : ∀ r ∈ t.results, t.session.Covers r

theorem declared_start (config : EncodingConfig) : (start config).Declared :=
  ⟨registered_start config, nofun⟩

theorem Step.declared {t t' : Transcript} (h : Step t t') (ht : t.Declared) :
    t'.Declared ∧ t.session.Grows t'.session := by
  obtain ⟨request, hoperands⟩ := h
  have hcovers : ∀ operand ∈ request.operands, t.session.Covers operand := by
    intro operand hoperand f hf
    obtain ⟨r, hr, happlies⟩ := hoperands operand hoperand f hf
    exact ht.covers r hr f happlies
  have hanswer := request.registers_answer ht.registered hcovers
  refine ⟨⟨hanswer.registered, fun r hr => ?_⟩, hanswer.grows⟩
  rcases List.mem_append.1 hr with hr | hr
  · exact hanswer.grows.covers (ht.covers r hr)
  · exact hanswer.result r hr

/-- What one request keeps, a run keeps. -/
theorem declared_of_run {t t' : Transcript} (h : Relation.ReflTransGen Step t t')
    (ht : t.Declared) : t'.Declared ∧ t.session.Grows t'.session := by
  induction h with
  | refl => exact ⟨ht, .refl t.session⟩
  | tail _ hstep ih =>
    have hnext := hstep.declared ih.1
    exact ⟨hnext.1, ih.2.trans hnext.2⟩

end Transcript

/-! ### Declarations -/

namespace Session

/-- A session declares what the nodes of an expression apply: there is one declaration of the name
that is printed for a node, and it describes the node. -/
def DeclaresNodes (s : Session) (e : Expr) : Prop :=
  ∀ node ∈ e.nodes, ∀ f operands, node.application? = some (f, operands) →
    ∃ decl, s.builtins.values.filter (·.name = f.name) = [decl] ∧ decl.Describes node f operands

theorem Registered.declaresNodes {s : Session} (hs : s.Registered) {e : Expr} (he : s.Covers e) :
    s.DeclaresNodes e := by
  intro node hnode f operands hf
  obtain ⟨decl, hdecl, hfilter⟩ := hs.filter_values (he f ⟨node, hnode, operands, hf⟩)
  exact ⟨decl, hfilter, BvFunction.describes_declaration hf hdecl⟩

/-- Where nothing is declared, nothing is applied. -/
theorem application?_of_covers {s : Session} (hempty : s.builtins = .empty) {e : Expr}
    (he : s.Covers e) {node : Expr} (hnode : node ∈ e.nodes) : node.application? = none := by
  rcases hf : node.application? with _ | ⟨f, operands⟩
  · rfl
  · obtain ⟨decl, -, hfind⟩ := he f ⟨node, hnode, operands, hf⟩
    rw [hempty] at hfind
    cases hfind

end Session

namespace Transcript

/-- All functions of a run are declared.  After every run of requests from the start, the functions
that the results apply are declared, once and correctly; only the bitvector encoding has any; and a
run that goes on leaves all declarations at their places.  The transfer procedures that are
generated then apply only declared functions too, and together with all declarations they make up a
program. -/
theorem functions_declared {config : EncodingConfig} {t : Transcript}
    (h : Relation.ReflTransGen Step (start config) t) :
    (∀ r ∈ t.results, t.session.DeclaresNodes r) ∧
    (config.encoding ≠ .bitvector → t.session.builtins = .empty ∧
      ∀ r ∈ t.results, ∀ node ∈ r.nodes, node.application? = none) ∧
    (∀ t', Relation.ReflTransGen Step t t' →
      t.session.builtins.entries <+: t'.session.builtins.entries) ∧
    ∃ procedures s', Transfer.all.run t.session = (procedures, s') ∧
      procedures.map Procedure.name = [Reserved.transfer, Reserved.send, Reserved.call] ∧
      t.session.builtins.entries <+: s'.builtins.entries ∧
      (∀ r ∈ t.results, s'.DeclaresNodes r) ∧
      (∀ p ∈ procedures, ∀ e ∈ Stmt.exprsOfBlock p.body, s'.DeclaresNodes e) ∧
      ∃ program, Program.empty.addAll (config.encoding.preludeDecls ++ s'.builtinDecls ++
          procedures.map .procedure) = .ok program ∧
        program.decls.values =
          config.encoding.preludeDecls ++ s'.builtinDecls ++ procedures.map .procedure := by
  obtain ⟨ht, hgrows⟩ := declared_of_run h (declared_start config)
  have hencoding : t.session.encoding = config.encoding := hgrows.encoding
  have hall := Transfer.registers_all ht.registered
  obtain ⟨hnames, hprocedures⟩ := hall.result
  obtain ⟨program, hadd, hvalues⟩ := hall.registered.exists_program hnames
  rw [hall.grows.encoding, hencoding] at hadd hvalues
  refine ⟨fun r hr => ht.registered.declaresNodes (ht.covers r hr), ?_, ?_, ?_⟩
  · intro hne
    have hempty := ht.registered.empty (hencoding ▸ hne)
    exact ⟨hempty, fun r hr node => application?_of_covers hempty (ht.covers r hr)⟩
  · exact fun t' h' => (declared_of_run h' ht).2.entries
  · refine ⟨_, _, rfl, hnames, hall.grows.entries, fun r hr => ?_, fun p hp e he => ?_, program,
      hadd, hvalues⟩
    · exact hall.registered.declaresNodes (hall.grows.covers (ht.covers r hr))
    · exact hall.registered.declaresNodes (hprocedures p hp e he)

/-- A sum of bytes is encoded and then converted as the first component of a tuple whose second
component is refused: the extension that the first component needed stays declared. -/
theorem functions_declared_refused_tuple :
    let sum : Request := .binary .add ⟨8, false⟩ (.ident "x") (.ident "y") none
    let value : Expr := .bvBinary .add 8 (.ident "x") (.ident "y")
    let tuple : Request := .implicit (.tuple [value, .ident "z"])
      (.tuple [some (.uint 8), some (.uint 16)]) (.tuple [some (.uint 16), some (.uint 8)])
    let t := ((start ⟨.bitvector, true⟩).after sum).after tuple
    t.results = [value] ∧
      t.session.builtins.names = ["bvadd8", "bvzeroext_8_to_16"] ∧
      ∃ decl, t.session.builtins.values.filter (·.name = "bvadd8") = [decl] ∧
        decl.Describes value (.binary .add 8) [.ident "x", .ident "y"] := by
  intro sum value tuple t
  have hresults : t.results = [value] := rfl
  have hsum : Step (start ⟨.bitvector, true⟩) ((start ⟨.bitvector, true⟩).after sum) :=
    .request sum (List.forall_mem_cons.2
      ⟨Expr.appliesOnly_ident "x", List.forall_mem_singleton.2 (Expr.appliesOnly_ident "y")⟩)
  have htuple : Step ((start ⟨.bitvector, true⟩).after sum) t := by
    refine .request tuple (List.forall_mem_singleton.2 (Expr.appliesOnly_tuple.2 ?_))
    refine List.forall_mem_cons.2 ⟨fun f hf => ⟨value, List.mem_singleton_self value, hf⟩, ?_⟩
    exact List.forall_mem_singleton.2 (Expr.appliesOnly_ident "z")
  have hrun : Relation.ReflTransGen Step (start ⟨.bitvector, true⟩) t :=
    (Relation.ReflTransGen.single hsum).tail htuple
  have hvalue := (functions_declared hrun).1 value (hresults ▸ List.mem_singleton_self value)
  exact ⟨hresults, rfl, hvalue value List.mem_cons_self _ _ rfl⟩

end Transcript

end SolidityEncoding

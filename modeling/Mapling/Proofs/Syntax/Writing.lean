import Mapling.Expr.Text
import Mapling.Proofs.Syntax.Completeness
import Mapling.Proofs.Syntax.Spelling

/-! # Reading the text of an expression

The text of an expression is scanned and derived from the inside out: each part of it is read as a
phrase that builds the part again (`Writes`), whatever delimiter stands behind it. One thing comes
back changed. A prefix operation stands bare where a function is called, as in `-f(x)` for the
negated `f` applied to `x`, but a call binds tighter than a prefix operator; so the application
comes back inside of the operator (`Expr.reread`). -/

namespace Mapling

variable {args : List NamedExpr} {l r body : NamedExpr} {k : TokenKind} {u : Unit}

open Mapling.Scan Mapling.Phrase

namespace Expr

/-! ## What comes back -/

def isPrefix : NamedExpr → Bool
  | .unary _ _ _ => true
  | _ => false

/-- The application of `f` inside of the prefix operators that `f` starts with. -/
def callUnder : NamedExpr → List NamedExpr → NamedExpr
  | .unary s op e, args => .unary s op (e.callUnder args)
  | f, args => .app .synthetic f args

mutual

/-- The expression without its spans, each application built by `call`. -/
@[simp] def rebuilt (call : NamedExpr → List NamedExpr → NamedExpr) : NamedExpr → NamedExpr
  | .int _ n => .int .synthetic n
  | .bool _ b => .bool .synthetic b
  | .null _ => .null .synthetic
  | .var _ x => .var .synthetic (.synthetic x.name)
  | .prim _ p => .prim .synthetic p
  | .unary _ op e => .unary .synthetic op (e.rebuilt call)
  | .binary _ op l r => .binary .synthetic op (l.rebuilt call) (r.rebuilt call)
  | .app _ f args => call (f.rebuilt call) (rebuiltAll call args)
  | .map _ params _ body =>
    .map .synthetic (params.map (fun x => .synthetic x.name)) () (body.rebuilt call)
  | .cond _ t a b => .cond .synthetic (t.rebuilt call) (a.rebuilt call) (b.rebuilt call)
  | .letIn _ kind defs _ body =>
    .letIn .synthetic kind (rebuiltDefs call defs) () (body.rebuilt call)
  | .block _ es => .block .synthetic (rebuiltAll call es)

@[simp] def rebuiltAll (call : NamedExpr → List NamedExpr → NamedExpr) :
    List NamedExpr → List NamedExpr
  | [] => []
  | e :: es => e.rebuilt call :: rebuiltAll call es

@[simp] def rebuiltDefs (call : NamedExpr → List NamedExpr → NamedExpr) :
    List (Ident × NamedExpr) → List (Ident × NamedExpr)
  | [] => []
  | d :: ds => rebuiltDef call d :: rebuiltDefs call ds

@[simp] def rebuiltDef (call : NamedExpr → List NamedExpr → NamedExpr) :
    Ident × NamedExpr → Ident × NamedExpr
  | (x, e) => (.synthetic x.name, e.rebuilt call)

end

abbrev unspanned : NamedExpr → NamedExpr := rebuilt (.app .synthetic)

/-- The expression that the text of an expression is read as, without its spans. -/
abbrev reread : NamedExpr → NamedExpr := rebuilt callUnder

mutual

/-- Whether a prefix operation is called as a function somewhere in the expression. -/
@[simp] def callsPrefix : NamedExpr → Bool
  | .int _ _ | .bool _ _ | .null _ | .var _ _ | .prim _ _ => false
  | .unary _ _ e => e.callsPrefix
  | .binary _ _ l r => l.callsPrefix || r.callsPrefix
  | .app _ f args => f.isPrefix || f.callsPrefix || anyCallsPrefix args
  | .map _ _ _ body => body.callsPrefix
  | .cond _ t a b => t.callsPrefix || a.callsPrefix || b.callsPrefix
  | .letIn _ _ defs _ body => defsCallPrefix defs || body.callsPrefix
  | .block _ es => anyCallsPrefix es

@[simp] def anyCallsPrefix : List NamedExpr → Bool
  | [] => false
  | e :: es => e.callsPrefix || anyCallsPrefix es

@[simp] def defsCallPrefix : List (Ident × NamedExpr) → Bool
  | [] => false
  | d :: ds => defCallsPrefix d || defsCallPrefix ds

@[simp] def defCallsPrefix : Ident × NamedExpr → Bool
  | (_, e) => e.callsPrefix

end

variable {f : NamedExpr}

theorem callUnder_of_not_isPrefix (hf : f.isPrefix = false) (args : List NamedExpr) :
    f.callUnder args = .app .synthetic f args := by
  cases f <;> first | rfl | cases hf

theorem isPrefix_callUnder (hf : f.isPrefix) (args : List NamedExpr) :
    (f.callUnder args).isPrefix := by
  cases f <;> first | rfl | cases hf

theorem isPrefix_unspanned (e : NamedExpr) : e.unspanned.isPrefix = e.isPrefix := by
  cases e <;> simp [isPrefix]

theorem isPrefix_reread {e : NamedExpr} (he : e.isPrefix) : e.reread.isPrefix := by
  cases e with
  | unary => simp [isPrefix]
  | _ => cases he

/-- A call comes back as it was unless a prefix operator is called in it. -/
theorem reread_app_eq_iff {s : Span} (hf : f.reread = f.unspanned ↔ f.callsPrefix = false)
    (hargs : rebuiltAll callUnder args = rebuiltAll (.app .synthetic) args ↔
      anyCallsPrefix args = false) :
    (Expr.app s f args).reread = (Expr.app s f args).unspanned ↔
      (Expr.app s f args).callsPrefix = false := by
  simp only [rebuilt, callsPrefix, Bool.or_eq_false_iff]
  cases hunary : f.reread.isPrefix with
  | true =>
    constructor
    · intro h
      have happ := isPrefix_callUnder hunary (rebuiltAll callUnder args)
      rw [h] at happ
      cases happ
    · rintro ⟨⟨hbare, hcalls⟩, -⟩
      rw [hf.mpr hcalls, isPrefix_unspanned, hbare] at hunary
      cases hunary
  | false =>
    have hbare : f.isPrefix = false := by
      rw [← Bool.not_eq_true]
      intro hf'
      rw [isPrefix_reread hf'] at hunary
      cases hunary
    rw [callUnder_of_not_isPrefix hunary]
    simp [hf, hargs, hbare]

mutual

/-- Exactly if no prefix operation is called, the expression itself comes back. -/
theorem reread_eq_unspanned_iff :
    (e : NamedExpr) → (e.reread = e.unspanned ↔ e.callsPrefix = false)
  | .int _ _ | .bool _ _ | .null _ | .var _ _ | .prim _ _ => by simp
  | .unary _ _ e => by simp [reread_eq_unspanned_iff e]
  | .binary _ _ l r => by simp [reread_eq_unspanned_iff l, reread_eq_unspanned_iff r]
  | .app _ f args => reread_app_eq_iff (reread_eq_unspanned_iff f) (rebuiltAll_eq_iff args)
  | .map _ _ _ body => by simp [reread_eq_unspanned_iff body]
  | .cond _ t a b => by
      simp [reread_eq_unspanned_iff t, reread_eq_unspanned_iff a, reread_eq_unspanned_iff b,
        and_assoc]
  | .letIn _ _ defs _ body => by
      simp [rebuiltDefs_eq_iff defs, reread_eq_unspanned_iff body]
  | .block _ es => by simp [rebuiltAll_eq_iff es]

theorem rebuiltAll_eq_iff : (es : List NamedExpr) →
    (rebuiltAll callUnder es = rebuiltAll (.app .synthetic) es ↔ anyCallsPrefix es = false)
  | [] => by simp
  | e :: es => by simp [reread_eq_unspanned_iff e, rebuiltAll_eq_iff es]

theorem rebuiltDefs_eq_iff : (ds : List (Ident × NamedExpr)) →
    (rebuiltDefs callUnder ds = rebuiltDefs (.app .synthetic) ds ↔ defsCallPrefix ds = false)
  | [] => by simp
  | d :: ds => by simp [rebuiltDef_eq_iff d, rebuiltDefs_eq_iff ds]

theorem rebuiltDef_eq_iff : (d : Ident × NamedExpr) →
    (rebuiltDef callUnder d = rebuiltDef (.app .synthetic) d ↔ defCallsPrefix d = false)
  | (x, e) => by simp [reread_eq_unspanned_iff e]

end

/-! ## Applications to several argument lists -/

theorem foldl_callUnder_unary (s : Span) (op : UnaryOp) (e : NamedExpr)
    (argss : List (List NamedExpr)) :
    argss.foldl callUnder (.unary s op e) = .unary s op (argss.foldl callUnder e) := by
  induction argss generalizing e with
  | nil => rfl
  | cons args argss ih => exact ih _

theorem foldl_callUnder_of_not_isPrefix (hf : f.isPrefix = false) (argss : List (List NamedExpr)) :
    argss.foldl callUnder f = argss.foldl (.app .synthetic) f := by
  induction argss generalizing f with
  | nil => rfl
  | cons args argss ih =>
    rw [List.foldl_cons, List.foldl_cons, callUnder_of_not_isPrefix hf]
    exact ih rfl

end Expr

/-! ## Phrases of the layers -/

namespace Phrase

def operandOf : (c : Chain) → Phrase (.level .unary) → Phrase (.level c.operand)
  | .product, d => d
  | .sum, d => .chain d .noOperand
  | .conjunction, d => .uncompared (.chain (.chain d .noOperand) .noOperand)
  | .disjunction, d => .chain (.uncompared (.chain (.chain d .noOperand) .noOperand)) .noOperand

def ofComparison (d : Phrase (.level .comparison)) : Phrase (.level .assignment) :=
  .unassigned (.chain (.chain d .noOperand) .noOperand)

def ofChain : (c : Chain) → Phrase (.level (.chain c)) → Phrase (.level .assignment)
  | .product, d => ofComparison (.uncompared (.chain d .noOperand))
  | .sum, d => ofComparison (.uncompared d)
  | .conjunction, d => .unassigned (.chain d .noOperand)
  | .disjunction, d => .unassigned d

def ofUnary (d : Phrase (.level .unary)) : Phrase (.level .assignment) :=
  ofChain .product (.chain d .noOperand)

variable {c : Chain} {k : TokenKind}

@[simp] theorem tokens_operandOf (d : Phrase (.level .unary)) :
    (operandOf c d).tokens = d.tokens := by
  cases c <;> simp [operandOf]

@[simp] theorem tree_operandOf (d : Phrase (.level .unary)) : (operandOf c d).tree = d.tree := by
  cases c <;> simp [operandOf]

@[simp] theorem maximal_operandOf (d : Phrase (.level .unary)) :
    (operandOf c d).Maximal k ↔ d.Maximal k := by
  cases c <;> simp [operandOf, firstKind]

@[simp] theorem tokens_ofChain (d : Phrase (.level (.chain c))) :
    (ofChain c d).tokens = d.tokens := by
  cases c <;> simp [ofChain, ofComparison]

@[simp] theorem tree_ofChain (d : Phrase (.level (.chain c))) : (ofChain c d).tree = d.tree := by
  cases c <;> simp [ofChain, ofComparison]

@[simp] theorem maximal_ofChain (d : Phrase (.level (.chain c))) :
    (ofChain c d).Maximal k ↔ d.Maximal k := by
  cases c <;> simp [ofChain, ofComparison, firstKind]

/-- Whatever follows, the forms in the phrase extend as far as possible. -/
def Closed {nt : Nonterminal} (d : Phrase nt) : Prop := ∀ k, d.Maximal k

/-- In front of a token that ends an expression, the forms in the phrase extend as far as
possible. -/
def Ended {nt : Nonterminal} (d : Phrase nt) : Prop := ∀ k, k.carriesOn = false → d.Maximal k

end Phrase

/-! ## Texts of phrases -/

/-- In front of a text in `F`, the text `cs` is scanned as the tokens of a phrase in `P`. -/
def Writes (F : List Char → Prop) (nt : Nonterminal) (cs : List Char) (P : Phrase nt → Prop) :
    Prop :=
  ∀ p rest, F rest → ∃ (d : Phrase nt) (q : Pos), Passes p (cs ++ rest) d.tokens q rest ∧ P d

/-- The text is read as `e` where any expression may stand. -/
def WritesExpr (cs : List Char) (e : NamedExpr) : Prop :=
  Writes Delimited (.level .assignment) cs (fun d => d.tree.unspanned = e ∧ d.Ended)

/-- The text is read as `e` where an operand may stand. -/
def WritesOperand (cs : List Char) (e : NamedExpr) : Prop :=
  Writes Delimited (.level .unary) cs (fun d => d.tree.unspanned = e ∧ d.Closed)

/-- The text is read as an atom `e`. -/
def WritesAtom (cs : List Char) (e : NamedExpr) : Prop :=
  Writes Delimited (.level .primary) cs (fun d => d.tree.unspanned = e ∧ d.Closed)

def WritesCalls (cs : List Char) (argss : List (List NamedExpr)) : Prop :=
  (∀ rest, Delimited rest → Delimited (cs ++ rest)) ∧
    Writes Delimited .calls cs (fun d =>
      (∀ f, (d.tree f).unspanned = argss.foldl (.app .synthetic) f.unspanned) ∧ d.Closed)

theorem writesCalls_nil : WritesCalls [] [] :=
  ⟨fun _ h => h, fun p rest _ => ⟨.noCall, p, .refl p rest, fun _ => rfl, fun _ => trivial⟩⟩

theorem delimited_cons {c : Char} (hc : c ∈ [' ', '(', ')', ',', ';', '\x7d']) (cs : List Char) :
    Delimited (c :: cs) := by
  intro d hd
  cases hd
  exact hc

theorem delimited_blank (cs : List Char) : Delimited (' ' :: cs) := delimited_cons (by decide) cs

variable {cs ds : List Char} {e : NamedExpr} {argss : List (List NamedExpr)}

theorem WritesAtom.called (h : WritesAtom cs e) (he : e.isPrefix = false)
    (hcalls : WritesCalls ds argss) :
    WritesOperand (cs ++ ds) (argss.foldl Expr.callUnder e) := by
  intro p rest hrest
  obtain ⟨d, q, hd, rfl, hclosed⟩ := h p (ds ++ rest) (hcalls.1 rest hrest)
  obtain ⟨more, q', hmore, htree, hmoreClosed⟩ := hcalls.2 q rest hrest
  refine ⟨.unapplied (.call d more), q', ?_, ?_, ?_⟩
  · rw [List.append_assoc]
    exact hd.trans hmore
  · rw [Expr.foldl_callUnder_of_not_isPrefix he]
    exact htree d.tree
  · exact fun k => ⟨hclosed _, hmoreClosed k⟩

theorem WritesOperand.expr (h : WritesOperand cs e) : WritesExpr cs e := by
  intro p rest hrest
  obtain ⟨d, q, hd, rfl, hclosed⟩ := h p rest hrest
  refine ⟨ofChain .product (.chain d .noOperand), q, ?_, ?_, ?_⟩
  · simpa using hd
  · simp
  · intro k _
    simpa [firstKind] using hclosed k

theorem WritesExpr.parens (h : WritesExpr cs e) : WritesAtom ('(' :: (cs ++ [')'])) e := by
  intro p rest hrest
  obtain ⟨s, q1, hopen⟩ := spells_openingMark (m := .leftParen) (by decide) p
    (cs ++ ')' :: rest) trivial
  obtain ⟨d, q2, hd, rfl, hended⟩ := h q1 (')' :: rest) (delimited_cons (by decide) _)
  obtain ⟨s', q3, hclose⟩ := spells_mark .rightParen q2 rest hrest
  refine ⟨.parens s d s', q3, ?_, rfl, fun k => hended _ rfl⟩
  rw [List.cons_append, List.append_assoc]
  exact hopen.trans (hd.trans hclose)

variable {rest : List Char}

/-- What starts with an expression does not start with an equality sign. -/
theorem WritesOperand.head_ne (h : WritesOperand cs e) (hrest : Delimited rest) :
    (cs ++ rest).head? ≠ some '=' := by
  intro hhead
  obtain ⟨d, q, hd, -⟩ := h ⟨1, 1⟩ rest hrest
  obtain ⟨ds, htext⟩ := List.head?_eq_some_iff.mp hhead
  have hstart := d.startsExpression []
  cases htokens : d.tokens with
  | nil => exact absurd htokens (List.ne_nil_of_length_pos d.tokens_length_pos)
  | cons t ts =>
    rw [htext, htokens] at hd
    rw [htokens, List.append_nil, nextKind_cons, hd.equal_head] at hstart
    exact not_startsExpression (by decide) hstart

theorem passes_unaryOp (op : UnaryOp) (p : Pos) (hrest : rest.head? ≠ some '=') :
    ∃ s q, Passes p ((if op = .ref then "ref " else op.symbol).toList ++ rest)
      [⟨op.token, s⟩] q rest := by
  cases op with
  | neg => exact spells_openingMark (m := .minus) (by decide) p rest trivial
  | not => exact spells_openingMark (m := .tilde) (by decide) p rest trivial
  | deref => exact spells_bang p rest hrest
  | ref =>
    obtain ⟨s, q, h⟩ := spells_keyword .kwRef p (' ' :: rest) (delimited_blank _)
    exact ⟨s, q.advance ' ', h.trans (.blank (.refl _ _))⟩

theorem BinaryOp.text_mark (op : BinaryOp) : op.mark.text = op.symbol := by
  cases op <;> rfl

/-- Two operands and an operator between them. -/
theorem passes_binary (hl : WritesOperand cs l) (hr : WritesOperand ds r) (op : BinaryOp) (p : Pos)
    (hrest : Delimited rest) :
    ∃ (dl : Phrase (.level .unary)) (s : Span) (dr : Phrase (.level .unary)) (q : Pos),
      Passes p (cs ++ ' ' :: (op.symbol.toList ++ ' ' :: ds) ++ rest)
        (dl.tokens ++ .ofMark op.mark s :: dr.tokens) q rest ∧
      (dl.tree.unspanned = l ∧ dl.Closed) ∧ (dr.tree.unspanned = r ∧ dr.Closed) := by
  obtain ⟨dl, q1, hdl, hltree⟩ := hl p _ (delimited_blank _)
  obtain ⟨s, q2, hop⟩ := spells_mark op.mark (q1.advance ' ') _ (delimited_blank _)
  obtain ⟨dr, q3, hdr, hrtree⟩ := hr (q2.advance ' ') rest hrest
  rw [BinaryOp.text_mark] at hop
  refine ⟨dl, s, dr, q3, ?_, hltree, hrtree⟩
  simpa [Token.ofMark] using hdl.trans (.blank (hop.trans (.blank hdr)))

theorem BinaryOp.layer (op : BinaryOp) :
    (∃ c : Chain, op ∈ c.operators) ∨ op ∈ BinaryOp.comparisons ∨ op = .assign := by
  cases op with
  | or => exact .inl ⟨.disjunction, by decide⟩
  | and => exact .inl ⟨.conjunction, by decide⟩
  | add | sub => exact .inl ⟨.sum, by decide⟩
  | mul | div => exact .inl ⟨.product, by decide⟩
  | assign => exact .inr (.inr rfl)
  | _ => exact .inr (.inl (by decide))

/-- The text of an operator between two operands is read as that. -/
theorem WritesOperand.binary (hl : WritesOperand cs l) (hr : WritesOperand ds r) (op : BinaryOp) :
    WritesExpr (cs ++ ' ' :: (op.symbol.toList ++ ' ' :: ds)) (.binary .synthetic op l r) := by
  intro p rest hrest
  obtain ⟨dl, s, dr, q, hpass, ⟨rfl, hlclosed⟩, rfl, hrclosed⟩ := passes_binary hl hr op p hrest
  rcases op.layer with ⟨c, hop⟩ | hop | rfl
  · refine ⟨ofChain c (.chain (operandOf c dl) (.operand s op hop (operandOf c dr) .noOperand)), q,
      ?_, ?_, ?_⟩
    · simpa using hpass
    · simp [Expr.mkBinary]
    · intro k _
      simpa [firstKind] using ⟨hlclosed _, hrclosed _⟩
  · refine ⟨ofComparison (.compare (operandOf .sum dl |> (.chain · .noOperand)) s op hop
      (operandOf .sum dr |> (.chain · .noOperand))), q, ?_, ?_, ?_⟩
    · simpa [ofComparison] using hpass
    · simp [ofComparison, Expr.mkBinary]
    · intro k _
      simpa [ofComparison, firstKind] using ⟨hlclosed _, hrclosed _⟩
  · refine ⟨.assign (.chain (operandOf .disjunction dl) .noOperand) s (ofUnary dr), q, ?_, ?_, ?_⟩
    · simpa [ofUnary, BinaryOp.mark] using hpass
    · simp [ofUnary, Expr.mkBinary]
    · intro k _
      simpa [ofUnary, firstKind] using ⟨hlclosed _, hrclosed _⟩

/-! ## Lists -/

def separated (sep : String) (items : List String) : List Char :=
  items.flatMap (fun t => sep.toList ++ t.toList)

theorem toList_intercalate_cons (sep t : String) (ts : List String) :
    (String.intercalate sep (t :: ts)).toList = t.toList ++ separated sep ts := by
  rw [String.toList_intercalate, List.map_cons]
  induction ts generalizing t with
  | nil => simp [separated]
  | cons u us ih =>
    have hsplit : separated sep (u :: us) = sep.toList ++ (u.toList ++ separated sep us) := by
      simp [separated]
    rw [List.map_cons, List.intercalate_cons_cons, ih, hsplit, List.append_assoc]

theorem delimited_separated (sep : String) {c : Char} {seps : List Char}
    (hsep : sep.toList = c :: seps) (hc : c ∈ [' ', '(', ')', ',', ';', '\x7d'])
    (items : List String) (hrest : Delimited rest) : Delimited (separated sep items ++ rest) := by
  cases items with
  | nil => exact hrest
  | cons t ts =>
    simp only [separated, List.flatMap_cons, hsep, List.cons_append]
    exact delimited_cons hc _

def WritesArguments (cs : List Char) (es : List NamedExpr) : Prop :=
  Writes Delimited .arguments cs (fun d =>
    Expr.rebuiltAll (.app .synthetic) d.tree = es ∧ d.Ended)

def WritesMoreArguments (cs : List Char) (es : List NamedExpr) : Prop :=
  Writes Delimited .moreArguments cs (fun d =>
    Expr.rebuiltAll (.app .synthetic) d.tree = es ∧ d.Ended)

def WritesComponents (cs : List Char) (es : List NamedExpr) : Prop :=
  Writes Delimited .components cs (fun d =>
    Expr.rebuiltAll (.app .synthetic) d.tree = es ∧ d.Ended)

theorem carriesOn_moreArguments (d : Phrase .moreArguments) (hk : k.carriesOn = false) :
    (d.firstKind k).carriesOn = false := by
  cases d with
  | lastArgument => exact hk
  | nextArgument => rfl

theorem carriesOn_components (d : Phrase .components) (hk : k.carriesOn = false) :
    (d.firstKind k).carriesOn = false := by
  cases d with
  | lastComponent => exact hk
  | lastSemicolon | nextComponent => rfl

namespace Expr

/-- The text of an expression is read as what `reread` says, where any expression may stand and
as an operand, in front of any argument lists. -/
structure Written (e : NamedExpr) : Prop where
  alone : WritesExpr e.text.toList e.reread
  called : ∀ {ds : List Char} {argss : List (List NamedExpr)}, WritesCalls ds argss →
    WritesOperand ((enclosed e.isBareOperand e.text).toList ++ ds) (argss.foldl callUnder e.reread)

end Expr

open Mapling.Expr

theorem writesMoreArguments : (es : List NamedExpr) → (∀ e ∈ es, e.Written) →
    WritesMoreArguments (separated ", " (texts es)) (rebuiltAll callUnder es)
  | [], _ => fun p rest _ => ⟨.lastArgument, p, .refl p rest, rfl, fun _ _ => trivial⟩
  | e :: es, h => by
      intro p rest hrest
      have htail := delimited_separated ", " rfl (by decide) (texts es) hrest
      obtain ⟨s, q1, hcomma⟩ := spells_mark .comma p _ (delimited_blank _)
      obtain ⟨d, q2, hd, htree, hended⟩ := (h e (.head _)).alone (q1.advance ' ') _ htail
      obtain ⟨more, q3, hmore, htrees, hmoreEnded⟩ :=
        writesMoreArguments es (fun e' he' => h e' (.tail _ he')) q2 rest hrest
      refine ⟨.nextArgument s d more, q3, ?_, ?_, ?_⟩
      · have hpass := hcomma.trans (.blank (hd.trans hmore))
        simpa [separated, texts, Token.ofMark, Mark.text] using hpass
      · simp [htree, htrees]
      · exact fun k hk => ⟨hended _ (carriesOn_moreArguments more hk), hmoreEnded k hk⟩

theorem writesArguments (es : List NamedExpr) (h : ∀ e ∈ es, e.Written) :
    WritesArguments (commaSeparated (texts es)).toList (rebuiltAll callUnder es) := by
  cases es with
  | nil => exact fun p rest _ => ⟨.noArgument, p, .refl p rest, rfl, fun _ _ => trivial⟩
  | cons e es =>
    intro p rest hrest
    have htail := delimited_separated ", " rfl (by decide) (texts es) hrest
    obtain ⟨d, q1, hd, htree, hended⟩ := (h e (.head _)).alone p _ htail
    obtain ⟨more, q2, hmore, htrees, hmoreEnded⟩ :=
      writesMoreArguments es (fun e' he' => h e' (.tail _ he')) q1 rest hrest
    refine ⟨.argument d more, q2, ?_, ?_, ?_⟩
    · rw [commaSeparated, texts, toList_intercalate_cons, List.append_assoc]
      exact hd.trans hmore
    · simp [htree, htrees]
    · exact fun k hk => ⟨hended _ (carriesOn_moreArguments more hk), hmoreEnded k hk⟩

theorem writesComponents : (es : List NamedExpr) → (∀ e ∈ es, e.Written) →
    WritesComponents (separated "; " (texts es)) (rebuiltAll callUnder es)
  | [], _ => fun p rest _ => ⟨.lastComponent, p, .refl p rest, rfl, fun _ _ => trivial⟩
  | e :: es, h => by
      intro p rest hrest
      have htail := delimited_separated "; " rfl (by decide) (texts es) hrest
      obtain ⟨s, q1, hsemicolon⟩ := spells_mark .semicolon p _ (delimited_blank _)
      obtain ⟨d, q2, hd, htree, hended⟩ := (h e (.head _)).alone (q1.advance ' ') _ htail
      obtain ⟨more, q3, hmore, htrees, hmoreEnded⟩ :=
        writesComponents es (fun e' he' => h e' (.tail _ he')) q2 rest hrest
      refine ⟨.nextComponent s d more, q3, ?_, ?_, ?_⟩
      · have hpass := hsemicolon.trans (.blank (hd.trans hmore))
        simpa [separated, texts, Token.ofMark, Mark.text] using hpass
      · simp [htree, htrees]
      · exact fun k hk => ⟨hended _ (carriesOn_components more hk), hmoreEnded k hk⟩

/-- One more argument list. -/
theorem WritesCalls.cons (hargs : WritesArguments cs args) (hcalls : WritesCalls ds argss) :
    WritesCalls ('(' :: (cs ++ ')' :: ds)) (args :: argss) := by
  refine ⟨fun rest _ => delimited_cons (by decide) _, fun p rest hrest => ?_⟩
  obtain ⟨s, q1, hopen⟩ := spells_openingMark (m := .leftParen) (by decide) p
    (cs ++ ')' :: (ds ++ rest)) trivial
  obtain ⟨d, q2, hd, rfl, hended⟩ := hargs q1 (')' :: (ds ++ rest)) (delimited_cons (by decide) _)
  obtain ⟨s', q3, hclose⟩ := spells_mark .rightParen q2 (ds ++ rest) (hcalls.1 rest hrest)
  obtain ⟨more, q4, hmore, htree, hclosed⟩ := hcalls.2 q3 rest hrest
  refine ⟨.callOn s d s' more, q4, ?_, ?_, ?_⟩
  · have hpass := hopen.trans (hd.trans (hclose.trans hmore))
    simpa [Token.ofMark, Mark.text] using hpass
  · exact fun f => htree _
  · exact fun k => ⟨hended _ rfl, hclosed k⟩

/-! ### Parameters and definitions

Their texts end in a blank, so that anything may follow. -/

theorem writesMoreParameters : (ps : List Ident) → (∀ x ∈ ps, IsName x.name) →
    Writes Delimited .moreParameters (separated ", " (ps.map Ident.name)) (fun d =>
      d.tree.map (fun x : Ident => Ident.synthetic x.name) =
        ps.map (fun x => Ident.synthetic x.name) ∧ d.Closed)
  | [], _ => fun p rest _ => ⟨.lastParameter, p, .refl p rest, rfl, fun _ => trivial⟩
  | x :: ps, h => by
      intro p rest hrest
      have htail := delimited_separated ", " rfl (by decide) (ps.map Ident.name) hrest
      obtain ⟨s, q1, hcomma⟩ := spells_mark .comma p _ (delimited_blank _)
      obtain ⟨s', q2, hname⟩ := spells_name (h x (.head _)) (q1.advance ' ') _ htail
      obtain ⟨more, q3, hmore, htrees, -⟩ :=
        writesMoreParameters ps (fun y hy => h y (.tail _ hy)) q2 rest hrest
      refine ⟨.nextParameter s ⟨x.name, s'⟩ more, q3, ?_, ?_, fun _ => trivial⟩
      · have hpass := hcomma.trans (.blank (hname.trans hmore))
        simpa [separated, Token.ofMark, Token.ofIdent, Mark.text] using hpass
      · simp [htrees]

/-- The text of parameters is read as these parameters. -/
theorem writesParameters (ps : List Ident) (h : ∀ x ∈ ps, IsName x.name) :
    Writes (fun _ => True) .parameters (parameterText ps).toList (fun d =>
      d.tree.map (fun x : Ident => Ident.synthetic x.name) =
        ps.map (fun x => Ident.synthetic x.name) ∧ d.Closed) := by
  cases ps with
  | nil => exact fun p rest _ => ⟨.noParameter, p, .refl p rest, rfl, fun _ => trivial⟩
  | cons x ps =>
    intro p rest _
    have hblank := delimited_blank rest
    have htail := delimited_separated ", " rfl (by decide) (ps.map Ident.name) hblank
    obtain ⟨s, q1, hname⟩ := spells_name (h x (.head _)) p _ htail
    obtain ⟨more, q2, hmore, htrees, -⟩ :=
      writesMoreParameters ps (fun y hy => h y (.tail _ hy)) q1 _ hblank
    refine ⟨.parameter ⟨x.name, s⟩ more, q2.advance ' ', ?_, ?_, fun _ => trivial⟩
    · have htext : (parameterText (x :: ps)).toList =
          x.name.toList ++ (separated ", " (ps.map Ident.name) ++ [' ']) := by
        change (commaSeparated (x.name :: ps.map Ident.name) ++ " ").toList = _
        rw [commaSeparated, String.toList_append, toList_intercalate_cons, List.append_assoc]
        rfl
      have hpass := hname.trans (hmore.trans (.blank (.refl _ rest)))
      rw [htext]
      simpa [Token.ofIdent] using hpass
    · simp [htrees]

/-- The text of definitions is read as these definitions. -/
theorem writesDefinitions : (defs : List (Ident × NamedExpr)) → defs ≠ [] →
    (∀ d ∈ defs, IsName d.1.name ∧ d.2.Written) →
    Writes (fun _ => True) .definitions (defsText defs).toList (fun d =>
      rebuiltDefs (.app .synthetic) d.tree = rebuiltDefs callUnder defs ∧ d.Closed)
  | [], hne, _ => absurd rfl hne
  | (x, e) :: defs, _, h => by
      intro p rest _
      obtain ⟨hx, he⟩ := h _ (.head _)
      obtain ⟨s, q1, hname⟩ := spells_name hx p _ (delimited_blank _)
      obtain ⟨s1, q2, hassign⟩ := spells_mark .colonEqual (q1.advance ' ') _ (delimited_blank _)
      obtain ⟨d, q3, hd, htree, hended⟩ := he.alone (q2.advance ' ')
        (';' :: ' ' :: ((defsText defs).toList ++ rest)) (delimited_cons (by decide) _)
      obtain ⟨s2, q4, hsemicolon⟩ := spells_mark .semicolon q3
        (' ' :: ((defsText defs).toList ++ rest)) (delimited_blank _)
      have hfirst := hname.trans (.blank (hassign.trans (.blank (hd.trans hsemicolon))))
      cases defs with
      | nil =>
        refine ⟨.lastDefinition ⟨x.name, s⟩ s1 d s2, q4.advance ' ', ?_, ?_, fun _ => hended _ rfl⟩
        · have hpass := hfirst.trans (.blank (.refl _ rest))
          simpa [defsText, defText, Token.ofMark, Token.ofIdent, Mark.text] using hpass
        · simp [htree]
      | cons d' defs =>
        obtain ⟨more, q5, hmore, htrees, hclosed⟩ := writesDefinitions (d' :: defs) (by simp)
          (fun d hd => h d (.tail _ hd)) (q4.advance ' ') rest trivial
        refine ⟨.definition ⟨x.name, s⟩ s1 d s2 more, q5, ?_, ?_,
          fun k => ⟨hended _ rfl, hclosed k⟩⟩
        · have hpass := hfirst.trans (.blank hmore)
          simpa [defsText, defText, Token.ofMark, Token.ofIdent, Mark.text] using hpass
        · simpa [htree] using htrees

/-! ## Expressions -/

namespace Expr.Written

theorem operand (h : e.Written) :
    WritesOperand (enclosed e.isBareOperand e.text).toList e.reread := by
  simpa using h.called writesCalls_nil

/-! ### The three kinds of expressions -/

theorem of_called (hbare : e.isBareOperand = true)
    (h : ∀ {ds : List Char} {argss : List (List NamedExpr)}, WritesCalls ds argss →
      WritesOperand (e.text.toList ++ ds) (argss.foldl callUnder e.reread)) : e.Written := by
  constructor
  · have halone := (h writesCalls_nil).expr
    rwa [List.append_nil, List.foldl_nil] at halone
  · intro ds argss hcalls
    rw [hbare]
    exact h hcalls

theorem of_atom (hbare : e.isBareOperand = true) (hunary : e.reread.isPrefix = false)
    (h : WritesAtom e.text.toList e.reread) : e.Written :=
  of_called hbare (fun hcalls => h.called hunary hcalls)

theorem of_expr (hbare : e.isBareOperand = false) (hunary : e.reread.isPrefix = false)
    (h : WritesExpr e.text.toList e.reread) : e.Written := by
  refine ⟨h, fun hcalls => ?_⟩
  have hcalled := h.parens.called hunary hcalls
  rw [hbare]
  simpa [enclosed] using hcalled

/-- An expression that is one token. -/
theorem of_token (hbare : e.isBareOperand = true) (hunary : e.reread.isPrefix = false)
    (h : Spells Delimited e.text.toList k) (d : Span → Phrase (.level .primary))
    (htokens : ∀ s, (d s).tokens = [⟨k, s⟩]) (htree : ∀ s, (d s).tree.unspanned = e.reread)
    (hclosed : ∀ s, (d s).Closed) : e.Written := by
  refine of_atom hbare hunary (fun p rest hrest => ?_)
  obtain ⟨s, q, hpass⟩ := h p rest hrest
  exact ⟨d s, q, (htokens s).symm ▸ hpass, htree s, hclosed s⟩

/-- A form that ends in an expression. -/
theorem of_form (hbare : e.isBareOperand = false) (hunary : e.reread.isPrefix = false)
    (h : Writes Delimited (.level .primary) e.text.toList
      (fun d => d.tree.unspanned = e.reread ∧ d.Ended)) : e.Written := by
  refine of_expr hbare hunary (fun p rest hrest => ?_)
  obtain ⟨d, q, hd, htree, hended⟩ := h p rest hrest
  refine ⟨ofUnary (.unapplied (.call d .noCall)), q, ?_, ?_, ?_⟩
  · simpa [ofUnary] using hd
  · simpa [ofUnary] using htree
  · intro k hk
    simpa [ofUnary, firstKind] using hended k hk

/-! ### One lemma for each form of expression -/

variable {s : Span}

theorem int {n : Int} (hn : 0 ≤ n ∧ n ≤ Scan.maxInt) : (Expr.int s n : NamedExpr).Written := by
  obtain ⟨m, rfl⟩ := Int.eq_ofNat_of_zero_le hn.1
  have htext : (Expr.int s (m : Int) : NamedExpr).text = toString m := by
    rw [Expr.text, if_neg (by omega)]
    rfl
  refine of_token rfl rfl ?_ (fun s => .int s m) (fun _ => rfl) (fun _ => rfl)
    (fun _ _ => trivial)
  rw [htext]
  exact spells_int (Int.ofNat_le.mp hn.2)

theorem bool {b : Bool} : (Expr.bool s b : NamedExpr).Written := by
  refine of_token rfl rfl ?_ (fun s => .bool s b) (fun _ => rfl) (fun _ => rfl)
    (fun _ _ => trivial)
  cases b with
  | true => exact spells_keyword .kwTrue
  | false => exact spells_keyword .kwFalse

theorem null : (Expr.null s : NamedExpr).Written :=
  of_token rfl rfl (spells_keyword .kwNull) (fun s => .null s) (fun _ => rfl) (fun _ => rfl)
    (fun _ _ => trivial)

theorem prim {f : Prim} : (Expr.prim s f : NamedExpr).Written :=
  of_token rfl rfl (spells_prim f) (fun s => .prim s f) (fun _ => rfl) (fun _ => rfl)
    (fun _ _ => trivial)

theorem var {x : Ident} (hx : IsName x.name) : (Expr.var s x : NamedExpr).Written :=
  of_token rfl rfl (spells_name hx) (fun s => .var ⟨x.name, s⟩) (fun _ => rfl) (fun _ => rfl)
    (fun _ _ => trivial)

theorem unary (he : e.Written) (op : UnaryOp) : (Expr.unary s op e).Written := by
  refine of_called rfl (fun {ds argss} hcalls p rest hrest => ?_)
  have hoperand := he.called hcalls
  obtain ⟨s1, q1, hop⟩ := passes_unaryOp op p (hoperand.head_ne hrest)
  obtain ⟨d, q2, hd, htree, hclosed⟩ := hoperand q1 rest hrest
  refine ⟨.apply s1 op d, q2, ?_, ?_, hclosed⟩
  · simpa [text] using hop.trans hd
  · simp [htree, foldl_callUnder_unary]

theorem binary (hl : l.Written) (hr : r.Written) (op : BinaryOp) :
    (Expr.binary s op l r).Written := by
  refine of_expr rfl rfl ?_
  have h := hl.operand.binary hr.operand op
  simpa [text] using h

theorem app {f : NamedExpr} (hf : f.Written) (hargs : ∀ e ∈ args, e.Written) :
    (Expr.app s f args).Written := by
  refine of_called rfl (fun hcalls => ?_)
  have h := hf.called (.cons (writesArguments args hargs) hcalls)
  simpa [text] using h

/-- A block whose components can be written can be written. -/
theorem block {es : List NamedExpr} (hne : es ≠ []) (hes : ∀ e ∈ es, e.Written) :
    (Expr.block s es).Written := by
  cases es with
  | nil => exact absurd rfl hne
  | cons e es =>
    refine of_atom rfl rfl (fun p rest hrest => ?_)
    have hclosing : Delimited ('\x7d' :: rest) := delimited_cons (by decide) _
    have htail := delimited_separated "; " rfl (by decide) (texts es) hclosing
    obtain ⟨s1, q1, hopen⟩ := spells_openingMark (m := .leftBrace) (by decide) p
      (e.text.toList ++ (separated "; " (texts es) ++ '\x7d' :: rest)) trivial
    obtain ⟨d, q2, hd, htree, hended⟩ := (hes e (.head _)).alone q1 _ htail
    obtain ⟨more, q3, hmore, htrees, hmoreEnded⟩ :=
      writesComponents es (fun e' he' => hes e' (.tail _ he')) q2 _ hclosing
    obtain ⟨s2, q4, hclose⟩ := spells_mark .rightBrace q3 rest hrest
    refine ⟨.block s1 d more s2, q4, ?_, ?_, ?_⟩
    · have hpass := hopen.trans (hd.trans (hmore.trans hclose))
      simp only [text, texts, String.toList_append, toList_intercalate_cons]
      simpa [Token.ofMark, Mark.text] using hpass
    · simp [htree, htrees]
    · exact fun k => ⟨hended _ (carriesOn_components more rfl), hmoreEnded _ rfl⟩

theorem cond {t a b : NamedExpr} (ht : t.Written) (ha : a.Written) (hb : b.Written) :
    (Expr.cond s t a b).Written := by
  refine of_form rfl rfl (fun p rest hrest => ?_)
  obtain ⟨s1, q1, hif⟩ := spells_keyword .kwIf p _ (delimited_blank _)
  obtain ⟨dt, q2, hdt, htree, htended⟩ := ht.alone (q1.advance ' ') _ (delimited_blank _)
  obtain ⟨s2, q3, hthen⟩ := spells_keyword .kwThen (q2.advance ' ') _ (delimited_blank _)
  obtain ⟨da, q4, hda, hatree, haended⟩ := ha.alone (q3.advance ' ') _ (delimited_blank _)
  obtain ⟨s3, q5, helse⟩ := spells_keyword .kwElse (q4.advance ' ') _ (delimited_blank _)
  obtain ⟨db, q6, hdb, hbtree, hbended⟩ := hb.alone (q5.advance ' ') rest hrest
  refine ⟨.cond s1 dt s2 da s3 db, q6, ?_, ?_, ?_⟩
  · have hpass := hif.trans (.blank (hdt.trans (.blank (hthen.trans (.blank (hda.trans
      (.blank (helse.trans (.blank hdb)))))))))
    simpa [text, Token.ofWord, Keyword.text] using hpass
  · simp [htree, hatree, hbtree]
  · intro k hk
    exact ⟨htended _ rfl, haended _ rfl, hbended k hk, by simp [hk]⟩

theorem text_word (kind : LetKind) : kind.word.text = kind.keyword := by
  cases kind <;> rfl

theorem letIn {kind : LetKind} {defs : List (Ident × NamedExpr)} (hne : defs ≠ [])
    (hdefs : ∀ d ∈ defs, IsName d.1.name ∧ d.2.Written) (hbody : body.Written) :
    (Expr.letIn s kind defs u body).Written := by
  refine of_form rfl rfl (fun p rest hrest => ?_)
  obtain ⟨s1, q1, hlet⟩ := spells_keyword kind.word p _ (delimited_blank _)
  obtain ⟨ds, q2, hds, htrees, hclosed⟩ :=
    writesDefinitions defs hne hdefs (q1.advance ' ') _ trivial
  obtain ⟨s2, q3, hin⟩ := spells_keyword .kwIn q2 _ (delimited_blank _)
  obtain ⟨d, q4, hd, htree, hended⟩ := hbody.alone (q3.advance ' ') rest hrest
  refine ⟨.letIn s1 kind ds s2 d, q4, ?_, ?_, ?_⟩
  · have hpass := hlet.trans (.blank (hds.trans (hin.trans (.blank hd))))
    rw [text_word] at hpass
    simpa [text, Token.ofWord, Keyword.text] using hpass
  · simp [htree, htrees]
  · intro k hk
    exact ⟨hclosed _, hended k hk, by simp [hk]⟩

theorem map {params : List Ident} (hparams : ∀ x ∈ params, IsName x.name) (hbody : body.Written) :
    (Expr.map s params u body).Written := by
  refine of_form rfl rfl (fun p rest hrest => ?_)
  obtain ⟨s1, q1, hmap⟩ := spells_keyword .kwMap p _ (delimited_blank _)
  obtain ⟨ps, q2, hps, htrees, -⟩ := writesParameters params hparams (q1.advance ' ') _ trivial
  obtain ⟨s2, q3, hto⟩ := spells_keyword .kwTo q2 _ (delimited_blank _)
  obtain ⟨d, q4, hd, htree, hended⟩ := hbody.alone (q3.advance ' ') rest hrest
  refine ⟨.map s1 ps s2 d, q4, ?_, ?_, ?_⟩
  · have hpass := hmap.trans (.blank (hps.trans (hto.trans (.blank hd))))
    simpa [text, Token.ofWord, Keyword.text] using hpass
  · simp [htree, htrees]
  · intro k hk
    exact ⟨hended k hk, by simp [hk]⟩

end Expr.Written

end Mapling

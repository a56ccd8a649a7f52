import Mapling.Proofs.Syntax.Completeness
import Mapling.Proofs.Syntax.Scanning

/-! # Spans of a tree

The tokens of a text stand apart and in order, and a phrase takes tokens in a row. So the parts of
a node stand apart and in order as well, and a node, which spans from the first to the last token of
its own, spans its parts. Parentheses leave no node, and widen none: what is in them starts and
stops at tokens between them.

Main statement: `spans_of_parseSource`. -/

namespace Mapling

/-! ## Spans in a row -/

namespace Span

/-- The span stands for text: it points into a text, and stops no earlier than it starts. -/
structure Proper (s : Span) : Prop where
  real : s.isSynthetic = false
  forward : s.start ≤ s.stop

def Within (s t : Span) : Prop := t.start ≤ s.start ∧ s.stop ≤ t.stop

def Before (s t : Span) : Prop := s.stop < t.start

/-- The span starts where one of the tokens starts, and stops where one of them stops. -/
structure Of (ts : List Token) (s : Span) : Prop extends s.Proper where
  starts : ∃ t ∈ ts, s.start = t.span.start
  stops : ∃ t ∈ ts, s.stop = t.span.stop

variable {s t u : Span} {ts us : List Token}

theorem Of.mono (h : s.Of ts) (hts : ts ⊆ us) : s.Of us :=
  ⟨h.toProper, h.starts.imp (fun _ => .imp_left (@hts _)),
    h.stops.imp (fun _ => .imp_left (@hts _))⟩

/-- Two spans in order are merged from the start of the first to the stop of the second. -/
theorem merge_eq (hs : s.Proper) (ht : t.Proper) (h : s.Before t) :
    s.merge t = ⟨s.start, t.stop⟩ := by
  have hstart : s.start ≤ t.start := hs.forward.trans h.le
  have hstop : s.stop ≤ t.stop := h.le.trans ht.forward
  simp [merge, hs.real, ht.real, Pos.first, Pos.last, hstart, hstop]

end Span

structure Ordered (ts : List Token) : Prop where
  proper : ∀ t ∈ ts, t.span.Proper
  apart : ts.Pairwise (fun t u => t.span.Before u.span)

theorem Ordered.append {ts us : List Token} (h : Ordered (ts ++ us)) :
    Ordered ts ∧ Ordered us ∧ ∀ t ∈ ts, ∀ u ∈ us, t.span.Before u.span := by
  obtain ⟨hts, hus⟩ := List.forall_mem_append.mp h.proper
  obtain ⟨hleft, hright, hboth⟩ := List.pairwise_append.mp h.apart
  exact ⟨⟨hts, hleft⟩, ⟨hus, hright⟩, hboth⟩

/-! ## Nodes -/

namespace Expr

/-- The expressions directly below a node, as they stand in the text. -/
def children : NamedExpr → List NamedExpr
  | .int _ _ | .bool _ _ | .null _ | .var _ _ | .prim _ _ => []
  | .unary _ _ e => [e]
  | .binary _ _ l r => [l, r]
  | .app _ f args => f :: args
  | .map _ _ _ body => [body]
  | .cond _ t a b => [t, a, b]
  | .letIn _ _ defs _ body => defValues defs ++ [body]
  | .block _ es => es

/-- The spans of the definitions of a form: that of each name, and that of its value. -/
def defSpans (defs : List (Ident × NamedExpr)) : List Span :=
  defs.flatMap (fun d => [d.1.span, d.2.span])

/-- The spans of the names and the expressions directly below a node, as they stand in the text. -/
def partSpans : NamedExpr → List Span
  | .var _ x => [x.span]
  | .map _ params _ body => params.map Ident.span ++ [body.span]
  | .letIn _ _ defs _ body => defSpans defs ++ [body.span]
  | e => e.children.map span

/-- The expression is a node of the tree `e`. -/
inductive IsNode (n : NamedExpr) : NamedExpr → Prop where
  | root : IsNode n n
  | child {e c : NamedExpr} (hc : c ∈ e.children) (h : IsNode n c) : IsNode n e

/-- The node spans from one of the tokens to another one; so do its parts, which are in the node's
span, in order and apart. -/
structure Spanned (ts : List Token) (n : NamedExpr) : Prop where
  span : n.span.Of ts
  parts : ∀ s ∈ n.partSpans, s.Of ts ∧ s.Within n.span
  apart : n.partSpans.Pairwise Span.Before

def Nests (ts : List Token) (e : NamedExpr) : Prop :=
  ∀ n : NamedExpr, n.IsNode e → n.Spanned ts

variable {ts us : List Token} {e : NamedExpr}

theorem Nests.mono (h : e.Nests ts) (hts : ts ⊆ us) : e.Nests us := by
  intro n hn
  obtain ⟨hspan, hparts, hapart⟩ := h n hn
  exact ⟨hspan.mono hts, fun s hs => (hparts s hs).imp_left (·.mono hts), hapart⟩

theorem Nests.intro (he : e.Spanned ts) (hbelow : ∀ c ∈ e.children, c.Nests ts) : e.Nests ts := by
  intro n hn
  cases hn with
  | root => exact he
  | child hc h => exact hbelow _ hc n h

end Expr

/-! ## Rows of spans -/

/-- If the tokens are in order, then so are the spans, each from one of the tokens to another one,
and the expressions nest. -/
def Lays (ts : List Token) (ss : List Span) (es : List NamedExpr) : Prop :=
  Ordered ts → (∀ s ∈ ss, s.Of ts) ∧ ss.Pairwise Span.Before ∧ ∀ e ∈ es, e.Nests ts

namespace Lays

variable {ts us : List Token} {ss ss' : List Span} {es es' : List NamedExpr} {n : NamedExpr}

theorem nil : Lays [] [] [] := fun _ => ⟨nofun, .nil, nofun⟩

/-- Nodes laid out over two stretches are laid out over both together. -/
theorem append (h : Lays ts ss es) (h' : Lays us ss' es') :
    Lays (ts ++ us) (ss ++ ss') (es ++ es') := by
  intro hordered
  obtain ⟨hts, hus, hboth⟩ := hordered.append
  obtain ⟨hss, hrow, hes⟩ := h hts
  obtain ⟨hss', hrow', hes'⟩ := h' hus
  have hleft : ts ⊆ ts ++ us := List.subset_append_left ts us
  have hright : us ⊆ ts ++ us := List.subset_append_right ts us
  refine ⟨?_, ?_, ?_⟩
  · exact List.forall_mem_append.mpr
      ⟨fun s hs => (hss s hs).mono hleft, fun s hs => (hss' s hs).mono hright⟩
  · refine List.pairwise_append.mpr ⟨hrow, hrow', fun s hs s' hs' => ?_⟩
    obtain ⟨t, ht, hstop⟩ := (hss s hs).stops
    obtain ⟨u, hu, hstart⟩ := (hss' s' hs').starts
    rw [Span.Before, hstop, hstart]
    exact hboth t ht u hu
  · exact List.forall_mem_append.mpr
      ⟨fun e he => (hes e he).mono hleft, fun e he => (hes' e he).mono hright⟩

/-- A token whose span counts. -/
theorem token (t : Token) (h : Lays ts ss es) : Lays (t :: ts) (t.span :: ss) es := by
  have hone : Lays [t] [t.span] [] := by
    intro hordered
    have hspan : t.span.Of [t] := ⟨hordered.proper t (.head _), ⟨t, .head _, rfl⟩, t, .head _, rfl⟩
    exact ⟨List.forall_mem_singleton.mpr hspan, List.pairwise_singleton _ _, nofun⟩
  exact append hone h

/-- A token between the parts. -/
theorem sign (t : Token) (h : Lays ts ss es) : Lays (t :: ts) ss es := by
  have hone : Lays [t] [] [] := fun _ => ⟨nofun, .nil, nofun⟩
  exact append hone h

/-- An expression that is one token. -/
theorem leaf (t : Token) (n : NamedExpr) (hspan : n.span = t.span) (hchildren : n.children = [])
    (hparts : n.partSpans ⊆ [t.span]) (hsingle : n.partSpans.length ≤ 1) :
    Lays [t] [n.span] [n] := by
  intro hordered
  obtain ⟨hof, hrow, -⟩ := token t nil hordered
  rw [← hspan] at hof hrow hparts
  refine ⟨hof, hrow, List.forall_mem_singleton.mpr (.intro ⟨hof _ (.head _), ?_, ?_⟩ ?_)⟩
  · intro s hs
    obtain rfl := List.mem_singleton.mp (hparts hs)
    exact ⟨hof _ (.head _), le_rfl, le_rfl⟩
  · rcases hn : n.partSpans with _ | ⟨s, _ | ⟨s', ss⟩⟩
    · exact .nil
    · exact List.pairwise_singleton _ _
    · simp [hn] at hsingle
  · rw [hchildren]
    exact nofun

/-- An expression that spans from the first to the last of the spans in a row. -/
theorem node (n : NamedExpr) (s : Span) (mid : List Span) (s' : Span)
    (h : Lays ts (s :: (mid ++ [s'])) es) (hspan : n.span = s.merge s')
    (hparts : n.partSpans.Sublist (s :: (mid ++ [s']))) (hchildren : n.children ⊆ es) :
    Lays ts [n.span] [n] := by
  intro hordered
  obtain ⟨hof, hrow, hes⟩ := h hordered
  have hfirst := hof s (.head _)
  have hlast := hof s' (by simp)
  have hbefore : ∀ t ∈ mid ++ [s'], s.Before t := (List.pairwise_cons.mp hrow).1
  rw [Span.merge_eq hfirst.toProper hlast.toProper (hbefore s' (by simp))] at hspan
  have hwithin : ∀ t ∈ s :: (mid ++ [s']), t.Within n.span := by
    intro t ht
    have hstart : s.start ≤ t.start := by
      rcases List.mem_cons.mp ht with rfl | ht
      · exact le_rfl
      · exact hfirst.forward.trans (hbefore t ht).le
    have hstop : t.stop ≤ s'.stop := by
      rw [← List.cons_append, List.mem_append, List.mem_singleton] at ht
      rcases ht with ht | rfl
      · rw [← List.cons_append, List.pairwise_append] at hrow
        exact (hrow.2.2 t ht s' (.head _)).le.trans hlast.forward
      · exact le_rfl
    rw [hspan]
    exact ⟨hstart, hstop⟩
  have hnode : n.span.Of ts := by
    have hforward := (hwithin s' (by simp)).1.trans hlast.forward
    rw [hspan] at hforward ⊢
    exact ⟨⟨hfirst.real, hforward⟩, hfirst.starts, hlast.stops⟩
  refine ⟨List.forall_mem_singleton.mpr hnode, List.pairwise_singleton _ _,
    List.forall_mem_singleton.mpr (.intro ⟨hnode, fun t ht => ?_, hrow.sublist hparts⟩ ?_)⟩
  · exact ⟨hof t (hparts.subset ht), hwithin t (hparts.subset ht)⟩
  · exact fun c hc => hes c (hchildren hc)

end Lays

/-! ## Phrases -/

def Nonterminal.Laid (ts : List Token) : (nt : Nonterminal) → nt.Tree → Prop
  | .level _, e => Lays ts [Expr.span e] [e]
  | .operands _, f | .calls, f => ∀ (us : List Token) (e : NamedExpr),
      Lays us [e.span] [e] → Lays (us ++ ts) [(f e).span] [f e]
  | .arguments, es | .moreArguments, es | .components, es => Lays ts (es.map Expr.span) es
  | .definitions, ds => Lays ts (Expr.defSpans ds) (Expr.defValues ds)
  | .parameters, ps | .moreParameters, ps => Lays ts (ps.map Ident.span) []

namespace Phrase

open Lays

/-- The parts of a phrase stand in the text in the order in which they stand in its tree. -/
theorem laid {nt : Nonterminal} (d : Phrase nt) : nt.Laid d.tokens d.tree := by
  induction d with
  | unassigned e ih | uncompared e ih | unapplied e ih => exact ih
  | assign l s r ihl ihr | compare l s op hop r ihl ihr =>
    exact node _ _ [] _ (append ihl (sign _ ihr)) rfl (.refl _) (List.Subset.refl _)
  | chain first more ihfirst ihmore | call f more ihf ihmore => exact ihmore _ _ (by assumption)
  | noOperand | noCall =>
    intro us e h
    rwa [tokens, List.append_nil]
  | operand s op hop e more ihe ihmore =>
    intro us left hleft
    have hnode := node (Expr.mkBinary op left e.tree) _ [] _
      (append hleft (sign (.ofMark op.mark s) ihe)) rfl (.refl _) (List.Subset.refl _)
    have h := ihmore _ _ hnode
    rwa [List.append_assoc] at h
  | apply s op e ih =>
    exact node _ s [] _ (token ⟨op.token, s⟩ ih) rfl (List.sublist_cons_self _ _)
      (List.Subset.refl _)
  | callOn s args s' more ihargs ihmore =>
    intro us f hf
    have hargs := append ihargs (token (.ofMark .rightParen s') nil)
    have hnode := node (.app (f.span.merge s') f args.tree) f.span (args.tree.map Expr.span) s'
      (append hf (sign (.ofMark .leftParen s) hargs)) rfl
      (.cons_cons _ (List.sublist_append_left _ _)) (by simp [Expr.children])
    simpa using ihmore _ _ hnode
  | noArgument | lastArgument | lastComponent | noParameter | lastParameter => exact nil
  | argument e more ihe ihmore => exact append ihe ihmore
  | nextArgument s e more ihe ihmore | nextComponent s e more ihe ihmore =>
    exact sign _ (append ihe ihmore)
  | lastSemicolon s => exact sign _ nil
  | int s n | bool s b | null s | prim s p =>
    exact leaf _ _ rfl rfl (List.nil_subset _) (Nat.zero_le _)
  | var x => exact leaf _ _ rfl rfl (List.Subset.refl _) le_rfl
  | parens s e s' ih => exact sign _ (append ih (sign _ nil))
  | block s e more s' ihe ihmore =>
    have h := append ihe (append ihmore (token (.ofMark .rightBrace s') nil))
    refine node _ s (e.tree.span :: more.tree.map Expr.span) s' (token (.ofMark .leftBrace s) h)
      rfl ?_ ?_
    · exact .cons _ (List.sublist_append_left _ _)
    · simp [Expr.children]
  | cond s t s1 a s2 b iht iha ihb =>
    have h := append iht (sign (.ofWord .kwThen s1) (append iha (sign (.ofWord .kwElse s2) ihb)))
    exact node _ s [t.tree.span, a.tree.span] _ (token (.ofWord .kwIf s) h) rfl
      (List.sublist_cons_self _ _) (List.Subset.refl _)
  | letIn s kind defs s1 body ihdefs ihbody =>
    have h := append ihdefs (sign (.ofWord .kwIn s1) ihbody)
    exact node _ s _ _ (token (.ofWord kind.word s) h) rfl (List.sublist_cons_self _ _)
      (List.Subset.refl _)
  | lastDefinition x s e s' ih =>
    exact token (.ofIdent x) (sign _ (append ih (sign _ nil)))
  | definition x s e s' more ihe ihmore =>
    exact token (.ofIdent x) (sign _ (append ihe (sign _ ihmore)))
  | map s params s1 body ihparams ihbody =>
    have h := append ihparams (sign (.ofWord .kwTo s1) ihbody)
    exact node _ s _ _ (token (.ofWord .kwMap s) h) rfl (List.sublist_cons_self _ _)
      (List.Subset.refl _)
  | parameter x more ih => exact token (.ofIdent x) ih
  | nextParameter s x more ih => exact sign _ (token (.ofIdent x) ih)

end Phrase

/-! ## Sources -/

namespace Scan

variable {s : Source} {ts : List Token} {fs : List (ScanFault × Span)}

theorem Steps.ordered (h : Steps ⟨1, 1⟩ s.bytes ts fs) : Ordered ts := by
  refine ⟨fun t ht => ?_, h.pairwise⟩
  obtain ⟨before, seg, rest, -, hstep⟩ := h.at_token ht
  have hspans := hstep.spans.1 t (.head _)
  have hcovers := hspans.covers hspans.length_pos
  have hline : 1 ≤ t.span.start.line := by
    have hle := h.le_start.1 t ht
    rw [Pos.le_iff] at hle
    exact hle.elim Nat.le_of_lt (fun h => h.1.le)
  refine ⟨?_, hcovers.1.trans hcovers.2⟩
  rw [Span.isSynthetic, beq_eq_false_iff_ne]
  omega

/-- A text without faults is read to its end. -/
theorem reads_ofSource (hsize : s.bytes.length < 2 ^ 32 - 1) (h : (ofSource s).faults = []) :
    Reads ⟨1, 1⟩ s.bytes (ofSource s) := by
  refine reads_scanFrom 0 ⟨1, 1⟩ s.bytes (room_start hsize) ?_
  change 0 + (ofSource s).faults.length < Report.limit
  rw [h]
  decide

end Scan

/-- The tree of a source nests in the tokens of its text. -/
theorem exists_nests {s : Source} (hsize : s.bytes.length < 2 ^ 32 - 1) {e : NamedExpr}
    (h : parseSource s = .ok e) :
    ∃ ts, Scan.Steps ⟨1, 1⟩ s.bytes ts (Scan.ofSource s).faults ∧ e.Nests ts := by
  obtain ⟨hfaults, hparse⟩ := parseSource_eq_ok.mp h
  obtain ⟨ts, htokens, hsteps⟩ := Scan.reads_ofSource hsize hfaults
  have hkinds : ∀ t ∈ ts, t.kind ≠ .eof := by
    intro t ht
    obtain ⟨_, _, _, _, hstep⟩ := hsteps.at_token ht
    exact (hstep.alone ⟨1, 1⟩).2.2.2.2.2
  rw [htokens] at hparse
  obtain ⟨d, rest, hd, hend, -, rfl⟩ := exists_phrase_of_parseTokens rfl hparse
  obtain ⟨rfl, -⟩ := d.tokens_eq_of_append hkinds hd rfl hend
  exact ⟨d.tokens, hsteps, (d.laid hsteps.ordered).2.2 _ (.head _)⟩

def callInParentheses : Source := ⟨"test.jam", "-((f))(1, 2)"⟩

def calledInParentheses : NamedExpr :=
  let point (k : Nat) : Span := .point ⟨1, k⟩
  .app ⟨⟨1, 4⟩, ⟨1, 12⟩⟩ (.var (point 4) ⟨"f", point 4⟩) [.int (point 8) 1, .int (point 11) 2]

end Mapling

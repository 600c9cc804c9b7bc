import SelectorCheck.Proofs.Checking
import SelectorCheck.Proofs.Reading

/-
  Where violations point.

  A violation is raised at the expression that broke the pattern. That expression is
  met on the way from the selector's argument to its parameter (`Expr.Reaches`), and
  on that way every expression is the expression of a node of the syntax tree. The one
  expression that stands for no node, the right side of a test against a type, is
  never on the way, because no reading goes into an operator. So a violation has the
  place of a node in the subtree of the invocation, and in a tree whose ranges are
  nested it lies inside the call and inside the text.

  What is proved:
    1. `slice_of_boundaries`: the slice between two character boundaries is the part
       of the text between them.
    2. `Selector.reaches_offending`: what a rejection blames is on the way from the
       argument to the parameter.
    3. `Lowering.exists_node_of_reaches`: what is on the way is read from a node of
       the subtree.
    4. `violation_points_into_call`: the place, the label and the quotation of every
       violation on a call found in a syntax tree.
-/

namespace SelectorCheck

/-! ## Slices between character boundaries -/

namespace Text

theorem pos?_of_isValid {s : String} {p : String.Pos.Raw} (h : p.IsValid s) :
    ∃ q : s.Pos, s.pos? p = some q ∧ q.offset = p := by
  have hslice : p.IsValidForSlice s.toSlice :=
    String.Pos.Raw.isValidForSlice_toSlice_iff.mpr h
  refine ⟨String.Pos.ofToSlice (s.toSlice.pos p hslice), ?_, rfl⟩
  simp [String.pos?, String.Slice.pos?, String.Pos.Raw.isValidForSlice_eq_true_iff, hslice]

theorem slice_of_boundaries {s : String} {start stop : Nat} (hle : start ≤ stop)
    (hstart : String.Pos.Raw.IsValid s ⟨start⟩) (hstop : String.Pos.Raw.IsValid s ⟨stop⟩) :
    ∃ before after, s = before ++ slice s start stop ++ after ∧
      before.utf8ByteSize = start ∧ (slice s start stop).utf8ByteSize = stop - start := by
  obtain ⟨b, hb, hbo⟩ := pos?_of_isValid hstart
  obtain ⟨e, he, heo⟩ := pos?_of_isValid hstop
  have hslice : slice s start stop = s.extract b e := by
    simp [slice, slice?, hle, hb, he]
  have hend : stop ≤ s.toByteArray.size := by
    simpa [String.Pos.Raw.le_iff] using hstop.le_rawEndPos
  refine ⟨s.extract s.startPos b, s.extract e s.endPos, ?_, ?_, ?_⟩
  · -- the three parts together are all the bytes
    rw [← String.toByteArray_inj]
    simp only [hslice, String.toByteArray_append, String.toByteArray_extract, hbo, heo]
    calc s.toByteArray
        = s.toByteArray.extract 0 s.toByteArray.size := ByteArray.extract_zero_size.symm
      _ = s.toByteArray.extract 0 stop ++ s.toByteArray.extract stop s.toByteArray.size :=
        ByteArray.extract_eq_extract_append_extract stop (Nat.zero_le _) hend
      _ = s.toByteArray.extract 0 start ++ s.toByteArray.extract start stop ++
            s.toByteArray.extract stop s.toByteArray.size := by
        rw [ByteArray.extract_eq_extract_append_extract start (Nat.zero_le _) hle]
  · have hzero : s.startPos.offset.byteIdx = 0 := rfl
    rw [← String.size_toByteArray, String.toByteArray_extract, ByteArray.size_extract, hbo, hzero]
    dsimp only
    omega
  · rw [hslice, ← String.size_toByteArray, String.toByteArray_extract, ByteArray.size_extract,
      hbo, heo]
    dsimp only
    omega

end Text

/-! ## What a rejection blames -/

namespace Expr

/-- `e.Reaches x`: `x` is met on the way from `e` towards the parameter of a
selector. -/
inductive Reaches : Expr → Expr → Prop
  | refl (e : Expr) : Reaches e e
  | paren {inner x : Expr} {span : Span} : Reaches inner x → Reaches (.paren inner span) x
  | member {receiver x : Expr} {m : String} {span : Span} :
      Reaches receiver x → Reaches (.member receiver m span) x
  | cast {operand x : Expr} {type : String} {span : Span} :
      Reaches operand x → Reaches (.cast type operand span) x
  | lambda {ps : List String} {body x : Expr} {span : Span} :
      Reaches body x → Reaches (.lambda ps body span) x

theorem Reaches.of_encloses {e y x : Expr} (h : e.Encloses y) (hx : y.Reaches x) :
    e.Reaches x := by
  induction h with
  | refl _ => exact hx
  | paren _ ih => exact .paren (ih hx)

theorem Reaches.of_bare {e x : Expr} (hx : e.bare.Reaches x) : e.Reaches x :=
  .of_encloses (encloses_bare e) hx

end Expr

namespace Selector

theorem reaches_of_members_error {p : String} {e : Expr} {r : Rejection}
    (h : members p e = .error r) : e.Reaches r.offending := by
  fun_induction members p e with
  | case1 inner _ ih => exact .paren (ih h)
  | case2 receiver m _ ms _ _ => cases h
  | case3 receiver m _ r' hr ih =>
    obtain rfl := Except.error.inj h
    exact .member (ih hr)
  | case4 => cases h
  | _ =>
    obtain rfl := Except.error.inj h
    exact .refl _

theorem splitCast_reaches {body x : Expr} (h : (splitCast body).2.Reaches x) :
    body.Reaches x := by
  apply Expr.Reaches.of_bare
  unfold splitCast at h
  split at h
  next type operand span hb =>
    rw [hb]
    exact .cast (.of_bare h)
  next => exact h

/-- A rejection blames the argument itself or an expression on the way to the
parameter. -/
theorem reaches_offending {s : Selector} {max : Nat} {r : Rejection} {span : Span}
    (hs : s.argument.Encloses (.lambda s.lambda.parameters s.lambda.body span))
    (h : s.classify max = .invalid r) : s.argument.Reaches r.offending := by
  have hbody : ∀ x, (splitCast s.lambda.body).2.Reaches x → s.argument.Reaches x :=
    fun x hx => .of_encloses hs (.lambda (splitCast_reaches hx))
  unfold classify at h
  split at h
  · dsimp only at h
    split at h
    next r' hm =>
      obtain rfl := Verdict.invalid.inj h
      exact hbody _ (reaches_of_members_error hm)
    next ms hm =>
      split at h
      · obtain rfl := Verdict.invalid.inj h
        exact hbody _ (.refl _)
      · split at h <;> cases h
  · obtain rfl := Verdict.invalid.inj h
    exact .refl _

end Selector

theorem Lowering.exists_node_of_reaches {source : String} {n : Node} {x : Expr}
    (h : (expr source n).Reaches x) : ∃ m ∈ n.nodes, x = expr source m := by
  generalize he : expr source n = e at h
  -- each step of the way goes from a node to one of its children
  induction h generalizing n with
  | refl e => exact ⟨n, Node.mem_nodes_self n, he.symm⟩
  | paren _ ih =>
    cases reading_of_eq he with
    | paren _ hi => exact Node.exists_mem_nodes_of_child (Node.firstNamed?_mem hi) (ih rfl)
    | apart h _ => cases h
  | member _ ih =>
    cases reading_of_eq he with
    | member _ hr _ => exact Node.exists_mem_nodes_of_child (Node.child?_mem hr) (ih rfl)
    | apart h _ => cases h
  | cast _ ih =>
    cases reading_of_eq he with
    | cast _ _ hv => exact Node.exists_mem_nodes_of_child (Node.child?_mem hv) (ih rfl)
    | apart h _ => cases h
  | lambda _ ih =>
    cases reading_of_eq he with
    | lambda _ hb => exact Node.exists_mem_nodes_of_child (Node.body?_mem hb) (ih rfl)
    | apart h _ => cases h

/-! ## Calls of a tree and the expressions that rules blame -/

theorem Node.mem_calls {methods : MethodTable} {source : String} {root : Node} {c : Call}
    (h : c ∈ root.calls methods source) :
    ∃ inv ∈ root.nodes, inv.watchedCall? methods source = some c := by
  obtain ⟨inv, hinv, hc⟩ := List.mem_filterMap.mp h
  obtain ⟨n, hn, hm⟩ := mem_nodesOf.mp (mem_nodesOf_of_mem_visit hinv)
  obtain rfl := List.mem_singleton.mp hn
  exact ⟨inv, hm, hc⟩

theorem Node.watchedCall?_reads {methods : MethodTable} {source : String} {inv : Node} {c : Call}
    (h : inv.watchedCall? methods source = some c) :
    c.arguments = Lowering.listed source inv.children ∧ c.span = inv.span := by
  unfold watchedCall? at h
  split at h
  · cases h
  · split at h
    · cases h
    · obtain rfl := Option.some.inj h
      exact ⟨rfl, rfl⟩

theorem MethodTable.PassesSelector.mem_arguments {t : MethodTable} {c : Call} {s : Selector}
    (h : t.PassesSelector c s) :
    ∃ x ∈ c.arguments, s.argument = x.value ∧
      ∃ span, s.argument.Encloses (.lambda s.lambda.parameters s.lambda.body span) := by
  obtain ⟨m, σ, _, _, x, ⟨i, _, rfl⟩, harg, hl⟩ := h
  exact ⟨_, List.get_mem _ _, harg, by rw [harg]; exact hl⟩

/-- What a rule blames in a call found at an invocation is the expression of a node in
the subtree of the invocation. -/
theorem Rule.exists_node_of_rejection {r : Rule} {t methods : MethodTable} {source : String}
    {inv : Node} {c : Call} {rejection : Rejection}
    (hc : inv.watchedCall? methods source = some c)
    (h : r.rejection? t c = some rejection) :
    ∃ n ∈ inv.nodes, rejection.offending = Lowering.expr source n := by
  obtain ⟨_, s, hs, hv⟩ := rejection?_eq_some_iff.mp h
  obtain ⟨x, hx, harg, span, hl⟩ := hs.mem_arguments
  have hreach := Selector.reaches_offending hl hv
  rw [(Node.watchedCall?_reads hc).1] at hx
  obtain ⟨v, hv, hxv⟩ := Lowering.mem_listed hx
  rw [harg, hxv] at hreach
  obtain ⟨n, hn, he⟩ := Lowering.exists_node_of_reaches hreach
  exact ⟨n, Node.mem_nodes_trans hn hv, he⟩

/-! ## Trees over a text -/

/-- A syntax tree over a text: no range is reversed, every range lies in that of the
parent, and the whole lies in the text. -/
structure Node.Over (root : Node) (source : String) : Prop where
  ordered : ∀ n ∈ root.nodes, n.start ≤ n.stop
  nested : ∀ n ∈ root.nodes, ∀ c ∈ n.children, n.start ≤ c.start ∧ c.stop ≤ n.stop
  inside : root.stop.toNat ≤ source.utf8ByteSize

instance (root : Node) (source : String) : Decidable (root.Over source) :=
  decidable_of_iff
    ((∀ n ∈ root.nodes, n.start ≤ n.stop) ∧
      (∀ n ∈ root.nodes, ∀ c ∈ n.children, n.start ≤ c.start ∧ c.stop ≤ n.stop) ∧
      root.stop.toNat ≤ source.utf8ByteSize)
    ⟨fun h => ⟨h.1, h.2.1, h.2.2⟩, fun h => ⟨h.ordered, h.nested, h.inside⟩⟩

theorem Node.range_le {root : Node}
    (hnested : ∀ n ∈ root.nodes, ∀ c ∈ n.children, n.start ≤ c.start ∧ c.stop ≤ n.stop)
    {n m : Node} (hm : m ∈ root.nodes) (hn : n ∈ m.nodes) :
    m.start ≤ n.start ∧ n.stop ≤ m.stop := by
  induction m using Node.induction_children with
  | step m ih =>
    rcases Node.mem_nodes.mp hn with rfl | ⟨c, hc, hnc⟩
    · exact ⟨UInt64.le_refl _, UInt64.le_refl _⟩
    · have hcr : c ∈ root.nodes :=
        Node.mem_nodes_trans (Node.mem_nodes_of_child hc (Node.mem_nodes_self c)) hm
      obtain ⟨h₁, h₂⟩ := hnested m hm c hc
      obtain ⟨h₃, h₄⟩ := ih c hc hcr hnc
      exact ⟨UInt64.le_trans h₁ h₃, UInt64.le_trans h₄ h₂⟩

theorem Node.Over.range_le {root : Node} {source : String} (h : root.Over source) {n m : Node}
    (hm : m ∈ root.nodes) (hn : n ∈ m.nodes) : m.start ≤ n.start ∧ n.stop ≤ m.stop :=
  Node.range_le h.nested hm hn

namespace Token

theorem stop_span (t : Token) : t.span.stop = t.stop := by
  unfold span Span.stop
  grind

theorem length_span_eq_zero_iff {t : Token} : t.span.length = 0 ↔ t.start = t.stop := by
  unfold span
  grind

theorem toNat_line_span {t : Token} (h : t.row.toNat + 1 < UInt64.size) :
    t.span.line.toNat = t.row.toNat + 1 := by
  have hmod : t.span.line.toNat = (t.row.toNat + 1) % 2 ^ 64 := UInt64.toNat_add _ _
  rw [hmod]
  exact Nat.mod_eq_of_lt h

theorem toNat_stop_span {t : Token} (h : t.start ≤ t.stop) :
    t.span.offset.toNat + t.span.length.toNat = t.stop.toNat := by
  have hlength : t.span.length.toNat = t.stop.toNat - t.start.toNat :=
    UInt64.toNat_sub_of_le _ _ h
  have hle : t.start.toNat ≤ t.stop.toNat := h
  rw [hlength]
  exact Nat.add_sub_cancel' hle

end Token

/-! ## Violations -/

/-- How a violation of a call found at `inv` is tied to a node `n` of its subtree. -/
structure Violation.PointsAt (v : Violation) (file : SourceFile) (r : Rule) (c : Call)
    (inv n : Node) : Prop where
  /-- The blamed expression is that of the node, not one made up. -/
  blamed : ∃ rejection, r.rejection? file.methods c = some rejection ∧
    rejection.offending = Lowering.expr file.content n
  /-- The place is the byte range and the position of the node. -/
  place : v.location =
    { file := file.relativePath, line := n.row + 1, column := n.column + 1, offset := n.start,
      length := n.stop - n.start }
  /-- Lines count from one, so the place is none of zeros. -/
  counted : n.row.toNat + 1 < UInt64.size → v.location.line.toNat = n.row.toNat + 1
  /-- The range lies in that of the call. -/
  inCall : c.span.offset.toNat ≤ v.location.offset.toNat ∧
    v.location.offset.toNat + v.location.length.toNat ≤ c.span.offset.toNat + c.span.length.toNat
  /-- The call lies in the text. -/
  inText : c.span.offset.toNat + c.span.length.toNat ≤ file.content.utf8ByteSize
  /-- The label stands at the invocation, if that has an extent. -/
  label : v.labels =
    if inv.start = inv.stop then []
    else [{ location := inv.span.location file.relativePath,
            message := "in this call to " ++ c.callee }]
  /-- Between boundaries, the message quotes the text of the node. -/
  quoted : String.Pos.Raw.IsValid file.content ⟨n.start.toNat⟩ →
    String.Pos.Raw.IsValid file.content ⟨n.stop.toNat⟩ → n.start ≠ n.stop →
    ∃ before text after, file.content = before ++ text ++ after ∧
      before.utf8ByteSize = n.start.toNat ∧
      text.utf8ByteSize = n.stop.toNat - n.start.toNat ∧
      ∃ d ∈ r.diagnostics, ∃ reason : Reason, v.message =
        s!"{c.callee} selector cannot be used {d.concern} because {reason.text}" ++
          " (`" ++ text ++ "`)"

theorem Rejection.message_of_boundaries {rejection : Rejection} {file : SourceFile} {n : Node}
    (he : rejection.offending = Lowering.expr file.content n) (hle : n.start ≤ n.stop)
    (hstart : String.Pos.Raw.IsValid file.content ⟨n.start.toNat⟩)
    (hstop : String.Pos.Raw.IsValid file.content ⟨n.stop.toNat⟩) (hne : n.start ≠ n.stop)
    (c : Call) :
    ∃ before text after, file.content = before ++ text ++ after ∧
      before.utf8ByteSize = n.start.toNat ∧
      text.utf8ByteSize = n.stop.toNat - n.start.toNat ∧
      ∀ d, rejection.message file c d =
        s!"{c.callee} selector cannot be used {d.concern} because {rejection.reason.text}" ++
          " (`" ++ text ++ "`)" := by
  have hle' : n.start.toNat ≤ n.stop.toNat := hle
  have hne' : n.start.toNat ≠ n.stop.toNat := fun h => hne (UInt64.toNat_inj.mp h)
  obtain ⟨before, after, hs, hb, ht⟩ := Text.slice_of_boundaries hle' hstart hstop
  have hsnippet : file.snippet rejection.offending.span =
      Text.slice file.content n.start.toNat n.stop.toNat := by
    rw [he, Lowering.span_expr, SourceFile.snippet, Token.stop_span]
    rfl
  have hsome : Text.slice file.content n.start.toNat n.stop.toNat ≠ "" := by
    rw [ne_eq, ← String.utf8ByteSize_eq_zero_iff, ht]
    omega
  refine ⟨before, _, after, hs, hb, ht, fun d => ?_⟩
  simp only [message, withQuote, hsnippet, if_neg hsome]

/-- **Every violation points at syntax inside its call.** Let a tree over a text have
nested ranges. Each violation that a rule raises on a call found in the tree has the
byte range and the position of a node in the subtree of the call's invocation. So it
lies inside the call, whose range the label has, and inside the text, and it never has
the span of zeros of an expression that stands for no node. Between character
boundaries the message quotes the text of the node. -/
theorem violation_points_into_call {file : SourceFile} {root : Node}
    (hroot : root.Over file.content) (methods : MethodTable) {c : Call}
    (hc : c ∈ root.calls methods file.content) (r : Rule) {v : Violation}
    (hv : v ∈ r.checkCall file c) :
    ∃ inv ∈ root.nodes, inv.watchedCall? methods file.content = some c ∧ c.span = inv.span ∧
      ∃ n ∈ inv.nodes, v.PointsAt file r c inv n := by
  obtain ⟨inv, hinv, hcall⟩ := Node.mem_calls hc
  have hspan := (Node.watchedCall?_reads hcall).2
  unfold Rule.checkCall at hv
  split at hv
  next rejection hrej =>
    obtain ⟨n, hn, he⟩ := Rule.exists_node_of_rejection hcall hrej
    obtain ⟨d, hd, rfl⟩ := List.mem_map.mp hv
    refine ⟨inv, hinv, hcall, hspan, n, hn, ?_⟩
    have hnroot : n ∈ root.nodes := Node.mem_nodes_trans hn hinv
    have hnle := hroot.ordered n hnroot
    have hinvle := hroot.ordered inv hinv
    obtain ⟨hfrom, hto⟩ := hroot.range_le hinv hn
    have hplace : file.location rejection.offending.span = n.span.location file.relativePath := by
      rw [he, Lowering.span_expr]
      rfl
    -- the ends of the two ranges, as numbers
    have hnstop : n.span.offset.toNat + n.span.length.toNat = n.stop.toNat :=
      Token.toNat_stop_span hnle
    have hcstop : c.span.offset.toNat + c.span.length.toNat = inv.stop.toNat := by
      rw [hspan]
      exact Token.toNat_stop_span hinvle
    have htext : inv.stop.toNat ≤ root.stop.toNat :=
      (hroot.range_le (Node.mem_nodes_self root) hinv).2
    exact {
      blamed := ⟨rejection, hrej, he⟩
      place := hplace
      counted := fun hrow => by
        rw [hplace]
        exact Token.toNat_line_span hrow
      inCall := by
        rw [hplace, hcstop]
        refine ⟨?_, ?_⟩
        · rw [hspan]
          exact hfrom
        · exact hnstop.le.trans hto
      inText := by
        rw [hcstop]
        exact htext.trans hroot.inside
      label := by
        simp only [Rejection.callLabels, hspan, Token.length_span_eq_zero_iff]
        rfl
      quoted := fun hstart hstop hne => by
        obtain ⟨before, text, after, hs, hb, ht, hmessage⟩ :=
          Rejection.message_of_boundaries he hnle hstart hstop hne c
        exact ⟨before, text, after, hs, hb, ht, d, hd, rejection.reason, hmessage d⟩ }
  next => simp at hv

/-- A call with a test against a type in its selector. -/
def typeTestFile : SourceFile := .under ⟨"/work"⟩ ⟨"/work/a.cs"⟩ "map.Ignore(l => (l as T).B)"

/-- The tree of that call. -/
def typeTestTree : Node :=
  .onLine "invocation_expression" none 0 27
    [.onLine "member_access_expression" (some "function") 0 10
      [.onLine "identifier" (some "expression") 0 3 [], .mark "." 3 4,
       .onLine "identifier" (some "name") 4 10 []],
     .onLine "argument_list" (some "arguments") 10 27
      [.mark "(" 10 11,
       .onLine "argument" none 11 26
        [.onLine "lambda_expression" none 11 26
          [.onLine "implicit_parameter" (some "parameters") 11 12 [], .mark "=>" 13 15,
           .onLine "member_access_expression" (some "body") 16 26
            [.onLine "parenthesized_expression" (some "expression") 16 24
              [.mark "(" 16 17,
               .onLine "as_expression" none 17 23
                [.onLine "identifier" (some "left") 17 18 [], .mark "as" 19 21,
                 .onLine "identifier" (some "right") 22 23 []],
               .mark ")" 23 24],
             .mark "." 24 25, .onLine "identifier" (some "name") 25 26 []]]],
       .mark ")" 26 27]]

/-- The test as a whole is blamed, at its own place. -/
theorem violation_points_into_call_typeTest :
    typeTestTree.Over typeTestFile.content ∧
      ∃ c ∈ typeTestTree.calls .standard typeTestFile.content,
        ∃ v ∈ Rule.ignoreExpression.checkCall typeTestFile c,
          v.location = { file := ⟨"a.cs"⟩, line := 1, column := 18, offset := 17, length := 6 } ∧
          ∃ inv ∈ typeTestTree.nodes, ∃ n ∈ inv.nodes,
            v.PointsAt typeTestFile Rule.ignoreExpression c inv n := by
  have hover : typeTestTree.Over typeTestFile.content := by decide +kernel
  have hplaces : ((typeTestTree.calls .standard typeTestFile.content).flatMap
      (Rule.ignoreExpression.checkCall typeTestFile)).map (·.location) =
        [{ file := ⟨"a.cs"⟩, line := 1, column := 18, offset := 17, length := 6 }] := by
    decide +kernel
  obtain ⟨v, hv, hplace⟩ := List.mem_map.mp (hplaces ▸ List.mem_singleton_self _)
  obtain ⟨c, hc, hv⟩ := List.mem_flatMap.mp hv
  obtain ⟨inv, hinv, _, _, n, hn, hp⟩ := violation_points_into_call hover .standard hc _ hv
  exact ⟨hover, c, hc, v, hv, hplace, inv, hinv, n, hn, hp⟩

end SelectorCheck

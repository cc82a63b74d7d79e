import ProcLang.Proofs.Extents.State

/-!
# ProcLang.Proofs.Extents.Operands

**The parser of expressions gives spans that are extents** (`expression_measures`). Each rule for an
operand or a tail takes tokens, and the node that it adds covers them from the first to the last one that
is no parenthesis around the whole. What a tail is applied to has been read from the tokens in front of
it, so the invariant of the loop speaks of all tokens since the loop began.
-/

namespace ProcLang

open Arena Token

open scoped Position

namespace Parser

open State

variable {source : String} {s₀ s s' : State} {placed : Placed}

/-- Between two states an expression was read, with the parentheses around it. -/
def State.ReadsOperand (s : State) (placed : Placed) (s' : State) : Prop :=
  ∃ front core behind, s.unread = front ++ core ++ behind ++ s'.unread ∧
    ReadFrom s'.arena (.operand placed.id front behind) core ∧
    s'.arena.get? placed.id = some placed.node

/-- Between two states arguments were read. -/
def State.ReadsArguments (s : State) (items : List Placed) (s' : State) : Prop :=
  ∃ w, s.unread = w ++ s'.unread ∧ ReadFrom s'.arena (.arguments (items.map (·.id))) w

/-- A parser for nested expressions does what it should. -/
def GivesOperands (source : String) (self : BindingPower → Parser Placed) : Prop :=
  ∀ power s, s.Measured source → Measures source (self power) s s.ReadsOperand

/-- The extent of an expression that was read. -/
theorem State.ReadsOperand.exists_extent (h : s.ReadsOperand placed s') :
    ∃ front core behind, s.unread = front ++ core ++ behind ++ s'.unread ∧
      ReadFrom s'.arena (.operand placed.id front behind) core ∧ core ≠ [] ∧
      placed.node.span = extent core := by
  obtain ⟨front, core, behind, hunread, hread, hget⟩ := h
  exact ⟨front, core, behind, hunread, hread, hread.exists_node.1, hread.span_eq hget⟩

/-- **A node is placed** over the tokens since some earlier state. -/
theorem place_measures {node : Expression} (front core behind : List Token)
    (hleads : s₀.Leads source s) (hunread : s₀.unread = front ++ core ++ behind ++ s.unread)
    (hread : ∀ a id, s.arena.ExtendedBy a → a.get? id = some node →
      ReadFrom a (.operand id front behind) core) :
    Measures source (place node) s s₀.ReadsOperand := by
  have hget := s.arena.get?_add .expression node
  have hread := hread _ _ (s.arena.extendedBy_add .expression node) hget
  obtain ⟨before, htokens, -⟩ := hleads.before.taken
  have hlaid : Node.Laid source (s.added .expression node).arena .expression
      (s.arena.add .expression node).1 node := by
    refine ⟨before, front, core, behind, s.unread, ?_, hread⟩
    rw [htokens, hunread]
    simp
  refine (Measures.add hleads.after hlaid).bind fun id s₁ hadd heq => ?_
  obtain ⟨rfl, rfl⟩ := heq
  exact .pure hadd.after ⟨front, core, behind, hunread, hread, hget⟩

section

variable {self : BindingPower → Parser Placed} (hself : GivesOperands source self)

/-! ### Operands -/

theorem literal_measures (hs : s.Measured source) : Measures source literal s s.ReadsOperand := by
  refine .current_bind ?_
  split
  · exact .raisePast hs _
  · rename_i node hnode
    obtain ⟨hspan, -, -, hend⟩ := literalNode_covers hnode
    obtain ⟨hunread, -⟩ := hs.unread_advance hend
    refine .skip_bind hs fun hskip => ?_
    refine place_measures [] [s.current] [] hskip hunread fun a id hext hget => ?_
    exact .literal hnode ⟨node, hget, rfl, hspan⟩

include hself

theorem arguments_measures (hs : s.Measured source) :
    Measures source (arguments self) s s.ReadsArguments := by
  refine .current_bind ?_
  split
  · exact .pure hs ⟨[], rfl, .noArguments⟩
  rw [commaSeparated_eq]
  -- before a round: no argument was read, or some and a comma
  let Front (items : List Placed) (s₁ : State) : Prop :=
    (items = [] ∧ s₁ = s) ∨ ∃ w comma, s.unread = w ++ comma :: s₁.unread ∧ comma.kind = .comma ∧
      items ≠ [] ∧ ReadFrom s₁.arena (.arguments (items.map (·.id))) w
  refine .loop (I := Front) hs (Or.inl ⟨rfl, rfl⟩) fun items s₁ hleads hfront => ?_
  refine (hself .loosest s₁ hleads.after).bind fun item s₂ hitem hread => ?_
  obtain ⟨front, core, behind, hunread, hread, -⟩ := hread
  have hreads : s.ReadsArguments (items ++ [item]) s₂ := by
    rcases hfront with ⟨rfl, rfl⟩ | ⟨w, comma, hbefore, hcomma, hne, hothers⟩
    · exact ⟨front ++ core ++ behind, hunread, .lastArgument hread⟩
    · refine ⟨w ++ comma :: (front ++ core ++ behind), by simp [hbefore, hunread], ?_⟩
      rw [List.map_append]
      exact .moreArguments (hothers.extend hitem.arena) (by simpa using hne) hcomma hread
  refine .current_bind ?_
  split
  · rename_i hcomma
    obtain ⟨w, hw, harguments⟩ := hreads
    obtain ⟨htaken, -⟩ := hitem.after.unread_advance (by rw [hcomma]; nofun)
    refine .skip_bind hitem.after fun hskip => .pure hskip.after (Or.inr ?_)
    exact ⟨w, s₂.current, hw.trans (by rw [← htaken]), hcomma, by simp, harguments.extend hskip.arena⟩
  · exact .pure hitem.after hreads

theorem nameOrCall_measures (hs : s.Measured source) (hkind : s.current.kind = .identifier) :
    Measures source (nameOrCall self) s s.ReadsOperand := by
  obtain ⟨hname, -⟩ := hs.unread_advance (by rw [hkind]; nofun)
  refine .advance_bind hs fun hadvance => .current_bind ?_
  split
  · rename_i hopen
    obtain ⟨hopening, -⟩ := hadvance.after.unread_advance (by rw [hopen]; nofun)
    refine .skip_bind hadvance.after fun hskip => ?_
    refine (arguments_measures hself hskip.after).bind fun items s₁ harguments hreads => ?_
    obtain ⟨w, hw, hread⟩ := hreads
    refine .discard_expect_bind harguments.after fun hclose hexpect => .spanFrom_bind ?_
    obtain ⟨hclosing, hstop⟩ := harguments.after.unread_advance (by rw [hclose]; nofun)
    refine place_measures [] (s.current :: s.advance.2.current :: w ++ [s₁.current]) []
      (hadvance.trans (hskip.trans (harguments.trans hexpect))) ?_ fun a id hext hget => ?_
    · rw [hname, hopening, hw, hclosing]
      simp
    · refine .call hkind hopen (hread.extend (hexpect.arena.trans hext)) hclose
        ⟨_, hget, rfl, ?_⟩
      rw [hstop, extent, stopOf_concat]
      rfl
  · refine place_measures [] [s.current] [] hadvance hname fun a id hext hget => ?_
    exact .name hkind ⟨_, hget, rfl, rfl⟩

theorem grouping_measures (hs : s.Measured source) (hkind : s.current.kind = .openParen) :
    Measures source (grouping self) s s.ReadsOperand := by
  obtain ⟨hopening, -⟩ := hs.unread_advance (by rw [hkind]; nofun)
  refine .skip_bind hs fun hskip => ?_
  refine (hself .loosest _ hskip.after).bind fun inner s₁ hinner hread => ?_
  obtain ⟨front, core, behind, hunread, hread, hget⟩ := hread
  refine .discard_expect_bind hinner.after fun hclose hexpect => .pure hexpect.after ?_
  obtain ⟨hclosing, -⟩ := hinner.after.unread_advance (by rw [hclose]; nofun)
  refine ⟨s.current :: front, core, behind ++ [s₁.current], ?_,
    .grouping hkind (hread.extend hexpect.arena) hclose, hexpect.arena _ _ _ hget⟩
  rw [hopening, hunread, hclosing]
  simp

theorem unary_measures (hs : s.Measured source) : Measures source (unary self) s s.ReadsOperand := by
  refine .current_bind ?_
  split
  · exact .raisePast hs _
  · rename_i operator hoperator
    have htable := mem_prefixOperators_iff.2 hoperator
    have hend : ∀ entry ∈ prefixOperators, entry.1 ≠ .endOfFile := by decide
    obtain ⟨hop, -⟩ := hs.unread_advance (hend _ htable)
    refine .skip_bind hs fun hskip => ?_
    refine (hself .unary _ hskip.after).bind fun operand s₁ hoperand hread => ?_
    obtain ⟨front, core, behind, hunread, hread, hne, hspan⟩ := hread.exists_extent
    refine place_measures [] (s.current :: front ++ core) behind (hskip.trans hoperand) ?_
      fun a id hext hget => ?_
    · rw [hop, hunread]
      simp
    · refine .unary htable (hread.extend hext) ⟨_, hget, rfl, ?_⟩
      rw [Expression.plain, hspan, extent, extent, stopOf_append hne]
      rfl

theorem operand_measures {rule : OperandRule} (hs : s.Measured source)
    (hrule : Grammar.standardOperand s.current.kind = some rule) :
    Measures source (operand self rule) s s.ReadsOperand := by
  cases rule with
  | literal => exact literal_measures hs
  | name => exact nameOrCall_measures hself hs (standardOperand_name_iff.1 hrule)
  | grouping => exact grouping_measures hself hs (standardOperand_grouping_iff.1 hrule)
  | unary => exact unary_measures hself hs

/-! ### Tails -/

/-- An operator and its right operand, behind a left operand. -/
theorem binaryTail_measures {left : Placed} {operator : BinaryOperator} {power : BindingPower}
    (hleads : s₀.Leads source s) (hleft : s₀.ReadsOperand left s) (hop : s.current.IsInfix operator) :
    Measures source (do
      skip
      let right ← self power
      place (.plain (.binary operator left.id right.id)
        ⟨left.node.span.start, right.node.span.stop⟩)) s s₀.ReadsOperand := by
  obtain ⟨front, v, inside, hbefore, hleft, hv, hstart⟩ := hleft.exists_extent
  obtain ⟨htaken, -⟩ := hleads.after.unread_advance hop.kind_ne.2
  refine .skip_bind hleads.after fun hskip => ?_
  refine (hself power _ hskip.after).bind fun right s₁ hright hread => ?_
  obtain ⟨inside', w, behind, hunread, hread, hw, hstop⟩ := hread.exists_extent
  refine place_measures front (v ++ inside ++ s.current :: (inside' ++ w)) behind
    (hleads.trans (hskip.trans hright)) ?_ fun a id hext hget => ?_
  · rw [hbefore, htaken, hunread]
    simp
  · refine .binary hop (hleft.extend (hskip.arena.trans (hright.arena.trans hext))) (hread.extend hext)
      ⟨_, hget, rfl, ?_⟩
    rw [Expression.plain, hstart, hstop, extent_append_cons hv hw]
    rfl

theorem index_measures {left : Placed} (hleads : s₀.Leads source s)
    (hleft : s₀.ReadsOperand left s) (hopen : s.current.kind = .openBracket) :
    Measures source (index self left) s s₀.ReadsOperand := by
  obtain ⟨front, v, inside, hbefore, hleft, hv, hstart⟩ := hleft.exists_extent
  obtain ⟨hopening, -⟩ := hleads.after.unread_advance (by rw [hopen]; nofun)
  refine .skip_bind hleads.after fun hskip => ?_
  refine (hself .loosest _ hskip.after).bind fun position s₁ hposition hread => ?_
  obtain ⟨front', w, behind', hunread, hread, -, -⟩ := hread.exists_extent
  refine .discard_expect_bind hposition.after fun hclose hexpect => .spanFrom_bind ?_
  obtain ⟨hclosing, hstop⟩ := hposition.after.unread_advance (by rw [hclose]; nofun)
  refine place_measures front
    (v ++ inside ++ s.current :: (front' ++ w ++ behind' ++ [s₁.current])) []
    (hleads.trans (hskip.trans (hposition.trans hexpect))) ?_ fun a id hext hget => ?_
  · rw [hbefore, hopening, hunread, hclosing]
    simp
  · have hext₁ := hexpect.arena.trans hext
    refine .index (hleft.extend (hskip.arena.trans (hposition.arena.trans hext₁))) hopen
      (hread.extend hext₁) hclose ⟨_, hget, rfl, ?_⟩
    rw [Expression.plain, hstart, hstop, extent_append_cons hv (by simp)]
    rfl

/-- **A tail** makes what was read so far its left operand. -/
theorem tail_measures {left : Placed} {power : BindingPower} {rule : TailRule}
    (hleads : s₀.Leads source s) (hleft : s₀.ReadsOperand left s)
    (hrule : Grammar.standardTail s.current.kind = some (power, rule)) :
    Measures source (tail self rule left power) s s₀.ReadsOperand := by
  rcases standardTail_cases hrule with ⟨rfl, operator, hmem⟩ | ⟨rfl, hdot, -⟩ | ⟨rfl, hopen, -⟩
  · obtain ⟨_, -, -, htoken⟩ := standardTail_of_mem hmem
    refine .current_bind ?_
    rw [htoken]
    exact binaryTail_measures hself hleads hleft (Or.inl ⟨_, hmem⟩)
  · exact binaryTail_measures hself hleads hleft (Or.inr ⟨hdot, rfl⟩)
  · exact index_measures hself hleads hleft hopen

theorem expressionStep_measures : GivesOperands source (expressionStep self Grammar.standard) := by
  intro power s hs
  refine .current_bind ?_
  split
  · exact .refuse hs _
  · rename_i rule hrule
    refine (operand_measures hself hs hrule).bind fun first s₁ hfirst hread => ?_
    -- whatever has been read since the first operand is one expression
    refine .loop (I := fun left s₂ => s.ReadsOperand left s₂) hfirst.after hread
      fun left s₂ hleads hleft => .current_bind ?_
    split
    · exact .pure hleads.after hleft
    · rename_i tailPower rule htail
      split
      · refine (tail_measures hself (hfirst.trans hleads) hleft htail).bind fun next s₃ hnext hread => ?_
        exact .pure hnext.after hread
      · exact .pure hleads.after hleft

end

/-- **Reading an expression** gives the extent of its tokens. -/
theorem expression_measures : GivesOperands source (expression Grammar.standard) := by
  intro power s hs
  exact .recursive (P := fun _ => True) (T := fun s => s.ReadsOperand)
    (fun _ hself power s hs _ => expressionStep_measures (fun power s hs => hself power s hs trivial)
      power s hs) power hs trivial

end Parser

end ProcLang

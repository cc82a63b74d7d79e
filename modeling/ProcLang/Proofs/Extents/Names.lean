import ProcLang.Proofs.Extents.Expressions
import ProcLang.Proofs.Rewriting.Turns
import ProcLang.Proofs.Token.Words
import ProcLang.Proofs.Walk.Keeps

/-!
# ProcLang.Proofs.Extents.Names

**Name resolution keeps expressions over their tokens.** It links names and calls, and may put a call in
the place of a bare name, with the span of the name. `a.Relinked b` says that nothing else sets the
expressions of `b` apart from those of `a`. Then what was read from some tokens in `a` is read from them in
`b` (`ReadFrom.relinked`), and so are the calls that were added (`Relinked.writtenIn`).

Every step of name resolution leads from an arena of this kind to another one, on any arena, trees or not
(`nameResolution_relinked`).
-/

namespace ProcLang

open Arena Token WalkM

/-! ### Expressions that differ in their links -/

/-- Two forms of expressions that differ in their links, and in operands that are related. -/
inductive ExpressionKind.Likewise (R : ExpressionId → ExpressionId → Prop) :
    ExpressionKind → ExpressionKind → Prop
  | integer (value : Int) : Likewise R (.integer value) (.integer value)
  | real (value : Binary64) : Likewise R (.real value) (.real value)
  | boolean (value : Bool) : Likewise R (.boolean value) (.boolean value)
  | identifier (name : String) (target target' : Option VariableId) :
      Likewise R (.identifier name target) (.identifier name target')
  | unary (operator : UnaryOperator) {e e' : ExpressionId} (h : R e e') :
      Likewise R (.unary operator e) (.unary operator e')
  | binary (operator : BinaryOperator) {e e' f f' : ExpressionId} (left : R e e') (right : R f f') :
      Likewise R (.binary operator e f) (.binary operator e' f')
  | call (name : String) (target target' : Option RoutineId) {es es' : List ExpressionId}
      (h : List.Forall₂ R es es') : Likewise R (.call name target es) (.call name target' es')

namespace ExpressionKind.Likewise

variable {R R' : ExpressionId → ExpressionId → Prop} {k k' : ExpressionKind} {x y : ExpressionId}
  {i : Nat}

theorem refl (hR : ∀ e, R e e) (k : ExpressionKind) : Likewise R k k := by
  cases k with
  | integer value => exact .integer value
  | real value => exact .real value
  | boolean value => exact .boolean value
  | identifier name target => exact .identifier name target target
  | unary operator e => exact .unary operator (hR e)
  | binary operator e f => exact .binary operator (hR e) (hR f)
  | call name target es => exact .call name target target (List.forall₂_same.2 fun e _ => hR e)

theorem mono (h : Likewise R k k') (hR : ∀ e e', R e e' → R' e e') : Likewise R' k k' := by
  cases h with
  | integer value => exact .integer value
  | real value => exact .real value
  | boolean value => exact .boolean value
  | identifier name target target' => exact .identifier name target target'
  | unary operator h => exact .unary operator (hR _ _ h)
  | binary operator left right => exact .binary operator (hR _ _ left) (hR _ _ right)
  | call name target target' h => exact .call name target target' (h.imp hR)

theorem setVariable (h : Likewise R k k') (target : VariableId) : Likewise R k (k'.setVariable target) := by
  cases h with
  | identifier name target => exact .identifier name target _
  | integer value => exact .integer value
  | real value => exact .real value
  | boolean value => exact .boolean value
  | unary operator h => exact .unary operator h
  | binary operator left right => exact .binary operator left right
  | call name target target' h => exact .call name target target' h

theorem setRoutine (h : Likewise R k k') (target : RoutineId) : Likewise R k (k'.setRoutine target) := by
  cases h with
  | call name target target' h => exact .call name target _ h
  | integer value => exact .integer value
  | real value => exact .real value
  | boolean value => exact .boolean value
  | identifier name target target' => exact .identifier name target target'
  | unary operator h => exact .unary operator h
  | binary operator left right => exact .binary operator left right

/-- An operand is related to the one in its place. -/
theorem operand (h : Likewise R k k') (hy : k'.operands[i]? = some y) :
    ∃ x, k.operands[i]? = some x ∧ R x y := by
  have hall : List.Forall₂ R k.operands k'.operands := by
    cases h with
    | integer | real | boolean | identifier => exact .nil
    | unary operator h => exact .cons h .nil
    | binary operator left right => exact .cons left (.cons right .nil)
    | call name target target' h => exact h
  obtain ⟨hlength, hall⟩ := List.forall₂_iff_get.1 hall
  obtain ⟨hi, rfl⟩ := List.getElem?_eq_some_iff.1 hy
  exact ⟨_, List.getElem?_eq_getElem (hlength ▸ hi), hall i (hlength ▸ hi) hi⟩

theorem forall₂_set {xs ys : List ExpressionId} (h : List.Forall₂ R xs ys) (hx : xs[i]? = some x)
    (hR : R x y) : List.Forall₂ R xs (ys.set i y) := by
  induction h generalizing i with
  | nil => nomatch hx
  | cons hfirst hrest ih =>
      cases i with
      | zero => exact .cons (Option.some.inj hx ▸ hR) hrest
      | succ i => exact .cons hfirst (ih hx)

/-- Another operand in one place, if it is related to what the first form has there. -/
theorem setOperand (h : Likewise R k k') (hx : k.operands[i]? = some x) (hR : R x y) :
    Likewise R k (k'.setOperand i y) := by
  cases h with
  | integer | real | boolean | identifier => nomatch hx
  | unary operator h =>
      cases i with
      | zero => exact .unary operator (Option.some.inj hx ▸ hR)
      | succ i => nomatch hx
  | binary operator left right =>
      rcases i with _ | _ | i
      · exact .binary operator (Option.some.inj hx ▸ hR) right
      · exact .binary operator left (Option.some.inj hx ▸ hR)
      · nomatch hx
  | call name target target' h => exact .call name target target' (forall₂_set h hx hR)

/-- A literal stays what it is. -/
theorem eq_of_literal {node : Expression} (h : Likewise R node.kind k)
    (hoperands : Node.children .expression node = []) (hstart : Node.start? .expression node = none) :
    k = node.kind := by
  rw [Node.children, List.map_eq_nil_iff] at hoperands
  rw [Node.start?] at hstart
  generalize node.kind = kind at h hoperands hstart
  cases h with
  | integer | real | boolean => rfl
  | unary | binary => cases hoperands
  | identifier | call => cases hstart

end ExpressionKind.Likewise

open ExpressionKind

/-! ### Arenas that differ in the links of expressions -/

/-- The expression `e'` of `b` is a call that stands in for the bare name `e` of `a`. -/
def Arena.ImpliedCall (a b : Arena) (e e' : ExpressionId) : Prop :=
  ∃ name target routine node node', a.get? e = some node ∧ node.kind = .identifier name target ∧
    a.get? e' = none ∧ b.get? e' = some node' ∧ node'.kind = .call name routine [] ∧
    node'.span = node.span

/-- What stands in `b` where `e` stood in `a`. -/
def Arena.Takes (a b : Arena) (e e' : ExpressionId) : Prop := e' = e ∨ a.ImpliedCall b e e'

/-- The expressions of `b` are those of `a`, with other links, and calls that stand in for bare names. -/
structure Arena.Relinked (a b : Arena) : Prop where
  kept : ∀ (id : ExpressionId) node, a.get? id = some node → ∃ node', b.get? id = some node' ∧
    node'.span = node.span ∧ Likewise (a.Takes b) node.kind node'.kind
  added : ∀ (id : ExpressionId) node, b.get? id = some node → a.get? id = none →
    ∃ e, a.ImpliedCall b e id

/-- What was read from tokens, with other expressions in the place of those that were read. -/
inductive Part.Likewise (R : ExpressionId → ExpressionId → Prop) : Part → Part → Prop
  | operand {id id' : ExpressionId} (h : R id id') (front behind : List Token) :
      Likewise R (.operand id front behind) (.operand id' front behind)
  | arguments {ids ids' : List ExpressionId} (h : List.Forall₂ R ids ids') :
      Likewise R (.arguments ids) (.arguments ids')

section

variable {a b c : Arena} {part part' : Part} {id e e' : ExpressionId} {kind : ExpressionKind}
  {w : List Token} {node node' : Expression} {source : String}

/-- An expression that was there has other links at most. -/
theorem Arena.Relinked.likewise {old : Expression} (h : a.Relinked b) (hold : a.get? id = some old)
    (hget : b.get? id = some node) :
    node.span = old.span ∧ ExpressionKind.Likewise (a.Takes b) old.kind node.kind := by
  obtain ⟨found, hfound, hspan, hlikewise⟩ := h.kept id old hold
  obtain rfl := Option.some.inj (hget.symm.trans hfound)
  exact ⟨hspan, hlikewise⟩

/-- An expression that was not there is a call without arguments. -/
theorem Arena.Relinked.exists_call (h : a.Relinked b) (hnone : a.get? id = none)
    (hget : b.get? id = some node) : ∃ name routine, node.kind = .call name routine [] := by
  obtain ⟨_, name, _, routine, _, found, -, -, -, hfound, hcall, -⟩ := h.added id node hget hnone
  obtain rfl := Option.some.inj (hget.symm.trans hfound)
  exact ⟨name, routine, hcall⟩

/-- No bare names are added. -/
theorem Arena.Relinked.exists_name {name : String} {target : Option VariableId} (h : a.Relinked b)
    (hget : b.get? id = some node) (hkind : node.kind = .identifier name target) :
    ∃ old target, a.get? id = some old ∧ old.kind = .identifier name target ∧ node.span = old.span := by
  cases hold : a.get? id with
  | none =>
      obtain ⟨_, _, hcall⟩ := h.exists_call hold hget
      nomatch hkind.symm.trans hcall
  | some old =>
      obtain ⟨hspan, hlikewise⟩ := h.likewise hold hget
      rw [hkind] at hlikewise
      generalize hform : old.kind = form at hlikewise
      cases hlikewise with
      | identifier _ target => exact ⟨old, target, rfl, hform, hspan⟩

/-- What covers some tokens does so with other links, or gives way to a call. -/
theorem Arena.Relinked.covers (h : a.Relinked b) (hcovers : a.Covers e kind w) (htakes : a.Takes b e e') :
    (e' = e ∧ ∃ kind', Likewise (a.Takes b) kind kind' ∧ b.Covers e kind' w) ∨
      ∃ name target routine, kind = .identifier name target ∧ b.Covers e' (.call name routine []) w := by
  obtain ⟨node, hget, rfl, hspan⟩ := hcovers
  rcases htakes with rfl | ⟨name, target, routine, found, node', hfound, hkind, -, hget', hkind', hspan'⟩
  · obtain ⟨node', hget', hspan', hlikewise⟩ := h.kept e' node hget
    exact Or.inl ⟨rfl, node'.kind, hlikewise, node', hget', rfl, hspan'.trans hspan⟩
  · obtain rfl := Option.some.inj (hget.symm.trans hfound)
    exact Or.inr ⟨name, target, routine, hkind, node', hget', hkind', hspan'.trans hspan⟩

/-- **What was read from some tokens is read from them with other links.** -/
theorem ReadFrom.relinked (h : a.Relinked b) (hread : ReadFrom a part w)
    (hpart : part.Likewise (a.Takes b) part') : ReadFrom b part' w := by
  induction hread generalizing part' with
  | @literal id token node value covers =>
      cases hpart with
      | operand htakes =>
          obtain ⟨hoperands, hstart, -⟩ := Parser.literalNode_raw value
          rcases h.covers covers htakes with ⟨rfl, kind', hlikewise, hcovers⟩ | ⟨_, _, _, hkind, -⟩
          · rw [hlikewise.eq_of_literal hoperands hstart] at hcovers
            exact .literal value hcovers
          · rw [Node.start?, hkind] at hstart
            cases hstart
  | name kind covers =>
      cases hpart with
      | operand htakes =>
          rcases h.covers covers htakes with ⟨rfl, _, ⟨⟩, hcovers⟩ | ⟨_, _, _, ⟨⟩, hcovers⟩
          · exact .name kind hcovers
          · exact .impliedCall kind hcovers
  | impliedCall kind covers =>
      cases hpart with
      | operand htakes =>
          rcases h.covers covers htakes with ⟨rfl, _, hlikewise, hcovers⟩ | ⟨_, _, _, ⟨⟩, -⟩
          cases hlikewise with
          | call _ _ _ harguments =>
              cases harguments
              exact .impliedCall kind hcovers
  | call kind opens _ closes covers ih =>
      cases hpart with
      | operand htakes =>
          rcases h.covers covers htakes with ⟨rfl, _, hlikewise, hcovers⟩ | ⟨_, _, _, ⟨⟩, -⟩
          cases hlikewise with
          | call _ _ _ harguments => exact .call kind opens (ih (.arguments harguments)) closes hcovers
  | unary table _ covers ih =>
      cases hpart with
      | operand htakes =>
          rcases h.covers covers htakes with ⟨rfl, _, hlikewise, hcovers⟩ | ⟨_, _, _, ⟨⟩, -⟩
          cases hlikewise with
          | unary _ hoperand => exact .unary table (ih (.operand hoperand _ _)) hcovers
  | binary table _ _ covers ihl ihr =>
      cases hpart with
      | operand htakes =>
          rcases h.covers covers htakes with ⟨rfl, _, hlikewise, hcovers⟩ | ⟨_, _, _, ⟨⟩, -⟩
          cases hlikewise with
          | binary _ hleft hright =>
              exact .binary table (ihl (.operand hleft _ _)) (ihr (.operand hright _ _)) hcovers
  | index _ opens _ closes covers ihl ihp =>
      cases hpart with
      | operand htakes =>
          rcases h.covers covers htakes with ⟨rfl, _, hlikewise, hcovers⟩ | ⟨_, _, _, ⟨⟩, -⟩
          cases hlikewise with
          | binary _ hleft hright =>
              exact .index (ihl (.operand hleft _ _)) opens (ihp (.operand hright _ _)) closes hcovers
  | grouping opens _ closes ih =>
      cases hpart with
      | operand htakes => exact .grouping opens (ih (.operand htakes _ _)) closes
  | noArguments =>
      cases hpart with
      | arguments hall =>
          cases hall
          exact .noArguments
  | lastArgument _ ih =>
      cases hpart with
      | arguments hall =>
          cases hall with
          | cons hfirst hrest =>
              cases hrest
              exact .lastArgument (ih (.operand hfirst _ _))
  | moreArguments _ some separates _ iho ihi =>
      cases hpart with
      | arguments hall =>
          obtain ⟨others, _, rfl, hothers, hlast⟩ := exists_append_of_forall₂ hall.flip
          obtain ⟨last, rfl, htakes⟩ := exists_singleton_of_forall₂ hlast
          refine .moreArguments (iho (.arguments hothers.flip)) ?_ separates (ihi (.operand htakes _ _))
          rintro rfl
          exact some (List.forall₂_nil_left_iff.1 hothers)

/-- Whatever was written in a text before is so with other links, and so is a call that was added. -/
theorem Arena.Relinked.writtenIn (h : a.Relinked b)
    (hwritten : ∀ (id : ExpressionId) node, a.get? id = some node → a.WrittenIn source id)
    (hget : b.get? id = some node) : b.WrittenIn source id := by
  have htaken : ∀ e found, a.get? e = some found → a.Takes b e id → b.WrittenIn source id := by
    intro e found hfound htakes
    obtain ⟨before, front, core, behind, after, htokens, hread⟩ := hwritten e found hfound
    exact ⟨before, front, core, behind, after, htokens, hread.relinked h (.operand htakes front behind)⟩
  cases hold : a.get? id with
  | some old => exact htaken id old hold (Or.inl rfl)
  | none =>
      obtain ⟨e, himplied⟩ := h.added id node hget hold
      have hname := himplied
      obtain ⟨_, _, _, found, _, hfound, -⟩ := hname
      exact htaken e found hfound (Or.inr himplied)

/-! ### One change -/

theorem Arena.Relinked.refl (a : Arena) : a.Relinked a where
  kept _ node hget := ⟨node, hget, rfl, .refl (fun _ => Or.inl rfl) _⟩
  added _ _ hget hnone := by
    rw [hnone] at hget
    nomatch hget

/-- Calls without arguments stay what they are, but for their links. -/
def Arena.KeepsCalls (b c : Arena) : Prop :=
  ∀ (id : ExpressionId) node name routine, b.get? id = some node → node.kind = .call name routine [] →
    ∃ node' routine', c.get? id = some node' ∧ node'.kind = .call name routine' [] ∧
      node'.span = node.span

theorem Arena.ImpliedCall.mono (h : a.ImpliedCall b e e') (hcalls : b.KeepsCalls c) :
    a.ImpliedCall c e e' := by
  obtain ⟨name, target, routine, node, node', hget, hkind, hnone, hget', hkind', hspan⟩ := h
  obtain ⟨node'', routine', hget'', hkind'', hspan'⟩ := hcalls e' node' name routine hget' hkind'
  exact ⟨name, target, routine', node, node'', hget, hkind, hnone, hget'', hkind'', hspan'.trans hspan⟩

theorem Arena.Takes.mono (h : a.Takes b e e') (hcalls : b.KeepsCalls c) : a.Takes c e e' :=
  h.imp_right fun h => h.mono hcalls

/-- Nodes of other families do not matter. -/
theorem Arena.Relinked.congr (h : a.Relinked b) (hsame : ∀ id : ExpressionId, c.get? id = b.get? id) :
    a.Relinked c := by
  have hcalls : b.KeepsCalls c := fun id node name routine hget hkind =>
    ⟨node, routine, (hsame id).trans hget, hkind, rfl⟩
  refine ⟨fun id node hget => ?_, fun id node hget hnone => ?_⟩
  · obtain ⟨node', hget', hspan, hlikewise⟩ := h.kept id node hget
    exact ⟨node', (hsame id).trans hget', hspan, hlikewise.mono fun _ _ htakes => htakes.mono hcalls⟩
  · obtain ⟨e, himplied⟩ := h.added id node ((hsame id).symm.trans hget) hnone
    exact ⟨e, himplied.mono hcalls⟩

/-- **An expression changes** into one with other links, or with a call in the place of a bare name. -/
theorem Arena.Relinked.put (h : a.Relinked b) (hget : b.get? id = some node)
    (hspan : node'.span = node.span)
    (hcall : ∀ name routine, node.kind = .call name routine [] →
      ∃ routine', node'.kind = .call name routine' [])
    (hold : ∀ old, a.get? id = some old → Likewise (a.Takes b) old.kind node'.kind) :
    a.Relinked (b.put id node') := by
  have hself : (b.put id node').get? id = some node' := get?_put_self hget node'
  have hother : ∀ {other : ExpressionId}, other ≠ id → (b.put id node').get? other = b.get? other :=
    fun hne => get?_put_of_id_ne b hne node'
  have hcalls : b.KeepsCalls (b.put id node') := by
    intro other found name routine hfound hkind
    by_cases hsame : other = id
    · subst hsame
      obtain rfl := Option.some.inj (hget.symm.trans hfound)
      obtain ⟨routine', hkind'⟩ := hcall name routine hkind
      exact ⟨node', routine', hself, hkind', hspan⟩
    · exact ⟨found, routine, (hother hsame).trans hfound, hkind, rfl⟩
  refine ⟨fun other old hfound => ?_, fun other found hfound hnone => ?_⟩
  · obtain ⟨found, hfound', hspan', hlikewise⟩ := h.kept other old hfound
    by_cases hsame : other = id
    · subst hsame
      obtain rfl := Option.some.inj (hget.symm.trans hfound')
      exact ⟨node', hself, hspan.trans hspan', (hold old hfound).mono fun _ _ h => h.mono hcalls⟩
    · exact ⟨found, (hother hsame).trans hfound', hspan', hlikewise.mono fun _ _ h => h.mono hcalls⟩
  · have hthere : ∃ before, b.get? other = some before := by
      by_cases hsame : other = id
      · exact ⟨node, hsame ▸ hget⟩
      · exact ⟨found, (hother hsame).symm.trans hfound⟩
    obtain ⟨before, hbefore⟩ := hthere
    obtain ⟨e, himplied⟩ := h.added other before hbefore hnone
    exact ⟨e, himplied.mono hcalls⟩

/-- The ids of new expressions are new. -/
theorem Arena.Relinked.get?_fresh (h : a.Relinked b) (new : Expression) :
    a.get? (b.add .expression new).1 = none := by
  by_contra hsome
  obtain ⟨old, hold⟩ := Option.ne_none_iff_exists'.1 hsome
  obtain ⟨node, hget, -⟩ := h.kept _ old hold
  exact Nat.lt_irrefl _ (index_lt_of_get? hget)

/-- **A call is added** that stands in for a bare name. -/
theorem Arena.Relinked.add {name : String} {target : Option VariableId} (h : a.Relinked b)
    (hget : a.get? e = some node) (hkind : node.kind = .identifier name target) (routine : RoutineId) :
    let changed := b.add .expression (.plain (.call name (some routine) []) node.span)
    a.Relinked changed.2 ∧ a.ImpliedCall changed.2 e changed.1 := by
  intro changed
  have hext : b.ExtendedBy changed.2 := b.extendedBy_add _ _
  have himplied : a.ImpliedCall changed.2 e changed.1 :=
    ⟨name, target, some routine, node, _, hget, hkind, h.get?_fresh _, b.get?_add _ _, rfl, rfl⟩
  have hcalls : b.KeepsCalls changed.2 := fun other found name routine hfound hkind =>
    ⟨found, routine, hext .expression other found hfound, hkind, rfl⟩
  refine ⟨⟨fun other old hfound => ?_, fun other found hfound hnone => ?_⟩, himplied⟩
  · obtain ⟨found, hfound', hspan, hlikewise⟩ := h.kept other old hfound
    exact ⟨found, hext .expression other found hfound', hspan, hlikewise.mono fun _ _ h => h.mono hcalls⟩
  · rcases get?_added hfound with hbefore | ⟨-, -, hindex⟩
    · obtain ⟨e, himplied⟩ := h.added other found hbefore hnone
      exact ⟨e, himplied.mono hcalls⟩
    · obtain rfl : other = changed.1 := congrArg NodeId.mk hindex
      exact ⟨e, himplied⟩

end

/-! ### The walk -/

/-- The expressions of the tree so far are those of `a` with other links. -/
def WalkState.Relinks (a : Arena) (s : WalkState Routines) : Prop := a.Relinked s.arena

/-- The visits of nodes change no more than links, and give implied calls only. -/
structure Relinking (a : Arena) (below : Visit → NamesM (Option ExpressionId)) : Prop where
  keeps : ∀ v, Keeps (WalkState.Relinks a) (below v)
  gives : ∀ {v c s e' s'}, Runs (below v) c s (some e') s' → s.Relinks a →
    ∃ e, v = .expression e ∧ a.ImpliedCall s'.arena e e'

section

variable {a : Arena} {below : Visit → NamesM (Option ExpressionId)} {α : Type} {family : Family}

/-- Reports, events and known routines do not matter. -/
theorem keeps_modify {g : WalkState Routines → WalkState Routines} (hg : ∀ s, (g s).arena = s.arena) :
    Keeps (WalkState.Relinks a) (modify g : NamesM PUnit) :=
  .modify fun s hs => by rwa [WalkState.Relinks, hg]

theorem keeps_report (cause : Cause) (place : Position) :
    Keeps (WalkState.Relinks a) (report cause place : NamesM Unit) :=
  keeps_modify fun _ => rfl

theorem keeps_note (event : Event) : Keeps (WalkState.Relinks a) (note event : NamesM Unit) :=
  keeps_modify fun _ => rfl

/-- Nodes of other families may change. -/
theorem keeps_update (id : NodeId family) (g : Node family → Node family)
    (hfamily : family ≠ .expression) : Keeps (WalkState.Relinks a) (update id g : NamesM Unit) := by
  refine .update fun s node hs hget => Arena.Relinked.congr hs fun other => ?_
  exact get?_put_of_ne s.arena (fun heq => hfamily (Visit.family_eq_of_eq heq).symm) (g node)

namespace Relinking

variable (h : Relinking a below)

include h

theorem visitOnly (v : Visit) : Keeps (WalkState.Relinks a) (visitOnly below v) := (h.keeps v).discard

theorem visitOptional (f : α → Visit) (x : Option α) :
    Keeps (WalkState.Relinks a) (visitOptional below f x) := by
  cases x with
  | none => exact .pure _
  | some x => exact h.visitOnly (f x)

theorem visitEach (f : α → Visit) (xs : List α) : Keeps (WalkState.Relinks a) (visitEach below f xs) :=
  .forM fun x _ => h.visitOnly (f x)

theorem visitSlot {store : ExpressionId → NamesM Unit}
    (hstore : ∀ e, Keeps (WalkState.Relinks a) (store e)) (e : ExpressionId) :
    Keeps (WalkState.Relinks a) (visitSlot below e store) := by
  refine (h.keeps _).bind fun r => ?_
  cases r with
  | none => exact .pure _
  | some replacement => exact hstore replacement

/-! ### The default walk -/

theorem walkRoutine (id : RoutineId) : Keeps (WalkState.Relinks a) (walkRoutine below id) :=
  .node_bind fun _ _ _ _ => .bind (h.visitEach _ _) fun _ => .bind (h.visitOptional _ _) fun _ =>
    h.visitOnly _

theorem walkVariable (id : VariableId) : Keeps (WalkState.Relinks a) (walkVariable below id) := by
  refine .node_bind fun _ _ _ _ => .bind (h.visitOptional _ _) fun _ => .node_bind fun _ node _ _ => ?_
  cases node.initializer with
  | none => exact .pure _
  | some e => exact h.visitSlot (fun _ => keeps_update id _ nofun) e

theorem walkType (id : TypeId) : Keeps (WalkState.Relinks a) (walkType below id) := by
  refine .node_bind fun _ node _ _ => ?_
  cases node.kind with
  | array length element =>
      cases length with
      | none => exact h.visitOnly _
      | some e => exact .bind (h.visitSlot (fun _ => keeps_update id _ nofun) e) fun _ => h.visitOnly _
  | record fields => exact h.visitEach _ _
  | named | integer | real | boolean => exact .pure _

theorem walkBody (id : BodyId) : Keeps (WalkState.Relinks a) (walkBody below id) :=
  .node_bind fun _ _ _ _ => .bind (h.visitEach _ _) fun _ => h.visitEach _ _

theorem walkStatementExpressions (id : StatementId) :
    Keeps (WalkState.Relinks a) (walkStatementExpressions below id) :=
  .node_bind fun _ _ _ _ => .forM fun _ _ => h.visitSlot (fun _ => keeps_update id _ nofun) _

theorem walkStatement (id : StatementId) : Keeps (WalkState.Relinks a) (walkStatement below id) :=
  .bind (h.walkStatementExpressions id) fun _ => .node_bind fun _ _ _ _ =>
    .bind (h.visitOptional _ _) fun _ => h.visitEach _ _

/-- **A call takes the place of a bare name** in an expression that had the name there at first. It does
not matter what has been done to the expression since then. -/
theorem visitOperand {parent operand : ExpressionId} {index : Nat}
    (hslot : ∀ node name target, a.get? operand = some node → node.kind = .identifier name target →
      ∃ old, a.get? parent = some old ∧ old.kind.operands[index]? = some operand) :
    Keeps (WalkState.Relinks a) (visitOperand below parent index operand) := by
  intro c s u s' hrun hs
  obtain ⟨r, s₁, hvisit, hrest⟩ := runs_bind.1 hrun
  have hs₁ : s₁.Relinks a := h.keeps _ _ _ _ _ hvisit hs
  cases r with
  | none =>
      obtain ⟨-, rfl⟩ := runs_pure.1 hrest
      exact hs₁
  | some e' =>
      obtain ⟨e, heq, himplied⟩ := h.gives hvisit hs
      cases heq
      obtain ⟨current, hcurrent, rfl⟩ := runs_update.1 hrest
      have hname := himplied
      obtain ⟨name, target, -, node, -, hget, hkind, -⟩ := hname
      obtain ⟨old, hold, hoperand⟩ := hslot node name target hget hkind
      have hlikewise := (Arena.Relinked.likewise hs₁ hold hcurrent).2
      refine Arena.Relinked.put hs₁ hcurrent rfl ?_ fun old' hold' => ?_
      · -- a call without arguments has no place for the other one
        intro name routine hcall
        exact ⟨routine, by rw [hcall, ExpressionKind.setOperand.eq_def]; rfl⟩
      · obtain rfl := Option.some.inj (hold.symm.trans hold')
        exact hlikewise.setOperand hoperand (Or.inr himplied)

theorem operand_bind {id : ExpressionId} {node : Expression} {s : WalkState Routines} (hs : s.Relinks a)
    (hget : s.arena.get? id = some node) {operand : ExpressionId} {index : Nat}
    (hoperand : node.kind.operands[index]? = some operand) :
    Keeps (WalkState.Relinks a) (ProcLang.visitOperand below id index operand) := by
  refine h.visitOperand fun name _ _ hname hkind => ?_
  cases hold : a.get? id with
  | none =>
      -- an implied call has no operands
      obtain ⟨_, _, hcall⟩ := Arena.Relinked.exists_call hs hold hget
      rw [hcall] at hoperand
      nomatch hoperand
  | some old =>
      obtain ⟨x, hx, htakes⟩ := (Arena.Relinked.likewise hs hold hget).2.operand hoperand
      rcases htakes with rfl | ⟨_, _, _, _, _, -, -, hnone, -⟩
      · exact ⟨old, rfl, hx⟩
      · rw [hname] at hnone
        nomatch hnone

theorem walkExpression (id : ExpressionId) : Keeps (WalkState.Relinks a) (walkExpression below id) := by
  refine .node_bind fun s node hs hget => .forM fun p hp => ?_
  exact h.operand_bind hs hget (List.mem_zipIdx_iff_getElem?.1 hp)

theorem walk (v : Visit) : Keeps (WalkState.Relinks a) (walk below v) := by
  cases v with
  | program => exact .arena_bind fun _ => h.visitEach _ _
  | declaration d => cases d <;> exact h.visitOnly _
  | routine id => exact h.walkRoutine id
  | «variable» id => exact h.walkVariable id
  | typeDecl id => exact .node_bind fun _ _ _ _ => h.visitOnly _
  | type id => exact h.walkType id
  | body id => exact h.walkBody id
  | statement id => exact h.walkStatement id
  | expression id => exact h.walkExpression id

end Relinking

/-! ### Single names -/

theorem keeps_reportAll (ds : List Diagnostic) : Keeps (WalkState.Relinks a) (reportAll ds) :=
  .forM fun d _ => keeps_report d.cause d.position

theorem keeps_declareScope (seeds : List VariableId) (declarations : List Declaration) :
    Keeps (WalkState.Relinks a) (declareScope seeds declarations) := by
  have hentries : Keeps (WalkState.Relinks a) (scopeEntries seeds declarations) :=
    .mapM fun _ => .inspect_bind fun _ _ _ _ => .pure _
  refine hentries.bind fun entries => .bind (keeps_reportAll _) fun _ =>
    .bind (keeps_modify fun _ => rfl) fun _ => ?_
  split
  · exact .bind .read fun _ => .pure _
  · exact .pure _

theorem keeps_checkCycles (declarations : List TypeDeclId) :
    Keeps (WalkState.Relinks a) (checkCycles declarations) :=
  .inspect_bind fun _ _ _ _ => .forM fun _ _ => .node_bind fun _ _ _ _ => keeps_report _ _

theorem keeps_checkFields (fields : List VariableId) :
    Keeps (WalkState.Relinks a) (checkFields fields) :=
  .bind (.mapM fun _ => .node_bind fun _ _ _ _ => .pure _) fun _ => keeps_reportAll _

theorem keeps_checkMemberName (field : ExpressionId) :
    Keeps (WalkState.Relinks a) (checkMemberName field) := by
  refine .node_bind fun _ node _ _ => ?_
  split
  · exact .pure _
  · exact keeps_report _ _

theorem keeps_checkCallStatement (id : StatementId) :
    Keeps (WalkState.Relinks a) (checkCallStatement id) := by
  refine .node_bind fun _ statement _ _ => ?_
  split
  · refine .node_bind fun _ callee _ _ => ?_
    split
    · exact keeps_report _ _
    · exact .pure _
  · exact .pure _

theorem keeps_resolveTypeName (id : TypeId) (name : String) :
    Keeps (WalkState.Relinks a) (resolveTypeName id name) := by
  refine .bind .read fun scope => ?_
  split
  · exact keeps_update id _ nofun
  · exact .node_bind fun _ _ _ _ => keeps_report _ _

theorem keeps_resolveCall (id : ExpressionId) (name : String) :
    Keeps (WalkState.Relinks a) (resolveCall id name) := by
  refine .bind .get fun state => ?_
  split
  · refine .update fun s node hs hget => Arena.Relinked.put hs hget rfl ?_ fun old hold => ?_
    · intro name routine hcall
      exact ⟨_, by rw [hcall]; rfl⟩
    · exact (Arena.Relinked.likewise hs hold hget).2.setRoutine _
  · exact .node_bind fun _ _ _ _ => keeps_report _ _

/-- **A bare name is linked or gives way to a call.** -/
theorem resolveIdentifier_relinks {id : ExpressionId} {name : String} {c : Scope}
    {s s' : WalkState Routines} {r : Option ExpressionId} {node : Expression} {old : Option VariableId}
    (hs : s.Relinks a) (hget : s.arena.get? id = some node) (hkind : node.kind = .identifier name old)
    (hrun : Runs (resolveIdentifier id name) c s r s') :
    s'.Relinks a ∧ ∀ e', r = some e' → a.ImpliedCall s'.arena id e' := by
  rw [resolveIdentifier] at hrun
  simp only [runs_read_bind] at hrun
  split at hrun
  · obtain ⟨declared, -, hrun⟩ := runs_node_bind.1 hrun
    obtain ⟨found, hfound, hrun⟩ := runs_update_bind.1 hrun
    obtain ⟨rfl, rfl⟩ := runs_pure.1 hrun
    obtain rfl := Option.some.inj (hget.symm.trans hfound)
    refine ⟨Arena.Relinked.put hs hget rfl ?_ fun before hbefore => ?_, nofun⟩
    · intro other routine hcall
      rw [hkind] at hcall
      nomatch hcall
    · exact (Arena.Relinked.likewise hs hbefore hget).2.setVariable _
  · obtain ⟨found, hfound, hrun⟩ := runs_node_bind.1 hrun
    obtain rfl := Option.some.inj (hget.symm.trans hfound)
    rw [runs_get_bind] at hrun
    split at hrun
    · rename_i routine _
      obtain ⟨_, s₁, hnote, hrun⟩ := runs_bind.1 hrun
      obtain rfl := runs_note.1 hnote
      obtain ⟨e', hadd, rfl⟩ := runs_map.1 hrun
      obtain ⟨rfl, rfl⟩ := runs_add.1 hadd
      obtain ⟨old, target, hold, hform, hspan⟩ := Arena.Relinked.exists_name hs hget hkind
      rw [hspan]
      obtain ⟨hrelinked, himplied⟩ := Arena.Relinked.add hs hold hform routine
      refine ⟨hrelinked, fun e' heq => ?_⟩
      cases heq
      exact himplied
    · obtain ⟨_, s₁, hreport, hrun⟩ := runs_bind.1 hrun
      obtain ⟨rfl, rfl⟩ := runs_pure.1 hrun
      exact ⟨keeps_report _ _ _ _ _ _ hreport hs, nofun⟩

/-! ### Layers -/

/-- What gives nothing only has to keep what it finds. -/
theorem gives_none {m : NamesM Unit} (hm : Keeps (WalkState.Relinks a) m) {v : Visit} {c : Scope}
    {s s' : WalkState Routines} {r : Option ExpressionId} (hrun : Runs (m >>= fun _ => pure none) c s r s')
    (hs : s.Relinks a) :
    s'.Relinks a ∧ ∀ e', r = some e' → ∃ e, v = .expression e ∧ a.ImpliedCall s'.arena e e' := by
  obtain ⟨_, s₁, hfirst, hrest⟩ := runs_bind.1 hrun
  obtain ⟨rfl, rfl⟩ := runs_pure.1 hrest
  exact ⟨hm _ _ _ _ hfirst hs, nofun⟩

namespace Relinking

variable (h : Relinking a below)

include h

theorem resolveDeclarations (declarations : List Declaration) :
    Keeps (WalkState.Relinks a) (resolveDeclarations below declarations) :=
  .bind (h.visitEach _ _) fun _ => .bind (keeps_checkCycles _) fun _ => h.visitEach _ _

theorem resolveBody (seeds : List VariableId) (id : BodyId) :
    Keeps (WalkState.Relinks a) (resolveBody below seeds id) := by
  refine .node_bind fun _ body _ _ => .bind (keeps_note _) fun _ =>
    .bind (keeps_declareScope _ _) fun scope => ?_
  cases scope with
  | some scope =>
      refine .bind (.inContext (.bind (h.resolveDeclarations _) fun _ => h.visitEach _ _) scope) ?_
      exact fun _ => keeps_note _
  | none => exact keeps_note _

theorem resolveProgram : Keeps (WalkState.Relinks a) (resolveProgram below) := by
  refine .arena_bind fun _ => .bind (keeps_note _) fun _ => .bind (keeps_declareScope _ _) fun scope => ?_
  cases scope with
  | some scope => exact .inContext (h.resolveDeclarations _) scope
  | none => exact .pure _

theorem resolveRoutine (id : RoutineId) : Keeps (WalkState.Relinks a) (resolveRoutine below id) :=
  .node_bind fun _ _ _ _ => .bind (h.visitEach _ _) fun _ => .bind (h.visitOptional _ _) fun _ =>
    h.resolveBody _ _

theorem resolveStatement (id : StatementId) :
    Keeps (WalkState.Relinks a) (resolveStatement below id) := by
  refine .node_bind fun _ statement _ _ => ?_
  split
  · exact .bind (h.walkStatementExpressions id) fun _ => h.resolveBody _ _
  · exact .bind (h.walkStatementExpressions id) fun _ => keeps_checkCallStatement id
  · exact h.walkStatement id

theorem resolveTypeNode (id : TypeId) : Keeps (WalkState.Relinks a) (resolveTypeNode below id) := by
  refine .node_bind fun _ type _ _ => ?_
  split
  · exact keeps_resolveTypeName _ _
  · exact .bind (keeps_checkFields _) fun _ => h.walkType id
  · exact h.walkType id

/-- Only a bare name gives way to another expression. -/
theorem resolveExpression {id : ExpressionId} {c : Scope} {s s' : WalkState Routines}
    {r : Option ExpressionId} (hrun : Runs (resolveExpression below id) c s r s') (hs : s.Relinks a) :
    s'.Relinks a ∧ ∀ e', r = some e' →
      ∃ e, Visit.expression id = .expression e ∧ a.ImpliedCall s'.arena e e' := by
  obtain ⟨node, hget, hrun⟩ := runs_node_bind.1 hrun
  split at hrun
  · obtain ⟨hs', hgives⟩ := resolveIdentifier_relinks hs hget ‹_› hrun
    exact ⟨hs', fun e' heq => ⟨id, rfl, hgives e' heq⟩⟩
  · exact gives_none (.bind (h.walkExpression id) fun _ => keeps_resolveCall id _) (by simpa using hrun) hs
  · rename_i hkind
    refine gives_none (.bind (h.operand_bind hs hget ?_) fun _ => keeps_checkMemberName _)
      (by simpa using hrun) hs
    rw [hkind]
    rfl
  · exact gives_none (h.walkExpression id) hrun hs

/-- **One layer changes no more than links**, if the visits below do. -/
theorem resolver : Relinking a (resolver below) := by
  have hlayer : ∀ {v c s r s'}, Runs (ProcLang.resolver below v) c s r s' → s.Relinks a →
      s'.Relinks a ∧ ∀ e', r = some e' → ∃ e, v = .expression e ∧ a.ImpliedCall s'.arena e e' := by
    intro v c s r s' hrun hs
    cases v with
    | program => exact gives_none h.resolveProgram hrun hs
    | routine id => exact gives_none (h.resolveRoutine id) hrun hs
    | body id => exact gives_none (h.resolveBody [] id) hrun hs
    | statement id => exact gives_none (h.resolveStatement id) hrun hs
    | type id => exact gives_none (h.resolveTypeNode id) hrun hs
    | expression id => exact h.resolveExpression hrun hs
    | declaration | «variable» | typeDecl => exact gives_none (h.walk _) hrun hs
  exact ⟨fun _ _ _ _ _ hrun hs => (hlayer hrun hs).1, fun hrun hs => (hlayer hrun hs).2 _ rfl⟩

end Relinking

end

/-- **Name resolution changes no more than links**, and adds implied calls. -/
theorem nameResolution_relinked {a : Arena} {outcome : PassOutcome}
    (hrun : nameResolution.run a = .ok outcome) : a.Relinked outcome.arena := by
  obtain ⟨s, hwalk, rfl⟩ := run_ofVisitor.1 hrun
  obtain ⟨r, hvisit⟩ := walkProgram_eq_ok.1 hwalk
  have hwithin : ∀ n, Relinking a (visitWithin resolver n) := by
    intro n
    induction n with
    | zero => exact ⟨fun _ _ _ _ _ hrun => (runs_throw hrun).elim, fun hrun => (runs_throw hrun).elim⟩
    | succ n ih => exact ih.resolver
  exact (hwithin _).keeps _ _ _ _ _ (runs_arena_bind.1 hvisit) (.refl a)

end ProcLang

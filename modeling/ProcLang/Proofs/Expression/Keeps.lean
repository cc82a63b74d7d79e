import ProcLang.Proofs.Expression.Layer
import ProcLang.Proofs.Parser.Constructs

/-!
# ProcLang.Proofs.Expression.Keeps

**Reading an expression only adds to the arena** where it succeeds (`expression_keeps`): no error is
recorded, the nodes that are there stay, and the node that it gives is the one in the arena. Errors
are recorded by whoever goes on after a failure, and no part of an expression does.
-/

namespace ProcLang

namespace Parser

open State

/-- Between two states nodes were added, and no error was recorded. -/
structure State.Adds (s s' : State) : Prop where
  errors : s'.errors = s.errors
  arena : s.arena.ExtendedBy s'.arena

namespace State.Adds

variable {s s₁ s' : State}

theorem refl (s : State) : s.Adds s := ⟨rfl, .refl _⟩

theorem trans (h₁ : s.Adds s₁) (h₂ : s₁.Adds s') : s.Adds s' :=
  ⟨h₂.errors.trans h₁.errors, h₁.arena.trans h₂.arena⟩

theorem advance (s : State) : s.Adds s.advance.2 :=
  ⟨advance_errors s, by rw [advance_arena]; exact .refl _⟩

end State.Adds

/-- A parser for an expression adds nodes where it succeeds, and gives the node that is stored under
the id it gives. -/
def Stores (p : Parser Placed) : Prop :=
  ∀ s placed s', Yields p s placed s' → s.Adds s' ∧ s'.arena.get? placed.id = some placed.node

theorem stores_place (node : Expression) : Stores (place node) := by
  intro s placed s' h
  obtain ⟨-, -, hget⟩ := place_reads h
  simp only [place, yields_add_bind, yields_pure] at h
  obtain ⟨rfl, rfl⟩ := h
  exact ⟨⟨rfl, s.arena.extendedBy_add .expression node⟩, hget⟩

/-- A parser for expressions of all powers stores what it gives. -/
def Keeps (self : BindingPower → Parser Placed) : Prop := ∀ power, Stores (self power)

section

variable {self : BindingPower → Parser Placed} {s s' : State} {left : Placed}

theorem Keeps.arguments (hself : Keeps self) {items : List Placed}
    (h : Yields (arguments self) s items s') : s.Adds s' := by
  rcases yields_arguments.1 h with ⟨-, -, rfl⟩ | ⟨-, hloop⟩
  · exact .refl _
  · have hround : ∀ items s₁ round s₂, Yields (commaStep (self .loosest) items) s₁ round s₂ →
        s₁.Adds s₂ := by
      intro items s₁ round s₂ hround
      obtain ⟨x, s₃, hx, ⟨-, -, rfl⟩ | ⟨-, -, rfl⟩⟩ := yields_commaStep.1 hround
      · exact (hself _ _ _ _ hx).1.trans (.advance _)
      · exact (hself _ _ _ _ hx).1
    obtain ⟨last, s₁, hadds, hlast⟩ := hloop.loop_invariant (motive := fun _ s₁ => s.Adds s₁)
      (.refl s) fun _ _ _ _ hadds hstep => hadds.trans (hround _ _ _ _ hstep)
    exact hadds.trans (hround _ _ _ _ hlast)

theorem Keeps.operand (hself : Keeps self) (rule : OperandRule) : Stores (operand self rule) := by
  intro s placed s' h
  cases rule with
  | literal =>
      obtain ⟨node, -, hplace⟩ := yields_literal.1 h
      exact (stores_place _ _ _ _ hplace).imp_left (.trans (.advance s))
  | name =>
      rcases yields_nameOrCall.1 h with ⟨-, items, s₁, harguments, -, hplace⟩ | ⟨-, hplace⟩
      · refine (stores_place _ _ _ _ hplace).imp_left fun hadds => ?_
        have harguments := hself.arguments harguments
        exact (State.Adds.advance s).trans ((State.Adds.advance _).trans
          (harguments.trans ((State.Adds.advance s₁).trans hadds)))
      · exact (stores_place _ _ _ _ hplace).imp_left (.trans (.advance s))
  | grouping =>
      obtain ⟨s₁, hinner, -, rfl⟩ := yields_grouping.1 h
      obtain ⟨hadds, hget⟩ := hself _ _ _ _ hinner
      refine ⟨(State.Adds.advance s).trans (hadds.trans (.advance s₁)), ?_⟩
      rwa [advance_arena]
  | unary =>
      obtain ⟨operator, -, inner, s₁, hinner, hplace⟩ := yields_unary.1 h
      refine (stores_place _ _ _ _ hplace).imp_left fun hadds => ?_
      exact (State.Adds.advance s).trans ((hself _ _ _ _ hinner).1.trans hadds)

theorem Keeps.tail (hself : Keeps self) (rule : TailRule) (left : Placed) (power : BindingPower) :
    Stores (tail self rule left power) := by
  intro s placed s' h
  cases rule with
  | binary =>
      obtain ⟨operator, -, right, s₁, hright, hplace⟩ := yields_binary.1 h
      refine (stores_place _ _ _ _ hplace).imp_left fun hadds => ?_
      exact (State.Adds.advance s).trans ((hself _ _ _ _ hright).1.trans hadds)
  | member =>
      obtain ⟨field, s₁, hfield, hplace⟩ := yields_member.1 h
      refine (stores_place _ _ _ _ hplace).imp_left fun hadds => ?_
      exact (State.Adds.advance s).trans ((hself _ _ _ _ hfield).1.trans hadds)
  | index =>
      obtain ⟨position, s₁, hposition, -, hplace⟩ := yields_index.1 h
      refine (stores_place _ _ _ _ hplace).imp_left fun hadds => ?_
      exact (State.Adds.advance s).trans
        ((hself _ _ _ _ hposition).1.trans ((State.Adds.advance s₁).trans hadds))

theorem Keeps.expressionStep (hself : Keeps self) :
    Keeps (expressionStep self Grammar.standard) := by
  intro power s placed s' h
  obtain ⟨rule, -, first, s₁, hfirst, hloop⟩ := yields_expressionStep.1 h
  obtain ⟨last, s₂, ⟨hadds, hlast⟩, hdone⟩ := hloop.loop_invariant
    (motive := fun left s₂ => s.Adds s₂ ∧ s₂.arena.get? left.id = some left.node)
    (hself.operand rule _ _ _ hfirst) (by
      intro left s₂ next s₃ hleft hround
      rcases yields_tailStep.1 hround with ⟨_, _, -, -, x, hx, hmore⟩ | ⟨-, hdone, -⟩
      · obtain rfl := Round.more.inj hmore
        exact (hself.tail _ _ _ _ _ _ hx).imp_left hleft.1.trans
      · nomatch hdone)
  rcases yields_tailStep.1 hdone with ⟨_, _, -, -, x, hx, hmore⟩ | ⟨-, heq, rfl⟩
  · nomatch hmore
  · obtain rfl := Round.done.inj heq
    exact ⟨hadds, hlast⟩

end

/-- **Reading an expression** only adds to the arena where it succeeds, and gives what it stored. -/
theorem expression_keeps : Keeps (expression Grammar.standard) := by
  intro power s placed s' h
  refine h.recursive_induction (motive := fun _ s placed s' =>
    s.Adds s' ∧ s'.arena.get? placed.id = some placed.node) fun self hself => ?_
  have hself : Keeps self := hself
  exact hself.expressionStep

end Parser

end ProcLang

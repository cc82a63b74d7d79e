import ProcLang.Check.ReturnPaths
import ProcLang.Proofs.Tree.Height
import ProcLang.Proofs.Walk.Runs

/-!
# ProcLang.Proofs.Returns.Paths

**Paths through a body.** `a.Path code e` says that a path leads through a piece of code and ends
with `e`: behind the code, or at a statement that ends the routine. Conditions are free, and a loop
runs any number of rounds, also none.

A body gives back on every path exactly if no path leads behind it (`bodyReturns_iff`). This is by
induction on the depth to which bodies are looked at; a body is left by a path if each of its
statements is, and a statement is if one of its branches is. In a tree no body is inside of itself,
so the bodies on the way down are all different and the depth is enough (`exists_bodyReturns`).
-/

namespace ProcLang

/-! ### Paths -/

/-- A piece of code that a path leads through. -/
inductive Code where
  | body (id : BodyId)
  | statements (ids : List StatementId)
  | statement (id : StatementId)
  /-- What is left of a loop with this body, in front of a round or of the end. -/
  | rounds (id : BodyId)

/-- Where a path through a piece of code ends. -/
inductive PathEnd where
  /-- Behind the code, where the path goes on. -/
  | behind
  /-- At a statement that ends the routine. -/
  | returned (id : StatementId)
  deriving DecidableEq

namespace Arena

/-- The paths through the code of a tree. -/
inductive Path (a : Arena) : Code → PathEnd → Prop
  | body {id : BodyId} {node : Body} {e : PathEnd} (hget : a.get? id = some node)
      (inner : Path a (.statements node.statements) e) : Path a (.body id) e
  | done : Path a (.statements []) .behind
  | next {id : StatementId} {rest : List StatementId} {e : PathEnd}
      (first : Path a (.statement id) .behind) (others : Path a (.statements rest) e) :
      Path a (.statements (id :: rest)) e
  | stop {id st : StatementId} {rest : List StatementId}
      (first : Path a (.statement id) (.returned st)) :
      Path a (.statements (id :: rest)) (.returned st)
  | assignment {id : StatementId} {node : Statement} {target value : ExpressionId}
      (hget : a.get? id = some node) (hkind : node.kind = .assignment target value) :
      Path a (.statement id) .behind
  | call {id : StatementId} {node : Statement} {callee : ExpressionId}
      (hget : a.get? id = some node) (hkind : node.kind = .call callee) :
      Path a (.statement id) .behind
  | returning {id : StatementId} {node : Statement} {value : Option ExpressionId}
      (hget : a.get? id = some node) (hkind : node.kind = .returning value) :
      Path a (.statement id) (.returned id)
  | thenBranch {id : StatementId} {node : Statement} {condition : ExpressionId} {thenBody : BodyId}
      {elseBody : Option BodyId} {e : PathEnd} (hget : a.get? id = some node)
      (hkind : node.kind = .branch condition thenBody elseBody) (inner : Path a (.body thenBody) e) :
      Path a (.statement id) e
  | elseBranch {id : StatementId} {node : Statement} {condition : ExpressionId}
      {thenBody elseBody : BodyId} {e : PathEnd} (hget : a.get? id = some node)
      (hkind : node.kind = .branch condition thenBody (some elseBody))
      (inner : Path a (.body elseBody) e) : Path a (.statement id) e
  | skipped {id : StatementId} {node : Statement} {condition : ExpressionId} {thenBody : BodyId}
      (hget : a.get? id = some node) (hkind : node.kind = .branch condition thenBody none) :
      Path a (.statement id) .behind
  | whileLoop {id : StatementId} {node : Statement} {condition : ExpressionId} {inner : BodyId}
      {e : PathEnd} (hget : a.get? id = some node) (hkind : node.kind = .whileLoop condition inner)
      (hrounds : Path a (.rounds inner) e) : Path a (.statement id) e
  | forLoop {id : StatementId} {node : Statement} {counter : VariableId}
      {first last : ExpressionId} {reverse : Bool} {inner : BodyId} {e : PathEnd}
      (hget : a.get? id = some node) (hkind : node.kind = .forLoop counter first last reverse inner)
      (hrounds : Path a (.rounds inner) e) : Path a (.statement id) e
  | finish {id : BodyId} : Path a (.rounds id) .behind
  | round {id : BodyId} {e : PathEnd} (first : Path a (.body id) .behind)
      (others : Path a (.rounds id) e) : Path a (.rounds id) e
  | stopRound {id : BodyId} {st : StatementId} (first : Path a (.body id) (.returned st)) :
      Path a (.rounds id) (.returned st)

section

variable {a : Arena} {code : Code} {e : PathEnd} {id st : StatementId} {node : Statement}

/-- A path that ends the routine does so at a statement that says so. -/
theorem Path.exists_returning (h : a.Path code e) (he : e = .returned st) :
    ∃ statement value, a.get? st = some statement ∧ statement.kind = .returning value := by
  induction h with
  | done | assignment | call | skipped | finish => nomatch he
  | returning hget hkind =>
      cases he
      exact ⟨_, _, hget, hkind⟩
  | body _ _ ih | next _ _ _ ih | stop _ ih | thenBranch _ _ _ ih | elseBranch _ _ _ ih
  | whileLoop _ _ _ ih | forLoop _ _ _ ih | round _ _ _ ih | stopRound _ ih => exact ih he

/-- Paths go through bodies and statements only. -/
theorem Path.congr {b : Arena} (hbody : ∀ id : BodyId, b.get? id = a.get? id)
    (hstatement : ∀ id : StatementId, b.get? id = a.get? id) (h : a.Path code e) : b.Path code e := by
  induction h with
  | done => exact .done
  | finish => exact .finish
  | body hget _ ih => exact .body ((hbody _).trans hget) ih
  | next _ _ ih ih' => exact .next ih ih'
  | stop _ ih => exact .stop ih
  | assignment hget hkind => exact .assignment ((hstatement _).trans hget) hkind
  | call hget hkind => exact .call ((hstatement _).trans hget) hkind
  | returning hget hkind => exact .returning ((hstatement _).trans hget) hkind
  | thenBranch hget hkind _ ih => exact .thenBranch ((hstatement _).trans hget) hkind ih
  | elseBranch hget hkind _ ih => exact .elseBranch ((hstatement _).trans hget) hkind ih
  | skipped hget hkind => exact .skipped ((hstatement _).trans hget) hkind
  | whileLoop hget hkind _ ih => exact .whileLoop ((hstatement _).trans hget) hkind ih
  | forLoop hget hkind _ ih => exact .forLoop ((hstatement _).trans hget) hkind ih
  | round _ _ ih ih' => exact .round ih ih'
  | stopRound _ ih => exact .stopRound ih

/-! ### What returns has no path behind it -/

theorem path_statements_cons {rest : List StatementId} :
    a.Path (.statements (id :: rest)) .behind ↔
      a.Path (.statement id) .behind ∧ a.Path (.statements rest) .behind := by
  constructor
  · intro h
    cases h with
    | next first others => exact ⟨first, others⟩
  · intro h
    exact .next h.1 h.2

theorem path_body {b : BodyId} {body : Body} (hget : a.get? b = some body) :
    a.Path (.body b) e ↔ a.Path (.statements body.statements) e := by
  constructor
  · intro h
    cases h with
    | body hget' inner =>
        obtain rfl := Option.some.inj (hget.symm.trans hget')
        exact inner
  · exact .body hget

/-- No path leads behind a statement that ends the routine. -/
theorem not_path_returning {value : Option ExpressionId} (hget : a.get? id = some node)
    (hkind : node.kind = .returning value) : ¬ a.Path (.statement id) .behind := by
  intro h
  cases h with
  | assignment hget' hkind' | call hget' hkind' | thenBranch hget' hkind' | elseBranch hget' hkind'
  | skipped hget' hkind' | whileLoop hget' hkind' | forLoop hget' hkind' =>
      obtain rfl := Option.some.inj (hget.symm.trans hget')
      nomatch hkind.symm.trans hkind'

/-- A path leads behind a conditional statement if one leads behind one of its branches. -/
theorem path_branch {condition : ExpressionId} {thenBody elseBody : BodyId}
    (hget : a.get? id = some node) (hkind : node.kind = .branch condition thenBody (some elseBody)) :
    a.Path (.statement id) .behind ↔
      a.Path (.body thenBody) .behind ∨ a.Path (.body elseBody) .behind := by
  constructor
  · intro h
    cases h with
    | thenBranch hget' hkind' inner =>
        obtain rfl := Option.some.inj (hget.symm.trans hget')
        cases hkind.symm.trans hkind'
        exact Or.inl inner
    | elseBranch hget' hkind' inner =>
        obtain rfl := Option.some.inj (hget.symm.trans hget')
        cases hkind.symm.trans hkind'
        exact Or.inr inner
    | assignment hget' hkind' | call hget' hkind' | skipped hget' hkind' | whileLoop hget' hkind'
    | forLoop hget' hkind' =>
        obtain rfl := Option.some.inj (hget.symm.trans hget')
        nomatch hkind.symm.trans hkind'
  · rintro (h | h)
    · exact .thenBranch hget hkind h
    · exact .elseBranch hget hkind h

/-- A statement gives back on every path exactly if no path leads behind it, if that is so for bodies. -/
theorem statementReturnsWith_iff {bodyReturns : BodyId → Except Fault Bool} {returns : Bool}
    (hbody : ∀ b r, bodyReturns b = .ok r → (r = false ↔ a.Path (.body b) .behind))
    (h : a.statementReturnsWith bodyReturns id = .ok returns) :
    returns = false ↔ a.Path (.statement id) .behind := by
  unfold statementReturnsWith at h
  cases hget : a.get? id with
  | none => simp [Arena.get, hget, bind, Except.bind] at h
  | some node =>
      simp only [get_eq_ok.2 hget, bind, Except.bind] at h
      cases hkind : node.kind with
      | returning value =>
          rw [hkind] at h
          obtain rfl := Except.ok.inj h
          exact ⟨nofun, fun hpath => absurd hpath (not_path_returning hget hkind)⟩
      | branch condition thenBody elseBody =>
          rw [hkind] at h
          cases elseBody with
          | none =>
              obtain rfl := Except.ok.inj h
              exact ⟨fun _ => .skipped hget hkind, fun _ => rfl⟩
          | some elseBody =>
              rw [path_branch hget hkind]
              dsimp only at h
              cases hthen : bodyReturns thenBody with
              | error fault => rw [hthen] at h; nomatch h
              | ok first =>
                  rw [hthen] at h
                  rw [← hbody thenBody first hthen]
                  cases first with
                  | false =>
                      obtain rfl := Except.ok.inj h
                      exact ⟨fun _ => Or.inl rfl, fun _ => rfl⟩
                  | true =>
                      rw [← hbody elseBody returns h]
                      exact ⟨Or.inr, fun hor => hor.resolve_left nofun⟩
      | assignment target value =>
          rw [hkind] at h
          obtain rfl := Except.ok.inj h
          exact ⟨fun _ => .assignment hget hkind, fun _ => rfl⟩
      | call callee =>
          rw [hkind] at h
          obtain rfl := Except.ok.inj h
          exact ⟨fun _ => .call hget hkind, fun _ => rfl⟩
      | whileLoop condition inner =>
          rw [hkind] at h
          obtain rfl := Except.ok.inj h
          exact ⟨fun _ => .whileLoop hget hkind .finish, fun _ => rfl⟩
      | forLoop counter first last reverse inner =>
          rw [hkind] at h
          obtain rfl := Except.ok.inj h
          exact ⟨fun _ => .forLoop hget hkind .finish, fun _ => rfl⟩

/-- Some statement of a list gives back on every path exactly if no path leads behind the list. -/
theorem anyReturns_iff {returnsAt : StatementId → Except Fault Bool} {ids : List StatementId}
    {returns : Bool}
    (hstatement : ∀ id r, returnsAt id = .ok r → (r = false ↔ a.Path (.statement id) .behind))
    (h : anyReturns returnsAt ids = .ok returns) :
    returns = false ↔ a.Path (.statements ids) .behind := by
  induction ids with
  | nil =>
      obtain rfl := Except.ok.inj h
      exact ⟨fun _ => .done, fun _ => rfl⟩
  | cons id rest ih =>
      unfold anyReturns at h
      cases hfirst : returnsAt id with
      | error fault => simp [hfirst, bind, Except.bind] at h
      | ok first =>
          simp only [hfirst, bind, Except.bind] at h
          rw [path_statements_cons, ← hstatement id first hfirst]
          cases first with
          | true =>
              obtain rfl := Except.ok.inj h
              exact ⟨nofun, fun hpath => nomatch hpath.1⟩
          | false =>
              rw [← ih h]
              exact ⟨fun hnone => ⟨rfl, hnone⟩, And.right⟩

/-- Down to some depth, a body gives back on every path exactly if no path leads behind it. -/
theorem bodyReturnsWithin_iff {depth : Nat} {b : BodyId} {returns : Bool}
    (h : a.bodyReturnsWithin depth b = .ok returns) :
    returns = false ↔ a.Path (.body b) .behind := by
  induction depth generalizing b returns with
  | zero => nomatch h
  | succ depth ih =>
      unfold bodyReturnsWithin at h
      cases hget : a.get? b with
      | none => simp [Arena.get, hget, bind, Except.bind] at h
      | some body =>
          simp only [get_eq_ok.2 hget, bind, Except.bind] at h
          rw [path_body hget]
          exact anyReturns_iff (fun id r => statementReturnsWith_iff fun b r => ih) h

/-- **A body gives back on every path exactly if no path leads behind it.** -/
theorem bodyReturns_iff {b : BodyId} {returns : Bool} (h : a.bodyReturns b = .ok returns) :
    returns = true ↔ ¬ a.Path (.body b) .behind := by
  rw [← bodyReturnsWithin_iff h, Bool.not_eq_false]

end

/-! ### Coming to an end -/

/-- Looking through a list comes to its end if looking at each statement does. -/
theorem exists_anyReturns {returnsAt : StatementId → Except Fault Bool} {ids : List StatementId}
    (h : ∀ id ∈ ids, ∃ returns, returnsAt id = .ok returns) :
    ∃ returns, anyReturns returnsAt ids = .ok returns := by
  induction ids with
  | nil => exact ⟨false, rfl⟩
  | cons id rest ih =>
      obtain ⟨first, hfirst⟩ := h id List.mem_cons_self
      obtain ⟨returns, hreturns⟩ := ih fun id hid => h id (List.mem_cons_of_mem _ hid)
      simp only [anyReturns, hfirst, hreturns, bind, Except.bind]
      split
      · exact ⟨true, rfl⟩
      · exact ⟨returns, rfl⟩

section

variable {a : Arena} {root : Visit}

/-- **Looking for returns has no fault** below a node if all that is below it is there and not inside
of itself. The bodies on the way down are all different. -/
theorem exists_bodyReturnsWithin (hhas : ∀ w, a.Reaches root w → a.Has w)
    (hacyclic : ∀ w, a.Reaches root w → ¬ a.Under (a.children w) w) (depth : Nat)
    {path : List BodyId} {id : BodyId} (hreaches : a.Reaches root (.body id))
    (hnodup : path.Nodup) (hpath : ∀ p ∈ path, a.Reaches root (.body p) ∧
      a.Under (a.children (.body p)) (.body id)) (hdepth : a.count .body < depth + path.length) :
    ∃ returns, a.bodyReturnsWithin depth id = .ok returns := by
  induction depth generalizing path id with
  | zero =>
      have hle := a.length_le_count hnodup fun p hp => hhas _ (hpath p hp).1
      omega
  | succ depth ih =>
      obtain ⟨body, hget⟩ := exists_of_has id (hhas _ hreaches)
      have hfresh : id ∉ path := fun hmem => hacyclic _ (hpath id hmem).1 (hpath id hmem).2
      have hchild : ∀ st ∈ body.statements, .statement st ∈ a.children (.body id) := by
        intro st hst
        rw [Visit.body_eq id, children_of_get? hget]
        exact List.mem_append_right _ (List.mem_map_of_mem hst)
      -- a body of a statement of this one
      have hinner : ∀ (st : StatementId) node inner, st ∈ body.statements →
          a.get? st = some node → inner ∈ node.kind.bodies →
          ∃ returns, a.bodyReturnsWithin depth inner = .ok returns := by
        intro st node inner hst hnode hinner
        have hchild' : Visit.body inner ∈ a.children (.statement st) := by
          rw [Visit.statement_eq st, children_of_get? hnode]
          exact List.mem_append_right _ (List.mem_map_of_mem hinner)
        have hbelow : a.Under (a.children (.body id)) (.body inner) :=
          ⟨_, hchild st hst, .single hchild'⟩
        refine ih ((hreaches.tail (hchild st hst)).tail hchild') (List.nodup_cons.2 ⟨hfresh, hnodup⟩)
          (List.forall_mem_cons.2 ⟨⟨hreaches, hbelow⟩, fun p hp => ?_⟩)
          (by rw [List.length_cons]; omega)
        obtain ⟨hp', child, hpchild, hpreaches⟩ := hpath p hp
        exact ⟨hp', child, hpchild, (hpreaches.tail (hchild st hst)).tail hchild'⟩
      have hstatement : ∀ st ∈ body.statements, ∃ returns,
          a.statementReturnsWith (a.bodyReturnsWithin depth) st = .ok returns := by
        intro st hst
        obtain ⟨node, hnode⟩ := exists_of_has st (hhas _ (hreaches.tail (hchild st hst)))
        simp only [statementReturnsWith, get_eq_ok.2 hnode, bind, Except.bind]
        split
        · exact ⟨true, rfl⟩
        · rename_i thenBody elseBody hkind
          obtain ⟨first, hfirst⟩ := hinner st node thenBody hst hnode (by
            rw [hkind]
            exact List.mem_cons_self)
          obtain ⟨second, hsecond⟩ := hinner st node elseBody hst hnode (by
            rw [hkind]
            exact List.mem_cons_of_mem _ List.mem_cons_self)
          rw [hfirst, hsecond]
          dsimp only
          split
          · exact ⟨second, rfl⟩
          · exact ⟨false, rfl⟩
        · exact ⟨false, rfl⟩
      obtain ⟨returns, hreturns⟩ := exists_anyReturns hstatement
      exact ⟨returns, by simp [bodyReturnsWithin, get_eq_ok.2 hget, hreturns, bind, Except.bind]⟩

/-- Below a node that is not inside of itself, nor is anything below it, looking for returns gives an
answer. -/
theorem exists_bodyReturns {b : BodyId} (hhas : ∀ w, a.Reaches (.body b) w → a.Has w)
    (hacyclic : ∀ w, a.Reaches (.body b) w → ¬ a.Under (a.children w) w) :
    ∃ returns, a.bodyReturns b = .ok returns :=
  exists_bodyReturnsWithin hhas hacyclic _ .refl List.nodup_nil nofun (Nat.lt_succ_self _)

end

end Arena

end ProcLang

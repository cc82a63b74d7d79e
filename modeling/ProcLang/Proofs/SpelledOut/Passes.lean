import ProcLang.Pipeline
import ProcLang.Proofs.SpelledOut.Renamed
import ProcLang.Proofs.Walk.Follows

/-!
# ProcLang.Proofs.SpelledOut.Passes

**The later passes do the same in the image of a tree** (`repeats_laterPasses`). If the arena `t` holds all
nodes of `s`, what a pass does to `s` it does to the image: it reports the same, and in the end all nodes are
in their places again. A walk over the image may go through more layers, since the bound on them is larger
there.
-/

namespace ProcLang

open Arena WalkM

variable {κ σ α β γ : Type} {f : ExpressionId → ExpressionId} {family : Family}

/-! ### Slots -/

theorem TypeKind.setLength_rename (kind : TypeKind) (e : ExpressionId) :
    (kind.mapExpressions f).setLength (f e) = (kind.setLength e).mapExpressions f := by
  cases kind <;> rfl

theorem StatementKind.setExpression_rename (kind : StatementKind) (index : Nat) (e : ExpressionId) :
    (kind.mapExpressions f).setExpression index (f e) = (kind.setExpression index e).mapExpressions f := by
  cases kind with
  | returning value => cases value <;> rcases index with _ | _ <;> rfl
  | assignment | forLoop => rcases index with _ | _ | _ <;> rfl
  | whileLoop | branch | call => rcases index with _ | _ <;> rfl

theorem ExpressionKind.setOperand_rename (kind : ExpressionKind) (index : Nat) (e : ExpressionId) :
    (kind.mapExpressions f).setOperand index (f e) = (kind.setOperand index e).mapExpressions f := by
  cases kind with
  | call name target arguments => simp [mapExpressions, setOperand]
  | unary | binary => rcases index with _ | _ | _ <;> rfl
  | integer | real | boolean | identifier => rfl

/-! ### Walks side by side -/

/-- The second arena holds the nodes of the first one, and the same has been reported. -/
structure Imaged (f : ExpressionId → ExpressionId) (s t : WalkState σ) : Prop where
  renamed : s.arena.Renamed f t.arena
  diagnostics : t.diagnostics = s.diagnostics

/-- What one part of a walk does, the other one does in the image of the tree. -/
abbrev Repeats (f : ExpressionId → ExpressionId) (e : α → β) (m : WalkM κ σ α) (m' : WalkM κ σ β) : Prop :=
  Follows (Imaged f) e m m'

namespace Repeats

/-! ### Single steps -/

theorem inspect {e : α → β} {g : Arena → Except Fault α} {g' : Arena → Except Fault β}
    (hg : ∀ {s t : Arena}, s.Renamed f t → Carries e (g s) (g' t)) :
    Repeats f e (inspect g : WalkM κ σ α) (WalkM.inspect g') := by
  intro c s x s' t hrun hS
  obtain ⟨hx, rfl⟩ := runs_inspect.1 hrun
  exact ⟨t, runs_inspect.2 ⟨hg hS.renamed x hx, rfl⟩, hS⟩

theorem node (i : NodeId family) : Repeats f (Node.mapExpressions f family)
    (node i : WalkM κ σ (Node family)) (WalkM.node (i.rename f)) :=
  inspect fun h => h.get i

theorem arena_bind {e : α → β} {g : Arena → WalkM κ σ α} {g' : Arena → WalkM κ σ β}
    (hg : ∀ {s t : Arena}, s.Renamed f t → Repeats f e (g s) (g' t)) :
    Repeats f e (arena >>= g) (arena >>= g') := by
  intro c s x s' t hrun hS
  obtain ⟨t', hrun', hS'⟩ := hg hS.renamed _ _ _ _ _ (runs_arena_bind.1 hrun) hS
  exact ⟨t', runs_arena_bind.2 hrun', hS'⟩

theorem update (i : NodeId family) {g g' : Node family → Node family}
    (hg : ∀ node, g' (Node.mapExpressions f family node) = Node.mapExpressions f family (g node)) :
    Repeats f id (update i g : WalkM κ σ Unit) (WalkM.update (i.rename f) g') := by
  intro c s u s' t hrun hS
  obtain ⟨changed, s₁, hinspect, hmodify⟩ := runs_bind.1 hrun
  obtain ⟨hchanged, rfl⟩ := runs_inspect.1 hinspect
  obtain ⟨-, rfl⟩ := Prod.mk.inj (Except.ok.inj hmodify)
  obtain ⟨w, hw, hrenamed⟩ := hS.renamed.modify hg hchanged
  exact ⟨_, runs_bind.2 ⟨w, t, runs_inspect.2 ⟨hw, rfl⟩, rfl⟩, hrenamed, hS.diagnostics⟩

theorem report (cause : Cause) (place : Position) :
    Repeats f id (report cause place : WalkM κ σ Unit) (WalkM.report cause place) := by
  intro c s u s' t hrun hS
  obtain rfl := runs_report.1 hrun
  refine ⟨_, runs_report.2 rfl, hS.renamed, ?_⟩
  rw [WalkState.reported, WalkState.reported, hS.diagnostics]

theorem forM_map {xs : List α} {g : α → WalkM κ σ PUnit} {g' : β → WalkM κ σ PUnit} {e : α → β}
    (hg : ∀ x, Repeats f id (g x) (g' (e x))) : Repeats f id (xs.forM g) ((xs.map e).forM g') := by
  induction xs with
  | nil => exact .pure _
  | cons x rest ih => exact .bind (hg x) fun _ => ih

/-! ### The walk -/

section

variable {below below' : Visit → WalkM κ σ (Option ExpressionId)}
  (hbelow : ∀ v, Repeats f (Option.map f) (below v) (below' (v.rename f)))

include hbelow

theorem visitOnly {v v' : Visit} (hv : v.rename f = v') :
    Repeats f id (visitOnly below v) (ProcLang.visitOnly below' v') := by
  subst hv
  exact .discard (hbelow v)

theorem visitOptional {g : γ → Visit} (hsame : ∀ y, (g y).rename f = g y) (x : Option γ) :
    Repeats f id (visitOptional below g x) (ProcLang.visitOptional below' g x) := by
  cases x with
  | none => exact .pure _
  | some y => exact visitOnly hbelow (hsame y)

theorem visitEach {g : γ → Visit} (hsame : ∀ y, (g y).rename f = g y) (xs : List γ) :
    Repeats f id (visitEach below g xs) (ProcLang.visitEach below' g xs) :=
  .forM fun y => visitOnly hbelow (hsame y)

theorem visitSlot (i : ExpressionId) {store store' : ExpressionId → WalkM κ σ Unit}
    (hstore : ∀ i, Repeats f id (store i) (store' (f i))) :
    Repeats f id (visitSlot below i store) (ProcLang.visitSlot below' (f i) store') := by
  refine .bind (hbelow (.expression i)) fun r => ?_
  cases r with
  | none => exact .pure _
  | some replacement => exact hstore replacement

theorem visitOperand (parent : ExpressionId) (index : Nat) (operand : ExpressionId) :
    Repeats f id (visitOperand below parent index operand)
      (ProcLang.visitOperand below' (f parent) index (f operand)) :=
  visitSlot hbelow operand fun new => update parent fun node =>
    congrArg (fun kind => ({ node with kind } : Expression)) (node.kind.setOperand_rename index new)

theorem walkRoutine (i : RoutineId) : Repeats f id (walkRoutine below i) (ProcLang.walkRoutine below' i) :=
  .bind (node i) fun _ => .bind (visitEach hbelow (fun _ => rfl) _) fun _ =>
    .bind (visitOptional hbelow (fun _ => rfl) _) fun _ => visitOnly hbelow rfl

theorem walkVariable (i : VariableId) :
    Repeats f id (walkVariable below i) (ProcLang.walkVariable below' i) := by
  refine .bind (node i) fun _ => .bind (visitOptional hbelow (fun _ => rfl) _) fun _ =>
    .bind (node i) fun x => ?_
  obtain ⟨span, name, declaredType, initializer⟩ := x
  cases initializer with
  | none => exact .pure _
  | some e => exact visitSlot hbelow e fun _ => update i fun _ => rfl

theorem walkType (i : TypeId) : Repeats f id (walkType below i) (ProcLang.walkType below' i) := by
  refine .bind (node i) fun ⟨span, kind⟩ => ?_
  cases kind with
  | array length element =>
      cases length with
      | none => exact visitOnly hbelow rfl
      | some e =>
          exact .bind (visitSlot hbelow e fun new => update i fun type =>
            congrArg (fun kind => ({ type with kind } : TypeNode)) (type.kind.setLength_rename new))
            fun _ => visitOnly hbelow rfl
  | record fields => exact visitEach hbelow (fun _ => rfl) _
  | named | integer | real | boolean => exact .pure _

theorem walkBody (i : BodyId) : Repeats f id (walkBody below i) (ProcLang.walkBody below' i) :=
  .bind (node i) fun _ => .bind (visitEach hbelow (fun _ => rfl) _) fun _ =>
    visitEach hbelow (fun _ => rfl) _

theorem walkStatementExpressions (i : StatementId) :
    Repeats f id (walkStatementExpressions below i) (ProcLang.walkStatementExpressions below' i) := by
  refine .bind (node i) fun statement => ?_
  dsimp only [Node.mapExpressions]
  rw [StatementKind.expressions_mapExpressions, List.zipIdx_map]
  exact forM_map fun p => visitSlot hbelow p.1 fun new => update i fun statement =>
    congrArg (fun kind => ({ statement with kind } : Statement))
      (statement.kind.setExpression_rename p.2 new)

theorem walkStatement (i : StatementId) :
    Repeats f id (walkStatement below i) (ProcLang.walkStatement below' i) := by
  refine .bind (walkStatementExpressions hbelow i) fun _ => .bind (node i) fun statement => ?_
  dsimp only [Node.mapExpressions]
  rw [StatementKind.counter?_mapExpressions, StatementKind.bodies_mapExpressions]
  exact .bind (visitOptional hbelow (fun _ => rfl) _) fun _ => visitEach hbelow (fun _ => rfl) _

theorem walkExpression (i : ExpressionId) :
    Repeats f id (walkExpression below i) (ProcLang.walkExpression below' (f i)) := by
  refine .bind (node i) fun e => ?_
  dsimp only [Node.mapExpressions]
  rw [ExpressionKind.operands_mapExpressions, List.zipIdx_map]
  exact forM_map fun p => visitOperand hbelow i p.2 p.1

/-- **The default walk** repeats itself in the image of a tree. -/
theorem walk (v : Visit) : Repeats f id (walk below v) (ProcLang.walk below' (v.rename f)) := by
  cases v with
  | program =>
      refine arena_bind fun {s t} h => ?_
      rw [h.declarations]
      exact visitEach hbelow (fun _ => rfl) _
  | declaration d => cases d <;> exact visitOnly hbelow rfl
  | routine i => exact walkRoutine hbelow i
  | «variable» i => exact walkVariable hbelow i
  | typeDecl i => exact .bind (node i) fun _ => visitOnly hbelow rfl
  | type i => exact walkType hbelow i
  | body i => exact walkBody hbelow i
  | statement i => exact walkStatement hbelow i
  | expression i => exact walkExpression hbelow i

theorem walkThrough (v : Visit) :
    Repeats f (Option.map f) (walkThrough below v) (ProcLang.walkThrough below' (v.rename f)) :=
  .bind (walk hbelow v) fun _ => .pure none

end

/-- One layer of a visitor repeats itself. -/
def Layer (visitor : Visitor κ σ) : Prop :=
  ∀ f below below', (∀ v, Repeats f (Option.map f) (below v) (below' (v.rename f))) →
    ∀ v, Repeats f (Option.map f) (visitor below v) (visitor below' (v.rename f))

section

variable {visitor : Visitor κ σ} (hlayer : Layer visitor)

include hlayer

/-- There may be more layers in the image. -/
theorem visitWithin {n m : Nat} (hle : n ≤ m) (v : Visit) :
    Repeats f (Option.map f) (visitWithin visitor n v) (ProcLang.visitWithin visitor m (v.rename f)) := by
  induction n generalizing m v with
  | zero => exact fun _ _ _ _ _ hrun => (runs_throw hrun).elim
  | succ n ih =>
      obtain ⟨m, rfl⟩ : ∃ k, m = k + 1 := ⟨m - 1, by omega⟩
      exact hlayer f _ _ (fun v => ih (Nat.le_of_succ_le_succ hle) v) v

theorem visit (v : Visit) :
    Repeats f (Option.map f) (visit visitor v) (ProcLang.visit visitor (v.rename f)) := by
  refine arena_bind fun {s t} h => visitWithin hlayer ?_ v
  have hsize := h.size_le
  unfold depthBound
  omega

end

/-! ### Typing -/

/-- What is kept of the outcome of typing. -/
theorem storeType (reporting : Bool) (i : ExpressionId) (outcome : Except Cause (Option TypeId)) : Repeats f id
    (match outcome with
      | .ok (some type) => WalkM.update i fun e => { e with type := some type }
      | .ok none => pure ()
      | .error cause => do
          if reporting then WalkM.report cause (Expression.span (← WalkM.node i)).start : WalkM κ σ Unit)
    (match outcome with
      | .ok (some type) => WalkM.update (f i) fun e => { e with type := some type }
      | .ok none => pure ()
      | .error cause => do
          if reporting then WalkM.report cause (Expression.span (← WalkM.node (f i))).start) := by
  rcases outcome with cause | _ | type
  · cases reporting with
    | true => exact .bind (node i) fun e => report cause _
    | false => exact .pure _
  · exact .pure _
  · exact update i fun _ => rfl

theorem typeExpression (reporting : Bool) (i : ExpressionId) :
    Repeats f id (typeExpression reporting i : WalkM κ σ Unit) (ProcLang.typeExpression reporting (f i)) := by
  intro c s u s' t hrun hS
  obtain ⟨⟨outcome, settled⟩, s₁, hinspect, hrest⟩ := runs_bind.1 hrun
  obtain ⟨hsettle, rfl⟩ := runs_inspect.1 hinspect
  obtain ⟨w, hsettle', hrenamed⟩ := hS.renamed.settleType hsettle
  obtain ⟨_, s₂, hmodify, hrest⟩ := runs_bind.1 hrest
  obtain ⟨-, rfl⟩ := Prod.mk.inj (Except.ok.inj hmodify)
  obtain ⟨t', hrest', hS'⟩ :=
    storeType reporting i outcome _ _ _ _ { t with arena := w } hrest ⟨hrenamed, hS.diagnostics⟩
  exact ⟨t', runs_bind.2 ⟨_, t, runs_inspect.2 ⟨hsettle', rfl⟩, runs_bind.2 ⟨_, _, rfl, hrest'⟩⟩, hS'⟩

theorem typingVisitor (reporting : Bool) : Layer (typingVisitor reporting : Visitor κ σ) := by
  intro f below below' hbelow v
  cases v with
  | expression i =>
      exact .bind (walkExpression hbelow i) fun _ => .bind (typeExpression reporting i) fun _ => .pure none
  | program | declaration | routine | «variable» | typeDecl | type | body | statement =>
      exact walkThrough hbelow _

theorem typeQuietly (i : ExpressionId) :
    Repeats f id (typeQuietly i : WalkM κ σ Unit) (ProcLang.typeQuietly (f i)) :=
  .discard (visit (typingVisitor false) (.expression i))

/-! ### The other visitors -/

theorem checkArgument (argument : ExpressionId) (parameter : VariableId) (number : Nat) :
    Repeats f id (checkArgument argument parameter number : CallsM σ Unit)
      (ProcLang.checkArgument (f argument) parameter number) := by
  refine .bind (typeQuietly argument) fun _ => .bind (node argument) fun ⟨_, _, type, _⟩ =>
    .bind (node parameter) fun ⟨_, _, declaredType, _⟩ => ?_
  cases type with
  | none => exact .pure _
  | some received =>
      cases declaredType with
      | none => exact .pure _
      | some expected =>
          refine .bind (inspect fun h => h.sameType _ _) fun same => ?_
          cases same with
          | true => exact .pure _
          | false =>
              exact .bind (inspect fun h => h.typeName _) fun _ =>
                .bind (inspect fun h => h.typeName _) fun _ =>
                .bind (node argument) fun _ => report _ _

theorem checkCall (i : ExpressionId) :
    Repeats f id (checkCall ProcLang.checkArgument i : CallsM σ Unit)
      (ProcLang.checkCall ProcLang.checkArgument (f i)) := by
  refine .bind (node i) fun ⟨span, constant, type, kind⟩ => ?_
  cases kind with
  | call name target arguments =>
      cases target with
      | none => exact report _ _
      | some r =>
          refine .bind (node r) fun routine => .seq ?_ fun _ => update i fun _ => rfl
          dsimp only [Node.mapExpressions]
          unfold checkArguments
          rw [List.length_map, List.zip_map_left, List.zipIdx_map]
          split
          · exact forM_map fun p => checkArgument _ _ _
          · exact report _ _
  | unary | binary | integer | real | boolean | identifier => exact .pure _

theorem callVisitor : Layer (callVisitor ProcLang.checkArgument : Visitor Unit σ) := by
  intro f below below' hbelow v
  cases v with
  | «variable» i =>
      refine .bind (walkVariable hbelow i) fun _ => .bind (node i) fun x => ?_
      obtain ⟨span, name, declaredType, initializer⟩ := x
      cases initializer with
      | none => exact .pure none
      | some e => exact .bind (typeQuietly e) fun _ => .pure none
  | expression i =>
      exact .bind (walkExpression hbelow i) fun _ => .bind (checkCall i) fun _ => .pure none
  | program | declaration | routine | typeDecl | type | body | statement => exact walkThrough hbelow _

theorem lengthVisitor : Layer lengthVisitor := by
  intro f below below' hbelow v
  cases v with
  | routine i =>
      refine .bind (node i) fun routine =>
        .bind (.inContext (visitEach hbelow (fun _ => rfl) _) true) fun _ => ?_
      exact .bind (visitOptional hbelow (fun _ => rfl) _) fun _ => .bind (visitOnly hbelow rfl) fun _ =>
        .pure none
  | type i =>
      have hwalk : Repeats f (Option.map f) (do
          inContext false (ProcLang.walkType below i)
          return none : WalkM Bool Unit (Option ExpressionId)) (do
          inContext false (ProcLang.walkType below' i)
          return none) :=
        .bind (.inContext (walkType hbelow i) false) fun _ => .pure none
      refine .bind (node i) fun ⟨span, kind⟩ => ?_
      cases kind with
      | array length element =>
          cases length with
          | none =>
              refine .bind .read fun omissible => ?_
              cases omissible with
              | true => exact hwalk
              | false => exact .bind (report _ _) fun _ => hwalk
          | some e => exact hwalk
      | named | integer | real | boolean | record => exact hwalk
  | program | declaration | «variable» | typeDecl | body | statement | expression =>
      exact walkThrough hbelow _

theorem constantVisitor : Layer constantVisitor := by
  intro f below below' hbelow v
  cases v with
  | expression i =>
      refine .bind (walkExpression hbelow i) fun _ => .seq ?_ fun _ => .pure none
      exact .bind (inspect fun h => h.isConstant i) fun _ => update i fun _ => rfl
  | type i =>
      refine .bind (walkType hbelow i) fun _ => .seq (.bind (node i) fun ⟨span, kind⟩ => ?_)
        fun _ => .pure none
      cases kind with
      | array length element =>
          cases length with
          | none => exact .pure _
          | some e =>
              refine .bind (node e) fun ⟨span, constant, type, kind⟩ => ?_
              cases constant with
              | true => exact .pure _
              | false => exact report _ _
      | named | integer | real | boolean | record => exact .pure _
  | program | declaration | routine | «variable» | typeDecl | body | statement =>
      exact walkThrough hbelow _

theorem returnVisitor : Layer returnVisitor := by
  intro f below below' hbelow v
  cases v with
  | routine i =>
      refine .seq (.bind (node i) fun ⟨span, name, parameters, returnType, body⟩ => ?_) fun _ => .pure none
      cases returnType with
      | none => exact .pure _
      | some type =>
          refine .bind (inspect fun h => h.bodyReturns _) fun returns => ?_
          cases returns with
          | true => exact .pure _
          | false => exact report _ _
  | «variable» | typeDecl => exact .pure none
  | program | declaration | type | body | statement | expression => exact walkThrough hbelow _

end Repeats

/-! ### Passes -/

/-- A pass does in the image of a tree what it does in the tree. -/
def Pass.Repeats (pass : Pass) : Prop :=
  ∀ f a b outcome, a.Renamed f b → pass.run a = .ok outcome →
    ∃ outcome', pass.run b = .ok outcome' ∧ outcome.arena.Renamed f outcome'.arena ∧
      outcome'.diagnostics = outcome.diagnostics

theorem repeats_ofVisitor {visitor : Visitor κ σ} (hlayer : Repeats.Layer visitor) (stage : Stage)
    (context : κ) (own : σ) : (Pass.ofVisitor stage visitor context own).Repeats := by
  intro f a b outcome h hrun
  obtain ⟨s, hwalk, rfl⟩ := run_ofVisitor.1 hrun
  obtain ⟨r, hvisit⟩ := walkProgram_eq_ok.1 hwalk
  have hbegin : Imaged f (⟨a, #[], #[], own⟩ : WalkState σ) ⟨b, #[], #[], own⟩ := ⟨h, rfl⟩
  obtain ⟨t, hvisit', hS⟩ := Repeats.visit hlayer .program _ _ _ _ _ hvisit hbegin
  refine ⟨_, run_ofVisitor.2 ⟨t, walkProgram_eq_ok.2 ⟨_, hvisit'⟩, rfl⟩, hS.renamed, ?_⟩
  rw [hS.diagnostics]

/-- **The later passes** do in the image of a tree what they do in the tree. -/
theorem repeats_laterPasses : ∀ pass ∈ laterPasses, pass.Repeats := by
  intro pass hpass
  simp only [laterPasses, List.mem_cons, List.not_mem_nil, or_false] at hpass
  rcases hpass with rfl | rfl | rfl | rfl | rfl
  · exact repeats_ofVisitor Repeats.callVisitor _ _ _
  · exact repeats_ofVisitor Repeats.lengthVisitor _ _ _
  · exact repeats_ofVisitor Repeats.constantVisitor _ _ _
  · exact repeats_ofVisitor (Repeats.typingVisitor true) _ _ _
  · exact repeats_ofVisitor Repeats.returnVisitor _ _ _

theorem runPasses_renamed {haltOnError : Bool} {passes : List Pass}
    (hpasses : ∀ pass ∈ passes, pass.Repeats) {found found' last : Analysis}
    (hrenamed : found.arena.Renamed f found'.arena) (hdiagnostics : found'.diagnostics = found.diagnostics)
    (hhaltedAt : found'.haltedAt = found.haltedAt) (hrun : runPasses haltOnError passes found = .ok last) :
    ∃ last', runPasses haltOnError passes found' = .ok last' ∧ last'.diagnostics = last.diagnostics ∧
      last'.haltedAt = last.haltedAt := by
  induction passes generalizing found found' with
  | nil =>
      obtain rfl : found = last := Except.ok.inj hrun
      exact ⟨found', rfl, hdiagnostics, hhaltedAt⟩
  | cons pass rest ih =>
      unfold runPasses at hrun ⊢
      cases houtcome : pass.run found.arena with
      | error fault => simp [houtcome, bind, Except.bind] at hrun
      | ok outcome =>
          obtain ⟨outcome', houtcome', hnext, hsame⟩ :=
            hpasses pass List.mem_cons_self f _ _ outcome hrenamed houtcome
          simp only [houtcome, houtcome', hsame, bind, Except.bind] at hrun ⊢
          split at hrun
          · rename_i hhalt
            obtain rfl := Except.ok.inj hrun
            rw [if_pos hhalt]
            exact ⟨_, rfl, congrArg (· ++ _) hdiagnostics, rfl⟩
          · rename_i hhalt
            rw [if_neg hhalt]
            refine ih (fun pass hpass => hpasses pass (List.mem_cons_of_mem _ hpass)) ?_ ?_ ?_ hrun
            · exact hnext
            · exact congrArg (· ++ _) hdiagnostics
            · rfl

end ProcLang

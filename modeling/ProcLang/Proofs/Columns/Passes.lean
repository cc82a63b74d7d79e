import ProcLang.Pipeline
import ProcLang.Proofs.Walk.Follows

/-!
# ProcLang.Proofs.Columns.Passes

**No pass looks at columns** (`tracks_nameResolution`, `tracks_laterPasses`). On a tree with
other columns each pass does what it does on the tree itself: the trees that it leaves and the places
that it reports differ in their columns as the trees at the beginning do. So does the analysis of a
parsed tree (`analyze_mapColumns`).
-/

namespace ProcLang

open Arena WalkM

variable {κ σ : Type} {f : Nat → Nat}

/-! ### States and outcomes -/

/-- The state with other columns. -/
def WalkState.mapColumns (f : Nat → Nat) (s : WalkState σ) : WalkState σ :=
  ⟨s.arena.mapColumns f, s.diagnostics.map (·.mapColumns f), s.journal.map (·.mapColumns f), s.own⟩

/-- The outcome with other columns. -/
def PassOutcome.mapColumns (f : Nat → Nat) (outcome : PassOutcome) : PassOutcome :=
  ⟨outcome.arena.mapColumns f, outcome.diagnostics.map (·.mapColumns f),
    outcome.journal.map (·.mapColumns f)⟩

/-- The analysis with other columns. -/
def Analysis.mapColumns (f : Nat → Nat) (analysis : Analysis) : Analysis where
  arena := analysis.arena.mapColumns f
  diagnostics := analysis.diagnostics.map (·.mapColumns f)
  haltedAt := analysis.haltedAt
  journal := analysis.journal.map (·.mapColumns f)

/-- The second state is the first one with other columns. -/
def Recolumned (f : Nat → Nat) (s t : WalkState σ) : Prop := t = s.mapColumns f

theorem likeness_recolumned : Likeness f (Recolumned f : WalkState σ → WalkState σ → Prop) where
  arena h := by
    obtain rfl := h
    rfl
  exchange h a := by
    obtain rfl := h
    rfl
  reported h cause place := by
    obtain rfl := h
    simp [Recolumned, WalkState.reported, WalkState.mapColumns, Diagnostic.mapColumns]

/-- What one part of a walk does, the other one does on a tree with other columns. -/
abbrev Tracks {α β : Type} (f : Nat → Nat) (e : α → β) (m : WalkM κ σ α) (m' : WalkM κ σ β) : Prop :=
  Follows (Recolumned f) e m m'

namespace Tracks

theorem note (event : Event) :
    Tracks f id (note event : WalkM κ σ Unit) (WalkM.note (event.mapColumns f)) := by
  intro c s u s' t hrun hS
  obtain rfl := hS
  obtain rfl := runs_note.1 hrun
  refine ⟨_, runs_note.2 rfl, ?_⟩
  simp [Recolumned, WalkState.noted, WalkState.mapColumns]

theorem updateOwn (g : σ → σ) : Tracks f id (updateOwn g : WalkM κ σ Unit) (WalkM.updateOwn g) := by
  intro c s u s' t hrun hS
  obtain rfl := hS
  obtain ⟨-, rfl⟩ := Prod.mk.inj (Except.ok.inj hrun)
  exact ⟨_, rfl, rfl⟩

theorem get : Tracks f (WalkState.mapColumns f) (get : WalkM κ σ (WalkState σ)) get := by
  intro c s x s' t hrun hS
  obtain rfl := hS
  obtain ⟨rfl, rfl⟩ := Prod.mk.inj (Except.ok.inj hrun)
  exact ⟨_, rfl, rfl⟩

theorem add (family : Family) (node : Node family) :
    Tracks f id (add family node : WalkM κ σ (NodeId family))
      (WalkM.add family (Node.mapColumns f family node)) := by
  intro c s i s' t hrun hS
  obtain rfl := hS
  obtain ⟨rfl, rfl⟩ := runs_add.1 hrun
  have hadd := s.arena.add_mapColumns f family node
  refine ⟨_, runs_add.2 ⟨(congrArg Prod.fst hadd).symm, rfl⟩, ?_⟩
  simp only [Recolumned, WalkState.added, WalkState.mapColumns, hadd]

theorem node {family : Family} (i : NodeId family) : Tracks f (Node.mapColumns f family)
    (node i : WalkM κ σ (Node family)) (WalkM.node i) :=
  Follows.node likeness_recolumned i

theorem update {family : Family} (i : NodeId family) {g g' : Node family → Node family}
    (hg : ∀ node, g' (Node.mapColumns f family node) = Node.mapColumns f family (g node)) :
    Tracks f id (update i g : WalkM κ σ Unit) (WalkM.update i g') :=
  Follows.update likeness_recolumned i hg

theorem report (cause : Cause) (place : Position) :
    Tracks f id (report cause place : WalkM κ σ Unit) (WalkM.report cause (place.mapColumn f)) :=
  Follows.report likeness_recolumned cause place

/-- Looking at something that does not depend on columns. -/
theorem inspect {α : Type} {g : Arena → Except Fault α} (hg : ∀ a : Arena, g (a.mapColumns f) = g a) :
    Tracks f id (inspect g : WalkM κ σ α) (WalkM.inspect g) :=
  Follows.inspect likeness_recolumned fun a => by rw [hg, id_map]

end Tracks

/-- A pass does not look at columns. -/
def Pass.Tracks (pass : Pass) : Prop :=
  ∀ f a outcome, pass.run a = .ok outcome →
    pass.run (a.mapColumns f) = .ok (outcome.mapColumns f)

theorem tracks_ofVisitor {visitor : Visitor κ σ}
    (hlayer : ∀ f below below', (∀ v, Tracks f id (below v) (below' v)) → ∀ v,
      Tracks f id (visitor below v) (visitor below' v)) (stage : Stage) (context : κ) (own : σ) :
    (Pass.ofVisitor stage visitor context own).Tracks := by
  intro f a outcome hrun
  obtain ⟨s, hwalk, rfl⟩ := run_ofVisitor.1 hrun
  have hbegin : Recolumned f (⟨a, #[], #[], own⟩ : WalkState σ) ⟨a.mapColumns f, #[], #[], own⟩ := by
    simp [Recolumned, WalkState.mapColumns]
  obtain ⟨t, hwalk', rfl⟩ := Follows.walkProgram (hlayer f) likeness_recolumned hwalk hbegin
  refine run_ofVisitor.2 ⟨_, hwalk', ?_⟩
  simp [PassOutcome.mapColumns, WalkState.mapColumns, Event.mapColumns]

/-! ### Name resolution -/

/-- The entry with another column. -/
def ScopeEntry.mapColumns (f : Nat → Nat) (entry : ScopeEntry) : ScopeEntry :=
  { entry with start := entry.start.mapColumn f }

section

/-- The names stay what they are, and so do the lines in the reports. -/
theorem repetitionsAfter_mapColumns (seen : List (String × Nat)) (names : List (String × Position)) :
    repetitionsAfter seen (names.map fun p => (p.1, p.2.mapColumn f)) =
      (repetitionsAfter seen names).map (·.mapColumns f) := by
  induction names generalizing seen with
  | nil => rfl
  | cons entry rest ih =>
      obtain ⟨name, start⟩ := entry
      simp only [List.map_cons, repetitionsAfter]
      cases seen.lookup name with
      | none => exact ih _
      | some line => exact congrArg _ (ih _)

theorem firstsAfter_mapColumns (seen : List String) (entries : List ScopeEntry) :
    firstsAfter seen (entries.map (·.mapColumns f)) =
      (firstsAfter seen entries).map (·.mapColumns f) := by
  induction entries generalizing seen with
  | nil => rfl
  | cons entry rest ih =>
      simp only [List.map_cons, firstsAfter]
      rw [show (entry.mapColumns f).name = entry.name from rfl]
      split
      · exact ih _
      · exact congrArg _ (ih _)

theorem routinesOf_mapColumns (entries : List ScopeEntry) :
    routinesOf (entries.map (·.mapColumns f)) = routinesOf entries := by
  rw [routinesOf, List.filterMap_map, routinesOf]
  rfl

theorem extend_mapColumns (scope : Scope) (entries : List ScopeEntry) :
    scope.extend (entries.map (·.mapColumns f)) = scope.extend entries := by
  simp only [Scope.extend, variablesOf, typesOf, List.filterMap_map]
  rfl

theorem tracks_reportAll (names : List (String × Position)) :
    Tracks f id (reportAll (repetitions names))
      (reportAll (repetitions (names.map fun p => (p.1, p.2.mapColumn f)))) := by
  rw [repetitions, repetitions, repetitionsAfter_mapColumns, reportAll, reportAll]
  generalize repetitionsAfter [] names = ds
  induction ds with
  | nil => exact .pure _
  | cons d rest ih => exact .bind (Tracks.report d.cause d.position) fun _ => ih

theorem tracks_scopeEntries (seeds : List VariableId) (declarations : List Declaration) :
    Tracks f (List.map (ScopeEntry.mapColumns f)) (scopeEntries seeds declarations)
      (scopeEntries seeds declarations) := by
  refine .mapM fun d => .bind (Follows.inspect likeness_recolumned fun a =>
    a.declarationName_mapColumns f d) fun p => ?_
  exact Follows.pure (⟨d, p.1, p.2.start⟩ : ScopeEntry)

theorem tracks_declareScope (seeds : List VariableId) (declarations : List Declaration) :
    Tracks f id (declareScope seeds declarations) (declareScope seeds declarations) := by
  refine .bind (tracks_scopeEntries seeds declarations) fun entries => ?_
  have hnames : ((entries.map (ScopeEntry.mapColumns f)).map fun entry => (entry.name, entry.start)) =
      (entries.map fun entry => (entry.name, entry.start)).map fun p => (p.1, p.2.mapColumn f) := by
    rw [List.map_map, List.map_map]
    rfl
  have hsilent : (repetitions ((entries.map fun entry => (entry.name, entry.start)).map fun p =>
      (p.1, p.2.mapColumn f))).isEmpty =
      (repetitions (entries.map fun entry => (entry.name, entry.start))).isEmpty := by
    rw [repetitions, repetitionsAfter_mapColumns, List.isEmpty_map, repetitions]
  dsimp only
  rw [hnames, hsilent, firstsAfter_mapColumns, routinesOf_mapColumns]
  refine .bind (tracks_reportAll _) fun _ => .bind (Tracks.updateOwn _) fun _ => ?_
  split
  · refine .bind .read fun scope => ?_
    rw [extend_mapColumns]
    exact .pure _
  · exact .pure _

theorem tracks_checkCycles (declarations : List TypeDeclId) :
    Tracks f id (checkCycles declarations) (checkCycles declarations) :=
  .bind (Tracks.inspect fun a => a.cyclicAmong_mapColumns f declarations) fun _ =>
    .forM fun i => .bind (Tracks.node i) fun _ => Tracks.report _ _

theorem tracks_resolveIdentifier (i : ExpressionId) (name : String) :
    Tracks f id (resolveIdentifier i name) (resolveIdentifier i name) := by
  refine .bind .read fun scope => ?_
  dsimp only [id_eq]
  cases scope.variableNames.lookup name with
  | some target =>
      exact .bind (Tracks.node target) fun _ => .bind (Tracks.update i fun _ => rfl) fun _ => .pure _
  | none =>
      refine .bind (Tracks.node i) fun e => .bind Tracks.get fun s => ?_
      dsimp only [WalkState.mapColumns, Node.mapColumns_expression]
      cases s.own.lookup name with
      | some r => exact .bind (Tracks.note _) fun _ => .map (Tracks.add _ _) fun _ => rfl
      | none => exact .bind (Tracks.report _ _) fun _ => .pure _

theorem tracks_resolveCall (i : ExpressionId) (name : String) :
    Tracks f id (resolveCall i name) (resolveCall i name) := by
  refine .bind Tracks.get fun s => ?_
  dsimp only [WalkState.mapColumns]
  cases s.own.lookup name with
  | some r => exact Tracks.update i fun _ => rfl
  | none => exact .bind (Tracks.node i) fun _ => Tracks.report _ _

theorem tracks_resolveTypeName (i : TypeId) (name : String) :
    Tracks f id (resolveTypeName i name) (resolveTypeName i name) := by
  refine .bind .read fun scope => ?_
  dsimp only [id_eq]
  cases scope.typeNames.lookup name with
  | some target => exact Tracks.update i fun _ => rfl
  | none => exact .bind (Tracks.node i) fun _ => Tracks.report _ _

theorem tracks_checkFields (fields : List VariableId) :
    Tracks f id (checkFields fields) (checkFields fields) := by
  have hread : Tracks f (List.map fun p : String × Position => (p.1, p.2.mapColumn f))
      (fields.mapM fun (i : VariableId) => do
        let field ← WalkM.node i
        return (field.name, field.span.start) : NamesM _)
      (fields.mapM fun (i : VariableId) => do
        let field ← WalkM.node i
        return (field.name, field.span.start)) :=
    .mapM fun i => .bind (Tracks.node i) fun field => Follows.pure (field.name, field.span.start)
  exact .bind hread fun names => tracks_reportAll names

theorem tracks_checkMemberName (i : ExpressionId) :
    Tracks f id (checkMemberName i) (checkMemberName i) := by
  refine .bind (Tracks.node i) fun ⟨span, constant, type, kind⟩ => ?_
  cases kind with
  | identifier => exact .pure _
  | unary | binary | integer | real | boolean | call => exact Tracks.report _ _

theorem tracks_checkCallStatement (i : StatementId) :
    Tracks f id (checkCallStatement i) (checkCallStatement i) := by
  refine .bind (Tracks.node i) fun ⟨span, kind⟩ => ?_
  cases kind with
  | call callee =>
      refine .bind (Tracks.node callee) fun ⟨calleeSpan, constant, type, kind⟩ => ?_
      cases kind with
      | identifier name target =>
          cases target with
          | none => exact .pure _
          | some x => exact Tracks.report _ _
      | unary | binary | integer | real | boolean | call => exact .pure _
  | assignment | whileLoop | forLoop | branch | returning => exact .pure _

variable {below below' : Visit → NamesM (Option ExpressionId)}
  (hbelow : ∀ v, Tracks f id (below v) (below' v))

include hbelow

theorem tracks_resolveDeclarations (declarations : List Declaration) :
    Tracks f id (resolveDeclarations below declarations) (resolveDeclarations below' declarations) :=
  .bind (.visitEach hbelow _ _) fun _ => .bind (tracks_checkCycles _) fun _ => .visitEach hbelow _ _

theorem tracks_resolveBody (seeds : List VariableId) (i : BodyId) :
    Tracks f id (resolveBody below seeds i) (resolveBody below' seeds i) := by
  refine .bind (Tracks.node i) fun body => .bind (Tracks.note _) fun _ =>
    .bind (tracks_declareScope seeds _) fun scope => ?_
  cases scope with
  | none => exact Tracks.note _
  | some scope =>
      refine .seq (.inContext (.seq (tracks_resolveDeclarations hbelow _) fun _ => ?_) scope)
        fun _ => Tracks.note _
      exact .visitEach hbelow _ _

/-- One layer of name resolution does not look at columns. -/
theorem tracks_resolver (v : Visit) : Tracks f id (resolver below v) (resolver below' v) := by
  have h : Likeness f (Recolumned f : WalkState Routines → WalkState Routines → Prop) := likeness_recolumned
  cases v with
  | program =>
      refine .seq (.bind (.arena h) fun a => .bind (Tracks.note _) fun _ =>
        .bind (tracks_declareScope _ _) fun scope => ?_) fun _ => .pure _
      cases scope with
      | none => exact .pure _
      | some scope => exact .inContext (tracks_resolveDeclarations hbelow _) scope
  | routine i =>
      refine .seq (.bind (Tracks.node i) fun routine => ?_) fun _ => .pure _
      exact .bind (.visitEach hbelow _ _) fun _ => .bind (.visitOptional hbelow _ _) fun _ =>
        tracks_resolveBody hbelow _ _
  | body i => exact .bind (tracks_resolveBody hbelow _ _) fun _ => .pure _
  | statement i =>
      refine .seq (.bind (Tracks.node i) fun ⟨span, kind⟩ => ?_) fun _ => .pure _
      cases kind with
      | forLoop =>
          exact .bind (.walkStatementExpressions hbelow h _) fun _ => tracks_resolveBody hbelow _ _
      | call =>
          exact .bind (.walkStatementExpressions hbelow h _) fun _ => tracks_checkCallStatement _
      | assignment | whileLoop | branch | returning => exact .walkStatement hbelow h i
  | type i =>
      refine .seq (.bind (Tracks.node i) fun ⟨span, kind⟩ => ?_) fun _ => .pure _
      cases kind with
      | named name target => exact tracks_resolveTypeName _ _
      | record fields => exact .bind (tracks_checkFields _) fun _ => .walkType hbelow h i
      | integer | real | boolean | array => exact .walkType hbelow h i
  | expression i =>
      refine .bind (Tracks.node i) fun ⟨span, constant, type, kind⟩ => ?_
      cases kind with
      | identifier name target => exact tracks_resolveIdentifier _ _
      | call name target arguments =>
          exact .bind (.walkExpression hbelow h i) fun _ => .bind (tracks_resolveCall _ _) fun _ => .pure _
      | binary operator left right =>
          cases operator with
          | member =>
              exact .bind (.visitOperand hbelow h _ _ _) fun _ =>
                .bind (tracks_checkMemberName _) fun _ => .pure _
          | or | xor | and | equal | notEqual | less | lessEqual | greater | greaterEqual | add
          | subtract | multiply | divide | modulo | index =>
              exact .bind (.walkExpression hbelow h i) fun _ => .pure _
      | unary | integer | real | boolean => exact .bind (.walkExpression hbelow h i) fun _ => .pure _
  | declaration | «variable» | typeDecl => exact .walkThrough hbelow h _

end

/-- **Name resolution does not look at columns.** -/
theorem tracks_nameResolution : nameResolution.Tracks :=
  tracks_ofVisitor (fun _ _ _ hbelow v => tracks_resolver hbelow v) _ _ _

/-! ### The other passes -/

theorem tracks_checkArgument (argument : ExpressionId) (parameter : VariableId) (number : Nat) :
    Tracks f id (checkArgument argument parameter number : CallsM σ Unit)
      (checkArgument argument parameter number) := by
  refine .bind (.typeQuietly likeness_recolumned argument) fun _ =>
    .bind (Tracks.node argument) fun ⟨_, _, type, _⟩ =>
    .bind (Tracks.node parameter) fun ⟨_, _, declaredType, _⟩ => ?_
  cases type with
  | none => exact .pure _
  | some received =>
      cases declaredType with
      | none => exact .pure _
      | some expected =>
          refine .bind (Tracks.inspect fun a => a.sameType_mapColumns f _ _) fun same => ?_
          cases same with
          | true => exact .pure _
          | false =>
              exact .bind (Tracks.inspect fun a => a.typeName_mapColumns f _) fun _ =>
                .bind (Tracks.inspect fun a => a.typeName_mapColumns f _) fun _ =>
                .bind (Tracks.node argument) fun _ => Tracks.report _ _

theorem tracks_checkCall (i : ExpressionId) :
    Tracks f id (checkCall checkArgument i : CallsM σ Unit) (checkCall checkArgument i) := by
  refine .bind (Tracks.node i) fun ⟨span, constant, type, kind⟩ => ?_
  cases kind with
  | call name target arguments =>
      cases target with
      | none => exact Tracks.report _ _
      | some r =>
          refine .bind (Tracks.node r) fun routine => .seq ?_ fun _ => Tracks.update i fun _ => rfl
          dsimp only [Node.mapColumns_routine]
          unfold checkArguments
          split
          · exact .forM fun p => tracks_checkArgument _ _ _
          · exact Tracks.report _ _
  | unary | binary | integer | real | boolean | identifier => exact .pure _

theorem tracks_callVisitor {below below' : Visit → CallsM σ (Option ExpressionId)}
    (hbelow : ∀ v, Tracks f id (below v) (below' v)) (v : Visit) :
    Tracks f id (callVisitor checkArgument below v) (callVisitor checkArgument below' v) := by
  have h : Likeness f (Recolumned f : WalkState σ → WalkState σ → Prop) := likeness_recolumned
  cases v with
  | «variable» i =>
      refine .bind (.walkVariable hbelow h i) fun _ => .bind (Tracks.node i) fun x => ?_
      obtain ⟨span, name, declaredType, initializer⟩ := x
      cases initializer with
      | none => exact .pure _
      | some e => exact .bind (.typeQuietly h e) fun _ => .pure _
  | expression i =>
      exact .bind (.walkExpression hbelow h i) fun _ => .bind (tracks_checkCall i) fun _ => .pure _
  | program | declaration | routine | typeDecl | type | body | statement =>
      exact .walkThrough hbelow h _

theorem tracks_lengthVisitor {below below' : Visit → WalkM Bool Unit (Option ExpressionId)}
    (hbelow : ∀ v, Tracks f id (below v) (below' v)) (v : Visit) :
    Tracks f id (lengthVisitor below v) (lengthVisitor below' v) := by
  have h : Likeness f (Recolumned f : WalkState Unit → WalkState Unit → Prop) := likeness_recolumned
  cases v with
  | routine i =>
      refine .bind (Tracks.node i) fun routine => .bind (.inContext (.visitEach hbelow _ _) true)
        fun _ => ?_
      exact .bind (.visitOptional hbelow _ _) fun _ => .bind (.visitOnly hbelow _) fun _ => .pure _
  | type i =>
      have hwalk : Tracks f id (do
          inContext false (walkType below i)
          return none : WalkM Bool Unit (Option ExpressionId)) (do
          inContext false (walkType below' i)
          return none) :=
        .bind (.inContext (.walkType hbelow h i) false) fun _ => .pure _
      refine .bind (Tracks.node i) fun ⟨span, kind⟩ => ?_
      cases kind with
      | array length element =>
          cases length with
          | none =>
              refine .bind .read fun omissible => ?_
              cases omissible with
              | true => exact hwalk
              | false => exact .bind (Tracks.report _ _) fun _ => hwalk
          | some e => exact hwalk
      | named | integer | real | boolean | record => exact hwalk
  | program | declaration | «variable» | typeDecl | body | statement | expression =>
      exact .walkThrough hbelow h _

section

variable {below below' : Visit → WalkM Unit Unit (Option ExpressionId)}
  (hbelow : ∀ v, Tracks f id (below v) (below' v))

include hbelow

theorem tracks_constantVisitor (v : Visit) :
    Tracks f id (constantVisitor below v) (constantVisitor below' v) := by
  have h : Likeness f (Recolumned f : WalkState Unit → WalkState Unit → Prop) := likeness_recolumned
  cases v with
  | expression i =>
      refine .bind (.walkExpression hbelow h i) fun _ => .seq ?_ fun _ => .pure _
      exact .bind (Tracks.inspect fun a => a.isConstant_mapColumns f i) fun _ =>
        Tracks.update i fun _ => rfl
  | type i =>
      refine .bind (.walkType hbelow h i) fun _ => .seq (.bind (Tracks.node i) fun ⟨span, kind⟩ => ?_)
        fun _ => .pure _
      cases kind with
      | array length element =>
          cases length with
          | none => exact .pure _
          | some e =>
              refine .bind (Tracks.node e) fun ⟨span, constant, type, kind⟩ => ?_
              cases constant with
              | true => exact .pure _
              | false => exact Tracks.report _ _
      | named | integer | real | boolean | record => exact .pure _
  | program | declaration | routine | «variable» | typeDecl | body | statement =>
      exact .walkThrough hbelow h _

theorem tracks_returnVisitor (v : Visit) :
    Tracks f id (returnVisitor below v) (returnVisitor below' v) := by
  have h : Likeness f (Recolumned f : WalkState Unit → WalkState Unit → Prop) := likeness_recolumned
  cases v with
  | routine i =>
      refine .seq (.bind (Tracks.node i) fun ⟨span, name, parameters, returnType, body⟩ => ?_)
        fun _ => .pure _
      cases returnType with
      | none => exact .pure _
      | some type =>
          refine .bind (Tracks.inspect fun a => a.bodyReturns_mapColumns f _) fun returns => ?_
          cases returns with
          | true => exact .pure _
          | false => exact Tracks.report _ _
  | «variable» | typeDecl => exact .pure _
  | program | declaration | type | body | statement | expression => exact .walkThrough hbelow h _

end

/-- **No pass behind name resolution looks at columns.** -/
theorem tracks_laterPasses : ∀ pass ∈ laterPasses, pass.Tracks := by
  intro pass hpass
  simp only [laterPasses, List.mem_cons, List.not_mem_nil, or_false] at hpass
  rcases hpass with rfl | rfl | rfl | rfl | rfl
  · exact tracks_ofVisitor (fun _ _ _ hbelow v => tracks_callVisitor hbelow v) _ _ _
  · exact tracks_ofVisitor (fun _ _ _ hbelow v => tracks_lengthVisitor hbelow v) _ _ _
  · exact tracks_ofVisitor (fun _ _ _ hbelow v => tracks_constantVisitor hbelow v) _ _ _
  · exact tracks_ofVisitor
      (fun _ _ _ hbelow v => .typingVisitor likeness_recolumned true hbelow v) _ _ _
  · exact tracks_ofVisitor (fun _ _ _ hbelow v => tracks_returnVisitor hbelow v) _ _ _

/-! ### The analysis -/

theorem runPasses_mapColumns {haltOnError : Bool} {passes : List Pass}
    (hpasses : ∀ pass ∈ passes, pass.Tracks) {found last : Analysis}
    (hrun : runPasses haltOnError passes found = .ok last) :
    runPasses haltOnError passes (found.mapColumns f) = .ok (last.mapColumns f) := by
  induction passes generalizing found with
  | nil =>
      obtain rfl : found = last := Except.ok.inj hrun
      rfl
  | cons pass rest ih =>
      unfold runPasses at hrun ⊢
      cases houtcome : pass.run found.arena with
      | error fault => simp [houtcome, bind, Except.bind] at hrun
      | ok outcome =>
          have htracks : pass.run (found.mapColumns f).arena = .ok (outcome.mapColumns f) :=
            hpasses pass List.mem_cons_self f found.arena outcome houtcome
          have hempty : (outcome.mapColumns f).diagnostics.isEmpty = outcome.diagnostics.isEmpty :=
            List.isEmpty_map
          have hnext : ∀ haltedAt, (⟨outcome.arena, found.diagnostics ++ outcome.diagnostics, haltedAt,
              found.journal ++ outcome.journal⟩ : Analysis).mapColumns f =
              ⟨(outcome.mapColumns f).arena,
                (found.mapColumns f).diagnostics ++ (outcome.mapColumns f).diagnostics, haltedAt,
                (found.mapColumns f).journal ++ (outcome.mapColumns f).journal⟩ := by
            simp [Analysis.mapColumns, PassOutcome.mapColumns]
          simp only [houtcome, htracks, hempty, bind, Except.bind, ← hnext] at hrun ⊢
          split at hrun
          · rename_i hhalt
            obtain rfl := Except.ok.inj hrun
            rw [if_pos hhalt]
            rfl
          · rename_i hhalt
            rw [if_neg hhalt]
            exact ih (fun pass hpass => hpasses pass (List.mem_cons_of_mem _ hpass)) hrun

/-- **The analysis of a parsed tree does not look at columns.** -/
theorem analyze_mapColumns {a : Arena} {haltOnError : Bool} {analysis : Analysis}
    (hrun : analyze a haltOnError = .ok analysis) :
    analyze (a.mapColumns f) haltOnError = .ok (analysis.mapColumns f) := by
  unfold analyze at hrun ⊢
  cases hnames : nameResolution.run a with
  | error fault => simp [hnames, bind, Except.bind] at hrun
  | ok names =>
      have hempty : (names.mapColumns f).diagnostics.isEmpty = names.diagnostics.isEmpty :=
        List.isEmpty_map
      have hfound : (⟨names.arena, [], none, names.journal⟩ : Analysis).mapColumns f =
          ⟨(names.mapColumns f).arena, [], none, (names.mapColumns f).journal⟩ := rfl
      simp only [hnames, tracks_nameResolution f a names hnames, hempty, bind, Except.bind] at hrun ⊢
      split at hrun
      · rename_i hnone
        rw [if_pos hnone, ← hfound]
        exact runPasses_mapColumns tracks_laterPasses hrun
      · rename_i hsome
        obtain rfl := Except.ok.inj hrun
        rw [if_neg hsome]
        rfl

end ProcLang

import ProcLang.Proofs.Account.Circles

/-!
# ProcLang.Proofs.Account.Parts

**How a walk tells its account.** `Told` says what was reported between two states, and where the
links lead that were set. `Facing` is what is known in front of the nodes that are yet to be visited:
besides what is needed to resolve them (`Ready`), that no type is linked into a body that has not been
visited. `Passed` puts both together; parts of a walk that pass one after the other pass together
(`Passed.trans`).

`Recounts` is what the visits below a node do. From it follows what the parts of the default walk do.
-/

namespace ProcLang

open Arena WalkM

variable {a b : Arena} {routines : Routines} {nodes : List Visit} {scopes : List (List Declaration)}

/-! ### Links -/

namespace Arena

/-- A named type is linked to a declaration. -/
def Targets (b : Arena) (t : TypeId) (e : TypeDeclId) : Prop :=
  ∃ node name, b.get? t = some node ∧ node.kind = .named name (some e)

/-- A call is linked to a routine. -/
def Calls (b : Arena) (e : ExpressionId) (name : String) (r : RoutineId) : Prop :=
  ∃ node arguments, b.get? e = some node ∧ node.kind = .call name (some r) arguments

/-- An identifier is linked to a variable. -/
def Identifies (b : Arena) (e : ExpressionId) (x : VariableId) : Prop :=
  ∃ node name, b.get? e = some node ∧ node.kind = .identifier name (some x)

/-- The scopes around an identifier declare a variable of its name. -/
inductive Declares (a : Arena) : ExpressionId → VariableId → Prop
  | intro {scopes : List (List Declaration)} {e : ExpressionId} {node : Expression} {name : String}
      {target : Option VariableId} {x : VariableId} (hbelow : a.Below a.top ⟨scopes, .expression e⟩)
      (hget : a.get? e = some node) (hkind : node.kind = .identifier name target)
      (hname : a.innermost Declaration.variable? name scopes = some x) : Declares a e x

/-- All links of types, calls and identifiers were there before. -/
structure LinksFrom (b c : Arena) : Prop where
  targets : ∀ t e, c.Targets t e → b.Targets t e
  calls : ∀ e name r, c.Calls e name r → b.Calls e name r
  identifies : ∀ e x, c.Identifies e x → b.Identifies e x

/-- Another node leaves a link of a type as it is. -/
theorem Targets.of_put {family : Family} {id : NodeId family} {node : Node family} {t : TypeId}
    {e : TypeDeclId} (h : (b.put id node).Targets t e) (hne : Visit.of t ≠ Visit.of id) :
    b.Targets t e := by
  obtain ⟨found, name, hget, hname⟩ := h
  exact ⟨found, name, (get?_put_of_ne b hne node) ▸ hget, hname⟩

theorem Calls.of_put {family : Family} {id : NodeId family} {node : Node family} {e : ExpressionId}
    {name : String} {r : RoutineId} (h : (b.put id node).Calls e name r)
    (hne : Visit.of e ≠ Visit.of id) : b.Calls e name r := by
  obtain ⟨found, arguments, hget, hkind⟩ := h
  exact ⟨found, arguments, (get?_put_of_ne b hne node) ▸ hget, hkind⟩

theorem Identifies.of_put {family : Family} {id : NodeId family} {node : Node family}
    {e : ExpressionId} {x : VariableId} (h : (b.put id node).Identifies e x)
    (hne : Visit.of e ≠ Visit.of id) : b.Identifies e x := by
  obtain ⟨found, name, hget, hkind⟩ := h
  exact ⟨found, name, (get?_put_of_ne b hne node) ▸ hget, hkind⟩

namespace LinksFrom

theorem refl (b : Arena) : b.LinksFrom b := ⟨fun _ _ h => h, fun _ _ _ h => h, fun _ _ h => h⟩

/-- An expression without a link that its predecessor did not have. -/
theorem put_expression {id : ExpressionId} {old node : Expression} (hget : b.get? id = some old)
    (hkind : ∀ name r arguments, node.kind = .call name (some r) arguments →
      ∃ before, old.kind = .call name (some r) before)
    (hname : ∀ name x, node.kind = .identifier name (some x) → old.kind = node.kind) :
    b.LinksFrom (b.put id node) where
  targets t e h := h.of_put nofun
  identifies e x h := by
    by_cases hsame : Visit.of e = Visit.of id
    · obtain rfl := Visit.of_injective hsame
      obtain ⟨found, name, hfound, hidentifier⟩ := h
      obtain rfl := Option.some.inj ((get?_put_self hget node).symm.trans hfound)
      exact ⟨old, name, hget, (hname name x hidentifier).trans hidentifier⟩
    · exact h.of_put hsame
  calls e name r h := by
    by_cases hsame : Visit.of e = Visit.of id
    · obtain rfl := Visit.of_injective hsame
      obtain ⟨found, arguments, hfound, hcall⟩ := h
      obtain rfl := Option.some.inj ((get?_put_self hget node).symm.trans hfound)
      obtain ⟨before, hbefore⟩ := hkind name r arguments hcall
      exact ⟨old, before, hget, hbefore⟩
    · exact h.of_put hsame

/-- **An expression that is stored in a slot** sets no link. -/
theorem slot {family : Family} {id : NodeId family} {old new : Node family}
    (hget : b.get? id = some old) (hchange : Node.SlotChange family old new) :
    b.LinksFrom (b.put id new) := by
  cases hchange with
  | initializer | expression =>
      exact ⟨fun t e h => h.of_put nofun, fun e name r h => h.of_put nofun,
        fun e x h => h.of_put nofun⟩
  | length node c =>
      refine ⟨fun t e h => ?_, fun e name r h => h.of_put nofun, fun e x h => h.of_put nofun⟩
      by_cases hsame : Visit.of t = Visit.of id
      · obtain rfl := Visit.of_injective hsame
        obtain ⟨found, name, hfound, hname⟩ := h
        obtain rfl := Option.some.inj ((get?_put_self hget _).symm.trans hfound)
        refine ⟨node, name, hget, ?_⟩
        cases hkind : node.kind <;> simp_all [TypeKind.setLength]
      · exact h.of_put hsame
  | operand node index c =>
      exact put_expression hget (fun name r arguments hkind => call_of_setOperand hkind)
        fun name x hkind => (identifier_of_setOperand hkind).trans hkind.symm

end LinksFrom

end Arena

/-! ### What was told -/

/-- Between two states the remarks were reported, types were linked to declarations of the scopes or
to some among `all`, calls to the routines of their names, and identifiers to the variables of
theirs. -/
structure Told (a : Arena) (scopes : List (List Declaration)) (all : List Visit)
    (remarks : List Remark) (s s' : WalkState Routines) : Prop where
  reported : ∃ ds, s'.diagnostics.toList = s.diagnostics.toList ++ ds ∧
    List.Forall₂ a.Reports remarks ds
  linked : ∀ t e, s'.arena.Targets t e →
    s.arena.Targets t e ∨ (∃ scope ∈ scopes, .type e ∈ scope) ∨ .typeDecl e ∈ all
  called : ∀ e name r, s'.arena.Calls e name r →
    s.arena.Calls e name r ∨ a.routineNamed name = some r
  identified : ∀ e x, s'.arena.Identifies e x → s.arena.Identifies e x ∨ a.Declares e x

namespace Told

variable {xs ys : List Visit} {remarks more : List Remark} {s s₁ s' : WalkState Routines}

/-- Something that reports, and sets no links. -/
theorem of_reports {ds : List Diagnostic}
    (hds : s'.diagnostics.toList = s.diagnostics.toList ++ ds)
    (hreports : List.Forall₂ a.Reports remarks ds) (hlinks : s.arena.LinksFrom s'.arena) :
    Told a scopes xs remarks s s' :=
  ⟨⟨ds, hds, hreports⟩, fun t e h => Or.inl (hlinks.targets t e h),
    fun e name r h => Or.inl (hlinks.calls e name r h),
    fun e x h => Or.inl (hlinks.identifies e x h)⟩

/-- Something that neither reports nor sets links. -/
theorem quiet (hreports : s'.diagnostics = s.diagnostics) (hlinks : s.arena.LinksFrom s'.arena) :
    Told a scopes xs [] s s' :=
  of_reports (by rw [hreports, List.append_nil]) .nil hlinks

theorem refl (s : WalkState Routines) : Told a scopes xs [] s s := quiet rfl (.refl _)

/-- There is nothing to say. -/
theorem silent (h : remarks = []) (s : WalkState Routines) : Told a scopes xs remarks s s := by
  subst h
  exact refl s

theorem noted (s : WalkState Routines) (event : Event) : Told a scopes xs [] s (s.noted event) :=
  quiet rfl (.refl _)

/-- One report about a node. -/
theorem single {family : Family} {id : NodeId family} {node : Node family}
    (hget : a.get? id = some node) (cause : Cause) (s : WalkState Routines) :
    Told a scopes xs [⟨Visit.of id, cause⟩] s (s.reported cause (Node.span family node).start) :=
  of_reports Array.toList_push (.cons (.intro hget cause) .nil) (.refl _)

theorem mono (h : Told a scopes xs remarks s s') (hsub : xs ⊆ ys) : Told a scopes ys remarks s s' :=
  ⟨h.reported, fun t e hnow => (h.linked t e hnow).imp_right fun h => h.imp_right fun h => hsub h,
    h.called, h.identified⟩

/-- Where the tree stays what it is, no links are set. -/
theorem mono_nil {scopes' : List (List Declaration)} (h : Told a scopes xs remarks s s')
    (harena : s'.arena = s.arena) : Told a scopes' ys remarks s s' :=
  ⟨h.reported, fun _ _ hnow => Or.inl (harena ▸ hnow), fun _ _ _ hnow => Or.inl (harena ▸ hnow),
    fun _ _ hnow => Or.inl (harena ▸ hnow)⟩

/-- What a scope declares is part of what was visited when it is left. -/
theorem leave {scope : List Declaration} (h : Told a (scope :: scopes) xs remarks s s')
    (hscope : ∀ e, .type e ∈ scope → .typeDecl e ∈ xs) : Told a scopes xs remarks s s' where
  reported := h.reported
  linked t e hnow := by
    rcases h.linked t e hnow with hold | ⟨found, hfound, hmem⟩ | hnew
    · exact Or.inl hold
    · rcases List.mem_cons.1 hfound with rfl | hfound
      · exact Or.inr (Or.inr (hscope e hmem))
      · exact Or.inr (Or.inl ⟨found, hfound, hmem⟩)
    · exact Or.inr (Or.inr hnew)
  called := h.called
  identified := h.identified

theorem trans (h : Told a scopes xs remarks s s₁) (h' : Told a scopes xs more s₁ s') :
    Told a scopes xs (remarks ++ more) s s' where
  reported := by
    obtain ⟨ds, hds, hreports⟩ := h.reported
    obtain ⟨rest, hrest, hreports'⟩ := h'.reported
    exact ⟨ds ++ rest, by rw [hrest, hds, List.append_assoc], List.rel_append hreports hreports'⟩
  linked t e hnow := (h'.linked t e hnow).elim (h.linked t e) Or.inr
  called e name r hnow := (h'.called e name r hnow).elim (h.called e name r) Or.inr
  identified e x hnow := (h'.identified e x hnow).elim (h.identified e x) Or.inr

end Told

/-- Between two states the account of some sites was told. -/
def Recount (a : Arena) (scopes : List (List Declaration)) (sites : List Site) (all : List Visit)
    (s s' : WalkState Routines) : Prop :=
  ∃ remarks, a.Account sites remarks ∧ Told a scopes all remarks s s'

namespace Recount

variable {xs ys : List Visit} {sites others : List Site} {s s₁ s' : WalkState Routines}

theorem quiet (h : Told a scopes xs [] s s') : Recount a scopes [] xs s s' := ⟨[], .nil, h⟩

theorem mono (h : Recount a scopes sites xs s s') (hsub : xs ⊆ ys) :
    Recount a scopes sites ys s s' :=
  h.imp fun _ h => ⟨h.1, h.2.mono hsub⟩

theorem trans (h : Recount a scopes sites xs s s₁) (h' : Recount a scopes others xs s₁ s') :
    Recount a scopes (sites ++ others) xs s s' := by
  obtain ⟨remarks, haccount, htold⟩ := h
  obtain ⟨more, haccount', htold'⟩ := h'
  exact ⟨remarks ++ more, haccount.append haccount', htold.trans htold'⟩

/-- A node with its remarks around those about what is inside. -/
theorem node {site : Site} {s₂ : WalkState Routines} (hopened : site.opened = none)
    (hahead : Told a scopes xs (a.ahead site) s s₁) (h : Recount a scopes (a.inside site) xs s₁ s₂)
    (hbehind : Told a scopes xs (a.behind site) s₂ s') : Recount a scopes [site] xs s s' := by
  obtain ⟨remarks, haccount, htold⟩ := h
  exact ⟨_, .single hopened haccount, (hahead.trans htold).trans hbehind⟩

end Recount

/-! ### What is ahead -/

/-- The nodes `todo` are yet to be visited in some scopes. No type is linked to a declaration in a body
among them, and none of the scopes declares such a type. -/
structure Facing (a : Arena) (routines : Routines) (nodes : List Visit)
    (scopes : List (List Declaration)) (todo : List Visit) (s : WalkState Routines) : Prop where
  ready : Ready a routines todo s
  subset : todo ⊆ nodes
  nodup : todo.Nodup
  distinct : a.DistinctScopes scopes
  closed : ∀ (y : BodyId) ys, Spans a [.body y] ys → ys ⊆ todo → ∀ e,
    (∃ t, s.arena.Targets t e) ∨ (∃ scope ∈ scopes, .type e ∈ scope) → .typeDecl e ∉ ys

namespace Facing

variable {xs ys todo : List Visit} {remarks : List Remark} {s s' : WalkState Routines}

theorem sub (h : Facing a routines nodes scopes ys s) (hsub : xs ⊆ ys) (hnodup : xs.Nodup) :
    Facing a routines nodes scopes xs s where
  ready := h.ready.mono hsub
  subset := List.Subset.trans hsub h.subset
  nodup := hnodup
  distinct := h.distinct
  closed y zs hspans hzs := h.closed y zs hspans (List.Subset.trans hzs hsub)

theorem left (h : Facing a routines nodes scopes (xs ++ ys) s) : Facing a routines nodes scopes xs s :=
  h.sub (List.subset_append_left _ _) (List.nodup_append.1 h.nodup).1

theorem right (h : Facing a routines nodes scopes (xs ++ ys) s) :
    Facing a routines nodes scopes ys s :=
  h.sub (List.subset_append_right _ _) (List.nodup_append.1 h.nodup).2.1

theorem perm (h : Facing a routines nodes scopes xs s) (hperm : xs.Perm ys) :
    Facing a routines nodes scopes ys s :=
  h.sub hperm.symm.subset (hperm.nodup h.nodup)

/-- What is ahead stays ahead when other nodes are visited. -/
theorem after (htree : a.IsTree nodes) (h : Facing a routines nodes scopes todo s)
    (heffect : Effect a xs s s') (htold : Told a scopes xs remarks s s') (hxs : xs ⊆ nodes)
    (hdisjoint : todo.Disjoint xs) : Facing a routines nodes scopes todo s' where
  ready := h.ready.after htree heffect h.subset hxs hdisjoint
  subset := h.subset
  nodup := h.nodup
  distinct := h.distinct
  closed y ys hspans hys e he hmem := by
    rcases he with ⟨t, ht⟩ | hscope
    · rcases htold.linked t e ht with hold | hscope | hnew
      · exact h.closed y ys hspans hys e (Or.inl ⟨t, hold⟩) hmem
      · exact h.closed y ys hspans hys e (Or.inr hscope) hmem
      · exact hdisjoint (hys hmem) hnew
    · exact h.closed y ys hspans hys e (Or.inr hscope) hmem

end Facing

/-! ### What was passed -/

/-- Between two states the sites were visited, and `todo` is ahead. -/
structure Passed (a : Arena) (routines : Routines) (nodes : List Visit)
    (scopes : List (List Declaration)) (sites : List Site) (all todo : List Visit)
    (s s' : WalkState Routines) : Prop where
  recount : Recount a scopes sites all s s'
  effect : Effect a all s s'
  facing : Facing a routines nodes scopes todo s'

namespace Passed

variable {all xs ys todo rest : List Visit} {sites others : List Site}
  {s s₁ s' : WalkState Routines}

theorem mono (h : Passed a routines nodes scopes sites xs todo s s') (hsub : xs ⊆ ys) :
    Passed a routines nodes scopes sites ys todo s s' :=
  ⟨h.recount.mono hsub, h.effect.mono hsub, h.facing⟩

theorem trans (h : Passed a routines nodes scopes sites xs rest s s₁)
    (h' : Passed a routines nodes scopes others xs todo s₁ s') :
    Passed a routines nodes scopes (sites ++ others) xs todo s s' :=
  ⟨h.recount.trans h'.recount, h.effect.trans h'.effect, h'.facing⟩

theorem append (h : Passed a routines nodes scopes sites xs rest s s₁)
    (h' : Passed a routines nodes scopes others ys todo s₁ s') :
    Passed a routines nodes scopes (sites ++ others) (xs ++ ys) todo s s' :=
  (h.mono (List.subset_append_left _ _)).trans (h'.mono (List.subset_append_right _ _))

/-- Something that is not told happens to a node that is not ahead. -/
theorem aside (htree : a.IsTree nodes) (h : Passed a routines nodes scopes sites all todo s s₁)
    (heffect : Effect a xs s₁ s') (htold : Told a scopes xs [] s₁ s') (hxs : xs ⊆ nodes)
    (hdisjoint : todo.Disjoint xs) (hsub : xs ⊆ all) :
    Passed a routines nodes scopes sites all todo s s' := by
  have haside : Passed a routines nodes scopes [] all todo s₁ s' :=
    ⟨.quiet (htold.mono hsub), heffect.mono hsub, h.facing.after htree heffect htold hxs hdisjoint⟩
  simpa using h.trans haside

end Passed

/-! ### Visits -/

/-- Visits of trees for which `n` layers are enough resolve them, and tell their accounts. -/
structure Recounts (a : Arena) (routines : Routines) (nodes : List Visit)
    (below : Visit → NamesM (Option ExpressionId)) (n : Nat) : Prop where
  handles : Handles a routines nodes below n
  recount : ∀ {scopes : List (List Declaration)} {v : Visit} {site : Site}, Entry a scopes v site →
    a.Below a.top site → ∀ {all : List Visit} {s : WalkState Routines} {r : Option ExpressionId}
    {s' : WalkState Routines}, Spans a [site.visit] all → 2 * all.length + v.layers ≤ n →
    Facing a routines nodes scopes all s → Runs (below v) (a.scopeOf scopes) s r s' →
    Recount a scopes [site] all s s'

namespace Recounts

variable {below : Visit → NamesM (Option ExpressionId)} {n : Nat} {xs todo : List Visit}
  {site : Site} {s s' : WalkState Routines}

/-- A site is visited. -/
theorem visit (htree : a.IsTree nodes) (hbelow : Recounts a routines nodes below n) {v : Visit}
    {r : Option ExpressionId} (hentry : Entry a scopes v site) (htop : a.Below a.top site)
    (hspans : Spans a [site.visit] xs) (hlayers : 2 * xs.length + v.layers ≤ n)
    (h : Facing a routines nodes scopes (xs ++ todo) s)
    (hrun : Runs (below v) (a.scopeOf scopes) s r s') :
    Passed a routines nodes scopes [site] xs todo s s' ∧ ∀ e, site.visit = .expression e →
      StandsFor a s'.arena s'.diagnostics.toList scopes e (r.getD e) ∧
      ∀ c, r = some c → a.count .expression ≤ c.index := by
  have hxs := h.left
  obtain ⟨r', s₁, hrun', hvisited, hexpression, -⟩ := hbelow.handles hentry htop h.distinct hspans
    hxs.subset hxs.nodup hlayers hxs.ready
  obtain ⟨rfl, rfl⟩ := hrun'.unique hrun
  obtain ⟨remarks, haccount, htold⟩ := hbelow.recount hentry htop hspans hlayers hxs hrun
  have hdisjoint : todo.Disjoint xs := fun v hv hmem =>
    List.disjoint_of_nodup_append h.nodup hmem hv
  exact ⟨⟨⟨remarks, haccount, htold⟩, hvisited.effect,
    h.right.after htree hvisited.effect htold hxs.subset hdisjoint⟩, hexpression⟩

/-- Nodes are visited one after the other. -/
theorem visitEach (htree : a.IsTree nodes) (hbelow : Recounts a routines nodes below n) {α : Type}
    (visit : α → Visit) (child : α → Site) {items : List α}
    (hentry : ∀ x ∈ items, Entry a scopes (visit x) (child x))
    (htop : ∀ x ∈ items, a.Below a.top (child x))
    (hspans : Spans a (items.map fun x => (child x).visit) xs) (hlayers : 2 * xs.length + 1 ≤ n)
    (h : Facing a routines nodes scopes (xs ++ todo) s)
    (hrun : Runs (ProcLang.visitEach below visit items) (a.scopeOf scopes) s () s') :
    Passed a routines nodes scopes (items.map child) xs todo s s' := by
  induction items generalizing xs s with
  | nil =>
      cases hspans
      obtain rfl := runs_forM_nil.1 hrun
      exact ⟨.quiet (.refl _), .refl a _, h⟩
  | cons x rest ih =>
      obtain ⟨ys, zs, rfl, hys, hzs⟩ := hspans.cons_inv
      have hlength : ys.length + zs.length = (ys ++ zs).length := List.length_append.symm
      have hone : (visit x).layers ≤ 1 := by
        cases visit x <;> simp [Visit.layers]
      rw [List.append_assoc] at h
      obtain ⟨s₁, hfirst, hothers⟩ := runs_forM_cons.1 hrun
      obtain ⟨r, hfirst⟩ := runs_discard.1 hfirst
      obtain ⟨hpassed, -⟩ := hbelow.visit htree (hentry x List.mem_cons_self)
        (htop x List.mem_cons_self) hys (by omega) h hfirst
      exact hpassed.append (ih (fun y hy => hentry y (List.mem_cons_of_mem _ hy))
        (fun y hy => htop y (List.mem_cons_of_mem _ hy)) hzs (by omega) hpassed.facing hothers)

/-- Nodes in the scopes of their owner are visited. -/
theorem visitNodes (htree : a.IsTree nodes) (hbelow : Recounts a routines nodes below n) {α : Type}
    (visit : α → Visit) {items : List α} (hbody : ∀ x id, visit x ≠ .body id)
    (htop : ∀ x ∈ items, a.Below a.top ⟨scopes, visit x⟩) (hspans : Spans a (items.map visit) xs)
    (hlayers : 2 * xs.length + 1 ≤ n) (h : Facing a routines nodes scopes (xs ++ todo) s)
    (hrun : Runs (ProcLang.visitEach below visit items) (a.scopeOf scopes) s () s') :
    Passed a routines nodes scopes (items.map fun x => ⟨scopes, visit x⟩) xs todo s s' :=
  hbelow.visitEach htree visit (fun x => ⟨scopes, visit x⟩)
    (fun x _ => .node ⟨scopes, visit x⟩ (hbody x)) htop hspans hlayers h hrun

/-- A node in the scopes of its owner is visited. -/
theorem visitNode (htree : a.IsTree nodes) (hbelow : Recounts a routines nodes below n) (v : Visit)
    (hbody : ∀ id, v ≠ .body id) (htop : a.Below a.top ⟨scopes, v⟩) (hspans : Spans a [v] xs)
    (hlayers : 2 * xs.length + 1 ≤ n) (h : Facing a routines nodes scopes (xs ++ todo) s)
    (hrun : Runs (visitOnly below v) (a.scopeOf scopes) s () s') :
    Passed a routines nodes scopes [⟨scopes, v⟩] xs todo s s' := by
  have hone : v.layers ≤ 1 := by
    cases v <;> simp [Visit.layers]
  have hlayers' : 2 * xs.length + v.layers ≤ n := by omega
  obtain ⟨r, hrun⟩ := runs_discard.1 hrun
  exact (hbelow.visit htree (.node ⟨scopes, v⟩ hbody) htop hspans hlayers' h hrun).1

/-- An expression is visited, and what takes its place is stored in the slot of its owner. -/
theorem visitSlot (htree : a.IsTree nodes) (hbelow : Recounts a routines nodes below n)
    {family : Family} (id : NodeId family) (howner : a.Below a.top ⟨scopes, Visit.of id⟩)
    (hmem : Visit.of id ∈ nodes) (hself : Visit.of id ∉ xs ++ todo) {node : Node family}
    (hget : s.arena.get? id = some node) {f : ExpressionId → Node family → Node family}
    (hchange : ∀ c : ExpressionId, a.count .expression ≤ c.index →
      Node.Change a family node (f c node))
    (hslot : ∀ c, Node.SlotChange family node (f c node)) {e : ExpressionId}
    (htop : a.Below a.top ⟨scopes, .expression e⟩)
    (hspans : Spans a [.expression e] xs) (hlayers : 2 * xs.length ≤ n)
    (h : Facing a routines nodes scopes (xs ++ todo) s)
    (hrun : Runs (ProcLang.visitSlot below e fun c => update id (f c)) (a.scopeOf scopes) s () s') :
    Passed a routines nodes scopes [⟨scopes, .expression e⟩] (Visit.of id :: xs) todo s s' ∧
      ∃ s₁ e' node', StandsFor a s₁.arena s₁.diagnostics.toList scopes e e' ∧
        (e' = e ∧ node' = node ∧ s' = s₁ ∨
          a.count .expression ≤ e'.index ∧ node' = f e' node ∧ s' = s₁.put id node') ∧
        s'.arena.get? id = some node' := by
  obtain ⟨r, s₁, hvisit, hstore⟩ := runs_bind.1 hrun
  obtain ⟨hpassed, hexpression⟩ := hbelow.visit htree (.node ⟨scopes, .expression e⟩ nofun) htop
    hspans hlayers h hvisit
  obtain ⟨hstands, hfresh⟩ := hexpression e rfl
  have hread : s₁.arena.get? id = some node := hpassed.effect.frame family id node hget
    fun hxs => hself (List.mem_append_left _ hxs)
  have hwider := hpassed.mono (List.subset_cons_self (Visit.of id) xs)
  cases r with
  | none =>
      obtain ⟨-, rfl⟩ := runs_pure.1 hstore
      exact ⟨hwider, s', e, node, hstands, Or.inl ⟨rfl, rfl, rfl⟩, hread⟩
  | some c =>
      obtain ⟨found, hfound, rfl⟩ := runs_update.1 hstore
      obtain rfl := Option.some.inj (hread.symm.trans hfound)
      have hput : Effect a [Visit.of id] s₁ (s₁.put id (f c node)) :=
        .put hread (.single (hchange c (hfresh c rfl))) fun hhidden => hhidden _ howner rfl
      have htold : Told a scopes [Visit.of id] [] s₁ (s₁.put id (f c node)) :=
        .quiet rfl (.slot hread (hslot c))
      refine ⟨hwider.aside htree hput htold (List.cons_subset.2 ⟨hmem, List.nil_subset _⟩)
        (fun v hv hid => ?_) (List.cons_subset.2 ⟨List.mem_cons_self, List.nil_subset _⟩), s₁, c,
        f c node, hstands, Or.inr ⟨hfresh c rfl, rfl, rfl⟩, get?_put_self hread _⟩
      rw [List.mem_singleton.1 hid] at hv
      exact hself (List.mem_append_right _ hv)

/-- The slots of a node are visited one after the other. -/
theorem visitSlots (htree : a.IsTree nodes) (hbelow : Recounts a routines nodes below n)
    {family : Family} (id : NodeId family) (howner : a.Below a.top ⟨scopes, Visit.of id⟩)
    (hmem : Visit.of id ∈ nodes) (hself : Visit.of id ∉ xs ++ todo) {first node : Node family}
    (hget : s.arena.get? id = some node) (hnode : Node.Changes a family first node)
    {f : Nat → ExpressionId → Node family → Node family}
    (hchange : ∀ (m : Node family) (index : Nat) (c : ExpressionId), Node.Changes a family first m →
      index < (Node.slots family first).length → a.count .expression ≤ c.index →
      Node.Change a family m (f index c m))
    (hslot : ∀ m index c, Node.SlotChange family m (f index c m)) {es : List ExpressionId} {index : Nat}
    (hindex : index + es.length ≤ (Node.slots family first).length)
    (htop : ∀ e ∈ es, a.Below a.top ⟨scopes, .expression e⟩)
    (hspans : Spans a (es.map Visit.expression) xs) (hlayers : 2 * xs.length ≤ n)
    (h : Facing a routines nodes scopes (xs ++ todo) s)
    (hrun : Runs ((es.zipIdx index).forM fun (e, index) =>
      ProcLang.visitSlot below e fun c => update id (f index c)) (a.scopeOf scopes) s () s') :
    Passed a routines nodes scopes (es.map fun e => ⟨scopes, .expression e⟩) (Visit.of id :: xs) todo
      s s' := by
  induction es generalizing xs index node s with
  | nil =>
      cases hspans
      obtain rfl := runs_forM_nil.1 hrun
      exact ⟨.quiet (.refl _), (Effect.refl a _).mono (List.nil_subset _), h⟩
  | cons e rest ih =>
      obtain ⟨ys, zs, rfl, hys, hzs⟩ := hspans.cons_inv
      have hlength : ys.length + zs.length = (ys ++ zs).length := List.length_append.symm
      rw [List.length_cons] at hindex
      rw [List.append_assoc] at h hself
      rw [List.zipIdx_cons] at hrun
      obtain ⟨s₁, hfirst, hothers⟩ := runs_forM_cons.1 hrun
      obtain ⟨hpassed, t, e', node', -, hnode', hget'⟩ := hbelow.visitSlot htree id howner hmem hself
        hget (fun c => hchange node index c hnode (by omega)) (fun c => hslot node index c)
        (htop e List.mem_cons_self) hys (by omega) h hfirst
      have hchanges : Node.Changes a family first node' := by
        rcases hnode' with ⟨-, rfl, -⟩ | ⟨hfresh, rfl, -⟩
        · exact hnode
        · exact hnode.tail (hchange node index e' hnode (by omega) hfresh)
      have hrest := ih (fun hmem => hself (List.mem_append_right _ hmem)) hget' hchanges (by omega)
        (fun d hd => htop d (List.mem_cons_of_mem _ hd)) hzs (by omega) hpassed.facing hothers
      refine (hpassed.mono (List.cons_subset_cons _ (List.subset_append_left _ _))).trans
        (hrest.mono (List.cons_subset_cons _ (List.subset_append_right _ _)))

end Recounts

end ProcLang

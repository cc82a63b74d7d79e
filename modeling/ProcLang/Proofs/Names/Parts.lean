import ProcLang.Proofs.Names.Cycles

/-!
# ProcLang.Proofs.Names.Parts

**How the default walk makes progress.** `Handles` is what the visits below a node do: each of them
resolves everything at and below its site, and gives what is to stand in the slot. From it follows
what the parts of the default walk do, which all layers are made of: visiting nodes one after the
other (`Handles.visitEach`), and visiting slots and storing what takes an expression's place
(`Handles.visitSlots`).
-/

namespace ProcLang

open Arena WalkM

/-- What is fixed while names are resolved: the tree, and the routines that are known. -/
structure Setting (a : Arena) (routines : Routines) (nodes : List Visit) : Prop where
  tree : a.IsTree nodes
  lookup : ∀ name, routines.lookup name = a.routineNamed name
  known : ∀ name r, a.routineNamed name = some r → a.Has (.routine r)

/-- The visit by which a site is reached, and the scopes that are open then. The own scope of a
body is opened by its visit. -/
inductive Entry (a : Arena) : List (List Declaration) → Visit → Site → Prop
  | node (site : Site) (h : ∀ id, site.visit ≠ .body id) : Entry a site.scopes site.visit site
  | body (scopes : List (List Declaration)) (id : BodyId) :
      Entry a scopes (.body id) (a.bodySite [] scopes id)
  | declaration (scopes : List (List Declaration)) (d : Declaration) :
      Entry a scopes (.declaration d) ⟨scopes, d.visit⟩

/-- The layers of a visit that leads to no node of its own. -/
def Visit.layers : Visit → Nat
  | .declaration _ => 1
  | _ => 0

/-- Visits of trees for which `n` layers are enough resolve them. -/
def Handles (a : Arena) (routines : Routines) (nodes : List Visit)
    (below : Visit → NamesM (Option ExpressionId)) (n : Nat) : Prop :=
  ∀ {scopes : List (List Declaration)} {v : Visit} {site : Site}, Entry a scopes v site →
    a.Below a.top site → a.DistinctScopes scopes → ∀ {all : List Visit} {s : WalkState Routines},
    Spans a [site.visit] all → all ⊆ nodes → all.Nodup → 2 * all.length + v.layers ≤ n →
    Ready a routines all s →
    ∃ r s', Runs (below v) (a.scopeOf scopes) s r s' ∧ Visited a site all r s s' ∧
      (∀ e, site.visit = .expression e →
        StandsFor a s'.arena s'.diagnostics.toList scopes e (r.getD e) ∧
        ∀ c, r = some c → a.count .expression ≤ c.index) ∧
      ((∀ e, site.visit ≠ .expression e) → r = none)

section

variable {a : Arena} {routines : Routines} {nodes : List Visit}
  {below : Visit → NamesM (Option ExpressionId)} {n : Nat} {site : Site}
  {visited todo xs : List Visit} {roots : List Site} {stood : List (ExpressionId × ExpressionId)}
  {s₀ s : WalkState Routines} {scopes : List (List Declaration)}

theorem Progress.part_subset
    (h : Progress a routines nodes site visited (xs ++ todo) roots stood s₀ s) : xs ⊆ nodes :=
  fun _ hv => h.subset (List.mem_append_right _ (List.mem_append_left _ hv))

theorem Progress.part_nodup
    (h : Progress a routines nodes site visited (xs ++ todo) roots stood s₀ s) : xs.Nodup :=
  (List.nodup_append.1 (List.nodup_append.1 (List.nodup_cons.1 h.nodup).2).2.1).1

theorem Progress.part_ready
    (h : Progress a routines nodes site visited (xs ++ todo) roots stood s₀ s) :
    Ready a routines xs s :=
  h.ready.mono (List.subset_append_left _ _)

/-- The node itself is not among those that are yet to be visited. -/
theorem Progress.self_not_mem
    (h : Progress a routines nodes site visited (xs ++ todo) roots stood s₀ s) :
    site.visit ∉ xs := fun hmem =>
  (List.nodup_cons.1 h.nodup).1 (List.mem_append_right _ (List.mem_append_left _ hmem))

/-- A node that may be missing is a list of nodes. -/
theorem visitOptional_eq {α : Type} (visit : α → Visit) (item : Option α) :
    ProcLang.visitOptional below visit item = ProcLang.visitEach below visit item.toList := by
  cases item with
  | none => rfl
  | some x => exact (bind_pure _).symm

namespace Handles

/-- A node is visited. -/
theorem visitOnly (htree : a.IsTree nodes) (hbelow : Handles a routines nodes below n) {v : Visit}
    {child : Site} (hentry : Entry a scopes v child) (htop : a.Below a.top child)
    (hdistinct : a.DistinctScopes scopes) (hslotless : ∀ e, child.visit ≠ .expression e)
    (hspans : Spans a [child.visit] xs) (hlayers : 2 * xs.length + v.layers ≤ n)
    (h : Progress a routines nodes site visited (xs ++ todo) roots stood s₀ s) :
    ∃ s', Runs (visitOnly below v) (a.scopeOf scopes) s () s' ∧
      Progress a routines nodes site (visited ++ xs) todo (roots ++ [child]) stood s₀ s' ∧
      Effect a xs s s' := by
  obtain ⟨r, s', hrun, hvisited, -, hnone⟩ :=
    hbelow hentry htop hdistinct hspans h.part_subset h.part_nodup hlayers h.part_ready
  obtain rfl := hnone hslotless
  exact ⟨s', runs_discard.2 ⟨none, hrun⟩, h.part htree hspans hvisited, hvisited.effect⟩

/-- **Nodes are visited one after the other.** -/
theorem visitEach (htree : a.IsTree nodes) (hbelow : Handles a routines nodes below n) {α : Type}
    (visit : α → Visit) (child : α → Site) {items : List α}
    (hentry : ∀ x ∈ items, Entry a scopes (visit x) (child x))
    (htop : ∀ x ∈ items, a.Below a.top (child x)) (hdistinct : a.DistinctScopes scopes)
    (hslotless : ∀ x e, (child x).visit ≠ .expression e)
    (hspans : Spans a (items.map fun x => (child x).visit) xs)
    (hlayers : 2 * xs.length + 1 ≤ n)
    (h : Progress a routines nodes site visited (xs ++ todo) roots stood s₀ s) :
    ∃ s', Runs (ProcLang.visitEach below visit items) (a.scopeOf scopes) s () s' ∧
      Progress a routines nodes site (visited ++ xs) todo (roots ++ items.map child) stood s₀ s' ∧
      Effect a xs s s' := by
  induction items generalizing xs visited roots s with
  | nil =>
      cases hspans
      refine ⟨s, runs_forM_nil.2 rfl, ?_, .refl a s⟩
      rwa [List.append_nil, List.map_nil, List.append_nil]
  | cons x rest ih =>
      obtain ⟨ys, zs, rfl, hys, hzs⟩ := hspans.cons_inv
      have hlength : ys.length + zs.length = (ys ++ zs).length := List.length_append.symm
      have hone : (visit x).layers ≤ 1 := by
        cases visit x <;> simp [Visit.layers]
      rw [List.append_assoc] at h
      obtain ⟨s₁, hrun, hprogress, heffect⟩ := hbelow.visitOnly htree (hentry x List.mem_cons_self)
        (htop x List.mem_cons_self) hdistinct (hslotless x) hys (by omega) h
      obtain ⟨s', hruns, hprogress', heffect'⟩ :=
        ih (fun y hy => hentry y (List.mem_cons_of_mem _ hy))
          (fun y hy => htop y (List.mem_cons_of_mem _ hy)) hzs (by omega) hprogress
      refine ⟨s', runs_forM_cons.2 ⟨s₁, hrun, hruns⟩, ?_, heffect.append heffect'⟩
      rwa [List.append_assoc, List.append_assoc] at hprogress'

/-- Nodes in the scopes of their owner are visited. -/
theorem visitNodes (htree : a.IsTree nodes) (hbelow : Handles a routines nodes below n) {α : Type}
    (visit : α → Visit) {items : List α} (hbody : ∀ x id, visit x ≠ .body id)
    (hslotless : ∀ x e, visit x ≠ .expression e)
    (htop : ∀ x ∈ items, a.Below a.top ⟨site.scopes, visit x⟩)
    (hspans : Spans a (items.map visit) xs) (hlayers : 2 * xs.length + 1 ≤ n)
    (h : Progress a routines nodes site visited (xs ++ todo) roots stood s₀ s) :
    ∃ s', Runs (ProcLang.visitEach below visit items) (a.scopeOf site.scopes) s () s' ∧
      Progress a routines nodes site (visited ++ xs) todo
        (roots ++ items.map fun x => ⟨site.scopes, visit x⟩) stood s₀ s' ∧
      Effect a xs s s' :=
  hbelow.visitEach htree visit (fun x => ⟨site.scopes, visit x⟩)
    (fun x _ => .node ⟨site.scopes, visit x⟩ (hbody x)) htop h.distinct hslotless hspans hlayers h

/-- A node in the scopes of its owner is visited. -/
theorem visitNode (htree : a.IsTree nodes) (hbelow : Handles a routines nodes below n)
    (v : Visit) (hbody : ∀ id, v ≠ .body id) (hslotless : ∀ e, v ≠ .expression e)
    (htop : a.Below a.top ⟨site.scopes, v⟩) (hspans : Spans a [v] xs) (hlayers : 2 * xs.length + 1 ≤ n)
    (h : Progress a routines nodes site visited (xs ++ todo) roots stood s₀ s) :
    ∃ s', Runs (ProcLang.visitOnly below v) (a.scopeOf site.scopes) s () s' ∧
      Progress a routines nodes site (visited ++ xs) todo (roots ++ [⟨site.scopes, v⟩]) stood s₀ s' ∧
      Effect a xs s s' := by
  have hone : v.layers ≤ 1 := by
    cases v <;> simp [Visit.layers]
  exact hbelow.visitOnly htree (.node ⟨site.scopes, v⟩ hbody) htop h.distinct hslotless hspans
    (by omega) h

/-- An expression is visited, and what takes its place is stored in the slot of its owner. -/
theorem visitSlot (htree : a.IsTree nodes) (hbelow : Handles a routines nodes below n)
    {family : Family} (id : NodeId family) (hsite : site.visit = Visit.of id)
    (hmem : site.visit ∈ nodes) {node : Node family} (hget : s.arena.get? id = some node)
    {f : ExpressionId → Node family → Node family}
    (hchange : ∀ c : ExpressionId, a.count .expression ≤ c.index →
      Node.Change a family node (f c node))
    {e : ExpressionId} (htop : a.Below a.top ⟨site.scopes, .expression e⟩)
    (hspans : Spans a [.expression e] xs) (hlayers : 2 * xs.length ≤ n)
    (h : Progress a routines nodes site visited (xs ++ todo) roots stood s₀ s) :
    ∃ e' node' s', Runs (ProcLang.visitSlot below e fun c => update id (f c))
        (a.scopeOf site.scopes) s () s' ∧
      Progress a routines nodes site (visited ++ xs) todo (roots ++ [⟨site.scopes, .expression e⟩])
        (stood ++ [(e, e')]) s₀ s' ∧
      s'.arena.get? id = some node' ∧
      (e' = e ∧ node' = node ∨ a.count .expression ≤ e'.index ∧ node' = f e' node) ∧
      ∀ p, a.start? site.visit = some p →
        undeclaredAt s'.diagnostics.toList p = undeclaredAt s.diagnostics.toList p := by
  obtain ⟨r, s₁, hrun, hvisited, hresult, -⟩ := hbelow (.node ⟨site.scopes, .expression e⟩ nofun)
    htop h.distinct hspans h.part_subset h.part_nodup hlayers h.part_ready
  obtain ⟨hstands, hfresh⟩ := hresult e rfl
  have hprogress := h.slot htree hspans hvisited hstands
  have hget₁ : s₁.arena.get? id = some node :=
    hvisited.effect.frame family id node hget (hsite ▸ h.self_not_mem)
  have hquiet : ∀ p, a.start? site.visit = some p →
      undeclaredAt s₁.diagnostics.toList p = undeclaredAt s.diagnostics.toList p :=
    fun p hp => hvisited.effect.undeclaredAt_eq htree h.part_subset hmem h.self_not_mem hp
  cases r with
  | none =>
      refine ⟨e, node, s₁, ?_, hprogress, hget₁, Or.inl ⟨rfl, rfl⟩, hquiet⟩
      exact runs_bind.2 ⟨none, s₁, hrun, runs_pure.2 ⟨rfl, rfl⟩⟩
  | some c =>
      have hput : Effect a [site.visit] s₁ (s₁.put id (f c node)) := by
        rw [hsite]
        exact .put hget₁ (.single (hchange c (hfresh c rfl))) fun hhidden => hhidden site h.top hsite
      refine ⟨c, f c node, s₁.put id (f c node), ?_,
        hprogress.self htree hmem hput (count_put _ _ _ _), get?_put_self hget₁ _,
        Or.inr ⟨hfresh c rfl, rfl⟩, hquiet⟩
      exact runs_bind.2 ⟨some c, s₁, hrun, runs_update.2 ⟨node, hget₁, rfl⟩⟩

/-- **The slots of a node are visited one after the other.** What a store keeps of the node, `P`,
is kept. -/
theorem visitSlots (htree : a.IsTree nodes) (hbelow : Handles a routines nodes below n)
    {family : Family} (id : NodeId family) (hsite : site.visit = Visit.of id)
    (hmem : site.visit ∈ nodes) (P : Node family → Prop)
    {f : Nat → ExpressionId → Node family → Node family}
    (hstep : ∀ node index (c : ExpressionId), P node →
      index < (Node.slots family node).length → a.count .expression ≤ c.index →
      Node.Change a family node (f index c node) ∧ P (f index c node) ∧
        Node.slots family (f index c node) = (Node.slots family node).set index c)
    {es : List ExpressionId} {node : Node family} (hget : s.arena.get? id = some node)
    (hP : P node) (hslots : Node.slots family node = stood.map (·.2) ++ es)
    (htop : ∀ e ∈ es, a.Below a.top ⟨site.scopes, .expression e⟩)
    (hspans : Spans a (es.map Visit.expression) xs) (hlayers : 2 * xs.length ≤ n)
    (h : Progress a routines nodes site visited (xs ++ todo) roots stood s₀ s) :
    ∃ stood' node' s', Runs ((es.zipIdx stood.length).forM fun (e, index) =>
        ProcLang.visitSlot below e fun c => update id (f index c)) (a.scopeOf site.scopes) s () s' ∧
      Progress a routines nodes site (visited ++ xs) todo
        (roots ++ es.map fun e => ⟨site.scopes, .expression e⟩) (stood ++ stood') s₀ s' ∧
      stood'.map (·.1) = es ∧ s'.arena.get? id = some node' ∧ P node' ∧
      Node.slots family node' = (stood ++ stood').map (·.2) ∧
      ∀ p, a.start? site.visit = some p →
        undeclaredAt s'.diagnostics.toList p = undeclaredAt s.diagnostics.toList p := by
  induction es generalizing xs visited roots stood node s with
  | nil =>
      cases hspans
      refine ⟨[], node, s, runs_forM_nil.2 rfl, ?_, rfl, hget, hP, ?_, fun _ _ => rfl⟩
      · rwa [List.append_nil, List.map_nil, List.append_nil, List.append_nil]
      · rw [hslots, List.append_nil, List.append_nil]
  | cons e rest ih =>
      obtain ⟨ys, zs, rfl, hys, hzs⟩ := hspans.cons_inv
      have hlength : ys.length + zs.length = (ys ++ zs).length := List.length_append.symm
      have hindex : stood.length < (Node.slots family node).length := by
        rw [hslots, List.length_append, List.length_map, List.length_cons]
        omega
      rw [List.append_assoc] at h
      obtain ⟨e', node₁, s₁, hrun, hprogress, hget₁, hnode₁, hquiet⟩ := hbelow.visitSlot htree id hsite hmem
        hget (fun c hfresh => (hstep node stood.length c hP hindex hfresh).1)
        (htop e List.mem_cons_self) hys (by omega) h
      have hnext : P node₁ ∧ Node.slots family node₁ = (stood ++ [(e, e')]).map (·.2) ++ rest := by
        rcases hnode₁ with ⟨rfl, rfl⟩ | ⟨hfresh, rfl⟩
        · exact ⟨hP, by rw [hslots]; simp⟩
        · obtain ⟨-, hP₁, hset⟩ := hstep node stood.length e' hP hindex hfresh
          refine ⟨hP₁, ?_⟩
          rw [hset, hslots, List.set_append_right _ _ (by simp)]
          simp
      obtain ⟨stood', node', s', hruns, hprogress', hfst, hget', hP', hslots', hquiet'⟩ :=
        ih hget₁ hnext.1 hnext.2 (fun d hd => htop d (List.mem_cons_of_mem _ hd)) hzs
          (by omega) hprogress
      refine ⟨(e, e') :: stood', node', s', ?_, ?_, by rw [List.map_cons, hfst], hget', hP', ?_,
        fun p hp => (hquiet' p hp).trans (hquiet p hp)⟩
      · rw [List.zipIdx_cons]
        rw [List.length_append, List.length_singleton] at hruns
        exact runs_forM_cons.2 ⟨s₁, hrun, hruns⟩
      · rw [List.append_assoc, List.append_assoc, List.append_assoc] at hprogress'
        exact hprogress'
      · rw [hslots', List.append_assoc]
        rfl

end Handles

/-! ### The beginning and the end of a layer -/

/-- What is known when a node is visited: its tree has not been visited, and `n` layers are enough
for the trees below it. -/
structure Arrival (a : Arena) (routines : Routines) (nodes : List Visit) (n : Nat) (site : Site)
    (all : List Visit) (s : WalkState Routines) : Prop where
  top : a.Below a.top site
  spans : Spans a [site.visit] all
  subset : all ⊆ nodes
  nodup : all.Nodup
  layers : 2 * all.length ≤ n + 1
  ready : Ready a routines all s
  distinct : a.DistinctScopes site.scopes

/-- The node is read as it was parsed, and nothing below it has been visited. -/
theorem Arrival.begin {all : List Visit} {family : Family} (id : NodeId family)
    (h : Arrival a routines nodes n site all s) (hsite : site.visit = Visit.of id) :
    ∃ node rest, a.get? id = some node ∧ s.arena.get? id = some node ∧
      Spans a (Node.children family node) rest ∧ all = site.visit :: rest ∧
      2 * rest.length + 1 ≤ n ∧ site.visit ∈ nodes ∧
      (∀ child ∈ a.insideNode site.scopes family node, a.Below a.top child) ∧
      Progress a routines nodes site [] rest [] [] s s := by
  obtain ⟨hhas, rest, hrest, rfl⟩ := h.spans.singleton_inv
  rw [hsite] at hhas hrest
  obtain ⟨node, hget⟩ := hhas.exists_get?
  have hlayers := h.layers
  rw [List.length_cons] at hlayers
  rw [children_of_get? hget] at hrest
  have hread := h.ready.untouched family id (hsite ▸ List.mem_cons_self)
  refine ⟨node, rest, hget, hread.trans hget, hrest, rfl, by omega, h.subset List.mem_cons_self, ?_,
    .start h.ready h.nodup (fun v hv => h.subset (List.mem_cons_of_mem _ hv))
      h.top h.distinct⟩
  intro child hchild
  refine h.top.tail ?_
  obtain ⟨scopes, v⟩ := site
  subst hsite
  rwa [inside_of_get? hget]

/-- The node is still as it was parsed. -/
theorem Arrival.read {all : List Visit} {family : Family} (id : NodeId family)
    (h : Arrival a routines nodes n site all s) (hsite : site.visit = Visit.of id) :
    s.arena.get? id = a.get? id :=
  h.ready.untouched family id (hsite ▸ h.spans.mem_of_root List.mem_cons_self)

/-- Nothing undeclared was reported where the node begins. -/
theorem Arrival.silent {all : List Visit} {p : Position}
    (h : Arrival a routines nodes n site all s) (hstart : a.start? site.visit = some p) :
    undeclaredAt s.diagnostics.toList p = [] :=
  h.ready.silent p (mem_starts.2 ⟨_, h.spans.mem_of_root List.mem_cons_self, hstart⟩)

/-- A node with nothing below it is resolved when it has been looked up itself. -/
theorem Arrival.leaf {all : List Visit} {s' : WalkState Routines} {given : Option ExpressionId}
    (h : Arrival a routines nodes n site all s) (heffect : Effect a [site.visit] s s')
    (hinside : a.inside site = []) (hself : NamesResolved a s'.arena s'.diagnostics.toList site)
    (hchecked : a.Checked site) (hstored : Stores given.toList [] s s') :
    Visited a site all given s s' where
  effect := heffect.mono
    (List.cons_subset.2 ⟨h.spans.mem_of_root List.mem_cons_self, List.nil_subset _⟩)
  settled inner hbelow := by
    cases hbelow with
    | here => exact hself.settled h.distinct
    | inside hchild _ =>
        rw [hinside] at hchild
        nomatch hchild
  checked _ inner hbelow := by
    cases hbelow with
    | here => exact ⟨h.distinct, hchecked⟩
    | inside hchild _ =>
        rw [hinside] at hchild
        nomatch hchild
  stored := hstored.mono (List.Subset.refl _) (List.nil_subset _)

/-- In the end the node has its slots filled. -/
theorem Progress.forall₂ (h : Progress a routines nodes site visited todo roots stood s₀ s) :
    List.Forall₂ (StandsFor a s.arena s.diagnostics.toList site.scopes) (stood.map (·.1))
      (stood.map (·.2)) := by
  have hstands := h.stands
  clear h
  induction stood with
  | nil => exact .nil
  | cons p rest ih =>
      exact .cons (hstands p List.mem_cons_self) (ih fun q hq => hstands q (List.mem_cons_of_mem _ hq))

/-- A node that is no name is resolved when its slots are. -/
theorem Progress.namesResolved {family : Family} (id : NodeId family)
    (h : Progress a routines nodes site visited todo roots stood s₀ s)
    (hsite : site.visit = Visit.of id) {node node' : Node family} (hget : a.get? id = some node)
    (hget' : s.arena.get? id = some node') (hslots : Node.slots family node = stood.map (·.1))
    (hslots' : Node.slots family node' = stood.map (·.2)) (hname : Node.start? family node = none) :
    NamesResolved a s.arena s.diagnostics.toList site where
  slots := by
    rw [hsite, slots_of_get? hget, slots_of_get? hget', hslots, hslots']
    exact h.forall₂
  call e found name target arguments hvisit hfound hkind := by
    have hstart := start?_of_call hfound hkind
    rw [← hvisit, hsite, start?_of_get? hget, hname] at hstart
    nomatch hstart
  type t found name target hvisit hfound hkind := by
    have hstart := start?_of_named hfound hkind
    rw [← hvisit, hsite, start?_of_get? hget, hname] at hstart
    nomatch hstart

/-- When the parts below a node that is no name have been visited, all of it is resolved. -/
theorem Progress.complete {family : Family} (id : NodeId family) {all : List Visit}
    (h : Progress a routines nodes site visited todo roots stood s₀ s)
    (hsite : site.visit = Visit.of id) {node node' : Node family} (hget : a.get? id = some node)
    (hget' : s.arena.get? id = some node') (hslots : Node.slots family node = stood.map (·.1))
    (hslots' : Node.slots family node' = stood.map (·.2)) (hname : Node.start? family node = none)
    (hvisited : visited ⊆ all) (hroots : a.insideNode site.scopes family node ⊆ roots)
    (hchecked : s.diagnostics = #[] → a.Checked site) :
    Visited a site (site.visit :: all) none s₀ s := by
  refine h.finish (List.cons_subset_cons _ hvisited) (fun child hchild => hroots ?_)
    (fun c hc => ?_) (h.namesResolved id hsite hget hget' hslots hslots' hname) hchecked
  · obtain ⟨scopes, v⟩ := site
    subst hsite
    rwa [inside_of_get? hget] at hchild
  · rwa [hsite, slots_of_get? hget', hslots']

end

end ProcLang

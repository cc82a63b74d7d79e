import ProcLang.Proofs.Reordered.Sites

/-!
# ProcLang.Proofs.Reordered.Silence

**When name resolution is silent.** Nothing is reported of a tree if and only if there is nothing to say
of each of its sites (`IsTree.silent_iff`). Whether a site is quiet is a matter of its node and of the
scopes around it alone, and neither the walk nor the order of the reports has a part in it. So a program
whose declarations are permuted is silent if the first one is (`IsTree.silent_withDeclarations`).
-/

namespace ProcLang

open Arena

variable {a : Arena} {nodes : List Visit} {declarations : List Declaration} {site : Site}

/-- There is nothing to say of a site: the scopes around it have distinct names, what its scope declares
leads in no circle, and its node is right. -/
structure Arena.Quiet (a : Arena) (site : Site) : Prop where
  distinct : a.DistinctScopes site.scopes
  checked : a.Checked site
  ahead : a.ahead site = []
  behind : a.behind site = []

/-! ### Scopes -/

/-- What a site opens is the innermost scope; of its node nothing is said but what is said of this
scope. -/
theorem Site.of_opened {declared : List Declaration} (h : site.opened = some declared) :
    declared = site.scopes.headD [] ∧ a.ahead site = [] ∧ a.behind site = [] ∧
      (a.Checked site → a.CircleFree site.scopes) := by
  obtain ⟨scopes, v⟩ := site
  cases v with
  | program => exact ⟨(Option.some.inj h).symm, rfl, rfl, id⟩
  | body id =>
      refine ⟨(Option.some.inj h).symm, ?_, ?_, fun hchecked => hchecked⟩
      · cases hget : a.get? id <;> simp [ahead, ofNode, hget, aheadNode]
      · cases hget : a.get? id <;> simp [behind, ofNode, hget, behindNode]
  | declaration | routine | «variable» | typeDecl | type | statement | expression => cases h

/-- The first members of circles are on circles. -/
theorem CircleHeads.circle {α : Type} {leads : α → α → Prop} {seen xs heads : List α}
    (h : CircleHeads leads seen xs heads) : ∀ x ∈ heads, Relation.TransGen leads x x := by
  induction h with
  | nil => nofun
  | head hcircle _ _ ih => exact List.forall_mem_cons.2 ⟨hcircle, ih⟩
  | pass _ _ ih => exact ih

/-- Of distinct names none is repeated. -/
theorem Arena.IsTree.not_repeated (htree : a.IsTree nodes) (hbelow : a.Below a.top site)
    (hdistinct : a.DistinctScopes site.scopes) : a.repeated (site.scopes.headD []) = [] := by
  have hhas := htree.has_of_scope hbelow
  cases hscopes : site.scopes with
  | nil => rfl
  | cons scope outer =>
      rw [hscopes] at hhas hdistinct
      exact (repeated_eq_nil_iff (hhas scope List.mem_cons_self)).2 (hdistinct scope List.mem_cons_self)

/-! ### Accounts that say nothing -/

/-- What is right below a site declares a type, or does not. -/
theorem mem_filter_declaresType {child : Site} (hchild : child ∈ a.inside site) :
    child ∈ (a.inside site).filter Site.declaresType ∨
      child ∈ (a.inside site).filter fun child => !child.declaresType := by
  cases htype : child.declaresType with
  | true => exact Or.inl (List.mem_filter.2 ⟨hchild, htype⟩)
  | false => exact Or.inr (List.mem_filter.2 ⟨hchild, by rw [htype]; rfl⟩)

/-- **If nothing is said at and below some sites**, nothing is said of any node there. -/
theorem Arena.Account.silent {sites : List Site} {remarks : List Remark} (h : a.Account sites remarks)
    (hnone : remarks = []) :
    ∀ site ∈ sites, ∀ inner, a.Below site inner → a.ahead inner = [] ∧ a.behind inner = [] := by
  induction h with
  | nil => nofun
  | node _ _ _ ihInside ihBeside =>
      simp only [List.append_eq_nil_iff] at hnone
      obtain ⟨⟨⟨hahead, hinside⟩, hbehind⟩, hbeside⟩ := hnone
      refine List.forall_mem_cons.2 ⟨fun inner hbelow => ?_, ihBeside hbeside⟩
      cases hbelow with
      | here => exact ⟨hahead, hbehind⟩
      | inside hchild hbelow => exact ihInside hinside _ hchild inner hbelow
  | scope hopened _ _ _ _ _ ihTypes ihOthers ihBeside =>
      simp only [List.append_eq_nil_iff] at hnone
      obtain ⟨⟨⟨htypes, -⟩, hothers⟩, hbeside⟩ := hnone
      refine List.forall_mem_cons.2 ⟨fun inner hbelow => ?_, ihBeside hbeside⟩
      cases hbelow with
      | here =>
          obtain ⟨-, hahead, hbehind, -⟩ := Site.of_opened hopened
          exact ⟨hahead, hbehind⟩
      | inside hchild hbelow =>
          rcases mem_filter_declaresType hchild with hchild | hchild
          · exact ihTypes htypes _ hchild inner hbelow
          · exact ihOthers hothers _ hchild inner hbelow
  | «repeated» _ hrepeated => exact absurd (List.append_eq_nil_iff.1 hnone).1 hrepeated

/-- **If there is nothing to say of any site**, the account is empty. -/
theorem Arena.IsTree.account_eq_nil (htree : a.IsTree nodes)
    (hquiet : ∀ site, a.Below a.top site → a.Quiet site) {sites : List Site} {remarks : List Remark}
    (h : a.Account sites remarks) (hsites : ∀ site ∈ sites, a.Below a.top site) : remarks = [] := by
  have hinside : ∀ {site child}, a.Below a.top site → child ∈ a.inside site → a.Below a.top child :=
    fun hbelow hchild => hbelow.tail hchild
  induction h with
  | nil => rfl
  | node _ _ _ ihInside ihBeside =>
      obtain ⟨hsite, hbeside⟩ := List.forall_mem_cons.1 hsites
      rw [(hquiet _ hsite).ahead, (hquiet _ hsite).behind, ihBeside hbeside,
        ihInside fun child hchild => hinside hsite hchild]
      rfl
  | @scope site _ declared heads _ _ _ hopened _ _ hheads _ _ ihTypes ihOthers ihBeside =>
      obtain ⟨hsite, hbeside⟩ := List.forall_mem_cons.1 hsites
      obtain ⟨rfl, -, -, hfree⟩ := Site.of_opened hopened
      -- the first member of a circle would be on it
      have hnone : heads = [] := by
        refine List.eq_nil_iff_forall_not_mem.2 fun d hd => ?_
        exact hfree (hquiet _ hsite).checked d (mem_filterMap_type?.1 (hheads.subset hd))
          (hheads.circle d hd)
      rw [hnone, ihBeside hbeside,
        ihTypes fun child hchild => hinside hsite (List.mem_of_mem_filter hchild),
        ihOthers fun child hchild => hinside hsite (List.mem_of_mem_filter hchild)]
      rfl
  | «repeated» hopened hrepeated _ _ =>
      obtain ⟨hsite, -⟩ := List.forall_mem_cons.1 hsites
      obtain ⟨rfl, -⟩ := Site.of_opened (a := a) hopened
      exact absurd (htree.not_repeated hsite (hquiet _ hsite).distinct) hrepeated

/-- **Name resolution is silent** if and only if there is nothing to say of any site. -/
theorem Arena.IsTree.silent_iff (htree : a.IsTree nodes) {outcome : PassOutcome}
    (hrun : nameResolution.run a = .ok outcome) :
    outcome.diagnostics = [] ↔ ∀ site, a.Below a.top site → a.Quiet site := by
  obtain ⟨remarks, haccount, hreports⟩ := htree.exists_account hrun
  constructor
  · intro hsilent site hbelow
    rw [hsilent, List.forall₂_nil_right_iff] at hreports
    obtain ⟨hdistinct, hchecked⟩ := (htree.settles hrun).checked hsilent site hbelow
    obtain ⟨hahead, hbehind⟩ := haccount.silent hreports a.top List.mem_cons_self site hbelow
    exact ⟨hdistinct, hchecked, hahead, hbehind⟩
  · intro hquiet
    have hnone := htree.account_eq_nil hquiet haccount (List.forall_mem_singleton.2 (.here _))
    rwa [hnone, List.forall₂_nil_left_iff] at hreports

/-! ### In another order -/

section

variable (hperm : declarations.Perm a.program.declarations)
  (hnodup : (a.program.declarations.map a.nameOf).Nodup) {inner : List (List Declaration)} {v : Visit}

include hperm hnodup

theorem checked_withDeclarations (h : a.Checked ⟨inner ++ [a.program.declarations], v⟩) :
    (a.withDeclarations declarations).Checked ⟨inner ++ [declarations], v⟩ := by
  cases v with
  | program => exact CircleFree.withDeclarations hperm hnodup h
  | body id => exact CircleFree.withDeclarations hperm hnodup h
  | expression id =>
      intro node left field hget hkind
      rw [get?_withDeclarations] at hget
      obtain ⟨e, name, target, hfield, hname⟩ := h node left field hget hkind
      exact ⟨e, name, target, (get?_withDeclarations field).trans hfield, hname⟩
  | declaration | routine | «variable» | typeDecl | type | statement => trivial

theorem ahead_withDeclarations :
    (a.withDeclarations declarations).ahead ⟨inner ++ [declarations], v⟩ =
      a.ahead ⟨inner ++ [a.program.declarations], v⟩ := by
  have hnode : (a.withDeclarations declarations).aheadNode ⟨inner ++ [declarations], v⟩ =
      a.aheadNode ⟨inner ++ [a.program.declarations], v⟩ := by
    funext family node
    cases family with
    | type =>
        rw [aheadNode, aheadNode]
        cases node.kind with
        | named name target =>
            dsimp only
            rw [innermost_withDeclarations hperm hnodup]
        | integer | real | boolean | array | record => rfl
    | expression =>
        rw [aheadNode, aheadNode]
        cases node.kind with
        | identifier name target =>
            dsimp only
            rw [innermost_withDeclarations hperm hnodup, routineNamed_withDeclarations hperm hnodup]
        | unary | binary | integer | real | boolean | call => rfl
    | routine | «variable» | typeDecl | body | statement => rfl
  rw [ahead, ahead, hnode]
  cases v <;> rfl

theorem isVariable_withDeclarations (e : ExpressionId) :
    (a.withDeclarations declarations).isVariable (inner ++ [declarations]) e =
      a.isVariable (inner ++ [a.program.declarations]) e := by
  rw [isVariable, isVariable, get?_withDeclarations]
  split
  · rw [innermost_withDeclarations hperm hnodup]
  · rfl

theorem behind_withDeclarations :
    (a.withDeclarations declarations).behind ⟨inner ++ [declarations], v⟩ =
      a.behind ⟨inner ++ [a.program.declarations], v⟩ := by
  have hnode : (a.withDeclarations declarations).behindNode ⟨inner ++ [declarations], v⟩ =
      a.behindNode ⟨inner ++ [a.program.declarations], v⟩ := by
    funext family node
    cases family with
    | statement =>
        rw [behindNode, behindNode]
        cases node.kind with
        | call callee =>
            dsimp only
            rw [isVariable_withDeclarations hperm hnodup]
        | assignment | whileLoop | forLoop | branch | returning => rfl
    | expression =>
        rw [behindNode, behindNode]
        cases node.kind with
        | call name target arguments =>
            dsimp only
            rw [routineNamed_withDeclarations hperm hnodup]
        | binary operator left right => cases operator <;> rfl
        | unary | integer | real | boolean | identifier => rfl
    | routine | «variable» | typeDecl | type | body => rfl
  rw [behind, behind, hnode]
  cases v <;> rfl

omit hnodup in
/-- **There is as little to say of a site** in the other order. -/
theorem Arena.Quiet.withDeclarations (h : a.Quiet ⟨inner ++ [a.program.declarations], v⟩) :
    (a.withDeclarations declarations).Quiet ⟨inner ++ [declarations], v⟩ := by
  have hnodup := h.distinct _ (List.mem_append_right _ List.mem_cons_self)
  exact ⟨distinctScopes_withDeclarations hperm h.distinct, checked_withDeclarations hperm hnodup h.checked,
    (ahead_withDeclarations hperm hnodup).trans h.ahead,
    (behind_withDeclarations hperm hnodup).trans h.behind⟩

omit hnodup in
/-- **A permuted program is silent** if the first one is. -/
theorem Arena.IsTree.silent_withDeclarations (htree : a.IsTree nodes) {first second : PassOutcome}
    (hfirst : nameResolution.run a = .ok first)
    (hsecond : nameResolution.run (a.withDeclarations declarations) = .ok second)
    (hsilent : first.diagnostics = []) : second.diagnostics = [] := by
  obtain ⟨others, htree', -⟩ := htree.withDeclarations hperm
  have hquiet := (htree.silent_iff hfirst).1 hsilent
  refine (htree'.silent_iff hsecond).2 fun site hbelow => ?_
  -- the site is one of the first program, with the permuted declarations around it
  obtain ⟨scopes, v⟩ := site
  obtain ⟨inner, hscopes, hbelow'⟩ := htree'.below_withDeclarations hperm.symm hbelow
  dsimp only at hscopes
  subst hscopes
  exact (hquiet _ hbelow').withDeclarations hperm

end

end ProcLang

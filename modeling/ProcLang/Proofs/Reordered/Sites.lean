import ProcLang.Proofs.Again.Leads

/-!
# ProcLang.Proofs.Reordered.Sites

**The declarations of a program in another order.** A program whose declarations are permuted owns the
same nodes (`IsTree.withDeclarations`). Its sites are those of the first program with the permuted
declarations as the outermost scope (`IsTree.below_withDeclarations`). If the declarations have distinct names,
it does not matter in a lookup where in its scope a declaration stands (`innermost_withDeclarations`).
So names stand for the same declarations, and the same names become calls (`CallAt.withDeclarations`).

Every statement can be read backwards, since the first order is a permutation of the second one.
-/

namespace ProcLang

open Arena

variable {a : Arena} {nodes : List Visit} {declarations : List Declaration}

/-- The arena with other declarations of the program. -/
def Arena.withDeclarations (a : Arena) (declarations : List Declaration) : Arena :=
  { a with program := { a.program with declarations } }

/-! ### The same nodes -/

namespace Arena

theorem get?_withDeclarations {family : Family} (id : NodeId family) :
    (a.withDeclarations declarations).get? id = a.get? id :=
  a.get?_program _ id

theorem extendedBy_withDeclarations (declarations : List Declaration) :
    a.ExtendedBy (a.withDeclarations declarations) :=
  a.extendedBy_program _

theorem has_withDeclarations {v : Visit} : (a.withDeclarations declarations).Has v ↔ a.Has v :=
  ⟨fun h => h.extend ((a.withDeclarations declarations).extendedBy_withDeclarations _),
    fun h => h.extend (a.extendedBy_withDeclarations _)⟩

theorem children_withDeclarations {v : Visit} (hv : v ≠ .program) :
    (a.withDeclarations declarations).children v = a.children v := by
  cases v with
  | program => exact absurd rfl hv
  | declaration | routine | «variable» | typeDecl | type | body | statement | expression => rfl

theorem nameOf_withDeclarations (declarations : List Declaration) :
    (a.withDeclarations declarations).nameOf = a.nameOf := rfl

theorem insideNode_withDeclarations (scopes : List (List Declaration)) (family : Family)
    (node : Node family) :
    (a.withDeclarations declarations).insideNode scopes family node = a.insideNode scopes family node := by
  cases family <;> rfl

/-- **A permuted program** has the same nodes. -/
theorem IsTree.withDeclarations (htree : a.IsTree nodes)
    (hperm : declarations.Perm a.program.declarations) :
    ∃ others, (a.withDeclarations declarations).IsTree others ∧ nodes.Perm others := by
  obtain ⟨others, hspans, hnodes⟩ := htree.spans.perm (hperm.symm.map Declaration.visit)
  have hext := a.extendedBy_withDeclarations declarations
  have hstarts : (a.starts nodes).Perm (a.starts others) := hnodes.filterMap a.start?
  refine ⟨others, ⟨?_, hnodes.nodup htree.nodup, fun family id node hget => ?_, fun v hv => ?_,
    htree.shared.trans hext, ?_, fun family id child node hget => ?_, fun id node x hget hx => ?_⟩, hnodes⟩
  · exact hspans.congr (fun _ hhas => hhas.extend hext) fun v hhas => hext.children_eq hhas
  · rw [get?_withDeclarations] at hget
    exact (htree.covers family id node hget).imp_right fun h => ⟨hnodes.subset h.1, h.2⟩
  · exact htree.fresh v (hnodes.symm.subset hv)
  · rw [hext.starts_eq fun v hv => hspans.has_of_mem hv]
    exact hstarts.nodup htree.starts
  · rw [get?_withDeclarations] at hget
    exact htree.descends family id child node hget
  · rw [get?_withDeclarations] at hget
    exact (htree.counted id node x hget hx).extend hext

end Arena

/-! ### Sites -/

/-- What is right below a node in some scopes is right below it in others, with the other outermost
scope around it. -/
theorem exists_of_mem_insideNode {inner : List (List Declaration)} {scope : List Declaration}
    {family : Family} {node : Node family} {child : Site}
    (hchild : child ∈ a.insideNode (inner ++ [scope]) family node) (other : List Declaration) :
    ∃ inner', child.scopes = inner' ++ [scope] ∧
      ⟨inner' ++ [other], child.visit⟩ ∈ a.insideNode (inner ++ [other]) family node := by
  have hsame : ∀ {vs : List Visit}, child ∈ vs.map (Site.mk (inner ++ [scope])) →
      child.scopes = inner ++ [scope] ∧
        ⟨inner ++ [other], child.visit⟩ ∈ vs.map (Site.mk (inner ++ [other])) := by
    intro vs hmem
    obtain ⟨v, hv, rfl⟩ := List.mem_map.1 hmem
    exact ⟨rfl, List.mem_map_of_mem hv⟩
  cases family with
  | routine =>
      rcases List.mem_append.1 hchild with hchild | hchild
      · obtain ⟨hscopes, hmem⟩ := hsame hchild
        exact ⟨inner, hscopes, List.mem_append_left _ hmem⟩
      · rw [List.mem_singleton.1 hchild]
        exact ⟨_ :: inner, rfl, List.mem_append_right _ List.mem_cons_self⟩
  | statement =>
      rcases List.mem_append.1 hchild with hchild | hchild
      · obtain ⟨hscopes, hmem⟩ := hsame hchild
        exact ⟨inner, hscopes, List.mem_append_left _ hmem⟩
      · obtain ⟨body, hbody, rfl⟩ := List.mem_map.1 hchild
        exact ⟨_ :: inner, rfl, List.mem_append_right _ (List.mem_map_of_mem hbody)⟩
  | «variable» | typeDecl | type | body | expression => exact ⟨inner, hsame hchild⟩

/-- **The sites of a permuted program** have its declarations as the outermost scope. -/
theorem Arena.IsTree.below_withDeclarations (htree : a.IsTree nodes)
    (hperm : declarations.Perm a.program.declarations) {site : Site} (h : a.Below a.top site) :
    ∃ inner, site.scopes = inner ++ [a.program.declarations] ∧
      (a.withDeclarations declarations).Below (a.withDeclarations declarations).top
        ⟨inner ++ [declarations], site.visit⟩ := by
  refine h.induct_tail (P := fun site => ∃ inner, site.scopes = inner ++ [a.program.declarations] ∧
    (a.withDeclarations declarations).Below (a.withDeclarations declarations).top
      ⟨inner ++ [declarations], site.visit⟩) ⟨[], rfl, .here _⟩ ?_
  rintro ⟨scopes, v⟩ child houter hchild ⟨inner, hscopes, hbelow⟩
  obtain rfl : scopes = inner ++ [a.program.declarations] := hscopes
  -- only the site of the program depends on the order
  rcases htree.site_mem houter with hprogram | hmem
  · cases hprogram
    obtain ⟨w, hw, rfl⟩ := List.mem_map.1 hchild
    obtain ⟨d, hd, rfl⟩ := List.mem_map.1 hw
    refine ⟨inner, rfl, hbelow.tail ?_⟩
    exact List.mem_map_of_mem (List.mem_map_of_mem (hperm.symm.subset hd))
  · obtain ⟨family, id, rfl⟩ := (htree.spans.has_of_mem hmem).exists_of
    obtain ⟨node, hget, hchild⟩ := exists_of_mem_inside id hchild
    obtain ⟨inner', hinner', hmem'⟩ := exists_of_mem_insideNode hchild declarations
    refine ⟨inner', hinner', hbelow.tail ?_⟩
    rw [inside_of_get? ((get?_withDeclarations id).trans hget), insideNode_withDeclarations]
    exact hmem'

/-- A node without a site has none in the other order. -/
theorem Arena.IsTree.hidden_withDeclarations (htree : a.IsTree nodes)
    (hperm : declarations.Perm a.program.declarations) {v : Visit} (h : a.Hidden v) :
    (a.withDeclarations declarations).Hidden v := by
  obtain ⟨others, htree', -⟩ := htree.withDeclarations hperm
  intro site hbelow hvisit
  obtain ⟨inner, -, hbelow'⟩ := htree'.below_withDeclarations hperm.symm hbelow
  exact h _ hbelow' hvisit

/-! ### Lookups -/

/-- Where the keys are distinct, what is found under a key does not depend on the order. -/
theorem findSome?_perm {α β κ : Type} [DecidableEq κ] {key : α → κ} {xs ys : List α}
    (hperm : xs.Perm ys) (hnodup : (xs.map key).Nodup) (select : α → Option β) (k : κ) :
    (xs.findSome? fun x => if key x = k then select x else none) =
      ys.findSome? fun x => if key x = k then select x else none := by
  induction hperm with
  | nil => rfl
  | cons x _ ih =>
      rw [List.findSome?_cons, List.findSome?_cons, ih (List.nodup_cons.1 hnodup).2]
  | swap x y rest =>
      have hne : key y ≠ key x := fun heq =>
        (List.nodup_cons.1 hnodup).1 (heq ▸ List.mem_cons_self)
      -- at most one of the two is found
      by_cases hy : key y = k
      · have hx : key x ≠ k := fun hx => hne (hy.trans hx.symm)
        simp [List.findSome?_cons, hx, hy]
      · simp [List.findSome?_cons, hy]
  | trans hfirst _ ih ih' => rw [ih hnodup, ih' ((hfirst.map key).nodup hnodup)]

section

variable (hperm : declarations.Perm a.program.declarations) {inner : List (List Declaration)}

include hperm

/-- The innermost scope declares the same. -/
theorem headD_withDeclarations :
    ((inner ++ [declarations]).headD []).Perm ((inner ++ [a.program.declarations]).headD []) := by
  cases inner with
  | nil => exact hperm
  | cons => exact .refl _

theorem distinctScopes_withDeclarations (h : a.DistinctScopes (inner ++ [a.program.declarations])) :
    (a.withDeclarations declarations).DistinctScopes (inner ++ [declarations]) := by
  intro scope hscope
  rcases List.mem_append.1 hscope with hscope | hscope
  · exact h scope (List.mem_append_left _ hscope)
  · rw [List.mem_singleton.1 hscope]
    exact (hperm.symm.map a.nameOf).nodup (h _ (List.mem_append_right _ List.mem_cons_self))

variable (hnodup : (a.program.declarations.map a.nameOf).Nodup)

include hnodup

/-- **A name stands for the same** in both orders. -/
theorem innermost_withDeclarations {α : Type} (select : Declaration → Option α) (name : String) :
    (a.withDeclarations declarations).innermost select name (inner ++ [declarations]) =
      a.innermost select name (inner ++ [a.program.declarations]) := by
  rw [innermost, innermost, nameOf_withDeclarations, List.findSome?_append, List.findSome?_append,
    List.findSome?_singleton, List.findSome?_singleton, findSome?_perm hperm.symm hnodup]

theorem routineNamed_withDeclarations (name : String) :
    (a.withDeclarations declarations).routineNamed name = a.routineNamed name := by
  have hnone := @innermost_withDeclarations a declarations hperm [] hnodup
  exact hnone Declaration.routine? name

/-! ### Circles -/

theorem Arena.Names.withDeclarations {t : TypeId} {e : TypeDeclId}
    (h : a.Names (inner ++ [a.program.declarations]) t e) :
    (a.withDeclarations declarations).Names (inner ++ [declarations]) t e := by
  induction h with
  | named hget hkind hname =>
      refine .named ((get?_withDeclarations _).trans hget) hkind ?_
      rw [innermost_withDeclarations hperm hnodup, hname]
  | element hget hkind _ ih => exact .element ((get?_withDeclarations _).trans hget) hkind ih

theorem Arena.LeadsInside.withDeclarations {d e : TypeDeclId}
    (h : a.LeadsInside (inner ++ [a.program.declarations]) d e) :
    (a.withDeclarations declarations).LeadsInside (inner ++ [declarations]) d e := by
  obtain ⟨hmem, node, hget, hnames⟩ := h
  exact ⟨(headD_withDeclarations hperm).symm.subset hmem, node, (get?_withDeclarations d).trans hget,
    hnames.withDeclarations hperm hnodup⟩

/-- **There are circles in both orders** or in none. -/
theorem Arena.CircleFree.withDeclarations (h : a.CircleFree (inner ++ [a.program.declarations])) :
    (a.withDeclarations declarations).CircleFree (inner ++ [declarations]) := by
  intro d hd hcircle
  -- back in the first order
  have hback : ∀ e f, (a.withDeclarations declarations).LeadsInside (inner ++ [declarations]) e f →
      a.LeadsInside (inner ++ [a.program.declarations]) e f := fun e f =>
    @LeadsInside.withDeclarations (a.withDeclarations declarations) a.program.declarations hperm.symm
      inner ((hperm.symm.map a.nameOf).nodup hnodup) e f
  exact h d ((headD_withDeclarations hperm).subset hd) (Relation.TransGen.mono hback _ _ hcircle)

end

/-! ### Calls -/

/-- **The same names become calls.** -/
theorem Arena.CallAt.withDeclarations {e : ExpressionId} {name : String} {r : RoutineId}
    (h : a.CallAt e name r) (htree : a.IsTree nodes)
    (hperm : declarations.Perm a.program.declarations) :
    (a.withDeclarations declarations).CallAt e name r := by
  obtain ⟨hbelow, hdistinct, hget, hkind, hvariable, hroutine⟩ := h
  obtain ⟨inner, hscopes, hbelow'⟩ := htree.below_withDeclarations hperm hbelow
  dsimp only at hscopes
  subst hscopes
  have hnodup := hdistinct _ (List.mem_append_right _ List.mem_cons_self)
  refine .intro hbelow' (distinctScopes_withDeclarations hperm hdistinct)
    ((get?_withDeclarations e).trans hget) hkind ?_ ?_
  · rw [innermost_withDeclarations hperm hnodup, hvariable]
  · rw [routineNamed_withDeclarations hperm hnodup, hroutine]

end ProcLang

import ProcLang.Proofs.Account.Tour
import ProcLang.Proofs.Again.Leads

/-!
# ProcLang.Proofs.Circles.Graph

**The graph of the type declarations.** A declaration points to the one that its type names where it
stands, by itself or through layers of arrays (`PointsTo`). It points to one other at most, and that one
stands in the same scope or further out (`Names.declared`). So a circle lies in one scope as a whole
(`IsTree.declared_of_circle`), and what is reported of a scope are the circles of this graph that lie in
it, each at the declaration of it that comes first (`CircleHeads.mem_iff_headsCircle`).
-/

namespace ProcLang

open Arena

variable {a : Arena} {nodes : List Visit}

/-- The type that a declaration declares names another declaration, where it stands in the program. -/
def Arena.PointsTo (a : Arena) (d e : TypeDeclId) : Prop :=
  ∃ scopes node, a.Below a.top ⟨scopes, .typeDecl d⟩ ∧ a.get? d = some node ∧
    a.Names scopes node.type e

/-- A declaration is the first one, among those of a scope, of a circle of type declarations. -/
structure Arena.HeadsCircle (a : Arena) (declared : List Declaration) (d : TypeDeclId) : Prop where
  circle : Relation.TransGen a.PointsTo d d
  first : ∃ earlier later, declared = earlier ++ .type d :: later ∧
    ∀ e, .type e ∈ earlier → ¬ Relation.TransGen a.PointsTo d e

/-! ### Single steps -/

/-- A type names one declaration at most. -/
theorem Arena.Names.unique {scopes : List (List Declaration)} {id : TypeId} {d e : TypeDeclId}
    (h : a.Names scopes id d) (h' : a.Names scopes id e) : d = e := by
  induction h with
  | named hget hkind hname =>
      cases h' with
      | named hget' hkind' hname' =>
          obtain rfl := Option.some.inj (hget.symm.trans hget')
          cases hkind.symm.trans hkind'
          exact Option.some.inj (hname.symm.trans hname')
      | element hget' hkind' =>
          obtain rfl := Option.some.inj (hget.symm.trans hget')
          cases hkind.symm.trans hkind'
  | element hget hkind _ ih =>
      cases h' with
      | named hget' hkind' =>
          obtain rfl := Option.some.inj (hget.symm.trans hget')
          cases hkind.symm.trans hkind'
      | element hget' hkind' h' =>
          obtain rfl := Option.some.inj (hget.symm.trans hget')
          cases hkind.symm.trans hkind'
          exact ih h'

theorem Arena.LeadsInside.unique {scopes : List (List Declaration)} {d e f : TypeDeclId}
    (h : a.LeadsInside scopes d e) (h' : a.LeadsInside scopes d f) : e = f := by
  obtain ⟨-, node, hget, hnames⟩ := h
  obtain ⟨-, node', hget', hnames'⟩ := h'
  obtain rfl := Option.some.inj (hget.symm.trans hget')
  exact hnames.unique hnames'

/-- **A declaration points no further in**: what it points to stands in one of the scopes around it. -/
theorem Arena.Names.declared {scopes : List (List Declaration)} {id : TypeId} {d e : TypeDeclId}
    (h : a.Names scopes id e) (hbelow : a.Below a.top ⟨scopes, .typeDecl d⟩) :
    ∃ outer, outer <:+ scopes ∧ .type e ∈ outer.headD [] ∧ a.Below a.top ⟨outer, .typeDecl e⟩ := by
  obtain ⟨scope, hscope, he⟩ := h.exists_scope
  obtain ⟨outer, houter, rfl⟩ := exists_suffix_of_mem hscope
  exact ⟨outer, houter, he, hbelow.declared houter he⟩

section

variable (htree : a.IsTree nodes)

include htree

/-- A declaration points to one other at most. -/
theorem Arena.IsTree.pointsTo_unique {d e f : TypeDeclId} (h : a.PointsTo d e) (h' : a.PointsTo d f) :
    e = f := by
  obtain ⟨scopes, node, hbelow, hget, hnames⟩ := h
  obtain ⟨scopes', node', hbelow', hget', hnames'⟩ := h'
  obtain rfl := htree.scopes_unique hbelow hbelow'
  obtain rfl := Option.some.inj (hget.symm.trans hget')
  exact hnames.unique hnames'

/-- A declaration of a scope that points somewhere in this scope. -/
theorem Arena.IsTree.leadsInside_iff {scopes : List (List Declaration)} {d e : TypeDeclId}
    (hd : a.Below a.top ⟨scopes, .typeDecl d⟩) :
    a.LeadsInside scopes d e ↔ a.PointsTo d e ∧ .type e ∈ scopes.headD [] := by
  constructor
  · rintro ⟨he, node, hget, hnames⟩
    exact ⟨⟨scopes, node, hd, hget, hnames⟩, he⟩
  · rintro ⟨⟨scopes', node, hd', hget, hnames⟩, he⟩
    obtain rfl := htree.scopes_unique hd hd'
    exact ⟨he, node, hget, hnames⟩

/-! ### Chains -/

/-- What can be reached from a declaration stands in its scope, and all that is passed on the way does;
or it stands further out. -/
theorem Arena.IsTree.stays_or_leaves {scopes : List (List Declaration)} {d e : TypeDeclId}
    (hd : a.Below a.top ⟨scopes, .typeDecl d⟩) (h : Relation.TransGen a.PointsTo d e) :
    ∃ outer, outer <:+ scopes ∧ a.Below a.top ⟨outer, .typeDecl e⟩ ∧
      (outer = scopes → .type e ∈ scopes.headD [] ∧
        Relation.TransGen (a.LeadsInside scopes) d e) := by
  induction h with
  | single hleads =>
      have hstep := hleads
      obtain ⟨scopes', node, hd', -, hnames⟩ := hleads
      obtain rfl := htree.scopes_unique hd hd'
      obtain ⟨outer, houter, hdeclared, he⟩ := hnames.declared hd
      refine ⟨outer, houter, he, ?_⟩
      rintro rfl
      exact ⟨hdeclared, .single ((htree.leadsInside_iff hd).2 ⟨hstep, hdeclared⟩)⟩
  | @tail e f _ hleads ih =>
      obtain ⟨between, hbetween, he, hpassed⟩ := ih
      have hstep := hleads
      obtain ⟨scopes', node, he', -, hnames⟩ := hleads
      obtain rfl := htree.scopes_unique he he'
      obtain ⟨outer, houter, hdeclared, hf⟩ := hnames.declared he
      refine ⟨outer, houter.trans hbetween, hf, ?_⟩
      rintro rfl
      -- what lies between is no further out than the end of the chain
      obtain rfl := hbetween.eq_of_length_le houter.length_le
      obtain ⟨-, hpath⟩ := hpassed rfl
      exact ⟨hdeclared, hpath.tail ((htree.leadsInside_iff he).2 ⟨hstep, hdeclared⟩)⟩

/-- **A chain between two declarations of a scope** does not leave it. -/
theorem Arena.IsTree.transGen_pointsTo_iff {scopes : List (List Declaration)} {d e : TypeDeclId}
    (hd : a.Below a.top ⟨scopes, .typeDecl d⟩) (he : a.Below a.top ⟨scopes, .typeDecl e⟩) :
    Relation.TransGen a.PointsTo d e ↔ Relation.TransGen (a.LeadsInside scopes) d e := by
  constructor
  · intro h
    obtain ⟨outer, -, he', hpassed⟩ := htree.stays_or_leaves hd h
    exact (hpassed (htree.scopes_unique he' he)).2
  · intro h
    clear he
    induction h with
    | single hleads => exact .single ((htree.leadsInside_iff hd).1 hleads).1
    | @tail e f hpath hleads ih =>
        obtain ⟨f', -, hlast⟩ := Relation.TransGen.tail'_iff.1 hpath
        exact ih.tail ((htree.leadsInside_iff (hd.declared (List.suffix_refl _) hlast.1)).1 hleads).1

/-- **A circle lies in one scope as a whole.** -/
theorem Arena.IsTree.declared_of_circle {scopes : List (List Declaration)} {d e : TypeDeclId}
    (hd : a.Below a.top ⟨scopes, .typeDecl d⟩) (h : Relation.TransGen a.PointsTo d e)
    (hback : Relation.TransGen a.PointsTo e d) :
    .type e ∈ scopes.headD [] := by
  obtain ⟨outer, houter, he, hpassed⟩ := htree.stays_or_leaves hd h
  obtain ⟨between, hbetween, hd', -⟩ := htree.stays_or_leaves he hback
  obtain rfl := htree.scopes_unique hd hd'
  exact (hpassed (houter.eq_of_length_le hbetween.length_le)).1

end

/-! ### First members -/

namespace CircleHeads

variable {α : Type} {leads : α → α → Prop} {seen xs heads : List α}

/-- **The first members of circles**: they are on a circle, and nothing in front of them is on it. -/
theorem mem_iff (h : CircleHeads leads seen xs heads) {x : α} :
    x ∈ heads ↔ Relation.TransGen leads x x ∧ ∃ earlier later, xs = earlier ++ x :: later ∧
      ∀ y ∈ seen ++ earlier, ¬ Relation.TransGen leads x y := by
  -- the first member of the list, or one behind it
  have hsplit : ∀ {seen rest : List α} {first : α},
      (∃ earlier later, first :: rest = earlier ++ x :: later ∧
          ∀ y ∈ seen ++ earlier, ¬ Relation.TransGen leads x y) ↔
        (first = x ∧ ∀ y ∈ seen, ¬ Relation.TransGen leads x y) ∨
          ∃ earlier later, rest = earlier ++ x :: later ∧
            ∀ y ∈ (first :: seen) ++ earlier, ¬ Relation.TransGen leads x y := by
    intro seen rest first
    constructor
    · rintro ⟨earlier, later, heq, hnone⟩
      cases earlier with
      | nil =>
          obtain ⟨rfl, -⟩ := List.cons.inj heq
          exact Or.inl ⟨rfl, fun y hy => hnone y (List.mem_append_left _ hy)⟩
      | cons other earlier =>
          obtain ⟨rfl, rfl⟩ := List.cons.inj heq
          refine Or.inr ⟨earlier, later, rfl, fun y hy => hnone y ?_⟩
          simpa [or_left_comm] using hy
    · rintro (⟨rfl, hnone⟩ | ⟨earlier, later, rfl, hnone⟩)
      · exact ⟨[], rest, rfl, (List.append_nil seen).symm ▸ hnone⟩
      · refine ⟨first :: earlier, later, rfl, fun y hy => hnone y ?_⟩
        simpa [or_left_comm] using hy
  induction h with
  | nil => simp
  | @head seen rest heads first hcircle hnew _ ih =>
      rw [List.mem_cons, hsplit]
      constructor
      · rintro (rfl | hx)
        · exact ⟨hcircle, Or.inl ⟨rfl, hnew⟩⟩
        · exact (ih.1 hx).imp_right Or.inr
      · rintro ⟨hx, ⟨rfl, -⟩ | hlater⟩
        · exact Or.inl rfl
        · exact Or.inr (ih.2 ⟨hx, hlater⟩)
  | @pass seen rest heads first hpass _ ih =>
      rw [hsplit]
      refine Iff.trans ih (and_congr_right fun hx => ⟨Or.inr, fun h => h.resolve_left ?_⟩)
      rintro ⟨rfl, hnone⟩
      obtain ⟨y, hy, hxy⟩ := hpass hx
      exact hnone y hy hxy

theorem not_seen (h : CircleHeads leads seen xs heads) {x y : α} (hx : x ∈ heads) (hy : y ∈ seen) :
    ¬ Relation.TransGen leads x y := by
  obtain ⟨-, earlier, later, -, hnone⟩ := h.mem_iff.1 hx
  exact hnone y (List.mem_append_left _ hy)

theorem nodup (h : CircleHeads leads seen xs heads) : heads.Nodup := by
  induction h with
  | nil => exact .nil
  | head hcircle _ hrest ih =>
      exact List.nodup_cons.2 ⟨fun hmem => hrest.not_seen hmem List.mem_cons_self hcircle, ih⟩
  | pass _ _ ih => exact ih

/-- **No circle is left out**: whatever is on one leads to a first member. -/
theorem exists_head (h : CircleHeads leads seen xs heads)
    (hunique : ∀ x y z : α, leads x y → leads x z → y = z) {x : α} (hx : x ∈ xs)
    (hcircle : Relation.TransGen leads x x) :
    ∃ y, (y ∈ seen ∨ y ∈ heads) ∧ Relation.TransGen leads x y := by
  induction h with
  | nil => nomatch hx
  | @head seen rest heads first hfirst _ _ ih =>
      rcases List.mem_cons.1 hx with rfl | hx
      · exact ⟨x, Or.inr List.mem_cons_self, hfirst⟩
      · obtain ⟨y, hy, hxy⟩ := ih hx
        refine ⟨y, ?_, hxy⟩
        simpa [or_left_comm, or_assoc] using hy
  | @pass seen rest heads first hpass _ ih =>
      have hback : Relation.TransGen leads x first → ∃ y ∈ seen, Relation.TransGen leads x y := by
        intro hreach
        obtain ⟨y, hy, hxy⟩ :=
          hpass ((transGen_back hcircle hreach.to_reflTransGen hunique).trans hreach)
        exact ⟨y, hy, hreach.trans hxy⟩
      rcases List.mem_cons.1 hx with rfl | hx
      · obtain ⟨y, hy, hxy⟩ := hback hcircle
        exact ⟨y, Or.inl hy, hxy⟩
      · obtain ⟨y, hy | hy, hxy⟩ := ih hx
        · rcases List.mem_cons.1 hy with rfl | hy
          · obtain ⟨z, hz, hxz⟩ := hback hxy
            exact ⟨z, Or.inl hz, hxz⟩
          · exact ⟨y, Or.inl hy, hxy⟩
        · exact ⟨y, Or.inr hy, hxy⟩

/-- **No circle has two first members.** -/
theorem head_unique (h : CircleHeads leads seen xs heads) {x y : α} (hx : x ∈ heads) (hy : y ∈ heads)
    (hxy : Relation.TransGen leads x y) (hyx : Relation.TransGen leads y x) : x = y := by
  induction h with
  | nil => nomatch hx
  | @head seen rest heads first _ _ hrest ih =>
      rcases List.mem_cons.1 hx with rfl | hxs
      · rcases List.mem_cons.1 hy with rfl | hys
        · rfl
        · exact absurd hyx (hrest.not_seen hys List.mem_cons_self)
      · rcases List.mem_cons.1 hy with rfl | hys
        · exact absurd hxy (hrest.not_seen hxs List.mem_cons_self)
        · exact ih hxs hys
  | pass _ _ ih => exact ih hx hy

end CircleHeads

theorem Arena.HeadsCircle.declared {declared : List Declaration} {d : TypeDeclId}
    (h : a.HeadsCircle declared d) : .type d ∈ declared := by
  obtain ⟨earlier, later, rfl, -⟩ := h.first
  exact List.mem_append_right _ List.mem_cons_self

/-- A type declaration among the declarations of a scope, and its place among the types of the scope. -/
theorem exists_split_type? {declared : List Declaration} {d : TypeDeclId} {P : TypeDeclId → Prop} :
    (∃ earlier later, declared.filterMap Declaration.type? = earlier ++ d :: later ∧
        ∀ e ∈ earlier, P e) ↔
      ∃ earlier later, declared = earlier ++ .type d :: later ∧ ∀ e, .type e ∈ earlier → P e := by
  constructor
  · rintro ⟨earlier, later, heq, hearlier⟩
    obtain ⟨front, rest, rfl, rfl, hrest⟩ := List.filterMap_eq_append_iff.1 heq
    obtain ⟨between, entry, behind, rfl, hbetween, hentry, -⟩ := List.filterMap_eq_cons_iff.1 hrest
    obtain rfl : entry = .type d := by
      cases entry with
      | type e => exact congrArg Declaration.type (Option.some.inj hentry)
      | routine | «variable» => nomatch hentry
    refine ⟨front ++ between, behind, (List.append_assoc ..).symm, fun e he => ?_⟩
    rcases List.mem_append.1 he with he | he
    · exact hearlier e (mem_filterMap_type?.2 he)
    · nomatch hbetween _ he
  · rintro ⟨earlier, later, rfl, hearlier⟩
    exact ⟨earlier.filterMap Declaration.type?, later.filterMap Declaration.type?, by simp [Declaration.type?],
      fun e he => hearlier e (mem_filterMap_type?.1 he)⟩

/-- **The first members of the circles in a scope** are the declarations that head them. -/
theorem CircleHeads.mem_iff_headsCircle (htree : a.IsTree nodes) {site : Site}
    (hbelow : a.Below a.top site) {heads : List TypeDeclId}
    (h : CircleHeads (a.LeadsInside site.scopes) []
      ((site.scopes.headD []).filterMap Declaration.type?) heads) {d : TypeDeclId} :
    d ∈ heads ↔ a.HeadsCircle (site.scopes.headD []) d := by
  have hdeclared : ∀ {e}, .type e ∈ site.scopes.headD [] → a.Below a.top ⟨site.scopes, .typeDecl e⟩ :=
    fun he => hbelow.declared (List.suffix_refl _) he
  have hsame : .type d ∈ site.scopes.headD [] → ∀ {e}, .type e ∈ site.scopes.headD [] →
      (Relation.TransGen a.PointsTo d e ↔ Relation.TransGen (a.LeadsInside site.scopes) d e) :=
    fun hd {e} he => htree.transGen_pointsTo_iff (hdeclared hd) (hdeclared he)
  rw [h.mem_iff]
  simp only [List.nil_append]
  rw [exists_split_type?]
  constructor
  · rintro ⟨hcircle, earlier, later, heq, hnone⟩
    have hd : .type d ∈ site.scopes.headD [] := heq ▸ List.mem_append_right _ List.mem_cons_self
    refine ⟨(hsame hd hd).2 hcircle, earlier, later, heq, fun e he hreach => hnone e he ?_⟩
    exact (hsame hd (heq ▸ List.mem_append_left _ he)).1 hreach
  · rintro ⟨hcircle, earlier, later, heq, hnone⟩
    have hd : .type d ∈ site.scopes.headD [] := heq ▸ List.mem_append_right _ List.mem_cons_self
    refine ⟨(hsame hd hd).1 hcircle, earlier, later, heq, fun e he hreach => hnone e he ?_⟩
    exact (hsame hd (heq ▸ List.mem_append_left _ he)).2 hreach

end ProcLang

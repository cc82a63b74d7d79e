import ProcLang.Proofs.Resolved.Types

/-!
# ProcLang.Proofs.Resolved.Unfolding

**Types of a resolved tree are finite, and comparing them compares what they unfold to**
(`nameResolution_types`). A type unfolds by following names and by stepping from an array to its
elements. An endless unfolding would come through some declaration twice, and that declaration would
lead back to itself.

The bounds of the comparison are never met: the arrays on an unfolding are all different, so there
are no more layers than types, and a name is followed through no more declarations than there are.
-/

namespace ProcLang

open Arena

/-! ### Unfolding -/

/-- The types at which an unfolding ends: primitive types and records. -/
def TypeKind.IsBase : TypeKind → Prop
  | integer | real | boolean | record _ => True
  | named _ _ | array _ _ => False

/-- The primitive types. -/
def TypeKind.IsPrimitive : TypeKind → Prop
  | integer | real | boolean => True
  | named _ _ | array _ _ | record _ => False

namespace Arena

/-- A type unfolds through a number of layers of arrays to a primitive type or a record. Names do
not count as layers. -/
inductive Unfolds (a : Arena) : TypeId → Nat → TypeId → Prop
  | base {id : TypeId} {node : TypeNode} (hget : a.get? id = some node)
      (hkind : node.kind.IsBase) : Unfolds a id 0 id
  | named {id : TypeId} {node : TypeNode} {name : String} {d : TypeDeclId} {declaration : TypeDecl}
      {n : Nat} {x : TypeId} (hget : a.get? id = some node)
      (hkind : node.kind = .named name (some d)) (hd : a.get? d = some declaration)
      (h : Unfolds a declaration.type n x) : Unfolds a id n x
  | array {id : TypeId} {node : TypeNode} {length : Option ExpressionId} {element : TypeId}
      {n : Nat} {x : TypeId} (hget : a.get? id = some node)
      (hkind : node.kind = .array length element) (h : Unfolds a element n x) :
      Unfolds a id (n + 1) x

/-- Two ends of unfoldings are the same primitive type, or one record. -/
inductive SameBase (a : Arena) : TypeId → TypeId → Prop
  | primitive {x y : TypeId} {node node' : TypeNode} (hx : a.get? x = some node)
      (hy : a.get? y = some node') (hprimitive : node.kind.IsPrimitive)
      (hkind : node'.kind = node.kind) : SameBase a x y
  | record {x : TypeId} {node : TypeNode} {fields : List VariableId} (hx : a.get? x = some node)
      (hkind : node.kind = .record fields) : SameBase a x x

variable {a b : Arena} {nodes : List Visit} {id t u x y : TypeId} {m n : Nat}

theorem Unfolds.has (h : a.Unfolds id n x) : a.Has (.type id) := by
  cases h with
  | base hget | named hget | array hget => exact (show a.Has (Visit.of id) from has_of_get? hget)

/-- A type unfolds in one way. -/
theorem Unfolds.unique (h : a.Unfolds id m x) (h' : a.Unfolds id n y) : m = n ∧ x = y := by
  induction h generalizing n y with
  | base hget hbase =>
      cases h' with
      | base => exact ⟨rfl, rfl⟩
      | named hget' hkind' =>
          obtain rfl := Option.some.inj (hget.symm.trans hget')
          rw [hkind'] at hbase
          exact hbase.elim
      | array hget' hkind' =>
          obtain rfl := Option.some.inj (hget.symm.trans hget')
          rw [hkind'] at hbase
          exact hbase.elim
  | named hget hkind hd _ ih =>
      cases h' with
      | base hget' hbase' =>
          obtain rfl := Option.some.inj (hget.symm.trans hget')
          rw [hkind] at hbase'
          exact hbase'.elim
      | named hget' hkind' hd' h' =>
          obtain rfl := Option.some.inj (hget.symm.trans hget')
          cases hkind.symm.trans hkind'
          obtain rfl := Option.some.inj (hd.symm.trans hd')
          exact ih h'
      | array hget' hkind' =>
          obtain rfl := Option.some.inj (hget.symm.trans hget')
          nomatch hkind.symm.trans hkind'
  | array hget hkind _ ih =>
      cases h' with
      | base hget' hbase' =>
          obtain rfl := Option.some.inj (hget.symm.trans hget')
          rw [hkind] at hbase'
          exact hbase'.elim
      | named hget' hkind' =>
          obtain rfl := Option.some.inj (hget.symm.trans hget')
          nomatch hkind.symm.trans hkind'
      | array hget' hkind' h' =>
          obtain rfl := Option.some.inj (hget.symm.trans hget')
          cases hkind.symm.trans hkind'
          obtain ⟨rfl, rfl⟩ := ih h'
          exact ⟨rfl, rfl⟩

/-- **The arrays on an unfolding are different**, since each of them has a number of layers of its
own. -/
theorem Unfolds.exists_layers (h : a.Unfolds id n x) : ∃ ids : List TypeId, ids.length = n ∧
    ids.Nodup ∧ ∀ t ∈ ids, ∃ m, m ≤ n ∧ a.Unfolds t m x := by
  induction h with
  | base => exact ⟨[], rfl, List.nodup_nil, nofun⟩
  | named _ _ _ _ ih => exact ih
  | @array id node length element n x hget hkind h ih =>
      obtain ⟨ids, hlength, hnodup, hids⟩ := ih
      have hself := h.array hget hkind
      refine ⟨id :: ids, by rw [List.length_cons, hlength], List.nodup_cons.2 ⟨fun hmem => ?_, hnodup⟩,
        fun t ht => ?_⟩
      · obtain ⟨m, hm, hagain⟩ := hids id hmem
        have heq := (hself.unique hagain).1
        omega
      · rcases List.mem_cons.1 ht with rfl | ht
        · exact ⟨n + 1, Nat.le_refl _, hself⟩
        · obtain ⟨m, hm, hunfolds⟩ := hids t ht
          exact ⟨m, Nat.le_succ_of_le hm, hunfolds⟩

theorem Unfolds.layers_le (h : a.Unfolds id n x) : n ≤ a.count .type := by
  obtain ⟨ids, rfl, hnodup, hids⟩ := h.exists_layers
  refine length_le_count hnodup fun t ht => ?_
  obtain ⟨m, -, hunfolds⟩ := hids t ht
  exact hunfolds.has

/-- More hops than were needed change nothing. -/
theorem resolveWithin_add {hops : Nat} {r : TypeId} (h : a.resolveWithin hops id = .ok (some r))
    (more : Nat) : a.resolveWithin (hops + more) id = .ok (some r) := by
  induction hops generalizing id with
  | zero => cases h
  | succ hops ih =>
      rw [Nat.add_right_comm, resolveWithin]
      rw [resolveWithin] at h
      cases hget : a.get id with
      | error fault =>
          rw [hget] at h
          cases h
      | ok node =>
          simp only [hget, bind, Except.bind] at h ⊢
          split
          · rename_i hkind
            rw [hkind] at h
            cases h
          · rename_i name d hkind
            simp only [hkind] at h
            cases hd : a.get d with
            | error fault =>
                rw [hd] at h
                cases h
            | ok declaration =>
                rw [hd] at h
                exact ih h
          · rename_i hnone hsome
            split at h
            · rename_i hkind
              exact absurd hkind (hnone _)
            · rename_i hkind
              exact absurd hkind (hsome _ _)
            · exact h

/-- Following names keeps what a type unfolds to. -/
theorem Unfolds.of_resolveWithin {hops : Nat} {r : TypeId} (h : a.Unfolds id n x)
    (hresolve : a.resolveWithin hops id = .ok (some r)) : a.Unfolds r n x := by
  induction hops generalizing id with
  | zero => cases hresolve
  | succ hops ih =>
      rw [resolveWithin] at hresolve
      cases h with
      | base hget hbase =>
          simp only [get_eq_ok.2 hget, bind, Except.bind] at hresolve
          split at hresolve
          · cases hresolve
          · rename_i hkind
            rw [hkind] at hbase
            exact hbase.elim
          · cases hresolve
            exact .base hget hbase
      | named hget hkind hd h =>
          simp only [get_eq_ok.2 hget, get_eq_ok.2 hd, hkind, bind, Except.bind] at hresolve
          exact ih h hresolve
      | array hget hkind h =>
          simp only [get_eq_ok.2 hget, hkind, bind, Except.bind] at hresolve
          cases hresolve
          exact .array hget hkind h

/-! ### Ends of unfoldings -/

theorem Unfolds.exists_base (h : a.Unfolds id n x) : ∃ node, a.get? x = some node ∧
    node.kind.IsBase := by
  induction h with
  | base hget hkind => exact ⟨_, hget, hkind⟩
  | named _ _ _ _ ih => exact ih
  | array _ _ _ ih => exact ih

theorem SameBase.refl {node : TypeNode} (hget : a.get? x = some node) (hbase : node.kind.IsBase) :
    a.SameBase x x := by
  cases hkind : node.kind with
  | integer | real | boolean =>
      refine .primitive hget hget ?_ rfl
      rw [hkind]
      exact trivial
  | record fields => exact .record hget hkind
  | named | array =>
      rw [hkind] at hbase
      exact hbase.elim

/-- Two different ends are compared by their kinds. -/
theorem sameBase_iff {node node' : TypeNode} (hx : a.get? x = some node) (hy : a.get? y = some node')
    (hne : x ≠ y) : a.SameBase x y ↔ node.kind.IsPrimitive ∧ node'.kind = node.kind := by
  constructor
  · intro h
    cases h with
    | primitive hx' hy' hprimitive hkind =>
        obtain rfl := Option.some.inj (hx.symm.trans hx')
        obtain rfl := Option.some.inj (hy.symm.trans hy')
        exact ⟨hprimitive, hkind⟩
    | record => exact absurd rfl hne
  · intro h
    exact .primitive hx hy h.1 h.2

end Arena

/-! ### Types of a resolved tree -/

variable {a b : Arena} {nodes : List Visit}

section

variable (h : a.Resolves b) (htree : a.IsTree nodes)

include h htree

/-- Enough hops unfold a type. The declarations in `path` have been passed, and each of them leads
to whatever the type is linked to. The outer induction is on the declarations that are left, the
inner one on the layers of arrays before the next name. -/
theorem exists_unfolds_within {hops : Nat} {path : List TypeDeclId} {id : TypeId}
    (hhas : b.Has (.type id)) (hnodup : path.Nodup) (hpath : ∀ p ∈ path, b.Has (.typeDecl p))
    (hhops : b.count .typeDecl < hops + path.length)
    (hleads : ∀ p ∈ path, ∀ t, b.LinkedTo id t → Relation.TransGen b.Leads p t) :
    ∃ n x, b.Unfolds id n x := by
  have hclosed := h.closed htree
  induction hops generalizing path id with
  | zero =>
      have hle := b.length_le_count hnodup hpath
      omega
  | succ hops ih =>
      induction hindex : id.index using Nat.strongRecOn generalizing id with
      | ind index inner =>
          obtain ⟨node, hget⟩ := exists_of_has id hhas
          cases hkind : node.kind with
          | named name target =>
              obtain ⟨-, t, -, -, rfl⟩ := h.named_linked htree hget hkind
              obtain ⟨declaration, hdeclaration⟩ := hclosed.target hget hkind
              have hlink : b.LinkedTo id t := .named hget hkind
              have hfresh : t ∉ path := fun hmem =>
                not_leads_self h htree (hleads t hmem t hlink)
              obtain ⟨n, x, hunfolds⟩ := ih (hclosed.declaredBy hdeclaration)
                (List.nodup_cons.2 ⟨hfresh, hnodup⟩)
                (List.forall_mem_cons.2 ⟨has_of_get? hdeclaration, hpath⟩)
                (by rw [List.length_cons]; omega) (by
                  intro p hp t' hlink'
                  have hstep : b.Leads t t' := ⟨declaration, hdeclaration, hlink'⟩
                  rcases List.mem_cons.1 hp with rfl | hp
                  · exact .single hstep
                  · exact (hleads p hp t hlink).tail hstep)
              exact ⟨n, x, .named hget hkind hdeclaration hunfolds⟩
          | array length element =>
              have hlt := (typeLinkValid_of_evolves htree h.evolves hget).array length element hkind
              obtain ⟨n, x, hunfolds⟩ := inner element.index (hindex ▸ hlt) (hclosed.element hget hkind)
                (fun p hp t hlink => hleads p hp t (.element hget hkind hlink)) rfl
              exact ⟨n + 1, x, .array hget hkind hunfolds⟩
          | integer | real | boolean | record =>
              exact ⟨0, id, .base hget (by rw [hkind]; exact trivial)⟩

/-- **Every type unfolds** after finitely many steps. -/
theorem Arena.Resolves.exists_unfolds {id : TypeId} (hhas : b.Has (.type id)) :
    ∃ n x, b.Unfolds id n x :=
  exists_unfolds_within h htree hhas List.nodup_nil nofun (Nat.lt_succ_self _) nofun

/-- The bound on the hops is never what stops the following of names. -/
theorem Arena.Resolves.exists_resolveWithin {id : TypeId} (hhas : b.Has (.type id)) :
    ∃ (r : TypeId) (node : TypeNode), b.get? r = some node ∧ node.kind.Proper ∧
      ∀ hops, b.count .typeDecl < hops → b.resolveWithin hops id = .ok (some r) := by
  obtain ⟨r, node, hresolve, hget, hproper⟩ := h.exists_resolved htree hhas
  refine ⟨r, node, hget, hproper, fun hops hhops => ?_⟩
  obtain ⟨more, rfl⟩ := Nat.exists_eq_add_of_le (Nat.succ_le_of_lt hhops)
  exact resolveWithin_add hresolve more

/-- **Comparing two types** through enough layers tells whether they unfold to the same: a layer of
both is taken off at a time. -/
theorem exists_sameWithin {t u x y : TypeId} {m n layers : Nat} (ht : b.Unfolds t m x)
    (hu : b.Unfolds u n y) (hlayers : min m n < layers) :
    ∃ same, b.sameWithin layers t u = .ok same ∧ (same = true ↔ m = n ∧ b.SameBase x y) := by
  induction layers generalizing t u m n with
  | zero => exact absurd hlayers (Nat.not_lt_zero _)
  | succ layers ih =>
      obtain ⟨l, node, hl, hgetl, hproperl⟩ := h.exists_resolved htree ht.has
      obtain ⟨r, node', hr, hgetr, hproperr⟩ := h.exists_resolved htree hu.has
      have hleft := ht.of_resolveWithin hl
      have hright := hu.of_resolveWithin hr
      rw [sameWithin]
      simp only [hl, hr, bind, Except.bind]
      split
      · rename_i heq
        subst heq
        obtain ⟨rfl, rfl⟩ := hleft.unique hright
        obtain ⟨base, hbase, hkind⟩ := hleft.exists_base
        exact ⟨true, rfl, by simp [SameBase.refl hbase hkind]⟩
      · rename_i hne
        simp only [get_eq_ok.2 hgetl, get_eq_ok.2 hgetr]
        cases hleft with
        | named hget hkind =>
            obtain rfl := Option.some.inj (hgetl.symm.trans hget)
            exact absurd hkind (hproperl _ _)
        | base hget hbase =>
            obtain rfl := Option.some.inj (hgetl.symm.trans hget)
            cases hright with
            | named hget' hkind' =>
                obtain rfl := Option.some.inj (hgetr.symm.trans hget')
                exact absurd hkind' (hproperr _ _)
            | array hget' hkind' =>
                obtain rfl := Option.some.inj (hgetr.symm.trans hget')
                rw [hkind']
                refine ⟨false, ?_, by simp⟩
                cases hkind : node.kind with
                | array =>
                    rw [hkind] at hbase
                    exact hbase.elim
                | _ => rfl
            | base hget' hbase' =>
                obtain rfl := Option.some.inj (hgetr.symm.trans hget')
                rw [sameBase_iff hgetl hgetr hne]
                cases hkind : node.kind <;> cases hkind' : node'.kind <;>
                  simp_all [TypeKind.IsBase, TypeKind.IsPrimitive, pure, Except.pure]
        | array hget hkind hinner =>
            obtain rfl := Option.some.inj (hgetl.symm.trans hget)
            rw [hkind]
            cases hright with
            | named hget' hkind' =>
                obtain rfl := Option.some.inj (hgetr.symm.trans hget')
                exact absurd hkind' (hproperr _ _)
            | base hget' hbase' =>
                obtain rfl := Option.some.inj (hgetr.symm.trans hget')
                refine ⟨false, ?_, by simp⟩
                cases hkind' : node'.kind with
                | array =>
                    rw [hkind'] at hbase'
                    exact hbase'.elim
                | _ => rfl
            | array hget' hkind' hinner' =>
                obtain rfl := Option.some.inj (hgetr.symm.trans hget')
                rw [hkind']
                obtain ⟨same, hsame, hiff⟩ := ih hinner hinner' (by omega)
                exact ⟨same, hsame, hiff.trans (by simp)⟩

end

/-! ### Programs -/

/-- **The types of a program without name errors are finite and comparable.** -/
theorem nameResolution_types (source : String) (hparse : (parse source).errors = [])
    (names : PassOutcome) (hnames : nameResolution.run (parse source).arena = .ok names)
    (hsilent : names.diagnostics = []) (t u : TypeId)
    (ht : names.arena.Reaches .program (.type t)) (hu : names.arena.Reaches .program (.type u)) :
    (∃ r node, names.arena.resolveType t = .ok (some r) ∧ names.arena.get? r = some node ∧
      node.kind.Proper ∧ ∀ hops, names.arena.count .typeDecl < hops →
        names.arena.resolveWithin hops t = names.arena.resolveType t) ∧
    ∃ m x n y same, names.arena.Unfolds t m x ∧ names.arena.Unfolds u n y ∧
      names.arena.sameType t u = .ok same ∧ (same = true ↔ m = n ∧ names.arena.SameBase x y) ∧
      ∀ layers, names.arena.count .type < layers →
        names.arena.sameWithin layers t u = names.arena.sameType t u := by
  obtain ⟨nodes, htree⟩ := Parser.parse_isTree source hparse
  have h := resolves_of_silent htree hnames hsilent
  have hhas : ∀ {id : TypeId}, names.arena.Reaches .program (.type id) →
      names.arena.Has (.type id) := fun hreaches => h.has_of_reaches htree hreaches nofun
  constructor
  · obtain ⟨r, node, hget, hproper, hresolve⟩ := h.exists_resolveWithin htree (hhas ht)
    have hbound := hresolve _ (Nat.lt_succ_self _)
    exact ⟨r, node, hbound, hget, hproper, fun hops hhops => (hresolve hops hhops).trans hbound.symm⟩
  · obtain ⟨m, x, hm⟩ := h.exists_unfolds htree (hhas ht)
    obtain ⟨n, y, hn⟩ := h.exists_unfolds htree (hhas hu)
    have hcompare : ∀ layers, names.arena.count .type < layers → ∃ same,
        names.arena.sameWithin layers t u = .ok same ∧
          (same = true ↔ m = n ∧ names.arena.SameBase x y) := fun layers hlayers =>
      exists_sameWithin h htree hm hn
        (Nat.lt_of_le_of_lt (Nat.min_le_left m n) (Nat.lt_of_le_of_lt hm.layers_le hlayers))
    obtain ⟨same, hsame, hiff⟩ := hcompare _ (Nat.lt_succ_self _)
    refine ⟨m, x, n, y, same, hm, hn, hsame, hiff, fun layers hlayers => ?_⟩
    obtain ⟨other, hother, hiff'⟩ := hcompare layers hlayers
    rw [hother, sameType, hsame, Bool.eq_iff_iff.2 (hiff'.trans hiff.symm)]

/-- An array of an alias for arrays unfolds through its name. -/
theorem nameResolution_types_alias :
    let source := "type t is array [2] integer\nvar x: array [3] t\nvar y: array [1] array [4] integer\n"
    ∃ names, nameResolution.run (parse source).arena = .ok names ∧
      (∃ r node, names.arena.resolveType ⟨6⟩ = .ok (some r) ∧ names.arena.get? r = some node ∧
        node.kind.Proper ∧ ∀ hops, names.arena.count .typeDecl < hops →
          names.arena.resolveWithin hops ⟨6⟩ = names.arena.resolveType ⟨6⟩) ∧
      ∃ m x n y same, names.arena.Unfolds ⟨6⟩ m x ∧ names.arena.Unfolds ⟨9⟩ n y ∧
        names.arena.sameType ⟨6⟩ ⟨9⟩ = .ok same ∧
        (same = true ↔ m = n ∧ names.arena.SameBase x y) ∧
        ∀ layers, names.arena.count .type < layers →
          names.arena.sameWithin layers ⟨6⟩ ⟨9⟩ = names.arena.sameType ⟨6⟩ ⟨9⟩ := by
  intro source
  obtain ⟨hparse, hrun⟩ : (parse source).errors = [] ∧
      (nameResolution.run (parse source).arena).map (fun names => decide (
        names.diagnostics = [] ∧ Visit.variable ⟨0⟩ ∈ names.arena.children .program ∧
        Visit.variable ⟨1⟩ ∈ names.arena.children .program ∧
        Visit.type ⟨6⟩ ∈ names.arena.children (.variable ⟨0⟩) ∧
        Visit.type ⟨9⟩ ∈ names.arena.children (.variable ⟨1⟩))) = .ok true := by
    decide +kernel
  cases hnames : nameResolution.run (parse source).arena with
  | error fault =>
      rw [hnames] at hrun
      nomatch hrun
  | ok names =>
      rw [hnames] at hrun
      obtain ⟨hsilent, hx, hy, ht, hu⟩ := of_decide_eq_true (Except.ok.inj hrun)
      exact ⟨names, rfl, nameResolution_types source hparse names hnames hsilent ⟨6⟩ ⟨9⟩
        (.head hx (.single ht)) (.head hy (.single hu))⟩

end ProcLang

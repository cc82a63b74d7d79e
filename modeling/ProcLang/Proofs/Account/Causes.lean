import ProcLang.Proofs.Account.Tour

/-!
# ProcLang.Proofs.Account.Causes

**The remarks of one kind.** Repeated names are remarked where a scope is opened, and in front of a record
type for its fields (`filter_isRedeclaration_ahead`); circles of types where a scope is opened. So of an
account, the remarks of either kind are those of the sites of a tour, one after the other
(`Account.exists_redeclared`, `Account.exists_heads`).
-/

namespace ProcLang

open Arena

variable {a : Arena} {site : Site}

/-- The cause is a name that was declared before. -/
def Cause.isRedeclaration : Cause → Bool
  | redeclaration _ _ => true
  | _ => false

/-- The cause is a type that is defined by itself. -/
def Cause.isCyclic : Cause → Bool
  | cyclicType _ => true
  | _ => false

/-- The fields of the record type of a site. -/
def Arena.fieldsAt (a : Arena) (site : Site) : Option (List Declaration) :=
  match site.visit with
  | .type id =>
      match (a.get? id).map TypeNode.kind with
      | some (.record fields) => some (fields.map Declaration.variable)
      | _ => none
  | _ => none

/-- The declarations whose names are checked at a site: those of a scope, or the fields of a record. -/
def Arena.checkedAt (a : Arena) (site : Site) : Option (List Declaration) :=
  site.opened <|> a.fieldsAt site

/-! ### Remarks on repeated names -/

theorem isRedeclaration_of_mem_repeatedAfter {entries : List ScopeEntry} {seen : List (String × Nat)}
    {r : Remark} (h : r ∈ repeatedAfter seen entries) : r.cause.isRedeclaration := by
  induction entries generalizing seen with
  | nil => nomatch h
  | cons entry rest ih =>
      rw [repeatedAfter] at h
      split at h
      · rcases List.mem_cons.1 h with rfl | h
        · rfl
        · exact ih h
      · exact ih h

theorem isRedeclaration_of_mem_repeated {declared : List Declaration} {r : Remark}
    (h : r ∈ a.repeated declared) : r.cause.isRedeclaration :=
  isRedeclaration_of_mem_repeatedAfter h

/-- What repeats a name is on no circle for that. -/
theorem Cause.not_isCyclic_of_isRedeclaration {cause : Cause} (h : cause.isRedeclaration) :
    cause.isCyclic = false := by
  cases cause <;> first | rfl | nomatch h

/-! ### What else is remarked of a node -/

/-- Of a node, in front of what is inside, the repeated fields of a record are remarked, or an
undeclared name. -/
theorem ahead_cases (a : Arena) (site : Site) :
    (∃ fields, a.fieldsAt site = some fields ∧ a.ahead site = a.repeated fields) ∨
      a.fieldsAt site = none ∧ ∀ r ∈ a.ahead site, r.cause.isUndeclared := by
  obtain ⟨scopes, v⟩ := site
  cases v with
  | program | declaration => exact Or.inr ⟨rfl, fun _ hr => by cases hr⟩
  | routine id | «variable» id | typeDecl id | body id | statement id =>
      refine Or.inr ⟨rfl, ?_⟩
      cases hget : a.get? id <;> simp [ahead, ofNode, hget, aheadNode]
  | type id =>
      cases hget : a.get? id with
      | none => exact Or.inr ⟨by simp [fieldsAt, hget], by simp [ahead, ofNode, hget]⟩
      | some node =>
          cases hkind : node.kind with
          | named name target =>
              refine Or.inr ⟨by simp [fieldsAt, hget, hkind], fun r hr => ?_⟩
              simp only [ahead, ofNode, hget, Option.elim_some, aheadNode, hkind] at hr
              split at hr
              · cases hr
              · rw [List.mem_singleton.1 hr]
                rfl
          | record fields =>
              refine Or.inl ⟨fields.map Declaration.variable, by simp [fieldsAt, hget, hkind], ?_⟩
              simp [ahead, ofNode, hget, aheadNode, hkind]
          | integer | real | boolean | array =>
              exact Or.inr ⟨by simp [fieldsAt, hget, hkind], by
                simp [ahead, ofNode, hget, aheadNode, hkind]⟩
  | expression id =>
      refine Or.inr ⟨rfl, fun r hr => ?_⟩
      cases hget : a.get? id with
      | none => simp [ahead, ofNode, hget] at hr
      | some node =>
          simp only [ahead, ofNode, hget, Option.elim_some, aheadNode] at hr
          split at hr
          · split at hr
            · rw [List.mem_singleton.1 hr]
              rfl
            · cases hr
          · cases hr

/-- Of a node, behind what is inside, names are remarked that no routine has, and what stands where it
must not. -/
theorem mem_behind_cases {r : Remark} (h : r ∈ a.behind site) :
    r.cause.isRedeclaration = false ∧ r.cause.isCyclic = false := by
  obtain ⟨scopes, v⟩ := site
  cases v with
  | program | declaration => cases h
  | routine id | «variable» id | typeDecl id | type id | body id =>
      cases hget : a.get? id <;> simp [behind, ofNode, hget, behindNode] at h
  | statement id =>
      cases hget : a.get? id with
      | none => simp [behind, ofNode, hget] at h
      | some node =>
          simp only [behind, ofNode, hget, Option.elim_some, behindNode] at h
          split at h
          · split at h
            · rw [List.mem_singleton.1 h]
              exact ⟨rfl, rfl⟩
            · cases h
          · cases h
  | expression id =>
      cases hget : a.get? id with
      | none => simp [behind, ofNode, hget] at h
      | some node =>
          simp only [behind, ofNode, hget, Option.elim_some, behindNode] at h
          split at h
          · split at h
            · cases h
            · rw [List.mem_singleton.1 h]
              exact ⟨rfl, rfl⟩
          · split at h
            · cases h
            · rw [List.mem_singleton.1 h]
              exact ⟨rfl, rfl⟩
          · cases h

theorem Cause.of_isUndeclared {cause : Cause} (h : cause.isUndeclared) :
    cause.isRedeclaration = false ∧ cause.isCyclic = false := by
  cases cause <;> first | exact ⟨rfl, rfl⟩ | nomatch h

/-! ### Remarks of one kind -/

theorem filter_isCyclic_of_isRedeclaration {remarks : List Remark}
    (h : ∀ r ∈ remarks, r.cause.isRedeclaration) :
    remarks.filter (fun r => r.cause.isCyclic) = [] :=
  List.filter_eq_nil_iff.2 fun r hr => by
    simp [Cause.not_isCyclic_of_isRedeclaration (h r hr)]

theorem filter_isCyclic_ahead : (a.ahead site).filter (fun r => r.cause.isCyclic) = [] := by
  rcases ahead_cases a site with ⟨fields, -, hahead⟩ | ⟨-, hundeclared⟩
  · rw [hahead]
    exact filter_isCyclic_of_isRedeclaration fun r hr => isRedeclaration_of_mem_repeated hr
  · exact List.filter_eq_nil_iff.2 fun r hr => by simp [(Cause.of_isUndeclared (hundeclared r hr)).2]

/-- The repeated fields of a record are all that is remarked of its names. -/
theorem filter_isRedeclaration_ahead :
    (a.ahead site).filter (fun r => r.cause.isRedeclaration) = (a.fieldsAt site).elim [] a.repeated := by
  rcases ahead_cases a site with ⟨fields, hfields, hahead⟩ | ⟨hfields, hundeclared⟩
  · rw [hahead, hfields]
    exact List.filter_eq_self.2 fun r hr => isRedeclaration_of_mem_repeated hr
  · rw [hfields]
    exact List.filter_eq_nil_iff.2 fun r hr => by simp [(Cause.of_isUndeclared (hundeclared r hr)).1]

theorem filter_isCyclic_behind : (a.behind site).filter (fun r => r.cause.isCyclic) = [] :=
  List.filter_eq_nil_iff.2 fun r hr => by simp [(mem_behind_cases hr).2]

theorem filter_isRedeclaration_behind :
    (a.behind site).filter (fun r => r.cause.isRedeclaration) = [] :=
  List.filter_eq_nil_iff.2 fun r hr => by simp [(mem_behind_cases hr).1]

/-! ### Accounts and tours -/

/-- The circles that are remarked at a site. -/
inductive Arena.HeadsAt (a : Arena) (site : Site) : List TypeDeclId → Prop
  | scope {declared : List Declaration} {heads : List TypeDeclId}
      (hopened : site.opened = some declared) (hdistinct : a.repeated declared = [])
      (hheads : CircleHeads (a.LeadsInside site.scopes) [] (declared.filterMap Declaration.type?) heads) :
      HeadsAt a site heads
  | other (hnot : ∀ declared, site.opened = some declared → a.repeated declared ≠ []) :
      HeadsAt a site []

namespace Arena.Account

variable {sites : List Site} {remarks : List Remark}

/-- **The circles of an account** are those of the sites of a tour. -/
theorem exists_heads (h : a.Account sites remarks) : ∃ tour heads, a.Tour sites tour ∧
    List.Forall₂ a.HeadsAt tour heads ∧
    remarks.filter (fun r => r.cause.isCyclic) = heads.flatten.map a.cyclic := by
  induction h with
  | nil => exact ⟨[], [], .nil, .nil, rfl⟩
  | @node site beside inner more hopened _ _ ihInside ihBeside =>
      obtain ⟨tour, heads, htour, hheads, hinner⟩ := ihInside
      obtain ⟨tour', heads', htour', hheads', hmore⟩ := ihBeside
      refine ⟨_, [] :: (heads ++ heads'), .node hopened htour htour',
        .cons (.other fun declared heq => nomatch hopened.symm.trans heq) (List.rel_append hheads hheads'), ?_⟩
      simp only [List.filter_append, filter_isCyclic_ahead, filter_isCyclic_behind, hinner, hmore,
        List.nil_append, List.append_nil, List.flatten_cons, List.flatten_append, List.map_append]
  | @scope site beside declared heads types others more hopened hdistinct _ hheads _ _ ihTypes ihOthers
      ihBeside =>
      obtain ⟨tour, heads₁, htour, hheads₁, htypes⟩ := ihTypes
      obtain ⟨tour', heads₂, htour', hheads₂, hothers⟩ := ihOthers
      obtain ⟨tour'', heads₃, htour'', hheads₃, hmore⟩ := ihBeside
      refine ⟨_, heads₁ ++ heads :: (heads₂ ++ heads₃), .scope hopened hdistinct htour htour' htour'',
        List.rel_append hheads₁
          (.cons (.scope hopened hdistinct hheads) (List.rel_append hheads₂ hheads₃)), ?_⟩
      have hcyclic : (heads.map a.cyclic).filter (fun r => r.cause.isCyclic) = heads.map a.cyclic :=
        List.filter_eq_self.2 (List.forall_mem_map.2 fun d _ => rfl)
      simp only [List.filter_append, htypes, hcyclic, hothers, hmore, List.append_assoc,
        List.flatten_cons, List.flatten_append, List.map_append]
  | @«repeated» site beside declared more hopened hrepeated _ ihBeside =>
      obtain ⟨tour, heads, htour, hheads, hmore⟩ := ihBeside
      refine ⟨_, [] :: heads, .repeated hopened hrepeated htour, .cons (.other fun declared' heq => ?_) hheads, ?_⟩
      · exact Option.some.inj (hopened.symm.trans heq) ▸ hrepeated
      · rw [List.filter_append, hmore,
          filter_isCyclic_of_isRedeclaration fun r hr => isRedeclaration_of_mem_repeated hr]
        rfl

/-- **The repeated names of an account** are those of the sites of a tour. -/
theorem exists_redeclared (h : a.Account sites remarks) : ∃ tour, a.Tour sites tour ∧
    remarks.filter (fun r => r.cause.isRedeclaration) =
      tour.flatMap fun site => (a.checkedAt site).elim [] a.repeated := by
  induction h with
  | nil => exact ⟨[], .nil, rfl⟩
  | @node site beside inner more hopened _ _ ihInside ihBeside =>
      obtain ⟨tour, htour, hinner⟩ := ihInside
      obtain ⟨tour', htour', hmore⟩ := ihBeside
      refine ⟨_, .node hopened htour htour', ?_⟩
      have hchecked : a.checkedAt site = a.fieldsAt site := by rw [checkedAt, hopened]; rfl
      simp only [List.filter_append, filter_isRedeclaration_ahead, filter_isRedeclaration_behind, hinner,
        hmore, List.nil_append, List.flatMap_cons, List.flatMap_append, hchecked, List.append_assoc]
  | @scope site beside declared heads types others more hopened hdistinct _ hheads _ _ ihTypes ihOthers
      ihBeside =>
      obtain ⟨tour, htour, htypes⟩ := ihTypes
      obtain ⟨tour', htour', hothers⟩ := ihOthers
      obtain ⟨tour'', htour'', hmore⟩ := ihBeside
      refine ⟨_, .scope hopened hdistinct htour htour' htour'', ?_⟩
      have hchecked : (a.checkedAt site).elim [] a.repeated = [] := by
        rw [checkedAt, hopened]
        exact hdistinct
      have hcyclic : (heads.map a.cyclic).filter (fun r => r.cause.isRedeclaration) = [] :=
        List.filter_eq_nil_iff.2 (List.forall_mem_map.2 fun d _ => nofun)
      simp only [List.filter_append, htypes, hcyclic, hothers, hmore, hchecked, List.nil_append,
        List.append_assoc, List.flatMap_cons, List.flatMap_append]
  | @«repeated» site beside declared more hopened hrepeated _ ihBeside =>
      obtain ⟨tour, htour, hmore⟩ := ihBeside
      refine ⟨_, .repeated hopened hrepeated htour, ?_⟩
      have hchecked : (a.checkedAt site).elim [] a.repeated = a.repeated declared := by
        rw [checkedAt, hopened]
        rfl
      have hall : (a.repeated declared).filter (fun r => r.cause.isRedeclaration) =
          a.repeated declared :=
        List.filter_eq_self.2 fun r hr => isRedeclaration_of_mem_repeated hr
      rw [List.filter_append, hmore, List.flatMap_cons, hchecked, hall]

end Arena.Account

end ProcLang

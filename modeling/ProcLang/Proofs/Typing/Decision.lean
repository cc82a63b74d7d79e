import ProcLang.Proofs.Typing.Rules

/-!
# ProcLang.Proofs.Typing.Decision

**Typing one expression is deciding which rule applies to it.** If the operands carry the types that
the rules give them, then what is derived for an expression is the type that the rules give it, and a
cause to complain is found exactly if they give it none (`Grown.finds_hasType`). The names in the
expression have to lead to declared types (`Annotated`).
-/

namespace ProcLang

open Arena Judgement

variable {a b : Arena}

/-! ### Deciding the rules -/

theorem TypeKind.isInteger_iff {kind : TypeKind} : kind.isInteger = true ↔ kind = .integer := by
  cases kind <;> simp [isInteger]

theorem TypeKind.isBoolean_iff {kind : TypeKind} : kind.isBoolean = true ↔ kind = .boolean := by
  cases kind <;> simp [isBoolean]

theorem arithmeticType_iff {left right : TypeKind} {t : TypeId} : arithmeticType left right = some t ↔
    left = .integer ∧ right = .integer ∧ integer = t ∨
      left.isNumeric = true ∧ right.isNumeric = true ∧ ¬ (left = .integer ∧ right = .integer) ∧
        real = t := by
  rw [arithmeticType, ← TypeKind.isInteger_iff, ← TypeKind.isInteger_iff]
  by_cases hintegers : left.isInteger && right.isInteger
  · rw [if_pos hintegers]
    rw [Bool.and_eq_true] at hintegers
    simp [hintegers]
  · rw [if_neg hintegers]
    rw [Bool.and_eq_true] at hintegers
    by_cases hnumeric : left.isNumeric && right.isNumeric
    · rw [if_pos hnumeric]
      rw [Bool.and_eq_true] at hnumeric
      have hfirst : ¬ (left.isInteger = true ∧ right.isInteger = true ∧ integer = t) :=
        fun h => hintegers ⟨h.1, h.2.1⟩
      simp only [Option.some.injEq, hfirst, false_or, hnumeric, hintegers, not_false_eq_true, true_and]
    · rw [if_neg hnumeric]
      rw [Bool.and_eq_true] at hnumeric
      simp only [reduceCtorEq, false_iff]
      rintro (⟨hl, hr, -⟩ | ⟨hl, hr, -⟩)
      · exact hintegers ⟨hl, hr⟩
      · exact hnumeric ⟨hl, hr⟩

theorem gives_if {α : Type} {valid : Bool} {x y : α} {cause : Cause} :
    Gives (if valid then pure x else throw cause : Judgement α) y ↔ valid = true ∧ x = y := by
  cases valid with
  | true => simp [eq_comm]
  | false => simp

section

variable {u w t : TypeId} {left right : TypeKind}

/-- What the rules of each sort of operators say of operands of known forms. -/
def BinaryOperator.Sort.Gives (a : Arena) (u w t : TypeId) (left right : TypeKind) :
    BinaryOperator.Sort → Prop
  | .arithmetic => arithmeticType left right = some t
  | .modulo => left = .integer ∧ right = .integer ∧ integer = t
  | .equality => (left.isNumeric = true ∧ right.isNumeric = true ∨ a.sameType u w = .ok true) ∧
      boolean = t
  | .ordering => left.isNumeric = true ∧ right.isNumeric = true ∧ boolean = t
  | .logical => left = .boolean ∧ right = .boolean ∧ boolean = t
  | .member => False
  | .index => right = .integer ∧ ∃ length, left = .array length t

/-- There is one rule, or a few, for each sort of operators. -/
theorem binaryRule_iff (hu : a.Means u left) (hw : a.Means w right) {operator : BinaryOperator} :
    a.BinaryRule operator u w t ↔ operator.sort.Gives a u w t left right := by
  have hleft : ∀ {kind}, a.Means u kind → kind = left := fun h => h.unique hu
  have hright : ∀ {kind}, a.Means w kind → kind = right := fun h => h.unique hw
  constructor
  · intro h
    cases h with
    | integers hsort hu' hw' =>
        obtain rfl := hleft hu'
        obtain rfl := hright hw'
        rcases hsort with hsort | hsort
        · rw [hsort]
          exact arithmeticType_iff.2 (Or.inl ⟨rfl, rfl, rfl⟩)
        · rw [hsort]
          exact ⟨rfl, rfl, rfl⟩
    | reals hsort hu' hw' hl hr hreal =>
        obtain rfl := hleft hu'
        obtain rfl := hright hw'
        rw [hsort]
        exact arithmeticType_iff.2 (Or.inr ⟨hl, hr, hreal, rfl⟩)
    | numbers hsort hu' hw' hl hr =>
        obtain rfl := hleft hu'
        obtain rfl := hright hw'
        rcases hsort with hsort | hsort
        · rw [hsort]
          exact ⟨Or.inl ⟨hl, hr⟩, rfl⟩
        · rw [hsort]
          exact ⟨hl, hr, rfl⟩
    | alike hsort hsame =>
        rw [hsort]
        exact ⟨Or.inr hsame, rfl⟩
    | truths hsort hu' hw' =>
        rw [hsort]
        exact ⟨(hleft hu').symm, (hright hw').symm, rfl⟩
    | element hsort hu' hw' =>
        rw [hsort]
        exact ⟨(hright hw').symm, _, (hleft hu').symm⟩
  · intro h
    cases hsort : operator.sort with
    | arithmetic =>
        rw [hsort] at h
        rcases arithmeticType_iff.1 h with ⟨rfl, rfl, rfl⟩ | ⟨hl, hr, hreal, rfl⟩
        · exact .integers (Or.inl hsort) hu hw
        · exact .reals hsort hu hw hl hr hreal
    | modulo =>
        rw [hsort] at h
        obtain ⟨rfl, rfl, rfl⟩ := h
        exact .integers (Or.inr hsort) hu hw
    | equality =>
        rw [hsort] at h
        obtain ⟨⟨hl, hr⟩ | hsame, rfl⟩ := h
        · exact .numbers (Or.inl hsort) hu hw hl hr
        · exact .alike hsort hsame
    | ordering =>
        rw [hsort] at h
        obtain ⟨hl, hr, rfl⟩ := h
        exact .numbers (Or.inr hsort) hu hw hl hr
    | logical =>
        rw [hsort] at h
        obtain ⟨rfl, rfl, rfl⟩ := h
        exact .truths hsort hu hw
    | member =>
        rw [hsort] at h
        exact h.elim
    | index =>
        rw [hsort] at h
        obtain ⟨rfl, length, rfl⟩ := h
        exact .element hsort hu hw

/-- What is derived for two operands of known forms. -/
theorem deriveKnown_iff {same : Bool} (hsame : a.sameType u w = .ok same) {operator : BinaryOperator}
    (hmember : operator ≠ .member) (hindex : operator ≠ .index) :
    Gives (a.deriveKnown operator left right (some u) (some w)) t ↔
      operator.sort.Gives a u w t left right := by
  cases operator with
  | add | subtract | multiply | divide =>
      show Gives _ t ↔ arithmeticType left right = some t
      simp only [deriveKnown]
      cases arithmeticType left right with
      | none => simp
      | some found => simp [eq_comm]
  | modulo =>
      show Gives _ t ↔ left = .integer ∧ right = .integer ∧ integer = t
      rw [← TypeKind.isInteger_iff, ← TypeKind.isInteger_iff, ← and_assoc, ← Bool.and_eq_true]
      exact gives_if
  | equal | notEqual =>
      show Gives _ t ↔ (left.isNumeric = true ∧ right.isNumeric = true ∨ a.sameType u w = .ok true) ∧
        boolean = t
      simp only [deriveKnown]
      rw [← Bool.and_eq_true, hsame]
      cases left.isNumeric && right.isNumeric with
      | true => simp [eq_comm]
      | false =>
          simp only [sameTypes, hsame, Bool.false_eq_true, if_false, false_or, Except.ok.injEq]
          exact gives_lift_bind.trans (by simp [gives_if])
  | less | lessEqual | greater | greaterEqual =>
      show Gives _ t ↔ left.isNumeric = true ∧ right.isNumeric = true ∧ boolean = t
      rw [← and_assoc, ← Bool.and_eq_true]
      exact gives_if
  | or | xor | and =>
      show Gives _ t ↔ left = .boolean ∧ right = .boolean ∧ boolean = t
      rw [← TypeKind.isBoolean_iff, ← TypeKind.isBoolean_iff, ← and_assoc, ← Bool.and_eq_true]
      exact gives_if
  | member => exact absurd rfl hmember
  | index => exact absurd rfl hindex

end

/-! ### One expression -/

/-- A check in front of a judgement. -/
theorem gives_unless {α : Type} {valid : Bool} {m : Judgement α} {cause : Cause} {x : α} :
    Gives (do
      unless valid do throw cause
      m) x ↔ valid = true ∧ Gives m x := by
  cases valid with
  | true => simp
  | false => simp

/-- A judgement finds the types with a property, and nothing else. -/
structure Judgement.Finds (m : Judgement Derivation) (P : TypeId → Prop) : Prop where
  sound : ∀ d, Gives m d → ∃ t, d.type = some t ∧ P t
  complete : ∀ t, P t → ∃ d, Gives m d ∧ d.type = some t

theorem Judgement.Finds.of_iff {m : Judgement Derivation} {P : TypeId → Prop}
    (h : ∀ d, Gives m d ↔ ∃ t, P t ∧ d = .plain (some t)) : Finds m P where
  sound d hd := by
    obtain ⟨t, ht, rfl⟩ := (h d).1 hd
    exact ⟨t, rfl, ht⟩
  complete t ht := ⟨.plain (some t), (h _).2 ⟨t, ht, rfl⟩, rfl⟩

/-- A judgement finds one type at most. -/
theorem Judgement.Finds.unique {m : Judgement Derivation} {P : TypeId → Prop} (h : Finds m P)
    {t t' : TypeId} (ht : P t) (ht' : P t') : t = t' := by
  obtain ⟨d, hd, htype⟩ := h.complete t ht
  obtain ⟨d', hd', htype'⟩ := h.complete t' ht'
  obtain rfl : d = d' := Except.ok.inj (Except.ok.inj (hd.symm.trans hd'))
  exact Option.some.inj (htype.symm.trans htype')

namespace Arena.Grown

variable {o o' : ExpressionId} {operand operand' : Expression} {u w t : TypeId}

/-- A type that is stored means something. -/
theorem exists_means (h : b.Grown a) (ho : a.get? o = some operand) (hu : operand.type = some u) :
    ∃ kind, a.kindOf operand.type = .ok (some kind) ∧ b.Means u kind := by
  have hhas := h.sound.closed.type ho hu
  obtain ⟨r, node, -, hkind, -⟩ := h.sound.kindOf_some hhas
  exact ⟨node.kind, hu ▸ hkind, h.refined.means_iff.1 ((h.sound.kindOf_iff hhas).1 hkind)⟩

theorem gives_deriveUnary (h : b.Grown a) {operator : UnaryOperator} (ho : a.get? o = some operand)
    (hu : operand.type = some u) {d : Derivation} :
    Gives (a.deriveUnary operator o) d ↔ ∃ t, b.UnaryRule operator u t ∧ d = .plain (some t) := by
  obtain ⟨kind, hkind, hmeans⟩ := h.exists_means ho hu
  have hresult : Gives (UnaryOperator.derivation operator operand.type) d ↔
      d = .plain (operator.result (some u)) := by
    rw [hu]
    cases operator <;> exact gives_pure
  refine (gives_get ho).trans ((gives_read hkind).trans ((gives_unless.trans
    (and_congr_right' hresult)).trans ?_))
  constructor
  · rintro ⟨happlies, rfl⟩
    cases operator with
    | not =>
        rw [UnaryOperator.applies, TypeKind.isBoolean_iff] at happlies
        exact ⟨_, .not (happlies ▸ hmeans), rfl⟩
    | plus | minus => exact ⟨u, .sign (by decide) hmeans happlies, rfl⟩
  · rintro ⟨t, hrule, rfl⟩
    cases hrule with
    | not ht => exact ⟨TypeKind.isBoolean_iff.2 (hmeans.unique ht), rfl⟩
    | sign hsign ht hnumeric =>
        rw [← hmeans.unique ht] at hnumeric
        cases operator with
        | not => exact absurd rfl hsign
        | plus | minus => exact ⟨hnumeric, rfl⟩

theorem gives_deriveBinary (h : b.Grown a) {operator : BinaryOperator}
    (hmember : operator ≠ .member) (hindex : operator ≠ .index) (ho : a.get? o = some operand)
    (ho' : a.get? o' = some operand') (hu : operand.type = some u) (hw : operand'.type = some w)
    {d : Derivation} :
    Gives (a.deriveBinary operator o o') d ↔ ∃ t, b.BinaryRule operator u w t ∧ d = .plain (some t) := by
  obtain ⟨left, hleft, hmeans⟩ := h.exists_means ho hu
  obtain ⟨right, hright, hmeans'⟩ := h.exists_means ho' hw
  obtain ⟨same, hsame⟩ := h.sound.closed.exists_sameType (h.sound.closed.type ho hu)
    (h.sound.closed.type ho' hw)
  refine (gives_get ho).trans ((gives_get ho').trans ((gives_read hleft).trans
    ((gives_read hright).trans (gives_bind.trans (exists_congr fun t => ?_)))))
  rw [gives_pure, hu, hw, deriveKnown_iff hsame hmember hindex, binaryRule_iff hmeans hmeans']
  refine and_congr_left' ?_
  cases operator.sort with
  | equality =>
      show (_ ∨ a.sameType u w = .ok true) ∧ _ ↔ (_ ∨ b.sameType u w = .ok true) ∧ _
      rw [h.refined.sameType_eq]
  | arithmetic | modulo | ordering | logical | member | index => exact Iff.rfl

theorem gives_deriveIndex (h : b.Grown a) (ho : a.get? o = some operand)
    (ho' : a.get? o' = some operand') (hu : operand.type = some u) (hw : operand'.type = some w)
    {d : Derivation} :
    Gives (a.deriveIndex o o') d ↔ ∃ t, b.BinaryRule .index u w t ∧ d = .plain (some t) := by
  obtain ⟨left, hleft, hmeans⟩ := h.exists_means ho hu
  obtain ⟨right, hright, hmeans'⟩ := h.exists_means ho' hw
  have hrest : Gives (a.elementDerivation o) d ↔
      ∃ t, (∃ length, left = .array length t) ∧ d = .plain (some t) := by
    refine (gives_read (expressionKindOf_eq_ok.2 ⟨operand, ho, hleft⟩)).trans ?_
    cases left with
    | array length element =>
        refine gives_pure.trans ⟨?_, ?_⟩
        · rintro rfl
          exact ⟨element, ⟨length, rfl⟩, rfl⟩
        · rintro ⟨t, ⟨length', heq⟩, rfl⟩
          cases heq
          rfl
    | named | integer | real | boolean | record =>
        refine iff_of_false gives_throw ?_
        rintro ⟨t, ⟨length, heq⟩, -⟩
        cases heq
  refine (gives_read (expressionKindOf_eq_ok.2 ⟨operand', ho', hright⟩)).trans ((gives_unless.trans
    (and_congr TypeKind.isInteger_iff hrest)).trans ?_)
  simp only [binaryRule_iff hmeans hmeans', BinaryOperator.sort, BinaryOperator.Sort.Gives, and_assoc,
    exists_and_left]

theorem gives_deriveMember (h : b.Grown a) (ho : a.get? o = some operand)
    (hu : operand.type = some u) {f : ExpressionId} {field : Expression} (hf : a.get? f = some field)
    {name : String} {target : Option VariableId} (hname : field.kind = .identifier name target)
    {d : Derivation} :
    Gives (a.deriveMember o f) d ↔ ∃ fields x, b.Means u (.record fields) ∧
      b.findField name fields = .ok (some x) ∧ a.variableType x = .ok d.type ∧ d.field = some (f, x) := by
  obtain ⟨kind, hkind, hmeans⟩ := h.exists_means ho hu
  refine (gives_get hf).trans ?_
  rw [hname]
  refine (gives_read (expressionKindOf_eq_ok.2 ⟨operand, ho, hkind⟩)).trans ?_
  cases kind with
  | record fields =>
      constructor
      · intro hd
        obtain ⟨found, hfound, hd⟩ := gives_lift_bind.1 hd
        cases found with
        | none => exact (gives_throw hd).elim
        | some x =>
            obtain ⟨type, htype, hd⟩ := gives_lift_bind.1 hd
            rw [gives_pure.1 hd]
            exact ⟨fields, x, hmeans, (h.refined.findField_eq _ _).symm.trans hfound, htype, rfl⟩
      · rintro ⟨fields', x, hmeans', hfound, htype, hx⟩
        cases hmeans.unique hmeans'
        refine (gives_read ((h.refined.findField_eq _ _).trans hfound)).2 ((gives_read htype).2 ?_)
        obtain ⟨type, bound⟩ := d
        cases hx
        exact gives_pure.2 rfl
  | named | integer | real | boolean | array =>
      refine iff_of_false gives_throw ?_
      rintro ⟨fields, x, hmeans', -⟩
      nomatch hmeans.unique hmeans'

end Arena.Grown

/-- Every name that is reached leads to a declared type. -/
structure Arena.Annotated (a : Arena) : Prop where
  declared : ∀ (x : VariableId) v, a.get? x = some v → ∃ t, v.declaredType = some t
  names : ∀ (e : ExpressionId) node name target, a.Reaches .program (.expression e) → ¬ a.IsField e →
    a.get? e = some node → node.kind = .identifier name target → ∃ x, target = some x
  calls : ∀ (e : ExpressionId) node name target arguments, a.Reaches .program (.expression e) →
    a.get? e = some node → node.kind = .call name target arguments →
    ∃ r routine t, target = some r ∧ a.get? r = some routine ∧ routine.returnType = some t

/-- The tree `a` has a type on an expression, and the rules for the tree `b` give it this type and no
other. -/
def Arena.Judged (b a : Arena) (e : ExpressionId) (t : TypeId) : Prop :=
  (∃ node, a.get? e = some node ∧ node.type = some t) ∧ ∀ u, b.HasType e u ↔ u = t

/-- A declared type is the type of its variable. -/
theorem variableType_declared {x : VariableId} {v : Variable} {t : TypeId} (hx : a.get? x = some v)
    (ht : v.declaredType = some t) : a.variableType x = .ok (some t) := by
  simp [variableType, get_eq_ok.2 hx, ht, bind, Except.bind, pure, Except.pure]

/-- What the operands of an expression carry. -/
theorem exists_operand {node : Expression} {o : ExpressionId}
    (hoperands : ∀ o ∈ Node.slots .expression node, ∃ t, b.Judged a o t)
    (ho : o ∈ Node.slots .expression node) :
    ∃ operand u, a.get? o = some operand ∧ operand.type = some u ∧ ∀ w, b.HasType o w ↔ w = u := by
  obtain ⟨u, ⟨operand, hget, hu⟩, hunique⟩ := hoperands o ho
  exact ⟨operand, u, hget, hu, hunique⟩

theorem not_binaryRule_member {u w t : TypeId} : ¬ a.BinaryRule .member u w t := by
  intro h
  cases h with
  | integers hsort | numbers hsort => rcases hsort with hsort | hsort <;> nomatch hsort
  | reals hsort | alike hsort | truths hsort | element hsort => nomatch hsort

namespace Arena.Grown

variable {o : ExpressionId} {operand : Expression} {u : TypeId}

/-- A member access has the type of the field. -/
theorem finds_member (h : b.Grown a) (hannotated : b.Annotated) {f : ExpressionId}
    (ho : a.get? o = some operand) (hu : operand.type = some u) (hunique : ∀ w, b.HasType o w ↔ w = u)
    (hfield : b.IsField f) : Finds (a.deriveMember o f) (b.FieldRule o f) := by
  obtain ⟨field, name, target, hf, hname⟩ := h.sound.bound.named f (h.refined.isField_iff.2 hfield)
  obtain ⟨old, hold, hsame⟩ := h.refined.exists_get? hf
  obtain ⟨target₀, hname₀⟩ := hsame.exists_identifier_of_new hname
  have hgives : ∀ d, Gives (a.deriveMember o f) d ↔ _ := fun d => h.gives_deriveMember ho hu hf hname
  -- the field that the record has of this name has a declared type
  have hfound : ∀ fields x, b.Means u (.record fields) → b.findField name fields = .ok (some x) →
      ∃ v t, b.get? x = some v ∧ v.declaredType = some t ∧ a.variableType x = .ok (some t) := by
    intro fields x hmeans hx
    obtain ⟨-, v, hv, -⟩ := findField_ok hx
    obtain ⟨t, ht⟩ := hannotated.declared x v hv
    exact ⟨v, t, hv, ht, variableType_declared ((h.refined.get?_eq .variable nofun x).trans hv) ht⟩
  constructor
  · intro d hd
    obtain ⟨fields, x, hmeans, hx, htype, -⟩ := (hgives d).1 hd
    obtain ⟨v, t, hv, ht, hdeclared⟩ := hfound fields x hmeans hx
    rw [hdeclared] at htype
    exact ⟨t, (Except.ok.inj htype).symm, u, fields, old, name, target₀, x, v, (hunique u).2 rfl, hmeans,
      hold, hname₀, hx, hv, ht⟩
  · rintro t ⟨w, fields, field', name', target', x, v, hw, hmeans, hf', hname', hx, hv, ht⟩
    obtain rfl := (hunique w).1 hw
    obtain rfl := Option.some.inj (hold.symm.trans hf')
    cases hname₀.symm.trans hname'
    have hv' := (h.refined.get?_eq .variable nofun x).trans hv
    exact ⟨⟨some t, some (f, x)⟩, (hgives _).2 ⟨fields, x, hmeans, hx, variableType_declared hv' ht, rfl⟩,
      rfl⟩

/-- **Typing one expression is deciding which rule applies to it**, if its operands carry the types
that the rules give them. -/
theorem finds_hasType (h : b.Grown a) (hannotated : b.Annotated) {e : ExpressionId}
    (hreaches : b.Reaches .program (.expression e)) (hfield : ¬ b.IsField e) {node : Expression}
    (hget : b.get? e = some node)
    (hoperands : ∀ o ∈ Node.slots .expression node, ∃ t, b.Judged a o t) :
    Finds (a.deriveType e) (b.HasType e) := by
  obtain ⟨node', hget', -⟩ := h.refined.expressions e node hget
  have hsame : node'.kind = node.kind := h.refined.kind_eq hfield hget hget'
  have hrule : ∀ t, b.HasType e t ↔ _ := fun t => hasType_iff hget
  cases hkind : node.kind with
  | integer | real | boolean =>
      rw [hkind] at hsame hrule
      refine .of_iff fun d => (gives_get hget').trans ?_
      rw [hsame]
      simp only [hrule, ExpressionKind.literalType, Option.some.injEq, exists_eq_left']
      exact gives_pure
  | identifier name target =>
      rw [hkind] at hsame hrule
      obtain ⟨x, rfl⟩ := hannotated.names e node name target hreaches hfield hget hkind
      obtain ⟨v, hx⟩ := exists_of_has x (h.sound.closed.variable hget' hsame)
      have hx' := (h.refined.get?_eq .variable nofun x).symm.trans hx
      obtain ⟨t, ht⟩ := hannotated.declared x v hx'
      refine .of_iff fun d => (gives_get hget').trans ?_
      rw [hsame]
      refine (gives_read (variableType_declared hx ht)).trans (gives_pure.trans ?_)
      simp [hrule, hx', ht]
  | call name target arguments =>
      rw [hkind] at hsame hrule
      obtain ⟨r, routine, t, rfl, hr, ht⟩ :=
        hannotated.calls e node name target arguments hreaches hget hkind
      have hr' := (h.refined.get?_eq .routine nofun r).trans hr
      have harguments : ∀ o : ExpressionId, ∃ u, o ∈ arguments → b.HasType o u := by
        intro o
        by_cases ho : o ∈ arguments
        · obtain ⟨operand, u, -, -, hunique⟩ := exists_operand (o := o) hoperands (by
            rw [Node.slots, hkind]
            exact ho)
          exact ⟨u, fun _ => (hunique u).2 rfl⟩
        · exact ⟨t, fun hmem => absurd hmem ho⟩
      refine .of_iff fun d => (gives_get hget').trans ?_
      rw [hsame]
      refine (gives_get hr').trans (gives_pure.trans ?_)
      simp [hrule, hr, ht, Classical.skolem.1 harguments]
  | unary operator operand =>
      rw [hkind] at hsame hrule
      obtain ⟨o, u, ho, hu, hunique⟩ := exists_operand (o := operand) hoperands (by
        rw [Node.slots, hkind]
        exact List.mem_cons_self)
      refine .of_iff fun d => (gives_get hget').trans ?_
      rw [hsame]
      refine (h.gives_deriveUnary ho hu).trans ?_
      simp [hrule, hunique]
  | binary operator left right =>
      rw [hkind] at hsame hrule
      have hslots : ∀ o ∈ Node.slots .expression node, _ := fun o ho => exists_operand hoperands ho
      rw [Node.slots, hkind] at hslots
      cases operator with
      | member =>
          obtain ⟨l, u, hl, hu, hunique⟩ := hslots left List.mem_cons_self
          have hmember := h.finds_member hannotated hl hu hunique ⟨e, node, left, hget, hkind⟩
          have hgives : ∀ d, Gives (a.deriveType e) d ↔ Gives (a.deriveMember left right) d := by
            intro d
            refine (gives_get hget').trans ?_
            rw [hsame]
          refine ⟨fun d hd => ?_, fun t ht => ?_⟩
          · obtain ⟨t, ht, hfound⟩ := hmember.sound d ((hgives d).1 hd)
            exact ⟨t, ht, (hrule t).2 (Or.inr ⟨rfl, hfound⟩)⟩
          · rcases (hrule t).1 ht with ⟨u, w, -, -, hbinary⟩ | ⟨-, hfound⟩
            · exact (not_binaryRule_member hbinary).elim
            · obtain ⟨d, hd, hdt⟩ := hmember.complete t hfound
              exact ⟨d, (hgives d).2 hd, hdt⟩
      | index =>
          obtain ⟨l, u, hl, hu, hunique⟩ := hslots left List.mem_cons_self
          obtain ⟨r, w, hr, hw, hunique'⟩ := hslots right (List.mem_cons_of_mem _ List.mem_cons_self)
          refine .of_iff fun d => (gives_get hget').trans ?_
          rw [hsame]
          refine (h.gives_deriveIndex hl hr hu hw).trans ?_
          simp [hrule, hunique, hunique']
      | or | xor | and | equal | notEqual | less | lessEqual | greater | greaterEqual | add
      | subtract | multiply | divide | modulo =>
          obtain ⟨l, u, hl, hu, hunique⟩ := hslots left List.mem_cons_self
          obtain ⟨r, w, hr, hw, hunique'⟩ := hslots right (List.mem_cons_of_mem _ List.mem_cons_self)
          refine .of_iff fun d => (gives_get hget').trans ?_
          rw [hsame]
          refine (h.gives_deriveBinary (by decide) (by decide) hl hr hu hw).trans ?_
          simp [hrule, hunique, hunique']

end Arena.Grown

end ProcLang

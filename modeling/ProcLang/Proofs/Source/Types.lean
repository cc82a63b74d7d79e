import ProcLang.Proofs.Parser.Tree
import ProcLang.Proofs.Source.Expressions

/-!
# ProcLang.Proofs.Source.Types

**A type and the declaration of a variable that were written down are read back** (`takes_type`,
`takes_variable`). The lemmas follow the rules of the parser; types and variables contain one
another, so the parser for nested types is a parameter of each rule, and the rules are put together
by an induction on what is written.

A nested type is read with a bound on the tokens that are left. Each rule takes a token before it
reads a nested type, so the bound is met.
-/

namespace ProcLang

namespace Source

open ProcLang.Parser
open ProcLang.Parser.State

/-! ### Parts that may be missing -/

/-- The length of an array. -/
theorem takes_arrayLength (length : Option Expression) :
    Takes (arrayLength Grammar.standard) (lengthWords length)
      (fun rest => nextKind rest ≠ .openBracket)
      (fun a id => Option.Rel (Expression.Stands a) length id) := by
  intro s rest hs hrest
  simp only [arrayLength, achieves_bind, achieves_current, hs.current_kind]
  cases length with
  | none =>
      rw [if_neg (by exact hrest)]
      exact achieves_pure.2 ⟨.refl hs, .none⟩
  | some length =>
      rw [if_pos (by rfl)]
      simp only [lengthWords, List.cons_append, List.append_assoc] at hs
      simp only [achieves_bind, achieves_skip, achieves_discard, achieves_expect, achieves_pure]
      refine (takes_expression length).achieves hs.advance.spells (closes_of_kind rfl (by rintro ⟨⟩)) ?_
      intro placed s₁ h₁ hstands
      refine ⟨h₁.spells.current_kind, hs.advance.trans h₁.skip, .some ?_⟩
      exact hstands.1.extend h₁.spells.advance.arena

/-- The initial value of a variable. -/
theorem takes_initializer (value : Option Expression) :
    Takes (initializer Grammar.standard) (announced [.of .kwIs] value)
      (fun rest => nextKind rest = .newline)
      (fun a id => Option.Rel (Expression.Stands a) value id) := by
  intro s rest hs hrest
  simp only [initializer, achieves_bind, achieves_current, hs.current_kind]
  cases value with
  | none =>
      rw [if_neg (by simp [announced, hrest])]
      exact achieves_pure.2 ⟨.refl hs, .none⟩
  | some value =>
      rw [if_pos (by rfl)]
      simp only [achieves_bind, achieves_skip, achieves_pure]
      refine (takes_expression value).achieves hs.advance.spells (closes_of_newline hrest) ?_
      exact fun placed s₁ h₁ hstands => ⟨hs.advance.trans h₁, .some hstands.1⟩

/-- The line break behind a declaration. -/
theorem achieves_terminator {s : State} {rest : List Word} (hs : s.Spells (.of .newline :: rest))
    {Q : Unit → State → Prop} (hQ : Q () s.advance.2) : Achieves terminator s Q := by
  simp only [terminator, achieves_bind, achieves_current, hs.current_kind, nextKind]
  exact achieves_skip.2 hQ

/-! ### Types -/

/-- A parser for nested types reads a type where fewer than `n` words are left. -/
def ReadsType (n : Nat) (type : Parser TypeId) (form : TypeForm) : Prop :=
  Takes type form.words (fun rest => (form.words ++ rest).length < n) fun a id => form.Stands a id

section

variable {n : Nat} {type : Parser TypeId}

/-- The type of a declaration. -/
theorem takes_annotated {form : Option TypeForm}
    (hform : ∀ t, form = some t → ReadsType n type t) :
    Takes ( annotation type) (annotationWords form)
      (fun rest => (annotationWords form ++ rest).length ≤ n ∧ nextKind rest ≠ .colon)
      (fun a id => AnnotationStands a form id) := by
  intro s rest hs hrest
  simp only [ annotation, achieves_bind, achieves_current, hs.current_kind]
  cases form with
  | none =>
      rw [if_neg (by exact hrest.2)]
      exact achieves_pure.2 ⟨.refl hs, rfl⟩
  | some form =>
      rw [if_pos (by rfl)]
      simp only [achieves_bind, achieves_skip, achieves_map]
      have hn : (form.words ++ rest).length < n := hrest.1
      refine (hform form rfl).achieves hs.advance.spells hn ?_
      exact fun t s₁ h₁ hstands => ⟨hs.advance.trans h₁, t, rfl, hstands⟩

/-- A variable, with the line break behind it. -/
theorem takes_variableWith {name : Name} {form : Option TypeForm} {value : Option Expression}
    (hform : ∀ t, form = some t → ReadsType n type t) :
    Takes (variableDeclWith Grammar.standard type)
      ((Variable.mk name form value).words ++ [.of .newline])
      (fun rest => ((Variable.mk name form value).words ++ .of .newline :: rest).length ≤ n)
      (fun a id => (Variable.mk name form value).Stands a id) := by
  intro s rest hs hn
  simp only [Variable.words, List.cons_append, List.append_assoc, List.nil_append] at hs hn
  have h₁ := hs.advance.skip
  simp only [variableDeclWith, achieves_bind, achieves_advance, achieves_expect, achieves_spanFrom,
    achieves_add]
  refine ⟨hs.advance.spells.current_kind, ?_⟩
  rw [hs.advance.spells.current_text]
  refine (takes_annotated hform).achieves h₁.spells ⟨?_, ?_⟩ ?_
  · simp only [List.length_cons] at hn
    omega
  · cases value <;> rintro ⟨⟩
  intro t s₂ h₂ htype
  refine (takes_initializer value).achieves h₂.spells rfl ?_
  intro v s₃ h₃ hvalue
  refine achieves_terminator h₃.spells ⟨((h₁.trans h₂).trans h₃.skip).add _ _, ?_⟩
  have hgrows := fun node =>
    h₃.spells.advance.arena.trans (extendedBy_added s₃.advance.2 .variable node)
  exact ⟨_, t, v, get?_added _ _ _, htype.extend (h₃.arena.trans (hgrows _)),
    rel_stands_extend (hgrows _) hvalue⟩

/-- A round of the loop for the fields of a record. -/
def fieldRound (type : Parser TypeId) (fields : List VariableId) :
    Parser (Round (List VariableId)) := do
  match (← current).kind with
  | .newline | .semicolon =>
      skip
      return .more fields
  | .kwVar => return .more (fields ++ [← variableDeclWith Grammar.standard type])
  | _ => return .done fields

theorem recordFields_eq (type : Parser TypeId) :
    recordFields Grammar.standard type = loop (fieldRound type) [] := rfl

/-- A variable is read where up to `n` words are left. -/
def ReadsVariable (n : Nat) (type : Parser TypeId) (x : Variable) : Prop :=
  Takes (variableDeclWith Grammar.standard type) (x.words ++ [.of .newline newline_fixed])
    (fun rest => (x.words ++ .of .newline newline_fixed :: rest).length ≤ n)
    fun a id => x.Stands a id

/-- A field of a record, with the line break behind it, is read in one round. -/
theorem achieves_field {x : Variable} (hx : ReadsVariable n type x) {found : List VariableId}
    {s : State} {rest : List Word} {Q : List VariableId → State → Prop}
    (hs : s.Spells ((x.words ++ [.of .newline]) ++ rest))
    (hn : ((x.words ++ [Word.of .newline]) ++ rest).length ≤ n)
    (hQ : ∀ id s', s.Onward rest s' → x.Stands s'.arena id →
      Achieves (loop (fieldRound type) (found ++ [id])) s' Q) :
    Achieves (loop (fieldRound type) found) s Q := by
  have hvar : s.current.kind = .kwVar := by
    rw [hs.current_kind]
    cases x
    rfl
  refine achieves_loop ?_
  simp only [fieldRound, achieves_bind, achieves_current, hvar]
  have hfits : (x.words ++ Word.of .newline :: rest).length ≤ n := by simpa using hn
  refine hx.achieves hs hfits fun id s₁ h₁ hid => achieves_pure.2 ⟨?_, hQ id s₁ h₁ hid⟩
  rw [h₁.spells.length_eq, hs.length_eq]
  simp only [List.length_append, List.length_singleton]
  omega

theorem takes_record {fields : List Variable} (hfields : ∀ x ∈ fields, ReadsVariable n type x) :
    Takes (recordType Grammar.standard type) (TypeForm.record fields).words
      (fun rest => ((TypeForm.record fields).words ++ rest).length ≤ n)
      (fun a id => (TypeForm.record fields).Stands a id) := by
  intro s rest hs hn
  simp only [TypeForm.words, fieldWords_eq, List.cons_append, List.append_assoc,
    List.nil_append] at hs hn
  have h₁ := hs.advance
  simp only [recordType, recordFields_eq, achieves_bind, achieves_advance, achieves_discard,
    achieves_expect, achieves_spanFrom, achieves_add]
  -- the line break behind the opening word
  refine achieves_loop ?_
  simp only [fieldRound, achieves_bind, achieves_current, h₁.spells.current_kind, nextKind,
    Word.of_kind, achieves_skip, achieves_pure]
  refine ⟨h₁.spells.takes_token, ?_⟩
  have h₂ := h₁.skip
  refine achieves_loop_each (· ++ ·) (fun x => x.words ++ [.of .newline]) Variable.Stands
    List.append_nil (fun _ _ _ => by simp) (fun hab hx => hx.extend hab)
    (fun x hx => achieves_field (hfields x hx)) h₂.spells ?_ ?_
  · simp only [List.length_cons] at hn
    omega
  intro ids s₃ h₃ hids
  -- the word that closes the record ends the loop
  refine achieves_loop ?_
  simp only [fieldRound, achieves_bind, achieves_current, h₃.spells.current_kind, nextKind,
    Word.of_kind, achieves_pure]
  refine ⟨trivial, ((h₂.trans h₃).skip).add _ _, ?_⟩
  have hgrows := fun node =>
    h₃.spells.advance.arena.trans (extendedBy_added s₃.advance.2 .type node)
  exact ⟨_, ids, get?_added _ _ _, (FieldsStand.of_forall₂ hids).extend (hgrows _)⟩

/-- A type begins with a token that tells its form. -/
theorem nextKind_type (form : TypeForm) (rest : List Word) :
    nextKind (form.words ++ rest) ≠ .openBracket := by
  cases form <;> nofun

theorem takes_array {length : Option Expression} {element : TypeForm}
    (helement : ReadsType n type element) :
    Takes (arrayType Grammar.standard type) (TypeForm.array length element).words
      (fun rest => ((TypeForm.array length element).words ++ rest).length ≤ n)
      (fun a id => (TypeForm.array length element).Stands a id) := by
  intro s rest hs hn
  simp only [TypeForm.words, List.cons_append, List.append_assoc] at hs hn
  have h₁ := hs.advance
  simp only [arrayType, achieves_bind, achieves_advance, achieves_spanFrom, achieves_add]
  refine (takes_arrayLength length).achieves h₁.spells (nextKind_type element rest) ?_
  intro l s₂ h₂ hlength
  refine helement.achieves h₂.spells ?_ fun e s₃ h₃ he => ⟨((h₁.trans h₂).trans h₃).add _ _, ?_⟩
  · simp only [List.length_append, List.length_cons] at hn ⊢
    omega
  have hgrows := fun node => extendedBy_added s₃ .type node
  exact ⟨_, l, e, get?_added _ _ _, rel_stands_extend (h₃.arena.trans (hgrows _)) hlength,
    he.extend (hgrows _)⟩

end

/-- The parser for nested types, down to some depth. -/
def nestedType (n : Nat) : Parser TypeId :=
  unfold (fun nested (_ : Unit) => typeStep Grammar.standard (nested ())) n ()

/-- The form of a type is told by its first token. -/
theorem achieves_typeStep {type : Parser TypeId} {s : State} {words : List Word} {rule : TypeRule}
    (hs : s.Spells words) (hrule : Grammar.standardType (nextKind words) = some rule)
    {Q : TypeId → State → Prop} (h : Achieves (typeByRule Grammar.standard type rule) s Q) :
    Achieves (typeStep Grammar.standard type) s Q := by
  simp only [typeStep, achieves_bind, achieves_current, hs.current_kind]
  rw [show Grammar.standard.type = Grammar.standardType from rfl, hrule]
  exact h

/-- One layer of the parser reads a type if the rule for its first token does. -/
theorem readsType_of_rule (form : TypeForm) (rule : TypeRule)
    (hrule : ∀ rest, Grammar.standardType (nextKind (form.words ++ rest)) = some rule)
    (h : ∀ n, Takes (typeByRule Grammar.standard (nestedType n) rule) form.words
      (fun rest => (form.words ++ rest).length ≤ n) fun a id => form.Stands a id) (n : Nat) :
    ReadsType n (nestedType n) form := by
  intro s rest hs hn
  obtain ⟨n, rfl⟩ : ∃ m, n = m + 1 := ⟨n - 1, by omega⟩
  exact achieves_typeStep hs (hrule rest) (h n s rest hs (Nat.le_of_lt_succ hn))

/-- The primitive types are told by their words. -/
theorem takes_primitive (word : Word) (n : Nat) : Takes primitiveType [word]
    (fun rest => ([word] ++ rest).length ≤ n) fun a id => ∃ span, a.get? id = some ⟨span,
      match word.kind with
      | .kwInteger => .integer
      | .kwReal => .real
      | _ => .boolean⟩ := by
  intro s rest hs _
  simp only [primitiveType, achieves_bind, achieves_advance, achieves_add, hs.current_kind]
  exact ⟨hs.advance.add _ _, _, get?_added _ _ _⟩

theorem takes_named (name : Name) (n : Nat) : Takes namedType (TypeForm.named name).words
    (fun rest => ((TypeForm.named name).words ++ rest).length ≤ n)
    fun a id => (TypeForm.named name).Stands a id := by
  intro s rest hs _
  simp only [namedType, achieves_bind, achieves_expect, achieves_add]
  rw [hs.current_text]
  exact ⟨hs.current_kind, hs.advance.add _ _, _, get?_added _ _ _⟩

mutual

theorem readsType : ∀ (form : TypeForm) (n : Nat), ReadsType n (nestedType n) form
  | .integer, n =>
      readsType_of_rule .integer .primitive (fun _ => rfl) (takes_primitive (.of .kwInteger)) n
  | .real, n =>
      readsType_of_rule .real .primitive (fun _ => rfl) (takes_primitive (.of .kwReal)) n
  | .boolean, n =>
      readsType_of_rule .boolean .primitive (fun _ => rfl) (takes_primitive (.of .kwBoolean)) n
  | .named name, n => readsType_of_rule _ .named (fun _ => rfl) (takes_named name) n
  | .array _ element, n =>
      readsType_of_rule _ .array (fun _ => rfl) (fun m => takes_array (readsType element m)) n
  | .record fields, n =>
      readsType_of_rule _ .record (fun _ => rfl) (fun m => takes_record (readsFields fields m)) n

theorem readsVariable : ∀ (x : Variable) (n : Nat), ReadsVariable n (nestedType n) x
  | .mk _ none _, _ => takes_variableWith nofun
  | .mk _ (some form) _, n => takes_variableWith fun _ h => Option.some.inj h ▸ readsType form n

theorem readsFields : ∀ (fields : List Variable) (n : Nat), ∀ x ∈ fields,
    ReadsVariable n (nestedType n) x
  | [], _ => nofun
  | x :: fields, n => List.forall_mem_cons.2 ⟨readsVariable x n, readsFields fields n⟩

end

/-- **A type that was written down is read back.** -/
theorem takes_type (form : TypeForm) :
    Takes (type Grammar.standard) form.words (fun _ => True) fun a id => form.Stands a id := by
  intro s rest hs _
  refine achieves_recursive.2 ?_
  rw [hs.length_eq]
  exact readsType form _ s rest hs (Nat.lt_succ_self _)

/-! ### Declarations -/

/-- The type that a declaration may have. -/
theorem takes_result (form : Option TypeForm) :
    Takes ( annotation (type Grammar.standard)) (annotationWords form)
      (fun rest => nextKind rest ≠ .colon) fun a id => AnnotationStands a form id := by
  intro s rest hs hrest
  exact takes_annotated (fun t _ s rest hs _ => takes_type t s rest hs trivial) s rest hs
    ⟨Nat.le_refl _, hrest⟩

/-- **A variable that was written down is read back.** -/
theorem takes_variable (x : Variable) :
    Takes (variableDecl Grammar.standard) (x.words ++ [.of .newline]) (fun _ => True)
      fun a id => x.Stands a id := by
  obtain ⟨name, form, value⟩ := x
  intro s rest hs _
  exact takes_variableWith (fun t _ s rest hs _ => takes_type t s rest hs trivial) s rest hs
    (Nat.le_refl _)

/-- A declaration of a type. -/
theorem takes_typeDecl (name : Name) (form : TypeForm) :
    Takes (typeDecl Grammar.standard) ((LocalDeclaration.type name form).words ++ [.of .newline])
      (fun _ => True) fun a id => (LocalDeclaration.type name form).Stands a (.type id) := by
  intro s rest hs _
  simp only [LocalDeclaration.words, List.cons_append, List.append_assoc, List.nil_append] at hs
  have h₁ := hs.advance
  simp only [typeDecl, achieves_bind, achieves_advance, achieves_expect, achieves_discard,
    achieves_spanFrom, achieves_add]
  refine ⟨h₁.spells.current_kind, h₁.skip.spells.current_kind, ?_⟩
  rw [h₁.spells.current_text]
  refine (takes_type form).achieves h₁.skip.skip.spells trivial fun t s₂ h₂ ht => ?_
  refine achieves_terminator h₂.spells ⟨((h₁.skip.skip.trans h₂).skip).add _ _, ?_⟩
  have hgrows := fun node =>
    h₂.spells.advance.arena.trans (extendedBy_added s₂.advance.2 .typeDecl node)
  exact ⟨_, t, get?_added _ _ _, ht.extend (hgrows _)⟩

end Source

end ProcLang

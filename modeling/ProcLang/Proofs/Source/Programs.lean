import ProcLang.Proofs.Parser.Program
import ProcLang.Proofs.Source.Statements

/-!
# ProcLang.Proofs.Source.Programs

**Printing a program and parsing it gives the program back** (`parse_text`). The words of a program
are read back by the parser whatever separates them in the text (`parse_of_words`), and the text of
a program has exactly its words.
-/

namespace ProcLang

namespace Source

open ProcLang.Parser
open ProcLang.Parser.State

/-! ### Routines -/

theorem takes_parameter (p : Parameter) :
    Takes (parameter Grammar.standard) p.words (fun _ => True) fun a id => p.Stands a id := by
  intro s rest hs _
  simp only [Parameter.words, List.cons_append] at hs
  have h₁ := hs.advance
  simp only [parameter, achieves_bind, achieves_expect, achieves_discard, achieves_spanFrom,
    achieves_add, hs.current_text]
  refine ⟨hs.current_kind, h₁.spells.current_kind, ?_⟩
  refine (takes_type p.type).achieves h₁.skip.spells trivial fun t s₂ h₂ ht => ?_
  exact ⟨(h₁.skip.trans h₂).add _ _, _, t, get?_added _ _ _,
    ht.extend (extendedBy_added s₂ .variable _)⟩

/-- Parameters with commas between them. -/
theorem achieves_parameters {p : Parameter} {ps : List Parameter} (found : List VariableId)
    {s : State} {rest : List Word} (hs : s.Spells (commas ((p :: ps).map Parameter.words) ++ rest))
    (hrest : nextKind rest ≠ .comma) {Q : List VariableId → State → Prop}
    (hQ : ∀ ids s', s.Onward rest s' → List.Forall₂ (Parameter.Stands s'.arena) (p :: ps) ids →
      Q (found ++ ids) s') :
    Achieves (loop (commaStep (parameter Grammar.standard)) found) s Q := by
  induction ps generalizing p found s with
  | nil =>
      refine achieves_loop ?_
      simp only [commaStep, achieves_bind, achieves_current]
      refine (takes_parameter p).achieves hs trivial fun id s₁ h₁ hid => ?_
      rw [if_neg (by rw [h₁.spells.current_kind]; exact hrest)]
      exact achieves_pure.2 (hQ [id] s₁ h₁ (.cons hid .nil))
  | cons next ps ih =>
      simp only [List.map_cons, commas, List.append_assoc, List.cons_append] at hs
      refine achieves_loop ?_
      simp only [commaStep, achieves_bind, achieves_current]
      refine (takes_parameter p).achieves hs trivial fun id s₁ h₁ hid => ?_
      rw [if_pos (by exact h₁.spells.current_kind)]
      simp only [achieves_bind, achieves_skip, achieves_pure]
      have h₂ := h₁.skip
      refine ⟨?_, ih (found ++ [id]) h₂.spells fun ids s' h' hids => ?_⟩
      · rw [h₂.spells.length_eq, hs.length_eq]
        simp only [List.length_append, List.length_cons]
        omega
      · have hgrows := h₁.spells.advance.arena.trans h'.arena
        have hdone := hQ (id :: ids) s' (h₂.trans h') (.cons (hid.extend hgrows) hids)
        rwa [List.append_assoc, List.singleton_append]

theorem takes_parameters (ps : List Parameter) :
    Takes (parameters Grammar.standard) (commas (ps.map Parameter.words))
      (fun rest => nextKind rest = .closeParen)
      fun a ids => List.Forall₂ (Parameter.Stands a) ps ids := by
  intro s rest hs hrest
  simp only [parameters, achieves_bind, achieves_current, hs.current_kind, commaSeparated_eq]
  cases ps with
  | nil =>
      rw [if_pos (by exact hrest)]
      exact achieves_pure.2 ⟨.refl hs, .nil⟩
  | cons p ps =>
      have hname : nextKind (commas ((p :: ps).map Parameter.words) ++ rest) = .identifier := by
        cases ps <;> rfl
      rw [if_neg (by rw [hname]; decide)]
      exact achieves_parameters [] hs (by rw [hrest]; decide) fun ids s' h' hids => ⟨h', hids⟩

/-- **A routine that was written down is read back.** -/
theorem takes_routine (r : Routine) :
    Takes (routineDecl Grammar.standard) r.words (fun _ => True) fun a id => r.Stands a id := by
  intro s rest hs _
  simp only [Routine.words, List.cons_append, List.append_assoc, List.nil_append] at hs
  have h₁ := hs.advance
  have h₂ := h₁.skip
  have h₃ := h₂.skip
  simp only [routineDecl, achieves_bind, achieves_advance, achieves_expect, achieves_discard,
    achieves_spanFrom, achieves_add, h₁.spells.current_text]
  refine ⟨h₁.spells.current_kind, h₂.spells.current_kind, ?_⟩
  refine (takes_parameters r.parameters).achieves h₃.spells rfl fun ids s₄ h₄ hids => ?_
  refine ⟨h₄.spells.current_kind, ?_⟩
  have h₅ := h₄.spells.advance
  refine (takes_result r.returnType).achieves h₅.spells (by rintro ⟨⟩) fun t s₆ h₆ ht => ?_
  refine ⟨h₆.spells.current_kind, ?_⟩
  have h₇ := h₆.spells.advance
  refine (takes_body r.body).achieves h₇.spells rfl fun b s₈ h₈ hb => ?_
  have h₉ := h₈.skip
  refine ⟨h₈.spells.current_kind, (((((h₃.trans h₄).trans h₅).trans h₆).trans h₇).trans h₉).add _ _,
    ?_⟩
  have hgrows := fun node => extendedBy_added s₈.advance.2 .routine node
  have hresult := fun node => (h₇.trans h₉).arena.trans (hgrows node)
  exact ⟨_, ids, t, b, get?_added _ _ _,
    hids.imp fun _ _ hstands => hstands.extend ((h₅.trans h₆).arena.trans (hresult _)),
    ht.extend (hresult _), hb.extend (h₈.spells.advance.arena.trans (hgrows _))⟩

/-! ### Programs -/

/-- A line break between declarations is skipped. -/
theorem achieves_declarationsRound_line {found : List ProcLang.Declaration} {s : State}
    {rest : List Word} (hs : s.Spells (.of .newline :: rest))
    {Q : List ProcLang.Declaration → State → Prop}
    (h : Achieves (loop declarationsRound found) s.advance.2 Q) :
    Achieves (loop declarationsRound found) s Q := by
  refine achieves_loop ?_
  simp only [declarationsRound, achieves_bind, achieves_current, hs.current_kind, nextKind,
    Word.of_kind, achieves_skip, achieves_pure]
  exact ⟨hs.takes_token, h⟩

/-- A declaration of a program is read in one round, with the line break behind it if it is not a
routine. -/
theorem achieves_declaration {d : Declaration} {found : List ProcLang.Declaration} {s : State}
    {rest : List Word} {Q : List ProcLang.Declaration → State → Prop}
    (hs : s.Spells ((d.words ++ [.of .newline]) ++ rest)) (hQ : ∀ next s', s.Onward rest s' →
      d.Stands s'.arena next → Achieves (loop declarationsRound (found ++ [next])) s' Q) :
    Achieves (loop declarationsRound found) s Q := by
  have htakes : ∀ {words : List Word} {s₁ : State}, s₁.Spells words →
      words.length < ((d.words ++ [Word.of .newline]) ++ rest).length →
        s₁.unread.length < s.unread.length := by
    intro words s₁ h₁ hlength
    rwa [h₁.length_eq, hs.length_eq]
  refine achieves_loop ?_
  simp only [declarationsRound, achieves_bind, achieves_current]
  cases d with
  | routine r =>
      have hkind : s.current.kind = .kwRoutine := hs.current_kind
      have hs' : s.Spells (r.words ++ .of .newline :: rest) := by
        simpa [Declaration.words] using hs
      simp only [hkind, achieves_bind, achieves_pure]
      refine Achieves.recovering ?_ _ _ _
      simp only [declaration, achieves_bind, achieves_current, hkind, achieves_map, achieves_pure]
      -- the line break behind a routine is left to the next round
      refine (takes_routine r).achieves hs' trivial fun id s₁ h₁ hid => ⟨htakes h₁.spells ?_, ?_⟩
      · simp only [Declaration.words, Routine.words, List.length_append, List.length_cons]
        omega
      · exact achieves_declarationsRound_line h₁.spells
          (hQ (.routine id) _ h₁.skip (hid.extend h₁.spells.advance.arena))
  | plain d =>
      have hshorter : rest.length <
          (((Declaration.plain d).words ++ [Word.of .newline]) ++ rest).length := by
        simp only [List.length_append, List.length_singleton]
        omega
      cases d with
      | «variable» x =>
          have hkind : s.current.kind = .kwVar := by
            rw [hs.current_kind]
            cases x
            rfl
          simp only [hkind, achieves_bind, achieves_pure]
          refine Achieves.recovering ?_ _ _ _
          simp only [declaration, achieves_bind, achieves_current, hkind, achieves_map,
            achieves_pure]
          exact (takes_variable x).achieves hs trivial fun id s₁ h₁ hid =>
            ⟨htakes h₁.spells hshorter, hQ (.variable id) s₁ h₁ hid⟩
      | type name form =>
          have hkind : s.current.kind = .kwType := hs.current_kind
          simp only [hkind, achieves_bind, achieves_pure]
          refine Achieves.recovering ?_ _ _ _
          simp only [declaration, achieves_bind, achieves_current, hkind, achieves_map,
            achieves_pure]
          exact (takes_typeDecl name form).achieves hs trivial fun id s₁ h₁ hid =>
            ⟨htakes h₁.spells hshorter, hQ (.type id) s₁ h₁ hid⟩

/-- The declarations of a program, up to the end of the text. -/
theorem achieves_declarations {program : Program} {s : State} (hs : s.Spells program.words)
    {Q : List ProcLang.Declaration → State → Prop}
    (hQ : ∀ ds s', s.Onward [] s' → List.Forall₂ (Declaration.Stands s'.arena) program ds →
      Q ds s') : Achieves (loop declarationsRound []) s Q := by
  rw [← List.append_nil program.words] at hs
  refine achieves_loop_each (· ++ ·) (fun d => Declaration.words d ++ [Word.of .newline])
    Declaration.Stands List.append_nil (fun _ _ _ => by simp) (fun hab hd => hd.extend hab)
    (fun _ _ _ _ _ _ hd _ hnext => achieves_declaration hd hnext) hs (Nat.le_refl _) ?_
  intro ds s' h' hds
  have hkind : s'.current.kind = .endOfFile := h'.spells.current_kind
  refine achieves_loop ?_
  simp only [declarationsRound, achieves_bind, achieves_current, hkind, achieves_pure]
  exact hQ ds s' h' hds

/-- **Every text with the words of a program is parsed to the program**, whatever separates the
words. -/
theorem parse_of_words {source : String} {program : Program}
    (h : List.Forall₂ Token.Is (Token.tokenStream source).tokens program.words) :
    (parse source).errors = [] ∧ program.Stands (parse source).arena := by
  have hs : (ofSource source).Spells program.words := by
    refine ⟨?_, ?_⟩
    · rw [ofSource, noteComment_ending]
      exact Token.tokenStream_ending_kind source
    · rw [ofSource, noteComment_unread]
      exact h
  have hrun : Achieves (Parser.program Grammar.standard) (ofSource source) fun _ s' =>
      s'.errors = #[] ∧ program.Stands s'.arena := by
    simp only [Parser.program, declarations_eq, achieves_bind, achieves_current, achieves_spanFrom,
      achieves_modify, achieves_get, achieves_note]
    refine achieves_declarations hs fun ds s' h' hds => ⟨?_, ?_⟩
    · exact h'.errors.trans (noteComment_errors _)
    · exact hds.imp fun _ _ hstands => hstands.extend (s'.arena.extendedBy_program _)
  obtain ⟨_, s', hyields, herrors, hstands⟩ := hrun
  have hparse : (Parser.program Grammar.standard).run (ofSource source) = (.ok (), s') := hyields
  rw [parse, hparse]
  exact ⟨by rw [herrors], hstands⟩

/-- **Printing a program and parsing it gives the program back.** The text of a program has no
syntax errors, and its tree is the program up to spans and ids. -/
theorem parse_text (program : Program) :
    (parse program.text).errors = [] ∧ program.Stands (parse program.text).arena :=
  parse_of_words (Token.tokenStream_layout program.words)

end Source

end ProcLang

import ProcLang.Proofs.Account.Scopes

/-!
# ProcLang.Proofs.Redeclared.Names

**The repeated names of a list, said by position.** A declaration is reported if one in front of it has
its name, and then with the line of the first one that has it (`redeclarationAt`). Going through the list
once, with the names that were seen so far and their lines, gives the same reports (`repetitions_eq`).
-/

namespace ProcLang

open Arena

/-- The report of the declaration at a position, if one in front of it has its name. -/
def redeclarationAt (names : List (String × Position)) (i : Nat) : Option Diagnostic :=
  match names[i]? with
  | none => none
  | some (name, start) =>
      match (names.take i).find? fun earlier => earlier.1 = name with
      | none => none
      | some first => some ⟨.redeclaration name first.2.line, start⟩

/-- A report for each declaration whose name was declared before, in the order of the declarations. -/
def redeclarations (names : List (String × Position)) : List Diagnostic :=
  (List.range names.length).filterMap (redeclarationAt names)

/-- The names of declarations, and where the declarations begin. -/
def Arena.headings (a : Arena) (declared : List Declaration) : List (String × Position) :=
  declared.filterMap fun d =>
    match a.declarationName d with
    | .ok (name, span) => some (name, span.start)
    | .error _ => none

variable {a : Arena}

theorem redeclarationAt_append (front : List (String × Position)) (name : String) (start : Position)
    (rest : List (String × Position)) :
    redeclarationAt (front ++ (name, start) :: rest) front.length =
      (front.find? fun earlier => earlier.1 = name).map fun first =>
        ⟨.redeclaration name first.2.line, start⟩ := by
  rw [redeclarationAt, List.getElem?_append_right (Nat.le_refl _), Nat.sub_self, List.take_left]
  dsimp only [List.getElem?_cons_zero]
  cases front.find? fun earlier => earlier.1 = name <;> rfl

/-- The names that were seen are those in front, each with the line of its first declaration. -/
theorem repetitionsAfter_eq {rest front : List (String × Position)} {seen : List (String × Nat)}
    (hseen : ∀ name, seen.lookup name =
      (front.find? fun earlier => earlier.1 = name).map fun first => first.2.line) :
    repetitionsAfter seen rest =
      (List.range' front.length rest.length).filterMap (redeclarationAt (front ++ rest)) := by
  induction rest generalizing front seen with
  | nil => rfl
  | cons entry rest ih =>
      obtain ⟨name, start⟩ := entry
      have hlast : ∀ {seen'}, (∀ other, seen'.lookup other =
          ((front.find? fun earlier => earlier.1 = other) <|>
            if name = other then some (name, start) else none).map fun first => first.2.line) →
          repetitionsAfter seen' rest = (List.range' (front.length + 1) rest.length).filterMap
            (redeclarationAt (front ++ (name, start) :: rest)) := by
        intro seen' hseen'
        have hmore := @ih (front ++ [(name, start)]) seen' fun other => by
          rw [hseen' other, List.find?_append]
          by_cases hsame : name = other <;> simp [hsame]
        rwa [List.append_assoc, List.length_append] at hmore
      rw [repetitionsAfter, List.length_cons, List.range'_succ, List.filterMap_cons,
        redeclarationAt_append, hseen name]
      cases hfound : front.find? fun earlier => earlier.1 = name with
      | some first =>
          dsimp only [Option.map_some]
          refine congrArg _ (hlast fun other => ?_)
          rw [hseen other]
          by_cases hsame : name = other
          · rw [← hsame, hfound]
            rfl
          · simp [hsame]
      | none =>
          dsimp only [Option.map_none]
          refine hlast fun other => ?_
          by_cases hsame : name = other
          · rw [← hsame, hfound]
            simp
          · rw [List.lookup_cons, hseen other]
            have hne : (other == name) = false := beq_false_of_ne fun heq => hsame heq.symm
            simp [hne, hsame]

/-- **Repeated names are found by going through the list once.** -/
theorem repetitions_eq (names : List (String × Position)) : repetitions names = redeclarations names := by
  rw [repetitions, redeclarations, List.range_eq_range']
  exact @repetitionsAfter_eq names [] [] fun name => rfl

theorem headings_eq (declared : List Declaration) :
    a.headings declared = (a.entries declared).map fun entry => (entry.name, entry.start) := by
  rw [headings, entries, List.map_filterMap]
  refine List.filterMap_congr fun d _ => ?_
  cases a.declarationName d <;> rfl

/-- The remarks on repeated names are reported at the declarations. -/
theorem reports_redeclarations (declared : List Declaration) :
    List.Forall₂ a.Reports (a.repeated declared) (redeclarations (a.headings declared)) := by
  rw [← repetitions_eq, headings_eq]
  exact reports_repeated a declared

end ProcLang

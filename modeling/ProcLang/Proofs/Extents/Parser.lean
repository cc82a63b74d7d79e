import ProcLang.Proofs.Extents.Operands

/-!
# ProcLang.Proofs.Extents.Parser

**The parser lays nodes where their tokens are** (`parse_laid`). What is read between two states lies
between the token that is current in the first one and the token that was taken last in the second one
(`State.Lays`), and what is read behind it lies behind it. A body is an exception: it may take no token at
all, and so it only lies between the word that opens it and the word that closes it.
-/

namespace ProcLang

open Arena Token

open scoped Position

namespace Parser

open State Source

variable {source : String} {α β σ : Type} {s₀ s s₁ s' : State} {vs ws : List Visit}

/-! ### What was read between two states -/

/-- Some nodes lie between the token that was current and the token that was taken last. -/
def State.Lays (s : State) (vs : List Visit) (s' : State) : Prop :=
  s'.arena.Ranged s.current.start vs s'.lastStop

namespace State.Lays

theorem nil : s.Lays [] s' := Ranged.nil

theorem earlier (hleads : s₀.Leads source s) (h : s.Lays vs s') : s₀.Lays vs s' :=
  Ranged.widen h hleads.start_le (le_refl _)

theorem later (h : s.Lays vs s₁) (hleads : s₁.Leads source s') : s.Lays vs s' :=
  (Ranged.extend h hleads.arena).widen (le_refl _) hleads.stop_le

theorem append (hleads : s.Leads source s₁) (h : s.Lays vs s₁) (hleads' : s₁.Leads source s')
    (h' : s₁.Lays ws s') : s.Lays (vs ++ ws) s' :=
  (Ranged.extend h hleads'.arena).append h' hleads'.before.lastStop_le hleads.start_le
    hleads'.stop_le

end State.Lays

/-- A parser lays the nodes `f x` if it gives `x`. -/
abbrev LaysNodes (source : String) (f : α → List Visit) (p : Parser α) (s : State) : Prop :=
  Measures source p s fun x s' => s.Lays (f x) s'

/-- The last taken token opens a body. -/
def State.Opened (source : String) (s : State) : Prop :=
  ∃ before opening, (tokenStream source).tokens = before ++ opening :: s.unread ∧
    opening.kind ∈ [.kwIs, .kwLoop, .kwThen, .kwElse]

theorem State.Measured.opened (h : s.Measured source)
    (hkind : s.current.kind ∈ [.kwIs, .kwLoop, .kwThen, .kwElse]) : s.advance.2.Opened source := by
  obtain ⟨taken, htokens, -⟩ := h.taken
  have hend : s.current.kind ≠ .endOfFile := by
    rintro heq
    rw [heq] at hkind
    exact absurd hkind (by decide)
  exact ⟨taken, s.current, by rw [htokens, ← (h.unread_advance hend).1], hkind⟩

/-- Some bodies lie between the token that was taken last and the token that is current now. -/
def State.Holds (s : State) (vs : List Visit) (s' : State) : Prop :=
  s'.arena.Ranged s.lastStop vs s'.current.start

/-- A body lies behind the word that opens it and in front of the word that closes it. -/
theorem State.Holds.lays {s₂ s₃ : State} (h : s₁.Holds vs s₂) (hopening : s.current.start ≤ s₁.lastStop)
    (hclosing : s₂.current.start ≤ s₃.lastStop) (hleads : s₂.Leads source s₃) : s.Lays vs s₃ :=
  (Ranged.extend h hleads.arena).widen hopening hclosing

/-! ### Adding nodes -/

/-- **A node is added** whose span reaches from the first to the last of what it owns. -/
theorem add_measures {family : Family} {node : Node family} {p q : Position} (hs : s.Measured source)
    (hplain : family ≠ .expression ∧ family ≠ .body) (hspan : Node.span family node = ⟨p, q⟩)
    (hlt : p < q) (howned : s.arena.Ranged p (Node.written family node) q) :
    Measures source (add family node) s fun id s' =>
      s'.unread = s.unread ∧ s'.arena.Ranged p [Visit.of id] q := by
  have hext := s.arena.extendedBy_add family node
  have hlaid : Node.Laid source (s.added family node).arena family (s.arena.add family node).1 node := by
    have hboth : (Node.span family node).start < (Node.span family node).stop ∧
        (s.added family node).arena.Ranged (Node.span family node).start (Node.written family node)
          (Node.span family node).stop := by
      rw [hspan]
      exact ⟨hlt, howned.extend hext⟩
    cases family with
    | expression => exact absurd rfl hplain.1
    | body => exact absurd rfl hplain.2
    | _ => exact hboth
  refine (Measures.add hs hlaid).imp fun id s' _ heq => ?_
  obtain ⟨rfl, rfl⟩ := heq
  have hget := s.arena.get?_add family node
  refine ⟨rfl, .singleton (span?_of hget) ?_⟩
  rw [hspan]
  exact ⟨le_refl _, le_of_lt hlt, le_of_lt hlt, le_refl _⟩

/-- A node is added whose span reaches from one state to a later one. -/
theorem add_lays {family : Family} {node : Node family} (hleads : s₁.Leads source s')
    (hplain : family ≠ .expression ∧ family ≠ .body)
    (hspan : Node.span family node = ⟨s.current.start, s₁.lastStop⟩)
    (hlt : s.current.start < s₁.lastStop) (howned : s.Lays (Node.written family node) s₁) :
    Measures source (add family node) s' fun id s'' => s.Lays [Visit.of id] s'' := by
  have howned' := Ranged.extend howned hleads.arena
  refine (add_measures hleads.after hplain hspan hlt howned').imp fun id s'' hadd hid => ?_
  exact hid.2.widen (le_refl _) (hleads.trans hadd).stop_le

/-! ### Types and declarations of variables -/

theorem terminator_measures (hs : s.Measured source) :
    Measures source terminator s fun _ _ => True := by
  refine .current_bind ?_
  split
  · exact .discard ((Measures.advance hs).imp fun _ _ _ _ => trivial)
  · exact .discard ((Measures.advance hs).imp fun _ _ _ _ => trivial)
  · exact .pure hs trivial
  · exact .pure hs trivial
  · exact .pure hs trivial
  · exact .reject hs _

/-- An expression lies where it was read. -/
theorem State.ReadsOperand.lays {placed : Placed} (hleads : s.Leads source s')
    (h : s.ReadsOperand placed s') :
    s.Lays [.expression placed.id] s' ∧ s.current.start < s'.lastStop := by
  obtain ⟨front, core, behind, hunread, hread, -⟩ := h
  obtain ⟨w, hreads⟩ := hleads.reads
  have hw : w = front ++ core ++ behind := by
    rw [← List.append_left_inj s'.unread, ← hreads.unread, hunread]
  have hbetween := hleads.between hreads
  refine ⟨hread.ranged_operand (hbetween.subset fun token ht => by simp [hw, ht]), ?_⟩
  obtain ⟨first, rest, hfirst⟩ := List.exists_cons_of_ne_nil (l := w) (by simp [hw, hread.exists_node.1])
  have hcurrent : s.current = first := current_of_unread (by rw [hreads.unread, hfirst]; rfl)
  have hline := hread.newline_not_mem first (by rw [Part.tokens, ← hw, hfirst]; simp)
  have hmem : first ∈ (tokenStream source).tokens := by
    obtain ⟨taken, htokens, -⟩ := hleads.before.taken
    rw [htokens, hreads.unread, hfirst]
    simp
  rw [hcurrent]
  exact lt_of_lt_of_le (start_lt_stop hmem hline) (hbetween first (by simp [hfirst])).2

theorem expression_lays (power : BindingPower) (hs : s.Measured source) :
    LaysNodes source (fun placed => [.expression placed.id]) (expression Grammar.standard power) s :=
  (expression_measures power s hs).imp fun _ _ hleads hread => (hread.lays hleads).1

theorem initializer_lays (hs : s.Measured source) :
    LaysNodes source (fun value => value.toList.map .expression) (initializer Grammar.standard) s := by
  refine .current_bind ?_
  split
  · refine .skip_bind hs fun hskip => ?_
    refine (expression_lays .loosest hskip.after).bind fun value s₁ hvalue hlays => ?_
    exact .pure hvalue.after (hlays.earlier hskip)
  · exact .pure hs .nil

theorem arrayLength_lays (hs : s.Measured source) :
    LaysNodes source (fun length => length.toList.map .expression) (arrayLength Grammar.standard) s := by
  refine .current_bind ?_
  split
  · refine .skip_bind hs fun hskip => ?_
    refine (expression_lays .loosest hskip.after).bind fun length s₁ hlength hlays => ?_
    refine .discard_expect_bind hlength.after fun _ hclose => .pure hclose.after ?_
    exact (hlays.earlier hskip).later hclose
  · exact .pure hs .nil

section

/-- A parser for nested types does what it should. -/
abbrev LaysTypes (source : String) (type : Parser TypeId) : Prop :=
  ∀ s, s.Measured source → LaysNodes source (fun id => [.type id]) type s

variable {type : Parser TypeId} (htype : LaysTypes source type)

include htype

theorem annotation_lays (hs : s.Measured source) :
    LaysNodes source (fun id => id.toList.map .type) ( annotation type) s := by
  refine .current_bind ?_
  split
  · exact .skip_bind hs fun hskip => .map ((htype _ hskip.after).imp fun _ _ _ hlays =>
      hlays.earlier hskip)
  · exact .pure hs .nil

theorem variableDeclWith_lays (hs : s.Measured source) (hkind : s.current.kind = .kwVar) :
    LaysNodes source (fun id => [.variable id]) (variableDeclWith Grammar.standard type) s := by
  have hlt := hs.start_lt_lastStop (by rw [hkind]; nofun) (by rw [hkind]; nofun)
  refine .advance_bind hs fun hvar => .expect_bind hvar.after fun _ hname => ?_
  refine (annotation_lays htype hname.after).bind fun declared s₁ htyped hdeclared => ?_
  refine (initializer_lays htyped.after).bind fun value s₂ hinitializer hvalue => ?_
  have hbefore := hvar.trans hname
  refine .spanFrom_bind ((terminator_measures hinitializer.after).bind fun _ s₃ hterminator _ => ?_)
  refine add_lays hterminator (by decide) rfl
    (lt_of_lt_of_le hlt (hname.trans (htyped.trans hinitializer)).stop_le) ?_
  exact (hdeclared.earlier hbefore).append (hbefore.trans htyped) hinitializer hvalue

theorem fieldRound_lays {fields : List VariableId} (hleads : s₀.Leads source s)
    (hfields : s₀.Lays (fields.map .variable) s) :
    Measures source (fieldRound type fields) s (Measures.RoundLeaves
      (fun fields s' => s₀.Lays (fields.map .variable) s')
      fun fields s' => s₀.Lays (fields.map .variable) s') := by
  have hs := hleads.after
  refine .current_bind ?_
  split
  · exact .skip_bind hs fun hskip => .pure hskip.after (hfields.later hskip)
  · exact .skip_bind hs fun hskip => .pure hskip.after (hfields.later hskip)
  · rename_i hkind
    refine (variableDeclWith_lays htype hs hkind).bind fun id s₁ hfield hlays => ?_
    refine .pure hfield.after ?_
    rw [Measures.RoundLeaves, List.map_append]
    exact hfields.append hleads hfield hlays
  · exact .pure hs hfields

theorem recordFields_lays (hs : s.Measured source) :
    LaysNodes source (fun fields => fields.map .variable) (recordFields Grammar.standard type) s := by
  rw [recordFields_eq]
  exact .loop hs .nil fun fields s₁ hleads hlays => fieldRound_lays htype hleads hlays

theorem typeByRule_lays {rule : TypeRule} (hs : s.Measured source)
    (hrule : Grammar.standardType s.current.kind = some rule) :
    LaysNodes source (fun id => [.type id]) (typeByRule Grammar.standard type rule) s := by
  have hend : s.current.kind ≠ .endOfFile := fun heq => by rw [heq] at hrule; cases hrule
  have hline : s.current.kind ≠ .newline := fun heq => by rw [heq] at hrule; cases hrule
  have hlt := hs.start_lt_lastStop hend hline
  have hstop := (hs.unread_advance hend).2
  cases rule with
  | primitive =>
      refine .advance_bind hs fun htake => ?_
      refine add_lays htake.after.leads (by decide) ?_ hlt ?_
      · rw [hstop]
        rfl
      · -- no primitive type owns anything
        have hnothing : ∀ {kind : TypeKind}, kind ∈ [.integer, .real, .boolean] →
            Node.written .type ⟨s.current.span, kind⟩ = [] := by
          simp [Node.written, Node.children]
        refine hnothing ?_ ▸ Lays.nil
        split <;> simp
  | named =>
      refine .expect_bind hs fun _ htake => ?_
      refine add_lays htake.after.leads (by decide) ?_ hlt .nil
      rw [hstop]
      rfl
  | array =>
      refine .advance_bind hs fun hopen => ?_
      refine (arrayLength_lays hopen.after).bind fun length s₁ hlength hlays => ?_
      refine (htype _ hlength.after).bind fun element s₂ helement hlays' => .spanFrom_bind ?_
      have hleads := hlength.trans helement
      refine add_lays hleads.after.leads (by decide) rfl
        (lt_of_lt_of_le hlt hleads.stop_le) ?_
      exact ((hlays.append hlength helement hlays').earlier hopen)
  | record =>
      refine .advance_bind hs fun hopen => ?_
      refine (recordFields_lays htype hopen.after).bind fun fields s₁ hfields hlays => ?_
      refine .discard_expect_bind hfields.after fun _ hclose => .spanFrom_bind ?_
      have hleads := hfields.trans hclose
      refine add_lays hclose.after.leads (by decide) rfl
        (lt_of_lt_of_le hlt hleads.stop_le) ?_
      exact (hlays.later hclose).earlier hopen

theorem typeStep_lays (hs : s.Measured source) :
    LaysNodes source (fun id => [.type id]) (typeStep Grammar.standard type) s := by
  refine .current_bind ?_
  split
  · exact .reject hs _
  · rename_i rule hrule
    exact typeByRule_lays htype hs hrule

end

theorem type_lays : LaysTypes source (type Grammar.standard) := fun _ hs =>
  .recursive (P := fun _ => True) (T := fun s id s' => s.Lays [.type id] s')
    (fun _ hself _ _ hs _ => typeStep_lays (fun _ hs => hself () _ hs trivial) hs) () hs trivial

theorem variableDecl_lays (hs : s.Measured source) (hkind : s.current.kind = .kwVar) :
    LaysNodes source (fun id => [.variable id]) (variableDecl Grammar.standard) s :=
  variableDeclWith_lays type_lays hs hkind

theorem typeDecl_lays (hs : s.Measured source) (hkind : s.current.kind = .kwType) :
    LaysNodes source (fun id => [.typeDecl id]) (typeDecl Grammar.standard) s := by
  have hlt := hs.start_lt_lastStop (by rw [hkind]; nofun) (by rw [hkind]; nofun)
  refine .advance_bind hs fun hopen => .expect_bind hopen.after fun _ hname => ?_
  refine .discard_expect_bind hname.after fun _ his => ?_
  refine (type_lays _ his.after).bind fun id s₁ htype hlays => .spanFrom_bind ?_
  refine (terminator_measures htype.after).bind fun _ s₂ hterminator _ => ?_
  refine add_lays hterminator (by decide) rfl
    (lt_of_lt_of_le hlt (hname.trans (his.trans htype)).stop_le) ?_
  exact hlays.earlier (hopen.trans (hname.trans his))

/-! ### Statements -/

/-- A statement that is an assignment or a call begins where its first expression is read. -/
theorem expressionStatement_lays (hs : s.Measured source) :
    LaysNodes source (fun id => [.statement id]) (expressionStatement Grammar.standard) s := by
  refine .current_bind ?_
  refine (expression_measures .loosest s hs).bind fun first s₁ hfirst hread => .current_bind ?_
  obtain ⟨hlays, hlt⟩ := hread.lays hfirst
  split
  · refine .skip_bind hfirst.after fun hassign => ?_
    refine (expression_lays .loosest hassign.after).bind fun value s₂ hvalue hlays' => .spanFrom_bind ?_
    have hrest := hassign.trans hvalue
    have howned : s.Lays ([.expression first.id] ++ [.expression value.id]) s₂ :=
      hlays.append hfirst hrest (hlays'.earlier hassign)
    exact add_lays hvalue.after.leads (by decide) rfl (lt_of_lt_of_le hlt hrest.stop_le) howned
  · split
    · exact .spanFrom_bind (add_lays hfirst.after.leads (by decide) rfl hlt hlays)
    · exact .raise hfirst.after _

theorem resultValue_lays (hs : s.Measured source) :
    LaysNodes source (fun value => value.toList.map .expression) (resultValue Grammar.standard) s := by
  refine .current_bind ?_
  split
  all_goals first
    | exact .pure hs .nil
    | exact (expression_lays .loosest hs).bind fun value s₁ hvalue hlays => .pure hvalue.after hlays

theorem returning_lays (hs : s.Measured source) (hlt : s.current.start < s.advance.2.lastStop) :
    LaysNodes source (fun id => [.statement id]) (returning Grammar.standard) s := by
  refine .advance_bind hs fun hreturn => ?_
  refine (resultValue_lays hreturn.after).bind fun value s₁ hvalue hlays => .spanFrom_bind ?_
  refine add_lays hvalue.after.leads (by decide) rfl (lt_of_lt_of_le hlt hvalue.stop_le) ?_
  have hwritten : Node.written .statement ⟨⟨s.current.start, s₁.lastStop⟩, .returning value⟩ =
      value.toList.map .expression := by
    simp [Node.written, StatementKind.counter?, StatementKind.expressions, StatementKind.bodies]
  exact hwritten ▸ hlays.earlier hreturn

/-- The counter of a loop and its type lie where its name does. -/
theorem counter_measures {name : Token} (hs : s.Measured source) (hlt : name.start < name.stop) :
    Measures source (counter name) s fun id s' =>
      s'.unread = s.unread ∧ s'.arena.Ranged name.start [.variable id] name.stop := by
  have htype : Measures source (add .type ⟨name.span, .integer⟩) s fun id s' =>
      s'.unread = s.unread ∧ s'.arena.Ranged name.start [.type id] name.stop :=
    add_measures hs (by decide) rfl hlt .nil
  refine htype.bind fun type s₁ hleads hlaid => ?_
  have hvariable : Measures source (add .variable ⟨name.span, name.text, some type, none⟩) s₁
      fun id s' => s'.unread = s₁.unread ∧ s'.arena.Ranged name.start [.variable id] name.stop :=
    add_measures hleads.after (by decide) rfl hlt hlaid.2
  exact hvariable.imp fun id s₂ _ hid => ⟨hid.1.trans hlaid.1, hid.2⟩

section

/-- A parser for nested bodies does what it should, behind a word that opens a body. -/
abbrev HoldsBodies (source : String) (body : Parser BodyId) : Prop :=
  ∀ s, s.Measured source → s.Opened source →
    Measures source body s fun id s' => s.Holds [.body id] s' ∧ s'.current.kind ∈ [.kwEnd, .kwElse]

variable {body : Parser BodyId} (hbody : HoldsBodies source body)

include hbody

theorem closedBody_measures (hs : s.Measured source) (hopened : s.Opened source) :
    Measures source (closedBody body) s fun id s' =>
      s'.arena.Ranged s.lastStop [.body id] s'.lastStop := by
  refine (hbody s hs hopened).bind fun id s₁ hinner hholds => ?_
  refine .discard_expect_bind hinner.after fun hend hclose => .pure hclose.after ?_
  have hclosing := hinner.after.start_le_lastStop (by rw [hend]; nofun)
  exact (Ranged.extend hholds.1 hclose.arena).widen (le_refl _) hclosing

theorem whileLoop_lays (hs : s.Measured source) (hlt : s.current.start < s.advance.2.lastStop) :
    LaysNodes source (fun id => [.statement id]) (whileLoop Grammar.standard body) s := by
  refine .advance_bind hs fun hwhile => ?_
  refine (expression_lays .loosest hwhile.after).bind fun condition s₁ hcondition hlays => ?_
  refine .discard_expect_bind hcondition.after fun hkind hloop => ?_
  have hopening := hcondition.after.start_le_lastStop (by rw [hkind]; nofun)
  refine (closedBody_measures hbody hloop.after
    (hcondition.after.opened (by rw [hkind]; decide))).bind fun inner s₂ hinner hbody => ?_
  have hrest := hloop.trans hinner
  refine .spanFrom_bind (add_lays hinner.after.leads (by decide) rfl
    (lt_of_lt_of_le hlt (hcondition.trans hrest).stop_le) ?_)
  exact (hlays.earlier hwhile).append (hwhile.trans hcondition) hrest
    (hbody.widen hopening (le_refl _))

/-- The bounds and the body of a loop, behind the name of its counter. -/
theorem forBounds_lays {name : Token} {reverse : Bool} (hleads : s.Leads source s₁)
    (hname : name.start < name.stop) (hstart : s.current.start ≤ name.start)
    (hstop : name.stop ≤ s₁.lastStop) :
    Measures source (do
      let first ← expression Grammar.standard .loosest
      discard <| expect .dotDot "`..`"
      let last ← expression Grammar.standard .loosest
      discard <| expect .kwLoop "`loop`"
      let counter ← counter name
      let inner ← closedBody body
      let span ← spanFrom s.current.start
      Parser.add .statement ⟨span, .forLoop counter first.id last.id reverse inner⟩) s₁
      fun id s' => s.Lays [.statement id] s' := by
  refine (expression_lays .loosest hleads.after).bind fun first s₂ hfirst hlays => ?_
  refine .discard_expect_bind hfirst.after fun _ hdots => ?_
  refine (expression_lays .loosest hdots.after).bind fun last s₃ hlast hlays' => ?_
  refine .discard_expect_bind hlast.after fun hkind hloop => ?_
  have hopening := hlast.after.start_le_lastStop (by rw [hkind]; nofun)
  refine (counter_measures hloop.after hname).bind fun counter s₄ hcounter hlaid => ?_
  have hopened : s₄.Opened source := by
    obtain ⟨before, opening, htokens, hopens⟩ := hlast.after.opened (by rw [hkind]; decide)
    exact ⟨before, opening, hlaid.1 ▸ htokens, hopens⟩
  refine (closedBody_measures hbody hcounter.after hopened).bind fun inner s₅ hinner hholds => ?_
  have hbounds : s₁.Lays ([.expression first.id] ++ [.expression last.id]) s₃ :=
    hlays.append hfirst (hdots.trans hlast) (hlays'.earlier hdots)
  have hrest := (hloop.trans hcounter).trans hinner
  have hbehind : s₁.Lays ([.expression first.id] ++ [.expression last.id] ++ [.body inner]) s₅ :=
    hbounds.append (hfirst.trans (hdots.trans hlast)) hrest
      (hholds.widen (le_trans hopening hcounter.stop_le) (le_refl _))
  -- the counter is added behind the bounds, but its name stands in front of them
  have howned : s₅.arena.Ranged s.current.start ([.variable counter] ++
      ([.expression first.id] ++ [.expression last.id] ++ [.body inner])) s₅.lastStop := by
    have hbetween := (hfirst.trans (hdots.trans hlast)).trans hrest
    refine ((hlaid.2.extend hinner.arena).widen hstart hstop).append hbehind
      hleads.after.lastStop_le hleads.start_le hbetween.stop_le
  have hlt : s.current.start < s₅.lastStop := by
    have hlast := ((hfirst.trans (hdots.trans hlast)).trans hrest).stop_le
    exact lt_of_le_of_lt hstart (lt_of_lt_of_le hname (le_trans hstop hlast))
  refine .spanFrom_bind (add_lays hinner.after.leads (by decide) rfl hlt ?_)
  simpa [State.Lays, Node.written, StatementKind.counter?, StatementKind.expressions,
    StatementKind.bodies] using howned

theorem forLoop_lays (hs : s.Measured source) :
    LaysNodes source (fun id => [.statement id]) (forLoop Grammar.standard body) s := by
  refine .advance_bind hs fun hfor => .expect_bind hfor.after fun hkind hname => ?_
  have hnamed : s.advance.2.current.start < s.advance.2.current.stop := by
    rw [← (hfor.after.unread_advance (by rw [hkind]; nofun)).2]
    exact hfor.after.start_lt_lastStop (by rw [hkind]; nofun) (by rw [hkind]; nofun)
  have hstop := (hfor.after.unread_advance (by rw [hkind]; nofun)).2
  refine .discard_expect_bind hname.after fun _ hin => .current_bind ?_
  have hleads := hfor.trans (hname.trans hin)
  dsimp only
  split
  · refine .skip_bind hin.after fun hskip => ?_
    exact forBounds_lays hbody (hleads.trans hskip) hnamed hfor.start_le
      (hstop ▸ (hin.trans hskip).stop_le)
  · exact forBounds_lays hbody hleads hnamed hfor.start_le (hstop ▸ hin.stop_le)

theorem elseBranch_measures (hs : s.Measured source) :
    Measures source (elseBranch body) s fun id s' =>
      s'.arena.Ranged s.current.start (id.toList.map .body) s'.current.start := by
  refine .current_bind ?_
  split
  · rename_i helse
    have hopening := hs.start_le_lastStop (by rw [helse]; nofun)
    refine .skip_bind hs fun hskip => .map ?_
    refine (hbody _ hskip.after (hs.opened (by rw [helse]; decide))).imp fun id s₁ _ hholds => ?_
    exact hholds.1.widen hopening (le_refl _)
  · exact .pure hs .nil

theorem branch_lays (hs : s.Measured source) (hlt : s.current.start < s.advance.2.lastStop) :
    LaysNodes source (fun id => [.statement id]) (branch Grammar.standard body) s := by
  refine .advance_bind hs fun hif => ?_
  refine (expression_lays .loosest hif.after).bind fun condition s₁ hcondition hlays => ?_
  refine .discard_expect_bind hcondition.after fun hkind hthen => ?_
  have hopening := hcondition.after.start_le_lastStop (by rw [hkind]; nofun)
  refine (hbody _ hthen.after (hcondition.after.opened (by rw [hkind]; decide))).bind
    fun thenBody s₂ hfirst hholds => ?_
  refine (elseBranch_measures hbody hfirst.after).bind fun elseBody s₃ helse hsecond => ?_
  refine .discard_expect_bind helse.after fun hend hclose => .spanFrom_bind ?_
  have hclosing := helse.after.start_le_lastStop (by rw [hend]; nofun)
  have hbodies : s₃.arena.Ranged s₁.current.start ([.body thenBody] ++ elseBody.toList.map .body)
      s₃.current.start :=
    ((Ranged.extend hholds.1 helse.arena).widen hopening (le_refl _)).append hsecond (le_refl _)
      (hthen.trans hfirst).start_le helse.start_le
  have hrest := hthen.trans (hfirst.trans (helse.trans hclose))
  refine add_lays hclose.after.leads (by decide) rfl
    (lt_of_lt_of_le hlt (hcondition.trans hrest).stop_le) ?_
  exact (hlays.earlier hif).append (hif.trans hcondition) hrest
    ((hbodies.extend hclose.arena).widen (le_refl _) hclosing)

theorem statementWith_lays (hs : s.Measured source) :
    LaysNodes source (fun id => [.statement id]) (statementWith Grammar.standard body) s := by
  refine .current_bind ?_
  split
  · rename_i rule hrule
    have hlt : s.current.start < s.advance.2.lastStop := by
      refine hs.start_lt_lastStop (fun heq => ?_) (fun heq => ?_)
      · rw [heq] at hrule
        cases hrule
      · rw [heq] at hrule
        cases hrule
    cases rule with
    | whileLoop => exact whileLoop_lays hbody hs hlt
    | forLoop => exact forLoop_lays hbody hs
    | branch => exact branch_lays hbody hs hlt
    | returning => exact returning_lays hs hlt
  · exact expressionStatement_lays hs

/-! ### Bodies -/

/-- The items of a body that were read since it began lie between its first token and the one that was
taken last, interleaved as they are written. -/
def State.Collects (s : State) (items : BodyItems) (s' : State) : Prop :=
  ∃ written, s.Lays written s' ∧ (items.declarations.map Declaration.visit).Sublist written ∧
    (items.statements.map Visit.statement).Sublist written

omit hbody in
theorem State.Collects.later {items : BodyItems} (h : s.Collects items s₁)
    (hleads : s₁.Leads source s') : s.Collects items s' := by
  obtain ⟨written, hlays, hsub⟩ := h
  exact ⟨written, hlays.later hleads, hsub⟩

omit hbody in
/-- One more item is written behind the others. -/
theorem State.Collects.snoc {items next : BodyItems} {v : Visit} (hleads : s.Leads source s₁)
    (h : s.Collects items s₁) (hleads' : s₁.Leads source s') (hv : s₁.Lays [v] s')
    (hdeclarations : next.declarations.map Declaration.visit =
        items.declarations.map Declaration.visit ++ [v] ∨ next.declarations = items.declarations)
    (hstatements : next.statements.map Visit.statement =
        items.statements.map Visit.statement ++ [v] ∨ next.statements = items.statements) :
    s.Collects next s' := by
  obtain ⟨written, hlays, hdeclared, hstated⟩ := h
  have hsub : ∀ {xs ys : List Visit}, xs.Sublist written → ys = xs ++ [v] ∨ ys = xs →
      ys.Sublist (written ++ [v]) := by
    rintro xs ys hxs (rfl | rfl)
    · exact hxs.append_right _
    · exact hxs.trans (List.sublist_append_left ..)
  exact ⟨written ++ [v], hlays.append hleads hleads' hv, hsub hdeclared (hdeclarations.imp_right
    fun heq => by rw [heq]), hsub hstated (hstatements.imp_right fun heq => by rw [heq])⟩

theorem bodyItem_measures {items : BodyItems} (hleads : s₀.Leads source s)
    (hitems : s₀.Collects items s) :
    Measures source (bodyItem Grammar.standard body items) s fun next s' => s₀.Collects next s' := by
  have hs := hleads.after
  refine .current_bind ?_
  split
  · rename_i hkind
    refine (variableDecl_lays hs hkind).bind fun id s₁ hnext hlays => .pure hnext.after ?_
    exact hitems.snoc hleads hnext hlays (Or.inl (by simp [Declaration.visit])) (Or.inr rfl)
  · rename_i hkind
    refine (typeDecl_lays hs hkind).bind fun id s₁ hnext hlays => .pure hnext.after ?_
    exact hitems.snoc hleads hnext hlays (Or.inl (by simp [Declaration.visit])) (Or.inr rfl)
  · exact .refuse hs _
  · refine (statementWith_lays hbody hs).bind fun id s₁ hnext hlays => .pure hnext.after ?_
    exact hitems.snoc hleads hnext hlays (Or.inr rfl) (Or.inl (by simp))

/-- The loop over the items ends in front of a word that closes the body. -/
theorem bodyRound_measures {items : BodyItems} (hleads : s₀.Leads source s)
    (hitems : s₀.Collects items s) :
    Measures source (bodyRound body items) s (Measures.RoundLeaves
      (fun items s' => s₀.Collects items s')
      fun items s' => s₀.Collects items s' ∧ s'.current.kind ∈ [.kwEnd, .kwElse]) := by
  have hs := hleads.after
  refine .current_bind ?_
  split
  · exact .skip_bind hs fun hskip => .pure hskip.after (hitems.later hskip)
  · exact .skip_bind hs fun hskip => .pure hskip.after (hitems.later hskip)
  · rename_i hkind
    exact .pure hs ⟨hitems, by rw [hkind]; decide⟩
  · rename_i hkind
    exact .pure hs ⟨hitems, by rw [hkind]; decide⟩
  · exact .current_bind (.raise hs _)
  · refine (Measures.recovering (bodyItem_measures hbody hleads hitems)
      (fun s' hnext => hitems.later hnext) _ _).bind fun next s₁ hnext hcollects => ?_
    exact .pure hnext.after hcollects

omit hbody in
/-- What is read behind a word that opens a body, up to a word that closes it. -/
theorem enclosed {node : Body} (hleads : s.Leads source s₁) (hopened : s.Opened source)
    (hcloses : s₁.current.kind ∈ [.kwEnd, .kwElse])
    (hspan : node.span = ⟨s.current.start, s₁.lastStop⟩) : Body.Enclosed source node := by
  obtain ⟨inner, hreads⟩ := hleads.reads
  have hend : s₁.current.kind ≠ .endOfFile := fun heq => by simp [heq] at hcloses
  obtain ⟨hclosing, -⟩ := hleads.after.unread_advance hend
  obtain ⟨before, opening, htokens, hopens⟩ := hopened
  have hunread : s.unread = inner ++ s₁.current :: s₁.advance.2.unread := by
    rw [hreads.unread, ← hclosing]
  refine ⟨before, opening, inner, s₁.current, s₁.advance.2.unread, by rw [htokens, hunread], hopens,
    hcloses, ?_⟩
  have hstart : s.current.start = startOf (inner ++ [s₁.current]) := by
    rw [State.current, hunread]
    cases inner <;> rfl
  obtain ⟨taken, htaken, hlast⟩ := hleads.after.taken
  have hall : taken = before ++ opening :: inner := by
    rw [← List.append_left_inj s₁.unread, ← htaken, htokens, hreads.unread]
    simp
  rw [hspan, hstart, hlast, hall, stopOf_append (by simp)]

omit hbody in
theorem addBody_measures {node : Body} (hs : s.Measured source) (henclosed : Body.Enclosed source node)
    (hfilled : Body.Filled s.arena node) : Measures source (add .body node) s fun id s' =>
      s'.arena.span? (.body id) = some node.span ∧ s'.current = s.current := by
  obtain ⟨written, hwritten, hsub⟩ := hfilled
  have hlaid : Node.Laid source (s.added .body node).arena .body (s.arena.add .body node).1 node :=
    ⟨henclosed, written, hwritten.extend (s.arena.extendedBy_add .body node), hsub⟩
  refine (Measures.add hs hlaid).imp fun id s' _ heq => ?_
  obtain ⟨rfl, rfl⟩ := heq
  exact ⟨span?_of (s.arena.get?_add .body node), rfl⟩

/-- **A body is enclosed** by the words that open and close it. -/
theorem bodyStep_measures (hs : s.Measured source) (hopened : s.Opened source) :
    Measures source (bodyStep Grammar.standard body) s fun id s' =>
      s.Holds [.body id] s' ∧ s'.current.kind ∈ [.kwEnd, .kwElse] := by
  have hloop : Measures source (bodyItems Grammar.standard body) s fun items s' =>
      s.Collects items s' ∧ s'.current.kind ∈ [.kwEnd, .kwElse] := by
    rw [bodyItems_eq]
    exact .loop (I := fun items s' => s.Collects items s') hs ⟨[], .nil, .slnil, .slnil⟩
      fun items s₁ hleads hitems => bodyRound_measures hbody hleads hitems
  refine .current_bind (hloop.bind fun items s₁ hleads hitems => .spanFrom_bind ?_)
  obtain ⟨⟨written, hlays, hsub⟩, hcloses⟩ := hitems
  have hs₁ := hleads.after
  refine (Measures.note hs₁ _).bind fun _ s₂ hnote heq => ?_
  subst heq
  have henclosed : Body.Enclosed source
      ⟨⟨s.current.start, s₁.lastStop⟩, items.declarations, items.statements⟩ :=
    enclosed hleads hopened hcloses rfl
  refine (addBody_measures hnote.after henclosed ⟨written, hlays, hsub⟩).imp fun id s₃ _ hadded => ?_
  obtain ⟨hspan, hcurrent⟩ := hadded
  rw [State.Holds, hcurrent]
  exact ⟨.singleton hspan ⟨hs.lastStop_le, hleads.start_le, hleads.stop_le, hs₁.lastStop_le⟩, hcloses⟩

end

theorem body_measures : HoldsBodies source (body Grammar.standard) := by
  intro s hs hopened
  exact .recursive (P := fun s => s.Opened source)
    (T := fun s id s' => s.Holds [.body id] s' ∧ s'.current.kind ∈ [.kwEnd, .kwElse])
    (fun self hself _ _ hs hopened => bodyStep_measures (fun s hs => hself () s hs) hs hopened)
    () hs hopened

/-! ### Programs -/

theorem parameter_lays (hs : s.Measured source) :
    LaysNodes source (fun id => [.variable id]) (parameter Grammar.standard) s := by
  refine .expect_bind hs fun hkind hname => .discard_expect_bind hname.after fun _ hcolon => ?_
  have hlt := hs.start_lt_lastStop (by rw [hkind]; nofun) (by rw [hkind]; nofun)
  refine (type_lays _ hcolon.after).bind fun type s₁ htype hlays => .spanFrom_bind ?_
  refine add_lays htype.after.leads (by decide) rfl
    (lt_of_lt_of_le hlt (hcolon.trans htype).stop_le) ?_
  exact hlays.earlier (hname.trans hcolon)

theorem parameters_lays (hs : s.Measured source) :
    LaysNodes source (fun ids => ids.map .variable) (parameters Grammar.standard) s := by
  refine .current_bind ?_
  split
  · exact .pure hs .nil
  rw [commaSeparated_eq]
  refine .loop (I := fun ids s' => s.Lays (ids.map .variable) s') hs .nil fun ids s₁ hleads hlays => ?_
  refine (parameter_lays hleads.after).bind fun id s₂ hnext hlays' => ?_
  have hall : s.Lays ((ids ++ [id]).map .variable) s₂ := by
    rw [List.map_append]
    exact hlays.append hleads hnext hlays'
  refine .current_bind ?_
  split
  · exact .skip_bind hnext.after fun hskip => .pure hskip.after (hall.later hskip)
  · exact .pure hnext.after hall

theorem routineDecl_lays (hs : s.Measured source) (hkind : s.current.kind = .kwRoutine) :
    LaysNodes source (fun id => [.routine id]) (routineDecl Grammar.standard) s := by
  have hlt := hs.start_lt_lastStop (by rw [hkind]; nofun) (by rw [hkind]; nofun)
  refine .advance_bind hs fun hroutine => .expect_bind hroutine.after fun _ hname => ?_
  refine .discard_expect_bind hname.after fun _ hopen => ?_
  refine (parameters_lays hopen.after).bind fun parameters s₁ hparameters hlays => ?_
  refine .discard_expect_bind hparameters.after fun _ hclose => ?_
  refine (annotation_lays type_lays hclose.after).bind fun result s₂ hresult hlays' => ?_
  refine .discard_expect_bind hresult.after fun his hopening => ?_
  refine (body_measures _ hopening.after (hresult.after.opened (by rw [his]; decide))).bind
    fun inner s₃ hinner hholds => ?_
  refine .discard_expect_bind hinner.after fun hend hclosing => .spanFrom_bind ?_
  have hbefore := hroutine.trans (hname.trans hopen)
  have hsecond := hclose.trans hresult
  have hthird := hopening.trans (hinner.trans hclosing)
  have hbody : s₂.Lays [.body inner] s₃.advance.2 :=
    hholds.1.lays (hresult.after.start_le_lastStop (by rw [his]; nofun))
      (hinner.after.start_le_lastStop (by rw [hend]; nofun)) hclosing
  refine add_lays hclosing.after.leads (by decide) rfl
    (lt_of_lt_of_le hlt (hname.trans (hopen.trans (hparameters.trans (hsecond.trans hthird)))).stop_le) ?_
  exact ((hlays.earlier hbefore).append (hbefore.trans hparameters) hsecond
    (hlays'.earlier hclose)).append (hbefore.trans (hparameters.trans hsecond)) hthird hbody

theorem declaration_lays (hs : s.Measured source) :
    LaysNodes source (fun d => [d.visit]) (declaration Grammar.standard) s := by
  refine .current_bind ?_
  split
  · rename_i hkind
    exact .map (routineDecl_lays hs hkind)
  · rename_i hkind
    exact .map (variableDecl_lays hs hkind)
  · rename_i hkind
    exact .map (typeDecl_lays hs hkind)
  · exact .refuse hs _

/-- The loop over the declarations ends at the end of the text. -/
theorem declarationsRound_measures {found : List Declaration} (hleads : s₀.Leads source s)
    (hfound : s₀.Lays (found.map Declaration.visit) s) :
    Measures source (declarationsRound found) s (Measures.RoundLeaves
      (fun found s' => s₀.Lays (found.map Declaration.visit) s')
      fun found s' => s₀.Lays (found.map Declaration.visit) s' ∧ s'.current.kind = .endOfFile) := by
  have hs := hleads.after
  refine .current_bind ?_
  split
  · rename_i hkind
    exact .pure hs ⟨hfound, hkind⟩
  · exact .skip_bind hs fun hskip => .pure hskip.after (hfound.later hskip)
  · exact .skip_bind hs fun hskip => .pure hskip.after (hfound.later hskip)
  · have hnext : Measures source (do
        let next ← declaration Grammar.standard
        return found ++ [next]) s fun found s' => s₀.Lays (found.map Declaration.visit) s' := by
      refine (declaration_lays hs).bind fun next s₁ hnext hlays => .pure hnext.after ?_
      rw [List.map_append]
      exact hfound.append hleads hnext hlays
    refine (hnext.recovering (fun s' hlater => hfound.later hlater) _ _).bind
      fun found s₁ hlater hlays => .pure hlater.after hlays

theorem declarations_measures (hs : s.Measured source) :
    Measures source (declarations Grammar.standard) s fun found s' =>
      s.Lays (found.map Declaration.visit) s' ∧ s'.current.kind = .endOfFile := by
  rw [declarations_eq]
  exact .loop (I := fun found s' => s.Lays (found.map Declaration.visit) s') hs .nil
    fun found s₁ hleads hlays => declarationsRound_measures hleads hlays

/-- The current token is the first one that is left, or the end of the text. -/
theorem State.current_start (s : State) : s.current.start = startOf (s.unread ++ [s.ending]) := by
  rw [State.current]
  cases s.unread <;> rfl

end Parser

/-- No token in front of the end of the text is that end. -/
theorem Token.kind_ne_endOfFile {source : String} {token : Token}
    (h : token ∈ (tokenStream source).tokens) : token.kind ≠ .endOfFile := by
  obtain ⟨piece, before, after, rfl, hfits⟩ := exists_fits_of_mem h
  exact hfits.notEnding

theorem Node.Laid.program {source : String} {a : Arena} {program : Program} {family : Family}
    {id : NodeId family} {node : Node family} (h : Node.Laid source a family id node) :
    Node.Laid source { a with program } family id node :=
  h.extend (a.extendedBy_program program)

/-- **Reading a text** lays every node where its tokens are. The span of the program reaches from the
first token to the last one in front of the end of the text. -/
theorem parse_laid (source : String) :
    (parse source).arena.Laid source ∧
      (parse source).arena.program.span =
        ⟨startOf (tokenize source), stopOf (tokenStream source).tokens⟩ ∧
      (parse source).arena.Ranged (parse source).arena.program.span.start
        ((parse source).arena.program.declarations.map Declaration.visit)
        (parse source).arena.program.span.stop := by
  obtain ⟨_, _, _, -, -, ⟨final, hrun, -, harena, -⟩, -, -⟩ := Parser.exists_yields_program source
  simp only [Parser.program, Parser.yields_current_bind, Parser.yields_spanFrom_bind,
    Parser.yields_bind (p := Parser.declarations _), Parser.yields_modify_bind,
    Parser.yields_get_bind, Parser.yields_note] at hrun
  obtain ⟨found, s, hfound, rfl⟩ := hrun
  have hparse : (parse source).arena = { s.arena with
      program := ⟨⟨(Parser.State.ofSource source).current.start, s.lastStop⟩, found⟩ } := harena.symm
  have hstart : (Parser.State.ofSource source).current.start = startOf (tokenize source) := by
    rw [Parser.State.current_start, Parser.State.ofSource, Parser.State.noteComment_unread,
      Parser.State.noteComment_ending]
    rfl
  have hbegin := Parser.State.Measured.ofSource source
  obtain ⟨hleads, hfits⟩ := Parser.declarations_measures hbegin _ _ hfound
  obtain ⟨hlays, hend⟩ := hfits found rfl
  obtain ⟨taken, htokens, hstop⟩ := hleads.after.taken
  -- nothing is left behind the last declaration
  have hunread : s.unread = [] := by
    cases hunread : s.unread with
    | nil => rfl
    | cons token rest =>
        rw [Parser.State.current_of_unread hunread] at hend
        exact absurd hend (kind_ne_endOfFile (by rw [htokens, hunread]; simp))
  rw [hunread, List.append_nil] at htokens
  rw [hparse]
  refine ⟨fun family id node hget => ?_, ?_, hlays.extend (s.arena.extendedBy_program _)⟩
  · rw [s.arena.get?_program] at hget
    exact (hleads.after.nodes family id node hget).imp_right Node.Laid.program
  · rw [hstart, hstop, htokens]

end ProcLang

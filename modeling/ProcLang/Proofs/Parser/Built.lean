import ProcLang.Proofs.Parser.Reads
import ProcLang.Proofs.Tree.Forest
import Mathlib.Data.List.Perm.Subperm

/-!
# ProcLang.Proofs.Parser.Built

**What a part of the parser has built.** `Built s₀ vs reserved s` says that between the states `s₀`
and `s` tokens were taken and a forest was added to the arena, and nothing else: all nodes of the
forest are new, none is shared, and every new node belongs to it. The roots of the forest are `vs`
and, if errors were recorded, those of the trees that were lost on the way. `Remains s₀ vs s` is
what is left of it when the parser fails.

A node that is a name, that is an identifier, a call or a named type, stands where one of the tokens
was taken, and no two names stand at the same token. Tokens that were taken for a name whose node is
not there yet are `reserved`.

Two such facts make one (`BuiltWith.trans`), and a node over the roots makes them one tree
(`BuiltWith.add`).
-/

namespace ProcLang

/-! ### Names -/

/-- Where a node begins if it is a name. -/
def Node.start? : (family : Family) → Node family → Option Position
  | .expression, node =>
      match node.kind with
      | .identifier _ _ | .call _ _ _ => some node.span.start
      | _ => none
  | .type, node =>
      match node.kind with
      | .named _ _ => some node.span.start
      | _ => none
  | _, _ => none

namespace Arena

/-- Where the node of a visit begins if it is a name. -/
def start? (a : Arena) : Visit → Option Position
  | .expression id => (a.get? id).bind (Node.start? .expression)
  | .type id => (a.get? id).bind (Node.start? .type)
  | _ => none

/-- Where the names among some nodes begin. -/
def starts (a : Arena) (all : List Visit) : List Position := all.filterMap a.start?

theorem start?_of_get? {a : Arena} {family : Family} {id : NodeId family} {node : Node family}
    (h : a.get? id = some node) : a.start? (Visit.of id) = Node.start? family node := by
  cases family <;> simp [start?, Visit.of, Node.start?, h]

theorem starts_append (a : Arena) (xs ys : List Visit) :
    a.starts (xs ++ ys) = a.starts xs ++ a.starts ys :=
  List.filterMap_append

theorem ExtendedBy.start?_eq {a b : Arena} (hext : a.ExtendedBy b) {v : Visit} (h : a.Has v) :
    b.start? v = a.start? v := by
  obtain ⟨family, id, rfl⟩ := h.exists_of
  obtain ⟨node, hget⟩ := h.exists_get?
  rw [start?_of_get? hget, start?_of_get? (hext family id node hget)]

theorem ExtendedBy.starts_eq {a b : Arena} (hext : a.ExtendedBy b) {all : List Visit}
    (h : ∀ v ∈ all, a.Has v) : b.starts all = a.starts all :=
  List.filterMap_congr fun v hv => hext.start?_eq (h v hv)

/-- What is in an arena after a node was added was there before or is that node. -/
theorem get?_added {a : Arena} {family other : Family} {node : Node family} {id : NodeId other}
    {found : Node other} (h : (a.add family node).2.get? id = some found) :
    a.get? id = some found ∨
      ∃ heq : family = other, heq ▸ node = found ∧ id.index = a.count family := by
  by_cases hfamily : family = other
  · subst hfamily
    rw [get?, table_add, Array.getElem?_push] at h
    split at h
    · rename_i hindex
      exact Or.inr ⟨rfl, Option.some.inj h, hindex⟩
    · exact Or.inl h
  · rw [get?, table_add_of_ne a (Ne.symm hfamily)] at h
    exact Or.inl h

end Arena

/-! ### Nodes as the parser makes them -/

/-- A node that no later stage has touched: literals have their types and are constant, and nothing
else is typed, marked or linked. Routines are not local. -/
def Node.Raw : (family : Family) → Node family → Prop
  | .expression, node =>
      match node.kind with
      | .integer value => node = .integer value node.span
      | .real value => node = .real value node.span
      | .boolean value => node = .boolean value node.span
      | .identifier name _ => node = .plain (.identifier name none) node.span
      | .call name _ arguments => node = .plain (.call name none arguments) node.span
      | .unary _ _ | .binary _ _ _ => node = .plain node.kind node.span
  | .type, node => ∀ name target, node.kind = .named name target → target = none
  | .body, node => ∀ id, .routine id ∉ node.declarations
  | _, _ => True

/-- Types are made after the types of their elements. -/
def Arena.Ordered (a : Arena) : Prop :=
  ∀ (id : TypeId) node length element, a.get? id = some node → node.kind = .array length element →
    element.index < id.index

/-- A node is made after the nodes of its own family that it owns. -/
def Arena.Descends (a : Arena) : Prop :=
  ∀ (family : Family) (id child : NodeId family) node, a.get? id = some node →
    Visit.of child ∈ Node.children family node → child.index < id.index

theorem Arena.Descends.ordered {a : Arena} (h : a.Descends) : a.Ordered := by
  intro id node length element hget hkind
  refine h .type id element node hget ?_
  rw [Node.children, hkind]
  exact List.mem_append_right _ List.mem_cons_self

/-- The counter that a node declares, if it is a loop. -/
def Node.counter? : (family : Family) → Node family → Option VariableId
  | .statement, node => node.kind.counter?
  | _, _ => none

/-- A variable as a loop declares it: an integer without an initial value. -/
def Arena.IsCounter (a : Arena) (x : VariableId) : Prop :=
  ∃ node t type, a.get? x = some node ∧ node.declaredType = some t ∧ node.initializer = none ∧
    a.get? t = some type ∧ type.kind = .integer

theorem Arena.IsCounter.extend {a b : Arena} {x : VariableId} (h : a.IsCounter x)
    (hext : a.ExtendedBy b) : b.IsCounter x := by
  obtain ⟨node, t, type, hget, ht, hinit, htype, hkind⟩ := h
  exact ⟨node, t, type, hext _ _ _ hget, ht, hinit, hext _ _ _ htype, hkind⟩

/-- Loops count with variables of their own kind. -/
def Arena.Counted (a : Arena) : Prop :=
  ∀ (id : StatementId) node x, a.get? id = some node → node.kind.counter? = some x → a.IsCounter x

namespace Parser

open State

/-! ### The relation -/

/-- Between two states the tokens `w` were taken, and the nodes `all` of a forest with the roots
`vs` were added. Errors were at most recorded, and they are errors of the text. -/
structure BuiltWith (s₀ : State) (vs : List Visit) (reserved : List Position) (s : State)
    (w : List Token) (all : List Visit) : Prop where
  reads : s₀.Reads w s
  spans : Spans s.arena vs all
  nodup : all.Nodup
  fresh : ∀ v ∈ all, ¬ s₀.arena.Has v
  covers : ∀ (family : Family) (id : NodeId family) node, s.arena.get? id = some node →
    s₀.arena.Has (Visit.of id) ∨ (Visit.of id ∈ all ∧ Node.Raw family node)
  starts : (s.arena.starts all ++ reserved).Nodup
  taken : ∀ p ∈ s.arena.starts all ++ reserved, p ∈ w.map (·.start)
  descends : s₀.arena.Descends → s.arena.Descends
  counted : s₀.arena.Counted → s.arena.Counted
  program : s.arena.program = s₀.arena.program
  recorded : s₀.errors.size ≤ s.errors.size
  external : ∀ d ∈ s.errors, d ∈ s₀.errors ∨ d.isInternal = false

/-- Between two states the forest with the roots `vs` was built. Beside it there may be `lost`
trees, which nothing will own, but only if an error was recorded. -/
def Built (s₀ : State) (vs : List Visit) (reserved : List Position) (s : State) : Prop :=
  ∃ w all lost, BuiltWith s₀ (vs ++ lost) reserved s w all ∧
    (s.errors.size = s₀.errors.size → lost = [])

/-- Between two states the forest with the roots `vs` was built, and any trees beside it. This is
what a parser leaves that fails. -/
def Remains (s₀ : State) (vs : List Visit) (s : State) : Prop :=
  ∃ w all lost, BuiltWith s₀ (vs ++ lost) [] s w all

/-- A state from which the parser can go on: the text ends with its end, and no two tokens begin at
the same place. -/
structure Sane (s : State) : Prop where
  ending : s.ending.kind = .endOfFile
  distinct : (s.unread.map (·.start)).Nodup

theorem Sane.of_reads {s s' : State} {w : List Token} (h : Sane s) (hreads : s.Reads w s') :
    Sane s' where
  ending := hreads.ending_kind h.ending
  distinct := by
    have hdistinct := h.distinct
    rw [hreads.unread, List.map_append] at hdistinct
    exact (List.nodup_append.1 hdistinct).2.1

/-- Tokens that were taken one after the other begin at different places. -/
theorem Sane.starts_disjoint {s s' : State} {v w : List Token} (h : Sane s)
    (hreads : s.Reads (v ++ w) s') : (v.map (·.start)).Disjoint (w.map (·.start)) := by
  have hdistinct := h.distinct
  rw [hreads.unread, List.append_assoc, List.map_append, List.map_append] at hdistinct
  intro p hv hw
  exact (List.nodup_append.1 hdistinct).2.2 p hv p (List.mem_append_left _ hw) rfl

variable {s₀ s s' : State} {vs ws xs ys all lost : List Visit} {reserved other : List Position}
  {v w : List Token}

/-! ### Forests -/

/-- Taking tokens builds nothing; some of them may be reserved for names. -/
theorem State.Skips.builtWith (h : s.Skips w s') (hnodup : reserved.Nodup)
    (htaken : ∀ p ∈ reserved, p ∈ w.map (·.start)) : BuiltWith s [] reserved s' w [] where
  reads := h.reads
  spans := .nil
  nodup := .nil
  fresh := nofun
  covers _ _ _ hget := Or.inl (Arena.has_of_get? (h.arena ▸ hget))
  starts := hnodup
  taken := htaken
  descends hdescends := h.arena ▸ hdescends
  counted hcounted := h.arena ▸ hcounted
  program := by rw [h.arena]
  recorded := Nat.le_of_eq (by rw [h.errors])
  external d hd := Or.inl (h.errors ▸ hd)

namespace BuiltWith

/-- **One after the other.** What is built in two steps is one forest. -/
theorem trans (hsane : Sane s₀) (h₁ : BuiltWith s₀ vs reserved s v xs)
    (h₂ : BuiltWith s ws other s' w ys) :
    BuiltWith s₀ (vs ++ ws) (reserved ++ other) s' (v ++ w) (xs ++ ys) := by
  have hext := h₂.reads.arena
  have hxs : s'.arena.starts xs = s.arena.starts xs :=
    hext.starts_eq fun u hu => h₁.spans.has_of_mem hu
  have hperm : ((s.arena.starts xs ++ reserved) ++ (s'.arena.starts ys ++ other)).Perm
      (s'.arena.starts (xs ++ ys) ++ (reserved ++ other)) := by
    rw [Arena.starts_append, hxs, List.append_assoc, List.append_assoc]
    refine List.Perm.append_left _ ?_
    rw [← List.append_assoc, ← List.append_assoc]
    exact List.perm_append_comm.append_right _
  refine ⟨h₁.reads.trans h₂.reads, (h₁.spans.extend hext).append h₂.spans, ?_, ?_, ?_, ?_, ?_,
    h₂.descends ∘ h₁.descends, h₂.counted ∘ h₁.counted, h₂.program.trans h₁.program,
    Nat.le_trans h₁.recorded h₂.recorded, ?_⟩
  · refine List.nodup_append.2 ⟨h₁.nodup, h₂.nodup, fun u hu u' hu' heq => ?_⟩
    exact h₂.fresh u' hu' (heq ▸ h₁.spans.has_of_mem hu)
  · intro u hu
    rcases List.mem_append.1 hu with hu | hu
    · exact h₁.fresh u hu
    · exact fun hhas => h₂.fresh u hu (hhas.extend h₁.reads.arena)
  · intro family id node hget
    rcases h₂.covers family id node hget with hhas | ⟨hmem, hraw⟩
    · obtain ⟨old, hold⟩ := hhas.exists_get?
      obtain rfl : old = node := Option.some.inj ((hext family id old hold).symm.trans hget)
      exact (h₁.covers family id old hold).imp_right fun h => ⟨List.mem_append_left ys h.1, h.2⟩
    · exact Or.inr ⟨List.mem_append_right xs hmem, hraw⟩
  · refine hperm.nodup (List.nodup_append.2 ⟨h₁.starts, h₂.starts, fun p hp q hq heq => ?_⟩)
    exact hsane.starts_disjoint (h₁.reads.trans h₂.reads) (h₁.taken p hp)
      (heq ▸ h₂.taken q hq)
  · intro p hp
    rw [List.map_append]
    rcases List.mem_append.1 (hperm.mem_iff.2 hp) with hp | hp
    · exact List.mem_append_left _ (h₁.taken p hp)
    · exact List.mem_append_right _ (h₂.taken p hp)
  · intro d hd
    rcases h₂.external d hd with hd | hexternal
    · exact h₁.external d hd
    · exact Or.inr hexternal

/-- The trees of a forest can be taken in any order. -/
theorem perm (h : BuiltWith s₀ vs reserved s w all) (hperm : vs.Perm ws) :
    ∃ all', BuiltWith s₀ ws reserved s w all' := by
  obtain ⟨all', hspans, hall⟩ := h.spans.perm hperm
  have hstarts : (s.arena.starts all ++ reserved).Perm (s.arena.starts all' ++ reserved) :=
    (hall.filterMap _).append_right _
  exact ⟨all', h.reads, hspans, hall.nodup h.nodup, fun v hv => h.fresh v (hall.mem_iff.2 hv),
    fun family id node hget => (h.covers family id node hget).imp_right
      fun h => ⟨hall.mem_iff.1 h.1, h.2⟩,
    hstarts.nodup h.starts, fun p hp => h.taken p (hstarts.mem_iff.2 hp), h.descends, h.counted,
    h.program, h.recorded, h.external⟩

/-- Reserved places can be taken in any order, and given up. -/
theorem release (h : BuiltWith s₀ vs reserved s w all) (hsub : other.Subperm reserved) :
    BuiltWith s₀ vs other s w all := by
  obtain ⟨kept, hperm, hsublist⟩ := hsub
  have hstarts : (s.arena.starts all ++ kept).Sublist (s.arena.starts all ++ reserved) :=
    hsublist.append_left _
  have hperm' : (s.arena.starts all ++ kept).Perm (s.arena.starts all ++ other) :=
    hperm.append_left _
  exact { h with
    starts := hperm'.nodup (h.starts.sublist hstarts)
    taken := fun p hp => h.taken p (hstarts.subset (hperm'.mem_iff.2 hp)) }

/-- An error of the text is recorded. -/
theorem record {d : Diagnostic} (h : BuiltWith s₀ vs reserved s w all)
    (hd : d.isInternal = false) :
    BuiltWith s₀ vs reserved { s with errors := s.errors.push d } w all := by
  have hexternal : ∀ e ∈ s.errors.push d, e ∈ s₀.errors ∨ e.isInternal = false := by
    intro e he
    rcases Array.mem_push.1 he with he | rfl
    · exact h.external e he
    · exact Or.inr hd
  have hrecorded : s₀.errors.size ≤ (s.errors.push d).size := by
    rw [Array.size_push]
    exact Nat.le_succ_of_le h.recorded
  exact ⟨⟨h.reads.unread, h.reads.ending, h.reads.arena⟩, h.spans, h.nodup, h.fresh, h.covers,
    h.starts, h.taken, h.descends, h.counted, h.program, hrecorded, hexternal⟩

/-- **A node over the roots** makes one tree of them, beside the other trees. If the node is a name,
a token has been reserved for it; if it is a loop, its counter is there. -/
theorem add {family : Family} {node : Node family}
    (h : BuiltWith s₀ (vs ++ lost) ((Node.start? family node).toList ++ reserved) s w all)
    (hchildren : (Node.children family node).Perm vs) (hraw : Node.Raw family node)
    (hcounter : ∀ x, Node.counter? family node = some x → s.arena.IsCounter x) :
    ∃ all', BuiltWith s₀ (Visit.of (s.arena.add family node).1 :: lost) reserved
      (s.added family node) w all' := by
  obtain ⟨all, h⟩ := h.perm (hchildren.symm.append_right lost)
  obtain ⟨xs, ys, rfl, hinner, houter⟩ := h.spans.append_inv
  have hext : s.arena.ExtendedBy (s.added family node).arena := s.arena.extendedBy_add family node
  have hprogram : (s.added family node).arena.program = s.arena.program := by
    cases family <;> rfl
  have hget : (s.added family node).arena.get? (s.arena.add family node).1 = some node :=
    s.arena.get?_add family node
  have hstarts : (s.added family node).arena.starts
      (Visit.of (s.arena.add family node).1 :: (xs ++ ys)) =
      (Node.start? family node).toList ++ s.arena.starts (xs ++ ys) := by
    rw [← List.singleton_append, Arena.starts_append,
      hext.starts_eq fun v hv => h.spans.has_of_mem hv]
    refine congrArg (· ++ _) ?_
    rw [Arena.starts, List.filterMap_cons, Arena.start?_of_get? hget]
    cases Node.start? family node <;> rfl
  have hperm : (s.arena.starts (xs ++ ys) ++ ((Node.start? family node).toList ++ reserved)).Perm
      (((Node.start? family node).toList ++ s.arena.starts (xs ++ ys)) ++ reserved) := by
    rw [← List.append_assoc]
    exact List.perm_append_comm.append_right _
  have htop : ∀ {a : Arena}, a.Has (Visit.of (s.arena.add family node).1) →
      s.arena.count family < a.count family := fun hhas => Arena.has_of.1 hhas
  refine ⟨Visit.of (s.arena.add family node).1 :: (xs ++ ys), ?_, ?_, ?_, ?_, ?_, ?_, ?_, ?_, ?_,
    hprogram.trans h.program, h.recorded, h.external⟩
  · have hreads := h.reads.trans (reads_added s family node)
    rwa [List.append_nil] at hreads
  · refine .cons (Arena.has_of_get? hget) ?_ (houter.extend hext)
    rw [Arena.children_of_get? hget]
    exact hinner.extend hext
  · refine List.nodup_cons.2 ⟨fun hmem => ?_, h.nodup⟩
    exact Nat.lt_irrefl _ (htop (h.spans.has_of_mem hmem))
  · intro v hv
    rcases List.mem_cons.1 hv with rfl | hv
    · exact fun hhas => Nat.not_lt.2 (h.reads.arena.count_le family) (htop hhas)
    · exact h.fresh v hv
  · intro other id found hfound
    rcases Arena.get?_added hfound with hold | ⟨heq, hnode, hindex⟩
    · exact (h.covers other id found hold).imp_right fun h => ⟨List.mem_cons_of_mem _ h.1, h.2⟩
    · subst heq
      subst hnode
      obtain rfl : id = (s.arena.add family node).1 := congrArg NodeId.mk hindex
      exact Or.inr ⟨List.mem_cons_self, hraw⟩
  · rw [hstarts]
    exact hperm.nodup h.starts
  · rw [hstarts]
    exact fun p hp => h.taken p (hperm.mem_iff.2 hp)
  · intro hdescends other id child found hfound hchild
    rcases Arena.get?_added hfound with hold | ⟨heq, hnode, hindex⟩
    · exact h.descends hdescends other id child found hold hchild
    · -- a child of the new node is one of the roots, so it is there already
      subst heq
      subst hnode
      have hhas := h.spans.has_of_mem (h.spans.mem_of_root (List.mem_append_left lost hchild))
      rw [hindex]
      exact Arena.has_of.1 hhas
  · intro hcounted found loop x hfound hx
    rcases Arena.get?_added hfound with hold | ⟨heq, hnode, -⟩
    · exact (h.counted hcounted found loop x hold hx).extend hext
    · subst heq
      subst hnode
      exact (hcounter x hx).extend hext

end BuiltWith

/-! ### Trees that are kept and trees that are lost -/

theorem Sane.of_built (h : Sane s₀) (hbuilt : Built s₀ vs reserved s) : Sane s := by
  obtain ⟨w, all, lost, hwith, -⟩ := hbuilt
  exact h.of_reads hwith.reads

theorem Built.extendedBy (h : Built s₀ vs reserved s) : s₀.arena.ExtendedBy s.arena := by
  obtain ⟨w, all, lost, hwith, -⟩ := h
  exact hwith.reads.arena

namespace Built

theorem of_skips (h : s.Skips w s') (hnodup : reserved.Nodup)
    (htaken : ∀ p ∈ reserved, p ∈ w.map (·.start)) : Built s [] reserved s' :=
  ⟨w, [], [], h.builtWith hnodup htaken, fun _ => rfl⟩

theorem refl (s : State) : Built s [] [] s := of_skips (.refl s) .nil nofun

theorem trans (hsane : Sane s₀) (h₁ : Built s₀ vs reserved s) (h₂ : Built s ws other s') :
    Built s₀ (vs ++ ws) (reserved ++ other) s' := by
  obtain ⟨v, xs, lost₁, h₁, hlost₁⟩ := h₁
  obtain ⟨w, ys, lost₂, h₂, hlost₂⟩ := h₂
  have hperm : ((vs ++ lost₁) ++ (ws ++ lost₂)).Perm ((vs ++ ws) ++ (lost₁ ++ lost₂)) := by
    rw [List.append_assoc, List.append_assoc, ← List.append_assoc lost₁, ← List.append_assoc ws]
    exact (List.perm_append_comm.append_right lost₂).append_left vs
  obtain ⟨all, hwith⟩ := (h₁.trans hsane h₂).perm hperm
  refine ⟨v ++ w, all, lost₁ ++ lost₂, hwith, fun hsize => ?_⟩
  have hrecorded₁ := h₁.recorded
  have hrecorded₂ := h₂.recorded
  rw [hlost₁ (by omega), hlost₂ (by omega), List.append_nil]

theorem perm (h : Built s₀ vs reserved s) (hperm : vs.Perm ws) : Built s₀ ws reserved s := by
  obtain ⟨w, all, lost, h, hlost⟩ := h
  obtain ⟨all', hwith⟩ := h.perm (hperm.append_right lost)
  exact ⟨w, all', lost, hwith, hlost⟩

theorem release (h : Built s₀ vs reserved s) (hsub : other.Subperm reserved) :
    Built s₀ vs other s := by
  obtain ⟨w, all, lost, h, hlost⟩ := h
  exact ⟨w, all, lost, h.release hsub, hlost⟩

/-- Tokens are taken. -/
theorem skips (hsane : Sane s₀) (h : Built s₀ vs reserved s) (hskips : s.Skips w s') :
    Built s₀ vs reserved s' := by
  have htrans := h.trans hsane (of_skips hskips .nil nofun)
  rwa [List.append_nil, List.append_nil] at htrans

/-- A token is taken that a name will stand for. -/
theorem reserve {token : Token} (hsane : Sane s₀) (h : Built s₀ vs reserved s)
    (hskips : s.Skips [token] s') : Built s₀ vs (token.start :: reserved) s' := by
  have htrans := h.trans hsane (of_skips hskips (List.nodup_singleton token.start) fun p hp => hp)
  rw [List.append_nil] at htrans
  exact htrans.release (List.perm_append_singleton token.start reserved).symm.subperm

theorem add {family : Family} {node : Node family}
    (h : Built s₀ vs ((Node.start? family node).toList ++ reserved) s)
    (hchildren : (Node.children family node).Perm vs) (hraw : Node.Raw family node)
    (hcounter : ∀ x, Node.counter? family node = some x → s.arena.IsCounter x) :
    Built s₀ [Visit.of (s.arena.add family node).1] reserved (s.added family node) := by
  obtain ⟨w, all, lost, h, hlost⟩ := h
  obtain ⟨all', hwith⟩ := h.add hchildren hraw hcounter
  exact ⟨w, all', lost, hwith, hlost⟩

/-- Where a parser stands, it may fail. -/
theorem remains (h : Built s₀ vs reserved s) : Remains s₀ vs s := by
  obtain ⟨w, all, lost, h, -⟩ := h
  exact ⟨w, all, lost, h.release (List.nil_subperm)⟩

end Built

namespace Remains

/-- After a failure some trees are not held any more. -/
theorem lose (h : Remains s₀ vs s) : Remains s₀ [] s := by
  obtain ⟨w, all, lost, h⟩ := h
  exact ⟨w, all, vs ++ lost, h⟩

theorem reads (h : Remains s₀ vs s) : ∃ w, s₀.Reads w s := by
  obtain ⟨w, all, lost, h⟩ := h
  exact ⟨w, h.reads⟩

/-- What a part leaves that fails is beside what was there. -/
theorem trans (hsane : Sane s₀) (h₁ : Remains s₀ vs s) (h₂ : Remains s [] s') :
    Remains s₀ vs s' := by
  obtain ⟨v, xs, lost₁, h₁⟩ := h₁
  obtain ⟨w, ys, lost₂, h₂⟩ := h₂
  have htrans := h₁.trans hsane h₂
  rw [List.nil_append, List.append_assoc] at htrans
  exact ⟨v ++ w, xs ++ ys, lost₁ ++ lost₂, htrans⟩

/-- With the error recorded the parser may go on, and what is lost stays lost. -/
theorem recover {d : Diagnostic} (h : Remains s₀ vs s) (hd : d.isInternal = false) :
    Built s₀ vs [] { s with errors := s.errors.push d } := by
  obtain ⟨w, all, lost, h⟩ := h
  refine ⟨w, all, lost, h.record hd, fun hsize => ?_⟩
  have hrecorded := h.recorded
  rw [Array.size_push] at hsize
  omega

end Remains

end Parser

end ProcLang

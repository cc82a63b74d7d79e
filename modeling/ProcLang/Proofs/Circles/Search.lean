import ProcLang.Proofs.Account.Circles

/-!
# ProcLang.Proofs.Circles.Search

**The search for a circle ends.** Two loops look for a circle of type declarations: one goes through the
elements of arrays to the name at the end of a type (`NamedBy`), the other one follows the declarations
until it comes back to the first one, or to another one that it has passed, or to an end (`SearchesFrom`).
Neither of them counts its rounds. Whatever name resolution has made of a tree so far, both come to
their ends, from every declaration, and what they find is what `circle` gives (`exists_search`).
-/

namespace ProcLang

open Arena

variable {a b : Arena} {nodes : List Visit}

/-- Going through the elements of arrays, the search comes to a name with its link, or to a type that
is neither a name nor an array. -/
inductive Arena.NamedBy (b : Arena) : TypeId → Option TypeDeclId → Prop
  | named {id : TypeId} {node : TypeNode} {name : String} {target : Option TypeDeclId}
      (hget : b.get? id = some node) (hkind : node.kind = .named name target) : NamedBy b id target
  | element {id : TypeId} {node : TypeNode} {length : Option ExpressionId} {element : TypeId}
      {found : Option TypeDeclId} (hget : b.get? id = some node)
      (hkind : node.kind = .array length element) (h : NamedBy b element found) : NamedBy b id found
  | other {id : TypeId} {node : TypeNode} (hget : b.get? id = some node)
      (hname : ∀ name target, node.kind ≠ .named name target)
      (harray : ∀ length element, node.kind ≠ .array length element) : NamedBy b id none

/-- The search for the circle through `start` has passed `path`, up to `current`, and ends with the
members of the circle, or with none. -/
inductive Arena.SearchesFrom (b : Arena) (start : TypeDeclId) :
    List TypeDeclId → TypeDeclId → Option (List TypeDeclId) → Prop
  /-- The declarations come to an end. -/
  | ends {path : List TypeDeclId} {current : TypeDeclId} {node : TypeDecl}
      (hget : b.get? current = some node) (hnext : b.NamedBy node.type none) :
      SearchesFrom b start path current none
  /-- The circle is closed. -/
  | closes {path : List TypeDeclId} {current : TypeDeclId} {node : TypeDecl}
      (hget : b.get? current = some node) (hnext : b.NamedBy node.type (some start)) :
      SearchesFrom b start path current (some path)
  /-- Another circle is closed, in which `start` has no part. -/
  | stops {path : List TypeDeclId} {current next : TypeDeclId} {node : TypeDecl}
      (hget : b.get? current = some node) (hnext : b.NamedBy node.type (some next))
      (hother : next ≠ start) (hpassed : next ∈ path) : SearchesFrom b start path current none
  | goesOn {path : List TypeDeclId} {current next : TypeDeclId} {node : TypeDecl}
      {found : Option (List TypeDeclId)} (hget : b.get? current = some node)
      (hnext : b.NamedBy node.type (some next)) (hother : next ≠ start) (hnew : next ∉ path)
      (h : SearchesFrom b start (path ++ [next]) next found) : SearchesFrom b start path current found

theorem namedBy_of_namedWithin {layers : Nat} {id : TypeId} {found : Option TypeDeclId}
    (h : b.namedWithin layers id = .ok found) : b.NamedBy id found := by
  induction layers generalizing id with
  | zero => cases h
  | succ layers ih =>
      cases hread : b.get id with
      | error fault => simp [namedWithin, hread, bind, Except.bind] at h
      | ok node =>
          have hget := get_eq_ok.1 hread
          simp only [namedWithin, hread, bind, Except.bind] at h
          cases hkind : node.kind with
          | named name target =>
              rw [hkind] at h
              obtain rfl : target = found := Except.ok.inj h
              exact .named hget hkind
          | array length element =>
              rw [hkind] at h
              exact .element hget hkind (ih h)
          | integer | real | boolean | record =>
              rw [hkind] at h
              obtain rfl : none = found := Except.ok.inj h
              exact .other hget (by simp [hkind]) (by simp [hkind])

/-- What a declaration leads to is what its type names. -/
theorem exists_namedBy_of_leadsTo {d : TypeDeclId} {found : Option TypeDeclId}
    (h : b.leadsTo d = .ok found) : ∃ node, b.get? d = some node ∧ b.NamedBy node.type found := by
  rw [leadsTo] at h
  cases hread : b.get d with
  | error fault => simp [hread, bind, Except.bind] at h
  | ok node =>
      simp only [hread, bind, Except.bind] at h
      exact ⟨node, get_eq_ok.1 hread, namedBy_of_namedWithin h⟩

section

variable (htree : a.IsTree nodes) (hevolves : Evolves a a b)

include htree hevolves

/-- **The bound on the rounds is never reached**: the declarations that the search has passed are
different ones. -/
theorem searchesFrom_of_circleWithin {start current : TypeDeclId} {path : List TypeDeclId} {hops : Nat}
    {found : Option (List TypeDeclId)} (h : b.circleWithin start hops path current = .ok found)
    (hcurrent : current ∈ path) (hhas : ∀ d ∈ path, a.Has (.typeDecl d)) (hnodup : path.Nodup)
    (hhops : b.count .typeDecl < hops + path.length) : b.SearchesFrom start path current found := by
  induction hops generalizing path current with
  | zero =>
      have hle := b.length_le_count hnodup fun d hd => hevolves.has (hhas d hd)
      omega
  | succ hops ih =>
      obtain ⟨following, hleads, hdeclared⟩ := exists_leadsTo htree hevolves (hhas current hcurrent)
      obtain ⟨node, hget, hnamed⟩ := exists_namedBy_of_leadsTo hleads
      rw [circleWithin] at h
      simp only [hleads, bind, Except.bind] at h
      cases following with
      | none =>
          obtain rfl : none = found := Except.ok.inj h
          exact .ends hget hnamed
      | some next =>
          dsimp only at h
          split at h
          · rename_i hstart
            obtain rfl : some path = found := Except.ok.inj h
            exact .closes hget (hstart ▸ hnamed)
          · rename_i hother
            split at h
            · rename_i hpassed
              obtain rfl : none = found := Except.ok.inj h
              exact .stops hget hnamed hother hpassed
            · rename_i hnew
              refine .goesOn hget hnamed hother hnew (ih h ?_ (fun d hd => ?_) ?_ ?_)
              · exact List.mem_append_right _ List.mem_cons_self
              · rcases List.mem_append.1 hd with hd | hd
                · exact hhas d hd
                · rw [List.mem_singleton.1 hd]
                  exact hdeclared next rfl
              · refine List.nodup_append.2 ⟨hnodup, List.nodup_singleton next, fun d hd e he heq => ?_⟩
                exact hnew (List.mem_singleton.1 he ▸ heq ▸ hd)
              · rw [List.length_append, List.length_singleton]
                omega

/-- **The search for a circle ends**, from every declaration. -/
theorem exists_search {d : TypeDeclId} (hhas : a.Has (.typeDecl d)) :
    ∃ found, b.circle d = .ok found ∧ b.SearchesFrom d [d] d found := by
  obtain ⟨found, hfound⟩ := exists_circleWithin htree hevolves d (b.count .typeDecl + 1) [d] hhas
  refine ⟨found, hfound, searchesFrom_of_circleWithin htree hevolves hfound List.mem_cons_self ?_
    (List.nodup_singleton d) (by rw [List.length_singleton]; omega)⟩
  exact List.forall_mem_singleton.2 hhas

end

end ProcLang

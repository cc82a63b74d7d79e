import Mathlib.Dynamics.PeriodicPts.Lemmas
import ProcLang.Proofs.Resolved.Unfolding

/-!
# ProcLang.Proofs.Types.Layers

**The layers of a type.** Layer `0` of a type is what the type stands for; the layer behind an array is
what the type of its elements stands for. Where an unfolding has an end, the sequence of layers may go on
for ever, since arrays may hold themselves through a name.

Two types meet at a layer if both have that layer and show the same there. Comparing them within a number
of layers tells whether they meet at one of those (`sameWithin_eq_true_iff`). They meet early or never:
the layers behind as many as there are types come round again, and on layers that do so going one further
forgets nothing (`Meets.exists_le`). So the bound of the comparison decides nothing, in any arena
(`sameType_eq_true_iff`).
-/

namespace ProcLang

open Function

namespace Arena

variable {a : Arena} {t u l r : TypeId} {m n hops layers : Nat}

/-! ### Layers -/

/-- What a type stands for, if it stands for something. -/
def resolved (a : Arena) (t : TypeId) : Option TypeId :=
  match a.resolveType t with
  | .ok found => found
  | .error _ => none

/-- What the elements of an array are. -/
def inner (a : Arena) (t : TypeId) : Option TypeId :=
  match (a.get? t).map TypeNode.kind with
  | some (.array _ element) => a.resolved element
  | _ => none

/-- One layer further in. Behind the last layer there is none. -/
def peel (a : Arena) (layer : Option TypeId) : Option TypeId := layer.bind a.inner

/-- The layers of a type, from the outermost one on. -/
def layer (a : Arena) (t : TypeId) (n : Nat) : Option TypeId := a.peel^[n] (a.resolved t)

theorem resolved_eq_some_iff : a.resolved t = some r ↔ a.resolveType t = .ok (some r) := by
  rw [resolved]
  cases a.resolveType t with
  | error fault => simp
  | ok found => simp

theorem inner_of_array {node : TypeNode} {length : Option ExpressionId} {element : TypeId}
    (hget : a.get? t = some node) (hkind : node.kind = .array length element) :
    a.inner t = a.resolved element := by
  simp [inner, hget, hkind]

theorem inner_of_not_array {node : TypeNode} (hget : a.get? t = some node)
    (hkind : ∀ length element, node.kind ≠ .array length element) : a.inner t = none := by
  rw [inner, hget, Option.map_some]
  split
  · rename_i length element heq
    exact absurd (Option.some.inj heq) (hkind length element)
  · rfl

/-- At the end of an unfolding there are no more layers. -/
theorem SameBase.inner_eq_none (h : a.SameBase l r) : a.inner l = none ∧ a.inner r = none := by
  cases h with
  | primitive hl hr hprimitive hkind =>
      refine ⟨inner_of_not_array hl fun length element heq => ?_,
        inner_of_not_array hr fun length element heq => ?_⟩
      · rw [heq] at hprimitive
        exact hprimitive
      · rw [← hkind, heq] at hprimitive
        exact hprimitive
  | record hl hkind =>
      have hnone := inner_of_not_array hl fun length element heq => by cases hkind.symm.trans heq
      exact ⟨hnone, hnone⟩

theorem SameBase.symm (h : a.SameBase l r) : a.SameBase r l := by
  cases h with
  | primitive hl hr hprimitive hkind => exact .primitive hr hl (hkind ▸ hprimitive) hkind.symm
  | record hl hkind => exact .record hl hkind

theorem SameBase.trans {x : TypeId} (h : a.SameBase l r) (h' : a.SameBase r x) : a.SameBase l x := by
  cases h with
  | record => exact h'
  | primitive hl hr hprimitive hkind =>
      cases h' with
      | record => exact .primitive hl hr hprimitive hkind
      | primitive hr' hx _ hkind' =>
          obtain rfl := Option.some.inj (hr.symm.trans hr')
          exact .primitive hl hx hprimitive (hkind'.trans hkind)

theorem layer_zero (a : Arena) (t : TypeId) : a.layer t 0 = a.resolved t := rfl

theorem layer_succ (a : Arena) (t : TypeId) (n : Nat) : a.layer t (n + 1) = a.peel (a.layer t n) :=
  iterate_succ_apply' a.peel n _

theorem layer_add (a : Arena) (t : TypeId) (m n : Nat) :
    a.layer t (m + n) = a.peel^[n] (a.layer t m) := by
  rw [layer, Nat.add_comm, iterate_add_apply, layer]

/-- The layers behind an array are those of its elements. -/
theorem layer_of_array {node : TypeNode} {length : Option ExpressionId} {element : TypeId}
    (hresolved : a.resolved t = some l) (hget : a.get? l = some node)
    (hkind : node.kind = .array length element) (n : Nat) :
    a.layer t (n + 1) = a.layer element n := by
  rw [layer, iterate_succ_apply, hresolved, peel, Option.bind_some, inner_of_array hget hkind, layer]

/-- A layer is there if one behind it is. -/
theorem exists_layer_of_succ (h : a.layer t (n + 1) = some r) :
    ∃ l, a.layer t n = some l ∧ a.inner l = some r := by
  rw [layer_succ, peel] at h
  exact Option.bind_eq_some_iff.1 h

theorem exists_layer_of_le (hle : m ≤ n) (h : a.layer t n = some r) : ∃ l, a.layer t m = some l := by
  induction hle generalizing r with
  | refl => exact ⟨r, h⟩
  | step _ ih =>
      obtain ⟨l, hl, -⟩ := exists_layer_of_succ h
      exact ih hl

/-- What a layer shows is a type that is there. -/
theorem has_of_layer (h : a.layer t n = some r) : a.Has (.type r) := by
  have hresolved : ∃ u, a.resolved u = some r := by
    cases n with
    | zero => exact ⟨t, h⟩
    | succ n =>
        obtain ⟨l, -, hinner⟩ := exists_layer_of_succ h
        rw [inner] at hinner
        split at hinner
        · exact ⟨_, hinner⟩
        · cases hinner
  obtain ⟨u, hu⟩ := hresolved
  obtain ⟨node, hget, -⟩ := exists_of_resolveWithin (resolved_eq_some_iff.1 hu)
  exact show a.Has (Visit.of r) from has_of_get? hget

/-! ### Layers that come round again -/

/-- **A layer behind as many as there are types comes round again**: two of the layers before it show the
same. -/
theorem layer_mem_periodicPts (hn : a.count .type ≤ n) (h : a.layer t n = some r) :
    a.layer t n ∈ periodicPts a.peel := by
  let shown : Finset (Option TypeId) := (Finset.range (a.count .type)).image fun i => some ⟨i⟩
  have hfew : shown.card < (Finset.range (a.count .type + 1)).card :=
    Nat.lt_of_le_of_lt Finset.card_image_le (by simp)
  have hshown : ∀ i ∈ Finset.range (a.count .type + 1), a.layer t i ∈ shown := by
    intro i hi
    have hle : i ≤ n := Nat.le_trans (Nat.lt_succ_iff.1 (Finset.mem_range.1 hi)) hn
    obtain ⟨l, hl⟩ := exists_layer_of_le hle h
    have hhas : a.Has (Visit.of l) := has_of_layer hl
    exact Finset.mem_image.2 ⟨l.index, Finset.mem_range.2 (has_of.1 hhas), hl.symm⟩
  obtain ⟨i, hi, j, hj, hne, hsame⟩ := Finset.exists_ne_map_eq_of_card_lt_of_maps_to hfew hshown
  -- the later one of the two is the earlier one, some layers further in
  have hround : ∀ {i j}, i < j → j ≤ n → a.layer t i = a.layer t j →
      a.layer t n ∈ periodicPts a.peel := by
    intro i j hlt hle hsame
    have hperiodic : IsPeriodicPt a.peel (j - i) (a.layer t i) := by
      rw [IsPeriodicPt, IsFixedPt, ← layer_add, Nat.add_sub_cancel' hlt.le, hsame]
    have hlast := hperiodic.apply_iterate (n - i)
    rw [← layer_add, Nat.add_sub_cancel' (hlt.le.trans hle)] at hlast
    exact mk_mem_periodicPts (Nat.sub_pos_of_lt hlt) hlast
  have hbound : ∀ {i}, i ∈ Finset.range (a.count .type + 1) → i ≤ n := fun hi =>
    Nat.le_trans (Nat.lt_succ_iff.1 (Finset.mem_range.1 hi)) hn
  rcases Nat.lt_or_gt_of_ne hne with hlt | hlt
  · exact hround hlt (hbound hj) hsame
  · exact hround hlt (hbound hi) hsame.symm

/-- On layers that come round again, going one further forgets nothing. -/
theorem peel_injOn (a : Arena) : Set.InjOn a.peel (periodicPts a.peel) :=
  (bijOn_periodicPts a.peel).injOn

theorem none_mem_periodicPts (a : Arena) : none ∈ periodicPts a.peel :=
  mk_mem_periodicPts Nat.one_pos (show a.peel none = none from rfl)

/-! ### Meeting -/

/-- Two types show the same at a layer. -/
def Meets (a : Arena) (t u : TypeId) (n : Nat) : Prop :=
  ∃ l r, a.layer t n = some l ∧ a.layer u n = some r ∧ (l = r ∨ a.SameBase l r)

theorem Meets.symm (h : a.Meets t u n) : a.Meets u t n := by
  obtain ⟨l, r, hl, hr, hsame⟩ := h
  exact ⟨r, l, hr, hl, hsame.imp Eq.symm SameBase.symm⟩

/-- **Types that meet do so early.** -/
theorem Meets.exists_le (h : a.Meets t u n) : ∃ m, m ≤ a.count .type ∧ a.Meets t u m := by
  induction n with
  | zero => exact ⟨0, Nat.zero_le _, h⟩
  | succ n ih =>
      by_cases hle : n + 1 ≤ a.count .type
      · exact ⟨n + 1, hle, h⟩
      · have hn : a.count .type ≤ n := by omega
        obtain ⟨l, r, hl, hr, rfl | hbase⟩ := h
        · -- the layers in front show the same already
          obtain ⟨x, hx, -⟩ := exists_layer_of_succ hl
          obtain ⟨y, hy, -⟩ := exists_layer_of_succ hr
          have hpeel : a.peel (a.layer t n) = a.peel (a.layer u n) := by
            rw [← layer_succ, ← layer_succ, hl, hr]
          have hsame := a.peel_injOn (layer_mem_periodicPts hn hx) (layer_mem_periodicPts hn hy) hpeel
          rw [hx, hy] at hsame
          exact ih ⟨x, y, hx, hy, Or.inl (Option.some.inj hsame)⟩
        · -- nothing comes round again at the end of an unfolding
          have hlast := layer_mem_periodicPts (Nat.le_succ_of_le hn) hl
          have hpeel : a.peel (a.layer t (n + 1)) = a.peel none := by
            rw [hl, peel, Option.bind_some, hbase.inner_eq_none.1]
            rfl
          have hnone := a.peel_injOn hlast a.none_mem_periodicPts hpeel
          rw [hl] at hnone
          nomatch hnone

/-- Types that meet at a layer also do so at a later one that one of them has. -/
theorem Meets.later (h : a.Meets t u m) (hle : m ≤ n) (hr : a.layer u n = some r) :
    ∃ l, a.layer t n = some l ∧ (l = r ∨ a.SameBase l r) := by
  obtain ⟨x, y, hx, hy, rfl | hbase⟩ := h
  · obtain ⟨k, rfl⟩ := Nat.exists_eq_add_of_le hle
    refine ⟨r, ?_, Or.inl rfl⟩
    rw [layer_add, hx, ← hy, ← layer_add, hr]
  · rcases Nat.eq_or_lt_of_le hle with rfl | hlt
    · obtain rfl := Option.some.inj (hy.symm.trans hr)
      exact ⟨x, hx, Or.inr hbase⟩
    · -- the end of an unfolding is the last layer
      obtain ⟨z, hz⟩ := exists_layer_of_le (Nat.succ_le_of_lt hlt) hr
      obtain ⟨y', hy', hinner⟩ := exists_layer_of_succ hz
      obtain rfl := Option.some.inj (hy.symm.trans hy')
      rw [hbase.inner_eq_none.2] at hinner
      nomatch hinner

theorem Meets.trans_of_le {x : TypeId} (h : a.Meets t u m) (h' : a.Meets u x n) (hle : m ≤ n) :
    a.Meets t x n := by
  obtain ⟨r, z, hr, hz, hsame'⟩ := h'
  obtain ⟨l, hl, hsame⟩ := h.later hle hr
  refine ⟨l, z, hl, hz, ?_⟩
  rcases hsame with rfl | hbase
  · exact hsame'
  · rcases hsame' with rfl | hbase'
    · exact Or.inr hbase
    · exact Or.inr (hbase.trans hbase')

/-- **Of two pairs of types that meet, the outer ones meet** at the later one of the two layers. -/
theorem Meets.trans {x : TypeId} (h : a.Meets t u m) (h' : a.Meets u x n) :
    ∃ k, a.Meets t x k := by
  rcases Nat.le_total m n with hle | hle
  · exact ⟨n, h.trans_of_le h' hle⟩
  · exact ⟨m, (h'.symm.trans_of_le h.symm hle).symm⟩

/-! ### Comparing -/

/-- A type that stands for nothing meets no other one. -/
theorem Meets.exists_resolved (h : a.Meets t u n) :
    ∃ l r, a.resolved t = some l ∧ a.resolved u = some r := by
  obtain ⟨x, y, hx, hy, -⟩ := h
  obtain ⟨l, hl⟩ := exists_layer_of_le (Nat.zero_le n) hx
  obtain ⟨r, hr⟩ := exists_layer_of_le (Nat.zero_le n) hy
  exact ⟨l, r, hl, hr⟩

theorem meets_zero_iff (hl : a.resolved t = some l) (hr : a.resolved u = some r) :
    a.Meets t u 0 ↔ l = r ∨ a.SameBase l r := by
  constructor
  · rintro ⟨x, y, hx, hy, hsame⟩
    obtain rfl := Option.some.inj (hl.symm.trans hx)
    obtain rfl := Option.some.inj (hr.symm.trans hy)
    exact hsame
  · exact fun hsame => ⟨l, r, hl, hr, hsame⟩

section

variable {node node' : TypeNode} (hl : a.resolved t = some l) (hr : a.resolved u = some r)
  (hget : a.get? l = some node) (hget' : a.get? r = some node')

include hl hr hget hget'

/-- Types that stand for arrays meet behind the arrays where their elements meet. -/
theorem meets_succ_iff_of_array {length length' : Option ExpressionId} {x y : TypeId}
    (hkind : node.kind = .array length x) (hkind' : node'.kind = .array length' y) :
    a.Meets t u (n + 1) ↔ a.Meets x y n := by
  rw [Meets, Meets, layer_of_array hl hget hkind, layer_of_array hr hget' hkind']

/-- Types that meet behind their outermost layer stand for arrays. -/
theorem Meets.exists_array (h : a.Meets t u (n + 1)) :
    (∃ length x, node.kind = .array length x) ∧ ∃ length y, node'.kind = .array length y := by
  have harray : ∀ {t l r : TypeId} {node : TypeNode}, a.resolved t = some l → a.get? l = some node →
      a.layer t (n + 1) = some r → ∃ length x, node.kind = .array length x := by
    intro t l r node hl hget hlayer
    by_contra hno
    have hnone := inner_of_not_array hget fun length x heq => hno ⟨length, x, heq⟩
    obtain ⟨z, hz⟩ := exists_layer_of_le (Nat.succ_le_succ (Nat.zero_le n)) hlayer
    rw [layer_succ, layer_zero, hl, peel, Option.bind_some, hnone] at hz
    nomatch hz
  obtain ⟨x, y, hx, hy, -⟩ := h
  exact ⟨harray hl hget hx, harray hr hget' hy⟩

end

/-- Types that stand for nothing are the same as no other ones. -/
theorem exists_resolved_of_sameWithin (h : a.sameWithin layers t u = .ok true) :
    ∃ l r, a.resolved t = some l ∧ a.resolved u = some r := by
  cases layers with
  | zero => cases h
  | succ layers =>
      simp only [resolved_eq_some_iff]
      rw [sameWithin] at h
      cases hl : a.resolveType t with
      | error fault =>
          rw [hl] at h
          cases h
      | ok found =>
          cases hr : a.resolveType u with
          | error fault =>
              rw [hl, hr] at h
              cases h
          | ok found' =>
              rw [hl, hr] at h
              cases found with
              | none => cases h
              | some l =>
                  cases found' with
                  | none => cases h
                  | some r => exact ⟨l, r, rfl, rfl⟩

/-- **Comparing within some layers tells whether two types meet** at one of them. -/
theorem sameWithin_eq_true_iff :
    a.sameWithin layers t u = .ok true ↔ ∃ n, n < layers ∧ a.Meets t u n := by
  induction layers generalizing t u with
  | zero => simp [sameWithin]
  | succ layers ih =>
      by_cases hresolved : ∃ l r, a.resolved t = some l ∧ a.resolved u = some r
      · obtain ⟨l, r, hl, hr⟩ := hresolved
        obtain ⟨node, hget, -⟩ := exists_of_resolveWithin (resolved_eq_some_iff.1 hl)
        obtain ⟨node', hget', -⟩ := exists_of_resolveWithin (resolved_eq_some_iff.1 hr)
        rw [sameWithin, resolved_eq_some_iff.1 hl, resolved_eq_some_iff.1 hr]
        simp only [get_eq_ok.2 hget, get_eq_ok.2 hget', bind, Except.bind]
        split
        · rename_i heq
          exact iff_of_true rfl ⟨0, Nat.succ_pos _, (meets_zero_iff hl hr).2 (Or.inl heq)⟩
        · rename_i hne
          have hzero : a.Meets t u 0 ↔ node.kind.IsPrimitive ∧ node'.kind = node.kind := by
            rw [meets_zero_iff hl hr, or_iff_right hne, sameBase_iff hget hget' hne]
          split
          · rename_i hk hk'
            exact iff_of_true rfl ⟨0, Nat.succ_pos _, hzero.2 ⟨hk ▸ trivial, hk'.trans hk.symm⟩⟩
          · rename_i hk hk'
            exact iff_of_true rfl ⟨0, Nat.succ_pos _, hzero.2 ⟨hk ▸ trivial, hk'.trans hk.symm⟩⟩
          · rename_i hk hk'
            exact iff_of_true rfl ⟨0, Nat.succ_pos _, hzero.2 ⟨hk ▸ trivial, hk'.trans hk.symm⟩⟩
          · -- arrays do not meet at the layer where they stand
            rename_i hk hk'
            have hstep := fun n => meets_succ_iff_of_array (n := n) hl hr hget hget' hk hk'
            rw [ih]
            constructor
            · rintro ⟨n, hlt, hmeets⟩
              exact ⟨n + 1, Nat.succ_lt_succ hlt, (hstep n).2 hmeets⟩
            · rintro ⟨n, hlt, hmeets⟩
              cases n with
              | zero =>
                  obtain ⟨hprimitive, -⟩ := hzero.1 hmeets
                  rw [hk] at hprimitive
                  exact hprimitive.elim
              | succ n => exact ⟨n, Nat.lt_of_succ_lt_succ hlt, (hstep n).1 hmeets⟩
          · rename_i hinteger hreal hboolean harray
            refine iff_of_false (fun h => by cases h) ?_
            rintro ⟨n, -, hmeets⟩
            cases n with
            | zero =>
                obtain ⟨hprimitive, hkind⟩ := hzero.1 hmeets
                cases hk : node.kind with
                | integer => exact hinteger hk (hkind.trans hk)
                | real => exact hreal hk (hkind.trans hk)
                | boolean => exact hboolean hk (hkind.trans hk)
                | named | array | record =>
                    rw [hk] at hprimitive
                    exact hprimitive
            | succ n =>
                obtain ⟨⟨length, x, hk⟩, length', y, hk'⟩ := hmeets.exists_array hl hr hget hget'
                exact harray length x length' y hk hk'
      · refine iff_of_false (fun h => hresolved (exists_resolved_of_sameWithin h)) ?_
        rintro ⟨n, -, hmeets⟩
        exact hresolved hmeets.exists_resolved

/-- **The bound of the comparison decides nothing.** -/
theorem sameType_eq_true_iff : a.sameType t u = .ok true ↔ ∃ n, a.Meets t u n := by
  rw [sameType, sameWithin_eq_true_iff]
  constructor
  · rintro ⟨n, -, hmeets⟩
    exact ⟨n, hmeets⟩
  · rintro ⟨n, hmeets⟩
    obtain ⟨m, hle, hmeets'⟩ := hmeets.exists_le
    exact ⟨m, Nat.lt_succ_of_le hle, hmeets'⟩

end Arena

end ProcLang

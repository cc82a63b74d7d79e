import ProcLang.Proofs.Parser.Built
import ProcLang.Proofs.Parser.Yields

/-!
# ProcLang.Proofs.Parser.Constructs

**Rules for what parsers build.** A `Situation` is what is known where a parser stands: a bound on
the unread tokens, the forest that has been built, and what is reserved and known beside it.
`Constructs g p h` says that the parser `p` leads from the situation `g` to the situation `h x`, if
it gives `x`. If it fails, the error is one of the text, and what has been built remains.

The bounds on loops and recursion are bounds on the unread tokens too. So the rules for them say
that it is enough if each round and each nested call takes a token: the bound of a loop or of a
recursion is never what ends it.
-/

namespace ProcLang

/-- An unexpected token is an error of the text. -/
theorem Token.unexpected_isInternal (token : Token) (expected : String) :
    (token.unexpected expected).isInternal = false := by
  unfold Token.unexpected
  split <;> rfl

namespace Parser

open State

variable {α β σ ι : Type}

/-! ### Runs -/

/-- The parser leads from states with `pre` to states with `post`. If it fails, it does so because
of the text, and leads to states with `fail`. -/
structure Ensures (p : Parser α) (pre : State → Prop) (post : α → State → Prop)
    (fail : State → Prop) : Prop where
  yields : ∀ {s x s'}, pre s → Yields p s x s' → post x s'
  fails : ∀ {s d s'}, pre s → Fails p s d s' → d.isInternal = false ∧ fail s'

namespace Ensures

variable {p : Parser α} {f : α → Parser β} {pre pre' : State → Prop} {mid : α → State → Prop}
  {post post' : β → State → Prop} {fail fail' : State → Prop}

theorem bind (hp : Ensures p pre mid fail) (hf : ∀ x, Ensures (f x) (mid x) post fail) :
    Ensures (p >>= f) pre post fail where
  yields hs hrun := by
    obtain ⟨x, s₁, hx, hy⟩ := yields_bind.1 hrun
    exact (hf x).yields (hp.yields hs hx) hy
  fails hs hrun := by
    rcases fails_bind.1 hrun with hx | ⟨x, s₁, hx, hy⟩
    · exact hp.fails hs hx
    · exact (hf x).fails (hp.yields hs hx) hy

theorem weaken {p : Parser β} (h : Ensures p pre post fail) (hpre : ∀ s, pre' s → pre s)
    (hpost : ∀ x s, post x s → post' x s) (hfail : ∀ s, fail s → fail' s) :
    Ensures p pre' post' fail' where
  yields hs hrun := hpost _ _ (h.yields (hpre _ hs) hrun)
  fails hs hrun := (h.fails (hpre _ hs) hrun).imp_right (hfail _)

theorem pure {x : β} (h : ∀ s, pre s → post x s) : Ensures (pure x) pre post fail where
  yields hs hrun := by
    obtain ⟨rfl, rfl⟩ := yields_pure.1 hrun
    exact h _ hs
  fails _ hrun := absurd hrun fails_pure

theorem throw {d : Diagnostic} (hd : d.isInternal = false) (h : ∀ s, pre s → fail s) :
    Ensures (throw d : Parser β) pre post fail where
  yields _ hrun := absurd hrun yields_throw
  fails hs hrun := by
    obtain ⟨rfl, rfl⟩ := fails_throw.1 hrun
    exact ⟨hd, h _ hs⟩

theorem get : Ensures (get : Parser State) pre (fun x s => pre s ∧ x = s) fail where
  yields hs hrun := by
    obtain ⟨rfl, rfl⟩ := yields_get.1 hrun
    exact ⟨hs, rfl⟩
  fails _ hrun := absurd hrun fails_get

theorem modifyGet {f : State → α × State} {post : α → State → Prop}
    (h : ∀ s, pre s → post (f s).1 (f s).2) :
    Ensures (modifyGet f : Parser α) pre post fail where
  yields hs hrun := by
    have hpost := h _ hs
    rwa [yields_modifyGet.1 hrun] at hpost
  fails _ hrun := absurd hrun fails_modifyGet

theorem modify {f : State → State} {post : PUnit → State → Prop}
    (h : ∀ s, pre s → post ⟨⟩ (f s)) : Ensures (modify f : Parser PUnit) pre post fail :=
  modifyGet h

theorem current {pre : State → Prop} :
    Ensures current pre (fun token s => pre s ∧ token = s.current) fail :=
  get.bind fun _ => pure fun _ ⟨hs, heq⟩ => ⟨hs, heq ▸ rfl⟩

/-- What is known of the values that a parser can give. -/
theorem and_yields {p : Parser α} {post : α → State → Prop} (h : Ensures p pre post fail)
    {Q : α → Prop} (hvalue : ∀ s x s', Yields p s x s' → Q x) :
    Ensures p pre (fun x s => post x s ∧ Q x) fail where
  yields hs hrun := ⟨h.yields hs hrun, hvalue _ _ _ hrun⟩
  fails := h.fails

end Ensures

/-! ### Taking tokens -/

/-- A parser that only takes tokens. -/
def Moves (p : Parser α) : Prop :=
  ∀ s₀ : State, Ensures p (fun s => ∃ w, s₀.Skips w s) (fun _ s => ∃ w, s₀.Skips w s)
    (fun s => ∃ w, s₀.Skips w s)

namespace Moves

variable {p : Parser α} {f : α → Parser β}

theorem bind (hp : Moves p) (hf : ∀ x, Moves (f x)) : Moves (p >>= f) :=
  fun s₀ => (hp s₀).bind fun x => hf x s₀

theorem pure (x : α) : Moves (pure x) := fun _ => .pure fun _ hs => hs

theorem throw {d : Diagnostic} (hd : d.isInternal = false) : Moves (throw d : Parser α) :=
  fun _ => .throw hd fun _ hs => hs

theorem get : Moves (get : Parser State) :=
  fun _ => Ensures.get.weaken (fun _ hs => hs) (fun _ _ hs => hs.1) fun _ hs => hs

theorem current : Moves current := get.bind fun _ => pure _

theorem advance : Moves advance := by
  refine fun s₀ => .modifyGet fun s ⟨v, hv⟩ => ?_
  obtain ⟨w, hw⟩ := s.exists_skips_advance
  exact ⟨v ++ w, hv.trans hw⟩

theorem discard (hp : Moves p) : Moves (discard p) := by
  change Moves ((fun _ => PUnit.unit) <$> p)
  rw [← bind_pure_comp]
  exact hp.bind fun _ => pure _

theorem skip : Moves skip := advance.discard

theorem note (event : Event) : Moves (note event) := by
  refine fun s₀ => .modify fun s ⟨v, hv⟩ => ?_
  exact ⟨v ++ [], hv.trans (s.skips_note event)⟩

theorem raise {d : Diagnostic} (hd : d.isInternal = false) : Moves (raise d : Parser α) :=
  (note _).bind fun _ => throw hd

theorem raisePast {d : Diagnostic} (hd : d.isInternal = false) :
    Moves (raisePast d : Parser α) :=
  (note _).bind fun _ => skip.bind fun _ => throw hd

theorem refuse (expected : String) : Moves (refuse expected : Parser α) :=
  current.bind fun token => raise (token.unexpected_isInternal expected)

theorem rejects (expected : String) :
    Moves (reject expected >>= fun d => MonadExcept.throw d : Parser α) := by
  intro s₀
  have hreject : Ensures (reject expected) (fun s => ∃ w, s₀.Skips w s)
      (fun d s => (∃ w, s₀.Skips w s) ∧ d.isInternal = false) (fun s => ∃ w, s₀.Skips w s) := by
    refine (Moves.current s₀).bind fun token => ((Moves.note _) s₀).bind fun _ => ?_
    have hd := token.unexpected_isInternal expected
    split
    · exact (Moves.skip s₀).bind fun _ => .pure fun s hs => ⟨hs, hd⟩
    · exact .pure fun s hs => ⟨hs, hd⟩
  refine hreject.bind fun d => ?_
  by_cases hd : d.isInternal = false
  · exact .throw hd fun s hs => hs.1
  · exact ⟨fun hs => absurd hs.2 hd, fun hs => absurd hs.2 hd⟩

theorem expectOneOf (kinds : List TokenKind) (expected : String) :
    Moves (expectOneOf kinds expected) := by
  refine current.bind fun token => ?_
  split
  · exact advance
  · exact rejects expected

theorem expect (kind : TokenKind) (expected : String) : Moves (expect kind expected) :=
  expectOneOf [kind] expected

theorem synchronizeWithin (consume stopBefore : List TokenKind) (fuel : Nat) :
    Moves (synchronizeWithin consume stopBefore fuel) := by
  induction fuel with
  | zero => exact pure _
  | succ fuel ih =>
      refine current.bind fun token => ?_
      split
      · exact pure _
      · refine skip.bind fun _ => ?_
        split
        · exact pure _
        · exact ih

theorem synchronize (consume stopBefore : List TokenKind) :
    Moves (synchronize consume stopBefore) :=
  get.bind fun _ => synchronizeWithin _ _ _

/-- A parser that only takes tokens does so from wherever it is run. -/
theorem skips (hp : Moves p) {s s' : State} {x : α} (hrun : Yields p s x s') :
    ∃ w, s.Skips w s' :=
  (hp s).yields ⟨[], .refl s⟩ hrun

end Moves

/-! ### Situations -/

/-- What is known where a parser stands: fewer than `tokens` tokens are unread, the forest with the
roots `roots` has been built, and the places `reserved` are taken for names whose nodes are not
there yet. The current token may be known, and the counter of a loop that is not there yet. -/
structure Situation where
  tokens : Nat
  roots : List Visit
  reserved : List Position
  next : Option Token
  counter : Option VariableId

/-- A forest has been built, and nothing else is known. -/
abbrev plain (tokens : Nat) (roots : List Visit) : Situation := ⟨tokens, roots, [], none, none⟩

/-- A state is in a situation, as seen from the state in which the building began. -/
structure Situation.Holds (g : Situation) (s₀ s : State) : Prop where
  built : Built s₀ g.roots g.reserved s
  length_lt : s.unread.length < g.tokens
  current : ∀ token ∈ g.next, s.current = token
  isCounter : ∀ x ∈ g.counter, s.arena.IsCounter x

/-- A parser leads from one situation to another. -/
def Constructs (g : Situation) (p : Parser α) (h : α → Situation) : Prop :=
  ∀ s₀, Sane s₀ → Ensures p (g.Holds s₀) (fun x => (h x).Holds s₀) (Remains s₀ [])

/-- Where nothing has been built, a parser builds a forest. It is known to do so where at most `n`
tokens are left. -/
def Builds (n : Nat) (p : Parser α) (ws : α → List Visit) : Prop :=
  ∀ m ≤ n, Constructs (plain m []) p fun x => plain m (ws x)

/-- A parser takes a token and builds a forest. -/
def Consumes (n : Nat) (p : Parser α) (ws : α → List Visit) : Prop :=
  ∀ m ≤ n, Constructs (plain (m + 1) []) p fun x => plain m (ws x)

/-- A parser takes the current token, which is not the end of the text, and builds a forest. -/
def ConsumesNext (n : Nat) (p : Parser α) (ws : α → List Visit) : Prop :=
  ∀ m ≤ n, ∀ token : Token, token.kind ≠ .endOfFile →
    Constructs ⟨m + 1, [], [], some token, none⟩ p fun x => plain m (ws x)

section

variable {p : Parser α} {f : α → Parser β} {m n k : Nat} {vs : List Visit} {us : α → List Visit}
  {ws : β → List Visit} {reserved : List Position} {next : Option Token}
  {counter : Option VariableId} {s₀ s s' : State}

namespace Situation.Holds

/-- Tokens are taken; what was reserved and built stays. -/
theorem skips {w : List Token} (h : Holds ⟨m, vs, reserved, next, counter⟩ s₀ s) (hsane : Sane s₀)
    (hskips : s.Skips w s') : Holds ⟨m, vs, reserved, none, counter⟩ s₀ s' where
  built := h.built.skips hsane hskips
  length_lt := Nat.lt_of_le_of_lt hskips.reads.length_le h.length_lt
  current := nofun
  isCounter x hx := (h.isCounter x hx).extend hskips.reads.arena

/-- A token that is there leaves one token less. -/
theorem length_advance {g : Situation} (h : g.Holds s₀ s) (hsane : Sane s₀) (hm : g.tokens = m + 1)
    (hkind : s.current.kind ≠ .endOfFile) : s.advance.2.unread.length < m := by
  obtain ⟨rest, hunread⟩ := exists_unread_of_current (hsane.of_built h.built).ending hkind
  have hlength := h.length_lt
  rw [hm, hunread, List.length_cons] at hlength
  rw [(reads_advance hunread).2.1]
  exact Nat.lt_of_succ_lt_succ hlength

/-- The current token is taken. -/
theorem advance {token : Token} (h : Holds ⟨m + 1, vs, reserved, some token, counter⟩ s₀ s)
    (hsane : Sane s₀) (hkind : token.kind ≠ .endOfFile) :
    Holds ⟨m, vs, reserved, none, counter⟩ s₀ s.advance.2 := by
  have hcurrent : s.current = token := h.current token rfl
  obtain ⟨w, hskips⟩ := s.exists_skips_advance
  refine { h.skips hsane hskips with length_lt := ?_ }
  exact h.length_advance hsane rfl (hcurrent ▸ hkind)

/-- The current token is taken, and a name will stand for it. -/
theorem advance_reserve (h : Holds ⟨m + 1, vs, reserved, next, counter⟩ s₀ s)
    (hsane : Sane s₀) (hkind : s.current.kind ≠ .endOfFile) :
    Holds ⟨m, vs, s.current.start :: reserved, none, counter⟩ s₀ s.advance.2 := by
  have hskips := skips_advance_of_current (hsane.of_built h.built).ending hkind
  exact ⟨h.built.reserve hsane hskips, h.length_advance hsane rfl hkind, nofun,
    (h.skips hsane hskips).isCounter⟩

end Situation.Holds

theorem Moves.ensures (hp : Moves p) (hsane : Sane s₀) :
    Ensures p (Situation.Holds ⟨m, vs, reserved, next, counter⟩ s₀)
      (fun _ => Situation.Holds ⟨m, vs, reserved, none, counter⟩ s₀) (Remains s₀ []) where
  yields hs hrun := by
    obtain ⟨w, hskips⟩ := hp.skips hrun
    exact hs.skips hsane hskips
  fails hs hrun := by
    obtain ⟨hd, w, hskips⟩ := (hp _).fails ⟨[], .refl _⟩ hrun
    exact ⟨hd, (hs.skips hsane hskips).built.remains.lose⟩

/-! ### Rules -/

namespace Constructs

variable {g g' : Situation} {mid : α → Situation} {h h' : β → Situation}

theorem bind (hp : Constructs g p mid) (hf : ∀ x, Constructs (mid x) (f x) h) :
    Constructs g (p >>= f) h :=
  fun s₀ hsane => (hp s₀ hsane).bind fun x => hf x s₀ hsane

theorem weaken {p : Parser β} (hp : Constructs g p h)
    (hg : ∀ s₀ s, g'.Holds s₀ s → g.Holds s₀ s)
    (hh : ∀ x s₀ s, (h x).Holds s₀ s → (h' x).Holds s₀ s) : Constructs g' p h' :=
  fun s₀ hsane => (hp s₀ hsane).weaken (hg s₀) (fun x => hh x s₀) fun _ hs => hs

/-- There are no states with fewer than no unread tokens. -/
theorem of_zero {p : Parser β} : Constructs ⟨0, vs, reserved, next, counter⟩ p h :=
  fun _ _ => ⟨fun hs => absurd hs.length_lt (Nat.not_lt_zero _),
    fun hs => absurd hs.length_lt (Nat.not_lt_zero _)⟩

/-- A parser may take more tokens than it is known to. -/
theorem loosen {p : Parser β} (hle : m ≤ n)
    (hp : Constructs g p fun x => plain m (ws x)) : Constructs g p fun x => plain n (ws x) :=
  hp.weaken (fun _ _ hs => hs) fun _ _ _ hs =>
    { hs with length_lt := Nat.lt_of_lt_of_le hs.length_lt hle }

/-- What the current token is need not be known. -/
theorem forget {p : Parser β} (hp : Constructs ⟨m, vs, reserved, none, counter⟩ p h) :
    Constructs ⟨m, vs, reserved, next, counter⟩ p h :=
  hp.weaken (fun _ _ hs => { hs with current := nofun }) fun _ _ _ hs => hs

theorem map {f : α → β} (hp : Constructs g p fun x => h (f x)) : Constructs g (f <$> p) h := by
  rw [← bind_pure_comp]
  exact hp.bind fun x _ _ => .pure fun _ hs => hs

theorem pure {x : β} (hroots : vs.Perm (ws x)) (hle : m ≤ n) :
    Constructs ⟨m, vs, [], next, counter⟩ (pure x) fun x => plain n (ws x) :=
  fun _ _ => .pure fun _ hs =>
    ⟨hs.built.perm hroots, Nat.lt_of_lt_of_le hs.length_lt hle, nofun, nofun⟩

/-- A step that only takes tokens. -/
theorem move_bind (hp : Moves p)
    (hf : ∀ x, Constructs ⟨m, vs, reserved, none, counter⟩ (f x) h) :
    Constructs ⟨m, vs, reserved, next, counter⟩ (p >>= f) h :=
  fun s₀ hsane => (hp.ensures hsane).bind fun x => hf x s₀ hsane

theorem fails {p : Parser β} (hp : Moves p) (hnever : ∀ s x s', ¬ Yields p s x s') :
    Constructs ⟨m, vs, reserved, next, counter⟩ p h :=
  fun _ hsane => ⟨fun _ hrun => absurd hrun (hnever _ _ _), (hp.ensures hsane).fails⟩

/-- After a look at it, the current token is known. -/
theorem current_bind {f : Token → Parser β} (hf : ∀ token, (∀ t ∈ next, t = token) →
      Constructs ⟨m, vs, reserved, some token, counter⟩ (f token) h) :
    Constructs ⟨m, vs, reserved, next, counter⟩ (Parser.current >>= f) h := by
  refine fun s₀ hsane => Ensures.current.bind fun token => ?_
  by_cases hnext : ∀ t ∈ next, t = token
  · refine (hf token hnext s₀ hsane).weaken (fun s hs => ?_) (fun _ _ hs => hs) fun _ hs => hs
    exact { hs.1 with current := fun t ht => (hs.2.symm.trans (Option.mem_some.1 ht)) }
  · have hnever : ∀ s, ¬ (Situation.Holds ⟨m, vs, reserved, next, counter⟩ s₀ s ∧
        token = s.current) :=
      fun s hs => hnext fun t ht => (hs.1.current t ht).symm.trans hs.2.symm
    exact ⟨fun hs => absurd hs (hnever _), fun hs => absurd hs (hnever _)⟩

/-- The span of a node begins where it is said to. -/
theorem span_bind {start : Position} {f : Span → Parser β}
    (hf : ∀ stop, Constructs ⟨m, vs, reserved, next, counter⟩ (f ⟨start, stop⟩) h) :
    Constructs ⟨m, vs, reserved, next, counter⟩ (spanFrom start >>= f) h := by
  intro s₀ hsane
  constructor
  · intro s x s' hs hrun
    exact (hf s.lastStop s₀ hsane).yields hs (yields_spanFrom_bind.1 hrun)
  · intro s d s' hs hrun
    rcases fails_bind.1 hrun with hspan | ⟨span, s₁, hspan, hrest⟩
    · rcases fails_bind.1 hspan with hget | ⟨_, _, -, hpure⟩
      · exact absurd hget fails_get
      · exact absurd hpure fails_pure
    · obtain ⟨rfl, rfl⟩ := yields_spanFrom.1 hspan
      exact (hf _ s₀ hsane).fails hs hrest

/-- The current token is taken. -/
theorem advance_bind {token : Token} {f : Token → Parser β} (hkind : token.kind ≠ .endOfFile)
    (hf : Constructs ⟨m, vs, reserved, none, counter⟩ (f token) h) :
    Constructs ⟨m + 1, vs, reserved, some token, counter⟩ (Parser.advance >>= f) h := by
  intro s₀ hsane
  have htakes : Ensures Parser.advance
      (Situation.Holds ⟨m + 1, vs, reserved, some token, counter⟩ s₀)
      (fun t s => Situation.Holds ⟨m, vs, reserved, none, counter⟩ s₀ s ∧ t = token)
      (Remains s₀ []) := by
    refine .modifyGet fun s hs => ⟨hs.advance hsane hkind, ?_⟩
    exact s.advance_fst.trans (hs.current token rfl)
  refine htakes.bind fun t => ?_
  by_cases heq : t = token
  · subst heq
    exact (hf s₀ hsane).weaken (fun _ hs => hs.1) (fun _ _ hs => hs) fun _ hs => hs
  · exact ⟨fun hs => absurd hs.2 heq, fun hs => absurd hs.2 heq⟩

theorem skip_bind {token : Token} {f : Unit → Parser β} (hkind : token.kind ≠ .endOfFile)
    (hf : Constructs ⟨m, vs, reserved, none, counter⟩ (f ()) h) :
    Constructs ⟨m + 1, vs, reserved, some token, counter⟩ (skip >>= f) h := by
  have hskip : skip >>= f = Parser.advance >>= fun _ => f () := by
    change ((fun _ => PUnit.unit) <$> Parser.advance) >>= f = _
    rw [map_eq_pure_bind, bind_assoc]
    simp only [pure_bind]
  rw [hskip]
  exact .advance_bind hkind hf

/-- The current token is taken, and a name will stand for it. -/
theorem name_bind {token : Token} {f : Token → Parser β} (hkind : token.kind ≠ .endOfFile)
    (hf : Constructs ⟨m, vs, token.start :: reserved, none, counter⟩ (f token) h) :
    Constructs ⟨m + 1, vs, reserved, some token, counter⟩ (Parser.advance >>= f) h := by
  intro s₀ hsane
  have htakes : Ensures Parser.advance
      (Situation.Holds ⟨m + 1, vs, reserved, some token, counter⟩ s₀)
      (fun t s => Situation.Holds ⟨m, vs, token.start :: reserved, none, counter⟩ s₀ s ∧ t = token)
      (Remains s₀ []) := by
    refine .modifyGet fun s hs => ?_
    obtain rfl := hs.current token rfl
    exact ⟨hs.advance_reserve hsane hkind, s.advance_fst⟩
  refine htakes.bind fun t => ?_
  by_cases heq : t = token
  · subst heq
    exact (hf s₀ hsane).weaken (fun _ hs => hs.1) (fun _ _ hs => hs) fun _ hs => hs
  · exact ⟨fun hs => absurd hs.2 heq, fun hs => absurd hs.2 heq⟩

/-- A part that builds a forest of its own beside what is there. -/
theorem beside (hp : Constructs ⟨m, [], [], next, none⟩ p fun x => plain n (us x)) :
    Constructs ⟨m, vs, reserved, next, counter⟩ p
      fun x => ⟨n, vs ++ us x, reserved, none, counter⟩ := by
  intro s₀ hsane
  constructor
  · intro s x s' hs hrun
    have hown := (hp s (hsane.of_built hs.built)).yields
      ⟨.refl s, hs.length_lt, hs.current, nofun⟩ hrun
    have htrans := hs.built.trans hsane hown.built
    rw [List.append_nil] at htrans
    exact ⟨htrans, hown.length_lt, nofun, fun x hx =>
      (hs.isCounter x hx).extend hown.built.extendedBy⟩
  · intro s d s' hs hrun
    obtain ⟨hd, hown⟩ := (hp s (hsane.of_built hs.built)).fails
      ⟨.refl s, hs.length_lt, hs.current, nofun⟩ hrun
    exact ⟨hd, (hs.built.remains.trans hsane hown).lose⟩

theorem call_bind (hp : Builds n p us) (hm : m ≤ n)
    (hf : ∀ x, Constructs ⟨m, vs ++ us x, reserved, none, counter⟩ (f x) h) :
    Constructs ⟨m, vs, reserved, next, counter⟩ (p >>= f) h :=
  (beside (hp m hm).forget).bind hf

/-- A part that takes the current token. -/
theorem next_bind {token : Token} (hp : ConsumesNext n p us) (hm : m ≤ n)
    (hkind : token.kind ≠ .endOfFile)
    (hf : ∀ x, Constructs ⟨m, vs ++ us x, reserved, none, counter⟩ (f x) h) :
    Constructs ⟨m + 1, vs, reserved, some token, counter⟩ (p >>= f) h :=
  (beside (hp m hm token hkind)).bind hf

/-- A name is taken that a node will stand for. -/
theorem expect_name_bind {expected : String} {f : Token → Parser β}
    (hf : ∀ token, Constructs ⟨m, vs, token.start :: reserved, none, counter⟩ (f token) h) :
    Constructs ⟨m + 1, vs, reserved, next, counter⟩ (expect .identifier expected >>= f) h := by
  intro s₀ hsane
  have htakes : Ensures (expect .identifier expected)
      (Situation.Holds ⟨m + 1, vs, reserved, next, counter⟩ s₀)
      (fun token => Situation.Holds ⟨m, vs, token.start :: reserved, none, counter⟩ s₀)
      (Remains s₀ []) := by
    refine ⟨fun {s token s'} hs hrun => ?_, ((Moves.expect _ _).ensures hsane).fails⟩
    obtain ⟨hkind, hadvance⟩ := yields_expect.1 hrun
    have htaken := hs.advance_reserve hsane (by rw [hkind]; nofun)
    rwa [← s.advance_fst, hadvance] at htaken
  exact htakes.bind fun token => hf token s₀ hsane

/-- A node over all that has been built. If it is a loop, its counter is known to be one. -/
theorem add {family : Family} {node : Node family} (hchildren : (Node.children family node).Perm vs)
    (hraw : Node.Raw family node) (hcounter : Node.counter? family node = counter) :
    Constructs ⟨m, vs, (Node.start? family node).toList, next, counter⟩
      (Parser.add family node) fun id => plain m [Visit.of id] := by
  refine fun s₀ hsane => .modifyGet fun s hs => ?_
  have hbuilt : Built s₀ vs ((Node.start? family node).toList ++ []) s := by
    rw [List.append_nil]
    exact hs.built
  exact ⟨hbuilt.add hchildren hraw fun x hx => hs.isCounter x (hcounter.symm.trans hx),
    hs.length_lt, nofun, nofun⟩

end Constructs

namespace Consumes

theorem builds {ws : α → List Visit} (hp : Consumes n p ws) : Builds n p ws := by
  intro m hm
  cases m with
  | zero => exact .of_zero
  | succ m => exact (hp m (Nat.le_of_succ_le hm)).loosen (Nat.le_succ m)

theorem consumesNext {ws : α → List Visit} (hp : Consumes n p ws) : ConsumesNext n p ws :=
  fun m hm _ _ => (hp m hm).forget

end Consumes

/-! ### Loops and recursion -/

/-- The value that a round goes on or ends with. -/
def Round.value : Round σ → σ
  | .more next => next
  | .done last => last

/-- Where a round of a loop leads that takes a token unless it is the last one. -/
def Round.situation (roots : σ → List Visit) (tokens : Nat) : Round σ → Situation
  | .more value => plain tokens (roots value)
  | .done value => plain (tokens + 1) (roots value)

section

variable {g : Situation} {roots : σ → List Visit} {x : σ}

theorem Constructs.more (hroots : vs.Perm (roots x)) :
    Constructs ⟨m, vs, [], next, counter⟩ (Pure.pure (Round.more x)) (Round.situation roots m) :=
  fun _ _ => .pure fun _ hs => ⟨hs.built.perm hroots, hs.length_lt, nofun, nofun⟩

theorem Constructs.done (hroots : vs.Perm (roots x)) :
    Constructs ⟨m + 1, vs, [], next, counter⟩ (Pure.pure (Round.done x))
      (Round.situation roots m) :=
  fun _ _ => .pure fun _ hs => ⟨hs.built.perm hroots, hs.length_lt, nofun, nofun⟩

end

/-- **Loops.** A round that is not the last one takes a token. -/
theorem Constructs.loop (roots : σ → List Visit) {step : σ → Parser (Round σ)}
    (hstep : ∀ m < n, ∀ value,
      Constructs (plain (m + 1) (roots value)) (step value) (Round.situation roots m)) (value : σ) :
    Constructs (plain n (roots value)) (loop step value) fun x => plain n (roots x) := by
  have within : ∀ fuel m, m ≤ fuel → m ≤ n → ∀ value,
      Constructs (plain m (roots value)) (loopWithin step fuel value) fun x => plain n (roots x) := by
    intro fuel
    induction fuel with
    | zero =>
        intro m hm _ value
        obtain rfl := Nat.le_zero.1 hm
        exact .of_zero
    | succ fuel ih =>
        intro m hm hn value
        cases m with
        | zero => exact .of_zero
        | succ m =>
            refine (hstep m hn value).bind fun round => ?_
            cases round with
            | more next =>
                exact ih m (Nat.le_of_succ_le_succ hm) (Nat.le_of_succ_le hn) next
            | done value => exact .pure (.refl _) hn
  refine fun s₀ hsane => Ensures.get.bind fun s => ?_
  refine (within (s.unread.length + 1) (min (s.unread.length + 1) n) (Nat.min_le_left _ _)
    (Nat.min_le_right _ _) value s₀ hsane).weaken ?_ (fun _ _ hs => hs) fun _ hs => hs
  rintro s' ⟨hs, rfl⟩
  exact { hs with length_lt := Nat.lt_min.2 ⟨Nat.lt_succ_self _, hs.length_lt⟩ }

/-- **Recursion.** A parser that does something with the tokens that are left, if nested calls do it
with fewer tokens, does it with any number of tokens. -/
theorem Constructs.recursive {f : (ι → Parser α) → ι → Parser α} {ws : ι → α → List Visit}
    (left : Nat → Nat) (hleft : ∀ {m n}, m ≤ n → left m ≤ left n)
    (layer : ∀ (self : ι → Parser α) n,
      (∀ i, ∀ m ≤ n, Constructs (plain m []) (self i) fun x => plain (left m) (ws i x)) →
      ∀ i, Constructs (plain (n + 1) []) (f self i) fun x => plain (left (n + 1)) (ws i x))
    (i : ι) (n : Nat) :
    Constructs (plain n []) (Parser.recursive f i) fun x => plain (left n) (ws i x) := by
  have within : ∀ fuel i, ∀ m ≤ fuel,
      Constructs (plain m []) (unfold f fuel i) fun x => plain (left m) (ws i x) := by
    intro fuel
    induction fuel with
    | zero =>
        intro i m hm
        obtain rfl := Nat.le_zero.1 hm
        exact .of_zero
    | succ fuel ih =>
        intro i m hm
        cases m with
        | zero => exact .of_zero
        | succ m =>
            refine layer (unfold f fuel) m (fun i k hk => ?_) i
            exact ih i k (Nat.le_trans hk (Nat.le_of_succ_le_succ hm))
  refine fun s₀ hsane => Ensures.get.bind fun s => ?_
  have hrun := (within (s.unread.length + 1) i (min (s.unread.length + 1) n)
    (Nat.min_le_left _ _)).loosen (hleft (Nat.min_le_right _ _)) s₀ hsane
  refine hrun.weaken ?_ (fun _ _ hs => hs) fun _ hs => hs
  rintro s' ⟨hs, rfl⟩
  exact { hs with length_lt := Nat.lt_min.2 ⟨Nat.lt_succ_self _, hs.length_lt⟩ }

/-- A parser that takes a token, if nested calls build trees, takes a token. -/
theorem Consumes.recursive {f : (ι → Parser α) → ι → Parser α} {ws : ι → α → List Visit}
    (layer : ∀ {self : ι → Parser α} {n}, (∀ i, Builds n (self i) (ws i)) → ∀ i,
      Constructs (plain (n + 1) []) (f self i) fun x => plain n (ws i x)) (i : ι) :
    Consumes n (Parser.recursive f i) (ws i) :=
  fun m _ => Constructs.recursive Nat.pred Nat.pred_le_pred
    (fun _ _ hself => layer fun i m hm => (hself i m hm).loosen (Nat.pred_le m)) i (m + 1)

/-- A parser that builds a tree, if nested calls behind a token do, builds a tree. -/
theorem Builds.recursive {f : (ι → Parser α) → ι → Parser α} {ws : ι → α → List Visit}
    (layer : ∀ {self : ι → Parser α} {n}, (∀ i, Builds n (self i) (ws i)) → ∀ i,
      Constructs (plain (n + 1) []) (f self i) fun x => plain (n + 1) (ws i x)) (i : ι) :
    Builds n (Parser.recursive f i) (ws i) :=
  fun m _ => Constructs.recursive id id (fun _ _ hself => layer hself) i m

/-- A loop whose rounds do not fail fails only where its bound is met. -/
theorem isInternal_of_fails_loop {step : σ → Parser (Round σ)}
    (hstep : ∀ value s d s', ¬ Fails (step value) s d s') {value : σ} {d : Diagnostic}
    (h : Fails (loop step value) s d s') : d.isInternal = true := by
  have hstuck : ∀ {s s' d}, Fails (stuck : Parser σ) s d s' → d.isInternal = true := by
    intro s s' d hrun
    rcases fails_bind.1 hrun with hcurrent | ⟨token, s₁, -, hraise⟩
    · rcases fails_bind.1 hcurrent with hget | ⟨_, _, -, hpure⟩
      · exact absurd hget fails_get
      · exact absurd hpure fails_pure
    · rcases fails_bind.1 hraise with hnote | ⟨_, _, -, hthrow⟩
      · exact absurd hnote fails_modify
      · obtain ⟨rfl, -⟩ := fails_throw.1 hthrow
        rfl
  have within : ∀ fuel value {s s' d}, Fails (loopWithin step fuel value) s d s' →
      d.isInternal = true := by
    intro fuel
    induction fuel with
    | zero => exact fun _ => hstuck
    | succ fuel ih =>
        intro value s s' d hrun
        rcases fails_bind.1 hrun with hround | ⟨round, s₁, -, hrest⟩
        · exact absurd hround (hstep _ _ _ _)
        · cases round with
          | more next => exact ih next hrest
          | done last => exact absurd hrest fails_pure
  rcases fails_bind.1 h with hget | ⟨_, _, -, hrest⟩
  · exact absurd hget fails_get
  · exact within _ _ hrest

end

/-! ### Recovery -/

theorem outcome_tryCatch (p : Parser α) (handle : Diagnostic → Parser α) (s : State) :
    (tryCatch p handle).outcome s =
      match p.outcome s with
      | (.ok x, s') => (.ok x, s')
      | (.error d, s') => (handle d).outcome s' := by
  simp only [outcome, tryCatch, tryCatchThe, MonadExceptOf.tryCatch, ExceptT.tryCatch,
    ExceptT.run_mk, bind, StateT.bind]
  rw [show ExceptT.run p s = p s from rfl]
  rcases p s with ⟨d | x, s'⟩
  · rfl
  · rfl

/-- Dropping tokens always comes to its end. -/
theorem exists_yields_synchronizeWithin (consume stopBefore : List TokenKind) (fuel : Nat)
    (s : State) : ∃ s', Yields (synchronizeWithin consume stopBefore fuel) s () s' := by
  induction fuel generalizing s with
  | zero => exact ⟨s, yields_pure.2 ⟨rfl, rfl⟩⟩
  | succ fuel ih =>
      simp only [synchronizeWithin, yields_current_bind]
      split
      · exact ⟨s, yields_pure.2 ⟨rfl, rfl⟩⟩
      · simp only [yields_skip_bind]
        split
        · exact ⟨_, yields_pure.2 ⟨rfl, rfl⟩⟩
        · exact ih _

theorem exists_yields_synchronize (consume stopBefore : List TokenKind) (s : State) :
    ∃ s', Yields (synchronize consume stopBefore) s () s' := by
  simp only [synchronize, yields_get_bind]
  exact exists_yields_synchronizeWithin _ _ _ _

/-- Whoever goes on after an error does not fail. -/
theorem not_fails_recovering {consume stopBefore : List TokenKind} {fallback : α} {p : Parser α}
    {s s' : State} {d : Diagnostic} : ¬ Fails (recovering consume stopBefore fallback p) s d s' := by
  intro h
  rw [Fails, recovering, outcome_tryCatch] at h
  rcases hrun : p.outcome s with ⟨e | x, s₁⟩
  · rw [hrun] at h
    have hrest : Fails (do record e; synchronize consume stopBefore; return fallback : Parser α)
        s₁ d s' := h
    rcases fails_bind.1 hrest with hrecord | ⟨_, s₂, -, hrest⟩
    · exact fails_modify hrecord
    rcases fails_bind.1 hrest with hsync | ⟨_, _, -, hpure⟩
    · obtain ⟨s₃, hyields⟩ := exists_yields_synchronize consume stopBefore s₂
      cases hyields.symm.trans hsync
    · exact fails_pure hpure
  · rw [hrun] at h
    cases h

theorem yields_recovering {p : Parser α} {consume stopBefore : List TokenKind} {fallback x : α}
    {s s' : State} (h : Yields (recovering consume stopBefore fallback p) s x s') :
    Yields p s x s' ∨ x = fallback := by
  rw [Yields, recovering, outcome_tryCatch] at h
  rcases hrun : p.outcome s with ⟨d | y, s₁⟩
  · rw [hrun] at h
    refine Or.inr ?_
    have hrest : Yields (do record d; synchronize consume stopBefore; return fallback : Parser α)
        s₁ x s' := h
    obtain ⟨_, s₂, -, hrest⟩ := yields_bind.1 hrest
    obtain ⟨_, s₃, -, hrest⟩ := yields_bind.1 hrest
    exact (yields_pure.1 hrest).1
  · rw [hrun] at h
    exact Or.inl (hrun.trans h)

/-- Dropping tokens drops the current one, unless one must stop in front of it. -/
theorem synchronize_length_lt {consume stopBefore : List TokenKind} {s s' : State} {token : Token}
    {rest : List Token} (hunread : s.unread = token :: rest) (hkind : token.kind ≠ .endOfFile)
    (hstop : token.isOneOf stopBefore = false)
    (hrun : Yields (synchronize consume stopBefore) s () s') :
    s'.unread.length < s.unread.length := by
  have hcontinues : ¬ ((s.current.kind = .endOfFile || s.current.isOneOf stopBefore) = true) := by
    simp [current_of_unread hunread, hkind, hstop]
  have hrest : s.advance.2.unread = rest := (reads_advance hunread).2.1
  simp only [synchronize, yields_get_bind, synchronizeWithin, yields_current_bind,
    if_neg hcontinues, yields_skip_bind] at hrun
  have hle : s'.unread.length ≤ s.advance.2.unread.length := by
    split at hrun
    · obtain ⟨-, rfl⟩ := yields_pure.1 hrun
      exact Nat.le_refl _
    · obtain ⟨w, hskips⟩ := (Moves.synchronizeWithin _ _ _).skips hrun
      exact hskips.reads.length_le
  rw [hunread, List.length_cons]
  rw [hrest] at hle
  exact Nat.lt_succ_of_le hle

/-- Where `token` is the current token, a parser takes it and goes on from the trees `vs`. If it
fails, the trees stay where they are. -/
def Extends (token : Token) (m : Nat) (vs : List Visit) (p : Parser α) (ws : α → List Visit) :
    Prop :=
  ∀ s₀, Sane s₀ → Ensures p (Situation.Holds ⟨m + 1, vs, [], some token, none⟩ s₀)
    (fun x => (plain m (ws x)).Holds s₀)
    (fun s => Remains s₀ vs s ∧
      (s.unread.length < m ∨ s.unread.length < m + 1 ∧ s.current = token))

namespace Extends

variable {token : Token} {m n : Nat} {vs : List Visit} {p : Parser α} {us : α → List Visit}
  {ws : β → List Visit} {s₀ s s' : State}

/-- A token has been taken, or the current one is still there. -/
theorem length_lt_or_current {w : List Token} (hs : s.unread.length < m + 1)
    (hcurrent : s.current = token) (hreads : s.Reads w s') :
    s'.unread.length < m ∨ s'.unread.length < m + 1 ∧ s'.current = token := by
  have hunread := hreads.unread
  cases w with
  | nil =>
      rw [List.nil_append] at hunread
      refine Or.inr ⟨hunread ▸ hs, ?_⟩
      rw [← hcurrent, State.current, State.current, ← hunread, hreads.ending]
  | cons first rest =>
      rw [hunread, List.cons_append, List.length_cons, List.length_append] at hs
      exact Or.inl (by omega)

theorem current_bind {f : Token → Parser β} (hf : Extends token m vs (f token) ws) :
    Extends token m vs (Parser.current >>= f) ws := by
  refine fun s₀ hsane => Ensures.current.bind fun t => ?_
  by_cases heq : t = token
  · subst heq
    exact (hf s₀ hsane).weaken (fun _ hs => hs.1) (fun _ _ hs => hs) fun _ hs => hs
  · have hnever : ∀ s, ¬ (Situation.Holds ⟨m + 1, vs, [], some token, none⟩ s₀ s ∧
        t = s.current) :=
      fun s hs => heq (hs.2.trans (hs.1.current token rfl))
    exact ⟨fun hs => absurd hs (hnever _), fun hs => absurd hs (hnever _)⟩

theorem refuse (expected : String) : Extends token m vs (refuse expected) ws := by
  refine fun s₀ hsane => ⟨fun _ hrun => absurd hrun yields_refuse, fun hs hrun => ?_⟩
  obtain ⟨hd, w, hskips⟩ := (Moves.refuse expected _).fails ⟨[], .refl _⟩ hrun
  exact ⟨hd, (hs.skips hsane hskips).built.remains,
    length_lt_or_current hs.length_lt (hs.current token rfl) hskips.reads⟩

/-- A part that builds a forest of its own beside what is there. -/
theorem call {f : α → β} (hp : ConsumesNext n p us) (hm : m ≤ n) (hkind : token.kind ≠ .endOfFile)
    (hroots : ∀ x, (vs ++ us x).Perm (ws (f x))) :
    Extends token m vs (p >>= fun x => pure (f x)) ws := by
  intro s₀ hsane
  have hown : Ensures p (Situation.Holds ⟨m + 1, vs, [], some token, none⟩ s₀)
      (fun x => (plain m (ws (f x))).Holds s₀) (fun s => Remains s₀ vs s ∧
        (s.unread.length < m ∨ s.unread.length < m + 1 ∧ s.current = token)) := by
    constructor
    · intro s x s' hs hrun
      have hcall := (hp m hm token hkind s (hsane.of_built hs.built)).yields
        ⟨.refl s, hs.length_lt, hs.current, nofun⟩ hrun
      exact ⟨(hs.built.trans hsane hcall.built).perm (hroots x), hcall.length_lt, nofun, nofun⟩
    · intro s d s' hs hrun
      obtain ⟨hd, hcall⟩ := (hp m hm token hkind s (hsane.of_built hs.built)).fails
        ⟨.refl s, hs.length_lt, hs.current, nofun⟩ hrun
      obtain ⟨w, hreads⟩ := hcall.reads
      exact ⟨hd, hs.built.remains.trans hsane hcall,
        length_lt_or_current hs.length_lt (hs.current token rfl) hreads⟩
  exact hown.bind fun x => .pure fun _ hs => hs

/-- **Going on after an error.** The error is recorded, and the tokens up to a better place are
dropped. At least one token is taken, be it before the error or behind it. -/
theorem recovering {p : Parser β} {consume stopBefore : List TokenKind} {fallback : β}
    (hp : Extends token m vs p ws) (hkind : token.kind ≠ .endOfFile)
    (hstop : token.isOneOf stopBefore = false) (hfallback : ws fallback = vs) :
    Constructs ⟨m + 1, vs, [], some token, none⟩ (recovering consume stopBefore fallback p)
      fun x => plain m (ws x) := by
  refine fun s₀ hsane => ⟨fun {s x s'} hs hrun => ?_,
    fun _ hrun => absurd hrun not_fails_recovering⟩
  rcases yields_or_fails p s with ⟨y, s₁, hy⟩ | ⟨d, s₁, hd⟩
  · rw [Yields, Parser.recovering, outcome_tryCatch, show p.outcome s = _ from hy] at hrun
    exact (hp s₀ hsane).yields hs (hy.trans hrun)
  · rw [Yields, Parser.recovering, outcome_tryCatch, show p.outcome s = _ from hd] at hrun
    have hrest : Yields (do record d; synchronize consume stopBefore; return fallback : Parser β)
        s₁ x s' := hrun
    obtain ⟨hexternal, hremains, hlength⟩ := (hp s₀ hsane).fails hs hd
    obtain ⟨_, s₂, hrecord, hrest⟩ := yields_bind.1 hrest
    obtain ⟨_, s₃, hsync, hpure⟩ := yields_bind.1 hrest
    obtain ⟨rfl, rfl⟩ := yields_pure.1 hpure
    obtain ⟨w, hskips⟩ := (Moves.synchronize _ _).skips hsync
    have hunread : s₂.unread = s₁.unread := by rw [yields_modify.1 hrecord]
    have hbuilt : Built s₀ vs [] s₂ := yields_modify.1 hrecord ▸ hremains.recover hexternal
    rw [← hfallback] at hbuilt
    refine ⟨hbuilt.skips hsane hskips, ?_, by rintro _ ⟨⟩, by rintro _ ⟨⟩⟩
    rcases hlength with hlt | ⟨hlt, hcurrent⟩
    · exact Nat.lt_of_le_of_lt (hunread ▸ hskips.reads.length_le) hlt
    · -- nothing was taken before the error, so the current token is dropped now
      obtain ⟨v, hreads⟩ := hremains.reads
      obtain ⟨rest, hcons⟩ := exists_unread_of_current (hsane.of_reads hreads).ending
        (hcurrent ▸ hkind)
      rw [hcurrent] at hcons
      have htakes := synchronize_length_lt (hunread.trans hcons) hkind hstop hsync
      rw [hunread] at htakes
      exact Nat.lt_of_lt_of_le htakes (Nat.le_of_lt_succ hlt)

end Extends

end Parser

end ProcLang

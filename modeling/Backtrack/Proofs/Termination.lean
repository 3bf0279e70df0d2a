import Backtrack.Proofs.Draining
import Backtrack.Proofs.Starting
import Mathlib.Data.Fintype.EquivFin
import Mathlib.Logic.Relation

/-!
# Termination — recursive grammars that come to an end

A grammar may be recursive and still end on every finite input. What can go wrong is left recursion:
a rule that comes back to itself at the place where it was started. Whether that can happen is read
off the grammar. A parser is *consuming* if no outcome of it can stay at its start, by a rule that
looks at its outside only; and a rule *left-refers* to another one if it has its name at a place
that may be reached before anything is consumed.

If no rule left-refers to itself, directly or through others, every parser over the grammar ends.
The induction is on the input that is left; at one place it is on the rules, along the left
references; and in a rule it is on the parser. What stands behind a consuming parser is started
further on, where everything is known to end.
-/

namespace Backtrack

open Store

variable {σ ε : Type} {ρ : Type → Type} {α β γ : Type}

/-- No outcome can be at the place of the start, as far as the outside of the parser shows. -/
def Parser.Consuming : {α : Type} → Parser σ ε ρ α → Prop
  | _, .unit _           => False
  | _, .fail             => True
  | _, .anySymbol _      => True
  | _, .testSymbol _ _   => True
  | _, .finish _         => False
  | _, .map _ p          => p.Consuming
  | _, .filter _ p       => p.Consuming
  | _, .bind p _         => p.Consuming
  | _, .seq _ p q        => p.Consuming ∨ q.Consuming
  | _, .or p q           => p.Consuming ∧ q.Consuming
  | _, .repetition k _ p => 0 < k ∧ p.Consuming
  | _, .spanning _ p     => p.Consuming
  | _, .rule _           => False
  | _, .remark _ p       => p.Consuming
  | _, .abort _          => True
  | _, .lookahead _      => False
  | _, .custom _         => False

/-- The name of the rule occurs in the parser, or in a parser that a continuation may give, and not
    only behind something consuming. -/
def Parser.LeftRefers : {α : Type} → Parser σ ε ρ α → Sigma ρ → Prop
  | _, .map _ p,          b => p.LeftRefers b
  | _, .filter _ p,       b => p.LeftRefers b
  | _, .bind p next,      b => p.LeftRefers b ∨ ¬p.Consuming ∧ ∃ a, (next a).LeftRefers b
  | _, .seq _ p q,        b => p.LeftRefers b ∨ ¬p.Consuming ∧ q.LeftRefers b
  | _, .or p q,           b => p.LeftRefers b ∨ q.LeftRefers b
  | _, .repetition _ _ p, b => p.LeftRefers b
  | _, .spanning _ p,     b => p.LeftRefers b
  | _, .rule r,           b => b = ⟨_, r⟩
  | _, .remark _ p,       b => p.LeftRefers b
  | _, .lookahead p,      b => p.LeftRefers b
  | _, _,                 _ => False

/-- No function in the parser has a fault, whatever it is applied to. -/
def Parser.Faultless : {α : Type} → Parser σ ε ρ α → Prop
  | _, .testSymbol test _ => ∀ x fault, (test x).result ≠ .error fault
  | _, .map f p           => (∀ a fault, (f a).result ≠ .error fault) ∧ p.Faultless
  | _, .filter test p     => (∀ a fault, (test a).result ≠ .error fault) ∧ p.Faultless
  | _, .bind p next       => p.Faultless ∧ ∀ a, (next a).Faultless
  | _, .seq _ p q         => p.Faultless ∧ q.Faultless
  | _, .or p q            => p.Faultless ∧ q.Faultless
  | _, .repetition _ _ p  => p.Faultless
  | _, .spanning _ p      => p.Faultless
  | _, .remark _ p        => p.Faultless
  | _, .abort _           => False
  | _, .lookahead p       => p.Faultless
  | _, _                  => True

namespace Grammar

variable (G : Grammar σ ε ρ)

/-- One rule left-refers to another one. -/
def LeftRefers (a b : Sigma ρ) : Prop :=
  (G.body a.2).LeftRefers b

/-- No rule left-refers to itself, directly or through other rules. -/
def Acyclic : Prop :=
  ∀ a, ¬Relation.TransGen G.LeftRefers a a

/-- No function in the rules has a fault. -/
def Faultless : Prop :=
  ∀ (α : Type) (r : ρ α), (G.body r).Faultless

/-- Among finitely many rules, going on from rule to rule along left references ends. -/
theorem Acyclic.wellFounded [Finite (Sigma ρ)] {G : Grammar σ ε ρ} (h : G.Acyclic) :
    WellFounded fun b a => G.LeftRefers a b := by
  have hirrefl : Std.Irrefl (Relation.TransGen (Function.swap G.LeftRefers)) :=
    ⟨fun a ha => h a (Relation.transGen_swap.mp ha)⟩
  have hsub : Subrelation (fun b a => G.LeftRefers a b)
      (Relation.TransGen (Function.swap G.LeftRefers)) := fun hab => .single hab
  exact hsub.wf (Finite.wellFounded_of_trans_of_irrefl _)

end Grammar

/-! ## One place -/

/-- Started at position `j`, the parser ends, with all its outcomes at that place or behind it; at
    that place there are none if it is consuming. -/
def Parser.Terminates (G : Grammar σ ε ρ) (source : Source σ) (i : Nat) (faulty : Prop)
    (p : Parser σ ε ρ α) (j : Nat) : Prop :=
  p.Drains G source i faulty (fun _ k => j ≤ k ∧ (p.Consuming → j < k)) j

namespace Parser

variable {G : Grammar σ ε ρ} {source : Source σ} {i j N : Nat} {faulty : Prop}

/-- A parser whose outcomes are those of `p`, each changed. -/
theorem Drains.mapped {P : α → Nat → Prop} {Q : β → Nat → Prop} {p : Parser σ ε ρ α}
    {q : Parser σ ε ρ β} {f : Outcome σ α → Call ε (Outcome σ β)}
    (hp : p.Drains G source i faulty P j)
    (hq : ∀ st, q.started G (source.cursorAt i j) st =
      (p.started G (source.cursorAt i j) st).bind fun s st => .done (.mapped f s) st)
    (herror : ∀ a k x, P a k → (f ⟨a, source.cursorAt i k⟩).result = .error x → faulty)
    (hok : ∀ a k o, P a k → (f ⟨a, source.cursorAt i k⟩).result = .ok o →
      ∃ b k', o = ⟨b, source.cursorAt i k'⟩ ∧ (k' = k ∨ k' < j + 1) ∧ Q b k') :
    q.Drains G source i faulty Q j := by
  intro st hst
  rw [hq]
  refine (hp st hst).bind ?_
  rintro s st' ⟨hst', hs⟩
  exact ⟨hst', hs.mapped herror hok (Nat.le_trans hst.reads hst'.reads)⟩

theorem terminates_testSymbol {test : σ → Call ε Bool} {f : σ → α}
    (htest : ∀ x e, (test x).result = .error e → faulty) :
    (testSymbol test f : Parser σ ε ρ α).Terminates G source i faulty j := by
  intro st hst
  rw [started_testSymbol]
  cases (source.cursorAt i j).current with
  | none => exact ⟨hst.self, Outcomes.drains_empty⟩
  | some x =>
      have hremark := hst.remark (test x).notes
      have hrun : ((test x).run st).Settles faulty
          fun _ st' => st' = st.remark (test x).notes :=
        Call.run_settles (htest x) fun _ _ => rfl
      refine hrun.bind ?_
      rintro ok _ rfl
      refine ⟨hremark, ?_⟩
      cases ok with
      | false => exact Outcomes.drains_empty
      | true =>
          refine (Outcomes.drains_consuming hst.reads fun x => ?_).mono hremark.reads
          exact ⟨by omega, fun _ => by omega⟩

/-- Behind each outcome the continuation is started at the place of the outcome. -/
theorem Terminates.bind {p : Parser σ ε ρ α} {next : α → Parser σ ε ρ β}
    (hp : p.Terminates G source i faulty j)
    (hnext : ∀ a k, j ≤ k ∧ (p.Consuming → j < k) → (next a).Terminates G source i faulty k) :
    (p.bind next).Terminates G source i faulty j := by
  intro st hst
  rw [started_bind]
  refine ⟨hst.self, (Outcomes.drains_deferred hp hst.reads).bound (fun a k hk => ?_)
    (Nat.le_refl _) Outcomes.drains_empty⟩
  exact (hnext a k hk).imp fun _ k' hk' => ⟨by omega, fun hp => by have := hk.2 hp; omega⟩

theorem Terminates.seq {f : α → β → γ} {p : Parser σ ε ρ α} {q : Parser σ ε ρ β}
    (hp : p.Terminates G source i faulty j)
    (hq : ∀ k, j ≤ k ∧ (p.Consuming → j < k) → q.Terminates G source i faulty k) :
    (seq f p q).Terminates G source i faulty j := by
  intro st hst
  rw [started_seq]
  refine ⟨hst.self, (Outcomes.drains_deferred hp hst.reads).paired fun a k hk => ?_⟩
  refine (hq k hk).imp fun _ k' hk' => ⟨by omega, ?_⟩
  rintro (hp | hq)
  · have := hk.2 hp
    omega
  · have := hk'.2 hq
    omega

theorem Terminates.or {p q : Parser σ ε ρ α} (hp : p.Terminates G source i faulty j)
    (hq : q.Terminates G source i faulty j) : (p.or q).Terminates G source i faulty j := by
  intro st hst
  rw [started_or]
  refine ⟨hst.self, Outcomes.Drains.chained ?_ hst.reads Outcomes.drains_empty⟩
  rw [List.forall_mem_cons, List.forall_mem_singleton]
  exact ⟨⟨j, j.lt_succ_self, rfl, hp.imp fun _ k hk => ⟨hk.1, fun h => hk.2 h.1⟩⟩,
    ⟨j, j.lt_succ_self, rfl, hq.imp fun _ k hk => ⟨hk.1, fun h => hk.2 h.2⟩⟩⟩

/-- Occurrences at the place of the start end a row, so the repeated parser is run here once, and
    then only at later places. -/
theorem Terminates.repetition {least : Nat} {f : List α → β} {p : Parser σ ε ρ α}
    (hN : source.answer N = none) (hp : p.Terminates G source i faulty j)
    (later : ∀ k, j < k → p.Terminates G source i faulty k) :
    (repetition least f p).Terminates G source i faulty j := by
  intro st hst
  rw [started_repetition]
  refine ⟨hst.self, Outcomes.drains_of_settles fun st₁ hst₁ => ?_⟩
  have hreads := hst.reads
  have hreads₁ := hst₁.reads
  rw [Outcomes.pulled_repeating_root]
  refine (hp st₁ (hst₁.mono (by omega))).bind ?_
  rintro s st₂ ⟨hst₂, hs⟩
  have hreads₂ := hst₂.reads
  refine (Outcomes.Drains.repeating_push
    (Q := fun k => j ≤ k ∧ (0 < least ∧ p.Consuming → j < k)) hN (Nat.lt_succ_self j)
    (fun k hk => ?_) (fun k hk => ?_) (fun s c hrow => ?_) Outcomes.drains_bottom (by omega)
    (hs.imp fun a k hk => ?_)).settles hst₂.self hreads₂
  · exact (later k hk).imp fun _ _ h => h.1
  · exact ⟨by omega, fun _ => hk⟩
  · -- the empty row is given only if it is long enough
    have hleast : least = 0 := Nat.le_zero.mp hrow
    exact ⟨Nat.le_refl j, fun h => by omega⟩
  · exact ⟨hk.1, fun hkj => ⟨Nat.le_refl j, fun h => by have := hk.2 h.2; omega⟩⟩

/-- **ONE PLACE.** If all parsers end at later places, and the rules that a parser left-refers to
    end here, then the parser ends here. -/
theorem terminates_of_leftRefers (hN : source.answer N = none)
    (later : ∀ k, j < k → ∀ {α : Type} (q : Parser σ ε ρ α), q.Plain → (¬faulty → q.Faultless) →
      q.Terminates G source i faulty k) (p : Parser σ ε ρ α) :
    p.Plain → (¬faulty → p.Faultless) →
    (∀ b, p.LeftRefers b → (rule b.2).Terminates G source i faulty j) →
    p.Terminates G source i faulty j := by
  -- what is started behind an outcome is started later, or here behind something not consuming
  have onward : ∀ {β : Type} {q : Parser σ ε ρ β} {C : Prop} {k : Nat}, q.Plain →
      (¬faulty → q.Faultless) → (¬C → q.Terminates G source i faulty j) →
      j ≤ k ∧ (C → j < k) → q.Terminates G source i faulty k := by
    rintro β q C k hplain hfault here ⟨hjk, hC⟩
    rcases Nat.eq_or_lt_of_le hjk with rfl | hlt
    · exact here fun h => Nat.lt_irrefl _ (hC h)
    · exact later k hlt q hplain hfault
  induction p with
  | unit a =>
      intro _ _ _ st hst
      rw [started_unit]
      exact ⟨hst.self, Outcomes.drains_ready hst.reads ⟨Nat.le_refl j, False.elim⟩⟩
  | fail =>
      intro _ _ _ st hst
      rw [started_fail]
      exact ⟨hst.self, Outcomes.drains_empty⟩
  | anySymbol f =>
      intro _ _ _ st hst
      rw [started_anySymbol]
      exact ⟨hst.self, Outcomes.drains_consuming hst.reads fun x => ⟨by omega, fun _ => by omega⟩⟩
  | testSymbol test f =>
      intro _ hfault _
      exact terminates_testSymbol fun x e he => by_contra fun h => hfault h x e he
  | finish a =>
      intro _ _ _ st hst
      rw [started_finish]
      refine ⟨hst.self, ?_⟩
      split
      · exact Outcomes.drains_ready hst.reads ⟨Nat.le_refl j, False.elim⟩
      · exact Outcomes.drains_empty
  | map f p ih =>
      intro hplain hfault hrules
      refine (ih hplain (fun h => (hfault h).2) hrules).mapped (fun st => started_map ..)
        (fun a k x _ hx => ?_) fun a k o hk ho => ?_
      · exact by_contra fun h => (hfault h).1 a x (Call.result_map_eq_error.mp hx)
      · obtain ⟨b, -, rfl⟩ := Call.result_map_eq_ok.mp ho
        exact ⟨b, k, rfl, Or.inl rfl, hk⟩
  | filter test p ih =>
      intro hplain hfault hrules st hst
      rw [started_filter]
      refine (ih hplain (fun h => (hfault h).2) hrules st hst).bind ?_
      rintro s st' ⟨hst', hs⟩
      exact ⟨hst', hs.filtered fun a k x _ hx => by_contra fun h => (hfault h).1 a x hx⟩
  | bind p next ihp ihnext =>
      intro hplain hfault hrules
      have hp := ihp hplain.1 (fun h => (hfault h).1) fun b hb => hrules b (Or.inl hb)
      refine hp.bind fun a k hk => onward (hplain.2 a) (fun h => (hfault h).2 a) (fun hC => ?_) hk
      exact ihnext a (hplain.2 a) (fun h => (hfault h).2 a)
        fun b hb => hrules b (Or.inr ⟨hC, a, hb⟩)
  | seq f p q ihp ihq =>
      intro hplain hfault hrules
      have hp := ihp hplain.1 (fun h => (hfault h).1) fun b hb => hrules b (Or.inl hb)
      refine hp.seq fun k hk => onward hplain.2 (fun h => (hfault h).2) (fun hC => ?_) hk
      exact ihq hplain.2 (fun h => (hfault h).2) fun b hb => hrules b (Or.inr ⟨hC, hb⟩)
  | or p q ihp ihq =>
      intro hplain hfault hrules
      have hp := ihp hplain.1 (fun h => (hfault h).1) fun b hb => hrules b (Or.inl hb)
      have hq := ihq hplain.2 (fun h => (hfault h).2) fun b hb => hrules b (Or.inr hb)
      exact hp.or hq
  | repetition least f p ih =>
      intro hplain hfault hrules
      exact (ih hplain hfault hrules).repetition hN fun k hk => later k hk p hplain hfault
  | spanning f p ih =>
      intro hplain hfault hrules
      refine (ih hplain hfault hrules).mapped (fun st => started_spanning ..)
        (fun a k x _ hx => nomatch hx) fun a k o hk ho => ?_
      obtain rfl := Except.ok.inj ho
      exact ⟨_, k, rfl, Or.inl rfl, hk⟩
  | rule r =>
      intro _ _ hrules
      exact hrules ⟨_, r⟩ rfl
  | remark notes p ih =>
      intro hplain hfault hrules st hst
      have hremark := hst.remark (notes (source.cursorAt i j))
      rw [started_remark]
      refine (ih hplain hfault hrules _ (hremark.mono hst.reads)).imp ?_
      rintro s st' ⟨hst', hs⟩
      exact ⟨hst'.mono hremark.reads, hs⟩
  | abort x =>
      intro _ hfault _ st _
      rw [started_abort]
      exact by_contra hfault
  | lookahead p ih =>
      intro hplain hfault hrules
      refine (ih hplain hfault hrules).mapped (fun st => started_lookahead ..)
        (fun a k x _ hx => nomatch hx) fun a k o hk ho => ?_
      obtain rfl := Except.ok.inj ho
      exact ⟨a, j, rfl, Or.inr j.lt_succ_self, Nat.le_refl j, False.elim⟩
  | custom start =>
      intro hplain
      exact hplain.elim

/-! ## All places -/

/-- The rules end at a place if all parsers do so at later places. -/
theorem terminates_rule [Finite (Sigma ρ)] (hN : source.answer N = none) (hplain : G.Plain)
    (hacyclic : G.Acyclic) (hfault : ¬faulty → G.Faultless)
    (later : ∀ k, j < k → ∀ {α : Type} (q : Parser σ ε ρ α), q.Plain → (¬faulty → q.Faultless) →
      q.Terminates G source i faulty k) (a : Sigma ρ) :
    (rule a.2).Terminates G source i faulty j := by
  induction a using hacyclic.wellFounded.induction with
  | _ a ih =>
      intro st hst
      have hbody := terminates_of_leftRefers hN later (G.body a.2) (hplain _ _)
        (fun h => hfault h _ _) ih
      rw [started_rule]
      exact hbody.imp (fun _ _ hk => ⟨hk.1, False.elim⟩) st hst

/-- Every parser over the grammar ends at every place. -/
theorem terminates_of_acyclic [Finite (Sigma ρ)] (faulty : Prop) (hN : source.answer N = none)
    (hplain : G.Plain) (hacyclic : G.Acyclic) (hfault : ¬faulty → G.Faultless) (j : Nat) :
    ∀ {α : Type} (p : Parser σ ε ρ α), p.Plain → (¬faulty → p.Faultless) →
      p.Terminates G source i faulty j := by
  induction hn : N + 1 - j using Nat.strongRecOn generalizing j with
  | _ n ih =>
      intro α p hp hpfault st hst
      -- the parser is started at a place that has been read, so there is input left to argue by
      have hend := hst.reads_le hN
      have hreads := hst.reads
      have later : ∀ k, j < k → ∀ {α : Type} (q : Parser σ ε ρ α), q.Plain →
          (¬faulty → q.Faultless) → q.Terminates G source i faulty k :=
        fun k hk => ih (N + 1 - k) (by omega) k rfl
      exact terminates_of_leftRefers hN later p hp hpfault
        (fun b _ => terminates_rule hN hplain hacyclic hfault later b) st hst

end Parser

/-- **GRAMMARS WITHOUT LEFT RECURSION END.** Let finitely many rules be put together without walks
    of the caller's own, and let no rule left-refer to itself, directly or through others. Take any
    cursor of a reachable world whose source gives nothing at some read, and any rule, or parser
    over the rules. Then there is a number `n` such that the parser can be started there and pulled as
    often as one likes: every run comes to an end, and from the `n`-th on all pulls answer nothing.
    A run stops with a fault only if some function in the parser or in the grammar has one. -/
theorem Grammar.Acyclic.parser_drains [Carrier σ] [Finite (Sigma ρ)] {G : Grammar σ ε ρ}
    (hacyclic : G.Acyclic) (hG : G.Plain) {p : Parser σ ε ρ α} (hp : p.Plain) {w : World σ ε}
    (hw : w.Reachable) {c : Cursor σ} (hc : c ∈ w.cursors) {chain : Chain σ}
    (hchain : w.store.chains[c.source]? = some chain)
    (hfinite : ∃ N, chain.source.answer N = none) :
    ∃ n, ∀ k, ((p.started G c w.store).bind fun s st => s.answers G k st).Settles
      (¬(G.Faultless ∧ p.Faultless))
      fun answers _ => answers.length = k ∧ ∀ x ∈ answers.drop n, x = none := by
  obtain ⟨N, hN⟩ := hfinite
  have hsound := hw.sound
  obtain ⟨source, hsource, hnode, hcursor⟩ := hsound.intact.holds_iff.mp (hsound.cursors c hc)
  obtain rfl : chain.source = source := by
    rw [source?, hchain] at hsource
    exact Option.some.inj hsource
  have hfeeds : Feeds chain.source c.source (c.node + 1) w.store := ⟨hsound.intact, hsource, hnode⟩
  have hsettles := Parser.terminates_of_acyclic (¬(G.Faultless ∧ p.Faultless)) hN hG
    hacyclic (fun h => (not_not.mp h).1) c.node p hp (fun h => (not_not.mp h).2) w.store hfeeds
  rw [← hcursor] at hsettles
  cases hrun : p.started G c w.store with
  | done s st =>
      rw [hrun] at hsettles
      exact hsettles.2.answers hsettles.1.self
  | fault x st =>
      rw [hrun] at hsettles
      exact ⟨0, fun _ => hsettles⟩
  | unfinished =>
      rw [hrun] at hsettles
      exact hsettles.elim

/-- A grammar with one rule, which is recursive. -/
inductive Beginnings : Type → Type where
  | start : Beginnings (List Nat)

/-- All beginnings of the input, the longest first: a symbol and then a beginning, or nothing. -/
def Beginnings.grammar : Grammar Nat Unit Beginnings where
  body | .start => .or (.seq List.cons .item (.rule .start)) (.unit [])

instance : Finite (Sigma Beginnings) := by
  have : Subsingleton (Sigma Beginnings) := ⟨by rintro ⟨_, ⟨⟩⟩ ⟨_, ⟨⟩⟩; rfl⟩
  infer_instance

/-- The rule has its own name only behind a symbol, so it ends, and no function has a fault. -/
theorem beginnings_drain :
    let _ : Carrier Nat := .none
    let p : Parser Nat Unit Beginnings (List Nat) := .rule .start
    World.pair.Reachable ∧ Beginnings.grammar.Acyclic ∧ ∃ n, ∀ k,
      ((p.started Beginnings.grammar ⟨0, 0, 0, some 7⟩ World.pair.store).bind
        fun s st => s.answers Beginnings.grammar k st).Settles False
        fun answers _ => answers.length = k ∧ ∀ x ∈ answers.drop n, x = none := by
  intro _ p
  have hleft : ∀ a b, ¬Beginnings.grammar.LeftRefers a b := by
    rintro ⟨_, ⟨⟩⟩ b ((h | h) | h)
    · exact h
    · exact h.1 trivial
    · exact h
  have hacyclic : Beginnings.grammar.Acyclic := by
    intro a ha
    obtain ⟨b, hab, -⟩ := Relation.TransGen.head'_iff.mp ha
    exact hleft a b hab
  have hplain : Beginnings.grammar.Plain := by
    rintro _ ⟨⟩
    exact ⟨⟨trivial, trivial⟩, trivial⟩
  have hfaultless : Beginnings.grammar.Faultless ∧ p.Faultless := by
    refine ⟨?_, trivial⟩
    rintro _ ⟨⟩
    exact ⟨⟨trivial, trivial⟩, trivial⟩
  obtain ⟨n, hn⟩ := hacyclic.parser_drains hplain (p := p) trivial World.reachable_pair
    (List.mem_singleton.mpr rfl) rfl ⟨2, rfl⟩
  refine ⟨World.reachable_pair, hacyclic, n, fun k => ?_⟩
  have hsettles := hn k
  rw [eq_false (not_not_intro hfaultless)] at hsettles
  exact hsettles

end Backtrack

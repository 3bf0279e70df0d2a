import Backtrack.Proofs.World
import Backtrack.Resolve

/-!
# Causality — nothing depends on what has not been read

Let a caller work on some sources, and let the same caller work on other sources. As long as the two
have given the same answers to the reads that were made, the caller cannot tell them apart, and
neither can any parser: not by a symbol that comes later, not by the end of the input, and not by
whether there is an end.

A store is therefore put *upon* other sources: the nodes, the memo cells, the counts and the log are
kept, and only the producers of further symbols are replaced. If the other sources fit, that is, if
they agree with all the reads that have been made when an action is over, then the action does the
same in both stores. The reads only become more, so what fits in the end has fitted all along.
-/

namespace Backtrack

universe u v

variable {σ ε : Type} {ρ : Type → Type} {α : Type}

namespace Store

/-- The same store upon other sources. -/
def upon (st : Store σ ε) (sources : Nat → Source σ) : Store σ ε :=
  { st with chains := st.chains.mapIdx fun k chain => { chain with source := sources k } }

/-- The other sources agree with all the reads that have been made. -/
def Fits (st : Store σ ε) (sources : Nat → Source σ) : Prop :=
  ∀ k source, st.source? k = some source →
    ∀ j < st.readsOf k, (sources k).answer j = source.answer j

/-- The sources are the same, and none has been read less often. -/
structure Continues (st st' : Store σ ε) : Prop where
  sources : ∀ k, st'.source? k = st.source? k
  reads   : ∀ k, st.readsOf k ≤ st'.readsOf k

variable {st st' st'' : Store σ ε} {sources : Nat → Source σ}

theorem Continues.refl (st : Store σ ε) : st.Continues st :=
  ⟨fun _ => rfl, fun _ => Nat.le_refl _⟩

theorem Continues.trans (h : st.Continues st') (h' : st'.Continues st'') : st.Continues st'' :=
  ⟨fun k => (h'.sources k).trans (h.sources k), fun k => Nat.le_trans (h.reads k) (h'.reads k)⟩

theorem Continues.record (st : Store σ ε) (e : Event σ ε) : st.Continues (st.record e) :=
  ⟨fun _ => rfl, fun _ => Nat.le_refl _⟩

theorem Continues.remark (st : Store σ ε) (notes : List ε) : st.Continues (st.remark notes) := by
  constructor <;> intro k <;> simp [source?, readsOf]

theorem Continues.grows (h : st.Continues st') : st.Grows st' :=
  fun k _ hsource => ⟨(h.sources k).trans hsource, h.reads k⟩

/-- What fits in the end has fitted before. -/
theorem Fits.of_grows (h : st.Grows st') (hfits : st'.Fits sources) : st.Fits sources := by
  intro k source hsource j hj
  obtain ⟨hsource', hle⟩ := h k source hsource
  exact hfits k source hsource' j (Nat.lt_of_lt_of_le hj hle)

/-! ## A store upon other sources -/

@[simp]
theorem getElem?_chains_upon (k : Nat) :
    (st.upon sources).chains[k]? =
      st.chains[k]?.map fun chain => { chain with source := sources k } := by
  simp [upon]

@[simp]
theorem readsOf_upon (k : Nat) : (st.upon sources).readsOf k = st.readsOf k := by
  cases h : st.chains[k]? <;> simp [readsOf, h]

@[simp]
theorem size_chains_upon : (st.upon sources).chains.size = st.chains.size := by
  simp [upon]

@[simp]
theorem cursor?_upon (i j : Nat) : (st.upon sources).cursor? i j = st.cursor? i j := by
  cases h : st.chains[i]? <;> simp [cursor?, h]

@[simp]
theorem memo?_upon (c : Cursor σ) : (st.upon sources).memo? c = st.memo? c := by
  have hnext : (st.upon sources).next? c = st.next? c := by
    cases h : st.chains[c.source]? <;> simp [next?, h]
  rw [memo?, memo?, hnext]
  congr 1
  funext j
  exact cursor?_upon c.source j

theorem upon_remark (notes : List ε) :
    (st.upon sources).remark notes = (st.remark notes).upon sources := by
  induction notes generalizing st with
  | nil => rfl
  | cons e notes ih => exact @ih (st.record (.note e))

/-- A change of one chain that keeps the source and reads on. -/
theorem Continues.modify (st : Store σ ε) (i : Nat) {f : Chain σ → Chain σ}
    (hf : ∀ chain, (f chain).source = chain.source ∧ chain.reads ≤ (f chain).reads)
    (log : Array (Event σ ε)) : st.Continues ⟨st.chains.modify i f, log⟩ := by
  constructor
  all_goals
    intro k
    simp only [source?, readsOf, Array.getElem?_modify]
    by_cases hk : i = k
    · cases h : st.chains[k]? <;> simp [hk, hf]
    · simp [hk]

/-- A change of one chain that is the same upon the other source. -/
theorem upon_modify (st : Store σ ε) (sources : Nat → Source σ) (i : Nat) {f : Chain σ → Chain σ}
    (hf : ∀ chain, st.chains[i]? = some chain →
      f { chain with source := sources i } = { f chain with source := sources i })
    (log : Array (Event σ ε)) :
    (⟨(st.upon sources).chains.modify i f, log⟩ : Store σ ε) =
      (Store.mk (st.chains.modify i f) log).upon sources := by
  refine congrArg (Store.mk · log) (Array.ext_getElem? fun k => ?_)
  show _ = ((Store.mk (st.chains.modify i f) log).upon sources).chains[k]?
  rw [getElem?_chains_upon, Array.getElem?_modify, getElem?_chains_upon, Array.getElem?_modify]
  by_cases hk : i = k
  · subst hk
    rw [if_pos rfl, if_pos rfl]
    cases h : st.chains[i]? with
    | none => rfl
    | some chain => exact congrArg some (hf chain h)
  · rw [if_neg hk, if_neg hk]

/-- A read gives the same answer upon a source that fits afterwards. -/
theorem readNext_upon (i position : Nat) (hfits : (st.readNext i position).2.Fits sources) :
    (st.upon sources).readNext i position =
      ((st.readNext i position).1, (st.readNext i position).2.upon sources) := by
  -- the read that is made is one of those with which the source agrees
  have hsame : ∀ chain, st.chains[i]? = some chain →
      (sources i).answer chain.reads = chain.source.answer chain.reads := by
    intro chain hchain
    have hread : (st.readNext i position).2.chains[i]? = some (chain.read position) := by
      show (st.chains.modify i (Chain.read position))[i]? = _
      rw [Array.getElem?_modify, if_pos rfl, hchain]
      rfl
    refine hfits i chain.source ?_ chain.reads ?_
    · rw [source?, hread]
      rfl
    · rw [readsOf, hread]
      exact Nat.lt_succ_self _
  have hmodify := upon_modify st sources i (f := Chain.read position)
    fun chain hchain => by simp only [Chain.read, hsame chain hchain]
  rw [readNext, readNext, getElem?_chains_upon]
  cases hchain : st.chains[i]? with
  | none => exact Prod.ext rfl (hmodify _)
  | some chain =>
      simp only [Option.map_some, Option.bind_some, Option.elim_some, hsame chain hchain]
      exact Prod.ext rfl (hmodify _)

theorem Continues.readNext (st : Store σ ε) (i position : Nat) :
    st.Continues (st.readNext i position).2 :=
  .modify st i (f := Chain.read position) (fun _ => ⟨rfl, Nat.le_succ _⟩) _

theorem Continues.link (st : Store σ ε) (c d : Cursor σ) : st.Continues (st.link c d) :=
  .modify st c.source (f := Chain.link c.node d.node) (fun _ => ⟨rfl, Nat.le_refl _⟩) _

theorem Continues.advance (st : Store σ ε) (c : Cursor σ) : st.Continues (st.advance c).2 := by
  rw [Store.advance]
  cases c.current with
  | none => exact .refl st
  | some x =>
      dsimp only
      cases st.memo? c with
      | some d => exact .refl st
      | none => exact (Continues.readNext st _ _).trans (.link _ c _)

/-- Going on from a cursor upon sources that fit afterwards. -/
theorem advance_upon (c : Cursor σ) (hfits : (st.advance c).2.Fits sources) :
    (st.upon sources).advance c = ((st.advance c).1, (st.advance c).2.upon sources) := by
  rw [Store.advance, Store.advance, memo?_upon]
  rw [Store.advance] at hfits
  cases hcurrent : c.current with
  | none => rfl
  | some x =>
      rw [hcurrent] at hfits
      cases hmemo : st.memo? c with
      | some d => rfl
      | none =>
          rw [hmemo] at hfits
          have hread := hfits.of_grows (Continues.link _ c _).grows
          dsimp only
          rw [readNext_upon _ _ hread]
          exact Prod.ext rfl (upon_modify _ sources c.source (fun _ _ => rfl) _)

end Store

open Store

/-! ## Runs upon other sources -/

/-- The second run comes to the same as the first, upon the other sources, if these fit in the end.
    The first run has read on from the given store. -/
inductive Run.Mirrors (sources : Nat → Source σ) {δ : Type u} (st : Store σ ε) :
    Run σ ε δ → Run σ ε δ → Prop where
  | done {b : δ} {st' : Store σ ε} {r : Run σ ε δ} (continues : st.Continues st')
      (same : st'.Fits sources → r = .done b (st'.upon sources)) :
      Mirrors sources st (.done b st') r
  | fault {x : Fault} {st' : Store σ ε} {r : Run σ ε δ} (continues : st.Continues st')
      (same : st'.Fits sources → r = .fault x (st'.upon sources)) :
      Mirrors sources st (.fault x st') r
  | unfinished (r : Run σ ε δ) : Mirrors sources st .unfinished r

namespace Run.Mirrors

variable {sources : Nat → Source σ} {δ : Type u} {η : Type v} {st st' : Store σ ε}

/-- A result without any action. -/
theorem pure (sources : Nat → Source σ) (b : δ) (st : Store σ ε) :
    Mirrors sources st (.done b st) (.done b (st.upon sources)) :=
  .done (.refl st) fun _ => rfl

/-- What went before the first run counts as part of it. -/
theorem after {r r' : Run σ ε δ} (hcontinues : st.Continues st') (h : Mirrors sources st' r r') :
    Mirrors sources st r r' := by
  cases h with
  | done continues same => exact .done (hcontinues.trans continues) same
  | fault continues same => exact .fault (hcontinues.trans continues) same
  | unfinished => exact .unfinished _

/-- One action after another. -/
theorem bind {r r' : Run σ ε δ} {k : δ → Store σ ε → Run σ ε η} (h : Mirrors sources st r r')
    (hk : ∀ b st, Mirrors sources st (k b st) (k b (st.upon sources))) :
    Mirrors sources st (r.bind k) (r'.bind k) := by
  cases h with
  | @done b st₁ _ continues same =>
      -- if the second action fits in the end, the first has fitted
      have hrest := hk b st₁
      show Mirrors sources st (k b st₁) _
      cases hrun : k b st₁ with
      | unfinished => exact .unfinished _
      | done c st₂ =>
          rw [hrun] at hrest
          cases hrest with
          | done continues' same' =>
              refine .done (continues.trans continues') fun hfits => ?_
              rw [same (hfits.of_grows continues'.grows)]
              exact same' hfits
      | fault x st₂ =>
          rw [hrun] at hrest
          cases hrest with
          | fault continues' same' =>
              refine .fault (continues.trans continues') fun hfits => ?_
              rw [same (hfits.of_grows continues'.grows)]
              exact same' hfits
  | fault continues same =>
      refine .fault continues fun hfits => ?_
      rw [same hfits]
      rfl
  | unfinished => exact .unfinished _

end Run.Mirrors

/-- A call of one of the caller's functions sees no source. -/
theorem Call.run_mirrors {β : Type} (sources : Nat → Source σ) (call : Call ε β)
    (st : Store σ ε) :
    Run.Mirrors sources st (call.run st) (call.run (st.upon sources)) := by
  rw [Call.run, Call.run, upon_remark]
  cases call.result with
  | ok b => exact .done (.remark st _) fun _ => rfl
  | error x => exact .fault (.remark st _) fun _ => rfl

/-- A walk of the caller's own. -/
theorem Walk.run_upon {β : Type} (sources : Nat → Source σ) (walk : Walk σ ε β) :
    ∀ st : Store σ ε, st.Continues (walk.run st).2 ∧ ((walk.run st).2.Fits sources →
      walk.run (st.upon sources) = ((walk.run st).1, (walk.run st).2.upon sources)) := by
  induction walk with
  | arrive b =>
      intro st
      exact ⟨.refl st, fun _ => rfl⟩
  | advance c next ih =>
      intro st
      obtain ⟨hcontinues, hsame⟩ := ih (st.advance c).1 (st.advance c).2
      refine ⟨(Continues.advance st c).trans hcontinues, fun hfits => ?_⟩
      rw [Walk.run, advance_upon c (hfits.of_grows hcontinues.grows)]
      exact hsame hfits
  | remark e next ih =>
      intro st
      obtain ⟨hcontinues, hsame⟩ := ih (st.remark [e])
      refine ⟨(Continues.remark st [e]).trans hcontinues, fun hfits => ?_⟩
      rw [Walk.run, upon_remark]
      exact hsame hfits

section

variable (sources : Nat → Source σ) (G : Grammar σ ε ρ)

theorem Parser.start_mirrors (n : Nat) : ∀ {α : Type} (p : Parser σ ε ρ α) (c : Cursor σ)
    (st : Store σ ε),
    Run.Mirrors sources st (p.start G n c st) (p.start G n c (st.upon sources)) := by
  induction n with
  | zero => intro α p c st; exact .unfinished _
  | succ n ih =>
      intro α p c st
      cases p with
      | testSymbol test f =>
          rw [start, start]
          cases c.current with
          | none => exact .pure sources _ st
          | some x =>
              exact (Call.run_mirrors sources (test x) st).bind fun _ st => .pure sources _ st
      | map f p => exact (ih p c st).bind fun _ st => .pure sources _ st
      | filter test p => exact (ih p c st).bind fun _ st => .pure sources _ st
      | spanning f p => exact (ih p c st).bind fun _ st => .pure sources _ st
      | lookahead p => exact (ih p c st).bind fun _ st => .pure sources _ st
      | rule r => exact ih (G.body r) c st
      | remark notes p =>
          rw [start, start, upon_remark]
          exact .after (.remark st _) (ih p c _)
      | abort x => exact .fault (.refl st) fun _ => rfl
      | custom walk =>
          obtain ⟨hcontinues, hsame⟩ := (walk c).run_upon sources st
          refine .done hcontinues fun hfits => ?_
          rw [start, hsame hfits]
      | _ => exact .pure sources _ st

theorem Outcomes.pull_mirrors (n : Nat) : ∀ {α : Type} (s : Outcomes σ ε ρ α) (st : Store σ ε),
    Run.Mirrors sources st (s.pull G n st) (s.pull G n (st.upon sources)) := by
  induction n with
  | zero => intro α s st; exact .unfinished _
  | succ n ih =>
      intro α s st
      have begins {α : Type} (p : Parser σ ε ρ α) (c : Cursor σ) (st : Store σ ε) :=
        p.start_mirrors sources G n c st
      cases s with
      | ready os => cases os <;> exact .pure sources _ st
      | consuming f c =>
          rw [pull, pull]
          cases c.current with
          | none => exact .pure sources _ st
          | some x =>
              refine .done (.advance st c) fun hfits => ?_
              rw [advance_upon c hfits]
              rfl
      | scripted script k =>
          obtain ⟨hcontinues, hsame⟩ := (script k).run_upon sources st
          refine .done hcontinues fun hfits => ?_
          rw [pull, hsame hfits]
      | mapped f s =>
          simp only [pull]
          refine (ih s st).bind fun pulled st => ?_
          rcases pulled with ⟨_ | o, s⟩
          · exact .pure sources _ st
          · exact (Call.run_mirrors sources (f o) st).bind fun _ st => .pure sources _ st
      | filtered test s =>
          simp only [pull]
          refine (ih s st).bind fun pulled st => ?_
          rcases pulled with ⟨_ | o, s⟩
          · exact .pure sources _ st
          · refine (Call.run_mirrors sources (test o) st).bind fun ok st => ?_
            cases ok
            · exact ih _ st
            · exact .pure sources _ st
      | chained s waiting =>
          simp only [pull]
          refine (ih s st).bind fun pulled st => ?_
          rcases pulled with ⟨_ | o, s⟩
          · rcases waiting with _ | ⟨⟨p, c⟩, waiting⟩
            · exact .pure sources _ st
            · exact (begins p c st).bind fun s st => ih _ st
          · exact .pure sources _ st
      | bound next outer inner =>
          simp only [pull]
          refine (ih inner st).bind fun pulled st => ?_
          rcases pulled with ⟨_ | o, inner⟩
          · refine (ih outer st).bind fun pulled st => ?_
            rcases pulled with ⟨_ | o, outer⟩
            · exact .pure sources _ st
            · exact (begins _ _ st).bind fun inner st => ih _ st
          · exact .pure sources _ st
      | paired f q outer held inner =>
          cases held with
          | none =>
              simp only [pull]
              refine (ih outer st).bind fun pulled st => ?_
              rcases pulled with ⟨_ | o, outer⟩
              · exact .pure sources _ st
              · exact (begins _ _ st).bind fun inner st => ih _ st
          | some a =>
              simp only [pull]
              refine (ih inner st).bind fun pulled st => ?_
              rcases pulled with ⟨_ | o, inner⟩
              · exact ih _ st
              · exact .pure sources _ st
      | repeating least f p root frames =>
          cases root with
          | some c =>
              simp only [pull]
              exact (begins p c st).bind fun s st => ih _ st
          | none =>
              cases frames with
              | bottom => exact .pure sources _ st
              | push s c value below =>
                  rw [pull, pull]
                  refine (ih s st).bind fun pulled st => ?_
                  rcases pulled with ⟨_ | o, s⟩ <;> dsimp only <;> split
                  · exact .pure sources _ st
                  · exact ih _ st
                  · exact .pure sources _ st
                  · exact (begins p _ st).bind fun t st => ih _ st

/-! ## Choosing among outcomes -/

namespace Outcomes

theorem first_mirrors (n : Nat) (s : Outcomes σ ε ρ α) (st : Store σ ε) :
    Run.Mirrors sources st (s.first G n st) (s.first G n (st.upon sources)) := by
  rw [first, first]
  refine (s.pull_mirrors sources G n st).bind fun pulled st => ?_
  rcases pulled with ⟨_ | o, s⟩ <;> exact .pure sources _ st

theorem countUpTo_mirrors (n : Nat) (limit : Nat) : ∀ (seen : Nat) (s : Outcomes σ ε ρ α)
    (st : Store σ ε), Run.Mirrors sources st (s.countUpTo G n limit seen st)
      (s.countUpTo G n limit seen (st.upon sources)) := by
  induction limit with
  | zero => intro seen s st; exact .pure sources _ st
  | succ limit ih =>
      intro seen s st
      rw [countUpTo, countUpTo]
      refine (s.pull_mirrors sources G n st).bind fun pulled st => ?_
      rcases pulled with ⟨_ | o, s⟩
      · exact .pure sources _ st
      · exact ih _ s st

theorem unique_mirrors (n : Nat) (s : Outcomes σ ε ρ α) (st : Store σ ε) :
    Run.Mirrors sources st (s.unique G n st) (s.unique G n (st.upon sources)) := by
  rw [unique, unique]
  refine (s.pull_mirrors sources G n st).bind fun pulled st => ?_
  rcases pulled with ⟨_ | o, s⟩
  · exact .pure sources _ st
  · refine (s.pull_mirrors sources G n st).bind fun pulled st => ?_
    rcases pulled with ⟨_ | o', s⟩
    · exact .pure sources _ st
    · refine (s.countUpTo_mirrors sources G n _ 2 st).bind fun counted st => ?_
      exact .done (.record st _) fun _ => rfl

theorem firstCompleteFrom_mirrors (n : Nat) : ∀ (furthest : Option Nat) (s : Outcomes σ ε ρ α)
    (st : Store σ ε), Run.Mirrors sources st (s.firstCompleteFrom G n furthest st)
      (s.firstCompleteFrom G n furthest (st.upon sources)) := by
  induction n with
  | zero => intro furthest s st; exact .unfinished _
  | succ n ih =>
      intro furthest s st
      rw [firstCompleteFrom, firstCompleteFrom]
      refine (s.pull_mirrors sources G n st).bind fun pulled st => ?_
      rcases pulled with ⟨_ | o, s⟩
      · exact .pure sources _ st
      · dsimp only
        split
        · exact .pure sources _ st
        · exact ih _ s st

end Outcomes

end

/-- The ways to choose among the outcomes of a sequence. -/
inductive Policy where
  /-- The first outcome. -/
  | first
  /-- The only outcome. -/
  | unique
  /-- The first outcome with no input left behind it. -/
  | firstComplete
  deriving DecidableEq, Repr

/-- Choose among the outcomes of a sequence. -/
def Policy.resolve (G : Grammar σ ε ρ) (n : Nat) : Policy → Outcomes σ ε ρ α → Store σ ε →
    Run σ ε (Resolution σ ε ρ α)
  | .first         => Outcomes.first G n
  | .unique        => Outcomes.unique G n
  | .firstComplete => Outcomes.firstComplete G n

theorem Policy.resolve_mirrors (sources : Nat → Source σ) (G : Grammar σ ε ρ) (n : Nat)
    (policy : Policy) (s : Outcomes σ ε ρ α) (st : Store σ ε) :
    Run.Mirrors sources st (policy.resolve G n s st) (policy.resolve G n s (st.upon sources)) := by
  cases policy with
  | first => exact s.first_mirrors sources G n st
  | unique => exact s.unique_mirrors sources G n st
  | firstComplete => exact s.firstCompleteFrom_mirrors sources G n none st

/-! ## Callers -/

/-- What a caller does, step by step. Each step may depend on everything that the steps before it
    have given, and a fault of one step does not keep the caller from taking the next. What a
    sequence of complete outcomes is needs no step: the caller has `Outcomes.complete` for it. -/
inductive Caller (σ ε : Type) (β : Type u) : Type (max 1 u) where
  /-- No more steps. -/
  | leave (b : β)
  /-- Take up the next source. -/
  | attach (next : Cursor σ → Caller σ ε β)
  /-- Go on from a cursor. -/
  | advance (c : Cursor σ) (next : Option (Cursor σ) → Caller σ ε β)
  /-- Start a parser at a cursor. -/
  | start {ρ : Type → Type} {α : Type} (G : Grammar σ ε ρ) (p : Parser σ ε ρ α) (c : Cursor σ)
      (next : Except Fault (Outcomes σ ε ρ α) → Caller σ ε β)
  /-- Pull a sequence. -/
  | pull {ρ : Type → Type} {α : Type} (G : Grammar σ ε ρ) (s : Outcomes σ ε ρ α)
      (next : Except Fault (Pull σ ε ρ α) → Caller σ ε β)
  /-- Choose among the outcomes of a sequence. -/
  | resolve {ρ : Type → Type} {α : Type} (policy : Policy) (G : Grammar σ ε ρ)
      (s : Outcomes σ ε ρ α) (next : Except Fault (Resolution σ ε ρ α) → Caller σ ε β)

/-- A fault as a result. -/
def Run.attempt {δ : Type u} : Run σ ε δ → Run σ ε (Except Fault δ)
  | .done b st  => .done (.ok b) st
  | .fault x st => .done (.error x) st
  | .unfinished => .unfinished

/-- Let a caller work. The sources come from a supply, one after the other, and every start, pull
    and choice is made under the allowance `n`. -/
def Caller.run {β : Type u} (supply : Nat → Source σ) (n : Nat) :
    Caller σ ε β → Store σ ε → Run σ ε β
  | .leave b,                 st => .done b st
  | .attach next,             st =>
      let (c, st) := st.attach (supply st.chains.size)
      (next c).run supply n st
  | .advance c next,          st =>
      let (found, st) := st.advance c
      (next found).run supply n st
  | .start G p c next,        st =>
      (p.start G n c st).attempt.bind fun s st => (next s).run supply n st
  | .pull G s next,           st =>
      (s.pull G n st).attempt.bind fun pulled st => (next pulled).run supply n st
  | .resolve policy G s next, st =>
      (policy.resolve G n s st).attempt.bind fun verdict st => (next verdict).run supply n st

theorem Run.Mirrors.attempt {sources : Nat → Source σ} {δ : Type u} {st : Store σ ε}
    {r r' : Run σ ε δ} (h : Run.Mirrors sources st r r') :
    Run.Mirrors sources st r.attempt r'.attempt := by
  cases h with
  | done continues same =>
      refine .done continues fun hfits => ?_
      rw [same hfits]
      rfl
  | fault continues same =>
      refine .done continues fun hfits => ?_
      rw [same hfits]
      rfl
  | unfinished => exact .unfinished _

namespace Store

/-- Every chain stands upon the source that the supply has in its place. -/
def SuppliedBy (st : Store σ ε) (supply : Nat → Source σ) : Prop :=
  ∀ k source, st.source? k = some source → source = supply k

variable {st st' : Store σ ε} {supply sources : Nat → Source σ}

theorem SuppliedBy.continues (hst : st.SuppliedBy supply) (h : st.Continues st') :
    st'.SuppliedBy supply :=
  fun k source hsource => hst k source ((h.sources k).symm.trans hsource)

theorem SuppliedBy.attach (hst : st.SuppliedBy supply) :
    (st.attach (supply st.chains.size)).2.SuppliedBy supply := by
  intro k source hsource
  by_cases hk : k = st.chains.size
  · subst hk
    exact Option.some.inj (hsource.symm.trans (source?_attach_size st _))
  · exact hst k source ((source?_attach_of_ne st _ hk).symm.trans hsource)

/-- Taking up a source that fits gives the same cursor. -/
theorem attach_upon (source : Source σ) (hfits : (st.attach source).2.Fits sources) :
    (st.upon sources).attach (sources st.chains.size) =
      ((st.attach source).1, (st.attach source).2.upon sources) := by
  have hchain : (st.attach source).2.chains[st.chains.size]? =
      some ⟨source, 1, #[⟨0, source.answer 0, none⟩]⟩ := by
    rw [getElem?_chains_attach, if_pos rfl]
  have hfirst : (sources st.chains.size).answer 0 = source.answer 0 := by
    refine hfits st.chains.size source ?_ 0 ?_
    · rw [source?, hchain]
      rfl
    · rw [readsOf, hchain]
      exact Nat.one_pos
  simp [Store.attach, upon, hfirst, Array.mapIdx_push]

end Store

namespace Caller

variable {β : Type u} {first second : Nat → Source σ} {n : Nat}

/-- Work done on the first supply is matched by the same work on the second, if that one fits in the
    end. -/
def Matched (first second : Nat → Source σ) (n : Nat) (caller : Caller σ ε β) : Prop :=
  ∀ ⦃st st' : Store σ ε⦄ ⦃b : β⦄, st.SuppliedBy first → caller.run first n st = .done b st' →
    st.Grows st' ∧ st'.SuppliedBy first ∧
      (st'.Fits second → caller.run second n (st.upon second) = .done b (st'.upon second))

/-- One step, with the rest of the work behind it. -/
theorem Matched.step {δ : Type 1} {next : Except Fault δ → Caller σ ε β}
    (hnext : ∀ x, (next x).Matched first second n) {r r' : Run σ ε δ} {st st' : Store σ ε} {b : β}
    (hmirrors : Run.Mirrors second st r r') (hst : st.SuppliedBy first)
    (hrun : (r.attempt.bind fun x st => (next x).run first n st) = .done b st') :
    st.Grows st' ∧ st'.SuppliedBy first ∧ (st'.Fits second →
      (r'.attempt.bind fun x st => (next x).run second n st) = .done b (st'.upon second)) := by
  obtain ⟨x, st₁, hattempt, hrest⟩ := Run.bind_eq_done_iff.mp hrun
  have hstep := hmirrors.attempt
  rw [hattempt] at hstep
  cases hstep with
  | done continues same =>
      obtain ⟨hgrows, hsupplied, hsame⟩ := hnext x (hst.continues continues) hrest
      refine ⟨continues.grows.trans hgrows, hsupplied, fun hfits => ?_⟩
      rw [same (hfits.of_grows hgrows)]
      exact hsame hfits

/-- **A WHOLE RUN** on one supply is matched on any other that fits in the end. -/
theorem matched (caller : Caller σ ε β) : caller.Matched first second n := by
  induction caller with
  | leave b =>
      intro st st' b' hst hrun
      cases hrun
      exact ⟨.refl st, hst, fun _ => rfl⟩
  | attach next ih =>
      intro st st' b hst hrun
      obtain ⟨hgrows, hsupplied, hsame⟩ := ih _ hst.attach hrun
      refine ⟨(grows_attach st _).trans hgrows, hsupplied, fun hfits => ?_⟩
      rw [run, size_chains_upon, attach_upon _ (hfits.of_grows hgrows)]
      exact hsame hfits
  | advance c next ih =>
      intro st st' b hst hrun
      have hcontinues := Continues.advance st c
      obtain ⟨hgrows, hsupplied, hsame⟩ := ih _ (hst.continues hcontinues) hrun
      refine ⟨hcontinues.grows.trans hgrows, hsupplied, fun hfits => ?_⟩
      rw [run, advance_upon c (hfits.of_grows hgrows)]
      exact hsame hfits
  | start G p c next ih =>
      intro st st' b hst hrun
      exact Matched.step ih (p.start_mirrors second G n c st) hst hrun
  | pull G s next ih =>
      intro st st' b hst hrun
      exact Matched.step ih (s.pull_mirrors second G n st) hst hrun
  | resolve policy G s next ih =>
      intro st st' b hst hrun
      exact Matched.step ih (policy.resolve_mirrors second G n s st) hst hrun

/-- **CAUSALITY.** Let the first `limit k` answers of source `k` be the same in two supplies, and
    let a caller do any work at all on the first supply: take up sources, go on from cursors, start
    any parsers, pull and resolve sequences, and choose each step by what the steps before it have
    given. If no source has been read more often than `limit` says, then the same work on the second
    supply gives the same results. The log is the same to the last event, each source has been read
    equally often, and all cursors, with their positions and symbols, are the same. -/
theorem run_eq_of_reads_le {limit : Nat → Nat}
    (hagree : ∀ k, ∀ j < limit k, (second k).answer j = (first k).answer j)
    {caller : Caller σ ε β} {b : β} {st : Store σ ε}
    (hrun : caller.run first n .empty = .done b st) (hreads : ∀ k, st.readsOf k ≤ limit k) :
    ∃ st', caller.run second n .empty = .done b st' ∧ st'.log = st.log ∧
      (∀ k, st'.readsOf k = st.readsOf k) ∧ ∀ i j, st'.cursor? i j = st.cursor? i j := by
  have hempty : (Store.empty : Store σ ε).SuppliedBy first := by
    intro k source hsource
    simp [source?, Store.empty] at hsource
  obtain ⟨-, hsupplied, hsame⟩ := caller.matched hempty hrun
  have hfits : st.Fits second := by
    intro k source hsource j hj
    rw [hsupplied k source hsource]
    exact hagree k j (Nat.lt_of_lt_of_le hj (hreads k))
  exact ⟨st.upon second, hsame hfits, rfl, fun k => readsOf_upon k, fun i j => cursor?_upon i j⟩

/-- Take up a source, and choose the first outcome of a symbol or else the end. -/
def firstSymbol : Caller Nat Unit (Option (Outcome Nat Nat)) :=
  .attach fun c => .start .empty (.or .item (.finish 0)) c fun s =>
    match s with
    | .error _ => .leave none
    | .ok s    => .resolve .first Grammar.empty s fun resolution =>
        .leave (resolution.toOption.bind fun resolution => resolution.verdict.toOption)

/-- Two reads are made, so it makes no difference that one source goes on for ever and the other
    ends. -/
theorem firstSymbol_run_eq :
    let endless : Nat → Source Nat := fun _ => ⟨fun _ => some 7⟩
    let short : Nat → Source Nat := fun _ => .ofList [7, 7]
    ∃ st st', firstSymbol.run endless 5 .empty = .done (some ⟨7, ⟨0, 1, 1, some 7⟩⟩) st ∧
      firstSymbol.run short 5 .empty = .done (some ⟨7, ⟨0, 1, 1, some 7⟩⟩) st' ∧
      st'.log = st.log ∧ st'.readsOf 0 = 2 := by
  intro endless short
  have hrun : ∃ st, firstSymbol.run endless 5 .empty = .done (some ⟨7, ⟨0, 1, 1, some 7⟩⟩) st ∧
      ∀ k, st.readsOf k = if k = 0 then 2 else 0 := by
    refine ⟨_, rfl, ?_⟩
    intro k
    cases k <;> rfl
  obtain ⟨st, hrun, hreads⟩ := hrun
  have hagree : ∀ k, ∀ j < 2, (short k).answer j = (endless k).answer j := by
    intro k
    decide
  obtain ⟨st', hrun', hlog, hreads', -⟩ :=
    run_eq_of_reads_le (fun k => hagree k) hrun fun k => by rw [hreads]; split <;> omega
  exact ⟨st, st', hrun, hrun', hlog, by rw [hreads', hreads]; rfl⟩

end Caller

end Backtrack

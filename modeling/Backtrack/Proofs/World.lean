import Backtrack.Proofs.Parallel
import Mathlib.Logic.Relation

/-!
# Worlds — every state that can be reached

A world is a store together with everything the callers have: cursors, and sequences that they have
started and not yet drained. Callers take up sources, copy cursors and go on from them, start
parsers and pull sequences, in any order, and they give things up again. They do not make up
cursors: what they start is honest with respect to the cursors they have.

Every step keeps the store intact, lets its chains only grow, and hands out cursors that the store
holds. A source that is taken up gets a chain, and no chain is made in another way. The shape of
every reachable store follows.
-/

namespace Backtrack

open Store

variable {σ ε : Type}

/-- A sequence that has been started, and the grammar its rule names refer to. -/
structure Suspended (σ ε : Type) where
  Name     : Type → Type
  Value    : Type
  grammar  : Grammar σ ε Name
  outcomes : Outcomes σ ε Name Value

/-- A store and what the callers have of it. -/
structure World (σ ε : Type) where
  store     : Store σ ε
  cursors   : List (Cursor σ)
  sequences : List (Suspended σ ε)

variable [Carrier σ]

/-- The cursors that come with an answer: the place of the outcome and those inside its value. -/
def Outcome.given {α : Type} : Option (Outcome σ α) → List (Cursor σ)
  | none   => []
  | some o => o.cursor :: Carrier.inside o.value

/-- The sequence holds known cursors only, and its grammar makes up none. -/
def Suspended.Held (s : Suspended σ ε) (K : Set (Cursor σ)) : Prop :=
  s.grammar.Honest K ∧ s.outcomes.Held K

namespace World

omit [Carrier σ] in
/-- The world in which nothing has happened. -/
def empty : World σ ε :=
  ⟨.empty, [], []⟩

omit [Carrier σ] in
/-- The cursors that the callers have. -/
def known (w : World σ ε) : Set (Cursor σ) :=
  {c | c ∈ w.cursors}

omit [Carrier σ] in
/-- The world in which the callers have, besides, the cursor at the beginning of a source. -/
def takeUp (w : World σ ε) (source : Source σ) : World σ ε :=
  ⟨(w.store.attach source).2, (w.store.attach source).1 :: w.cursors, w.sequences⟩

/-- What the callers can do next. A parser and its grammar know the cursors that the callers
    have. -/
inductive Step : World σ ε → World σ ε → Prop where
  /-- Take up a source. -/
  | attach {w : World σ ε} (source : Source σ) :
      Step w ⟨(w.store.attach source).2, (w.store.attach source).1 :: w.cursors, w.sequences⟩
  /-- Copy a cursor. -/
  | copy {w : World σ ε} {c : Cursor σ} (hc : c ∈ w.cursors) :
      Step w ⟨w.store, c :: w.cursors, w.sequences⟩
  /-- Go on from a cursor. -/
  | advance {w : World σ ε} {c : Cursor σ} (hc : c ∈ w.cursors) :
      Step w ⟨(w.store.advance c).2, (w.store.advance c).1.toList ++ w.cursors, w.sequences⟩
  /-- Start a parser at a cursor. -/
  | start {w : World σ ε} {ρ : Type → Type} {α : Type} {G : Grammar σ ε ρ} {p : Parser σ ε ρ α}
      {c : Cursor σ} {n : Nat} {s : Outcomes σ ε ρ α} {st : Store σ ε} (hc : c ∈ w.cursors)
      (hG : G.Honest w.known) (hp : p.Honest w.known) (h : p.start G n c w.store = .done s st) :
      Step w ⟨st, w.cursors, ⟨ρ, α, G, s⟩ :: w.sequences⟩
  /-- Start a parser and find a fault. -/
  | startFault {w : World σ ε} {ρ : Type → Type} {α : Type} {G : Grammar σ ε ρ}
      {p : Parser σ ε ρ α} {c : Cursor σ} {n : Nat} {x : Fault} {st : Store σ ε}
      (hc : c ∈ w.cursors) (hG : G.Honest w.known) (hp : p.Honest w.known)
      (h : p.start G n c w.store = .fault x st) : Step w ⟨st, w.cursors, w.sequences⟩
  /-- Pull a sequence. -/
  | pull {w : World σ ε} {s : Suspended σ ε} {before after : List (Suspended σ ε)} {n : Nat}
      {answer : Option (Outcome σ s.Value)} {rest : Outcomes σ ε s.Name s.Value} {st : Store σ ε}
      (hs : w.sequences = before ++ s :: after)
      (h : s.outcomes.pull s.grammar n w.store = .done ⟨answer, rest⟩ st) :
      Step w ⟨st, Outcome.given answer ++ w.cursors,
        before ++ { s with outcomes := rest } :: after⟩
  /-- Pull a sequence and find a fault, which is the end of the sequence. -/
  | pullFault {w : World σ ε} {s : Suspended σ ε} {before after : List (Suspended σ ε)} {n : Nat}
      {x : Fault} {st : Store σ ε} (hs : w.sequences = before ++ s :: after)
      (h : s.outcomes.pull s.grammar n w.store = .fault x st) :
      Step w ⟨st, w.cursors, before ++ after⟩
  /-- Give up cursors and sequences. -/
  | drop {w : World σ ε} {cursors : List (Cursor σ)} {sequences : List (Suspended σ ε)}
      (hc : cursors.Sublist w.cursors) (hs : sequences.Sublist w.sequences) :
      Step w ⟨w.store, cursors, sequences⟩

/-- Any number of steps. -/
def Steps (w w' : World σ ε) : Prop :=
  Relation.ReflTransGen Step w w'

/-- The worlds that callers can get to. -/
def Reachable (w : World σ ε) : Prop :=
  Steps empty w

/-- The store is intact, and holds all that the callers have. -/
structure Sound (w : World σ ε) : Prop where
  intact    : w.store.Intact
  cursors   : ∀ c ∈ w.cursors, w.store.Holds c
  sequences : ∀ s ∈ w.sequences, s.Held (shared w.store w.store)

end World

/-! ## One step -/

theorem Suspended.Held.mono {s : Suspended σ ε} {K K' : Set (Cursor σ)} (hK : K ⊆ K')
    (h : s.Held K) : s.Held K' :=
  ⟨h.1.mono hK, h.2.mono hK⟩

omit [Carrier σ] in
theorem Store.Grows.shared_subset {st st' : Store σ ε} (hg : st.Grows st') (h : st.Intact)
    (h' : st'.Intact) : shared st st ⊆ shared st' st' :=
  fun _ hc => ⟨hg.holds h h' hc.1, hg.holds h h' hc.2⟩

namespace World

variable {w w' : World σ ε}

theorem Sound.alike (h : w.Sound) : Alike w.store w.store :=
  ⟨h.intact, h.intact, fun _ => rfl⟩

theorem Sound.known_subset (h : w.Sound) : w.known ⊆ shared w.store w.store :=
  fun c hc => ⟨h.cursors c hc, h.cursors c hc⟩

/-- With the store in the place of both, a start runs in parallel with itself. -/
theorem Sound.start (h : w.Sound) {ρ : Type → Type} {α : Type} {G : Grammar σ ε ρ}
    {p : Parser σ ε ρ α} {c : Cursor σ} {n : Nat} {r : Run σ ε (Outcomes σ ε ρ α)}
    (hc : c ∈ w.cursors) (hG : G.Honest w.known) (hp : p.Honest w.known)
    (hrun : p.start G n c w.store = r) : Run.Parallel Outcomes.Held w.store w.store r r := by
  have hknown := h.known_subset
  rw [← hrun]
  exact p.start_parallel n c h.alike (hG.mono hknown) (hp.mono hknown) (hknown hc)

/-- The same for a pull. -/
theorem Sound.pull (h : w.Sound) {s : Suspended σ ε} {n : Nat}
    {r : Run σ ε (Pull σ ε s.Name s.Value)} (hs : s ∈ w.sequences)
    (hrun : s.outcomes.pull s.grammar n w.store = r) :
    Run.Parallel Pull.Held w.store w.store r r := by
  obtain ⟨hG, hheld⟩ := h.sequences s hs
  rw [← hrun]
  exact Outcomes.pull_parallel n s.outcomes h.alike hG hheld

/-- Where the store has only grown, it still holds what it held; the rest is to be shown of what is
    new. -/
theorem Sound.grow (h : w.Sound) {st : Store σ ε} {cursors : List (Cursor σ)}
    {sequences : List (Suspended σ ε)} (hintact : st.Intact) (hgrows : w.store.Grows st)
    (hcursors : ∀ c ∈ cursors, c ∈ w.cursors ∨ st.Holds c)
    (hsequences : ∀ s ∈ sequences, s ∈ w.sequences ∨ s.Held (shared st st)) :
    Sound ⟨st, cursors, sequences⟩ where
  intact := hintact
  cursors c hc := by
    rcases hcursors c hc with hold | hnew
    · exact hgrows.holds h.intact hintact (h.cursors c hold)
    · exact hnew
  sequences s hs := by
    rcases hsequences s hs with hold | hnew
    · exact (h.sequences s hold).mono (hgrows.shared_subset h.intact hintact)
    · exact hnew

/-- **ONE STEP** keeps a world sound, and its store only grows. -/
theorem Step.sound (hstep : Step w w') (h : w.Sound) : w'.Sound ∧ w.store.Grows w'.store := by
  -- what the callers had before needs no further argument
  have hold : ∀ {st : Store σ ε}, ∀ c ∈ w.cursors, c ∈ w.cursors ∨ st.Holds c :=
    fun c hc => Or.inl hc
  have hseqs : ∀ {st : Store σ ε}, ∀ s ∈ w.sequences,
      s ∈ w.sequences ∨ s.Held (shared st st) := fun s hs => Or.inl hs
  cases hstep with
  | attach source =>
      obtain ⟨hintact, hholds⟩ := h.intact.attach source
      have hgrows := grows_attach w.store source
      refine ⟨h.grow hintact hgrows (fun c hc => ?_) hseqs, hgrows⟩
      rcases List.mem_cons.mp hc with rfl | hc
      · exact Or.inr hholds
      · exact Or.inl hc
  | copy hc =>
      refine ⟨h.grow h.intact (.refl _) (fun d hd => ?_) hseqs, .refl _⟩
      rcases List.mem_cons.mp hd with rfl | hd
      · exact Or.inl hc
      · exact Or.inl hd
  | advance hc =>
      obtain ⟨found, demand, st, st', hrun, -, hspends, -, hfound⟩ :=
        h.alike.advance (h.known_subset hc)
      rw [hrun]
      refine ⟨h.grow hspends.intact hspends.grows (fun d hd => ?_) hseqs, hspends.grows⟩
      rcases List.mem_append.mp hd with hd | hd
      · exact Or.inr (hfound d (Option.mem_toList.mp hd)).1
      · exact Or.inl hd
  | start hc hG hp hrun =>
      cases h.start hc hG hp hrun with
      | done left _ hheld =>
          refine ⟨h.grow left.intact left.grows hold fun s hs => ?_, left.grows⟩
          rcases List.mem_cons.mp hs with rfl | hs
          · have hsub := left.grows.shared_subset h.intact left.intact
            exact Or.inr ⟨(hG.mono h.known_subset).mono hsub, hheld⟩
          · exact Or.inl hs
  | startFault hc hG hp hrun =>
      cases h.start hc hG hp hrun with
      | fault left _ => exact ⟨h.grow left.intact left.grows hold hseqs, left.grows⟩
  | @pull s before after n answer rest st hs hrun =>
      have hmem : s ∈ w.sequences := by rw [hs]; simp
      cases h.pull hmem hrun with
      | done left _ hpulled =>
          have hsub := left.grows.shared_subset h.intact left.intact
          refine ⟨h.grow left.intact left.grows (fun c hc => ?_) fun t ht => ?_, left.grows⟩
          · rcases List.mem_append.mp hc with hc | hc
            · cases answer with
              | none => exact nomatch hc
              | some o =>
                  obtain ⟨hcursor, hvalue⟩ := hpulled.2 o rfl
                  rcases List.mem_cons.mp hc with rfl | hc
                  · exact Or.inr hcursor.1
                  · exact Or.inr (hvalue c hc).1
            · exact Or.inl hc
          · rw [hs]
            rcases List.mem_append.mp ht with ht | ht
            · exact Or.inl (List.mem_append_left _ ht)
            · rcases List.mem_cons.mp ht with rfl | ht
              · exact Or.inr ⟨(h.sequences s hmem).1.mono hsub, hpulled.1⟩
              · exact Or.inl (List.mem_append_right _ (List.mem_cons_of_mem _ ht))
  | @pullFault s before after n x st hs hrun =>
      have hmem : s ∈ w.sequences := by rw [hs]; simp
      cases h.pull hmem hrun with
      | fault left _ =>
          refine ⟨h.grow left.intact left.grows hold fun t ht => Or.inl ?_, left.grows⟩
          rw [hs]
          rcases List.mem_append.mp ht with ht | ht
          · exact List.mem_append_left _ ht
          · exact List.mem_append_right _ (List.mem_cons_of_mem _ ht)
  | drop hc hs =>
      exact ⟨h.grow h.intact (.refl _) (fun c hmem => Or.inl (hc.subset hmem))
        fun s hmem => Or.inl (hs.subset hmem), .refl _⟩

/-- A step takes up a source, or does nothing to the store but to read sources that are there and to
    leave remarks. -/
theorem Step.takeUp_or_spends (hstep : Step w w') (h : w.Sound) :
    (∃ source, w' = w.takeUp source) ∨ ∃ demand notes, w.store.Spends demand notes w'.store := by
  cases hstep with
  | attach source => exact Or.inl ⟨source, rfl⟩
  | copy hc => exact Or.inr ⟨_, _, .refl h.intact⟩
  | advance hc =>
      obtain ⟨found, demand, st, st', hrun, -, hspends, -⟩ := h.alike.advance (h.known_subset hc)
      rw [hrun]
      exact Or.inr ⟨_, _, hspends⟩
  | start hc hG hp hrun =>
      cases h.start hc hG hp hrun with
      | done left _ _ => exact Or.inr ⟨_, _, left⟩
  | startFault hc hG hp hrun =>
      cases h.start hc hG hp hrun with
      | fault left _ => exact Or.inr ⟨_, _, left⟩
  | pull hs hrun =>
      cases h.pull (hs ▸ List.mem_append_right _ (List.mem_cons_self ..)) hrun with
      | done left _ _ => exact Or.inr ⟨_, _, left⟩
  | pullFault hs hrun =>
      cases h.pull (hs ▸ List.mem_append_right _ (List.mem_cons_self ..)) hrun with
      | fault left _ => exact Or.inr ⟨_, _, left⟩
  | drop hc hs => exact Or.inr ⟨_, _, .refl h.intact⟩

/-- What a number stands for behind a step, it stood for before, or it was taken up just now. -/
theorem Step.source?_or_takeUp (hstep : Step w w') (h : w.Sound) {i : Nat} {source : Source σ}
    (hsource : w'.store.source? i = some source) :
    w.store.source? i = some source ∨ i = w.store.chains.size ∧ w' = w.takeUp source := by
  rcases hstep.takeUp_or_spends h with ⟨taken, rfl⟩ | ⟨_, _, hspends⟩
  · by_cases hi : i = w.store.chains.size
    · subst hi
      obtain rfl := Option.some.inj ((source?_attach_size w.store taken).symm.trans hsource)
      exact Or.inr ⟨rfl, rfl⟩
    · exact Or.inl ((source?_attach_of_ne w.store taken hi).symm.trans hsource)
  · exact Or.inl ((hspends.sources i).symm.trans hsource)

/-! ## Whole runs -/

/-- A run keeps a world sound, and its store only grows. -/
theorem Steps.sound (hsteps : Steps w w') (h : w.Sound) :
    w'.Sound ∧ w.store.Grows w'.store := by
  induction hsteps with
  | refl => exact ⟨h, .refl _⟩
  | tail _ hstep ih =>
      obtain ⟨hmid, hgrows⟩ := ih
      obtain ⟨hend, hgrows'⟩ := hstep.sound hmid
      exact ⟨hend, hgrows.trans hgrows'⟩

theorem Reachable.sound (h : w.Reachable) : w.Sound :=
  (Steps.sound h ⟨intact_empty, List.forall_mem_nil _, List.forall_mem_nil _⟩).1

/-- A source that has been taken up keeps its number, whatever the callers do next. -/
theorem Steps.source?_takeUp {source : Source σ} (hsteps : Steps (w.takeUp source) w')
    (h : w.Sound) : w'.store.source? w.store.chains.size = some source := by
  obtain ⟨hsound, -⟩ := Step.sound (.attach source) h
  obtain ⟨-, hgrows⟩ := hsteps.sound hsound
  exact (hgrows _ source (source?_attach_size w.store source)).1

/-- Each number stands for a source that was once taken up, as the next one then. -/
theorem Reachable.exists_takeUp (h : w.Reachable) {i : Nat} {source : Source σ}
    (hsource : w.store.source? i = some source) :
    ∃ before : World σ ε, before.Reachable ∧ before.store.chains.size = i ∧
      Steps (before.takeUp source) w := by
  induction h with
  | refl => simp [empty, Store.empty, source?] at hsource
  | @tail mid last hsteps hstep ih =>
      rcases hstep.source?_or_takeUp (Reachable.sound hsteps) hsource with hold | ⟨rfl, rfl⟩
      · obtain ⟨before, hreach, hsize, hrun⟩ := ih hold
        exact ⟨before, hreach, hsize, hrun.tail hstep⟩
      · exact ⟨mid, hsteps, rfl, .refl⟩

/-- **THE SHAPE OF EVERY REACHABLE STORE.** Each chain was made when its source was taken up, as the
    next one then. A source that has been read `m + 1` times has the nodes `0`, …, `m`. Node `j`
    sits at position `j` and shows the answer of read `j`, which is a symbol but for the last; its
    memo cell has the node `j + 1`, if there is one. The log has one event for each read, in order:
    that a symbol has been pulled, or that the source is exhausted. The cursors that callers have
    are handles on these nodes, and one place exactly when they have the same position in one
    source. A source that is taken up next gives the cursor at its first read, and stays the source
    of the next chain. Whatever the callers do, nodes show what they showed, memo cells keep what
    they have, and a source that has once given nothing is not read any more. -/
theorem Reachable.store_shape (h : w.Reachable) :
    (∀ (i : Nat) (chain : Chain σ), w.store.chains[i]? = some chain →
      (∃ before : World σ ε, before.Reachable ∧ before.store.chains.size = i ∧
        Steps (before.takeUp chain.source) w) ∧
      ∃ m, chain.reads = m + 1 ∧ chain.nodes.size = m + 1 ∧
        (∀ j ≤ m, chain.nodes[j]? = some
          ⟨j, chain.source.answer j, if j < m then some (j + 1) else none⟩) ∧
        (∀ j < m, (chain.source.answer j).isSome = true) ∧
        w.store.log.toList.filter (Event.isReadOf i) = (List.range (m + 1)).map fun j =>
          (chain.source.answer j).elim (.exhausted i j) fun x => .pulled i j x) ∧
    (∀ c ∈ w.cursors, w.store.Holds c ∧ ∃ chain : Chain σ,
      w.store.chains[c.source]? = some chain ∧ c.position < chain.reads ∧
      c.node = c.position ∧ c.current = chain.source.answer c.position) ∧
    (∀ c ∈ w.cursors, ∀ d ∈ w.cursors,
      (c.same d = true ↔ c.source = d.source ∧ c.position = d.position)) ∧
    (∀ source : Source σ,
      (w.store.attach source).1 = ⟨w.store.chains.size, 0, 0, source.answer 0⟩ ∧
      ∀ w', Steps (w.takeUp source) w' → ∃ chain : Chain σ,
        w'.store.chains[w.store.chains.size]? = some chain ∧ chain.source = source) ∧
    ∀ w', Steps w w' → ∀ (i : Nat) (chain : Chain σ), w.store.chains[i]? = some chain →
      (∀ (j : Nat) (node : Node σ), chain.nodes[j]? = some node →
        ∃ (chain' : Chain σ) (node' : Node σ),
          w'.store.chains[i]? = some chain' ∧ chain'.nodes[j]? = some node' ∧
          node'.position = node.position ∧ node'.current = node.current ∧
          ∀ k, node.next = some k → node'.next = some k) ∧
      ∀ j < chain.reads, chain.source.answer j = none → w'.store.chains[i]? = some chain := by
  have hsound := h.sound
  refine ⟨fun i chain hchain => ⟨?_, ?_⟩, fun c hc => ⟨hsound.cursors c hc, ?_⟩,
    fun c hc d hd => ?_, fun source => ⟨rfl, fun w' hsteps => ?_⟩,
    fun w' hsteps i chain hchain => ?_⟩
  · refine h.exists_takeUp ?_
    rw [source?, hchain]
    rfl
  · have hintact := hsound.intact.chain i chain hchain
    obtain ⟨m, hm⟩ := Nat.exists_eq_add_one.mpr hintact.nonempty
    refine ⟨m, hm, hintact.size.trans hm, fun j hj => ?_, fun j hj => ?_, ?_⟩
    · rw [hintact.node j (by omega), hm]
      simp only [Nat.add_lt_add_iff_right]
    · exact hintact.symbol j (by omega)
    · rw [hsound.intact.logged, hchain, ← hm]
      exact List.map_congr_left fun j _ => Event.ofRead_eq_elim ..
  · obtain ⟨source, hsource, hnode, hcur⟩ := hsound.intact.holds_iff.mp (hsound.cursors c hc)
    obtain ⟨chain, hchain, rfl, hreads⟩ := exists_chain hsource
    have hposition : c.position = c.node := congrArg Cursor.position hcur
    have hcurrent : c.current = chain.source.answer c.node := congrArg Cursor.current hcur
    exact ⟨chain, hchain, by omega, hposition.symm, by rw [hcurrent, hposition]⟩
  · exact hsound.intact.same_iff_of_holds (hsound.cursors c hc) (hsound.cursors d hd)
  · obtain ⟨chain, hchain, hsource, -⟩ := exists_chain (hsteps.source?_takeUp hsound)
    exact ⟨chain, hchain, hsource⟩
  · obtain ⟨hsound', hgrows⟩ := hsteps.sound hsound
    refine ⟨fun j node hnode => ?_, fun j hj hanswer => ?_⟩
    · exact hgrows.node hsound.intact hsound'.intact hchain hnode
    · exact hgrows.chain_eq_of_answer_eq_none hsound.intact hsound'.intact hchain hj hanswer

omit [Carrier σ] in
/-- A world behind a gap: the source has given a symbol and then nothing, and would go on. -/
def behindGap : World Nat Unit :=
  let first := (empty : World Nat Unit).store.attach (.ofArray #[some 7, none, some 8])
  let second := first.2.advance first.1
  ⟨second.2, second.1.toList ++ [first.1], []⟩

/-- The two reads are in the log, and the source is the one that was taken up at first. Behind the
    gap nothing is read any more. -/
theorem behindGap_store_shape :
    let _ : Carrier Nat := .none
    let source : Source Nat := .ofArray #[some 7, none, some 8]
    behindGap.Reachable ∧
    behindGap.store.log.toList.filter (Event.isReadOf 0) = [.pulled 0 0 7, .exhausted 0 1] ∧
    ∀ w', Steps behindGap w' → w'.store.source? 0 = some source ∧ w'.store.readsOf 0 = 2 ∧
      w'.store.cursor? 0 1 = some ⟨0, 1, 1, none⟩ := by
  intro _ source
  have hempty : (empty : World Nat Unit).Reachable := .refl
  have hadvance : Steps (empty.takeUp source) behindGap :=
    .single (.advance (List.mem_singleton_self _))
  have hreach : behindGap.Reachable := .head (.attach source) hadvance
  obtain ⟨hchains, -, -, -, hstays⟩ := Reachable.store_shape hreach
  refine ⟨hreach, ?_, fun w' hsteps => ⟨?_, ?_⟩⟩
  · obtain ⟨-, m, hm, -, -, -, hlog⟩ := hchains 0 _ rfl
    obtain rfl : 1 = m := Nat.succ.inj hm
    exact hlog
  · obtain ⟨-, -, -, htaken, -⟩ := Reachable.store_shape hempty
    obtain ⟨chain, hchain, hsource⟩ := (htaken source).2 w' (hadvance.trans hsteps)
    rw [source?, show w'.store.chains[0]? = some chain from hchain, ← hsource]
    rfl
  · have hchain := (hstays w' hsteps 0 _ rfl).2 1 (by decide) rfl
    rw [readsOf, cursor?, hchain]
    exact ⟨rfl, rfl⟩

omit [Carrier σ] in
/-- A world with one cursor, and two symbols to be read there. -/
def pair : World Nat Unit :=
  let first := (empty : World Nat Unit).store.attach (.ofList [7, 8])
  ⟨first.2, [first.1], []⟩

theorem reachable_pair [Carrier Nat] : pair.Reachable :=
  Relation.ReflTransGen.refl.tail (.attach _)

omit [Carrier σ] in
/-- A world with one cursor, at the beginning of these symbols. -/
def facing (symbols : List σ) : World σ ε :=
  let first := (empty : World σ ε).store.attach (.ofList symbols)
  ⟨first.2, [first.1], []⟩

theorem reachable_facing (symbols : List σ) : (facing symbols : World σ ε).Reachable :=
  Relation.ReflTransGen.refl.tail (.attach _)

end World

/-- The grammar without rules. -/
def Grammar.empty : Grammar σ ε fun _ => Empty :=
  ⟨fun r => r.elim⟩

end Backtrack

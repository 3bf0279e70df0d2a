import Backtrack.Store

/-!
# Intact chains — what the store looks like after any use

Over each source grows a chain of nodes, one per read: node `j` sits at position `j`, shows the
answer of read `j`, and its memo cell names node `j + 1` as soon as that node exists. A read is made
only behind a symbol, so an empty answer is the last one, whatever the source would still have to
say. The log tells the reads of each source in order.

An intact chain is therefore determined by its source and the number of reads. What an action does
to the store is summed up by `Store.Spends`: how many reads of each source it asks for, whoever
makes them, and which remarks it leaves.
-/

namespace Backtrack

variable {σ ε : Type}

/-- Whether an event is a read of the given source. -/
def Event.isReadOf (i : Nat) : Event σ ε → Bool
  | .pulled source _ _  => source == i
  | .exhausted source _ => source == i
  | .ambiguous _        => false
  | .note _             => false

/-- The remark in an event, if it is one. -/
def Event.remark? : Event σ ε → Option ε
  | .note e => some e
  | _       => none

/-- The cursor for read `j` of a source that the store knows by the number `i`. -/
def Source.cursorAt (source : Source σ) (i j : Nat) : Cursor σ :=
  ⟨i, j, j, source.answer j⟩

/-- The place behind read `j` of a source: there is one if that read gave a symbol. -/
def Source.next? (source : Source σ) (i j : Nat) : Option (Cursor σ) :=
  (source.answer j).map fun _ => source.cursorAt i (j + 1)

/-- The reads that going on from read `j` asks for: if that read gave a symbol, one more. -/
def Source.demand (source : Source σ) (i j : Nat) : Nat → Nat :=
  fun k => if k = i ∧ (source.answer j).isSome = true then j + 2 else 0

/-- The events of all reads of a source so far, in order. -/
def Chain.trail (i : Nat) (chain : Chain σ) : List (Event σ ε) :=
  (List.range chain.reads).map fun j => .ofRead i j (chain.source.answer j)

/-- One node per read, in order, each linked to the next; and no read behind an empty answer. -/
structure Chain.Intact (chain : Chain σ) : Prop where
  nonempty : 0 < chain.reads
  size     : chain.nodes.size = chain.reads
  node     : ∀ j, j < chain.reads → chain.nodes[j]? = some
    ⟨j, chain.source.answer j, if j + 1 < chain.reads then some (j + 1) else none⟩
  symbol   : ∀ j, j + 1 < chain.reads → (chain.source.answer j).isSome = true

namespace Store

/-- The source that the store knows by a number. -/
def source? (st : Store σ ε) (i : Nat) : Option (Source σ) :=
  st.chains[i]?.map Chain.source

/-- How often a source has been read. -/
def readsOf (st : Store σ ε) (i : Nat) : Nat :=
  st.chains[i]?.elim 0 Chain.reads

/-- The remarks in the log, in order. -/
def notes (st : Store σ ε) : List ε :=
  st.log.toList.filterMap Event.remark?

/-- A store holds a cursor when the cursor shows what its node shows. -/
def Holds (st : Store σ ε) (c : Cursor σ) : Prop :=
  st.cursor? c.source c.node = some c

instance [DecidableEq σ] (st : Store σ ε) (c : Cursor σ) : Decidable (st.Holds c) :=
  inferInstanceAs (Decidable (_ = _))

/-- All chains are intact, and the log has exactly the reads of each source, in order. -/
structure Intact (st : Store σ ε) : Prop where
  chain  : ∀ (i : Nat) (chain : Chain σ), st.chains[i]? = some chain → chain.Intact
  logged : ∀ i, st.log.toList.filter (Event.isReadOf i) = st.chains[i]?.elim [] (Chain.trail i)

/-- Every source is still there, and has been read at least as often. -/
def Grows (st st' : Store σ ε) : Prop :=
  ∀ i source, st.source? i = some source →
    st'.source? i = some source ∧ st.readsOf i ≤ st'.readsOf i

/-- What an action on the store comes to: each source has been read as often as `demand` says, or
    as often as before if that was more, and `notes` have been added to the remarks. -/
structure Spends (st : Store σ ε) (demand : Nat → Nat) (notes : List ε) (st' : Store σ ε) :
    Prop where
  intact  : st'.Intact
  sources : ∀ i, st'.source? i = st.source? i
  reads   : ∀ i, st'.readsOf i = max (st.readsOf i) (demand i)
  notes   : st'.notes = st.notes ++ notes

end Store

/-- A read is a read of its own source only. -/
theorem Event.filter_ofRead (i j k : Nat) (answer : Option σ) :
    [(ofRead i j answer : Event σ ε)].filter (isReadOf k) =
      if i = k then [ofRead i j answer] else [] := by
  cases answer <;> by_cases hk : i = k <;> simp [ofRead, isReadOf, hk]

/-- A read that gave a symbol is recorded with it, and a read that gave nothing as the end. -/
theorem Event.ofRead_eq_elim (i j : Nat) (answer : Option σ) :
    (ofRead i j answer : Event σ ε) =
      answer.elim (.exhausted i j) fun x => .pulled i j x := by
  cases answer <;> rfl

/-- Reads are no remarks. -/
theorem Event.filterMap_ofRead (i j : Nat) (answer : Option σ) :
    [(ofRead i j answer : Event σ ε)].filterMap remark? = [] := by
  cases answer <;> rfl

/-! ## Intact chains -/

/-- An intact chain is determined by its source and the number of reads. -/
theorem Chain.Intact.eq {chain chain' : Chain σ} (h : chain.Intact) (h' : chain'.Intact)
    (hsource : chain'.source = chain.source) (hreads : chain'.reads = chain.reads) :
    chain' = chain := by
  obtain ⟨source, reads, nodes⟩ := chain
  obtain ⟨source', reads', nodes'⟩ := chain'
  obtain rfl : source' = source := hsource
  obtain rfl : reads' = reads := hreads
  have hnodes : nodes' = nodes := by
    refine Array.ext_getElem? ?_
    intro j
    by_cases hj : j < reads'
    · rw [h.node j hj, h'.node j hj]
    · have hs : nodes.size = reads' := h.size
      have hs' : nodes'.size = reads' := h'.size
      rw [Array.getElem?_eq_none (by omega), Array.getElem?_eq_none (by omega)]
  rw [hnodes]

/-- The chain that `attach` makes. -/
theorem Chain.intact_first (source : Source σ) :
    (⟨source, 1, #[⟨0, source.answer 0, none⟩]⟩ : Chain σ).Intact where
  nonempty := Nat.one_pos
  size := rfl
  node j hj := by
    obtain rfl : j = 0 := Nat.lt_one_iff.mp hj
    rfl
  symbol j hj := absurd hj (by simp)

/-- Going on from the last node, which shows a symbol, keeps a chain intact. -/
theorem Chain.Intact.read_link {chain : Chain σ} (h : chain.Intact) {j : Nat}
    (hlast : j + 1 = chain.reads) (hsymbol : (chain.source.answer j).isSome = true) :
    ((chain.read (j + 1)).link j (j + 1)).Intact where
  nonempty := Nat.succ_pos _
  size := by
    show ((chain.nodes.push _).modify j _).size = chain.reads + 1
    rw [Array.size_modify, Array.size_push, h.size]
  node k hk := by
    have hk' : k < chain.reads + 1 := hk
    show ((chain.nodes.push ⟨j + 1, chain.source.answer chain.reads, none⟩).modify j _)[k]?
      = some ⟨k, chain.source.answer k, if k + 1 < chain.reads + 1 then some (k + 1) else none⟩
    rw [Array.getElem?_modify, Array.getElem?_push, h.size]
    by_cases hend : k = chain.reads
    · -- the new node, whose memo cell is empty
      rw [if_neg (show ¬ j = k by omega), if_pos hend, if_neg (by omega), hlast, hend]
    · rw [if_neg hend, h.node k (by omega), if_pos (show k + 1 < chain.reads + 1 by omega)]
      by_cases hkj : j = k
      · rw [if_pos hkj, hkj]
        rfl
      · rw [if_neg hkj, if_pos (by omega)]
  symbol k hk := by
    have hk' : k + 1 < chain.reads + 1 := hk
    by_cases hkj : k = j
    · rw [hkj]
      exact hsymbol
    · exact h.symbol k (by omega)

/-! ## Intact stores -/

namespace Store

variable {st st' st'' : Store σ ε} {c : Cursor σ} {i j : Nat} {source : Source σ}

/-- The chain behind a source of the store. -/
theorem exists_chain (h : st.source? i = some source) :
    ∃ chain : Chain σ, st.chains[i]? = some chain ∧ chain.source = source ∧
      chain.reads = st.readsOf i := by
  obtain ⟨chain, hchain, rfl⟩ := Option.map_eq_some_iff.mp h
  exact ⟨chain, hchain, rfl, by rw [readsOf, hchain]; rfl⟩

/-- An intact store has one cursor for each read that has been made, and no other. -/
theorem Intact.cursor?_eq_some_iff (h : st.Intact) :
    st.cursor? i j = some c ↔
      ∃ source, st.source? i = some source ∧ j < st.readsOf i ∧ c = source.cursorAt i j := by
  constructor
  · intro hc
    obtain ⟨chain, hchain, hshown⟩ := Option.bind_eq_some_iff.mp hc
    obtain ⟨node, hnode, rfl⟩ := Option.map_eq_some_iff.mp hshown
    have hintact := h.chain i chain hchain
    have hj : j < chain.reads := by
      rw [← hintact.size]
      exact (Array.getElem?_eq_some_iff.mp hnode).1
    rw [hintact.node j hj] at hnode
    obtain rfl := Option.some.inj hnode
    exact ⟨chain.source, by rw [source?, hchain]; rfl, by rw [readsOf, hchain]; exact hj, rfl⟩
  · rintro ⟨source, hsource, hj, rfl⟩
    obtain ⟨chain, hchain, rfl, hreads⟩ := exists_chain hsource
    rw [cursor?, hchain]
    show chain.nodes[j]?.map _ = _
    rw [(h.chain i chain hchain).node j (by omega)]
    rfl

/-- A cursor is held when it is the cursor of a read that has been made. -/
theorem Intact.holds_iff (h : st.Intact) :
    st.Holds c ↔ ∃ source, st.source? c.source = some source ∧ c.node < st.readsOf c.source ∧
      c = source.cursorAt c.source c.node :=
  h.cursor?_eq_some_iff

theorem Intact.holds_cursorAt (h : st.Intact) (hsource : st.source? i = some source)
    (hj : j < st.readsOf i) : st.Holds (source.cursorAt i j) :=
  h.holds_iff.mpr ⟨source, hsource, hj, rfl⟩

/-- Cursors that are held are one place exactly when they have the same position in one source. -/
theorem Intact.same_iff_of_holds (h : st.Intact) {d : Cursor σ} (hc : st.Holds c)
    (hd : st.Holds d) : c.same d = true ↔ c.source = d.source ∧ c.position = d.position := by
  obtain ⟨source, -, -, hcur⟩ := h.holds_iff.mp hc
  obtain ⟨source', -, -, hcur'⟩ := h.holds_iff.mp hd
  have hposition : c.position = c.node := congrArg Cursor.position hcur
  have hposition' : d.position = d.node := congrArg Cursor.position hcur'
  rw [Cursor.same_iff, hposition, hposition']

/-- A source has been read only behind symbols. -/
theorem Intact.isSome_answer (h : st.Intact) (hsource : st.source? i = some source)
    (hj : j + 1 < st.readsOf i) : (source.answer j).isSome = true := by
  obtain ⟨chain, hchain, rfl, hreads⟩ := exists_chain hsource
  exact (h.chain i chain hchain).symbol j (by omega)

/-- The memo cell of a node is filled exactly when the next read has been made. -/
theorem Intact.memo?_cursorAt (h : st.Intact) (hsource : st.source? i = some source)
    (hj : j < st.readsOf i) :
    st.memo? (source.cursorAt i j) =
      if j + 1 < st.readsOf i then some (source.cursorAt i (j + 1)) else none := by
  obtain ⟨chain, hchain, hs, hreads⟩ := exists_chain hsource
  have hnext : st.next? (source.cursorAt i j) =
      if j + 1 < st.readsOf i then some (j + 1) else none := by
    show (st.chains[i]?.bind fun chain => chain.nodes[j]?.bind Node.next) = _
    rw [hchain, Option.bind_some, (h.chain i chain hchain).node j (by omega), hreads]
    rfl
  rw [memo?, hnext]
  by_cases hread : j + 1 < st.readsOf i
  · rw [if_pos hread, if_pos hread]
    exact h.cursor?_eq_some_iff.mpr ⟨source, hsource, hread, rfl⟩
  · rw [if_neg hread, if_neg hread]
    rfl

/-- Intact stores with the same sources, read equally often, have the same chains. -/
theorem Intact.chains_eq (h : st.Intact) (h' : st'.Intact)
    (hsources : ∀ i, st'.source? i = st.source? i) (hreads : ∀ i, st'.readsOf i = st.readsOf i) :
    st'.chains = st.chains := by
  refine Array.ext_getElem? ?_
  intro i
  cases hsource : st.source? i with
  | none =>
      have hsource' := (hsources i).trans hsource
      rw [Option.map_eq_none_iff.mp hsource, Option.map_eq_none_iff.mp hsource']
  | some source =>
      obtain ⟨chain, hchain, hs, hr⟩ := exists_chain hsource
      obtain ⟨chain', hchain', hs', hr'⟩ := exists_chain ((hsources i).trans hsource)
      rw [hchain, hchain', (h.chain i chain hchain).eq (h'.chain i chain' hchain')
        (hs'.trans hs.symm) (by rw [hr', hr, hreads])]

/-! ## Growth -/

theorem Grows.refl (st : Store σ ε) : st.Grows st :=
  fun _ _ h => ⟨h, Nat.le_refl _⟩

theorem Grows.trans (h : st.Grows st') (h' : st'.Grows st'') : st.Grows st'' := by
  intro i source hs
  obtain ⟨hs', hle⟩ := h i source hs
  obtain ⟨hs'', hle'⟩ := h' i source hs'
  exact ⟨hs'', Nat.le_trans hle hle'⟩

/-- A cursor that is held stays held. -/
theorem Grows.holds (hg : st.Grows st') (h : st.Intact) (h' : st'.Intact) (hc : st.Holds c) :
    st'.Holds c := by
  obtain ⟨source, hs, hnode, hcur⟩ := h.holds_iff.mp hc
  obtain ⟨hs', hle⟩ := hg _ source hs
  exact h'.holds_iff.mpr ⟨source, hs', by omega, hcur⟩

/-- A chain is still there, over the same source, and has been read at least as often. -/
theorem Grows.chain (hg : st.Grows st') {chain : Chain σ} (hchain : st.chains[i]? = some chain) :
    ∃ chain' : Chain σ, st'.chains[i]? = some chain' ∧ chain'.source = chain.source ∧
      chain.reads ≤ chain'.reads := by
  have hsource : st.source? i = some chain.source := by rw [source?, hchain]; rfl
  have hreads : st.readsOf i = chain.reads := by rw [readsOf, hchain]; rfl
  obtain ⟨hsource', hle⟩ := hg i _ hsource
  obtain ⟨chain', hchain', hs, hreads'⟩ := exists_chain hsource'
  exact ⟨chain', hchain', hs, by omega⟩

/-- What a node shows never changes, and its memo cell keeps what it has. -/
theorem Grows.node (hg : st.Grows st') (h : st.Intact) (h' : st'.Intact) {chain : Chain σ}
    (hchain : st.chains[i]? = some chain) {node : Node σ} (hnode : chain.nodes[j]? = some node) :
    ∃ chain' node', st'.chains[i]? = some chain' ∧ chain'.nodes[j]? = some node' ∧
      node'.position = node.position ∧ node'.current = node.current ∧
      ∀ k, node.next = some k → node'.next = some k := by
  obtain ⟨chain', hchain', hsource, hle⟩ := hg.chain hchain
  have hj : j < chain.reads := by
    rw [← (h.chain i chain hchain).size]
    exact (Array.getElem?_eq_some_iff.mp hnode).1
  rw [(h.chain i chain hchain).node j hj] at hnode
  obtain rfl := Option.some.inj hnode
  refine ⟨chain', _, hchain', (h'.chain i chain' hchain').node j (by omega), rfl, ?_, ?_⟩
  · rw [hsource]
  · intro k (hk : (if j + 1 < chain.reads then some (j + 1) else none) = some k)
    show (if j + 1 < chain'.reads then some (j + 1) else none) = some k
    by_cases hnext : j + 1 < chain.reads
    · rw [if_pos hnext] at hk
      rw [if_pos (by omega), hk]
    · -- an empty cell has nothing to keep
      rw [if_neg hnext] at hk
      exact nomatch hk

/-- Once a read has given nothing, the source is not read any more. -/
theorem Grows.chain_eq_of_answer_eq_none (hg : st.Grows st') (h : st.Intact) (h' : st'.Intact)
    {chain : Chain σ} (hchain : st.chains[i]? = some chain) (hj : j < chain.reads)
    (hanswer : chain.source.answer j = none) : st'.chains[i]? = some chain := by
  obtain ⟨chain', hchain', hsource, hle⟩ := hg.chain hchain
  have hintact' := h'.chain i chain' hchain'
  have hlast : chain'.reads ≤ j + 1 := by
    refine Nat.le_of_not_lt ?_
    intro hmore
    -- a later read would stand behind an empty answer
    have hsymbol := hintact'.symbol j (by omega)
    rw [hsource, hanswer] at hsymbol
    exact nomatch hsymbol
  rw [hchain', (h.chain i chain hchain).eq hintact' hsource (by omega)]

namespace Spends

variable {demand demand' : Nat → Nat} {notes notes' : List ε}

theorem refl (h : st.Intact) : st.Spends (fun _ => 0) [] st where
  intact := h
  sources _ := rfl
  reads _ := (Nat.max_eq_left (Nat.zero_le _)).symm
  notes := (List.append_nil _).symm

theorem trans (h : st.Spends demand notes st') (h' : st'.Spends demand' notes' st'') :
    st.Spends (fun i => max (demand i) (demand' i)) (notes ++ notes') st'' where
  intact := h'.intact
  sources i := (h'.sources i).trans (h.sources i)
  reads i := by rw [h'.reads, h.reads, Nat.max_assoc]
  notes := by rw [h'.notes, h.notes, List.append_assoc]

theorem grows (h : st.Spends demand notes st') : st.Grows st' := by
  intro i source hs
  rw [h.sources, h.reads]
  exact ⟨hs, Nat.le_max_left _ _⟩

end Spends

/-! ## Remarks -/

theorem log_remark (st : Store σ ε) (notes : List ε) :
    (st.remark notes).log.toList = st.log.toList ++ notes.map Event.note := by
  induction notes generalizing st with
  | nil => exact (List.append_nil _).symm
  | cons e notes ih =>
      show ((st.record (.note e)).remark notes).log.toList = _
      rw [ih, record, Array.toList_push, List.append_assoc]
      rfl

/-- Remarks ask for no read. -/
theorem Intact.spends_remark (h : st.Intact) (notes : List ε) :
    st.Spends (fun _ => 0) notes (st.remark notes) where
  intact := by
    refine ⟨fun i chain hchain => ?_, fun i => ?_⟩
    · rw [chains_remark] at hchain
      exact h.chain i chain hchain
    · have hnone : (notes.map Event.note).filter (@Event.isReadOf σ ε i) = [] := by
        rw [List.filter_eq_nil_iff]
        intro e he
        obtain ⟨n, -, rfl⟩ := List.mem_map.mp he
        exact Bool.false_ne_true
      rw [log_remark, List.filter_append, hnone, List.append_nil, chains_remark]
      exact h.logged i
  sources i := by rw [source?, chains_remark]; rfl
  reads i := by rw [readsOf, chains_remark]; exact (Nat.max_eq_left (Nat.zero_le _)).symm
  notes := by
    have hall : (notes.map Event.note).filterMap (@Event.remark? σ ε) = notes := by
      rw [List.filterMap_map]
      exact List.filterMap_some
    rw [Store.notes, log_remark, List.filterMap_append, hall]
    rfl

/-! ## Going on and taking up -/

/-- The store after a read at the end of chain `i`, whose last node is `j`. -/
def extend (st : Store σ ε) (i j : Nat) (answer : Option σ) : Store σ ε :=
  ⟨st.chains.modify i fun chain => (chain.read (j + 1)).link j (j + 1),
    st.log.push (.ofRead i (j + 1) answer)⟩

/-- Going on from the last node reads the source, from any other node it does not. -/
theorem Intact.advance_cursorAt (h : st.Intact) (hsource : st.source? i = some source)
    (hj : j < st.readsOf i) :
    st.advance (source.cursorAt i j) = (source.next? i j,
      if (source.answer j).isSome = true ∧ j + 1 = st.readsOf i
      then st.extend i j (source.answer (j + 1)) else st) := by
  obtain ⟨chain, hchain, hs, hreads⟩ := exists_chain hsource
  have hcurrent : (source.cursorAt i j).current = source.answer j := rfl
  rw [advance, hcurrent, h.memo?_cursorAt hsource hj, Source.next?]
  cases hanswer : source.answer j with
  | none => rfl
  | some x =>
      by_cases hend : j + 1 = st.readsOf i
      · -- nobody has gone on from here before: the read is made and the memo cell filled
        rw [if_neg (by omega), if_pos ⟨rfl, hend⟩]
        have hnext : st.readNext i (j + 1) = (source.cursorAt i (j + 1),
            ⟨st.chains.modify i (Chain.read (j + 1)),
              st.log.push (.ofRead i (j + 1) (source.answer (j + 1)))⟩) := by
          rw [readNext, hchain, Source.cursorAt, hend, ← hreads, ← hs]
          show (_, _) = _
          rw [Option.bind_some, Option.elim_some, (h.chain i chain hchain).size]
        show (some (st.readNext i (j + 1)).1,
          (st.readNext i (j + 1)).2.link (source.cursorAt i j) (st.readNext i (j + 1)).1) = _
        rw [hnext]
        refine congrArg (Prod.mk _) ?_
        show Store.mk ((st.chains.modify i _).modify i _) _ = Store.mk _ _
        refine congrArg (Store.mk · _) (Array.ext_getElem? fun k => ?_)
        rw [Array.getElem?_modify, Array.getElem?_modify, Array.getElem?_modify]
        by_cases hk : i = k
        · rw [if_pos hk, if_pos hk, if_pos hk, Option.map_map]
          rfl
        · rw [if_neg hk, if_neg hk, if_neg hk]
      · rw [if_pos (by omega), if_neg (fun hc => hend hc.2)]
        rfl

/-- Extending the chain behind its last node, which shows a symbol, asks for one read more. -/
theorem Intact.spends_extend (h : st.Intact) (hsource : st.source? i = some source)
    (hsymbol : (source.answer j).isSome = true) (hend : j + 1 = st.readsOf i) :
    st.Spends (source.demand i j) [] (st.extend i j (source.answer (j + 1))) := by
  obtain ⟨chain, hchain, rfl, hreads⟩ := exists_chain hsource
  have hchains : ∀ k, (st.extend i j (chain.source.answer (j + 1))).chains[k]? =
      if i = k then some ((chain.read (j + 1)).link j (j + 1)) else st.chains[k]? := by
    intro k
    rw [extend, Array.getElem?_modify]
    by_cases hk : i = k
    · rw [if_pos hk, if_pos hk, ← hk, hchain]
      rfl
    · rw [if_neg hk, if_neg hk]
  refine ⟨⟨?_, ?_⟩, ?_, ?_, ?_⟩
  · intro k chain' hchain'
    rw [hchains] at hchain'
    by_cases hk : i = k
    · rw [if_pos hk] at hchain'
      obtain rfl := Option.some.inj hchain'
      exact (h.chain i chain hchain).read_link (by omega) hsymbol
    · rw [if_neg hk] at hchain'
      exact h.chain k chain' hchain'
  · intro k
    -- the new event is the last one in the trail of chain `i`, and in no other trail
    rw [hchains]
    show (st.log.push _).toList.filter _ = _
    rw [Array.toList_push, List.filter_append, h.logged k]
    by_cases hk : i = k
    · obtain rfl := hk
      rw [if_pos rfl, hchain]
      show chain.trail i ++ _ = (List.range (chain.reads + 1)).map _
      rw [List.range_succ, List.map_append, Event.filter_ofRead, if_pos rfl, hend, ← hreads]
      rfl
    · rw [if_neg hk, Event.filter_ofRead, if_neg hk, List.append_nil]
  · intro k
    rw [source?, hchains]
    by_cases hk : i = k
    · rw [if_pos hk, ← hk, source?, hchain]
      rfl
    · rw [if_neg hk]
      rfl
  · intro k
    rw [readsOf, hchains, Source.demand]
    by_cases hk : i = k
    · rw [if_pos hk, if_pos ⟨hk.symm, hsymbol⟩, ← hk, ← hend]
      show chain.reads + 1 = _
      omega
    · rw [if_neg hk, if_neg (fun hc => hk hc.1.symm)]
      exact (Nat.max_eq_left (Nat.zero_le _)).symm
  · rw [notes, extend, Array.toList_push, List.filterMap_append, Event.filterMap_ofRead]
    rfl

/-- What a parser finds behind a cursor, and what it asks for, are a matter of the cursor alone. -/
theorem Intact.advance_spec (h : st.Intact) (hsource : st.source? i = some source)
    (hj : j < st.readsOf i) :
    (st.advance (source.cursorAt i j)).1 = source.next? i j ∧
      st.Spends (source.demand i j) [] (st.advance (source.cursorAt i j)).2 := by
  rw [h.advance_cursorAt hsource hj]
  refine ⟨rfl, ?_⟩
  by_cases hread : (source.answer j).isSome = true ∧ j + 1 = st.readsOf i
  · rw [if_pos hread]
    exact h.spends_extend hsource hread.1 hread.2
  · rw [if_neg hread]
    refine ⟨h, fun _ => rfl, fun k => ?_, (List.append_nil _).symm⟩
    rw [Source.demand]
    by_cases hk : k = i ∧ (source.answer j).isSome = true
    · -- the read asked for has been made before
      have hne : j + 1 ≠ st.readsOf i := fun he => hread ⟨hk.2, he⟩
      rw [if_pos hk, hk.1]
      show st.readsOf i = _
      omega
    · rw [if_neg hk]
      exact (Nat.max_eq_left (Nat.zero_le _)).symm

theorem intact_empty : (empty : Store σ ε).Intact where
  chain i chain hchain := by simp [empty] at hchain
  logged i := by simp [empty]

/-- Taking up a source adds a chain over it, which has been read once, and changes no other. -/
theorem getElem?_chains_attach (st : Store σ ε) (source : Source σ) (k : Nat) :
    (st.attach source).2.chains[k]? =
      if k = st.chains.size then some ⟨source, 1, #[⟨0, source.answer 0, none⟩]⟩
      else st.chains[k]? :=
  Array.getElem?_push

/-- The source that is taken up gets the next number. -/
theorem source?_attach_size (st : Store σ ε) (source : Source σ) :
    (st.attach source).2.source? st.chains.size = some source := by
  rw [source?, getElem?_chains_attach, if_pos rfl]
  rfl

/-- The other numbers keep their sources. -/
theorem source?_attach_of_ne (st : Store σ ε) (source : Source σ) (hi : i ≠ st.chains.size) :
    (st.attach source).2.source? i = st.source? i := by
  rw [source?, getElem?_chains_attach, if_neg hi]
  rfl

theorem grows_attach (st : Store σ ε) (source : Source σ) : st.Grows (st.attach source).2 := by
  intro k source' hsource
  have hk : k ≠ st.chains.size := by
    rintro rfl
    rw [source?, Array.getElem?_size] at hsource
    cases hsource
  rw [source?_attach_of_ne st source hk, readsOf, readsOf, getElem?_chains_attach, if_neg hk]
  exact ⟨hsource, Nat.le_refl _⟩

/-- What is handed out with a source is the cursor at its first read. -/
theorem Intact.attach (h : st.Intact) (source : Source σ) :
    (st.attach source).2.Intact ∧ (st.attach source).2.Holds (st.attach source).1 := by
  have hintact : (st.attach source).2.Intact := by
    refine ⟨fun k chain hchain => ?_, fun k => ?_⟩
    · rw [getElem?_chains_attach] at hchain
      by_cases hk : k = st.chains.size
      · rw [if_pos hk] at hchain
        obtain rfl := Option.some.inj hchain
        exact Chain.intact_first source
      · rw [if_neg hk] at hchain
        exact h.chain k chain hchain
    · rw [getElem?_chains_attach]
      show (st.log.push _).toList.filter _ = _
      rw [Array.toList_push, List.filter_append, h.logged k, Event.filter_ofRead]
      by_cases hk : k = st.chains.size
      · rw [if_pos hk, if_pos hk.symm, hk, Array.getElem?_size]
        rfl
      · rw [if_neg hk, if_neg (Ne.symm hk), List.append_nil]
  refine ⟨hintact, hintact.holds_cursorAt (source?_attach_size st source) ?_⟩
  rw [readsOf, getElem?_chains_attach, if_pos rfl]
  exact Nat.one_pos

end Store

end Backtrack

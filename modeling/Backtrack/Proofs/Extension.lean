import Backtrack.Proofs.Completeness

/-!
# Extension — more input keeps the outcomes

Let an input go on behind its end. A parser that never asks for the end still has all the outcomes
it had, in the same order; others may come in anywhere between them. So the list of the shorter
input is a sublist of that of the longer one.

The embedding goes through the lists item by item. A symbol that was there is still there, and
where the input had ended there was nothing to be kept. Sequencing puts one list in the place of
each item: an old item keeps its place and its list is embedded in the new one, and a new item adds
its own list and nothing else (`concatMap?_sublist`). The rows of a repetition are the same thing
again, at every occurrence.
-/

namespace Backtrack

open Store

variable {σ ε : Type} {ρ : Type → Type} {α β : Type}

/-- The parser does not ask for the end of the input, and is put together without walks of the
    caller's own. -/
def Parser.Extensible : {α : Type} → Parser σ ε ρ α → Prop
  | _, .finish _         => False
  | _, .map _ p          => p.Extensible
  | _, .filter _ p       => p.Extensible
  | _, .bind p next      => p.Extensible ∧ ∀ a, (next a).Extensible
  | _, .seq _ p q        => p.Extensible ∧ q.Extensible
  | _, .or p q           => p.Extensible ∧ q.Extensible
  | _, .repetition _ _ p => p.Extensible
  | _, .spanning _ p     => p.Extensible
  | _, .remark _ p       => p.Extensible
  | _, .lookahead p      => p.Extensible
  | _, .custom _         => False
  | _, _                 => True

/-- The same for all rules of a grammar. -/
def Grammar.Extensible (G : Grammar σ ε ρ) : Prop :=
  ∀ (α : Type) (r : ρ α), (G.body r).Extensible

theorem Parser.Extensible.plain {p : Parser σ ε ρ α} (h : p.Extensible) : p.Plain := by
  induction p with
  | unit a => trivial
  | fail => trivial
  | anySymbol f => trivial
  | testSymbol test f => trivial
  | finish a => trivial
  | map f p ih => exact ih h
  | filter test p ih => exact ih h
  | bind p next ihp ihnext => exact ⟨ihp h.1, fun a => ihnext a (h.2 a)⟩
  | seq f p q ihp ihq => exact ⟨ihp h.1, ihq h.2⟩
  | or p q ihp ihq => exact ⟨ihp h.1, ihq h.2⟩
  | repetition least f p ih => exact ih h
  | spanning f p ih => exact ih h
  | rule r => trivial
  | remark notes p ih => exact ih h
  | abort x => trivial
  | lookahead p ih => exact ih h
  | custom start => exact h

/-! ## Lists in the place of items -/

theorem sublist_of_eq_some {o : Option (List α)} {l l' : List α} (h : o = some l)
    (h' : o = some l') : l.Sublist l' := by
  obtain rfl := Option.some.inj (h.symm.trans h')
  exact List.Sublist.refl l

/-- Where the items are a sublist and each list is a sublist, what is put together is one. -/
theorem concatMap?_sublist {f g : α → Option (List β)}
    (h : ∀ x l l', f x = some l → g x = some l' → l.Sublist l') {xs ys : List α}
    (hxs : xs.Sublist ys) : ∀ {l l' : List β}, concatMap? f xs = some l →
      concatMap? g ys = some l' → l.Sublist l' := by
  induction hxs with
  | slnil =>
      intro l l' hl hl'
      exact sublist_of_eq_some hl hl'
  | cons y _ ih =>
      intro l l' hl hl'
      obtain ⟨new, rest', -, hrest', rfl⟩ := concatMap?_cons_eq_some_iff.mp hl'
      exact (ih hl hrest').trans (List.sublist_append_right new rest')
  | cons_cons x _ ih =>
      intro l l' hl hl'
      obtain ⟨old, rest, hold, hrest, rfl⟩ := concatMap?_cons_eq_some_iff.mp hl
      obtain ⟨new, rest', hnew, hrest', rfl⟩ := concatMap?_cons_eq_some_iff.mp hl'
      exact (h x old new hold hnew).append (ih hrest hrest')

/-- The rows of occurrences that go on from a row, where there may be more occurrences. -/
theorem rows?_sublist {occurrences occurrences' : Nat → Option (List (α × Nat))}
    (h : ∀ j l l', occurrences j = some l → occurrences' j = some l' → l.Sublist l')
    (least n : Nat) : ∀ row j rows rows', rows? occurrences least n row j = some rows →
      rows? occurrences' least n row j = some rows' → rows.Sublist rows' := by
  induction n with
  | zero =>
      intro row j rows rows' hrows _
      exact nomatch hrows
  | succ n ih =>
      intro row j rows rows' hrows hrows'
      obtain ⟨here, hhere, hmap⟩ := Option.bind_eq_some_iff.mp hrows
      obtain ⟨longer, hlonger, rfl⟩ := Option.map_eq_some_iff.mp hmap
      obtain ⟨here', hhere', hmap'⟩ := Option.bind_eq_some_iff.mp hrows'
      obtain ⟨longer', hlonger', rfl⟩ := Option.map_eq_some_iff.mp hmap'
      refine List.Sublist.append_right ?_ _
      refine concatMap?_sublist (fun x l l' hl hl' => ?_) (h j here here' hhere hhere') hlonger
        hlonger'
      obtain ⟨a, k⟩ := x
      dsimp only at hl hl'
      by_cases hk : k = j
      · rw [if_pos hk] at hl hl'
        exact sublist_of_eq_some hl hl'
      · rw [if_neg hk] at hl hl'
        exact ih _ _ _ _ hl hl'

/-- A symbol of the input is still there when the input goes on, and behind its end there was
    none. -/
theorem getElem?_append_eq_or (input more : List σ) (j : Nat) :
    input[j]? = none ∨ (input ++ more)[j]? = input[j]? := by
  by_cases hj : j < input.length
  · exact Or.inr (List.getElem?_append_left hj)
  · exact Or.inl (List.getElem?_eq_none (Nat.le_of_not_lt hj))

/-! ## The lists of the parsers -/

namespace Parser

variable {G : Grammar σ ε ρ}

/-- **MORE INPUT** has at least the same successes, in the same order. -/
theorem enumerate_sublist (hG : G.Extensible) (input more : List σ) (n : Nat) :
    ∀ {α : Type} {p : Parser σ ε ρ α}, p.Extensible → ∀ j l l',
      p.enumerate G input n j = some l → p.enumerate G (input ++ more) n j = some l' →
      l.Sublist l' := by
  induction n with
  | zero =>
      intro α p _ j l l' h
      simp [enumerate] at h
  | succ n ih =>
      intro α p hp j l l' h h'
      cases p with
      | unit a => exact sublist_of_eq_some h h'
      | fail => exact sublist_of_eq_some h h'
      | anySymbol f =>
          rw [enumerate] at h h'
          rcases getElem?_append_eq_or input more j with hnone | heq
          · rw [hnone] at h
            obtain rfl := Option.some.inj h
            exact List.nil_sublist l'
          · rw [heq] at h'
            exact sublist_of_eq_some h h'
      | testSymbol test f =>
          rw [enumerate] at h h'
          rcases getElem?_append_eq_or input more j with hnone | heq
          · rw [hnone] at h
            obtain rfl := Option.some.inj h
            exact List.nil_sublist l'
          · rw [heq] at h'
            exact sublist_of_eq_some h h'
      | finish a => exact hp.elim
      | map f p =>
          obtain ⟨found, hfound, hl⟩ := Option.bind_eq_some_iff.mp h
          obtain ⟨found', hfound', hl'⟩ := Option.bind_eq_some_iff.mp h'
          exact concatMap?_sublist (fun _ _ _ => sublist_of_eq_some)
            (ih (p := p) hp j _ _ hfound hfound') hl hl'
      | filter test p =>
          obtain ⟨found, hfound, hl⟩ := Option.bind_eq_some_iff.mp h
          obtain ⟨found', hfound', hl'⟩ := Option.bind_eq_some_iff.mp h'
          exact concatMap?_sublist (fun _ _ _ => sublist_of_eq_some)
            (ih (p := p) hp j _ _ hfound hfound') hl hl'
      | bind p next =>
          obtain ⟨found, hfound, hl⟩ := Option.bind_eq_some_iff.mp h
          obtain ⟨found', hfound', hl'⟩ := Option.bind_eq_some_iff.mp h'
          exact concatMap?_sublist (fun x l l' => ih (hp.2 x.1) x.2 l l')
            (ih hp.1 j _ _ hfound hfound') hl hl'
      | seq f p q =>
          obtain ⟨found, hfound, hl⟩ := Option.bind_eq_some_iff.mp h
          obtain ⟨found', hfound', hl'⟩ := Option.bind_eq_some_iff.mp h'
          refine concatMap?_sublist (fun x k k' hk hk' => ?_) (ih hp.1 j _ _ hfound hfound') hl hl'
          obtain ⟨second, hsecond, rfl⟩ := Option.map_eq_some_iff.mp hk
          obtain ⟨second', hsecond', rfl⟩ := Option.map_eq_some_iff.mp hk'
          exact (ih hp.2 x.2 _ _ hsecond hsecond').map _
      | or p q =>
          obtain ⟨first, hfirst, hmap⟩ := Option.bind_eq_some_iff.mp h
          obtain ⟨second, hsecond, rfl⟩ := Option.map_eq_some_iff.mp hmap
          obtain ⟨first', hfirst', hmap'⟩ := Option.bind_eq_some_iff.mp h'
          obtain ⟨second', hsecond', rfl⟩ := Option.map_eq_some_iff.mp hmap'
          exact (ih hp.1 j _ _ hfirst hfirst').append (ih hp.2 j _ _ hsecond hsecond')
      | repetition least f p =>
          obtain ⟨rows, hrows, rfl⟩ := Option.map_eq_some_iff.mp h
          obtain ⟨rows', hrows', rfl⟩ := Option.map_eq_some_iff.mp h'
          exact (rows?_sublist (ih (p := p) hp) least n [] j _ _ hrows hrows').map _
      | spanning f p =>
          obtain ⟨found, hfound, rfl⟩ := Option.map_eq_some_iff.mp h
          obtain ⟨found', hfound', rfl⟩ := Option.map_eq_some_iff.mp h'
          exact (ih (p := p) hp j _ _ hfound hfound').map _
      | rule r => exact ih (hG _ r) j l l' h h'
      | remark notes p => exact ih (p := p) hp j l l' h h'
      | abort x => simp [enumerate] at h
      | lookahead p =>
          obtain ⟨found, hfound, rfl⟩ := Option.map_eq_some_iff.mp h
          obtain ⟨found', hfound', rfl⟩ := Option.map_eq_some_iff.mp h'
          exact (ih (p := p) hp j _ _ hfound hfound').map _
      | custom start => exact hp.elim

theorem Enumerates.sublist (hG : G.Extensible) {p : Parser σ ε ρ α} (hp : p.Extensible)
    {input more : List σ} {j : Nat} {l l' : List (α × Nat)} (h : p.Enumerates G input j l)
    (h' : p.Enumerates G (input ++ more) j l') : l.Sublist l' := by
  obtain ⟨d, h⟩ := h
  obtain ⟨d', h'⟩ := h'
  exact enumerate_sublist hG input more (max d d') hp j l l'
    (enumerate_mono (Nat.le_max_left d d') h) (enumerate_mono (Nat.le_max_right d d') h')

/-- **MORE INPUT KEEPS THE OUTCOMES.** Two sources deliver an input and the same input with more
    behind it, in whatever worlds, and a parser that does not ask for the end is started at the same
    position of both. If both can be pulled until they answer nothing, then the outcomes on the
    shorter input, values and positions, are found among those on the longer one, in the same
    order. -/
theorem answers_sublist [Carrier σ] {w w' : World σ ε} (hw : w.Reachable) (hw' : w'.Reachable)
    {c c' : Cursor σ} (hc : c ∈ w.cursors) (hc' : c' ∈ w'.cursors) {chain chain' : Chain σ}
    (hchain : w.store.chains[c.source]? = some chain)
    (hchain' : w'.store.chains[c'.source]? = some chain') {input more : List σ}
    (hinput : chain.source.Delivers input) (hinput' : chain'.source.Delivers (input ++ more))
    (hposition : c'.position = c.position) {G : Grammar σ ε ρ} (hG : G.Extensible)
    {p : Parser σ ε ρ α} (hp : p.Extensible) {l l' : List (Outcome σ α)} {st st' : Store σ ε}
    (h : p.answers G c (l.length + 1) w.store = .done (l.map some ++ [none]) st)
    (h' : p.answers G c' (l'.length + 1) w'.store = .done (l'.map some ++ [none]) st') :
    (l.map fun o => (o.value, o.cursor.position)).Sublist
      (l'.map fun o => (o.value, o.cursor.position)) := by
  obtain ⟨hcursor, hfeeds⟩ := hw.sound.feeds hc hchain
  obtain ⟨hcursor', hfeeds'⟩ := hw'.sound.feeds hc' hchain'
  have hplain : G.Plain := fun α r => (hG α r).plain
  rw [hcursor] at h
  rw [hcursor'] at h'
  have hlist := enumerates_of_answers hinput hplain hp.plain hfeeds h
  have hlist' := enumerates_of_answers hinput' hplain hp.plain hfeeds' h'
  rw [hposition] at hlist'
  exact hlist.sublist hG hp hlist'

end Parser

/-- Two alternatives, each with one more row of symbols on the longer input: the new outcomes come
    first and in the middle. -/
theorem Parser.many1_item_answers_sublist :
    let _ : Carrier Nat := .none
    let p : Parser Nat Unit (fun _ => Empty) (List Nat) := .or (.many1 .item) (.many1 .item)
    let l : List (Outcome Nat (List Nat)) := [⟨[7], ⟨0, 1, 1, none⟩⟩, ⟨[7], ⟨0, 1, 1, none⟩⟩]
    let l' : List (Outcome Nat (List Nat)) := [⟨[7, 8], ⟨0, 2, 2, none⟩⟩, ⟨[7], ⟨0, 1, 1, some 8⟩⟩,
      ⟨[7, 8], ⟨0, 2, 2, none⟩⟩, ⟨[7], ⟨0, 1, 1, some 8⟩⟩]
    (∃ st, p.answers .empty ⟨0, 0, 0, some 7⟩ 3 (World.facing [7]).store =
      .done (l.map some ++ [none]) st) ∧
    (∃ st, p.answers .empty ⟨0, 0, 0, some 7⟩ 5 (World.facing [7, 8]).store =
      .done (l'.map some ++ [none]) st) ∧
    (l.map fun o => (o.value, o.cursor.position)).Sublist
      (l'.map fun o => (o.value, o.cursor.position)) := by
  intro _ p l l'
  have hlist : p.Enumerates .empty [7] 0 [([7], 1), ([7], 1)] := ⟨5, by decide⟩
  have hlist' : p.Enumerates .empty [7, 8] 0 [([7, 8], 2), ([7], 1), ([7, 8], 2), ([7], 1)] :=
    ⟨5, by decide⟩
  obtain ⟨st, h⟩ := hlist.answers (Source.delivers_ofList [7]) (World.feeds_facing [7])
  obtain ⟨st', h'⟩ := hlist'.answers (Source.delivers_ofList [7, 8]) (World.feeds_facing [7, 8])
  have hp : p.Extensible := ⟨trivial, trivial⟩
  refine ⟨⟨st, h⟩, ⟨st', h'⟩, ?_⟩
  exact answers_sublist (World.reachable_facing [7]) (World.reachable_facing [7, 8])
    (List.mem_singleton.mpr rfl) (List.mem_singleton.mpr rfl) rfl rfl (Source.delivers_ofList [7])
    (Source.delivers_ofList [7, 8]) rfl (fun _ r => r.elim) hp h h'

end Backtrack

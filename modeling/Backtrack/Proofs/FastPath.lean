import Backtrack.Proofs.MonadLaws
import Mathlib.Data.List.Forall2

/-!
# The fast path — testing before consuming

A parser for one symbol that passes a test makes the test on the symbol at hand, and consumes the
symbol only if it passes. The same can be *spelled out*: any symbol is consumed, and then its value
is tested. The two do their work at different moments, and a symbol that fails the test has been
stepped over in the second spelling only. So the two spellings leave different stores, and what they
start with is not even a sequence of the same kind.

Yet in every grammar, however many tests in it are spelled out and wherever they stand, the answers
are the same pull by pull, and spelling out costs one read at most, in all. For the chain is shared:
the place behind a symbol that failed the test is the place behind a cursor that the fast path has,
too, so it is never further on than one read (`Store.OneAhead`).

The proof is a simulation, once with an allowance that is greater by three for the spelled out side,
which is what the detour takes, and once with equal allowances, where the fast path cannot be the
one that is cut short. Sequences are compared from their first pull on, not from the start, since
only then have both sides made their tests.
-/

namespace Backtrack

open Store

universe u v

variable {σ ε : Type} {ρ : Type → Type} {α β γ : Type}

/-! ## Spelling out -/

/-- The second parser is the first with some of its tests spelled out: where the first tests the
    symbol at hand, the second consumes any symbol and then tests the value. There are no walks of
    the caller's own. -/
inductive Parser.SpelledOut : {α : Type} → Parser σ ε ρ α → Parser σ ε ρ α → Prop where
  /-- A test that is spelled out. -/
  | test {α : Type} {test : σ → Call ε Bool} {test' : α → Call ε Bool} {f : σ → α}
      (h : ∀ x, test' (f x) = test x) :
      SpelledOut (.testSymbol test f) (.filter test' (.anySymbol f))
  | unit {α : Type} (a : α) : SpelledOut (.unit a) (.unit a)
  | fail {α : Type} : SpelledOut (.fail : Parser σ ε ρ α) .fail
  | anySymbol {α : Type} (f : σ → α) : SpelledOut (.anySymbol f) (.anySymbol f)
  /-- A test that is left as it is. -/
  | testSymbol {α : Type} (test : σ → Call ε Bool) (f : σ → α) :
      SpelledOut (.testSymbol test f) (.testSymbol test f)
  | finish {α : Type} (a : α) : SpelledOut (.finish a) (.finish a)
  | map {α β : Type} (f : α → Call ε β) {p p' : Parser σ ε ρ α} (hp : SpelledOut p p') :
      SpelledOut (.map f p) (.map f p')
  | filter {α : Type} (test : α → Call ε Bool) {p p' : Parser σ ε ρ α} (hp : SpelledOut p p') :
      SpelledOut (.filter test p) (.filter test p')
  | bind {α β : Type} {p p' : Parser σ ε ρ α} {next next' : α → Parser σ ε ρ β}
      (hp : SpelledOut p p') (hnext : ∀ a, SpelledOut (next a) (next' a)) :
      SpelledOut (.bind p next) (.bind p' next')
  | seq {α β γ : Type} (f : α → β → γ) {p p' : Parser σ ε ρ α} {q q' : Parser σ ε ρ β}
      (hp : SpelledOut p p') (hq : SpelledOut q q') : SpelledOut (.seq f p q) (.seq f p' q')
  | or {α : Type} {p p' q q' : Parser σ ε ρ α} (hp : SpelledOut p p') (hq : SpelledOut q q') :
      SpelledOut (.or p q) (.or p' q')
  | repetition {α β : Type} (least : Nat) (f : List α → β) {p p' : Parser σ ε ρ α}
      (hp : SpelledOut p p') : SpelledOut (.repetition least f p) (.repetition least f p')
  | spanning {α β : Type} (f : α → Span → β) {p p' : Parser σ ε ρ α} (hp : SpelledOut p p') :
      SpelledOut (.spanning f p) (.spanning f p')
  | rule {α : Type} (r : ρ α) : SpelledOut (.rule r) (.rule r)
  | remark {α : Type} (notes : Cursor σ → List ε) {p p' : Parser σ ε ρ α}
      (hp : SpelledOut p p') : SpelledOut (.remark notes p) (.remark notes p')
  | abort {α : Type} (x : Fault) : SpelledOut (.abort x : Parser σ ε ρ α) (.abort x)
  | lookahead {α : Type} {p p' : Parser σ ε ρ α} (hp : SpelledOut p p') :
      SpelledOut (.lookahead p) (.lookahead p')

/-- The same for all rules of a grammar. -/
def Grammar.SpelledOut (G G' : Grammar σ ε ρ) : Prop :=
  ∀ (α : Type) (r : ρ α), (G.body r).SpelledOut (G'.body r)

namespace Parser

theorem spelledOut_satisfy (test : σ → Bool) :
    (satisfy test : Parser σ ε ρ σ).SpelledOut (item.filter fun x => .pure (test x)) :=
  .test fun _ => rfl

theorem spelledOut_symbol [DecidableEq σ] (x : σ) :
    (symbol x : Parser σ ε ρ σ).SpelledOut (item.filter fun y => .pure (decide (y = x))) :=
  spelledOut_satisfy _

/-- Nothing need be spelled out. -/
theorem Plain.spelledOut {p : Parser σ ε ρ α} (h : p.Plain) : p.SpelledOut p := by
  induction p with
  | unit a => exact .unit a
  | fail => exact .fail
  | anySymbol f => exact .anySymbol f
  | testSymbol test f => exact .testSymbol test f
  | finish a => exact .finish a
  | map f p ih => exact .map f (ih h)
  | filter test p ih => exact .filter test (ih h)
  | bind p next ihp ihnext => exact .bind (ihp h.1) fun a => ihnext a (h.2 a)
  | seq f p q ihp ihq => exact .seq f (ihp h.1) (ihq h.2)
  | or p q ihp ihq => exact .or (ihp h.1) (ihq h.2)
  | repetition least f p ih => exact .repetition least f (ih h)
  | spanning f p ih => exact .spanning f (ih h)
  | rule r => exact .rule r
  | remark notes p ih => exact .remark notes (ih h)
  | abort x => exact .abort x
  | lookahead p ih => exact .lookahead (ih h)
  | custom start => exact nomatch h

end Parser

/-! ## One read ahead -/

namespace Store

/-- The cursors of one source that a store holds. -/
def placesIn (st : Store σ ε) (i : Nat) : Set (Cursor σ) :=
  {c | st.Holds c ∧ c.source = i}

/-- The second store is the first, or is ahead of it by one read of the source. -/
structure OneAhead (i : Nat) (st st' : Store σ ε) : Prop where
  alike  : Alike st st'
  others : ∀ k ≠ i, st'.readsOf k = st.readsOf k
  least  : st.readsOf i ≤ st'.readsOf i
  most   : st'.readsOf i ≤ st.readsOf i + 1

/-- Going on stays in the source. -/
theorem source_of_advance {st st' : Store σ ε} {c d : Cursor σ}
    (h : st.advance c = (some d, st')) : d.source = c.source := by
  rw [advance] at h
  cases hcurrent : c.current with
  | none =>
      rw [hcurrent] at h
      cases h
  | some x =>
      rw [hcurrent] at h
      cases hmemo : st.memo? c with
      | none =>
          rw [hmemo] at h
          cases h
          rfl
      | some e =>
          rw [hmemo] at h
          cases h
          obtain ⟨k, -, hcursor⟩ := Option.bind_eq_some_iff.mp hmemo
          obtain ⟨chain, -, hnode⟩ := Option.bind_eq_some_iff.mp hcursor
          obtain ⟨node, -, rfl⟩ := Option.map_eq_some_iff.mp hnode
          rfl

variable {i : Nat} {st st' st₁ st₁' : Store σ ε} {c : Cursor σ} {demand : Nat → Nat}
  {notes notes' : List ε}

theorem Later.placesIn_subset (h : st.Later st₁) (hst : st.Intact) :
    st.placesIn i ⊆ st₁.placesIn i :=
  fun _ hc => ⟨h.grows.holds hst h.intact hc.1, hc.2⟩

namespace OneAhead

theorem refl (h : st.Intact) : OneAhead i st st :=
  ⟨⟨h, h, fun _ => rfl⟩, fun _ _ => rfl, Nat.le_refl _, Nat.le_succ _⟩

/-- What the first store holds, the second one holds as well. -/
theorem shared (h : OneAhead i st st') (hc : c ∈ st.placesIn i) : c ∈ shared st st' := by
  obtain ⟨source, hsource, hnode, hcursor⟩ := h.alike.left.holds_iff.mp hc.1
  refine ⟨hc.1, h.alike.right.holds_iff.mpr ⟨source, ?_, ?_, hcursor⟩⟩
  · rw [← h.alike.sources, hsource]
  · rw [hc.2] at hnode ⊢
    exact Nat.lt_of_lt_of_le hnode h.least

/-- Both sides ask for the same reads. -/
theorem spends (h : OneAhead i st st') (left : st.Spends demand notes st₁)
    (right : st'.Spends demand notes' st₁') : OneAhead i st₁ st₁' where
  alike := h.alike.spends left right
  others k hk := by rw [left.reads, right.reads, h.others k hk]
  least := by
    have hleast := h.least
    rw [left.reads, right.reads]
    omega
  most := by
    have hmost := h.most
    rw [left.reads, right.reads]
    omega

theorem remark (h : OneAhead i st st') (notes notes' : List ε) :
    OneAhead i (st.remark notes) (st'.remark notes') :=
  h.spends (h.alike.left.spends_remark notes) (h.alike.right.spends_remark notes')

/-- Both sides go on from a place. -/
theorem advance (h : OneAhead i st st') (hc : c ∈ st.placesIn i) :
    ∃ found st₁ st₁', st.advance c = (found, st₁) ∧ st'.advance c = (found, st₁') ∧
      st.Later st₁ ∧ OneAhead i st₁ st₁' ∧ ∀ d ∈ found, d ∈ st₁.placesIn i := by
  obtain ⟨found, demand, st₁, st₁', hleft, hright, left, right, hfound⟩ :=
    h.alike.advance (h.shared hc)
  refine ⟨found, st₁, st₁', hleft, hright, ⟨left.intact, left.grows⟩, h.spends left right, ?_⟩
  rintro d rfl
  exact ⟨(hfound d rfl).1, (source_of_advance hleft).trans hc.2⟩

/-- The second side alone goes on from a place, but no further than one read ahead. -/
theorem advance_right (h : OneAhead i st st') (hc : c ∈ st.placesIn i) :
    OneAhead i st (st'.advance c).2 := by
  obtain ⟨source, hsource, hnode, hcursor⟩ := h.alike.right.holds_iff.mp (h.shared hc).2
  obtain ⟨_, _, hnode₁, _⟩ := h.alike.left.holds_iff.mp hc.1
  have hspends := (h.alike.right.advance_spec hsource hnode).2
  rw [← hcursor, hc.2] at hspends
  rw [hc.2] at hnode₁
  have hleast := h.least
  have hmost := h.most
  refine ⟨h.alike.spends (.refl h.alike.left) hspends, fun k hk => ?_, ?_, ?_⟩
  · rw [hspends.reads, Source.demand, if_neg (hk ·.1), h.others k hk]
    exact Nat.max_eq_left (Nat.zero_le _)
  · rw [hspends.reads]
    omega
  · rw [hspends.reads, Source.demand]
    split
    · omega
    · omega

end OneAhead

end Store

/-! ## Sequences -/

mutual

/-- The two sequences are built alike, with places from `K` and with parsers some of whose tests are
    spelled out in the second. -/
inductive Outcomes.SpelledOut (K : Set (Cursor σ)) :
    {α : Type} → Outcomes σ ε ρ α → Outcomes σ ε ρ α → Prop where
  | ready {α : Type} {os : List (Outcome σ α)} (hos : ∀ o ∈ os, o.cursor ∈ K) :
      Outcomes.SpelledOut K (.ready os) (.ready os)
  | consuming {α : Type} (f : σ → α) {c : Cursor σ} (hc : c ∈ K) :
      Outcomes.SpelledOut K (.consuming f c) (.consuming f c)
  /-- The symbol of a test has been dealt with. -/
  | spent {α : Type} (test : Outcome σ α → Call ε Bool) :
      Outcomes.SpelledOut K .empty (.filtered test .empty)
  | mapped {α β : Type} {f : Outcome σ α → Call ε (Outcome σ β)} {s s' : Outcomes σ ε ρ α}
      (hf : ∀ o o', (f o).result = .ok o' → o'.cursor = o.cursor ∨ o'.cursor ∈ K)
      (hs : Outcomes.SpelledOut K s s') : Outcomes.SpelledOut K (.mapped f s) (.mapped f s')
  | filtered {α : Type} (test : Outcome σ α → Call ε Bool) {s s' : Outcomes σ ε ρ α}
      (hs : Outcomes.SpelledOut K s s') :
      Outcomes.SpelledOut K (.filtered test s) (.filtered test s')
  | chained {α : Type} {s s' : Outcomes σ ε ρ α}
      {waiting waiting' : List (Parser σ ε ρ α × Cursor σ)} (hs : Outcomes.SpelledOut K s s')
      (hwaiting : List.Forall₂ (fun w w' => w.1.SpelledOut w'.1 ∧ w.2 = w'.2 ∧ w.2 ∈ K)
        waiting waiting') :
      Outcomes.SpelledOut K (.chained s waiting) (.chained s' waiting')
  | bound {α β : Type} {next next' : α → Parser σ ε ρ β} {outer outer' : Outcomes σ ε ρ α}
      {inner inner' : Outcomes σ ε ρ β} (hnext : ∀ a, (next a).SpelledOut (next' a))
      (houter : Outcomes.SpelledOut K outer outer') (hinner : Outcomes.SpelledOut K inner inner') :
      Outcomes.SpelledOut K (.bound next outer inner) (.bound next' outer' inner')
  | paired {α β γ : Type} (f : α → β → γ) {q q' : Parser σ ε ρ β} {outer outer' : Outcomes σ ε ρ α}
      (held : Option α) {inner inner' : Outcomes σ ε ρ β} (hq : q.SpelledOut q')
      (houter : Outcomes.SpelledOut K outer outer') (hinner : Outcomes.SpelledOut K inner inner') :
      Outcomes.SpelledOut K (.paired f q outer held inner) (.paired f q' outer' held inner')
  | repeating {α β : Type} (least : Nat) (f : List α → β) {p p' : Parser σ ε ρ α}
      {root : Option (Cursor σ)} {frames frames' : Frames σ ε ρ α} (hp : p.SpelledOut p')
      (hroot : ∀ c ∈ root, c ∈ K) (hframes : Frames.SpelledOut K frames frames') :
      Outcomes.SpelledOut K (.repeating least f p root frames) (.repeating least f p' root frames')

/-- The same for rows of occurrences. -/
inductive Frames.SpelledOut (K : Set (Cursor σ)) :
    {α : Type} → Frames σ ε ρ α → Frames σ ε ρ α → Prop where
  | bottom {α : Type} : Frames.SpelledOut K (.bottom : Frames σ ε ρ α) .bottom
  | push {α : Type} {s s' : Outcomes σ ε ρ α} {c : Cursor σ} (value : Option α)
      {below below' : Frames σ ε ρ α} (hs : Outcomes.SpelledOut K s s') (hc : c ∈ K)
      (hbelow : Frames.SpelledOut K below below') :
      Frames.SpelledOut K (.push s c value below) (.push s' c value below')

end

/-- The two pulls have the same answer, and their rests are built alike. -/
inductive Pull.SpelledOut (K : Set (Cursor σ)) : Pull σ ε ρ α → Pull σ ε ρ α → Prop where
  | none {s s' : Outcomes σ ε ρ α} (hs : s.SpelledOut K s') :
      Pull.SpelledOut K ⟨none, s⟩ ⟨none, s'⟩
  | some {o : Outcome σ α} {s s' : Outcomes σ ε ρ α} (ho : o.cursor ∈ K)
      (hs : s.SpelledOut K s') : Pull.SpelledOut K ⟨some o, s⟩ ⟨some o, s'⟩

section

variable {K K' : Set (Cursor σ)}

mutual

theorem Outcomes.SpelledOut.mono (hK : K ⊆ K') : {α : Type} → {s s' : Outcomes σ ε ρ α} →
    s.SpelledOut K s' → s.SpelledOut K' s'
  | _, _, _, .ready hos                 => .ready fun o ho => hK (hos o ho)
  | _, _, _, .consuming f hc            => .consuming f (hK hc)
  | _, _, _, .spent test                => .spent test
  | _, _, _, .mapped hf hs              =>
      .mapped (fun o o' ho => (hf o o' ho).imp_right fun hc => hK hc) (hs.mono hK)
  | _, _, _, .filtered test hs          => .filtered test (hs.mono hK)
  | _, _, _, .chained hs hwaiting       =>
      .chained (hs.mono hK) (hwaiting.imp fun _ _ h => ⟨h.1, h.2.1, hK h.2.2⟩)
  | _, _, _, .bound hnext houter hinner => .bound hnext (houter.mono hK) (hinner.mono hK)
  | _, _, _, .paired f held hq houter hinner =>
      .paired f held hq (houter.mono hK) (hinner.mono hK)
  | _, _, _, .repeating least f hp hroot hframes =>
      .repeating least f hp (fun c hc => hK (hroot c hc)) (hframes.mono hK)

theorem Frames.SpelledOut.mono (hK : K ⊆ K') : {α : Type} → {frames frames' : Frames σ ε ρ α} →
    frames.SpelledOut K frames' → frames.SpelledOut K' frames'
  | _, _, _, .bottom                  => .bottom
  | _, _, _, .push value hs hc hbelow => .push value (hs.mono hK) (hK hc) (hbelow.mono hK)

end

theorem Outcomes.spelledOut_empty : (empty : Outcomes σ ε ρ α).SpelledOut K empty :=
  .ready (List.forall_mem_nil _)

theorem Outcomes.spelledOut_deferred {p p' : Parser σ ε ρ α} (hp : p.SpelledOut p')
    {c : Cursor σ} (hc : c ∈ K) : (deferred p c).SpelledOut K (deferred p' c) :=
  .chained spelledOut_empty (.cons ⟨hp, rfl, hc⟩ .nil)

/-- The values along the rows are the same. -/
theorem Frames.SpelledOut.values_eq {frames frames' : Frames σ ε ρ α} :
    frames.SpelledOut K frames' → ∀ tail, frames'.values tail = frames.values tail
  | .bottom,                   _    => rfl
  | .push none _ _ hbelow,     tail => hbelow.values_eq tail
  | .push (some a) _ _ hbelow, tail => hbelow.values_eq (a :: tail)

end

/-! ## Runs side by side -/

/-- The two runs end in the same way, with results that are related or with the same fault, and the
    second leaves the store that the first leaves or is one read ahead of it. Under `cut` the first
    may have been cut short, and under `cut'` the second. -/
inductive Run.Nears (cut cut' : Prop) (i : Nat) {δ : Type u}
    (post : Set (Cursor σ) → δ → δ → Prop) (st : Store σ ε) : Run σ ε δ → Run σ ε δ → Prop where
  | done {b b' : δ} {st₁ st₁' : Store σ ε} (later : st.Later st₁) (near : OneAhead i st₁ st₁')
      (hpost : post (st₁.placesIn i) b b') : Nears cut cut' i post st (.done b st₁) (.done b' st₁')
  | fault (x : Fault) {st₁ st₁' : Store σ ε} (near : OneAhead i st₁ st₁') :
      Nears cut cut' i post st (.fault x st₁) (.fault x st₁')
  | unfinished : Nears cut cut' i post st .unfinished .unfinished
  | cut (h : cut) (r : Run σ ε δ) : Nears cut cut' i post st .unfinished r
  | cut' (h : cut') (r : Run σ ε δ) : Nears cut cut' i post st r .unfinished

namespace Run.Nears

variable {cut cut' : Prop} {i : Nat} {δ : Type u} {η : Type v}
  {post : Set (Cursor σ) → δ → δ → Prop} {post' : Set (Cursor σ) → η → η → Prop}
  {st st' : Store σ ε}

/-- A result without any action. -/
theorem pure (hst : OneAhead i st st') {b b' : δ} (h : post (st.placesIn i) b b') :
    Nears cut cut' i post st (.done b st) (.done b' st') :=
  .done (.refl hst.alike.left) hst h

/-- What went before both runs counts as part of them. -/
theorem after {st₁ : Store σ ε} {r r' : Run σ ε δ} (later : st.Later st₁)
    (h : Nears cut cut' i post st₁ r r') : Nears cut cut' i post st r r' := by
  cases h with
  | done later' near hpost => exact .done (later.trans later') near hpost
  | fault x near => exact .fault x near
  | unfinished => exact .unfinished
  | cut h => exact .cut h _
  | cut' h => exact .cut' h _

/-- One action after another. -/
theorem bind {r r' : Run σ ε δ} {k k' : δ → Store σ ε → Run σ ε η}
    (h : Nears cut cut' i post st r r')
    (hk : ∀ b b' st₁ st₁', st.Later st₁ → OneAhead i st₁ st₁' → post (st₁.placesIn i) b b' →
      Nears cut cut' i post' st₁ (k b st₁) (k' b' st₁')) :
    Nears cut cut' i post' st (r.bind k) (r'.bind k') := by
  cases h with
  | done later near hpost => exact .after later (hk _ _ _ _ later near hpost)
  | fault x near => exact .fault x near
  | unfinished => exact .unfinished
  | cut h => exact .cut h _
  | cut' h => exact .cut' h _

/-- If neither side need be cut short when the other has enough, then neither is in the limit. -/
theorem limit {r r' : Nat → Run σ ε δ} (h : Rising r) (h' : Rising r') {a a' b b' : Prop}
    {slack : Nat} (ha' : ¬ a') (hslack : ∀ n, Nears a a' i post st (r n) (r' (n + slack)))
    (hb : ¬ b) (hsame : ∀ n, Nears b b' i post st (r n) (r' n)) :
    Nears cut cut' i post st (Run.limit r) (Run.limit r') := by
  by_cases hend : ∀ n, r n = .unfinished
  · have hend' : ∀ n, r' n = .unfinished := by
      intro n
      have hn := hsame n
      rw [hend] at hn
      generalize r' n = x at hn
      cases hn with
      | unfinished => rfl
      | cut h => exact absurd h hb
      | cut' => rfl
    rw [funext hend, funext hend', limit_const]
    exact .unfinished
  · -- an allowance that is enough for the first is, with the slack, enough for the second
    obtain ⟨n, hn⟩ := Classical.not_forall.mp hend
    have hrun := hslack n
    rw [(h.limit_eq_iff hn).mpr ⟨n, rfl⟩]
    have hwithin := h'.within_limit (n + slack)
    generalize r n = x at hn hrun
    generalize r' (n + slack) = x' at hrun hwithin
    cases hrun with
    | done later near hpost =>
        rw [hwithin.eq_of_finished nofun]
        exact .done later near hpost
    | fault x near =>
        rw [hwithin.eq_of_finished nofun]
        exact .fault x near
    | unfinished => exact absurd rfl hn
    | cut => exact absurd rfl hn
    | cut' h => exact absurd h ha'

end Run.Nears

/-- A call of one of the caller's functions. -/
theorem Call.run_nears {cut cut' : Prop} {i : Nat} {st st' : Store σ ε} (hst : OneAhead i st st')
    (call : Call ε β) :
    Run.Nears cut cut' i (fun _ b b' => b = b' ∧ call.result = .ok b) st (call.run st)
      (call.run st') := by
  have hnear := hst.remark call.notes call.notes
  have hlater := Later.remark hst.alike.left call.notes
  rw [Call.run, Call.run]
  cases hresult : call.result with
  | ok b => exact .done hlater hnear ⟨rfl, rfl⟩
  | error x => exact .fault x hnear

/-! ## One pull -/

/-- Two pulls of sequences that are built alike, where the second has an allowance that is greater
    by `d`, or the same. -/
abbrev Pull.Near (d i : Nat) (st : Store σ ε) (r r' : Run σ ε (Pull σ ε ρ α)) : Prop :=
  Run.Nears (0 < d) (d = 0) i Pull.SpelledOut st r r'

theorem Pull.near_cut {d i : Nat} {st : Store σ ε} {r r' : Run σ ε (Pull σ ε ρ α)}
    (hr : r = .unfinished) (hr' : d = 0 → r' = .unfinished) : Pull.Near d i st r r' := by
  rw [hr]
  rcases Nat.eq_zero_or_pos d with hd | hd
  · rw [hr' hd]
    exact .unfinished
  · exact .cut hd r'

theorem Store.exists_advance (st : Store σ ε) {c : Cursor σ} {x : σ} (h : c.current = some x) :
    ∃ e st₁, st.advance c = (some e, st₁) := by
  rw [advance, h]
  cases st.memo? c with
  | none => exact ⟨_, _, rfl⟩
  | some e => exact ⟨e, st, rfl⟩

section

variable {G G' : Grammar σ ε ρ} {d i : Nat} {st st' : Store σ ε} {c : Cursor σ}

/-- The first answer when the symbol is tested and then consumed. -/
def Parser.testedFirst (test : σ → Call ε Bool) (f : σ → α) (c : Cursor σ) (st : Store σ ε) :
    Run σ ε (Pull σ ε ρ α) :=
  match c.current with
  | none   => .done ⟨none, .empty⟩ st
  | some x => ((test x).run st).bind fun ok st =>
      if ok then
        let (found, st) := st.advance c
        .done ⟨found.map fun rest => ⟨f x, rest⟩, .empty⟩ st
      else .done ⟨none, .empty⟩ st

/-- The first answer when the symbol is consumed and then tested. -/
def Parser.testedLast (test : σ → Call ε Bool) (test' : α → Call ε Bool) (f : σ → α)
    (c : Cursor σ) (st : Store σ ε) : Run σ ε (Pull σ ε ρ α) :=
  let rest := .filtered (fun o => test' o.value) .empty
  match c.current with
  | none   => .done ⟨none, rest⟩ st
  | some x =>
      let (found, st) := st.advance c
      ((test x).run st).bind fun ok st =>
        .done ⟨if ok then found.map fun e => ⟨f x, e⟩ else none, rest⟩ st

variable {test : σ → Call ε Bool} {test' : α → Call ε Bool} {f : σ → α}

theorem Parser.first_testSymbol (n m : Nat) : (((testSymbol test f).start G (n + 1) c st).bind
    fun s st => s.pull G (m + 1) st) = testedFirst test f c st := by
  rw [start, testedFirst]
  cases hcurrent : c.current with
  | none => rfl
  | some x =>
      dsimp only
      rw [Run.bind_assoc]
      refine Run.bind_congr fun ok st _ => ?_
      cases ok with
      | true =>
          rw [if_pos rfl, if_pos rfl, Run.done_bind, Outcomes.pull, hcurrent]
      | false => rfl

variable (G c st) in
theorem Parser.first_spelling (h : ∀ x, test' (f x) = test x) (n m : Nat) :
    ((((anySymbol f).filter test').start G (n + 2) c st).bind fun s st => s.pull G (m + 3) st) =
      testedLast test test' f c st := by
  rw [start, start, Run.done_bind, Run.done_bind, Outcomes.pull, Outcomes.pull, testedLast]
  cases hcurrent : c.current with
  | none => rfl
  | some x =>
      obtain ⟨e, st₁, he⟩ := st.exists_advance hcurrent
      simp only [he, Option.map_some, Run.done_bind, h]
      refine Run.bind_congr fun ok st _ => ?_
      cases ok <;> rfl

variable (ρ d test test' f) in
/-- A test before and after the symbol is consumed. If it fails, the second side alone has gone on
    to the next place. -/
theorem Parser.tested_near (hst : OneAhead i st st') (hc : c ∈ st.placesIn i) :
    Pull.Near d i st (testedFirst test f c st : Run σ ε (Pull σ ε ρ α))
      (testedLast test test' f c st') := by
  rw [testedFirst, testedLast]
  cases hcurrent : c.current with
  | none => exact .pure hst (.none (.spent _))
  | some x =>
      have hlater := Later.remark hst.alike.left (test x).notes
      have hahead := (hst.advance_right hc).remark (test x).notes (test x).notes
      obtain ⟨found, st₁, st₁', hleft, hright, later, near, hfound⟩ :=
        (hst.remark (test x).notes []).advance (hlater.placesIn_subset hst.alike.left hc)
      obtain ⟨e, _, he⟩ := (st.remark (test x).notes).exists_advance hcurrent
      obtain rfl : found = some e := by rw [hleft] at he; exact congrArg Prod.fst he
      have hright : st'.advance c = (some e, st₁') := hright
      rw [hright] at hahead
      simp only [hright, Call.run]
      cases (test x).result with
      | error y => exact .fault y hahead
      | ok passed =>
          cases passed with
          | false => exact .done hlater hahead (.none (.spent _))
          | true =>
              simp only [Run.done_bind, if_pos, hleft]
              exact .done (hlater.trans later) (near.remark [] (test x).notes)
                (.some (hfound e rfl) (.spent _))

variable (G c st) in
/-- Greater allowances take a parser at least as far, from its start to the first answer. -/
theorem Parser.first_within (p : Parser σ ε ρ α) {n n' m m' : Nat} (hn : n ≤ n') (hm : m ≤ m') :
    ((p.start G n c st).bind fun s st => s.pull G m st).Within
      ((p.start G n' c st).bind fun s st => s.pull G m' st) :=
  ((p.start_tends G c st).rising.within_of_le hn).bind fun s st =>
    (s.pull_tends G st).rising.within_of_le hm

/-- A test and its spelling, from the start to the first answer. A fault of the test is met when the
    first is started and when the second is pulled, so the allowance for the pull must not be the
    smaller one by much. -/
theorem Parser.test_near (hd : d = 0 ∨ 3 ≤ d) (h : ∀ x, test' (f x) = test x)
    (hst : OneAhead i st st') (hc : c ∈ st.placesIn i) {n m : Nat} (hnm : n ≤ m + 1) :
    Pull.Near d i st (((testSymbol test f).start G n c st).bind fun s st => s.pull G m st)
      ((((anySymbol f).filter test').start G' (n + d) c st').bind
        fun s st => s.pull G' (m + d) st) := by
  have hnear := tested_near ρ d test test' f hst hc
  rcases hd with rfl | hd
  · match n, m, hnm with
    | 0, _, _ => exact .unfinished
    | 1, 0, _ => exact .cut' rfl _
    | n + 2, 0, hnm => exact absurd hnm (by omega)
    | n + 1, m + 1, _ =>
        have hwithin := ((anySymbol f).filter test').first_within G' st' c
          (show n + 1 ≤ n + 2 by omega) (show m + 1 ≤ m + 3 by omega)
        rw [first_spelling G' st' c h] at hwithin
        rw [first_testSymbol, Nat.add_zero, Nat.add_zero]
        rcases hwithin with hcut | hend
        · rw [hcut]
          exact .cut' rfl _
        · rw [hend]
          exact hnear
  · obtain ⟨e, rfl⟩ := Nat.exists_eq_add_of_le' hd
    have hright := first_spelling G' st' c h (n + e + 1) (m + e)
    have hwithin := (testSymbol test f : Parser σ ε ρ α).first_within G st c (Nat.le_succ n)
      (Nat.le_succ m)
    rw [first_testSymbol] at hwithin
    refine Eq.substr hright ?_
    rcases hwithin with hcut | hend
    · rw [hcut]
      exact .cut (Nat.succ_pos _) _
    · rw [hend]
      exact hnear

end

/-! ### What is done with an answer

Each kind of sequence pulls one that it is made of, and goes on with the answer under the same
allowance.
-/

namespace Outcomes

section

variable (G : Grammar σ ε ρ) (n : Nat)

/-- The outcome is changed. -/
def afterMapped (f : Outcome σ α → Call ε (Outcome σ β)) (x : Pull σ ε ρ α) (st : Store σ ε) :
    Run σ ε (Pull σ ε ρ β) :=
  match x with
  | ⟨none, s⟩   => .done ⟨none, .mapped f s⟩ st
  | ⟨some o, s⟩ => ((f o).run st).bind fun o st => .done ⟨some o, .mapped f s⟩ st

/-- The outcome is tested. -/
def afterFiltered (test : Outcome σ α → Call ε Bool) (x : Pull σ ε ρ α) (st : Store σ ε) :
    Run σ ε (Pull σ ε ρ α) :=
  match x with
  | ⟨none, s⟩   => .done ⟨none, .filtered test s⟩ st
  | ⟨some o, s⟩ => ((test o).run st).bind fun ok st =>
      if ok then .done ⟨some o, .filtered test s⟩ st else (filtered test s).pull G n st

/-- At the end of the sequence in front, the first of the parsers that wait is started. -/
def afterFront (waiting : List (Parser σ ε ρ α × Cursor σ)) (x : Pull σ ε ρ α) (st : Store σ ε) :
    Run σ ε (Pull σ ε ρ α) :=
  match x, waiting with
  | ⟨some o, s⟩, _                 => .done ⟨some o, .chained s waiting⟩ st
  | ⟨none, _⟩,   []                => .done ⟨none, .empty⟩ st
  | ⟨none, _⟩,   (p, c) :: waiting =>
      (p.start G n c st).bind fun s st => (chained s waiting).pull G n st

/-- At the end of a continuation, the one behind the next outcome is started. -/
def afterInner (next : α → Parser σ ε ρ β) (outer : Outcomes σ ε ρ α) (x : Pull σ ε ρ β)
    (st : Store σ ε) : Run σ ε (Pull σ ε ρ β) :=
  match x with
  | ⟨some o, inner⟩ => .done ⟨some o, .bound next outer inner⟩ st
  | ⟨none, _⟩       =>
      (outer.pull G n st).bind fun pulled st =>
        match pulled with
        | ⟨none, _⟩       => .done ⟨none, .empty⟩ st
        | ⟨some o, outer⟩ =>
            ((next o.value).start G n o.cursor st).bind fun inner st =>
              (bound next outer inner).pull G n st

/-- At the end of the second parser, the first one is asked again. -/
def afterSecond (f : α → β → γ) (q : Parser σ ε ρ β) (outer : Outcomes σ ε ρ α) (a : α)
    (x : Pull σ ε ρ β) (st : Store σ ε) : Run σ ε (Pull σ ε ρ γ) :=
  match x with
  | ⟨some o, inner⟩ =>
      .done ⟨some (o.withValue (f a o.value)), .paired f q outer (some a) inner⟩ st
  | ⟨none, _⟩       => (paired f q outer none .empty).pull G n st

/-- The row is made longer by the occurrence, or ends with it; and if there was none, the row
    without it is an outcome. -/
def afterTop (least : Nat) (f : List α → β) (p : Parser σ ε ρ α) (c : Cursor σ) (value : Option α)
    (below : Frames σ ε ρ α) (x : Pull σ ε ρ α) (st : Store σ ε) : Run σ ε (Pull σ ε ρ β) :=
  match x with
  | ⟨some o, s⟩ =>
      let frames := .push s c value below
      if o.cursor.position = c.position then
        .done ⟨some ⟨f (frames.values [o.value]), o.cursor⟩, .repeating least f p none frames⟩ st
      else
        (p.start G n o.cursor st).bind fun t st =>
          (repeating least f p none (.push t o.cursor (some o.value) frames)).pull G n st
  | ⟨none, s⟩   =>
      let row := (Frames.push s c value below).values []
      if least ≤ row.length then
        .done ⟨some ⟨f row, c⟩, .repeating least f p none below⟩ st
      else
        (repeating least f p none below).pull G n st

end

end Outcomes

/-! ## Every pull -/

section

variable (G G' : Grammar σ ε ρ) (d i : Nat)

/-- Under the allowance `n`, and `n + d` on the second side, pulls stay near each other. -/
def Outcomes.PullsNear (n : Nat) : Prop :=
  ∀ {α : Type} {s s' : Outcomes σ ε ρ α} {st st' : Store σ ε}, OneAhead i st st' →
    s.SpelledOut (st.placesIn i) s' → Pull.Near d i st (s.pull G n st) (s'.pull G' (n + d) st')

/-- Under the allowances `n` for the start and `m` for the pull, parsers and their first pulls stay
    near each other. -/
def Parser.FirstsNear (n m : Nat) : Prop :=
  ∀ {α : Type} {p p' : Parser σ ε ρ α} {c : Cursor σ} {st st' : Store σ ε}, p.SpelledOut p' →
    OneAhead i st st' → c ∈ st.placesIn i →
    Pull.Near d i st ((p.start G n c st).bind fun s st => s.pull G m st)
      ((p'.start G' (n + d) c st').bind fun s st => s.pull G' (m + d) st)

end

section

variable {G G' : Grammar σ ε ρ} {d i n m : Nat} {st st' : Store σ ε}

open Outcomes

/-- A parser is started, and its sequence is pulled through a layer that asks it first. -/
theorem Parser.layer_near (hnm : m = 0 → n = 0) (hfirst : ∀ j, m = j + 1 → FirstsNear G G' d i n j)
    {p p' : Parser σ ε ρ α} {c : Cursor σ} (hp : p.SpelledOut p') (hst : OneAhead i st st')
    (hc : c ∈ st.placesIn i) {layer layer' : Outcomes σ ε ρ α → Outcomes σ ε ρ β}
    {k k' : Nat → Pull σ ε ρ α → Store σ ε → Run σ ε (Pull σ ε ρ β)}
    (hlayer : ∀ j s st, (layer s).pull G (j + 1) st = (s.pull G j st).bind (k j))
    (hlayer' : ∀ j s st, (layer' s).pull G' (j + 1) st = (s.pull G' j st).bind (k' j))
    (hk : ∀ j, m = j + 1 → ∀ x x' st₁ st₁', st.Later st₁ → OneAhead i st₁ st₁' →
      x.SpelledOut (st₁.placesIn i) x' → Pull.Near d i st₁ (k j x st₁) (k' (j + d) x' st₁')) :
    Pull.Near d i st ((p.start G n c st).bind fun s st => (layer s).pull G m st)
      ((p'.start G' (n + d) c st').bind fun s st => (layer' s).pull G' (m + d) st) := by
  cases m with
  | zero =>
      obtain rfl := hnm rfl
      refine Pull.near_cut rfl ?_
      rintro rfl
      rfl
  | succ j =>
      simp only [Nat.add_right_comm j 1 d, hlayer, hlayer']
      rw [← Run.bind_assoc, ← Run.bind_assoc]
      exact (hfirst j rfl hp hst hc).bind (hk j rfl)

theorem Outcomes.afterMapped_near {f : Outcome σ α → Call ε (Outcome σ β)} (hst : OneAhead i st st')
    (hf : ∀ o o', (f o).result = .ok o' → o'.cursor = o.cursor ∨ o'.cursor ∈ st.placesIn i)
    {x x' : Pull σ ε ρ α} (hx : x.SpelledOut (st.placesIn i) x') :
    Pull.Near d i st (afterMapped f x st) (afterMapped f x' st') := by
  cases hx with
  | none hs => exact .pure hst (.none (.mapped hf hs))
  | @some o s s' ho hs =>
      refine (Call.run_nears hst (f o)).bind fun o' _ st₁ st₁' hlater hst₁ hcall => ?_
      obtain ⟨rfl, hresult⟩ := hcall
      have hK := hlater.placesIn_subset (i := i) hst.alike.left
      refine .pure hst₁ (.some ?_ (.mapped (fun a b hb => (hf a b hb).imp_right fun h => hK h)
        (hs.mono hK)))
      rcases hf o o' hresult with heq | hmem
      · rw [heq]
        exact hK ho
      · exact hK hmem

theorem Outcomes.afterFiltered_near (hpull : PullsNear G G' d i n)
    {test : Outcome σ α → Call ε Bool} (hst : OneAhead i st st') {x x' : Pull σ ε ρ α}
    (hx : x.SpelledOut (st.placesIn i) x') :
    Pull.Near d i st (afterFiltered G n test x st) (afterFiltered G' (n + d) test x' st') := by
  cases hx with
  | none hs => exact .pure hst (.none (.filtered test hs))
  | @some o s s' ho hs =>
      refine (Call.run_nears hst (test o)).bind fun ok _ st₁ st₁' hlater hst₁ hcall => ?_
      obtain ⟨rfl, -⟩ := hcall
      have hK := hlater.placesIn_subset (i := i) hst.alike.left
      cases ok with
      | true => exact .pure hst₁ (.some (hK ho) (.filtered test (hs.mono hK)))
      | false => exact hpull hst₁ (.filtered test (hs.mono hK))

/-- Starting a parser and pulling its sequence for the first time. -/
theorem Parser.firsts_near (hd : d = 0 ∨ 3 ≤ d) (hG : G.SpelledOut G') (n : Nat) :
    ∀ m, (∀ k ≤ m, PullsNear G G' d i k) → n ≤ m + 1 → FirstsNear G G' d i n m := by
  induction n with
  | zero =>
      intro m _ _ α p p' c st st' _ _ _
      refine Pull.near_cut rfl ?_
      rintro rfl
      rfl
  | succ n ih =>
      intro m hpulls hnm α p p' c st st' hp hst hc
      have lazily {s s' : Outcomes σ ε ρ α} (hs : s.SpelledOut (st.placesIn i) s') :
          Pull.Near d i st (s.pull G m st) (s'.pull G' (m + d) st') :=
        hpulls m (Nat.le_refl m) hst hs
      have hfirst (k : Nat) (hk : m = k + 1) : FirstsNear G G' d i n k :=
        ih k (fun j hj => hpulls j (by omega)) (by omega)
      have eagerly {γ : Type} {p p' : Parser σ ε ρ γ} (hp : p.SpelledOut p')
          {f : Outcome σ γ → Call ε (Outcome σ α)}
          (hf : ∀ o o', (f o).result = .ok o' → o'.cursor = o.cursor ∨ o'.cursor = c) :
          Pull.Near d i st
            (((p.start G n c st).bind fun s st => .done (Outcomes.mapped f s) st).bind
              fun (s : Outcomes σ ε ρ α) st => s.pull G m st)
            (((p'.start G' (n + d) c st').bind fun s st => .done (Outcomes.mapped f s) st).bind
              fun (s : Outcomes σ ε ρ α) st => s.pull G' (m + d) st) := by
        rw [Run.bind_assoc, Run.bind_assoc]
        refine layer_near (by omega) hfirst hp hst hc (fun _ _ _ => rfl) (fun _ _ _ => rfl)
          fun k _ x x' st₁ st₁' hlater hst₁ hx => ?_
        refine afterMapped_near hst₁ (fun o o' ho => (hf o o' ho).imp_right ?_) hx
        rintro rfl
        exact hlater.placesIn_subset hst.alike.left hc
      cases hp with
      | test h => exact test_near hd h hst hc hnm
      | unit a =>
          rw [Nat.add_right_comm]
          refine lazily (.ready fun o ho => ?_)
          obtain rfl := List.mem_singleton.mp ho
          exact hc
      | fail =>
          rw [Nat.add_right_comm]
          exact lazily spelledOut_empty
      | anySymbol f =>
          rw [Nat.add_right_comm]
          exact lazily (.consuming f hc)
      | testSymbol test f =>
          rw [Nat.add_right_comm, start, start]
          cases c.current with
          | none => exact lazily spelledOut_empty
          | some x =>
              dsimp only
              rw [Run.bind_assoc, Run.bind_assoc]
              refine (Call.run_nears hst (test x)).bind fun ok _ st₁ st₁' hlater hst₁ hcall => ?_
              obtain ⟨rfl, -⟩ := hcall
              refine hpulls m (Nat.le_refl m) hst₁ ?_
              cases ok with
              | true => exact .consuming f (hlater.placesIn_subset hst.alike.left hc)
              | false => exact spelledOut_empty
      | finish a =>
          rw [Nat.add_right_comm]
          refine lazily ?_
          cases c.isExhausted with
          | true =>
              refine .ready fun o ho => ?_
              obtain rfl := List.mem_singleton.mp ho
              exact hc
          | false => exact spelledOut_empty
      | map f hp =>
          rw [Nat.add_right_comm, start, start]
          refine eagerly hp fun o o' ho => ?_
          obtain ⟨b, -, rfl⟩ := Call.result_map_eq_ok.mp ho
          exact Or.inl rfl
      | filter test hp =>
          rw [Nat.add_right_comm, start, start, Run.bind_assoc, Run.bind_assoc]
          refine layer_near (by omega) hfirst hp hst hc (fun _ _ _ => rfl) (fun _ _ _ => rfl)
            fun k hk x x' st₁ st₁' _ hst₁ hx => ?_
          exact afterFiltered_near (hpulls k (by omega)) hst₁ hx
      | bind hp hnext =>
          rw [Nat.add_right_comm]
          exact lazily (.bound hnext (spelledOut_deferred hp hc) spelledOut_empty)
      | seq f hp hq =>
          rw [Nat.add_right_comm]
          exact lazily (.paired f none hq (spelledOut_deferred hp hc) spelledOut_empty)
      | or hp hq =>
          rw [Nat.add_right_comm]
          refine lazily (.chained spelledOut_empty ?_)
          exact .cons ⟨hp, rfl, hc⟩ (.cons ⟨hq, rfl, hc⟩ .nil)
      | repetition least f hp =>
          rw [Nat.add_right_comm]
          refine lazily (.repeating least f hp (fun d hd => ?_) .bottom)
          obtain rfl := Option.some.inj hd
          exact hc
      | spanning f hp =>
          rw [Nat.add_right_comm, start, start]
          refine eagerly hp fun o o' ho => ?_
          obtain rfl := Except.ok.inj ho
          exact Or.inl rfl
      | rule r =>
          rw [Nat.add_right_comm]
          exact ih m hpulls (Nat.le_of_succ_le hnm) (hG _ r) hst hc
      | remark notes hp =>
          rw [Nat.add_right_comm]
          have hlater := Later.remark hst.alike.left (notes c)
          exact .after hlater (ih m hpulls (Nat.le_of_succ_le hnm) hp (hst.remark _ _)
            (hlater.placesIn_subset hst.alike.left hc))
      | abort x =>
          rw [Nat.add_right_comm]
          exact .fault x hst
      | lookahead hp =>
          rw [Nat.add_right_comm, start, start]
          refine eagerly hp fun o o' ho => ?_
          obtain rfl := Except.ok.inj ho
          exact Or.inr rfl

/-- In the course of a pull under the allowance `n`, a parser is started and its sequence pulled. -/
theorem Parser.firsts_near_of_pulls (hd : d = 0 ∨ 3 ≤ d) (hG : G.SpelledOut G')
    (hpulls : ∀ j ≤ n, PullsNear G G' d i j) (j : Nat) (hj : n = j + 1) :
    FirstsNear G G' d i n j :=
  firsts_near hd hG n j (fun k hk => hpulls k (by omega)) (by omega)

theorem Outcomes.afterFront_near (hd : d = 0 ∨ 3 ≤ d) (hG : G.SpelledOut G') (n : Nat) :
    ∀ {waiting waiting' : List (Parser σ ε ρ α × Cursor σ)} {st st' : Store σ ε}
      {x x' : Pull σ ε ρ α}, (∀ j ≤ n, PullsNear G G' d i j) → OneAhead i st st' →
      List.Forall₂ (fun w w' => w.1.SpelledOut w'.1 ∧ w.2 = w'.2 ∧ w.2 ∈ st.placesIn i)
        waiting waiting' → x.SpelledOut (st.placesIn i) x' →
      Pull.Near d i st (afterFront G n waiting x st) (afterFront G' (n + d) waiting' x' st') := by
  -- the parsers that wait are gone through under smaller and smaller allowances
  induction n using Nat.strongRecOn with
  | ind n ih =>
      intro waiting waiting' st st' x x' hpulls hst hwaiting hx
      cases hx with
      | some ho hs => exact .pure hst (.some ho (.chained hs hwaiting))
      | none hs =>
          cases hwaiting with
          | nil => exact .pure hst (.none spelledOut_empty)
          | @cons first first' waiting waiting' hfirst hwaiting =>
              obtain ⟨p, c⟩ := first
              obtain ⟨p', c'⟩ := first'
              obtain ⟨hp, rfl, hc⟩ := hfirst
              refine Parser.layer_near id (Parser.firsts_near_of_pulls hd hG hpulls) hp hst hc
                (fun _ _ _ => rfl) (fun _ _ _ => rfl) fun j hj x x' st₁ st₁' hlater hst₁ hx => ?_
              refine ih j (by omega) (fun k hk => hpulls k (by omega)) hst₁ ?_ hx
              exact hwaiting.imp fun _ _ h =>
                ⟨h.1, h.2.1, hlater.placesIn_subset hst.alike.left h.2.2⟩

theorem Outcomes.afterInner_near (hd : d = 0 ∨ 3 ≤ d) (hG : G.SpelledOut G')
    {next next' : α → Parser σ ε ρ β} (hnext : ∀ a, (next a).SpelledOut (next' a)) (n : Nat) :
    ∀ {outer outer' : Outcomes σ ε ρ α} {st st' : Store σ ε} {x x' : Pull σ ε ρ β},
      (∀ j ≤ n, PullsNear G G' d i j) → OneAhead i st st' →
      outer.SpelledOut (st.placesIn i) outer' → x.SpelledOut (st.placesIn i) x' →
      Pull.Near d i st (afterInner G n next outer x st)
        (afterInner G' (n + d) next' outer' x' st') := by
  -- the outcomes of the first parser are gone through under smaller and smaller allowances
  induction n using Nat.strongRecOn with
  | ind n ih =>
      intro outer outer' st st' x x' hpulls hst houter hx
      cases hx with
      | some ho hs => exact .pure hst (.some ho (.bound hnext houter hs))
      | none hs =>
          refine (hpulls n (Nat.le_refl n) hst houter).bind fun y y' st st' _ hst hy => ?_
          cases hy with
          | none hs => exact .pure hst (.none spelledOut_empty)
          | @some o outer outer' ho houter =>
              refine Parser.layer_near id (Parser.firsts_near_of_pulls hd hG hpulls)
                (hnext o.value) hst ho (fun _ _ _ => rfl) (fun _ _ _ => rfl)
                fun j hj x x' st₁ st₁' hlater hst₁ hx => ?_
              exact ih j (by omega) (fun k hk => hpulls k (by omega)) hst₁
                (houter.mono (hlater.placesIn_subset hst.alike.left)) hx

theorem Outcomes.afterSecond_near (hpull : PullsNear G G' d i n) (f : α → β → γ)
    {q q' : Parser σ ε ρ β} (hq : q.SpelledOut q') {outer outer' : Outcomes σ ε ρ α} (a : α)
    (hst : OneAhead i st st') (houter : outer.SpelledOut (st.placesIn i) outer')
    {x x' : Pull σ ε ρ β} (hx : x.SpelledOut (st.placesIn i) x') :
    Pull.Near d i st (afterSecond G n f q outer a x st)
      (afterSecond G' (n + d) f q' outer' a x' st') := by
  cases hx with
  | some ho hs => exact .pure hst (.some ho (.paired f (some a) hq houter hs))
  | none hs => exact hpull hst (.paired f none hq houter spelledOut_empty)

theorem Outcomes.afterTop_near (hd : d = 0 ∨ 3 ≤ d) (hG : G.SpelledOut G') (least : Nat)
    (f : List α → β) {p p' : Parser σ ε ρ α} (hp : p.SpelledOut p') (n : Nat) :
    ∀ {c : Cursor σ} {value : Option α} {below below' : Frames σ ε ρ α} {st st' : Store σ ε}
      {x x' : Pull σ ε ρ α}, (∀ j ≤ n, PullsNear G G' d i j) → OneAhead i st st' →
      c ∈ st.placesIn i → below.SpelledOut (st.placesIn i) below' →
      x.SpelledOut (st.placesIn i) x' →
      Pull.Near d i st (afterTop G n least f p c value below x st)
        (afterTop G' (n + d) least f p' c value below' x' st') := by
  -- a row grows under smaller and smaller allowances
  induction n using Nat.strongRecOn with
  | ind n ih =>
      intro c value below below' st st' x x' hpulls hst hc hbelow hx
      have hroot : ∀ c ∈ (none : Option (Cursor σ)), c ∈ st.placesIn i := forall_mem_none
      have hrow {s s' : Outcomes σ ε ρ α} (hs : s.SpelledOut (st.placesIn i) s') :
          (Frames.push s c value below).SpelledOut (st.placesIn i) (.push s' c value below') :=
        .push value hs hc hbelow
      cases hx with
      | @some o s s' ho hs =>
          dsimp only [afterTop]
          rw [(hrow hs).values_eq]
          split
          · exact .pure hst (.some ho (.repeating least f hp hroot (hrow hs)))
          · refine Parser.layer_near id (Parser.firsts_near_of_pulls hd hG hpulls) hp hst ho
              (fun _ _ _ => rfl) (fun _ _ _ => rfl) fun j hj x x' st₁ st₁' hlater hst₁ hx => ?_
            have hK := hlater.placesIn_subset (i := i) hst.alike.left
            exact ih j (by omega) (fun k hk => hpulls k (by omega)) hst₁ (hK ho)
              ((hrow hs).mono hK) hx
      | none hs =>
          dsimp only [afterTop]
          rw [(hrow hs).values_eq]
          split
          · exact .pure hst (.some hc (.repeating least f hp hroot hbelow))
          · exact hpulls n (Nat.le_refl n) hst (.repeating least f hp hroot hbelow)

/-- **PULLS STAY NEAR EACH OTHER**, under every allowance. -/
theorem Outcomes.pulls_near (hd : d = 0 ∨ 3 ≤ d) (hG : G.SpelledOut G') (n : Nat) :
    PullsNear G G' d i n := by
  induction n using Nat.strongRecOn with
  | ind n ih =>
      intro α s s' st st' hst hs
      cases n with
      | zero =>
          refine Pull.near_cut rfl ?_
          rintro rfl
          rfl
      | succ n =>
          have hpulls (j : Nat) (hj : j ≤ n) : PullsNear G G' d i j := ih j (Nat.lt_succ_of_le hj)
          have hpull : PullsNear G G' d i n := hpulls n (Nat.le_refl n)
          rw [Nat.add_right_comm]
          cases hs with
          | @ready _ os hos =>
              cases os with
              | nil => exact .pure hst (.none spelledOut_empty)
              | cons o os =>
                  obtain ⟨ho, hos⟩ := List.forall_mem_cons.mp hos
                  exact .pure hst (.some ho (.ready hos))
          | @consuming _ f c hc =>
              rw [pull, pull]
              cases c.current with
              | none => exact .pure hst (.none spelledOut_empty)
              | some x =>
                  obtain ⟨found, st₁, st₁', hleft, hright, hlater, hst₁, hfound⟩ := hst.advance hc
                  simp only [hleft, hright]
                  refine .done hlater hst₁ ?_
                  cases found with
                  | none => exact .none spelledOut_empty
                  | some e => exact .some (hfound e rfl) spelledOut_empty
          | spent test =>
              rcases hd' : n + d with _ | k
              · exact .cut' (by omega) _
              · exact .pure hst (.none (.spent test))
          | mapped hf hs =>
              exact (hpull hst hs).bind fun x x' st₁ st₁' hlater hst₁ hx =>
                afterMapped_near hst₁ (fun o o' ho => (hf o o' ho).imp_right fun h =>
                  hlater.placesIn_subset hst.alike.left h) hx
          | filtered test hs =>
              exact (hpull hst hs).bind fun x x' st₁ st₁' _ hst₁ hx =>
                afterFiltered_near hpull hst₁ hx
          | chained hs hwaiting =>
              refine (hpull hst hs).bind fun x x' st₁ st₁' hlater hst₁ hx =>
                afterFront_near hd hG n hpulls hst₁ ?_ hx
              exact hwaiting.imp fun _ _ h =>
                ⟨h.1, h.2.1, hlater.placesIn_subset hst.alike.left h.2.2⟩
          | bound hnext houter hinner =>
              exact (hpull hst hinner).bind fun x x' st₁ st₁' hlater hst₁ hx =>
                afterInner_near hd hG hnext n hpulls hst₁
                  (houter.mono (hlater.placesIn_subset hst.alike.left)) hx
          | paired f held hq houter hinner =>
              cases held with
              | some a =>
                  exact (hpull hst hinner).bind fun x x' st₁ st₁' hlater hst₁ hx =>
                    afterSecond_near hpull f hq a hst₁
                      (houter.mono (hlater.placesIn_subset hst.alike.left)) hx
              | none =>
                  refine (hpull hst houter).bind fun y y' st st' _ hst hy => ?_
                  cases hy with
                  | none _ => exact .pure hst (.none spelledOut_empty)
                  | @some o outer outer' ho houter =>
                      refine Parser.layer_near id (Parser.firsts_near_of_pulls hd hG hpulls)
                        hq hst ho (fun _ _ _ => rfl) (fun _ _ _ => rfl)
                        fun j hj x x' st₁ st₁' hlater hst₁ hx => ?_
                      exact afterSecond_near (hpulls j (by omega)) f hq o.value hst₁
                        (houter.mono (hlater.placesIn_subset hst.alike.left)) hx
          | @repeating _ _ least f p p' root frames frames' hp hroot hframes =>
              cases root with
              | some c =>
                  have hc := hroot c rfl
                  refine Parser.layer_near id (Parser.firsts_near_of_pulls hd hG hpulls) hp hst hc
                    (fun _ _ _ => rfl) (fun _ _ _ => rfl)
                    fun j hj x x' st₁ st₁' hlater hst₁ hx => ?_
                  have hK := hlater.placesIn_subset (i := i) hst.alike.left
                  exact afterTop_near hd hG least f hp j (fun k hk => hpulls k (by omega)) hst₁
                    (hK hc) (hframes.mono hK) hx
              | none =>
                  cases hframes with
                  | bottom =>
                      exact .pure hst (.none (.repeating least f hp hroot .bottom))
                  | push value hs hc hbelow =>
                      refine (hpull hst hs).bind fun x x' st₁ st₁' hlater hst₁ hx => ?_
                      have hK := hlater.placesIn_subset (i := i) hst.alike.left
                      exact afterTop_near hd hG least f hp n hpulls hst₁ (hK hc) (hbelow.mono hK) hx

end

/-! ## All answers -/

section

variable {G G' : Grammar σ ε ρ} {i : Nat} {st st' : Store σ ε}

theorem Outcomes.pulled_near (hG : G.SpelledOut G') {s s' : Outcomes σ ε ρ α}
    (hst : OneAhead i st st') (hs : s.SpelledOut (st.placesIn i) s') :
    Run.Nears False False i Pull.SpelledOut st (s.pulled G st) (s'.pulled G' st') :=
  .limit (s.pull_tends G st).rising (s'.pull_tends G' st').rising (show ¬ 3 = 0 by omega)
    (fun n => pulls_near (.inr (Nat.le_refl 3)) hG n hst hs) (Nat.lt_irrefl 0)
    (fun n => pulls_near (.inl rfl) hG n hst hs)

/-- A parser and its spelling, from the start to the first answer. -/
theorem Parser.first_pulled_near (hG : G.SpelledOut G') {p p' : Parser σ ε ρ α}
    (hp : p.SpelledOut p') (hst : OneAhead i st st') {c : Cursor σ} (hc : c ∈ st.placesIn i) :
    Run.Nears False False i Pull.SpelledOut st
      ((p.started G c st).bind fun s st => s.pulled G st)
      ((p'.started G' c st').bind fun s st => s.pulled G' st) := by
  have htends := (p.start_tends G c st).bind fun s st => s.pull_tends G st
  have htends' := (p'.start_tends G' c st').bind fun s st => s.pull_tends G' st
  have hnear {d : Nat} (hd : d = 0 ∨ 3 ≤ d) (n : Nat) : FirstsNear G G' d i n n :=
    firsts_near hd hG n n (fun k _ => Outcomes.pulls_near hd hG k) (Nat.le_succ n)
  rw [← htends.limit, ← htends'.limit]
  exact .limit htends.rising htends'.rising (show ¬ 3 = 0 by omega)
    (fun n => hnear (.inr (Nat.le_refl 3)) n hp hst hc) (Nat.lt_irrefl 0)
    (fun n => hnear (.inl rfl) n hp hst hc)

/-- If the rests have the same further answers, so have the pulls. -/
theorem Pull.SpelledOut.answers_near {k : Nat} {x x' : Pull σ ε ρ α}
    (hx : x.SpelledOut (st.placesIn i) x')
    (h : ∀ {s s' : Outcomes σ ε ρ α}, s.SpelledOut (st.placesIn i) s' →
      Run.Nears False False i (fun _ => Eq) st (s.answers G k st) (s'.answers G' k st')) :
    Run.Nears False False i (fun _ => Eq) st (x.answers G k st) (x'.answers G' k st') := by
  have hrest : x.rest.SpelledOut (st.placesIn i) x'.rest ∧ x.answer = x'.answer := by
    cases hx with
    | none hs => exact ⟨hs, rfl⟩
    | some _ hs => exact ⟨hs, rfl⟩
  rw [Pull.answers, Pull.answers, hrest.2]
  refine (h hrest.1).bind fun as as' st₁ st₁' _ hst₁ has => ?_
  obtain rfl : as = as' := has
  exact .pure hst₁ rfl

theorem Outcomes.answers_near (hG : G.SpelledOut G') (k : Nat) :
    ∀ {s s' : Outcomes σ ε ρ α} {st st' : Store σ ε}, OneAhead i st st' →
      s.SpelledOut (st.placesIn i) s' →
      Run.Nears False False i (fun _ => Eq) st (s.answers G k st) (s'.answers G' k st') := by
  induction k with
  | zero => intro s s' st st' hst _; exact .pure hst rfl
  | succ k ih =>
      intro s s' st st' hst hs
      exact (pulled_near hG hst hs).bind fun x x' st₁ st₁' _ hst₁ hx =>
        hx.answers_near fun hs => ih hst₁ hs

end

/-- Both runs end with the same result or with the same fault, or neither ends. The store that the
    second leaves is the one that the first leaves, or is ahead of it by one read of source `i`. -/
inductive Run.OneAhead (i : Nat) {δ : Type u} : Run σ ε δ → Run σ ε δ → Prop where
  | done (b : δ) {st st' : Store σ ε} (h : st.OneAhead i st') :
      Run.OneAhead i (.done b st) (.done b st')
  | fault (x : Fault) {st st' : Store σ ε} (h : st.OneAhead i st') :
      Run.OneAhead i (.fault x st) (.fault x st')
  | unfinished : Run.OneAhead i .unfinished .unfinished

theorem Run.Nears.oneAhead {i : Nat} {δ : Type u} {st : Store σ ε} {r r' : Run σ ε δ}
    (h : Nears False False i (fun _ => Eq) st r r') : r.OneAhead i r' := by
  cases h with
  | done _ near hpost =>
      rw [hpost]
      exact .done _ near
  | fault x near => exact .fault x near
  | unfinished => exact .unfinished
  | cut h => exact h.elim
  | cut' h => exact h.elim

/-- **THE FAST PATH IS SOUND.** Some tests of a symbol are spelled out, in a parser and in the rules
    of its grammar: any symbol is consumed, and then its value is tested. Callers who have got to a
    world by whatever steps start the one parser or the other at one of their cursors and make one
    pull or more. The answers are the same, with equal values at the same places, or there is the
    same fault, or no answer at all. Where tests are spelled out the source of the cursor has been
    read as often in the end, or once more and no oftener, however many tests there are and however
    often they are made; and every other source has been read equally often. -/
theorem Parser.answers_spelledOut [Carrier σ] {w : World σ ε} (hw : w.Reachable)
    {G G' : Grammar σ ε ρ} (hG : G.SpelledOut G') {p p' : Parser σ ε ρ α} (hp : p.SpelledOut p')
    {c : Cursor σ} (hc : c ∈ w.cursors) (k : Nat) :
    (p.answers G c (k + 1) w.store).OneAhead c.source (p'.answers G' c (k + 1) w.store) := by
  have hsound := hw.sound
  have hst : w.store.OneAhead c.source w.store := .refl hsound.intact
  rw [answers_succ, answers_succ]
  refine Run.Nears.oneAhead ((first_pulled_near hG hp hst ⟨hsound.cursors c hc, rfl⟩).bind ?_)
  exact fun x x' st st' _ hst hx => hx.answers_near fun hs => Outcomes.answers_near hG k hst hs

/-- A symbol that is not there, then rows of symbols that pass a test, then any symbol. -/
theorem Parser.symbol_answers_spelledOut :
    let _ : Carrier Nat := .none
    let G : Grammar Nat Unit (fun _ => Empty) := .empty
    let small (v : Nat) : Bool := decide (v < 8)
    let p : Parser Nat Unit (fun _ => Empty) (List Nat) :=
      .or (.or (.mapPure (fun v => [v]) (.symbol 8)) (.many (.satisfy small))) (.many1 .item)
    let p' : Parser Nat Unit (fun _ => Empty) (List Nat) :=
      .or (.or (.mapPure (fun v => [v]) (.filter (fun v => .pure (decide (v = 8))) .item))
        (.many (.filter (fun v => .pure (small v)) .item))) (.many1 .item)
    let c : Cursor Nat := ⟨0, 0, 0, some 7⟩
    World.pair.Reachable ∧ G.SpelledOut G ∧ p.SpelledOut p' ∧
      (p.answers G c 3 World.pair.store).OneAhead 0 (p'.answers G c 3 World.pair.store) := by
  intro _ G small p p' c
  have hG : G.SpelledOut G := fun _ r => r.elim
  have hitem : (many1 item : Parser Nat Unit (fun _ => Empty) (List Nat)).Plain := trivial
  have hp : p.SpelledOut p' :=
    .or (.or (.map _ (spelledOut_symbol 8)) (.repetition 0 id (spelledOut_satisfy small)))
      hitem.spelledOut
  exact ⟨World.reachable_pair, hG, hp,
    answers_spelledOut World.reachable_pair hG hp (List.mem_singleton.mpr rfl) 2⟩

end Backtrack

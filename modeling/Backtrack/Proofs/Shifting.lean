import Backtrack.Proofs.MonadLaws
import Backtrack.Proofs.Successes

/-!
# Shifting — a parser does not know where it stands

Let a source have been read up to some place, by whomever and perhaps much further, and let another
source be new and deliver what the first delivers from that place on. Then a parser started at that
place and the same parser started on the new source go on in the same way, pull by pull: the values
are equal, and the places differ by the number of symbols before the place.

This is a simulation. The two stores have nothing in common; what one of them finds in its memo
cells is a read in the other. The two sequences are built alike and differ in their cursors only,
which are counterparts (`Outcomes.Shifted`). Positions are compared in one place, where a repetition
asks whether an occurrence has moved, and that is a matter of their difference. Spans have positions
in them, so parsers that make spans are left out.
-/

namespace Backtrack

open Store

universe u v

variable {σ ε : Type} {ρ : Type → Type} {α β γ : Type}

/-- The source delivers what the other one delivers from read `i` on: it gives the same answers up
    to the first that is empty. What it would answer to further reads is left open. -/
def Source.Resumes (fresh source : Source σ) (i : Nat) : Prop :=
  ∀ j, (∀ k < j, (source.answer (i + k)).isSome = true) → fresh.answer j = source.answer (i + j)

/-- A source that has been read up to the place `offset`, and another one that delivers the rest.
    The two stores know them by the numbers `here` and `there`. -/
structure Shift (σ : Type) where
  source  : Source σ
  here    : Nat
  offset  : Nat
  fresh   : Source σ
  there   : Nat
  resumes : fresh.Resumes source offset

namespace Shift

variable (shift : Shift σ) {m m' : Nat} {c c' : Cursor σ} {st st' : Store σ ε}

/-- The two cursors are counterparts, among the first `m` places from the offset on. -/
def Places (m : Nat) (c c' : Cursor σ) : Prop :=
  ∃ j < m, c = shift.source.cursorAt shift.here (shift.offset + j) ∧
    c' = shift.fresh.cursorAt shift.there j

/-- The two stores have read their sources as far as the first `m` places from the offset on. -/
structure Stores (m : Nat) (st st' : Store σ ε) : Prop where
  left  : Feeds shift.source shift.here (shift.offset + m) st
  right : Feeds shift.fresh shift.there m st'

variable {shift}

theorem Places.mono (h : shift.Places m c c') (hm : m ≤ m') : shift.Places m' c c' := by
  obtain ⟨j, hj, h⟩ := h
  exact ⟨j, Nat.lt_of_lt_of_le hj hm, h⟩

theorem Places.position_eq (h : shift.Places m c c') :
    c.position = shift.offset + c'.position := by
  obtain ⟨j, -, rfl, rfl⟩ := h
  rfl

/-- As far as the sources have been read, their answers are the same. -/
theorem Stores.answer_eq (h : shift.Stores m st st') {j : Nat} (hj : j < m) :
    shift.fresh.answer j = shift.source.answer (shift.offset + j) := by
  refine shift.resumes j fun k hk => ?_
  have hreads := h.left.reads
  exact h.left.intact.isSome_answer h.left.source (by omega)

theorem Stores.current_eq (h : shift.Stores m st st') (hc : shift.Places m c c') :
    c'.current = c.current := by
  obtain ⟨j, hj, rfl, rfl⟩ := hc
  exact h.answer_eq hj

theorem Stores.remark (h : shift.Stores m st st') (notes notes' : List ε) :
    shift.Stores m (st.remark notes) (st'.remark notes') :=
  ⟨(h.left.remark notes).mono h.left.reads, (h.right.remark notes').mono h.right.reads⟩

/-- Going on from counterparts leads to counterparts, whoever has been there before. -/
theorem Stores.advance (h : shift.Stores m st st') (hc : shift.Places m c c') :
    ∃ m' ≥ m, ∃ found found' st₁ st₁', st.advance c = (found, st₁) ∧
      st'.advance c' = (found', st₁') ∧ shift.Stores m' st₁ st₁' ∧
      Option.Rel (shift.Places m') found found' := by
  obtain ⟨j, hj, rfl, rfl⟩ := hc
  have hreads := h.left.reads
  have hreads' := h.right.reads
  obtain ⟨hfound, hspends⟩ := h.left.intact.advance_spec h.left.source
    (j := shift.offset + j) (by omega)
  obtain ⟨hfound', hspends'⟩ := h.right.intact.advance_spec h.right.source (j := j) (by omega)
  have hleft := h.left.spends hspends
  have hright := h.right.spends hspends'
  rw [Source.next?] at hfound
  rw [Source.next?, h.answer_eq hj] at hfound'
  cases hx : shift.source.answer (shift.offset + j) with
  | none =>
      rw [hx] at hfound hfound'
      refine ⟨m, Nat.le_refl m, _, _, _, _, Prod.ext hfound rfl, Prod.ext hfound' rfl,
        ⟨hleft.mono ?_, hright.mono ?_⟩, .none⟩
      · omega
      · omega
  | some x =>
      have hdemand : shift.source.demand shift.here (shift.offset + j) shift.here =
          shift.offset + j + 2 := if_pos ⟨rfl, by rw [hx]; rfl⟩
      have hdemand' : shift.fresh.demand shift.there j shift.there = j + 2 :=
        if_pos ⟨rfl, by rw [h.answer_eq hj, hx]; rfl⟩
      rw [hx] at hfound hfound'
      refine ⟨max m (j + 2), Nat.le_max_left _ _, _, _, _, _, Prod.ext hfound rfl,
        Prod.ext hfound' rfl, ⟨hleft.mono ?_, hright.mono ?_⟩, .some ?_⟩
      · omega
      · omega
      · exact ⟨j + 1, by omega, rfl, rfl⟩

end Shift

/-! ## Counterparts -/

/-- The two outcomes have equal values, and their places are counterparts. -/
def Outcome.Shifted (shift : Shift σ) (m : Nat) (o o' : Outcome σ α) : Prop :=
  o.value = o'.value ∧ shift.Places m o.cursor o'.cursor

/-- The parser makes no spans, and is put together without walks of the caller's own and without
    returns to a place from before. -/
def Parser.Shiftable : {α : Type} → Parser σ ε ρ α → Prop
  | _, .map _ p          => p.Shiftable
  | _, .filter _ p       => p.Shiftable
  | _, .bind p next      => p.Shiftable ∧ ∀ a, (next a).Shiftable
  | _, .seq _ p q        => p.Shiftable ∧ q.Shiftable
  | _, .or p q           => p.Shiftable ∧ q.Shiftable
  | _, .repetition _ _ p => p.Shiftable
  | _, .spanning _ _     => False
  | _, .remark _ p       => p.Shiftable
  | _, .lookahead _      => False
  | _, .custom _         => False
  | _, _                 => True

/-- The same for all rules of a grammar. -/
def Grammar.Shiftable (G : Grammar σ ε ρ) : Prop :=
  ∀ (α : Type) (r : ρ α), (G.body r).Shiftable

mutual

/-- The two sequences are built alike, over cursors that are counterparts. -/
inductive Outcomes.Shifted (shift : Shift σ) (m : Nat) :
    {α : Type} → Outcomes σ ε ρ α → Outcomes σ ε ρ α → Prop where
  | ready {α : Type} {os os' : List (Outcome σ α)}
      (hos : List.Forall₂ (Outcome.Shifted shift m) os os') :
      Outcomes.Shifted shift m (.ready os) (.ready os')
  | consuming {α : Type} (f : σ → α) {c c' : Cursor σ} (hc : shift.Places m c c') :
      Outcomes.Shifted shift m (.consuming f c) (.consuming f c')
  | mapped {α β : Type} (f : α → Call ε β) {s s' : Outcomes σ ε ρ α}
      (hs : Outcomes.Shifted shift m s s') :
      Outcomes.Shifted shift m (.mapped (fun o => (f o.value).map o.withValue) s)
        (.mapped (fun o => (f o.value).map o.withValue) s')
  | filtered {α : Type} (test : α → Call ε Bool) {s s' : Outcomes σ ε ρ α}
      (hs : Outcomes.Shifted shift m s s') :
      Outcomes.Shifted shift m (.filtered (fun o => test o.value) s)
        (.filtered (fun o => test o.value) s')
  | chained {α : Type} {s s' : Outcomes σ ε ρ α}
      {waiting waiting' : List (Parser σ ε ρ α × Cursor σ)} (hs : Outcomes.Shifted shift m s s')
      (hwaiting : List.Forall₂ (fun w w' =>
        w.1 = w'.1 ∧ w.1.Shiftable ∧ shift.Places m w.2 w'.2) waiting waiting') :
      Outcomes.Shifted shift m (.chained s waiting) (.chained s' waiting')
  | bound {α β : Type} {next : α → Parser σ ε ρ β} {outer outer' : Outcomes σ ε ρ α}
      {inner inner' : Outcomes σ ε ρ β} (hnext : ∀ a, (next a).Shiftable)
      (houter : Outcomes.Shifted shift m outer outer')
      (hinner : Outcomes.Shifted shift m inner inner') :
      Outcomes.Shifted shift m (.bound next outer inner) (.bound next outer' inner')
  | paired {α β γ : Type} (f : α → β → γ) {q : Parser σ ε ρ β} {outer outer' : Outcomes σ ε ρ α}
      (held : Option α) {inner inner' : Outcomes σ ε ρ β} (hq : q.Shiftable)
      (houter : Outcomes.Shifted shift m outer outer')
      (hinner : Outcomes.Shifted shift m inner inner') :
      Outcomes.Shifted shift m (.paired f q outer held inner) (.paired f q outer' held inner')
  | repeating {α β : Type} (least : Nat) (f : List α → β) {p : Parser σ ε ρ α}
      {root root' : Option (Cursor σ)} {frames frames' : Frames σ ε ρ α} (hp : p.Shiftable)
      (hroot : Option.Rel (shift.Places m) root root')
      (hframes : Frames.Shifted shift m frames frames') :
      Outcomes.Shifted shift m (.repeating least f p root frames)
        (.repeating least f p root' frames')

/-- The same for rows of occurrences. -/
inductive Frames.Shifted (shift : Shift σ) (m : Nat) :
    {α : Type} → Frames σ ε ρ α → Frames σ ε ρ α → Prop where
  | bottom {α : Type} : Frames.Shifted shift m (.bottom : Frames σ ε ρ α) .bottom
  | push {α : Type} {s s' : Outcomes σ ε ρ α} {c c' : Cursor σ} (value : Option α)
      {below below' : Frames σ ε ρ α} (hs : Outcomes.Shifted shift m s s')
      (hc : shift.Places m c c') (hbelow : Frames.Shifted shift m below below') :
      Frames.Shifted shift m (.push s c value below) (.push s' c' value below')

end

theorem optionRel_imp {R S : α → β → Prop} (h : ∀ a b, R a b → S a b) {x : Option α} {y : Option β}
    (hxy : Option.Rel R x y) : Option.Rel S x y := by
  cases hxy with
  | none => exact .none
  | some hab => exact .some (h _ _ hab)

section

variable {shift : Shift σ} {m m' : Nat}

theorem Outcome.Shifted.mono (hm : m ≤ m') {o o' : Outcome σ α} (h : o.Shifted shift m o') :
    o.Shifted shift m' o' :=
  ⟨h.1, h.2.mono hm⟩

mutual

theorem Outcomes.Shifted.mono (hm : m ≤ m') : {α : Type} → {s s' : Outcomes σ ε ρ α} →
    s.Shifted shift m s' → s.Shifted shift m' s'
  | _, _, _, .ready hos                    => .ready (hos.imp fun _ _ h => h.mono hm)
  | _, _, _, .consuming f hc               => .consuming f (hc.mono hm)
  | _, _, _, .mapped f hs                  => .mapped f (hs.mono hm)
  | _, _, _, .filtered test hs             => .filtered test (hs.mono hm)
  | _, _, _, .chained hs hwaiting          =>
      .chained (hs.mono hm) (hwaiting.imp fun _ _ h => ⟨h.1, h.2.1, h.2.2.mono hm⟩)
  | _, _, _, .bound hnext houter hinner    => .bound hnext (houter.mono hm) (hinner.mono hm)
  | _, _, _, .paired f held hq houter hinner =>
      .paired f held hq (houter.mono hm) (hinner.mono hm)
  | _, _, _, .repeating least f hp hroot hframes =>
      .repeating least f hp (optionRel_imp (fun _ _ h => h.mono hm) hroot) (hframes.mono hm)

theorem Frames.Shifted.mono (hm : m ≤ m') : {α : Type} → {frames frames' : Frames σ ε ρ α} →
    frames.Shifted shift m frames' → frames.Shifted shift m' frames'
  | _, _, _, .bottom                  => .bottom
  | _, _, _, .push value hs hc hbelow => .push value (hs.mono hm) (hc.mono hm) (hbelow.mono hm)

end

theorem Outcomes.shifted_empty : (empty : Outcomes σ ε ρ α).Shifted shift m empty :=
  .ready .nil

theorem Outcomes.shifted_deferred {p : Parser σ ε ρ α} (hp : p.Shiftable) {c c' : Cursor σ}
    (hc : shift.Places m c c') : (deferred p c).Shifted shift m (deferred p c') :=
  .chained shifted_empty (.cons ⟨rfl, hp, hc⟩ .nil)

/-- Rows that are counterparts have the same values. -/
theorem Frames.Shifted.values_eq {frames frames' : Frames σ ε ρ α} :
    frames.Shifted shift m frames' → ∀ tail, frames'.values tail = frames.values tail
  | .bottom,                _    => rfl
  | .push none _ _ hbelow,     tail => hbelow.values_eq tail
  | .push (some a) _ _ hbelow, tail => hbelow.values_eq (a :: tail)

end

/-! ## Runs side by side -/

/-- The two runs end in the same way: with results that are related, in stores that have been read
    at least as far as before, or with the same fault. -/
inductive Run.Shifted (shift : Shift σ) {δ : Type u} (post : Nat → δ → δ → Prop) (m : Nat) :
    Run σ ε δ → Run σ ε δ → Prop where
  | done {b b' : δ} {m' : Nat} {st st' : Store σ ε} (hm : m ≤ m') (hst : shift.Stores m' st st')
      (hpost : post m' b b') : Shifted shift post m (.done b st) (.done b' st')
  | fault (x : Fault) (st st' : Store σ ε) : Shifted shift post m (.fault x st) (.fault x st')
  | unfinished : Shifted shift post m .unfinished .unfinished

namespace Run.Shifted

variable {shift : Shift σ} {δ : Type u} {η : Type v} {post : Nat → δ → δ → Prop}
  {post' : Nat → η → η → Prop} {m m' : Nat}

/-- A result without any action. -/
theorem pure {st st' : Store σ ε} (hst : shift.Stores m st st') {b b' : δ} (h : post m b b') :
    Shifted shift post m (.done b st) (.done b' st') :=
  .done (Nat.le_refl m) hst h

/-- What went before both runs counts as part of them. -/
theorem after {r r' : Run σ ε δ} (hm : m ≤ m') (h : Shifted shift post m' r r') :
    Shifted shift post m r r' := by
  cases h with
  | done hm' hst hpost => exact .done (Nat.le_trans hm hm') hst hpost
  | fault x st st' => exact .fault x st st'
  | unfinished => exact .unfinished

/-- One action after another. -/
theorem bind {r r' : Run σ ε δ} {k k' : δ → Store σ ε → Run σ ε η} (h : Shifted shift post m r r')
    (hk : ∀ m' ≥ m, ∀ b b' st st', shift.Stores m' st st' → post m' b b' →
      Shifted shift post' m' (k b st) (k' b' st')) :
    Shifted shift post' m (r.bind k) (r'.bind k') := by
  cases h with
  | done hm hst hpost => exact .after hm (hk _ hm _ _ _ _ hst hpost)
  | fault x st st' => exact .fault x st st'
  | unfinished => exact .unfinished

theorem unfinished_iff {r r' : Run σ ε δ} (h : Shifted shift post m r r') :
    r = .unfinished ↔ r' = .unfinished := by
  cases h with
  | done => exact ⟨nofun, nofun⟩
  | fault => exact ⟨nofun, nofun⟩
  | unfinished => exact Iff.rfl

/-- Runs that go side by side under every allowance do so in the limit. -/
theorem limit {r r' : Nat → Run σ ε δ} (h : Rising r) (h' : Rising r')
    (hr : ∀ n, Shifted shift post m (r n) (r' n)) :
    Shifted shift post m (Run.limit r) (Run.limit r') :=
  Run.limit_rel h h' hr unfinished_iff

end Run.Shifted

section

variable {shift : Shift σ} {m : Nat} {st st' : Store σ ε}

/-- A call of one of the caller's functions. -/
theorem Call.run_shifted (hst : shift.Stores m st st') (call : Call ε β) :
    Run.Shifted shift (fun _ => Eq) m (call.run st) (call.run st') := by
  rw [Call.run, Call.run]
  cases call.result with
  | ok b => exact .pure (hst.remark _ _) rfl
  | error x => exact .fault x _ _

/-- The call that changes the value of an outcome. -/
theorem Call.run_withValue_shifted (hst : shift.Stores m st st') (call : Call ε β)
    {o o' : Outcome σ α} (ho : o.Shifted shift m o') :
    Run.Shifted shift (Outcome.Shifted shift) m ((call.map o.withValue).run st)
      ((call.map o'.withValue).run st') := by
  rw [Call.run, Call.run, Call.map, Call.map]
  cases call.result with
  | ok b => exact .pure (hst.remark _ _) ⟨rfl, ho.2⟩
  | error x => exact .fault x _ _

variable {G : Grammar σ ε ρ}

/-- Starting a parser at counterparts. -/
theorem Parser.start_shifted (hG : G.Shiftable) (n : Nat) : ∀ {α : Type} {p : Parser σ ε ρ α}
    {m : Nat} {c c' : Cursor σ} {st st' : Store σ ε}, p.Shiftable → shift.Places m c c' →
    shift.Stores m st st' →
    Run.Shifted shift (fun m s s' => s.Shifted shift m s') m (p.start G n c st)
      (p.start G n c' st') := by
  induction n with
  | zero => intro α p m c c' st st' _ _ _; exact .unfinished
  | succ n ih =>
      intro α p m c c' st st' hp hc hst
      cases p with
      | unit a => exact .pure hst (.ready (.cons ⟨rfl, hc⟩ .nil))
      | fail => exact .pure hst Outcomes.shifted_empty
      | anySymbol f => exact .pure hst (.consuming f hc)
      | testSymbol test f =>
          rw [start, start, hst.current_eq hc]
          cases c.current with
          | none => exact .pure hst Outcomes.shifted_empty
          | some x =>
              refine (Call.run_shifted hst (test x)).bind fun m' hm ok ok' st st' hst hok => ?_
              subst hok
              refine .pure hst ?_
              cases ok with
              | true => exact .consuming f (hc.mono hm)
              | false => exact Outcomes.shifted_empty
      | finish a =>
          rw [start, start, Cursor.isExhausted, Cursor.isExhausted, hst.current_eq hc]
          refine .pure hst ?_
          cases c.current with
          | none => exact .ready (.cons ⟨rfl, hc⟩ .nil)
          | some x => exact Outcomes.shifted_empty
      | map f p =>
          exact (ih (p := p) hp hc hst).bind fun _ _ _ _ _ _ hst hs => .pure hst (.mapped f hs)
      | filter test p =>
          exact (ih (p := p) hp hc hst).bind
            fun _ _ _ _ _ _ hst hs => .pure hst (.filtered test hs)
      | bind p next =>
          exact .pure hst (.bound hp.2 (Outcomes.shifted_deferred hp.1 hc) Outcomes.shifted_empty)
      | seq f p q =>
          exact .pure hst
            (.paired f none hp.2 (Outcomes.shifted_deferred hp.1 hc) Outcomes.shifted_empty)
      | or p q =>
          refine .pure hst (.chained Outcomes.shifted_empty ?_)
          exact .cons ⟨rfl, hp.1, hc⟩ (.cons ⟨rfl, hp.2, hc⟩ .nil)
      | repetition least f p => exact .pure hst (.repeating least f hp (.some hc) .bottom)
      | spanning f p => exact hp.elim
      | rule r => exact ih (hG _ r) hc hst
      | remark notes p => exact ih (p := p) hp hc (hst.remark _ _)
      | abort x => exact .fault x st st'
      | lookahead p => exact hp.elim
      | custom start => exact hp.elim

/-- The two pulls have answers that are counterparts, or none; and so are the rests. -/
def Pull.Shifted (shift : Shift σ) (m : Nat) (pulled pulled' : Pull σ ε ρ α) : Prop :=
  Option.Rel (Outcome.Shifted shift m) pulled.answer pulled'.answer ∧
    pulled.rest.Shifted shift m pulled'.rest

end

namespace Outcomes

variable {shift : Shift σ} {G : Grammar σ ε ρ}

variable (shift G) in
/-- Under the allowance `n`, pulls of counterparts go side by side. -/
def PullsShifted (n : Nat) : Prop :=
  ∀ {α : Type} {s s' : Outcomes σ ε ρ α} {m : Nat} {st st' : Store σ ε}, s.Shifted shift m s' →
    shift.Stores m st st' →
    Run.Shifted shift (Pull.Shifted shift) m (s.pull G n st) (s'.pull G n st')

section

variable {n m : Nat} {st st' : Store σ ε}

theorem pull_shifted_ready {os os' : List (Outcome σ α)}
    (hos : List.Forall₂ (Outcome.Shifted shift m) os os') (hst : shift.Stores m st st') :
    Run.Shifted shift (Pull.Shifted shift) m ((ready os : Outcomes σ ε ρ α).pull G (n + 1) st)
      ((ready os' : Outcomes σ ε ρ α).pull G (n + 1) st') := by
  cases hos with
  | nil => exact .pure hst ⟨.none, shifted_empty⟩
  | cons ho hos => exact .pure hst ⟨.some ho, .ready hos⟩

theorem pull_shifted_consuming (f : σ → α) {c c' : Cursor σ} (hc : shift.Places m c c')
    (hst : shift.Stores m st st') :
    Run.Shifted shift (Pull.Shifted shift) m ((consuming f c : Outcomes σ ε ρ α).pull G (n + 1) st)
      ((consuming f c' : Outcomes σ ε ρ α).pull G (n + 1) st') := by
  rw [pull, pull, hst.current_eq hc]
  cases c.current with
  | none => exact .pure hst ⟨.none, shifted_empty⟩
  | some x =>
      obtain ⟨m', hm, found, found', st₁, st₁', hrun, hrun', hst₁, hfound⟩ := hst.advance hc
      simp only [hrun, hrun']
      refine .done hm hst₁ ⟨?_, shifted_empty⟩
      cases hfound with
      | none => exact .none
      | some hd => exact .some ⟨rfl, hd⟩

variable (ih : PullsShifted shift G n) (hst : shift.Stores m st st')
include ih hst

theorem pull_shifted_mapped (f : α → Call ε β) {s s' : Outcomes σ ε ρ α}
    (hs : s.Shifted shift m s') :
    Run.Shifted shift (Pull.Shifted shift) m
      ((mapped (fun o => (f o.value).map o.withValue) s).pull G (n + 1) st)
      ((mapped (fun o => (f o.value).map o.withValue) s').pull G (n + 1) st') := by
  simp only [pull]
  refine (ih hs hst).bind fun m' hm pulled pulled' st st' hst hpulled => ?_
  obtain ⟨answer, s⟩ := pulled
  obtain ⟨answer', s'⟩ := pulled'
  obtain ⟨hanswer, hs⟩ := hpulled
  cases hanswer with
  | none => exact .pure hst ⟨.none, .mapped f hs⟩
  | @some o o' ho =>
      dsimp only
      rw [← ho.1]
      refine (Call.run_withValue_shifted hst (f o.value) ho).bind ?_
      exact fun m'' hm' v v' st st' hst hv => .pure hst ⟨.some hv, .mapped f (hs.mono hm')⟩

theorem pull_shifted_filtered (test : α → Call ε Bool) {s s' : Outcomes σ ε ρ α}
    (hs : s.Shifted shift m s') :
    Run.Shifted shift (Pull.Shifted shift) m
      ((filtered (fun o => test o.value) s).pull G (n + 1) st)
      ((filtered (fun o => test o.value) s').pull G (n + 1) st') := by
  simp only [pull]
  refine (ih hs hst).bind fun m' hm pulled pulled' st st' hst hpulled => ?_
  obtain ⟨answer, s⟩ := pulled
  obtain ⟨answer', s'⟩ := pulled'
  obtain ⟨hanswer, hs⟩ := hpulled
  cases hanswer with
  | none => exact .pure hst ⟨.none, .filtered test hs⟩
  | @some o o' ho =>
      dsimp only
      rw [← ho.1]
      refine (Call.run_shifted hst (test o.value)).bind fun m'' hm' ok ok' st st' hst hok => ?_
      obtain rfl : ok = ok' := hok
      cases ok with
      | true => exact .pure hst ⟨.some (ho.mono hm'), .filtered test (hs.mono hm')⟩
      | false => exact ih (.filtered test (hs.mono hm')) hst

variable (hG : G.Shiftable)
include hG

theorem pull_shifted_chained {s s' : Outcomes σ ε ρ α}
    {waiting waiting' : List (Parser σ ε ρ α × Cursor σ)} (hs : s.Shifted shift m s')
    (hwaiting : List.Forall₂ (fun w w' =>
      w.1 = w'.1 ∧ w.1.Shiftable ∧ shift.Places m w.2 w'.2) waiting waiting') :
    Run.Shifted shift (Pull.Shifted shift) m ((chained s waiting).pull G (n + 1) st)
      ((chained s' waiting').pull G (n + 1) st') := by
  simp only [pull]
  refine (ih hs hst).bind fun m' hm pulled pulled' st st' hst hpulled => ?_
  obtain ⟨answer, s⟩ := pulled
  obtain ⟨answer', s'⟩ := pulled'
  obtain ⟨hanswer, hs⟩ := hpulled
  cases hanswer with
  | some ho =>
      refine .pure hst ⟨.some ho, .chained hs ?_⟩
      exact hwaiting.imp fun _ _ h => ⟨h.1, h.2.1, h.2.2.mono hm⟩
  | none =>
      cases hwaiting with
      | nil => exact .pure hst ⟨.none, shifted_empty⟩
      | @cons first first' _ _ hfirst hwaiting =>
          obtain ⟨p, c⟩ := first
          obtain ⟨p', c'⟩ := first'
          obtain ⟨rfl, hp, hc⟩ := hfirst
          refine (Parser.start_shifted hG n hp (hc.mono hm) hst).bind
            fun m'' hm' t t' st st' hst ht => ih (.chained ht ?_) hst
          exact hwaiting.imp fun _ _ h => ⟨h.1, h.2.1, h.2.2.mono (Nat.le_trans hm hm')⟩

theorem pull_shifted_bound {next : α → Parser σ ε ρ β} {outer outer' : Outcomes σ ε ρ α}
    {inner inner' : Outcomes σ ε ρ β} (hnext : ∀ a, (next a).Shiftable)
    (houter : outer.Shifted shift m outer') (hinner : inner.Shifted shift m inner') :
    Run.Shifted shift (Pull.Shifted shift) m ((bound next outer inner).pull G (n + 1) st)
      ((bound next outer' inner').pull G (n + 1) st') := by
  simp only [pull]
  refine (ih hinner hst).bind fun m' hm pulled pulled' st st' hst hpulled => ?_
  obtain ⟨answer, inner⟩ := pulled
  obtain ⟨answer', inner'⟩ := pulled'
  obtain ⟨hanswer, hinner⟩ := hpulled
  cases hanswer with
  | some ho => exact .pure hst ⟨.some ho, .bound hnext (houter.mono hm) hinner⟩
  | none =>
      refine (ih (houter.mono hm) hst).bind fun m'' hm' pulled pulled' st st' hst hpulled => ?_
      obtain ⟨answer, outer⟩ := pulled
      obtain ⟨answer', outer'⟩ := pulled'
      obtain ⟨hanswer, houter⟩ := hpulled
      cases hanswer with
      | none => exact .pure hst ⟨.none, shifted_empty⟩
      | @some o o' ho =>
          dsimp only
          rw [← ho.1]
          refine (Parser.start_shifted hG n (hnext o.value) ho.2 hst).bind ?_
          exact fun m₃ hm₃ t t' st st' hst ht => ih (.bound hnext (houter.mono hm₃) ht) hst

theorem pull_shifted_paired (f : α → β → γ) {q : Parser σ ε ρ β} {outer outer' : Outcomes σ ε ρ α}
    (held : Option α) {inner inner' : Outcomes σ ε ρ β} (hq : q.Shiftable)
    (houter : outer.Shifted shift m outer') (hinner : inner.Shifted shift m inner') :
    Run.Shifted shift (Pull.Shifted shift) m ((paired f q outer held inner).pull G (n + 1) st)
      ((paired f q outer' held inner').pull G (n + 1) st') := by
  cases held with
  | none =>
      simp only [pull]
      refine (ih houter hst).bind fun m' hm pulled pulled' st st' hst hpulled => ?_
      obtain ⟨answer, outer⟩ := pulled
      obtain ⟨answer', outer'⟩ := pulled'
      obtain ⟨hanswer, houter⟩ := hpulled
      cases hanswer with
      | none => exact .pure hst ⟨.none, shifted_empty⟩
      | @some o o' ho =>
          dsimp only
          rw [← ho.1]
          refine (Parser.start_shifted hG n hq ho.2 hst).bind ?_
          exact fun m'' hm' t t' st st' hst ht =>
            ih (.paired f (some o.value) hq (houter.mono hm') ht) hst
  | some a =>
      simp only [pull]
      refine (ih hinner hst).bind fun m' hm pulled pulled' st st' hst hpulled => ?_
      obtain ⟨answer, inner⟩ := pulled
      obtain ⟨answer', inner'⟩ := pulled'
      obtain ⟨hanswer, hinner⟩ := hpulled
      cases hanswer with
      | none => exact ih (.paired f none hq (houter.mono hm) shifted_empty) hst
      | @some o o' ho =>
          refine .pure hst ⟨.some ⟨?_, ho.2⟩, .paired f (some a) hq (houter.mono hm) hinner⟩
          exact congrArg (f a) ho.1

/-- Whether an occurrence has moved is the same on both sides, since both of its places are away
    from their counterparts by the offset. -/
theorem pull_shifted_push (least : Nat) (f : List α → β) {p : Parser σ ε ρ α} (hp : p.Shiftable)
    {s s' : Outcomes σ ε ρ α} {c c' : Cursor σ} (value : Option α) {below below' : Frames σ ε ρ α}
    (hs : s.Shifted shift m s') (hc : shift.Places m c c') (hbelow : below.Shifted shift m below') :
    Run.Shifted shift (Pull.Shifted shift) m
      ((repeating least f p none (.push s c value below)).pull G (n + 1) st)
      ((repeating least f p none (.push s' c' value below')).pull G (n + 1) st') := by
  rw [pull, pull]
  refine (ih hs hst).bind fun m' hm pulled pulled' st st' hst hpulled => ?_
  obtain ⟨answer, s⟩ := pulled
  obtain ⟨answer', s'⟩ := pulled'
  obtain ⟨hanswer, hs⟩ := hpulled
  have hframes : (Frames.push s c value below).Shifted shift m' (.push s' c' value below') :=
    .push value hs (hc.mono hm) (hbelow.mono hm)
  cases hanswer with
  | @some o o' ho =>
      have hstays : o.cursor.position = c.position ↔ o'.cursor.position = c'.position := by
        rw [ho.2.position_eq, hc.position_eq]
        exact Nat.add_right_inj
      dsimp only
      rw [← ho.1]
      by_cases hmoved : o.cursor.position = c.position
      · rw [if_pos hmoved, if_pos (hstays.mp hmoved), hframes.values_eq]
        exact .pure hst ⟨.some ⟨rfl, ho.2⟩, .repeating least f hp .none hframes⟩
      · rw [if_neg hmoved, if_neg (hmoved ∘ hstays.mpr)]
        refine (Parser.start_shifted hG n hp ho.2 hst).bind fun m'' hm' t t' st st' hst ht => ?_
        refine ih (.repeating least f hp .none ?_) hst
        exact .push (some o.value) ht (ho.2.mono hm') (hframes.mono hm')
  | none =>
      dsimp only
      rw [hframes.values_eq]
      by_cases hleast : least ≤ ((Frames.push s c value below).values []).length
      · rw [if_pos hleast, if_pos hleast]
        refine .pure hst ⟨.some ⟨rfl, hc.mono hm⟩, ?_⟩
        exact .repeating least f hp .none (hbelow.mono hm)
      · rw [if_neg hleast, if_neg hleast]
        exact ih (.repeating least f hp .none (hbelow.mono hm)) hst

end

/-- Pulls of counterparts go side by side under every allowance. -/
theorem pull_shifted (hG : G.Shiftable) (n : Nat) : PullsShifted shift G n := by
  induction n with
  | zero =>
      intro α s s' m st st' _ _
      exact .unfinished
  | succ n ih =>
      intro α s s' m st st' hs hst
      cases hs with
      | ready hos => exact pull_shifted_ready hos hst
      | consuming f hc => exact pull_shifted_consuming f hc hst
      | mapped f hs => exact pull_shifted_mapped ih hst f hs
      | filtered test hs => exact pull_shifted_filtered ih hst test hs
      | chained hs hwaiting => exact pull_shifted_chained ih hst hG hs hwaiting
      | bound hnext houter hinner => exact pull_shifted_bound ih hst hG hnext houter hinner
      | paired f held hq houter hinner =>
          exact pull_shifted_paired ih hst hG f held hq houter hinner
      | repeating least f hp hroot hframes =>
          cases hroot with
          | some hc =>
              simp only [pull]
              refine (Parser.start_shifted hG n hp hc hst).bind
                fun m' hm t t' st st' hst ht => ih (.repeating least f hp .none ?_) hst
              exact .push none ht (hc.mono hm) (hframes.mono hm)
          | none =>
              cases hframes with
              | bottom => exact .pure hst ⟨.none, .repeating least f hp .none .bottom⟩
              | push value hs hc hbelow =>
                  exact pull_shifted_push ih hst hG least f hp value hs hc hbelow

/-- The first `k` answers of counterparts are counterparts. -/
theorem answers_shifted (hG : G.Shiftable) (k : Nat) : ∀ {s s' : Outcomes σ ε ρ α} {m : Nat}
    {st st' : Store σ ε}, s.Shifted shift m s' → shift.Stores m st st' →
    Run.Shifted shift (fun m => List.Forall₂ (Option.Rel (Outcome.Shifted shift m))) m
      (s.answers G k st) (s'.answers G k st') := by
  induction k with
  | zero =>
      intro s s' m st st' _ hst
      exact .pure hst .nil
  | succ k ih =>
      intro s s' m st st' hs hst
      have hpulled : Run.Shifted shift (Pull.Shifted shift) m (s.pulled G st) (s'.pulled G st') :=
        .limit (s.pull_tends G st).rising (s'.pull_tends G st').rising
          fun n => pull_shifted hG n hs hst
      rw [answers, answers]
      refine hpulled.bind fun m' hm pulled pulled' st st' hst hpulled => ?_
      refine (ih hpulled.2 hst).bind fun m'' hm' os os' st st' hst hos => ?_
      exact .pure hst (.cons (optionRel_imp (fun _ _ h => h.mono hm') hpulled.1) hos)

end Outcomes

/-! ## From a place on -/

/-- Start a parser on a new source and pull `k` times: the answers in order. -/
noncomputable def Parser.answersOn (G : Grammar σ ε ρ) (p : Parser σ ε ρ α) (source : Source σ)
    (k : Nat) (st : Store σ ε) : Run σ ε (List (Option (Outcome σ α))) :=
  (Run.limit fun n => p.startOn G n source st).bind fun s st => s.answers G k st

/-- A start on a new source is a start at its first cursor. -/
theorem Parser.answersOn_eq (G : Grammar σ ε ρ) (p : Parser σ ε ρ α) (source : Source σ) (k : Nat)
    (st : Store σ ε) : p.answersOn G source k st =
      p.answers G (source.cursorAt st.chains.size 0) k (st.attach source).2 :=
  rfl

/-- The two runs end in the same way, with results that are related or with the same fault, in
    whatever stores. -/
inductive Run.Matches {δ : Type u} (R : δ → δ → Prop) : Run σ ε δ → Run σ ε δ → Prop where
  | done {b b' : δ} (st st' : Store σ ε) (h : R b b') : Matches R (.done b st) (.done b' st')
  | fault (x : Fault) (st st' : Store σ ε) : Matches R (.fault x st) (.fault x st')
  | unfinished : Matches R .unfinished .unfinished

theorem Run.Shifted.matches {shift : Shift σ} {δ : Type u} {post : Nat → δ → δ → Prop}
    {R : δ → δ → Prop} {m : Nat} {r r' : Run σ ε δ} (h : Run.Shifted shift post m r r')
    (hR : ∀ m (st st' : Store σ ε) b b', shift.Stores m st st' → post m b b' → R b b') :
    Run.Matches R r r' := by
  cases h with
  | done _ hst hpost => exact .done _ _ (hR _ _ _ _ _ hst hpost)
  | fault x st st' => exact .fault x st st'
  | unfinished => exact .unfinished

/-- The first outcome is the second one, moved `i` places on. -/
structure Outcome.Moved (i : Nat) (o o' : Outcome σ α) : Prop where
  value     : o.value = o'.value
  position  : o.cursor.position = i + o'.cursor.position
  current   : o.cursor.current = o'.cursor.current
  exhausted : o.cursor.isExhausted = o'.cursor.isExhausted

theorem Outcome.Shifted.moved {shift : Shift σ} {m : Nat} {st st' : Store σ ε}
    (hst : shift.Stores m st st') {o o' : Outcome σ α} (h : o.Shifted shift m o') :
    o.Moved shift.offset o' where
  value := h.1
  position := h.2.position_eq
  current := (hst.current_eq h.2).symm
  exhausted := by rw [Cursor.isExhausted, Cursor.isExhausted, hst.current_eq h.2]

/-- **SHIFT INVARIANCE.** Callers start a parser at one of their cursors, whoever else has been on
    that source and however far; and the same parser is started on a new source, which delivers the
    symbols from that cursor on, in whatever other world. Then any number of pulls gives the same on
    both sides: as many outcomes, with equal values, or the same fault, or no answer at all. Each
    outcome of the first run is as many places further on as the cursor was, and shows the same
    symbol or the same end. -/
theorem Parser.answers_moved [Carrier σ] {w w' : World σ ε} (hw : w.Reachable) (hw' : w'.Reachable)
    {c : Cursor σ} (hc : c ∈ w.cursors) {chain : Chain σ}
    (hchain : w.store.chains[c.source]? = some chain) {fresh : Source σ}
    (hfresh : fresh.Resumes chain.source c.position) {G : Grammar σ ε ρ} (hG : G.Shiftable)
    {p : Parser σ ε ρ α} (hp : p.Shiftable) (k : Nat) :
    Run.Matches (List.Forall₂ (Option.Rel (Outcome.Moved c.position)))
      (p.answers G c k w.store) (p.answersOn G fresh k w'.store) := by
  obtain ⟨hcursor, hfeeds⟩ := hw.sound.feeds hc hchain
  let shift : Shift σ :=
    ⟨chain.source, c.source, c.position, fresh, w'.store.chains.size, hfresh⟩
  have hplaces : shift.Places 1 c (fresh.cursorAt w'.store.chains.size 0) :=
    ⟨0, Nat.one_pos, hcursor, rfl⟩
  have hstores : shift.Stores 1 w.store (w'.store.attach fresh).2 :=
    ⟨hfeeds, hw'.sound.intact.feeds_attach fresh⟩
  have hstarted : Run.Shifted shift (fun m s s' => s.Shifted shift m s') 1 (p.started G c w.store)
      (p.started G (fresh.cursorAt w'.store.chains.size 0) (w'.store.attach fresh).2) :=
    .limit (p.start_tends G _ _).rising (p.start_tends G _ _).rising
      fun n => p.start_shifted hG n hp hplaces hstores
  have hanswers := hstarted.bind fun m _ s s' st st' hst hs =>
    Outcomes.answers_shifted hG k hs hst
  rw [answersOn_eq]
  refine hanswers.matches fun m st st' os os' hst hos => ?_
  exact hos.imp fun x y => optionRel_imp fun o o' ho => ho.moved hst

/-- A world in which a source of two symbols has been read to its end. -/
def World.explored : World Nat Unit :=
  let second := pair.store.advance ⟨0, 0, 0, some 7⟩
  let third := second.2.advance ⟨0, 1, 1, some 8⟩
  ⟨third.2, third.1.toList ++ (second.1.toList ++ pair.cursors), []⟩

theorem World.reachable_explored [Carrier Nat] : explored.Reachable := by
  have hsecond := Relation.ReflTransGen.tail reachable_pair
    (.advance (c := ⟨0, 0, 0, some 7⟩) (List.mem_singleton.mpr rfl))
  exact hsecond.tail (.advance (c := ⟨0, 1, 1, some 8⟩) (List.mem_cons_self ..))

/-- Rows of symbols behind the first one, where all has been read before, and on a new source. -/
theorem Parser.many_item_answers_moved :
    let _ : Carrier Nat := .none
    let p : Parser Nat Unit (fun _ => Empty) (List Nat) := .many .item
    World.explored.Reachable ∧ (Source.ofList [8]).Resumes (.ofList [7, 8]) 1 ∧
      Run.Matches (List.Forall₂ (Option.Rel (Outcome.Moved 1)))
        (p.answers .empty ⟨0, 1, 1, some 8⟩ 3 World.explored.store)
        (p.answersOn .empty (.ofList [8]) 3 World.pair.store) := by
  intro _ p
  have hfresh : (Source.ofList [8]).Resumes (.ofList [7, 8]) 1 := by
    intro j _
    rw [Source.answer_ofList, Source.answer_ofList, Nat.add_comm]
    rfl
  have hp : p.Shiftable := trivial
  refine ⟨World.reachable_explored, hfresh, ?_⟩
  exact answers_moved World.reachable_explored World.reachable_pair
    (List.mem_cons_of_mem _ (List.mem_cons_self ..)) rfl hfresh (fun _ r => r.elim) hp 3

end Backtrack

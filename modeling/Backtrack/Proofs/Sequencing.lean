import Backtrack.Proofs.ChoiceLaws

/-!
# Sequencing — every combinator of a row is a `bind`

Two parsers in a row, a function on the values and a test of the values could all be written with
`bind`. They have sequences of their own instead, which have less to carry. This file shows that
nothing else sets them apart: pull by pull they give the answers of their `bind`, make the same
calls in the same order and leave the same store.

All of them are layers around the sequence of the first parser (`Outcomes.Layer`): a layer looks for
an outcome that it has in hand, and then takes those of the sequence one by one. Two layers are
*alike* when they have corresponding things in hand, before and after each outcome that they take.
The loop over the outcomes is the same for all layers, so it is gone through once: around one
sequence, layers that are alike are bisimilar (`Outcomes.Layer.Alike.bisimulation`). What is left
for each combinator is what it does with a single outcome.

At the end of the sequence `bind` puts everything away, while `map` and `filter` would ask the
sequence again. So for these two it matters that ends are final.
-/

namespace Backtrack

universe u v w w'

variable {σ ε : Type} {ρ : Type → Type} {α β γ : Type}

namespace Run

variable {δ : Type u} {η : Type v} {R S : δ → η → Prop} {r : Run σ ε δ} {r' : Run σ ε η}

theorem Agrees.follows (h : Agrees R r r') : Follows R r r' := by
  cases h with
  | done st h => exact .done st h
  | fault x st => exact .fault x st
  | unfinished => exact .unfinished _

theorem Follows.imp (h : Follows R r r') (hRS : ∀ a b, R a b → S a b) : Follows S r r' := by
  cases h with
  | done st h => exact .done st (hRS _ _ h)
  | fault x st => exact .fault x st
  | unfinished => exact .unfinished _

end Run

/-- Make a call when the parser is started, and go on with the parser that its result chooses. -/
def Parser.calling (call : Call ε α) (next : α → Parser σ ε ρ β) : Parser σ ε ρ β :=
  .remark (fun _ => call.notes) <|
    match call.result with
    | .ok a    => next a
    | .error x => .abort x

theorem Parser.started_calling (G : Grammar σ ε ρ) (call : Call ε α)
    (next : α → Parser σ ε ρ β) (c : Cursor σ) (st : Store σ ε) :
    (calling call next).started G c st = (call.run st).bind fun a st => (next a).started G c st := by
  rw [calling, started_remark, Call.run]
  cases call.result with
  | ok a => rfl
  | error x => exact started_abort G c _ x

namespace Outcomes.Layer

variable {G : Grammar σ ε ρ} {ι : Type w} {κ : Type w'}

/-! ## Layers that are alike -/

section

variable (G) (L : Layer σ ε ρ ι α β) (L' : Layer σ ε ρ κ α β)

/-- The layer works turn by turn, under every allowance and without one. -/
structure Regular : Prop where
  pull_within : ∀ n i s st, ((L.around i s).pull G (n + 1) st).Within
    (L.turn G (fun i s st => (L.around i s).pull G n st) i s st)
  pulled : ∀ i s st, (L.around i s).pulled G st = L.turn G (L.pulls G) i s st
  pulled_spent : ∀ st, (L.spent .empty).pulled G st = .done ⟨none, L.spent .empty⟩ st

theorem Lawful.regular {L : Layer σ ε ρ ι α β} (h : L.Lawful G) : L.Regular G :=
  ⟨h.pull_within, h.pulled, h.pulled_spent⟩

/-- Two layers have made the same outcome, if any, and what they have in hand corresponds. -/
def Made (R : ι → κ → Prop) (x : Option (Outcome σ β) × ι) (y : Option (Outcome σ β) × κ) : Prop :=
  x.1 = y.1 ∧ R x.2 y.2

/-- Whatever the layers do, they do together. -/
structure Alike (R : ι → κ → Prop) : Prop where
  idle : R L.idle L'.idle
  ask  : ∀ i j st, R i j → Run.Agrees (Made R) (L.ask i st) (L'.ask j st)
  take : ∀ o st, Run.Agrees (Made R) (L.take o st) (L'.take o st)

theorem Alike.symm {L : Layer σ ε ρ ι α β} {L' : Layer σ ε ρ κ α β} {R : ι → κ → Prop}
    (h : Alike L L' R) : Alike L' L fun j i => R i j := by
  have swap {x : Run σ ε (Option (Outcome σ β) × ι)} {y : Run σ ε (Option (Outcome σ β) × κ)}
      (h : Run.Agrees (Made R) x y) : Run.Agrees (Made fun j i => R i j) y x := by
    cases h with
    | done st h => exact .done st ⟨h.1.symm, h.2⟩
    | fault x st => exact .fault x st
    | unfinished => exact .unfinished
  exact ⟨h.idle, fun j i st hji => swap (h.ask i j st hji), fun o st => swap (h.take o st)⟩

/-- The layers stand around one sequence, which is put away at its end, or around nothing. -/
inductive Beside (R : ι → κ → Prop) : Outcomes σ ε ρ β → Outcomes σ ε ρ β → Prop where
  | around {i : ι} {j : κ} (h : R i j) (s : Outcomes σ ε ρ α) :
      Beside R (L.around i (.chained s [])) (L'.around j (.chained s []))
  | spent : Beside R (L.spent .empty) (L'.spent .empty)

theorem Beside.symm {L : Layer σ ε ρ ι α β} {L' : Layer σ ε ρ κ α β} {R : ι → κ → Prop}
    {s t : Outcomes σ ε ρ β} (h : Beside L L' R s t) : Beside L' L (fun j i => R i j) t s := by
  cases h with
  | around hij s => exact .around (R := fun j i => R i j) hij s
  | spent => exact .spent

end

namespace Alike

variable {L : Layer σ ε ρ ι α β} {L' : Layer σ ε ρ κ α β} {R : ι → κ → Prop}

/-- One turn of the one layer follows a turn of the other, as soon as this is so when they are
    pulled again. -/
theorem turn_follows (h : Alike L L' R)
    {again : ι → Outcomes σ ε ρ α → Store σ ε → Run σ ε (Pull σ ε ρ β)}
    {again' : κ → Outcomes σ ε ρ α → Store σ ε → Run σ ε (Pull σ ε ρ β)}
    (hagain : ∀ i j s st, R i j → Run.Follows (Pull.Matches (Beside L L' R))
      (again i (.chained s []) st) (again' j (.chained s []) st))
    {i : ι} {j : κ} (hij : R i j) (s : Outcomes σ ε ρ α) (st : Store σ ε) :
    Run.Follows (Pull.Matches (Beside L L' R)) (L.turn G again i (.chained s []) st)
      (L'.turn G again' j (.chained s []) st) := by
  rw [turn, turn]
  refine (h.ask i j st hij).follows.bind ?_
  rintro ⟨held, i⟩ ⟨_, j⟩ st ⟨rfl, hij⟩
  cases held with
  | some o => exact .done st ⟨rfl, .around hij s⟩
  | none =>
      dsimp only
      rw [pulled_chained_nil, Run.bind_assoc, Run.bind_assoc]
      refine (Run.Follows.refl (s.pulled G st)).bind ?_
      rintro ⟨_ | o, s⟩ _ st rfl
      · exact .done st ⟨rfl, .spent⟩
      · refine (h.take o st).follows.bind ?_
        rintro ⟨made, i⟩ ⟨_, j⟩ st ⟨rfl, hij⟩
        cases made with
        | some o => exact .done st ⟨rfl, .around hij s⟩
        | none => exact hagain i j s st hij

/-- The one layer, under any allowance, follows the other. -/
theorem around_follows (h : Alike L L' R) (hL : L.Regular G) (hL' : L'.Regular G) (n : Nat) :
    ∀ i j s st, R i j → Run.Follows (Pull.Matches (Beside L L' R))
      ((L.around i (.chained s [])).pull G n st) ((L'.around j (.chained s [])).pulled G st) := by
  induction n with
  | zero => intro i j s st _; exact .unfinished _
  | succ n ih =>
      intro i j s st hij
      refine (hL.pull_within n i (.chained s []) st).follows ?_
      rw [hL'.pulled]
      exact h.turn_follows ih hij s st

/-- **LAYERS THAT ARE ALIKE ARE BISIMILAR** around one sequence. -/
theorem bisimulation (h : Alike L L' R) (hL : L.Regular G) (hL' : L'.Regular G) :
    Bisimulation G (Beside L L' R) := by
  intro s s' hs st
  cases hs with
  | @around i j hij s =>
      refine .of_follows (.limit fun n => h.around_follows hL hL' n i j s st hij) ?_
      refine (Run.Follows.limit fun n => h.symm.around_follows hL' hL n j i s st hij).imp ?_
      exact fun x y hxy => ⟨hxy.1.symm, hxy.2.symm⟩
  | spent =>
      rw [hL.pulled_spent, hL'.pulled_spent]
      exact .done st ⟨rfl, .spent⟩

end Alike

end Outcomes.Layer

/-! ## Two layers for a row -/

/-- What a layer has in hand after a pull of the sequence in hand: at its end, nothing more. -/
def Pull.inHand : Pull σ ε ρ α → Option (Outcome σ α) × Outcomes σ ε ρ α
  | ⟨some o, s⟩ => (some o, s)
  | ⟨none, _⟩   => (none, .empty)

/-- The same with the value that came before the sequence in hand, which goes into each outcome. -/
def Pull.inHandWith (f : α → β → γ) (a : α) :
    Pull σ ε ρ β → Option (Outcome σ γ) × Option (α × Outcomes σ ε ρ β)
  | ⟨some o, s⟩ => (some (o.withValue (f a o.value)), some (a, s))
  | ⟨none, _⟩   => (none, none)

namespace Outcomes.Layer

variable {G : Grammar σ ε ρ}

variable (G) in
/-- Behind each outcome comes a continuation. It is pulled as soon as it is started. -/
noncomputable def continuing (next : α → Parser σ ε ρ β) :
    Layer σ ε ρ (Outcomes σ ε ρ β) α β where
  idle := .empty
  ask inner st := (inner.pulled G st).bind fun x st => .done x.inHand st
  take o st := ((next o.value).started G o.cursor st).bind fun inner st =>
    (inner.pulled G st).bind fun x st => .done x.inHand st
  around inner s := .bound next s inner
  spent _ := .empty
  wrap p := p.bind next

variable (G) in
/-- Behind each outcome comes a second parser, and the two values are combined. -/
noncomputable def pairing (f : α → β → γ) (q : Parser σ ε ρ β) :
    Layer σ ε ρ (Option (α × Outcomes σ ε ρ β)) α γ where
  idle := none
  ask held st :=
    match held with
    | none            => .done (none, none) st
    | some (a, inner) => (inner.pulled G st).bind fun x st => .done (x.inHandWith f a) st
  take o st := (q.started G o.cursor st).bind fun inner st =>
    (inner.pulled G st).bind fun x st => .done (x.inHandWith f o.value) st
  around held s :=
    match held with
    | none            => .paired f q s none .empty
    | some (a, inner) => .paired f q s (some a) inner
  spent _ := .empty
  wrap p := .seq f p q

theorem pull_bound_within (next : α → Parser σ ε ρ β) (s : Outcomes σ ε ρ α)
    (inner : Outcomes σ ε ρ β) (n : Nat) (st : Store σ ε) :
    ((Outcomes.bound next s inner).pull G n st).Within
      ((inner.pulled G st).bind fun x st =>
        match x.inHand with
        | (some o, inner) => .done ⟨some o, .bound next s inner⟩ st
        | (none, inner)   => (Outcomes.bound next s inner).pull G n st) := by
  cases n with
  | zero => exact .unfinished _
  | succ n =>
      refine ((inner.pull_tends G st).rising.within_limit n).bind fun x st => ?_
      rcases x with ⟨_ | o, inner⟩
      · cases n with
        | zero => exact .unfinished _
        | succ n => exact .refl _
      · exact .refl _

theorem regular_continuing (next : α → Parser σ ε ρ β) : (continuing G next).Regular G where
  pull_within n inner s st := by
    show Run.Within _ (Run.bind (Run.bind _ _) _)
    rw [Run.bind_assoc]
    refine ((inner.pull_tends G st).rising.within_limit n).bind fun x st => ?_
    rcases x with ⟨_ | o, inner⟩
    · refine ((s.pull_tends G st).rising.within_limit n).bind fun x st => ?_
      rcases x with ⟨_ | o, s⟩
      · exact .refl _
      · show Run.Within _ (Run.bind (Run.bind _ _) _)
        rw [Run.bind_assoc]
        refine (((next o.value).start_tends G o.cursor st).rising.within_limit n).bind ?_
        intro inner st
        rw [Run.bind_assoc]
        refine (pull_bound_within next s inner n st).trans ?_
        refine (Run.Within.refl _).bind fun x st => ?_
        rcases x with ⟨_ | o, inner⟩ <;> exact .refl _
    · exact .refl _
  pulled inner s st := by
    show (Outcomes.bound next s inner).pulled G st = Run.bind (Run.bind _ _) _
    rw [pulled_bound, Run.bind_assoc]
    refine Run.bind_congr fun x st _ => ?_
    rcases x with ⟨_ | o, inner⟩
    · refine Run.bind_congr fun x st _ => ?_
      rcases x with ⟨_ | o, s⟩
      · rfl
      · show _ = Run.bind (Run.bind _ _) _
        rw [Run.bind_assoc]
        refine Run.bind_congr fun inner st _ => ?_
        rw [Run.bind_assoc, pulled_bound]
        refine Run.bind_congr fun x st _ => ?_
        rcases x with ⟨_ | o, inner⟩
        · exact (pulled_bound_empty next s st).symm
        · rfl
    · rfl
  pulled_spent st := pulled_empty st

theorem pull_paired_within (f : α → β → γ) (q : Parser σ ε ρ β) (s : Outcomes σ ε ρ α) (a : α)
    (inner : Outcomes σ ε ρ β) (n : Nat) (st : Store σ ε) :
    ((Outcomes.paired f q s (some a) inner).pull G n st).Within
      ((inner.pulled G st).bind fun x st =>
        match x with
        | ⟨some o, inner⟩ =>
            .done ⟨some (o.withValue (f a o.value)), .paired f q s (some a) inner⟩ st
        | ⟨none, _⟩       => (Outcomes.paired f q s none .empty).pull G n st) := by
  cases n with
  | zero => exact .unfinished _
  | succ n =>
      refine ((inner.pull_tends G st).rising.within_limit n).bind fun x st => ?_
      rcases x with ⟨_ | o, inner⟩
      · exact (Outcomes.paired f q s none .empty).pull_within_succ G n st
      · exact .refl _

theorem regular_pairing (f : α → β → γ) (q : Parser σ ε ρ β) : (pairing G f q).Regular G where
  pull_within n held s st := by
    -- nothing is in hand, and the next outcome is taken
    have next (st : Store σ ε) :
        ((Outcomes.paired f q s none .empty).pull G (n + 1) st).Within
          ((s.pulled G st).bind ((pairing G f q).feed fun i s st =>
            ((pairing G f q).around i s).pull G n st)) := by
      refine ((s.pull_tends G st).rising.within_limit n).bind fun x st => ?_
      rcases x with ⟨_ | o, s⟩
      · exact .refl _
      · show Run.Within _ (Run.bind (Run.bind _ _) _)
        rw [Run.bind_assoc]
        refine ((q.start_tends G o.cursor st).rising.within_limit n).bind fun inner st => ?_
        rw [Run.bind_assoc]
        refine (pull_paired_within f q s o.value inner n st).trans ?_
        refine (Run.Within.refl _).bind fun x st => ?_
        rcases x with ⟨_ | o, inner⟩ <;> exact .refl _
    cases held with
    | none => exact next st
    | some held =>
        obtain ⟨a, inner⟩ := held
        show Run.Within _ (Run.bind (Run.bind _ _) _)
        rw [Run.bind_assoc]
        refine (pull_paired_within f q s a inner (n + 1) st).trans ?_
        refine (Run.Within.refl _).bind fun x st => ?_
        rcases x with ⟨_ | o, inner⟩
        · exact next st
        · exact .refl _
  pulled held s st := by
    have next (st : Store σ ε) :
        (Outcomes.paired f q s none .empty).pulled G st =
          (s.pulled G st).bind ((pairing G f q).feed ((pairing G f q).pulls G)) := by
      rw [pulled_paired_none]
      refine Run.bind_congr fun x st _ => ?_
      rcases x with ⟨_ | o, s⟩
      · rfl
      · show _ = Run.bind (Run.bind _ _) _
        rw [Run.bind_assoc]
        refine Run.bind_congr fun inner st _ => ?_
        rw [Run.bind_assoc, pulled_paired_some]
        refine Run.bind_congr fun x st _ => ?_
        rcases x with ⟨_ | o, inner⟩ <;> rfl
    cases held with
    | none => exact next st
    | some held =>
        obtain ⟨a, inner⟩ := held
        show (Outcomes.paired f q s (some a) inner).pulled G st = Run.bind (Run.bind _ _) _
        rw [Run.bind_assoc, pulled_paired_some]
        refine Run.bind_congr fun x st _ => ?_
        rcases x with ⟨_ | o, inner⟩
        · exact next st
        · rfl
  pulled_spent st := pulled_empty st

/-! ## What is done with an outcome -/

/-- The second parser in hand, and what the continuation makes of it. -/
inductive Wrapped (wrap : α → Outcomes σ ε ρ β → Outcomes σ ε ρ γ) :
    Option (α × Outcomes σ ε ρ β) → Outcomes σ ε ρ γ → Prop where
  | none : Wrapped wrap none .empty
  | some (a : α) (inner : Outcomes σ ε ρ β) : Wrapped wrap (some (a, inner)) (wrap a inner)

section

variable {wrap : α → Outcomes σ ε ρ β → Outcomes σ ε ρ γ}

/-- A second parser does what a continuation does that wraps its sequence up. -/
theorem alike_pairing {f : α → β → γ} {q : Parser σ ε ρ β} {next : α → Parser σ ε ρ γ}
    (hstart : ∀ a c st, (next a).started G c st =
      (q.started G c st).bind fun inner st => .done (wrap a inner) st)
    (hpulled : ∀ a inner st, (wrap a inner).pulled G st = (inner.pulled G st).bind fun x st =>
      match x with
      | ⟨some o, inner⟩ => .done ⟨some (o.withValue (f a o.value)), wrap a inner⟩ st
      | ⟨none, inner⟩   => .done ⟨none, wrap a inner⟩ st) :
    Alike (pairing G f q) (continuing G next) (Wrapped wrap) := by
  have pulls (a : α) (inner : Outcomes σ ε ρ β) (st : Store σ ε) :
      Run.Agrees (Made (Wrapped wrap))
        ((inner.pulled G st).bind fun x st => .done (x.inHandWith f a) st)
        (((wrap a inner).pulled G st).bind fun x st => .done x.inHand st) := by
    rw [hpulled, Run.bind_assoc]
    refine (Run.Agrees.refl (inner.pulled G st)).bind ?_
    rintro ⟨_ | o, inner⟩ _ st rfl
    · exact .done st ⟨rfl, .none⟩
    · exact .done st ⟨rfl, .some a inner⟩
  refine ⟨.none, fun i j st hij => ?_, fun o st => ?_⟩
  · cases hij with
    | none =>
        show Run.Agrees _ _ (Run.bind (Outcomes.pulled G .empty st) _)
        rw [pulled_empty]
        exact .done st ⟨rfl, .none⟩
    | some a inner => exact pulls a inner st
  · show Run.Agrees _ _ (Run.bind ((next o.value).started G o.cursor st) _)
    rw [hstart, Run.bind_assoc]
    refine (Run.Agrees.refl (q.started G o.cursor st)).bind ?_
    rintro inner _ st rfl
    exact pulls o.value inner st

end

theorem alike_pairing_map (f : α → β → γ) (q : Parser σ ε ρ β) :
    Alike (pairing G f q) (continuing G fun a => q.mapPure (f a))
      (Wrapped fun a => .mapped fun o => (Call.pure (f a o.value)).map o.withValue) := by
  refine alike_pairing (fun a c st => Parser.started_map G c st _ q) fun a inner st => ?_
  rw [pulled_mapped]
  refine Run.bind_congr fun x st _ => ?_
  rcases x with ⟨_ | o, inner⟩ <;> rfl

theorem alike_pairing_snd (q : Parser σ ε ρ β) :
    Alike (pairing G (fun (_ : α) b => b) q) (continuing G fun _ => q)
      (Wrapped fun _ inner => inner) := by
  refine alike_pairing (fun a c st => ?_) fun a inner st => ?_
  · cases q.started G c st <;> rfl
  · cases inner.pulled G st with
    | done x st => rcases x with ⟨_ | o, inner⟩ <;> rfl
    | fault x st => rfl
    | unfinished => rfl

/-- A layer with nothing in hand is like a continuation that has none. -/
theorem alike_continuing {L : Layer σ ε ρ Unit α β} {next : α → Parser σ ε ρ β}
    (hask : ∀ st, L.ask () st = .done (none, ()) st)
    (htake : ∀ o st, Run.Agrees (Made fun _ inner => inner = .empty) (L.take o st)
      (((next o.value).started G o.cursor st).bind fun inner st =>
        (inner.pulled G st).bind fun x st => .done x.inHand st)) :
    Alike L (continuing G next) fun _ inner => inner = .empty := by
  refine ⟨rfl, fun _ inner st hinner => ?_, htake⟩
  show Run.Agrees _ (L.ask () st) (Run.bind (inner.pulled G st) _)
  rw [hask, hinner, pulled_empty]
  exact .done st ⟨rfl, rfl⟩

theorem alike_mapping (m : α → Call ε β) :
    Alike (mapping m) (continuing G fun x => .calling (m x) .unit) fun _ inner => inner = .empty := by
  refine alike_continuing (fun st => rfl) fun o st => ?_
  rw [Parser.started_calling, Run.bind_assoc]
  show Run.Agrees _ (Run.bind (Call.run ((m o.value).map o.withValue) st) _) _
  rw [Call.run, Call.run, Call.map]
  cases (m o.value).result with
  | ok b =>
      show Run.Agrees _ (.done (some (o.withValue b), ()) _)
        (((Parser.unit b).started G o.cursor _).bind _)
      rw [Parser.started_unit, Run.done_bind, pulled_ready_cons]
      exact .done _ ⟨rfl, rfl⟩
  | error x => exact .fault x _

theorem alike_filtering (d : α → Call ε Bool) :
    Alike (filtering d)
      (continuing G fun x => .calling (d x) fun ok => if ok then .unit x else .fail)
      fun _ inner => inner = .empty := by
  refine alike_continuing (fun st => rfl) fun o st => ?_
  rw [Parser.started_calling, Run.bind_assoc]
  refine (Run.Agrees.refl ((d o.value).run st)).bind ?_
  rintro ok _ st rfl
  cases ok with
  | true =>
      show Run.Agrees _ (.done (some o, ()) st)
        (((Parser.unit o.value).started G o.cursor st).bind _)
      rw [Parser.started_unit, Run.done_bind, pulled_ready_cons]
      exact .done st ⟨rfl, rfl⟩
  | false =>
      show Run.Agrees _ (.done (none, ()) st) ((Parser.fail.started G o.cursor st).bind _)
      rw [Parser.started_fail, Run.done_bind, pulled_empty]
      exact .done st ⟨rfl, rfl⟩

end Outcomes.Layer

/-! ## The definitions by `bind` -/

namespace Outcomes.Layer

variable {G : Grammar σ ε ρ} {ι : Type w} {κ : Type w'}

variable (G) in
/-- The answers of the parser with the layer are those of the layer around the sequence of the
    parser itself, put away at its end. -/
def Begins (L : Layer σ ε ρ ι α β) (p : Parser σ ε ρ α) (c : Cursor σ) (st : Store σ ε) : Prop :=
  ∀ k, (L.wrap p).answers G c (k + 1) st = (p.started G c st).bind fun s st =>
    (L.around L.idle (.chained s [])).answers G (k + 1) st

/-- Layers that are alike make parsers with the same answers. -/
theorem Alike.sameAnswers {L : Layer σ ε ρ ι α β} {L' : Layer σ ε ρ κ α β} {R : ι → κ → Prop}
    (h : Alike L L' R) (hL : L.Regular G) (hL' : L'.Regular G) {p : Parser σ ε ρ α} {c : Cursor σ}
    {st : Store σ ε} (hbegins : L.Begins G p c st) (hbegins' : L'.Begins G p c st) (k : Nat) :
    (L.wrap p).SameAnswers G c (k + 1) st (L'.wrap p) := by
  rw [Parser.SameAnswers, hbegins, hbegins']
  refine Run.bind_congr fun s st _ => ?_
  exact (h.bisimulation hL hL').answers (k + 1) _ _ (.around h.idle s) st

theorem begins_continuing (next : α → Parser σ ε ρ β) (p : Parser σ ε ρ α) (c : Cursor σ)
    (st : Store σ ε) : (continuing G next).Begins G p c st := by
  intro k
  show (p.bind next).answers G c (k + 1) st = _
  rw [Parser.answers, Parser.started_bind, Run.done_bind]
  exact answers_succ_of_started _ (pulled_bound_deferred next p c st) k

theorem begins_pairing (f : α → β → γ) (q : Parser σ ε ρ β) (p : Parser σ ε ρ α) (c : Cursor σ)
    (st : Store σ ε) : (pairing G f q).Begins G p c st := by
  intro k
  show (Parser.seq f p q).answers G c (k + 1) st = _
  rw [Parser.answers, Parser.started_seq, Run.done_bind]
  refine answers_succ_of_started (fun s => .paired f q (.chained s []) none .empty) ?_ k
  rw [pulled_paired_none, deferred, pulled_chained_empty, Run.bind_assoc]
  refine Run.bind_congr fun s st _ => ?_
  exact (pulled_paired_none G st f q _ .empty).symm

/-- A layer that starts the parser at once comes to the same if its end is final. -/
theorem Lawful.begins {L : Layer σ ε ρ ι α β} (hL : L.Lawful G) {p : Parser σ ε ρ α}
    {c : Cursor σ} {st : Store σ ε}
    (hend : ∀ s st', p.started G c st = .done s st' → ∀ k,
      (L.around L.idle s).answers G k st' = (L.around L.idle (.chained s [])).answers G k st') :
    L.Begins G p c st := by
  intro k
  rw [Parser.answers_succ, hL.started, Run.bind_assoc]
  refine Run.bind_congr fun s st' hstart => ?_
  exact hend s st' hstart (k + 1)

end Outcomes.Layer

namespace Outcomes

variable {G : Grammar σ ε ρ} [Carrier σ]

theorem answers_mapped_chained (f : Outcome σ α → Call ε (Outcome σ β)) (k : Nat) :
    ∀ {s : Outcomes σ ε ρ α} {st : Store σ ε}, s.Sound G st → s.Final st →
      (mapped f s).answers G k st = (mapped f (.chained s [])).answers G k st := by
  induction k with
  | zero => intro s st _ _; rfl
  | succ k ih =>
      intro s st hs hfinal
      rw [answers, answers, pulled_mapped, pulled_mapped, pulled_chained_nil, Run.bind_assoc,
        Run.bind_assoc, Run.bind_assoc]
      refine Run.bind_congr fun pulled st₁ hpulled => ?_
      rcases pulled with ⟨answer, rest⟩
      obtain ⟨n, hn⟩ := (pulled_eq_done_iff G st).mp hpulled
      obtain ⟨hrest, hover⟩ := Sound.pull_final n s hs hfinal hn
      have hsound := (hs.pulled hpulled).1
      cases answer with
      | none =>
          have hempty : (empty : Outcomes σ ε ρ α).Over st₁ := .ready
          dsimp only [Run.bind]
          rw [((hover rfl).mapped f).answers k hsound.intact,
            (hempty.mapped f).answers k hsound.intact]
      | some o =>
          show Run.bind (Run.bind _ _) _ = Run.bind (Run.bind _ _) _
          rw [Run.bind_assoc, Run.bind_assoc]
          refine Run.bind_congr fun o' st₂ hcall => ?_
          have hlater := Call.later_of_run hsound.intact hcall
          dsimp only [Run.bind]
          rw [ih (hsound.later hlater) (Final.later hlater hrest)]

theorem answers_filtered_chained (d : α → Call ε Bool) (k : Nat) {s : Outcomes σ ε ρ α}
    {st : Store σ ε} (hs : s.Sound G st) (hfinal : s.Final st) :
    (filtered (fun o => d o.value) s).answers G k st =
      (filtered (fun o => d o.value) (.chained s [])).answers G k st := by
  let t : Outcomes σ ε ρ α := .filtered (fun o => d o.value) s
  have ht : t.Sound G st := ⟨hs.intact, hs.grammar, hs.held⟩
  calc t.answers G k st
      = (chained t []).answers G k st := (passes_chained_nil.answers k ht hfinal).symm
    _ = _ := ((Layer.lawful_filtering d).bisimulation_distributed.answers k _ _
        (.around () s []) st).symm

end Outcomes

/-- **EVERYTHING IN A ROW IS A BIND, PULL BY PULL.** Callers who have got to a world by whatever
    steps start parsers at one of their cursors and make one pull or more. Then two parsers in a
    row, with both values, the second or the first, come to a `bind` whose continuation is the
    second parser; `map` comes to a `bind` whose continuation calls the function and succeeds with
    the result; and `filter` to one whose continuation makes the test and succeeds or fails: the
    same answers, with equal values at the same places, or the same fault, or no answer at all; and
    the same store in the end, with the same reads and the same remarks in the same order in its
    log. As both parsers may remark on their every start, and the function and the test on their
    every call, all of these are called in the same order. Of parsers of the caller's own making
    that are started with the first parser it is assumed that their own sequences end for good. -/
theorem Parser.sequencing_by_bind [Carrier σ] {w : World σ ε} (hw : w.Reachable)
    {G : Grammar σ ε ρ} (hG : G.Honest w.known) (hGfinal : G.Final w.known) {p : Parser σ ε ρ α}
    (q : Parser σ ε ρ β) (m : α → Call ε γ) (d : α → Call ε Bool) (hp : p.Honest w.known)
    (hpfinal : p.Final w.known) {c : Cursor σ} (hc : c ∈ w.cursors) (k : Nat) :
    SameAnswers G c (k + 1) w.store (p.and q) (p.bind fun a => q.mapPure fun b => (a, b)) ∧
      SameAnswers G c (k + 1) w.store (p.andRight q) (p.bind fun _ => q) ∧
      SameAnswers G c (k + 1) w.store (p.andLeft q) (p.bind fun a => q.mapPure fun _ => a) ∧
      SameAnswers G c (k + 1) w.store (p.map m) (p.bind fun x => calling (m x) unit) ∧
      SameAnswers G c (k + 1) w.store (p.filter d)
        (p.bind fun x => calling (d x) fun ok => if ok then unit x else fail) := by
  have hsound {s : Outcomes σ ε ρ α} {st : Store σ ε} (h : p.started G c w.store = .done s st) :
      s.Sound G st ∧ s.Final st :=
    ⟨(hw.sound.started hG hp hc h).1, hw.sound.started_final hGfinal hpfinal hc h⟩
  have bind_begins {δ : Type} (next : α → Parser σ ε ρ δ) :
      (Outcomes.Layer.continuing G next).Begins G p c w.store :=
    Outcomes.Layer.begins_continuing next p c w.store
  refine ⟨?_, ?_, ?_, ?_, ?_⟩
  · exact (Outcomes.Layer.alike_pairing_map _ q).sameAnswers
      (Outcomes.Layer.regular_pairing _ q) (Outcomes.Layer.regular_continuing _)
      (Outcomes.Layer.begins_pairing _ q p c w.store) (bind_begins _) k
  · exact (Outcomes.Layer.alike_pairing_snd q).sameAnswers
      (Outcomes.Layer.regular_pairing _ q) (Outcomes.Layer.regular_continuing _)
      (Outcomes.Layer.begins_pairing _ q p c w.store) (bind_begins _) k
  · exact (Outcomes.Layer.alike_pairing_map _ q).sameAnswers
      (Outcomes.Layer.regular_pairing _ q) (Outcomes.Layer.regular_continuing _)
      (Outcomes.Layer.begins_pairing _ q p c w.store) (bind_begins _) k
  · refine (Outcomes.Layer.alike_mapping m).sameAnswers (Outcomes.Layer.lawful_mapping m).regular
      (Outcomes.Layer.regular_continuing _) ?_ (bind_begins _) k
    refine (Outcomes.Layer.lawful_mapping m).begins fun s st hstart k => ?_
    exact Outcomes.answers_mapped_chained _ k (hsound hstart).1 (hsound hstart).2
  · refine (Outcomes.Layer.alike_filtering d).sameAnswers
      (Outcomes.Layer.lawful_filtering d).regular (Outcomes.Layer.regular_continuing _) ?_
      (bind_begins _) k
    refine (Outcomes.Layer.lawful_filtering d).begins fun s st hstart k => ?_
    exact Outcomes.answers_filtered_chained d k (hsound hstart).1 (hsound hstart).2

/-- The equations for a parser of the caller's own making and three pulls, with a function and a
    test that remark on their calls. -/
theorem Parser.single_sequencing_by_bind :
    let c : Cursor Nat := ⟨0, 0, 0, some 7⟩
    let st := World.pair.store
    let p : Parser Nat Unit (fun _ => Empty) Nat := .single 5
    let q : Parser Nat Unit (fun _ => Empty) Nat := .or .item (.unit 6)
    let m : Nat → Call Unit Nat := fun v => ⟨[()], .ok (v + 1)⟩
    let d : Nat → Call Unit Bool := fun v => ⟨[()], .ok (decide (v = 5))⟩
    let same {δ : Type} (p q : Parser Nat Unit (fun _ => Empty) δ) : Prop :=
      SameAnswers .empty c 3 st p q
    same (p.and q) (p.bind fun a => q.mapPure fun b => (a, b)) ∧
      same (p.andRight q) (p.bind fun _ => q) ∧
      same (p.andLeft q) (p.bind fun a => q.mapPure fun _ => a) ∧
      same (p.map m) (p.bind fun x => calling (m x) unit) ∧
      same (p.filter d) (p.bind fun x => calling (d x) fun ok => if ok then unit x else fail) := by
  intro c st p q m d same
  let _ : Carrier Nat := .none
  exact sequencing_by_bind World.reachable_pair (fun _ r => r.elim) (fun _ r => r.elim) q m d
    (honest_single 5 _) (final_single 5 World.pair.known) (List.mem_singleton.mpr rfl) 2

end Backtrack

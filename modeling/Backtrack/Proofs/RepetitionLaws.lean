import Backtrack.Proofs.Remainders
import Backtrack.Proofs.Rows
import Backtrack.Proofs.Sequencing

/-!
# Repetition laws — repetition within the algebra

A repetition is a walk with a stack of its own. Here it is measured against the other combinators,
pull by pull: any number of occurrences is one or more of them or none at all, and one or more is
one of them, followed by any number.

Every stack that is met with is *rooted* (`Frames.Rooted`): its lowest frame stands where the walk
began and has no value, and all other frames have one.

* `many` and `many1` go through the same stacks and give the same rows, until the lowest frame is
  spent (`Pull.Parted`). Then the one gives the empty row and the other gives nothing, and a choice
  goes on with the empty row that waits there.
* Behind a first occurrence, `many1` has two frames on its stack where `many`, started after this
  occurrence, has one (`Frames.onto`). Up to this they go through the same stacks. A first
  occurrence that consumes nothing would end its row instead; so here it matters that every
  occurrence at the start consumes something.
-/

namespace Backtrack

open Store

universe u v

variable {σ ε : Type} {ρ : Type → Type} {α β : Type}

theorem Run.Agrees.unfinished_iff {δ : Type u} {η : Type v} {R : δ → η → Prop} {r : Run σ ε δ}
    {r' : Run σ ε η} (h : Agrees R r r') : r = .unfinished ↔ r' = .unfinished := by
  cases h with
  | done => exact ⟨nofun, nofun⟩
  | fault => exact ⟨nofun, nofun⟩
  | unfinished => exact ⟨fun _ => rfl, fun _ => rfl⟩

/-- Sequences that agree under every allowance agree without one. -/
theorem Outcomes.pulled_agrees {G : Grammar σ ε ρ} {R : Pull σ ε ρ α → Pull σ ε ρ β → Prop}
    {s : Outcomes σ ε ρ α} {t : Outcomes σ ε ρ β} {st : Store σ ε}
    (h : ∀ n, Run.Agrees R (s.pull G n st) (t.pull G n st)) :
    Run.Agrees R (s.pulled G st) (t.pulled G st) :=
  Run.limit_rel (s.pull_tends G st).rising (t.pull_tends G st).rising h Run.Agrees.unfinished_iff

namespace Frames

/-- The lowest frame stands at this cursor and has no value, and all others have one. -/
inductive Rooted (c : Cursor σ) : Frames σ ε ρ α → Prop where
  | root (s : Outcomes σ ε ρ α) : Rooted c (push s c none .bottom)
  | upon (s : Outcomes σ ε ρ α) (d : Cursor σ) (a : α) {below : Frames σ ε ρ α}
      (h : Rooted c below) : Rooted c (push s d (some a) below)

variable {c d : Cursor σ} {frames below : Frames σ ε ρ α} {s t : Outcomes σ ε ρ α}
  {value : Option α}

/-- It makes no difference which occurrences are left on top. -/
theorem Rooted.retop (h : Rooted c (push s d value below)) : Rooted c (push t d value below) := by
  cases h with
  | root => exact .root t
  | upon s d a h => exact .upon t d a h

end Frames

/-! ## One or more, or none at all -/

section

variable {G : Grammar σ ε ρ} (f : List α → β) (p : Parser σ ε ρ α) (c : Cursor σ)

/-- The pulls of the two walks come to the same, except that for the empty row the one gives it and
    the other gives nothing. -/
inductive Pull.Parted : Pull σ ε ρ β → Pull σ ε ρ β → Prop where
  | same (o : Outcome σ β) {frames : Frames σ ε ρ α} (h : frames.Rooted c) :
      Parted ⟨some o, .repeating 0 f p none frames⟩ ⟨some o, .repeating 1 f p none frames⟩
  | last : Parted ⟨some ⟨f [], c⟩, .repeating 0 f p none .bottom⟩
      ⟨none, .repeating 1 f p none .bottom⟩

variable {c}

theorem Frames.Rooted.pull_parted (n : Nat) : ∀ (frames : Frames σ ε ρ α) (st : Store σ ε),
    frames.Rooted c → Run.Agrees (Pull.Parted f p c)
      ((Outcomes.repeating 0 f p none frames).pull G n st)
      ((Outcomes.repeating 1 f p none frames).pull G n st) := by
  induction n with
  | zero => intro frames st _; exact .unfinished
  | succ n ih =>
      intro frames st hrooted
      cases frames with
      | bottom => exact nomatch hrooted
      | push s d value below =>
          cases n with
          | zero => exact .unfinished
          | succ n =>
              refine (Run.Agrees.refl (s.pull G (n + 1) st)).bind ?_
              rintro ⟨_ | o, s'⟩ _ st rfl
              · cases hrooted with
                | root => exact .done st .last
                | upon s d a hbelow =>
                    have hlong : 1 ≤ ((push s' d (some a) below).values []).length := by
                      rw [Frames.values_push, Frames.values_eq_append]
                      simp
                    dsimp only
                    rw [if_pos (Nat.zero_le _), if_pos hlong]
                    exact .done st (.same _ hbelow)
              · dsimp only
                split
                · exact .done st (.same _ hrooted.retop)
                · refine (Run.Agrees.refl (p.start G (n + 1) o.cursor st)).bind ?_
                  rintro t _ st rfl
                  exact ih _ st (.upon t o.cursor o.value hrooted.retop)

/-- A walk with rows of any length, and a choice that will end with the empty row. -/
inductive Outcomes.Tailed (p : Parser σ ε ρ α) (c : Cursor σ) :
    Outcomes σ ε ρ (List α) → Outcomes σ ε ρ (List α) → Prop where
  | walking {frames : Frames σ ε ρ α} (h : frames.Rooted c) :
      Tailed p c (.repeating 0 id p none frames)
        (.chained (.repeating 1 id p none frames) [(.unit [], c)])
  | last : Tailed p c (.repeating 0 id p none .bottom) (.chained (.ready []) [])
  | spent : Tailed p c (.repeating 0 id p none .bottom) .empty

theorem Outcomes.bisimulation_tailed : Bisimulation G (Tailed p c) := by
  intro s s' h st
  cases h with
  | @walking frames hrooted =>
      have hparted := pulled_agrees (G := G) fun n => hrooted.pull_parted id p n frames st
      rw [pulled_chained]
      revert hparted
      generalize (repeating 0 id p none frames).pulled G st = r
      generalize (repeating 1 id p none frames).pulled G st = r'
      intro hparted
      cases hparted with
      | fault x st => exact .fault x st
      | unfinished => exact .unfinished
      | done st h =>
          cases h with
          | same o hframes => exact .done st ⟨rfl, .walking hframes⟩
          | last =>
              rw [Run.done_bind]
              dsimp only
              rw [Parser.started_unit, Run.done_bind, pulled_chained_nil, pulled_ready_cons]
              exact .done st ⟨rfl, .last⟩
  | last =>
      rw [pulled_repeating_bottom, pulled_chained_nil, pulled_ready_nil]
      exact .done st ⟨rfl, .spent⟩
  | spent =>
      rw [pulled_repeating_bottom, pulled_empty]
      exact .done st ⟨rfl, .spent⟩

theorem Parser.many_sameAnswers (c : Cursor σ) (k : Nat) (st : Store σ ε) :
    SameAnswers G c (k + 1) st p.many (p.many1.or (.unit [])) := by
  refine (Outcomes.bisimulation_tailed (c := c) p).parser_answers ?_ k
  rw [many, started_repetition, Run.done_bind, Outcomes.pulled_repeating_root, started_or,
    Run.done_bind, Outcomes.pulled_chained_empty, many1, started_repetition, Run.done_bind,
    Outcomes.pulled_chained, Outcomes.pulled_repeating_root, Run.bind_assoc]
  refine (Run.Agrees.refl (p.started G c st)).bind ?_
  rintro s _ st rfl
  rw [← Outcomes.pulled_chained]
  exact Outcomes.bisimulation_tailed p _ _ (.walking (.root s)) st

end

/-! ## One occurrence, then any number -/

/-- The frames as they stand on top of `root` in a longer row: the lowest of them has got the value
    that led to it from there. -/
def Frames.onto : Frames σ ε ρ α → α → Frames σ ε ρ α → Frames σ ε ρ α
  | .bottom,               _, root => root
  | .push s c value below, v, root => .push s c (some (value.getD v)) (below.onto v root)

theorem Frames.Rooted.values_onto {c d : Cursor σ} {frames : Frames σ ε ρ α} (h : frames.Rooted d)
    (s : Outcomes σ ε ρ α) (v : α) : ∀ tail,
      (frames.onto v (.push s c none .bottom)).values tail = v :: frames.values tail := by
  induction h with
  | root => intro tail; rfl
  | upon _ _ a _ ih => intro tail; exact ih (a :: tail)

section

variable {G : Grammar σ ε ρ} (p : Parser σ ε ρ α) (c : Cursor σ) (s : Outcomes σ ε ρ α) (v : α)

/-- The walk that has found `v` first gives it in front of what the walk started behind it gives,
    and its stack has the frame where `v` was found below that of the other. -/
inductive Pull.Led (d : Cursor σ) : Pull σ ε ρ (List α) → Pull σ ε ρ (List α) → Prop where
  | led (row : List α) (e : Cursor σ) {frames : Frames σ ε ρ α}
      (h : frames.Rooted d ∨ frames = .bottom) :
      Led d ⟨some ⟨v :: row, e⟩, .repeating 1 id p none (frames.onto v (.push s c none .bottom))⟩
        ⟨some ⟨row, e⟩, .repeating 0 id p none frames⟩

theorem Frames.Rooted.pull_led {d : Cursor σ} (n : Nat) : ∀ (frames : Frames σ ε ρ α)
    (st : Store σ ε), frames.Rooted d → Run.Agrees (Pull.Led p c s v d)
      ((Outcomes.repeating 1 id p none (frames.onto v (.push s c none .bottom))).pull G n st)
      ((Outcomes.repeating 0 id p none frames).pull G n st) := by
  induction n with
  | zero => intro frames st _; exact .unfinished
  | succ n ih =>
      intro frames st hrooted
      cases frames with
      | bottom => exact nomatch hrooted
      | push t e value below =>
          refine (Run.Agrees.refl (t.pull G n st)).bind ?_
          rintro ⟨answer, t'⟩ _ st rfl
          have htop : (push t' e value below).Rooted d := hrooted.retop
          have hrow := htop.values_onto (c := c) s v
          cases answer with
          | none =>
              -- the row is at an end, and it is longer by one on the one side
              have hbelow : below.Rooted d ∨ below = .bottom := by
                cases hrooted with
                | root => exact Or.inr rfl
                | upon _ _ _ h => exact Or.inl h
              dsimp only [onto] at hrow ⊢
              rw [hrow, List.length_cons, if_pos (Nat.le_add_left 1 _)]
              exact .done st (.led _ e hbelow)
          | some o =>
              dsimp only [onto] at hrow ⊢
              split
              · rw [hrow]
                exact .done st (.led _ o.cursor (Or.inl htop))
              · refine (Run.Agrees.refl (p.start G n o.cursor st)).bind ?_
                rintro u _ st rfl
                exact ih _ st (.upon u o.cursor o.value htop)

end

/-- The sequence of the pairs of a first occurrence and the others, put together. -/
def Outcomes.consing (p : Parser σ ε ρ α) (s : Outcomes σ ε ρ α) (held : Option α)
    (inner : Outcomes σ ε ρ (List α)) : Outcomes σ ε ρ (List α) :=
  .mapped (fun o => (Call.pure (o.value.1 :: o.value.2)).map o.withValue)
    (.paired Prod.mk p.many (.chained s []) held inner)

section

variable [Carrier σ] {G : Grammar σ ε ρ} {p : Parser σ ε ρ α} {c : Cursor σ}
  {os : List (Outcome σ α)} {s s' t : Outcomes σ ε ρ α} {st st₁ st₂ st₀ : Store σ ε}

/-- Behind an occurrence that consumes something the row goes on, soundly. -/
theorem Outcomes.Sound.longer {least : Nat} {f : List α → β} {d : Cursor σ} {value : Option α}
    {below : Frames σ ε ρ α} {o : Outcome σ α}
    (h : (repeating least f p none (.push s d value below)).Sound G st)
    (hs : s.pulled G st = .done ⟨some o, s'⟩ st₁) (hmoved : o.cursor.position ≠ d.position)
    (ht : p.started G o.cursor st₁ = .done t st₂) :
    (repeating least f p none (.push t o.cursor (some o.value) (.push s' d value below))).Sound
      G st₂ := by
  obtain ⟨n, hn⟩ := (pulled_eq_done_iff G st).mp hs
  obtain ⟨m, hm⟩ := (Parser.started_eq_done_iff G o.cursor st₁).mp ht
  -- the greater of the two allowances is enough for both
  have hs' : s.pull G (max n m) st = .done ⟨some o, s'⟩ st₁ :=
    (s.pull_eq_of_le G (Nat.le_max_left n m) st (by rw [hn]; exact nofun)).trans hn
  have ht' : p.start G (max n m) o.cursor st₁ = .done t st₂ :=
    (p.start_eq_of_le G (Nat.le_max_right n m) o.cursor st₁ (by rw [hm]; exact nofun)).trans hm
  exact ((Job.Calls.longer (c := d) hs' hmoved ht').sound h).1

variable (G p c st₀) in
/-- Behind each first occurrence, `k` pulls of the walk give the answers of the pairs. -/
def Outcomes.ConsesAt (k : Nat) : Prop :=
  ∀ (os : List (Outcome σ α)) (s : Outcomes σ ε ρ α) (frames : Frames σ ε ρ α) (d : Cursor σ)
    (st : Store σ ε) (v : α), p.Leaves G c os s st → st₀.ReadOn st →
    (repeating 1 id p none (frames.onto v (.push s c none .bottom))).Sound G st →
    (frames.Rooted d ∨ frames = .bottom) →
    (repeating 1 id p none (frames.onto v (.push s c none .bottom))).answers G k st =
      (consing p s (some v) (repeating 0 id p none frames)).answers G k st

namespace Outcomes

/-- As long as the inner walk goes on, the two give the same rows. -/
theorem ConsesAt.succ_rooted {k : Nat} (ih : ConsesAt G p c st₀ k) {frames : Frames σ ε ρ α}
    {d : Cursor σ} (v : α) (hleaves : p.Leaves G c os s st) (hread : st₀.ReadOn st)
    (hsound : (repeating 1 id p none (frames.onto v (.push s c none .bottom))).Sound G st)
    (hrooted : frames.Rooted d) :
    (repeating 1 id p none (frames.onto v (.push s c none .bottom))).answers G (k + 1) st =
      (consing p s (some v) (repeating 0 id p none frames)).answers G (k + 1) st := by
  have hled := pulled_agrees (G := G) fun n => hrooted.pull_led p c s v n frames st
  rw [answers, answers, consing, pulled_mapped, pulled_paired_some, Run.bind_assoc]
  generalize hleft : (repeating 1 id p none (frames.onto v (.push s c none .bottom))).pulled G st = r
    at hled ⊢
  generalize (repeating 0 id p none frames).pulled G st = r' at hled ⊢
  cases hled with
  | fault x st => rfl
  | unfinished => rfl
  | @done _ _ st' h =>
      cases h with
      | @led row e frames' hframes =>
          have hread' := hsound.readOn hleft
          have hanswers := ih _ _ _ _ _ v (hleaves.later hread') (hread.trans hread')
            (hsound.pulled hleft).1 hframes
          rw [consing] at hanswers
          show Run.bind (answers G k _ st') _ = Run.bind (answers G k _ st') _
          rw [hanswers]
          rfl

omit [Carrier σ] in
/-- A first occurrence is found, and the inner walk is begun behind it. -/
theorem pulled_consing_of_some {o : Outcome σ α} (hs : s.pulled G st = .done ⟨some o, s'⟩ st₁) :
    (consing p s none .empty).pulled G st = (p.started G o.cursor st₁).bind fun t st =>
      (consing p s' (some o.value) (repeating 0 id p none (.push t o.cursor none .bottom))).pulled
        G st := by
  rw [consing, pulled_mapped, pulled_paired_none, pulled_chained_nil, hs]
  simp only [Run.done_bind, Parser.many, Parser.started_repetition]
  rw [pulled_paired_some, pulled_repeating_root, Run.bind_assoc, Run.bind_assoc]
  refine Run.bind_congr fun t st _ => ?_
  rw [consing, pulled_mapped, Parser.many, pulled_paired_some, Run.bind_assoc]

omit [Carrier σ] in
/-- When the inner walk is over, the next first occurrence is asked for. -/
theorem pulled_consing_spent (v : α) :
    (consing p s (some v) (repeating 0 id p none .bottom)).pulled G st =
      (consing p s none .empty).pulled G st := by
  rw [consing, consing, pulled_mapped, pulled_mapped, pulled_paired_some, pulled_repeating_bottom]
  rfl

/-- At the next first occurrence the two give the same rows, if it consumes something. -/
theorem ConsesAt.succ_root {k : Nat} (ih : ConsesAt G p c st₀ k)
    (hmoves : ∀ os o s st', p.Delivers G c st₀ (os ++ [o]) s st' → o.cursor.position ≠ c.position)
    (hparser : p.Sound G c st₀) (hleaves : p.Leaves G c os s st) (hread : st₀.ReadOn st)
    (hsound : (repeating 1 id p none (.push s c none .bottom)).Sound G st) :
    (repeating 1 id p none (.push s c none .bottom)).answers G (k + 1) st =
      (consing p s none .empty).answers G (k + 1) st := by
  cases hs : s.pulled G st with
  | fault x st₁ =>
      refine answers_succ_congr ?_ k
      rw [pulled_repeating_push, consing, pulled_mapped, pulled_paired_none, pulled_chained_nil, hs]
      rfl
  | unfinished =>
      refine answers_succ_congr ?_ k
      rw [pulled_repeating_push, consing, pulled_mapped, pulled_paired_none, pulled_chained_nil, hs]
      rfl
  | done x st₁ =>
      obtain ⟨answer, s'⟩ := x
      cases answer with
      | none =>
          have hintact := (hleaves.sequence.pulled hs).1.intact
          have hover : (empty : Outcomes σ ε ρ (α × List α)).Over st₁ := .ready
          rw [answers, answers, pulled_repeating_push, consing, pulled_mapped, pulled_paired_none,
            pulled_chained_nil, hs]
          show Run.bind ((repeating 1 id p none .bottom).pulled G st₁) _ =
            Run.bind (answers G k (.mapped _ .empty) st₁) _
          rw [pulled_repeating_bottom, Run.done_bind, Over.answers k (.repeating 1 id p) hintact,
            (hover.mapped _).answers k hintact]
      | some o =>
          obtain ⟨own, hown⟩ := (hparser.delivers_iff hread).mp (hleaves.gives hs)
          have hmoved := hmoves _ _ _ _ hown
          have hleaves₁ := hleaves.pull hs
          obtain ⟨hs', -, ho⟩ := hleaves.sequence.pulled hs
          have hpo : p.Sound G o.cursor st₁ := hs'.parser hleaves₁.parser.honest (ho o rfl).1
          rw [answers, answers, pulled_consing_of_some hs, pulled_repeating_push, hs, Run.done_bind]
          dsimp only
          rw [if_neg hmoved, Run.bind_assoc, Run.bind_assoc]
          refine Run.bind_congr fun t st₂ ht => ?_
          have hread₂ := (hpo.started ht).2
          have hread' := (hread.trans (hleaves.sequence.readOn hs)).trans hread₂
          have hlonger : (repeating 1 id p none ((Frames.push t o.cursor none .bottom).onto o.value
              (.push s' c none .bottom))).Sound G st₂ := hsound.longer hs hmoved ht
          exact ih.succ_rooted o.value (hleaves₁.later hread₂) hread' hlonger (.root t)

/-- **BEHIND A FIRST OCCURRENCE** the walk gives the rows of the pairs, pull by pull. -/
theorem consesAt
    (hmoves : ∀ os o s st', p.Delivers G c st₀ (os ++ [o]) s st' → o.cursor.position ≠ c.position)
    (hparser : p.Sound G c st₀) (k : Nat) : ConsesAt G p c st₀ k := by
  induction k with
  | zero => intro os s frames d st v _ _ _ _; rfl
  | succ k ih =>
      intro os s frames d st v hleaves hread hsound hframes
      rcases hframes with hrooted | rfl
      · exact ih.succ_rooted v hleaves hread hsound hrooted
      · rw [answers_succ_congr (pulled_consing_spent v) k]
        exact ih.succ_root hmoves hparser hleaves hread hsound

end Outcomes

/-- The first frame is on the stack. -/
theorem Outcomes.Sound.rooted {least : Nat} {f : List α → β}
    (h : (repeating least f p (some c) .bottom).Sound G st) (hs : p.started G c st = .done s st₁) :
    (repeating least f p none (.push s c none .bottom)).Sound G st₁ := by
  obtain ⟨n, hn⟩ := (Parser.started_eq_done_iff G c st).mp hs
  exact ((Job.Calls.rooted (c := c) hn).sound h).1

theorem Parser.Sound.many1_sameAnswers {st : Store σ ε} (h : p.many1.Sound G c st)
    (hmoves : ∀ os o s st', p.Delivers G c st (os ++ [o]) s st' → o.cursor.position ≠ c.position)
    (k : Nat) : SameAnswers G c (k + 1) st p.many1
      ((p.and p.many).mapPure fun pair => pair.1 :: pair.2) := by
  have hroot := (h.started (started_repetition G c st 1 id p)).1
  have hparser : p.Sound G c st := ⟨h.intact, h.grammar, h.honest.1, h.holds⟩
  have hleft : (Outcomes.repeating 1 id p (some c) .bottom).answers G (k + 1) st =
      (p.started G c st).bind fun s st =>
        (Outcomes.repeating 1 id p none (.push s c none .bottom)).answers G (k + 1) st :=
    Outcomes.answers_succ_of_started (fun s => .repeating 1 id p none (.push s c none .bottom))
      (Outcomes.pulled_repeating_root ..) k
  have hright : (Outcomes.mapped (fun o => (Call.pure (o.value.1 :: o.value.2)).map o.withValue)
      (.paired Prod.mk p.many (.deferred p c) none .empty)).answers G (k + 1) st =
        (p.started G c st).bind fun s st =>
          (Outcomes.consing p s none .empty).answers G (k + 1) st := by
    refine Outcomes.answers_succ_of_started (fun s => .consing p s none .empty) ?_ k
    rw [Outcomes.pulled_mapped, Outcomes.pulled_paired_none, Outcomes.deferred,
      Outcomes.pulled_chained_empty, Run.bind_assoc, Run.bind_assoc]
    refine Run.bind_congr fun s st _ => ?_
    rw [Outcomes.consing, Outcomes.pulled_mapped, Outcomes.pulled_paired_none, Run.bind_assoc]
  rw [SameAnswers, answers, answers, many1, started_repetition, Run.done_bind, hleft, mapPure,
    started_map, Parser.and, started_seq, Run.done_bind, Run.done_bind]
  refine Eq.trans ?_ hright.symm
  refine Run.bind_congr fun s st' hstart => ?_
  exact (Outcomes.consesAt hmoves hparser k).succ_root hmoves hparser (.start hparser hstart)
    (hparser.started hstart).2 (hroot.rooted hstart)

/-- **REPETITION LAWS, PULL BY PULL.** Callers who have got to a world by whatever steps start
    parsers at one of their cursors and make one pull or more. Then any number of occurrences of a
    parser comes to a choice of one occurrence or more and the empty row. And if every outcome that
    the parser gives where it is started lies elsewhere, one occurrence or more comes to a pair of
    one occurrence and any number of others, put together: the same answers, with equal rows at the
    same places, or the same fault, or no answer at all; and the same store in the end, with the
    same reads and the same remarks in its log. -/
theorem Parser.repetition_laws {w : World σ ε} (hw : w.Reachable) (hG : G.Honest w.known)
    (hp : p.many.Honest w.known) (hc : c ∈ w.cursors) (k : Nat) :
    SameAnswers G c (k + 1) w.store p.many (p.many1.or (.unit [])) ∧
      ((∀ os o s st', p.Delivers G c w.store (os ++ [o]) s st' → o.cursor.position ≠ c.position) →
        SameAnswers G c (k + 1) w.store p.many1
          ((p.and p.many).mapPure fun pair => pair.1 :: pair.2)) := by
  have hmany1 : p.many1.Sound G c w.store := hw.sound.parser hG hp hc
  exact ⟨many_sameAnswers p c k w.store, fun hmoves => hmany1.many1_sameAnswers hmoves k⟩

end

/-- The laws for the item parser and three pulls, which give two rows and the end of one occurrence
    or more. -/
theorem Parser.item_repetition_laws :
    let c : Cursor Nat := ⟨0, 0, 0, some 7⟩
    let st := World.pair.store
    let p : Parser Nat Unit (fun _ => Empty) Nat := .item
    let same (p q : Parser Nat Unit (fun _ => Empty) (List Nat)) : Prop :=
      SameAnswers .empty c 3 st p q
    (∀ os o s st', p.Delivers .empty c st (os ++ [o]) s st' → o.cursor.position ≠ c.position) ∧
      same p.many (p.many1.or (.unit [])) ∧
      same p.many1 ((p.and p.many).mapPure fun pair => pair.1 :: pair.2) := by
  intro c st p same
  let _ : Carrier Nat := .none
  have hplain : p.many.Plain := trivial
  have hmoves (os) (o : Outcome Nat Nat) (s) (st') (h : p.Delivers .empty c st (os ++ [o]) s st') :
      o.cursor.position ≠ c.position := by
    obtain ⟨s₀, st₀, hstart, hyields⟩ := h
    cases hstart.symm.trans (started_anySymbol .empty c st id)
    have hpulled : (Outcomes.consuming id c).pulled .empty st =
        .done ⟨some ⟨7, ⟨0, 1, 1, some 8⟩⟩, .empty⟩ (st.advance c).2 :=
      Outcomes.pulled_consuming .empty c st id
    cases os with
    | nil =>
        obtain _ | ⟨first, -⟩ := hyields
        cases hpulled.symm.trans first
        exact Nat.one_ne_zero
    | cons o' os =>
        obtain _ | ⟨first, rest⟩ := hyields
        cases hpulled.symm.trans first
        exact absurd (Outcomes.yields_empty rest) (by simp)
  obtain ⟨hmany, hmany1⟩ := repetition_laws World.reachable_pair (fun _ r => r.elim)
    (hplain.honest _) (List.mem_singleton.mpr rfl) 2
  exact ⟨hmoves, hmany, hmany1 hmoves⟩

end Backtrack

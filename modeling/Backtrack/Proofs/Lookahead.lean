import Backtrack.Proofs.Lifetime
import Backtrack.Proofs.MonadLaws
import Backtrack.Proofs.Termination

/-!
# Look-ahead — how far a parser without repetition can see

A parser that is put together from single symbols by sequence and choice has a *width*, the number
of symbols that it can consume. It is read off the parser, and no matter what the source has to say,
the parser ends, its outcomes lie no further on than its width, and the source is read no further
than to the place behind that: this is the place that an outcome at the far end has to show.

The bound on the reads is one on all branches of the search at once, those that lead nowhere and
those that others have been to before. So it is shown of the sequence as it stands between two
pulls: whatever it may still do lies between two positions (`Outcomes.Between`), and a pull that
looks no further leaves such a sequence.
-/

namespace Backtrack

open Store

universe u v

variable {σ ε : Type} {ρ : Type → Type} {α β γ : Type}

/-- How many symbols the parser can consume, if it is put together from single symbols by sequence
    and choice, with functions and tests anywhere. -/
def Parser.width? : {α : Type} → Parser σ ε ρ α → Option Nat
  | _, .unit _         => some 0
  | _, .fail           => some 0
  | _, .finish _       => some 0
  | _, .anySymbol _    => some 1
  | _, .testSymbol _ _ => some 1
  | _, .map _ p        => p.width?
  | _, .filter _ p     => p.width?
  | _, .spanning _ p   => p.width?
  | _, .seq _ p q      => p.width?.bind fun m => q.width?.map fun n => m + n
  | _, .or p q         => p.width?.bind fun m => q.width?.map fun n => max m n
  | _, _               => none

/-- What an action may do that looks to position `b` of source `i`: read this source, if it has not
    been read that far, and leave remarks. -/
structure Store.LooksTo (i b : Nat) (st st' : Store σ ε) : Prop where
  later  : st.Later st'
  reads  : st'.readsOf i ≤ max (st.readsOf i) (b + 1)
  others : ∀ k, k ≠ i → st'.readsOf k = st.readsOf k

/-- However the run ends, it has looked no further than to position `b` of source `i`. A result is
    as it should be. -/
def Run.LooksTo {δ : Type u} (i b : Nat) (st : Store σ ε) (post : δ → Store σ ε → Prop) :
    Run σ ε δ → Prop
  | .done x st'  => st.LooksTo i b st' ∧ post x st'
  | .fault _ st' => st.LooksTo i b st'
  | .unfinished  => True

/-- A place of source `i` that the store holds, between two positions. -/
structure Cursor.Between (st : Store σ ε) (i a b : Nat) (c : Cursor σ) : Prop where
  holds  : st.Holds c
  source : c.source = i
  lower  : a ≤ c.position
  upper  : c.position ≤ b

/-- Whatever the sequence may still do lies between the positions `a` and `b` of source `i`. -/
inductive Outcomes.Between (st : Store σ ε) (i a : Nat) : {α : Type} → Outcomes σ ε ρ α → Nat →
    Prop where
  | ready {α : Type} {os : List (Outcome σ α)} {b : Nat}
      (h : ∀ o ∈ os, o.cursor.Between st i a b) : Between st i a (.ready os) b
  /-- The symbol at the cursor is still to be consumed. -/
  | consuming {α : Type} {f : σ → α} {c : Cursor σ} {b : Nat} (h : c.Between st i a b) :
      Between st i a (.consuming f c) (b + 1)
  | mapped {α β : Type} {f : Outcome σ α → Call ε (Outcome σ β)} {s : Outcomes σ ε ρ α} {b : Nat}
      (hf : ∀ o o', (f o).result = .ok o' → o'.cursor = o.cursor) (h : Between st i a s b) :
      Between st i a (.mapped f s) b
  | filtered {α : Type} {test : Outcome σ α → Call ε Bool} {s : Outcomes σ ε ρ α} {b : Nat}
      (h : Between st i a s b) : Between st i a (.filtered test s) b
  | chained {α : Type} {s : Outcomes σ ε ρ α} {waiting : List (Parser σ ε ρ α × Cursor σ)}
      {b : Nat} (h : Between st i a s b)
      (hwaiting : ∀ w ∈ waiting, ∃ m n, w.1.width? = some n ∧ w.2.Between st i a m ∧ m + n ≤ b) :
      Between st i a (.chained s waiting) b
  /-- The first sequence leaves room for the second parser. -/
  | paired {α β γ : Type} {f : α → β → γ} {q : Parser σ ε ρ β} {outer : Outcomes σ ε ρ α}
      {held : Option α} {inner : Outcomes σ ε ρ β} {b m n : Nat} (hq : q.width? = some n)
      (houter : Between st i a outer m) (hinner : Between st i a inner b) (hroom : m + n ≤ b) :
      Between st i a (.paired f q outer held inner) b

/-! ## Looking no further -/

section

variable {i a b b' : Nat} {st st' st'' : Store σ ε}

namespace Store.LooksTo

theorem refl (h : st.Intact) : st.LooksTo i b st :=
  ⟨.refl h, Nat.le_max_left _ _, fun _ _ => rfl⟩

theorem trans (h : st.LooksTo i b st') (h' : st'.LooksTo i b st'') : st.LooksTo i b st'' where
  later := h.later.trans h'.later
  reads := by
    have := h.reads
    have := h'.reads
    omega
  others k hk := (h'.others k hk).trans (h.others k hk)

theorem mono (h : st.LooksTo i b st') (hb : b ≤ b') : st.LooksTo i b' st' :=
  ⟨h.later, Nat.le_trans h.reads (by omega), h.others⟩

theorem remark (h : st.Intact) (notes : List ε) : st.LooksTo i b (st.remark notes) := by
  have hreads (k : Nat) : (st.remark notes).readsOf k = st.readsOf k := by
    rw [readsOf, readsOf, chains_remark]
  exact ⟨.remark h notes, by rw [hreads]; exact Nat.le_max_left _ _, fun k _ => hreads k⟩

end Store.LooksTo

namespace Run.LooksTo

variable {δ : Type u} {η : Type v} {post : δ → Store σ ε → Prop} {post' : η → Store σ ε → Prop}
  {r : Run σ ε δ}

theorem pure (h : st.Intact) {x : δ} (hx : post x st) :
    (Run.done x st).LooksTo i b st post :=
  ⟨.refl h, hx⟩

theorem after (h : st.LooksTo i b st') (hr : r.LooksTo i b st' post) : r.LooksTo i b st post := by
  cases r with
  | done x st'' => exact ⟨h.trans hr.1, hr.2⟩
  | fault x st'' => exact h.trans hr
  | unfinished => trivial

theorem bind {next : δ → Store σ ε → Run σ ε η} (h : r.LooksTo i b st post)
    (hnext : ∀ x st', st.LooksTo i b st' → post x st' → (next x st').LooksTo i b st' post') :
    (r.bind next).LooksTo i b st post' := by
  cases r with
  | done x st' => exact (hnext x st' h.1 h.2).after h.1
  | fault x st' => exact h
  | unfinished => trivial

theorem imp {post₁ : δ → Store σ ε → Prop} (h : r.LooksTo i b st post) (hb : b ≤ b')
    (hpost : ∀ x st', post x st' → post₁ x st') : r.LooksTo i b' st post₁ := by
  cases r with
  | done x st' => exact ⟨h.1.mono hb, hpost x st' h.2⟩
  | fault x st' => exact Store.LooksTo.mono h hb
  | unfinished => trivial

theorem within {r' : Run σ ε δ} (h : r.LooksTo i b st post) (hr : r'.Within r) :
    r'.LooksTo i b st post := by
  rcases hr with rfl | rfl
  · trivial
  · exact h

theorem limit {r : Nat → Run σ ε δ} (h : ∀ n, (r n).LooksTo i b st post) :
    (Run.limit r).LooksTo i b st post := by
  rw [Run.limit]
  split
  · exact h _
  · trivial

end Run.LooksTo

theorem Call.run_looksTo (h : st.Intact) (call : Call ε β) :
    (call.run st).LooksTo i b st fun x _ => call.result = .ok x := by
  rw [Call.run]
  cases hresult : call.result with
  | ok x => exact ⟨.remark h _, rfl⟩
  | error x => exact Store.LooksTo.remark h _

/-! ## Places -/

variable {c : Cursor σ}

theorem Cursor.Between.later (h : c.Between st i a b) (hst : st.Intact) (hlater : st.Later st') :
    c.Between st' i a b :=
  ⟨hlater.grows.holds hst hlater.intact h.holds, h.source, h.lower, h.upper⟩

theorem Cursor.Between.mono (h : c.Between st i a b) (hb : b ≤ b') : c.Between st i a b' :=
  ⟨h.holds, h.source, h.lower, Nat.le_trans h.upper hb⟩

/-- **GOING ON** from a place looks to the place behind it. -/
theorem Cursor.Between.advance (h : c.Between st i a b) (hst : st.Intact) :
    st.LooksTo i (b + 1) (st.advance c).2 ∧
      ∀ d ∈ (st.advance c).1, d.Between (st.advance c).2 i a (b + 1) := by
  obtain ⟨source, hsource, hnode, hcursor⟩ := hst.holds_iff.mp h.holds
  obtain ⟨hfound, hspends⟩ := hst.advance_spec hsource hnode
  rw [← hcursor] at hfound hspends
  have hposition : c.position = c.node := congrArg Cursor.position hcursor
  have hlower := h.lower
  have hupper := h.upper
  obtain rfl := h.source
  refine ⟨⟨⟨hspends.intact, hspends.grows⟩, ?_, fun k hk => ?_⟩, fun d hd => ?_⟩
  · rw [hspends.reads, Source.demand]
    split <;> omega
  · rw [hspends.reads, Source.demand, if_neg fun hc => hk hc.1, Nat.max_zero]
  · rw [hfound] at hd
    obtain ⟨x, hx, rfl⟩ := Option.map_eq_some_iff.mp hd
    refine ⟨hspends.intact.holds_cursorAt ((hspends.sources _).trans hsource) ?_, rfl, ?_, ?_⟩
    · rw [hspends.reads, Source.demand, if_pos ⟨rfl, by rw [hx]; rfl⟩]
      omega
    · show a ≤ c.node + 1
      omega
    · show c.node + 1 ≤ b + 1
      omega

end

/-! ## Starting -/

section

variable {G : Grammar σ ε ρ} {i a b : Nat}

namespace Outcomes.Between

variable {st st' : Store σ ε} {s : Outcomes σ ε ρ α}

theorem empty : (Outcomes.empty : Outcomes σ ε ρ α).Between st i a b :=
  .ready nofun

/-- Others may work on the store. -/
theorem later (h : s.Between st i a b) (hst : st.Intact) (hlater : st.Later st') :
    s.Between st' i a b := by
  induction h with
  | ready h => exact .ready fun o ho => (h o ho).later hst hlater
  | consuming h => exact .consuming (h.later hst hlater)
  | mapped hf _ ih => exact .mapped hf ih
  | filtered _ ih => exact .filtered ih
  | chained _ hwaiting ih =>
      refine .chained ih fun w hw => ?_
      obtain ⟨m, n, hwidth, hplace, hroom⟩ := hwaiting w hw
      exact ⟨m, n, hwidth, hplace.later hst hlater, hroom⟩
  | paired hq _ _ hroom ihouter ihinner => exact .paired hq ihouter ihinner hroom

end Outcomes.Between

/-- **A START** looks no further than the width allows: it may only leave remarks. -/
theorem Parser.started_looksTo (p : Parser σ ε ρ α) : ∀ {m n b : Nat} {c : Cursor σ}
    {st : Store σ ε}, p.width? = some n → c.Between st i a m → m + n ≤ b → st.Intact →
    (p.started G c st).LooksTo i b st fun s st' => s.Between st' i a b := by
  induction p with
  | unit x =>
      intro m n b c st hwidth hc hroom hst
      rw [started_unit]
      exact .pure hst (.ready (List.forall_mem_singleton.mpr (hc.mono (by omega))))
  | fail =>
      intro m n b c st _ _ _ hst
      rw [started_fail]
      exact .pure hst .empty
  | anySymbol f =>
      intro m n b c st hwidth hc hroom hst
      obtain rfl := Option.some.inj hwidth
      obtain ⟨b, rfl⟩ : ∃ b', b = b' + 1 := ⟨b - 1, by omega⟩
      rw [started_anySymbol]
      exact .pure hst (.consuming (hc.mono (by omega)))
  | testSymbol test f =>
      intro m n b c st hwidth hc hroom hst
      obtain rfl := Option.some.inj hwidth
      obtain ⟨b, rfl⟩ : ∃ b', b = b' + 1 := ⟨b - 1, by omega⟩
      rw [started_testSymbol]
      cases c.current with
      | none => exact .pure hst .empty
      | some x =>
          refine (Call.run_looksTo hst (test x)).bind fun ok st' hlook _ => ?_
          refine .pure hlook.later.intact ?_
          cases ok with
          | false => exact .empty
          | true => exact .consuming ((hc.mono (by omega)).later hst hlook.later)
  | finish x =>
      intro m n b c st hwidth hc hroom hst
      rw [started_finish]
      refine .pure hst ?_
      split
      · exact .ready (List.forall_mem_singleton.mpr (hc.mono (by omega)))
      · exact .empty
  | map f p ih =>
      intro m n b c st hwidth hc hroom hst
      rw [started_map]
      refine (ih hwidth hc hroom hst).bind fun s st' hlook hs => ?_
      refine .pure hlook.later.intact (.mapped (fun o o' ho => ?_) hs)
      obtain ⟨x, -, rfl⟩ := Call.result_map_eq_ok.mp ho
      rfl
  | filter test p ih =>
      intro m n b c st hwidth hc hroom hst
      rw [started_filter]
      exact (ih hwidth hc hroom hst).bind fun s st' hlook hs =>
        .pure hlook.later.intact (.filtered hs)
  | spanning f p ih =>
      intro m n b c st hwidth hc hroom hst
      rw [started_spanning]
      refine (ih hwidth hc hroom hst).bind fun s st' hlook hs => ?_
      refine .pure hlook.later.intact (.mapped (fun o o' ho => ?_) hs)
      obtain rfl := Except.ok.inj ho
      rfl
  | seq f p q _ _ =>
      intro m n b c st hwidth hc hroom hst
      obtain ⟨j, hj, hwidth⟩ := Option.bind_eq_some_iff.mp hwidth
      obtain ⟨k, hk, rfl⟩ := Option.map_eq_some_iff.mp hwidth
      rw [started_seq]
      refine .pure hst (.paired hk (m := m + j) ?_ .empty (by omega))
      exact .chained .empty (List.forall_mem_singleton.mpr ⟨m, j, hj, hc, Nat.le_refl _⟩)
  | or p q _ _ =>
      intro m n b c st hwidth hc hroom hst
      obtain ⟨j, hj, hwidth⟩ := Option.bind_eq_some_iff.mp hwidth
      obtain ⟨k, hk, rfl⟩ := Option.map_eq_some_iff.mp hwidth
      rw [started_or]
      refine .pure hst (.chained .empty ?_)
      rw [List.forall_mem_cons, List.forall_mem_singleton]
      exact ⟨⟨m, j, hj, hc, by omega⟩, ⟨m, k, hk, hc, by omega⟩⟩
  | _ => intro m n b c st hwidth; exact nomatch hwidth

/-! ## Pulling -/

/-- The answer lies between the two positions, and so does what is left. -/
structure Pull.Between (i a b : Nat) (x : Pull σ ε ρ α) (st : Store σ ε) : Prop where
  answer : ∀ o ∈ x.answer, o.cursor.Between st i a b
  rest   : x.rest.Between st i a b

theorem Pull.Between.nothing {st : Store σ ε} {s : Outcomes σ ε ρ α} (h : s.Between st i a b) :
    Pull.Between i a b ⟨none, s⟩ st :=
  ⟨nofun, h⟩

theorem Pull.Between.something {st : Store σ ε} {o : Outcome σ α} {s : Outcomes σ ε ρ α}
    (ho : o.cursor.Between st i a b) (h : s.Between st i a b) :
    Pull.Between i a b ⟨some o, s⟩ st :=
  ⟨fun _ ho' => Option.some.inj ho' ▸ ho, h⟩

/-- **ONE PULL** looks no further than its sequence reaches. -/
theorem Outcomes.Between.pull (n : Nat) : ∀ {α : Type} {s : Outcomes σ ε ρ α} {b : Nat}
    {st : Store σ ε}, s.Between st i a b → st.Intact →
    (s.pull G n st).LooksTo i b st (Pull.Between i a b) := by
  induction n with
  | zero => intro α s b st _ _; trivial
  | succ n ih =>
      intro α s b st h hst
      -- what is started in the course of the pull
      have begins {β : Type} {p : Parser σ ε ρ β} {m k b : Nat} {c : Cursor σ} {st : Store σ ε}
          (hp : p.width? = some k) (hc : c.Between st i a m) (hroom : m + k ≤ b)
          (hst : st.Intact) :
          (p.start G n c st).LooksTo i b st fun s st' => s.Between st' i a b :=
        (p.started_looksTo hp hc hroom hst).within ((p.start_tends G c st).rising.within_limit n)
      cases h with
      | @ready _ os _ hos =>
          cases os with
          | nil => exact .pure hst (.nothing .empty)
          | cons o os =>
              obtain ⟨ho, hos⟩ := List.forall_mem_cons.mp hos
              exact .pure hst (.something ho (.ready hos))
      | @consuming _ f c b hc =>
          rw [Outcomes.pull]
          cases c.current with
          | none => exact .pure hst (.nothing .empty)
          | some x =>
              obtain ⟨hlook, hfound⟩ := hc.advance hst
              refine ⟨hlook, fun o ho => ?_, .empty⟩
              obtain ⟨d, hd, rfl⟩ := Option.map_eq_some_iff.mp ho
              exact hfound d hd
      | mapped hf hs =>
          rw [Outcomes.pull]
          refine (ih hs hst).bind fun x st₁ hlook₁ hx => ?_
          have hst₁ := hlook₁.later.intact
          rcases x with ⟨_ | o, s'⟩
          · exact .pure hst₁ (.nothing (.mapped hf hx.rest))
          · refine (Call.run_looksTo hst₁ _).bind fun o' st₂ hlook₂ ho' => ?_
            have hplace := (hx.answer o rfl).later hst₁ hlook₂.later
            rw [← hf o o' ho'] at hplace
            exact .pure hlook₂.later.intact
              (.something hplace (.mapped hf (hx.rest.later hst₁ hlook₂.later)))
      | filtered hs =>
          rw [Outcomes.pull]
          refine (ih hs hst).bind fun x st₁ hlook₁ hx => ?_
          have hst₁ := hlook₁.later.intact
          rcases x with ⟨_ | o, s'⟩
          · exact .pure hst₁ (.nothing (.filtered hx.rest))
          · refine (Call.run_looksTo hst₁ _).bind fun ok st₂ hlook₂ _ => ?_
            have hst₂ := hlook₂.later.intact
            have hrest := hx.rest.later hst₁ hlook₂.later
            cases ok with
            | true =>
                exact .pure hst₂ (.something ((hx.answer o rfl).later hst₁ hlook₂.later)
                  (.filtered hrest))
            | false => exact ih (.filtered hrest) hst₂
      | @chained _ s waiting _ hs hwaiting =>
          rw [Outcomes.pull]
          refine (ih hs hst).bind fun x st₁ hlook₁ hx => ?_
          have hst₁ := hlook₁.later.intact
          cases (Between.chained hs hwaiting).later hst hlook₁.later with
          | chained _ hwaiting₁ =>
              rcases x with ⟨_ | o, s'⟩
              · cases waiting with
                | nil => exact .pure hst₁ (.nothing .empty)
                | cons w waiting =>
                    -- the sequence is spent, and the first parser that waits is started
                    obtain ⟨⟨m, k, hp, hc, hroom⟩, hwaiting₂⟩ := List.forall_mem_cons.mp hwaiting₁
                    refine (begins hp hc hroom hst₁).bind fun t st₂ hlook₂ ht => ?_
                    cases (Between.chained (.empty (α := α)) hwaiting₂).later hst₁ hlook₂.later with
                    | chained _ hwaiting₃ => exact ih (.chained ht hwaiting₃) hlook₂.later.intact
              · exact .pure hst₁ (.something (hx.answer o rfl) (.chained hx.rest hwaiting₁))
      | @paired _ _ _ f q outer held inner _ m k hq houter hinner hroom =>
          cases held with
          | none =>
              rw [Outcomes.pull]
              refine ((ih houter hst).imp (by omega) fun _ _ => id).bind fun x st₁ hlook₁ hx => ?_
              have hst₁ := hlook₁.later.intact
              rcases x with ⟨_ | o, outer'⟩
              · exact .pure hst₁ (.nothing .empty)
              · refine (begins hq (hx.answer o rfl) hroom hst₁).bind fun t st₂ hlook₂ ht => ?_
                exact ih (.paired hq (hx.rest.later hst₁ hlook₂.later) ht hroom) hlook₂.later.intact
          | some v =>
              rw [Outcomes.pull]
              refine (ih hinner hst).bind fun x st₁ hlook₁ hx => ?_
              have hst₁ := hlook₁.later.intact
              have houter₁ := houter.later hst hlook₁.later
              rcases x with ⟨_ | o, inner'⟩
              · exact ih (.paired hq houter₁ .empty hroom) hst₁
              · exact .pure hst₁ (.something (hx.answer o rfl) (.paired hq houter₁ hx.rest hroom))

/-- **ANY NUMBER OF PULLS.** -/
theorem Outcomes.Between.answers (k : Nat) : ∀ {s : Outcomes σ ε ρ α} {st : Store σ ε},
    s.Between st i a b → st.Intact → (s.answers G k st).LooksTo i b st
      fun answers st' => ∀ o, some o ∈ answers → o.cursor.Between st' i a b := by
  induction k with
  | zero => intro s st _ hst; exact .pure hst nofun
  | succ k ih =>
      intro s st h hst
      have hpulled : (s.pulled G st).LooksTo i b st (Pull.Between i a b) :=
        .limit fun n => h.pull n hst
      refine hpulled.bind fun x st₁ hlook₁ hx => ?_
      have hst₁ := hlook₁.later.intact
      refine (ih hx.rest hst₁).bind fun answers st₂ hlook₂ hanswers => ?_
      refine .pure hlook₂.later.intact fun o ho => ?_
      rcases List.mem_cons.mp ho with ho | ho
      · exact (hx.answer o ho.symm).later hst₁ hlook₂.later
      · exact hanswers o ho

/-! ## Coming to the end -/

/-- A parser with a width ends at every place of every source. -/
theorem Parser.drains_of_width {source : Source σ} {faulty : Prop} (p : Parser σ ε ρ α) :
    ∀ {n : Nat}, p.width? = some n → (¬faulty → p.Faultless) → ∀ j,
      p.Drains G source i faulty (fun _ _ => True) j := by
  induction p with
  | unit x =>
      intro n _ _ j st hst
      rw [started_unit]
      exact ⟨hst.self, Outcomes.drains_ready hst.reads trivial⟩
  | fail =>
      intro n _ _ j st hst
      rw [started_fail]
      exact ⟨hst.self, Outcomes.drains_empty⟩
  | anySymbol f =>
      intro n _ _ j st hst
      rw [started_anySymbol]
      exact ⟨hst.self, Outcomes.drains_consuming hst.reads fun _ => trivial⟩
  | testSymbol test f =>
      intro n _ hfault j
      exact (terminates_testSymbol fun x e he => by_contra fun h => hfault h x e he).imp
        fun _ _ _ => trivial
  | finish x =>
      intro n _ _ j st hst
      rw [started_finish]
      refine ⟨hst.self, ?_⟩
      split
      · exact Outcomes.drains_ready hst.reads trivial
      · exact Outcomes.drains_empty
  | map f p ih =>
      intro n hwidth hfault j
      refine (ih hwidth (fun h => (hfault h).2) j).mapped (fun st => started_map ..)
        (fun x k e _ he => ?_) fun x k o _ ho => ?_
      · exact by_contra fun h => (hfault h).1 x e (Call.result_map_eq_error.mp he)
      · obtain ⟨y, -, rfl⟩ := Call.result_map_eq_ok.mp ho
        exact ⟨y, k, rfl, Or.inl rfl, trivial⟩
  | filter test p ih =>
      intro n hwidth hfault j st hst
      rw [started_filter]
      refine (ih hwidth (fun h => (hfault h).2) j st hst).bind ?_
      rintro s st' ⟨hst', hs⟩
      exact ⟨hst', hs.filtered fun x k e _ he => by_contra fun h => (hfault h).1 x e he⟩
  | spanning f p ih =>
      intro n hwidth hfault j
      refine (ih hwidth hfault j).mapped (fun st => started_spanning ..)
        (fun x k e _ he => nomatch he) fun x k o _ ho => ?_
      obtain rfl := Except.ok.inj ho
      exact ⟨_, k, rfl, Or.inl rfl, trivial⟩
  | seq f p q ihp ihq =>
      intro n hwidth hfault j st hst
      obtain ⟨m, hm, hwidth⟩ := Option.bind_eq_some_iff.mp hwidth
      obtain ⟨k, hk, rfl⟩ := Option.map_eq_some_iff.mp hwidth
      have hp := ihp hm (fun h => (hfault h).1) j
      rw [started_seq]
      exact ⟨hst.self, (Outcomes.drains_deferred hp hst.reads).paired
        fun x k _ => ihq hk (fun h => (hfault h).2) k⟩
  | or p q ihp ihq =>
      intro n hwidth hfault j st hst
      obtain ⟨m, hm, hwidth⟩ := Option.bind_eq_some_iff.mp hwidth
      obtain ⟨k, hk, rfl⟩ := Option.map_eq_some_iff.mp hwidth
      rw [started_or]
      refine ⟨hst.self, Outcomes.Drains.chained ?_ hst.reads Outcomes.drains_empty⟩
      rw [List.forall_mem_cons, List.forall_mem_singleton]
      exact ⟨⟨j, j.lt_succ_self, rfl, ihp hm (fun h => (hfault h).1) j⟩,
        ⟨j, j.lt_succ_self, rfl, ihq hk (fun h => (hfault h).2) j⟩⟩
  | _ => intro n hwidth; exact nomatch hwidth

/-- However often a parser that drains is pulled, the run comes to an end. -/
theorem Parser.Drains.answers {source : Source σ} {j : Nat} {faulty : Prop} {P : α → Nat → Prop}
    {p : Parser σ ε ρ α} (h : p.Drains G source i faulty P j) {st : Store σ ε}
    (hst : Feeds source i (j + 1) st) :
    ∃ n, ∀ k, (p.answers G (source.cursorAt i j) k st).Settles faulty
      fun answers _ => answers.length = k ∧ ∀ x ∈ answers.drop n, x = none := by
  have hsettles := h st hst
  simp only [Parser.answers]
  cases hrun : p.started G (source.cursorAt i j) st with
  | done s st' =>
      rw [hrun] at hsettles
      exact hsettles.2.answers hsettles.1.self
  | fault x st' =>
      rw [hrun] at hsettles
      exact ⟨0, fun _ => hsettles⟩
  | unfinished =>
      rw [hrun] at hsettles
      exact hsettles.elim

end

/-- **BOUNDED LOOK-AHEAD.** Callers who have got to a world by whatever steps start a parser at one
    of their cursors. It is put together from single symbols by sequence and choice, with functions
    and tests anywhere, and so has a width. The source may be endless, and it may have been read
    before. Then there is a number `n` such that the parser can be pulled as often as one likes:
    every run comes to an end, from the `n`-th on all pulls answer nothing, and only a fault of one
    of its own functions can stop the parser before. Every outcome lies on the same source, between
    the start and the place that is the width behind it. And whether they come to their end or are
    stopped by a fault, the pulls leave the source read at most to the place behind that, unless it
    has been read further before, and no other source is read. -/
theorem Parser.bounded_lookahead [Carrier σ] {w : World σ ε} (hw : w.Reachable) (G : Grammar σ ε ρ)
    {p : Parser σ ε ρ α} {width : Nat} (hwidth : p.width? = some width) {c : Cursor σ}
    (hc : c ∈ w.cursors) :
    ∃ n, ∀ k,
      ((p.answers G c k w.store).Settles (¬p.Faultless)
        fun answers _ => answers.length = k ∧ ∀ x ∈ answers.drop n, x = none) ∧
      (∀ answers st, p.answers G c k w.store = .done answers st → ∀ o, some o ∈ answers →
        o.cursor.source = c.source ∧ c.position ≤ o.cursor.position ∧
          o.cursor.position ≤ c.position + width) ∧
      ∀ st, (∃ answers, p.answers G c k w.store = .done answers st) ∨
          (∃ x, p.answers G c k w.store = .fault x st) →
        st.readsOf c.source ≤ max (w.store.readsOf c.source) (c.position + width + 1) ∧
          ∀ i, i ≠ c.source → st.readsOf i = w.store.readsOf i := by
  have hsound := hw.sound
  have hplace : c.Between w.store c.source c.position c.position :=
    ⟨hsound.cursors c hc, rfl, Nat.le_refl _, Nat.le_refl _⟩
  -- where the outcomes lie, and how far is read
  have hlooks (k : Nat) : (p.answers G c k w.store).LooksTo c.source (c.position + width) w.store
      fun answers st => ∀ o, some o ∈ answers →
        o.cursor.Between st c.source c.position (c.position + width) :=
    (p.started_looksTo hwidth hplace (Nat.le_refl _) hsound.intact).bind
      fun s st hlook hs => hs.answers k hlook.later.intact
  -- that there is an end
  obtain ⟨source, hsource, hnode, hcursor⟩ := hsound.intact.holds_iff.mp (hsound.cursors c hc)
  have hdrains : p.Drains G source c.source (¬p.Faultless) (fun _ _ => True) c.node :=
    p.drains_of_width hwidth not_not.mp c.node
  obtain ⟨n, hn⟩ := hdrains.answers ⟨hsound.intact, hsource, hnode⟩
  rw [← hcursor] at hn
  refine ⟨n, fun k => ⟨hn k, fun answers st hrun o ho => ?_, fun st hst => ?_⟩⟩
  · have hlook := hlooks k
    rw [hrun] at hlook
    have hbetween := hlook.2 o ho
    exact ⟨hbetween.source, hbetween.lower, hbetween.upper⟩
  · have hlook := hlooks k
    rcases hst with ⟨answers, hrun⟩ | ⟨x, hrun⟩
    · rw [hrun] at hlook
      exact ⟨hlook.1.reads, hlook.1.others⟩
    · rw [hrun] at hlook
      exact ⟨hlook.reads, hlook.others⟩

/-- A world with one cursor, on a source that gives the same symbol for ever. -/
def World.steady : World Nat Unit :=
  let first := (World.empty : World Nat Unit).store.attach ⟨fun _ => some 7⟩
  ⟨first.2, [first.1], []⟩

/-- Two items, or a symbol that never comes: the source is read three times at most. -/
theorem Parser.steady_bounded_lookahead :
    let c : Cursor Nat := ⟨0, 0, 0, some 7⟩
    let p : Parser Nat Unit (fun _ => Empty) Nat := (item.andRight item).or (symbol 8)
    p.width? = some 2 ∧ ∃ n, ∀ k,
      ((p.answers .empty c k World.steady.store).Settles False
        fun answers _ => answers.length = k ∧ ∀ x ∈ answers.drop n, x = none) ∧
      ∀ answers st, p.answers .empty c k World.steady.store = .done answers st →
        (∀ o, some o ∈ answers → o.cursor.position ≤ 2) ∧ st.readsOf 0 ≤ 3 := by
  intro c p
  let _ : Carrier Nat := .none
  have hreach : World.steady.Reachable := Relation.ReflTransGen.refl.tail (.attach _)
  have hfaultless : p.Faultless := ⟨⟨trivial, trivial⟩, fun _ _ => nofun⟩
  obtain ⟨n, hn⟩ := bounded_lookahead hreach .empty (p := p) rfl (List.mem_singleton.mpr rfl)
  refine ⟨rfl, n, fun k => ?_⟩
  obtain ⟨hsettles, hplaces, hreads⟩ := hn k
  rw [eq_false (not_not_intro hfaultless)] at hsettles
  refine ⟨hsettles, fun answers st hrun => ⟨fun o ho => ?_, ?_⟩⟩
  · exact (hplaces answers st hrun o ho).2.2
  · exact (hreads st (.inl ⟨answers, hrun⟩)).1

end Backtrack

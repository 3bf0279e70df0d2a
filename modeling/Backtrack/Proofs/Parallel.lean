import Backtrack.Proofs.Chain
import Backtrack.Proofs.Honest
import Backtrack.Proofs.Limit

/-!
# Parallel runs — what has been read before makes no difference

Two stores are alike when they are intact and know the same sources. They may have been read to
different depths. An honest parser or sequence cannot tell them apart: run on either store it ends
in the same way with the same result, leaves the same remarks, and asks for the same reads. In each
store the reads that were made before are found, and only the others are made.

With one store in the place of both, this says what a run keeps: an intact store stays intact, its
chains only grow, and every cursor that comes out of the run is held.
-/

namespace Backtrack

universe u v

variable {σ ε : Type} {ρ : Type → Type} {α β : Type}

namespace Store

/-- Both stores are intact and know the same sources. -/
structure Alike (st₁ st₂ : Store σ ε) : Prop where
  left    : st₁.Intact
  right   : st₂.Intact
  sources : ∀ i, st₁.source? i = st₂.source? i

/-- The cursors that both stores hold. -/
def shared (st₁ st₂ : Store σ ε) : Set (Cursor σ) :=
  {c | st₁.Holds c ∧ st₂.Holds c}

variable {st₁ st₂ st₁' st₂' : Store σ ε} {demand demand₁ demand₂ : Nat → Nat}
  {notes notes₁ notes₂ : List ε}

theorem Alike.spends (h : Alike st₁ st₂) (h₁ : st₁.Spends demand₁ notes₁ st₁')
    (h₂ : st₂.Spends demand₂ notes₂ st₂') : Alike st₁' st₂' where
  left := h₁.intact
  right := h₂.intact
  sources i := by rw [h₁.sources, h₂.sources, h.sources]

theorem Alike.shared_subset (h : Alike st₁ st₂) (h₁ : st₁.Spends demand₁ notes₁ st₁')
    (h₂ : st₂.Spends demand₂ notes₂ st₂') : shared st₁ st₂ ⊆ shared st₁' st₂' :=
  fun _ hc => ⟨h₁.grows.holds h.left h₁.intact hc.1, h₂.grows.holds h.right h₂.intact hc.2⟩

/-- Going on from a cursor that both stores hold gives the same in both. -/
theorem Alike.advance (h : Alike st₁ st₂) {c : Cursor σ} (hc : c ∈ shared st₁ st₂) :
    ∃ found demand st₁' st₂', st₁.advance c = (found, st₁') ∧ st₂.advance c = (found, st₂') ∧
      st₁.Spends demand [] st₁' ∧ st₂.Spends demand [] st₂' ∧
      ∀ d ∈ found, d ∈ shared st₁' st₂' := by
  obtain ⟨source, hsource₁, hnode₁, hcursor⟩ := h.left.holds_iff.mp hc.1
  obtain ⟨source₂, hsource₂, hnode₂, -⟩ := h.right.holds_iff.mp hc.2
  obtain rfl : source = source₂ := by
    rw [h.sources, hsource₂] at hsource₁
    exact (Option.some.inj hsource₁).symm
  rw [hcursor]
  obtain ⟨hfound₁, hspends₁⟩ := h.left.advance_spec hsource₁ hnode₁
  obtain ⟨hfound₂, hspends₂⟩ := h.right.advance_spec hsource₂ hnode₂
  refine ⟨_, _, _, _, Prod.ext hfound₁ rfl, Prod.ext hfound₂ rfl, hspends₁, hspends₂, ?_⟩
  intro d hd
  obtain ⟨x, hx, rfl⟩ := Option.map_eq_some_iff.mp hd
  -- the next read has been made in both stores, before or now
  have reached : ∀ {st : Store σ ε} {st' : Store σ ε}, st.source? c.source = some source →
      st.Spends (source.demand c.source c.node) [] st' →
      st'.Holds (source.cursorAt c.source (c.node + 1)) := by
    intro st st' hs hspends
    refine hspends.intact.holds_cursorAt ((hspends.sources _).trans hs) ?_
    rw [hspends.reads, Source.demand, if_pos ⟨rfl, by rw [hx]; rfl⟩]
    omega
  exact ⟨reached hsource₁ hspends₁, reached hsource₂ hspends₂⟩

end Store

open Store

/-- Two runs, from the two stores, that end in the same way, leave the same remarks and ask for the
    same reads. A result has the property `post` with respect to what both stores hold then. -/
inductive Run.Parallel {δ : Type u} (post : δ → Set (Cursor σ) → Prop) (st₁ st₂ : Store σ ε) :
    Run σ ε δ → Run σ ε δ → Prop where
  | done {b : δ} {demand : Nat → Nat} {notes : List ε} {st₁' st₂' : Store σ ε}
      (left : st₁.Spends demand notes st₁') (right : st₂.Spends demand notes st₂')
      (hpost : post b (shared st₁' st₂')) : Parallel post st₁ st₂ (.done b st₁') (.done b st₂')
  | fault {x : Fault} {demand : Nat → Nat} {notes : List ε} {st₁' st₂' : Store σ ε}
      (left : st₁.Spends demand notes st₁') (right : st₂.Spends demand notes st₂') :
      Parallel post st₁ st₂ (.fault x st₁') (.fault x st₂')
  | unfinished : Parallel post st₁ st₂ .unfinished .unfinished

namespace Run.Parallel

variable {δ : Type u} {η : Type v} {post : δ → Set (Cursor σ) → Prop}
  {post' : η → Set (Cursor σ) → Prop} {st₁ st₂ : Store σ ε}

/-- A result without any action. -/
theorem pure (h : Alike st₁ st₂) {b : δ} (hpost : post b (shared st₁ st₂)) :
    Parallel post st₁ st₂ (.done b st₁) (.done b st₂) :=
  .done (.refl h.left) (.refl h.right) hpost

/-- What went before both runs counts as part of them. -/
theorem after {st₁' st₂' : Store σ ε} {demand : Nat → Nat} {notes : List ε} {r₁ r₂ : Run σ ε δ}
    (left : st₁.Spends demand notes st₁') (right : st₂.Spends demand notes st₂')
    (h : Parallel post st₁' st₂' r₁ r₂) : Parallel post st₁ st₂ r₁ r₂ := by
  cases h with
  | done left' right' hpost => exact .done (left.trans left') (right.trans right') hpost
  | fault left' right' => exact .fault (left.trans left') (right.trans right')
  | unfinished => exact .unfinished

/-- One action after another. -/
theorem bind {r₁ r₂ : Run σ ε δ} {k : δ → Store σ ε → Run σ ε η} (halike : Alike st₁ st₂)
    (h : Parallel post st₁ st₂ r₁ r₂)
    (hk : ∀ b st₁' st₂', Alike st₁' st₂' → shared st₁ st₂ ⊆ shared st₁' st₂' →
      post b (shared st₁' st₂') → Parallel post' st₁' st₂' (k b st₁') (k b st₂')) :
    Parallel post' st₁ st₂ (r₁.bind k) (r₂.bind k) := by
  cases h with
  | done left right hpost =>
      exact .after left right
        (hk _ _ _ (halike.spends left right) (halike.shared_subset left right) hpost)
  | fault left right => exact .fault left right
  | unfinished => exact .unfinished

theorem unfinished_iff {r₁ r₂ : Run σ ε δ} (h : Parallel post st₁ st₂ r₁ r₂) :
    r₁ = .unfinished ↔ r₂ = .unfinished := by
  cases h with
  | done => exact ⟨nofun, nofun⟩
  | fault => exact ⟨nofun, nofun⟩
  | unfinished => exact Iff.rfl

/-- A run that is parallel to one with a result has the same result. -/
theorem of_done {b : δ} {st₁' : Store σ ε} {r : Run σ ε δ}
    (h : Parallel post st₁ st₂ (.done b st₁') r) :
    ∃ demand notes st₂', r = .done b st₂' ∧ st₁.Spends demand notes st₁' ∧
      st₂.Spends demand notes st₂' ∧ post b (shared st₁' st₂') := by
  cases h with
  | done left right hpost => exact ⟨_, _, _, rfl, left, right, hpost⟩

/-- Runs that are parallel under every allowance are parallel in the limit. -/
theorem limit {r₁ r₂ : Nat → Run σ ε δ} (h₁ : Rising r₁) (h₂ : Rising r₂)
    (h : ∀ n, Parallel post st₁ st₂ (r₁ n) (r₂ n)) :
    Parallel post st₁ st₂ (Run.limit r₁) (Run.limit r₂) :=
  Run.limit_rel h₁ h₂ h unfinished_iff

end Run.Parallel

/-- A call of one of the caller's functions. -/
theorem Call.run_parallel {st₁ st₂ : Store σ ε} (h : Alike st₁ st₂) (call : Call ε β) :
    Run.Parallel (fun b _ => call.result = .ok b) st₁ st₂ (call.run st₁) (call.run st₂) := by
  rw [Call.run, Call.run]
  have left := h.left.spends_remark call.notes
  have right := h.right.spends_remark call.notes
  cases hresult : call.result with
  | ok b => exact .done left right rfl
  | error x => exact .fault left right

theorem Call.result_map_eq_ok {γ : Type} {call : Call ε β} {f : β → γ} {c : γ} :
    (call.map f).result = .ok c ↔ ∃ b, call.result = .ok b ∧ f b = c := by
  rw [Call.map]
  cases call.result with
  | ok b => exact ⟨fun h => ⟨b, rfl, Except.ok.inj h⟩, fun ⟨_, hb, h⟩ => by cases hb; rw [← h]; rfl⟩
  | error x => exact ⟨fun h => (nomatch h), fun ⟨_, hb, _⟩ => (nomatch hb)⟩

theorem Call.result_map_eq_error {γ : Type} {call : Call ε β} {f : β → γ} {x : Fault} :
    (call.map f).result = .error x ↔ call.result = .error x := by
  rw [Call.map]
  cases call.result with
  | ok b => exact ⟨fun h => (nomatch h), fun h => (nomatch h)⟩
  | error y =>
      exact ⟨fun h => congrArg _ (Except.error.inj h), fun h => congrArg _ (Except.error.inj h)⟩

/-- A walk of the caller's own. -/
theorem Walk.run_parallel {post : Set (Cursor σ) → β → Prop}
    (hmono : ∀ K K' b, K ⊆ K' → post K b → post K' b) (walk : Walk σ ε β) :
    ∀ {st₁ st₂ : Store σ ε}, Alike st₁ st₂ → walk.Honest post (shared st₁ st₂) →
    ∃ b demand notes st₁' st₂', walk.run st₁ = (b, st₁') ∧ walk.run st₂ = (b, st₂') ∧
      st₁.Spends demand notes st₁' ∧ st₂.Spends demand notes st₂' ∧
      post (shared st₁' st₂') b := by
  induction walk with
  | arrive b =>
      intro st₁ st₂ h hhonest
      exact ⟨b, _, _, st₁, st₂, rfl, rfl, .refl h.left, .refl h.right, hhonest⟩
  | advance c next ih =>
      intro st₁ st₂ h hhonest
      obtain ⟨found, demand, st₁', st₂', hrun₁, hrun₂, left, right, hfound⟩ := h.advance hhonest.1
      obtain ⟨b, demand', notes, st₁'', st₂'', hnext₁, hnext₂, left', right', hpost⟩ :=
        ih found (h.spends left right)
          (hhonest.2 _ (h.shared_subset left right) found hfound)
      refine ⟨b, _, _, st₁'', st₂'', ?_, ?_, left.trans left', right.trans right', hpost⟩
      · rw [Walk.run, hrun₁]
        exact hnext₁
      · rw [Walk.run, hrun₂]
        exact hnext₂
  | remark e next ih =>
      intro st₁ st₂ h hhonest
      have left := h.left.spends_remark [e]
      have right := h.right.spends_remark [e]
      obtain ⟨b, demand, notes, st₁', st₂', hnext₁, hnext₂, left', right', hpost⟩ :=
        ih (h.spends left right) (hhonest.mono hmono (h.shared_subset left right))
      exact ⟨b, _, _, st₁', st₂', hnext₁, hnext₂, left.trans left', right.trans right', hpost⟩

section

variable [Carrier σ] {G : Grammar σ ε ρ}

/-- Starting an honest parser at a cursor that both stores hold. -/
theorem Parser.start_parallel (n : Nat) : ∀ {α : Type} (p : Parser σ ε ρ α) (c : Cursor σ)
    {st₁ st₂ : Store σ ε}, Alike st₁ st₂ → G.Honest (shared st₁ st₂) →
    p.Honest (shared st₁ st₂) → c ∈ shared st₁ st₂ →
    Run.Parallel Outcomes.Held st₁ st₂ (p.start G n c st₁) (p.start G n c st₂) := by
  induction n with
  | zero => intro α p c st₁ st₂ _ _ _ _; exact .unfinished
  | succ n ih =>
      intro α p c st₁ st₂ h hG hp hc
      have known : ∀ {α : Type} {a : α}, Knows (shared st₁ st₂) a →
          ∀ o ∈ [(⟨a, c⟩ : Outcome σ α)], o.Known (shared st₁ st₂) := by
        intro α a ha o ho
        obtain rfl := List.mem_singleton.mp ho
        exact ⟨hc, ha⟩
      cases p with
      | unit a => exact .pure h (known hp)
      | fail => exact .pure h Outcomes.held_empty
      | anySymbol f => exact .pure h ⟨hc, hp⟩
      | testSymbol test f =>
          rw [start, start]
          cases hx : c.current with
          | none => exact .pure h Outcomes.held_empty
          | some x =>
              refine (Call.run_parallel h (test x)).bind h fun ok st₁ st₂ h' hsub _ => .pure h' ?_
              cases ok with
              | true => exact Outcomes.Held.mono hsub (s := .consuming f c) ⟨hc, hp⟩
              | false => exact Outcomes.held_empty
      | finish a =>
          refine .pure h ?_
          cases c.isExhausted with
          | true => exact known hp
          | false => exact Outcomes.held_empty
      | map f p =>
          refine (ih p c h hG hp.1 hc).bind h fun s st₁ st₂ h' hsub hs => .pure h' ⟨hs, ?_⟩
          intro K hK o ho o' ho'
          obtain ⟨b, hb, rfl⟩ := Call.result_map_eq_ok.mp ho'
          exact ⟨ho.1, hp.2 K (fun _ hc => hK (hsub hc)) o.value ho.2 b hb⟩
      | filter test p =>
          exact (ih p c h hG hp hc).bind h fun s st₁ st₂ h' hsub hs => .pure h' hs
      | bind p next =>
          exact .pure h ⟨Outcomes.held_deferred hp.1 hc, Outcomes.held_empty, hp.2⟩
      | seq f p q =>
          exact .pure h ⟨hp.2.1, Outcomes.held_deferred hp.1 hc, Outcomes.held_empty,
            forall_mem_none, hp.2.2⟩
      | or p q =>
          refine .pure h ⟨Outcomes.held_empty, fun w hw => ?_⟩
          rcases List.mem_cons.mp hw with rfl | hw
          · exact ⟨hp.1, hc⟩
          · obtain rfl := List.mem_singleton.mp hw
            exact ⟨hp.2, hc⟩
      | repetition least f p =>
          refine .pure h ⟨hp.1, trivial, fun d hd => ?_, hp.2⟩
          obtain rfl := Option.some.inj hd
          exact hc
      | spanning f p =>
          refine (ih p c h hG hp.1 hc).bind h fun s st₁ st₂ h' hsub hs => .pure h' ⟨hs, ?_⟩
          intro K hK o ho o' ho'
          obtain rfl := Except.ok.inj ho'
          exact ⟨ho.1, hp.2 K (fun _ hc => hK (hsub hc)) o.value _ ho.2⟩
      | rule r => exact ih (G.body r) c h hG (hG _ r) hc
      | remark notes p =>
          have left := h.left.spends_remark (notes c)
          have right := h.right.spends_remark (notes c)
          have hsub := h.shared_subset left right
          exact .after left right
            (ih p c (h.spends left right) (hG.mono hsub) (hp.mono hsub) (hsub hc))
      | abort x => exact .fault (.refl h.left) (.refl h.right)
      | lookahead p =>
          refine (ih p c h hG hp hc).bind h fun s st₁ st₂ h' hsub hs => .pure h' ⟨hs, ?_⟩
          intro K hK o ho o' ho'
          obtain rfl := Except.ok.inj ho'
          exact ⟨hK (hsub hc), ho.2⟩
      | custom walk =>
          have hmono : ∀ K K' (script : Script σ ε α), K ⊆ K' → script.Honest K →
              script.Honest K' := fun _ _ _ hK hs => hs.mono hK
          obtain ⟨script, demand, notes, st₁', st₂', hrun₁, hrun₂, left, right, hscript⟩ :=
            (walk c).run_parallel hmono h (hp _ (fun _ hc => hc) c hc)
          rw [start, start, hrun₁, hrun₂]
          exact .done left right hscript

theorem Parser.started_parallel (p : Parser σ ε ρ α) (c : Cursor σ) {st₁ st₂ : Store σ ε}
    (h : Alike st₁ st₂) (hG : G.Honest (shared st₁ st₂)) (hp : p.Honest (shared st₁ st₂))
    (hc : c ∈ shared st₁ st₂) :
    Run.Parallel Outcomes.Held st₁ st₂ (p.started G c st₁) (p.started G c st₂) :=
  .limit (p.start_tends G c st₁).rising (p.start_tends G c st₂).rising
    fun n => p.start_parallel n c h hG hp hc

/-- What a pull leaves: the rest is held, and so is the outcome. -/
def Pull.Held (pulled : Pull σ ε ρ α) (K : Set (Cursor σ)) : Prop :=
  pulled.rest.Held K ∧ ∀ o ∈ pulled.answer, o.Known K

theorem Pull.held_none {s : Outcomes σ ε ρ α} {K : Set (Cursor σ)} (hs : s.Held K) :
    Pull.Held ⟨none, s⟩ K :=
  ⟨hs, forall_mem_none⟩

theorem Pull.held_some {o : Outcome σ α} {s : Outcomes σ ε ρ α} {K : Set (Cursor σ)}
    (ho : o.Known K) (hs : s.Held K) : Pull.Held ⟨some o, s⟩ K :=
  ⟨hs, fun _ h => Option.some.inj h ▸ ho⟩

namespace Outcomes

variable (G) in
/-- Under the allowance `n`, pulls run in parallel. -/
def PullsParallel (n : Nat) : Prop :=
  ∀ {α : Type} (s : Outcomes σ ε ρ α) {st₁ st₂ : Store σ ε}, Alike st₁ st₂ →
    G.Honest (shared st₁ st₂) → s.Held (shared st₁ st₂) →
    Run.Parallel Pull.Held st₁ st₂ (s.pull G n st₁) (s.pull G n st₂)

section

variable {n : Nat} {st₁ st₂ : Store σ ε}

omit [Carrier σ] in
/-- What is asked of every greater set is asked of those greater than a greater one. -/
theorem widen {K K' : Set (Cursor σ)} {P : Set (Cursor σ) → Prop} (hK : K ⊆ K')
    (h : ∀ K'', K ⊆ K'' → P K'') : ∀ K'', K' ⊆ K'' → P K'' :=
  fun K'' hK'' => h K'' fun _ hc => hK'' (hK hc)

theorem pull_parallel_consuming (f : σ → α) (c : Cursor σ) (h : Alike st₁ st₂)
    (hs : (consuming f c : Outcomes σ ε ρ α).Held (shared st₁ st₂)) :
    Run.Parallel Pull.Held st₁ st₂ ((consuming f c : Outcomes σ ε ρ α).pull G (n + 1) st₁)
      ((consuming f c : Outcomes σ ε ρ α).pull G (n + 1) st₂) := by
  rw [pull, pull]
  cases hx : c.current with
  | none => exact .pure h (Pull.held_none held_empty)
  | some x =>
      obtain ⟨found, demand, st₁', st₂', hrun₁, hrun₂, left, right, hfound⟩ := h.advance hs.1
      simp only [hrun₁, hrun₂]
      refine .done left right ⟨held_empty, fun o ho => ?_⟩
      obtain ⟨rest, hrest, rfl⟩ := Option.map_eq_some_iff.mp ho
      exact ⟨hfound rest hrest, (hs.2 x).mono (h.shared_subset left right)⟩

theorem pull_parallel_scripted (script : Script σ ε α) (k : Nat) (h : Alike st₁ st₂)
    (hs : script.Honest (shared st₁ st₂)) :
    Run.Parallel Pull.Held st₁ st₂ ((scripted script k : Outcomes σ ε ρ α).pull G (n + 1) st₁)
      ((scripted script k : Outcomes σ ε ρ α).pull G (n + 1) st₂) := by
  have hmono : ∀ K K' (answer : Option (Outcome σ α)), K ⊆ K' →
      (∀ o ∈ answer, o.Known K) → ∀ o ∈ answer, o.Known K' :=
    fun _ _ _ hK hs o ho => (hs o ho).mono hK
  obtain ⟨answer, demand, notes, st₁', st₂', hrun₁, hrun₂, left, right, hanswer⟩ :=
    (script k).run_parallel hmono h (hs k)
  have hrest : (scripted script (k + 1) : Outcomes σ ε ρ α).Held (shared st₁' st₂') :=
    Script.Honest.mono (h.shared_subset left right) hs
  rw [pull, pull, hrun₁, hrun₂]
  exact .done left right ⟨hrest, hanswer⟩

variable (ih : PullsParallel G n) (h : Alike st₁ st₂) (hG : G.Honest (shared st₁ st₂))
include ih h hG

theorem pull_parallel_mapped (f : Outcome σ α → Call ε (Outcome σ β)) (s : Outcomes σ ε ρ α)
    (hs : (mapped f s).Held (shared st₁ st₂)) :
    Run.Parallel Pull.Held st₁ st₂ ((mapped f s).pull G (n + 1) st₁)
      ((mapped f s).pull G (n + 1) st₂) := by
  simp only [pull]
  refine (ih s h hG hs.1).bind h ?_
  intro pulled st₁ st₂ h' hsub hpulled
  rcases pulled with ⟨_ | o, s⟩
  · exact .pure h' (Pull.held_none ⟨hpulled.1, widen hsub hs.2⟩)
  · refine (Call.run_parallel h' (f o)).bind h' ?_
    intro o' st₁ st₂ h'' hsub' ho'
    refine .pure h'' (Pull.held_some ?_ ⟨hpulled.1.mono hsub', ?_⟩)
    · exact (hs.2 _ hsub o (hpulled.2 o rfl) o' ho').mono hsub'
    · exact widen hsub' (widen hsub hs.2)

theorem pull_parallel_filtered (test : Outcome σ α → Call ε Bool) (s : Outcomes σ ε ρ α)
    (hs : s.Held (shared st₁ st₂)) :
    Run.Parallel Pull.Held st₁ st₂ ((filtered test s).pull G (n + 1) st₁)
      ((filtered test s).pull G (n + 1) st₂) := by
  simp only [pull]
  refine (ih s h hG hs).bind h ?_
  intro pulled st₁ st₂ h' hsub hpulled
  have hG' := hG.mono hsub
  rcases pulled with ⟨_ | o, s⟩
  · exact .pure h' (Pull.held_none (s := .filtered test s) hpulled.1)
  · refine (Call.run_parallel h' (test o)).bind h' ?_
    intro ok st₁ st₂ h'' hsub' _
    have hrest : (filtered test s).Held (shared st₁ st₂) := Held.mono hsub' (s := s) hpulled.1
    cases ok with
    | true => exact .pure h'' (Pull.held_some ((hpulled.2 o rfl).mono hsub') hrest)
    | false => exact ih _ h'' (hG'.mono hsub') hrest

theorem pull_parallel_chained (s : Outcomes σ ε ρ α) (waiting : List (Parser σ ε ρ α × Cursor σ))
    (hs : (chained s waiting).Held (shared st₁ st₂)) :
    Run.Parallel Pull.Held st₁ st₂ ((chained s waiting).pull G (n + 1) st₁)
      ((chained s waiting).pull G (n + 1) st₂) := by
  simp only [pull]
  refine (ih s h hG hs.1).bind h ?_
  intro pulled st₁ st₂ h' hsub hpulled
  have hG' := hG.mono hsub
  have hwaiting : ∀ w ∈ waiting, w.1.Honest (shared st₁ st₂) ∧ w.2 ∈ shared st₁ st₂ :=
    fun w hw => ⟨(hs.2 w hw).1.mono hsub, hsub (hs.2 w hw).2⟩
  rcases pulled with ⟨_ | o, s⟩
  · rcases waiting with _ | ⟨⟨p, c⟩, waiting⟩
    · exact .pure h' (Pull.held_none held_empty)
    · obtain ⟨hp, hc⟩ := hwaiting (p, c) (List.mem_cons_self ..)
      refine (p.start_parallel n c h' hG' hp hc).bind h'
        fun s st₁ st₂ h'' hsub' hstarted => ih _ h'' (hG'.mono hsub') ⟨hstarted, fun w hw => ?_⟩
      obtain ⟨hp, hc⟩ := hwaiting w (List.mem_cons_of_mem _ hw)
      exact ⟨hp.mono hsub', hsub' hc⟩
  · exact .pure h' (Pull.held_some (hpulled.2 o rfl) ⟨hpulled.1, hwaiting⟩)

theorem pull_parallel_bound (next : α → Parser σ ε ρ β) (outer : Outcomes σ ε ρ α)
    (inner : Outcomes σ ε ρ β) (hs : (bound next outer inner).Held (shared st₁ st₂)) :
    Run.Parallel Pull.Held st₁ st₂ ((bound next outer inner).pull G (n + 1) st₁)
      ((bound next outer inner).pull G (n + 1) st₂) := by
  obtain ⟨houter, hinner, hnext⟩ := hs
  simp only [pull]
  refine (ih inner h hG hinner).bind h ?_
  intro pulled st₁ st₂ h' hsub hpulled
  have hG' := hG.mono hsub
  have houter' := houter.mono hsub
  have hnext' := widen hsub hnext
  rcases pulled with ⟨_ | o, inner⟩
  · refine (ih outer h' hG' houter').bind h' ?_
    intro pulled st₁ st₂ h'' hsub' hpulled'
    have hG'' := hG'.mono hsub'
    rcases pulled with ⟨_ | o, outer⟩
    · exact .pure h'' (Pull.held_none held_empty)
    · obtain ⟨hc, hvalue⟩ := hpulled'.2 o rfl
      refine ((next o.value).start_parallel n o.cursor h'' hG''
        (hnext' _ hsub' o.value hvalue) hc).bind h''
        fun inner st₁ st₂ h₃ hsub'' hinner' => ih _ h₃ (hG''.mono hsub'') ?_
      exact ⟨hpulled'.1.mono hsub'', hinner', widen hsub'' (widen hsub' hnext')⟩
  · exact .pure h' (Pull.held_some (hpulled.2 o rfl) ⟨houter', hpulled.1, hnext'⟩)

theorem pull_parallel_paired {γ : Type} (f : α → β → γ) (q : Parser σ ε ρ β)
    (outer : Outcomes σ ε ρ α) (held : Option α) (inner : Outcomes σ ε ρ β)
    (hs : (paired f q outer held inner).Held (shared st₁ st₂)) :
    Run.Parallel Pull.Held st₁ st₂ ((paired f q outer held inner).pull G (n + 1) st₁)
      ((paired f q outer held inner).pull G (n + 1) st₂) := by
  obtain ⟨hq, houter, hinner, hheld, hf⟩ := hs
  cases held with
  | none =>
      simp only [pull]
      refine (ih outer h hG houter).bind h ?_
      intro pulled st₁ st₂ h' hsub hpulled
      have hG' := hG.mono hsub
      have hq' := hq.mono hsub
      rcases pulled with ⟨_ | o, outer⟩
      · exact .pure h' (Pull.held_none held_empty)
      · obtain ⟨hc, hvalue⟩ := hpulled.2 o rfl
        refine (q.start_parallel n o.cursor h' hG' hq' hc).bind h'
          fun inner st₁ st₂ h'' hsub' hinner' => ih _ h'' (hG'.mono hsub') ?_
        refine ⟨hq'.mono hsub', hpulled.1.mono hsub', hinner', fun a ha => ?_,
          widen hsub' (widen hsub hf)⟩
        obtain rfl := Option.some.inj ha
        exact hvalue.mono hsub'
  | some a =>
      simp only [pull]
      refine (ih inner h hG hinner).bind h ?_
      intro pulled st₁ st₂ h' hsub hpulled
      have hq' := hq.mono hsub
      have houter' := houter.mono hsub
      rcases pulled with ⟨_ | o, inner⟩
      · exact ih _ h' (hG.mono hsub) ⟨hq', houter', held_empty, forall_mem_none, widen hsub hf⟩
      · obtain ⟨hc, hvalue⟩ := hpulled.2 o rfl
        have hvalues := hf _ hsub a o.value ((hheld a rfl).mono hsub) hvalue
        exact .pure h' (Pull.held_some ⟨hc, hvalues⟩ ⟨hq', houter', hpulled.1,
          fun a ha => (hheld a ha).mono hsub, widen hsub hf⟩)

theorem pull_parallel_repeating (least : Nat) (f : List α → β) (p : Parser σ ε ρ α)
    (root : Option (Cursor σ)) (frames : Frames σ ε ρ α)
    (hs : (repeating least f p root frames).Held (shared st₁ st₂)) :
    Run.Parallel Pull.Held st₁ st₂ ((repeating least f p root frames).pull G (n + 1) st₁)
      ((repeating least f p root frames).pull G (n + 1) st₂) := by
  obtain ⟨hp, hframes, hroot, hf⟩ := hs
  cases root with
  | some c =>
      have hc := hroot c rfl
      simp only [pull]
      refine (p.start_parallel n c h hG hp hc).bind h
        fun s st₁ st₂ h' hsub hstarted => ih _ h' (hG.mono hsub) ?_
      exact ⟨hp.mono hsub, ⟨hstarted, hsub hc, forall_mem_none, hframes.mono hsub⟩,
        forall_mem_none, widen hsub hf⟩
  | none =>
      cases frames with
      | bottom => exact .pure h (Pull.held_none ⟨hp, trivial, forall_mem_none, hf⟩)
      | push s c value below =>
          obtain ⟨hs, hc, hvalue, hbelow⟩ := hframes
          rw [pull, pull]
          refine (ih s h hG hs).bind h ?_
          intro pulled st₁ st₂ h' hsub hpulled
          have hG' := hG.mono hsub
          have hp' := hp.mono hsub
          have hf' := widen hsub hf
          have hbelow' := hbelow.mono hsub
          have hframes' : (Frames.push pulled.rest c value below).Held (shared st₁ st₂) :=
            ⟨hpulled.1, hsub hc, fun a ha => (hvalue a ha).mono hsub, hbelow'⟩
          rcases pulled with ⟨_ | o, s⟩ <;> dsimp only <;> split
          · -- the row of a spent frame
            have hrow := hf' _ (fun _ hc => hc) _ (hframes'.values (List.forall_mem_nil _))
            exact .pure h' (Pull.held_some ⟨hsub hc, hrow⟩ ⟨hp', hbelow', forall_mem_none, hf'⟩)
          · exact ih _ h' hG' ⟨hp', hbelow', forall_mem_none, hf'⟩
          · -- an occurrence that ends its row
            obtain ⟨hoc, hov⟩ := hpulled.2 o rfl
            have hrow := hf' _ (fun _ hc => hc) _ (hframes'.values fun a ha =>
              List.mem_singleton.mp ha ▸ hov)
            exact .pure h' (Pull.held_some ⟨hoc, hrow⟩ ⟨hp', hframes', forall_mem_none, hf'⟩)
          · obtain ⟨hoc, hov⟩ := hpulled.2 o rfl
            refine (p.start_parallel n o.cursor h' hG' hp' hoc).bind h'
              fun t st₁ st₂ h'' hsub' hstarted => ih _ h'' (hG'.mono hsub') ?_
            refine ⟨hp'.mono hsub', ⟨hstarted, hsub' hoc, fun a ha => ?_, hframes'.mono hsub'⟩,
              forall_mem_none, widen hsub' hf'⟩
            exact Option.some.inj ha ▸ hov.mono hsub'

end

/-- Pulling a sequence that holds nothing but cursors which both stores hold. -/
theorem pull_parallel (n : Nat) : PullsParallel G n := by
  -- by induction on the allowance, not on the sequence: a pull may leave a greater sequence behind
  induction n with
  | zero => intro α s st₁ st₂ _ _ _; exact .unfinished
  | succ n ih =>
      intro α s st₁ st₂ h hG hs
      cases s with
      | ready os =>
          cases os with
          | nil => exact .pure h (Pull.held_none held_empty)
          | cons o os =>
              refine .pure h (Pull.held_some (hs o (List.mem_cons_self ..)) fun o' ho' => ?_)
              exact hs o' (List.mem_cons_of_mem o ho')
      | consuming f c => exact pull_parallel_consuming f c h hs
      | scripted script k => exact pull_parallel_scripted script k h hs
      | mapped f s => exact pull_parallel_mapped ih h hG f s hs
      | filtered test s => exact pull_parallel_filtered ih h hG test s hs
      | chained s waiting => exact pull_parallel_chained ih h hG s waiting hs
      | bound next outer inner => exact pull_parallel_bound ih h hG next outer inner hs
      | paired f q outer held inner => exact pull_parallel_paired ih h hG f q outer held inner hs
      | repeating least f p root frames =>
          exact pull_parallel_repeating ih h hG least f p root frames hs

theorem pulled_parallel (s : Outcomes σ ε ρ α) {st₁ st₂ : Store σ ε} (h : Alike st₁ st₂)
    (hG : G.Honest (shared st₁ st₂)) (hs : s.Held (shared st₁ st₂)) :
    Run.Parallel Pull.Held st₁ st₂ (s.pulled G st₁) (s.pulled G st₂) :=
  .limit (s.pull_tends G st₁).rising (s.pull_tends G st₂).rising
    fun n => pull_parallel n s h hG hs

end Outcomes

end

end Backtrack

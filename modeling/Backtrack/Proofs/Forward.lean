import Backtrack.Proofs.Calls

/-!
# Forward — no parser goes back

Every outcome lies where the parser was started or behind it in the same source, at a place that can
be got to by going on from the start; the number of moves is the difference of the positions. Of
parsers of the caller's own making this has to be assumed: `Parser.Onward`.

Each job has the place where it was begun, and what comes of the job lies behind that place. To show
this for a job one needs it for the jobs that it calls for, and these are made with a smaller
allowance: the cases of `Job.Calls` say that a call goes forward if the caller does, and the
induction on the allowance does the rest.
-/

namespace Backtrack

open Store

variable {σ ε : Type} {ρ : Type → Type} {α : Type}

/-- The cursor `d` is `c`, or lies behind it in the same source. -/
def Cursor.Reaches (c d : Cursor σ) : Prop :=
  c.source = d.source ∧ c.node ≤ d.node

namespace Cursor.Reaches

variable {c d e : Cursor σ}

theorem refl (c : Cursor σ) : c.Reaches c :=
  ⟨rfl, Nat.le_refl _⟩

theorem trans (h : c.Reaches d) (h' : d.Reaches e) : c.Reaches e :=
  ⟨h.1.trans h'.1, Nat.le_trans h.2 h'.2⟩

end Cursor.Reaches

namespace Store.Intact

variable {st : Store σ ε} {c d : Cursor σ}

/-- What is found behind a cursor lies behind it. -/
theorem reaches_of_advance (h : st.Intact) (hc : st.Holds c) :
    ∀ d ∈ (st.advance c).1, c.Reaches d := by
  obtain ⟨source, hsource, hnode, hcursor⟩ := h.holds_iff.mp hc
  rw [hcursor, (h.advance_spec hsource hnode).1, Source.next?]
  intro d hd
  obtain ⟨x, -, rfl⟩ := Option.map_eq_some_iff.mp hd
  exact ⟨rfl, Nat.le_succ _⟩

/-- Going on along reads that have been made takes one move for each and reads nothing. -/
theorem advanceBy_cursorAt (h : st.Intact) {source : Source σ} {i : Nat}
    (hsource : st.source? i = some source) (k : Nat) : ∀ j moved, j + k < st.readsOf i →
      st.advanceBy (source.cursorAt i j) moved k = (source.cursorAt i (j + k), moved + k, st) := by
  induction k with
  | zero =>
      intro j moved _
      rfl
  | succ k ih =>
      intro j moved hj
      obtain ⟨x, hx⟩ := Option.isSome_iff_exists.mp (h.isSome_answer hsource (j := j) (by omega))
      have hadvance : st.advance (source.cursorAt i j) =
          (some (source.cursorAt i (j + 1)), st) := by
        rw [h.advance_cursorAt hsource (by omega), if_neg (by omega), Source.next?, hx]
        rfl
      rw [advanceBy, hadvance]
      show st.advanceBy (source.cursorAt i (j + 1)) (moved + 1) k = _
      rw [ih (j + 1) (moved + 1) (by omega), Nat.add_right_comm j, Nat.add_right_comm moved]
      rfl

/-- A place that lies behind a cursor is got to by going on, and the moves are the difference of the
    positions. -/
theorem exists_advanceBy (h : st.Intact) (hc : st.Holds c) (hd : st.Holds d) (hcd : c.Reaches d) :
    ∃ k, st.advanceBy c 0 k = (d, k, st) ∧ c.position + k = d.position := by
  obtain ⟨source, hsource, hnode, hcursor⟩ := h.holds_iff.mp hc
  obtain ⟨source', hsource', hnode', hcursor'⟩ := h.holds_iff.mp hd
  obtain ⟨heq, hle⟩ := hcd
  obtain rfl : source = source' := by
    rw [heq, hsource'] at hsource
    exact (Option.some.inj hsource).symm
  have hsum : c.node + (d.node - c.node) = d.node := Nat.add_sub_cancel' hle
  have hstart : c = source.cursorAt d.source c.node := by rw [← heq]; exact hcursor
  have hrun := h.advanceBy_cursorAt hsource' (d.node - c.node) c.node 0 (by omega)
  rw [hsum, ← hcursor', ← hstart, Nat.zero_add] at hrun
  refine ⟨d.node - c.node, hrun, ?_⟩
  rw [congrArg Cursor.position hcursor, congrArg Cursor.position hcursor']
  exact hsum

end Store.Intact

/-! ## What does not go back -/

/-- Whatever becomes of the store, every answer of the script lies behind `c`. -/
def Script.Onward (script : Script σ ε α) (c : Cursor σ) (st : Store σ ε) : Prop :=
  ∀ st', st.Later st' → ∀ n, ∀ o ∈ ((script n).run st').1, c.Reaches o.cursor

section

variable [Carrier σ]

/-- The parsers of the caller's own making inside the parser do not go back, wherever they are
    started in a store that holds the cursors in `K`. -/
def Parser.Onward : {α : Type} → Parser σ ε ρ α → Set (Cursor σ) → Prop
  | _, .unit _,           _ => True
  | _, .fail,             _ => True
  | _, .anySymbol _,      _ => True
  | _, .testSymbol _ _,   _ => True
  | _, .finish _,         _ => True
  | _, .map _ p,          K => p.Onward K
  | _, .filter _ p,       K => p.Onward K
  | _, .bind p next,      K => p.Onward K ∧ ∀ K', K ⊆ K' → ∀ a, Knows K' a → (next a).Onward K'
  | _, .seq _ p q,        K => p.Onward K ∧ q.Onward K
  | _, .or p q,           K => p.Onward K ∧ q.Onward K
  | _, .repetition _ _ p, K => p.Onward K
  | _, .spanning _ p,     K => p.Onward K
  | _, .rule _,           _ => True
  | _, .remark _ p,       K => p.Onward K
  | _, .abort _,          _ => True
  | _, .lookahead p,      K => p.Onward K
  | _, .custom start,     K => ∀ st : Store σ ε, st.Intact → K ⊆ st.held → ∀ c, st.Holds c →
      ((start c).run st).1.Onward c ((start c).run st).2

/-- The same for all rules of a grammar. -/
def Grammar.Onward (G : Grammar σ ε ρ) (K : Set (Cursor σ)) : Prop :=
  ∀ (α : Type) (r : ρ α), (G.body r).Onward K

mutual

/-- Every outcome that the sequence will ever give lies behind `c`. -/
def Outcomes.Onward : {α : Type} → Outcomes σ ε ρ α → Cursor σ → Store σ ε → Prop
  | _, .ready os,                  c, _  => ∀ o ∈ os, c.Reaches o.cursor
  | _, .consuming _ d,             c, _  => c.Reaches d
  | _, .scripted script _,         c, st => script.Onward c st
  | _, .mapped f s,                c, st => s.Onward c st ∧
      ∀ o o', (f o).result = .ok o' → o'.cursor = o.cursor ∨ c.Reaches o'.cursor
  | _, .filtered _ s,              c, st => s.Onward c st
  | _, .chained s waiting,         c, st => s.Onward c st ∧
      ∀ w ∈ waiting, w.1.Onward st.held ∧ c.Reaches w.2
  | _, .bound next outer inner,    c, st => outer.Onward c st ∧ inner.Onward c st ∧
      ∀ K, st.held ⊆ K → ∀ a, Knows K a → (next a).Onward K
  | _, .paired _ q outer _ inner,  c, st => q.Onward st.held ∧ outer.Onward c st ∧
      inner.Onward c st
  | _, .repeating _ _ p root row,  c, st => p.Onward st.held ∧ row.Onward c st ∧
      ∀ d ∈ root, c.Reaches d

/-- The same for a row of occurrences, each of which lies behind the cursor of its own frame. -/
def Frames.Onward : {α : Type} → Frames σ ε ρ α → Cursor σ → Store σ ε → Prop
  | _, .bottom,           _, _  => True
  | _, .push s d _ below, c, st => s.Onward d st ∧ c.Reaches d ∧ below.Onward c st

end

/-- The outcome lies behind `c`, and so does all that is left. -/
def Pull.Onward (pulled : Pull σ ε ρ α) (c : Cursor σ) (st : Store σ ε) : Prop :=
  pulled.rest.Onward c st ∧ ∀ o ∈ pulled.answer, c.Reaches o.cursor

theorem Parser.Onward.mono {K K' : Set (Cursor σ)} (hK : K ⊆ K') {p : Parser σ ε ρ α}
    (h : p.Onward K) : p.Onward K' := by
  induction p with
  | unit a => trivial
  | fail => trivial
  | anySymbol f => trivial
  | testSymbol test f => trivial
  | finish a => trivial
  | map f p ih => exact ih h
  | filter test p ih => exact ih h
  | bind p next ih _ => exact ⟨ih h.1, Outcomes.widen hK h.2⟩
  | seq f p q ihp ihq => exact ⟨ihp h.1, ihq h.2⟩
  | or p q ihp ihq => exact ⟨ihp h.1, ihq h.2⟩
  | repetition least f p ih => exact ih h
  | spanning f p ih => exact ih h
  | rule r => trivial
  | remark notes p ih => exact ih h
  | abort x => trivial
  | lookahead p ih => exact ih h
  | custom start => exact fun st hst hsub => h st hst fun _ hc => hsub (hK hc)

theorem Grammar.Onward.mono {K K' : Set (Cursor σ)} (hK : K ⊆ K') {G : Grammar σ ε ρ}
    (h : G.Onward K) : G.Onward K' :=
  fun α r => (h α r).mono hK

section

variable {c d : Cursor σ} {st st' : Store σ ε}

mutual

/-- What lies behind `d` lies behind any cursor that `d` lies behind, in any later store. -/
theorem Outcomes.Onward.mono (hst : st.Intact) (hlater : st.Later st') {c d : Cursor σ}
    (hcd : c.Reaches d) : {α : Type} → {s : Outcomes σ ε ρ α} → s.Onward d st → s.Onward c st'
  | _, .ready _,            h => fun o ho => hcd.trans (h o ho)
  | _, .consuming _ _,      h => hcd.trans h
  | _, .scripted _ _,       h => fun st₁ hst₁ n o ho => hcd.trans (h st₁ (hlater.trans hst₁) n o ho)
  | _, .mapped _ _,         h =>
      ⟨h.1.mono hst hlater hcd, fun o o' ho => (h.2 o o' ho).imp_right hcd.trans⟩
  | _, .filtered _ s,       h => Outcomes.Onward.mono hst hlater hcd (s := s) h
  | _, .chained _ _,        h => ⟨h.1.mono hst hlater hcd, fun w hw =>
      ⟨(h.2 w hw).1.mono (hlater.held_subset hst), hcd.trans (h.2 w hw).2⟩⟩
  | _, .bound _ _ _,        h => ⟨h.1.mono hst hlater hcd, h.2.1.mono hst hlater hcd,
      Outcomes.widen (hlater.held_subset hst) h.2.2⟩
  | _, .paired _ _ _ _ _,   h => ⟨h.1.mono (hlater.held_subset hst), h.2.1.mono hst hlater hcd,
      h.2.2.mono hst hlater hcd⟩
  | _, .repeating _ _ _ _ _, h => ⟨h.1.mono (hlater.held_subset hst), h.2.1.mono hst hlater hcd,
      fun e he => hcd.trans (h.2.2 e he)⟩

theorem Frames.Onward.mono (hst : st.Intact) (hlater : st.Later st') {c d : Cursor σ}
    (hcd : c.Reaches d) : {α : Type} → {row : Frames σ ε ρ α} → row.Onward d st → row.Onward c st'
  | _, .bottom,       _ => trivial
  | _, .push _ e _ _, h =>
      ⟨h.1.mono hst hlater (.refl e), hcd.trans h.2.1, h.2.2.mono hst hlater hcd⟩

end

theorem Outcomes.Onward.later {s : Outcomes σ ε ρ α} (h : s.Onward c st) (hst : st.Intact)
    (hlater : st.Later st') : s.Onward c st' :=
  h.mono hst hlater (.refl c)

theorem Outcomes.onward_empty : (Outcomes.empty : Outcomes σ ε ρ α).Onward c st :=
  List.forall_mem_nil _

theorem Outcomes.onward_deferred {p : Parser σ ε ρ α} (hp : p.Onward st.held) :
    (Outcomes.deferred p c).Onward c st := by
  refine ⟨onward_empty, fun w hw => ?_⟩
  obtain rfl := List.mem_singleton.mp hw
  exact ⟨hp, .refl c⟩

theorem Pull.onward_none {s : Outcomes σ ε ρ α} (hs : s.Onward c st) :
    Pull.Onward ⟨none, s⟩ c st :=
  ⟨hs, forall_mem_none⟩

theorem Pull.onward_some {o : Outcome σ α} {s : Outcomes σ ε ρ α} (ho : c.Reaches o.cursor)
    (hs : s.Onward c st) : Pull.Onward ⟨some o, s⟩ c st :=
  ⟨hs, fun _ h => Option.some.inj h ▸ ho⟩

end

/-! ## Going forward -/

/-- The job does not go back. -/
def Job.Onward : Job σ ε ρ → Prop
  | .start p _ st => p.Onward st.held
  | .pull c s st  => s.Onward c st

/-- The job is sound, and neither it nor its grammar goes back. -/
structure Job.Forward (G : Grammar σ ε ρ) (t : Job σ ε ρ) : Prop where
  sound   : t.Sound G
  grammar : G.Onward t.store.held
  onward  : t.Onward

/-- What comes of the job, with the allowance `n`, goes forward from the place where the job was
    begun. -/
def Job.Delivers (G : Grammar σ ε ρ) (n : Nat) : Job σ ε ρ → Prop
  | .start p c st => ∀ s st', p.start G n c st = .done s st' →
      (Job.pull c s st').Forward G ∧ st.Later st'
  | .pull c s st  => ∀ answer rest st', s.pull G n st = .done ⟨answer, rest⟩ st' →
      (Job.pull c rest st').Forward G ∧ st.Later st' ∧
        ∀ o ∈ answer, c.Reaches o.cursor ∧ o.Known st'.held

namespace Job

variable {G : Grammar σ ε ρ} {n : Nat} {t t' : Job σ ε ρ}

theorem Sound.intact (h : t.Sound G) : t.store.Intact := by
  cases t with
  | start p c st => exact Parser.Sound.intact h
  | pull c s st => exact Outcomes.Sound.intact h

theorem Forward.later {c : Cursor σ} {s : Outcomes σ ε ρ α} {st st' : Store σ ε}
    (h : (Job.pull c s st).Forward G) (hlater : st.Later st') : (Job.pull c s st').Forward G :=
  ⟨Outcomes.Sound.later h.sound hlater, h.grammar.mono (hlater.held_subset h.sound.intact),
    Outcomes.Onward.later h.onward h.sound.intact hlater⟩

/-- What a job that goes forward calls for goes forward, if it does not go back. -/
theorem Calls.forward_of_onward (hcall : t.Calls G n t') (h : t.Forward G) (honward : t'.Onward) :
    t'.Forward G :=
  have ⟨hsound, hlater⟩ := hcall.sound h.sound
  ⟨hsound, h.grammar.mono (hlater.held_subset h.sound.intact), honward⟩

section

variable {β γ : Type} {c d : Cursor σ} {st st₁ st₂ : Store σ ε}
  (ih : ∀ t : Job σ ε ρ, t.Forward G → t.Delivers G n)

include ih

theorem Calls.delivers (hcall : t.Calls G n t') (h : t.Forward G) (honward : t'.Onward) :
    t'.Delivers G n :=
  ih t' (hcall.forward_of_onward h honward)

theorem Forward.next {next : α → Parser σ ε ρ β} {outer outer' : Outcomes σ ε ρ α}
    {inner inner' : Outcomes σ ε ρ β} {o : Outcome σ α}
    (h : (Job.pull c (.bound next outer inner) st).Forward G)
    (hinner : inner.pull G n st = .done ⟨none, inner'⟩ st₁)
    (houter : outer.pull G n st₁ = .done ⟨some o, outer'⟩ st₂) :
    (Job.start (next o.value) o.cursor st₂).Forward G ∧ (Job.pull c outer' st₂).Forward G ∧
      c.Reaches o.cursor := by
  obtain ⟨-, hlater, -⟩ := Calls.delivers ih .inner h h.onward.2.1 _ _ _ hinner
  have h₁ := h.later hlater
  obtain ⟨houter', hlater', ho⟩ := Calls.delivers ih (.outer hinner) h h₁.onward.1 _ _ _ houter
  have honward := (h₁.later hlater').onward.2.2 _ (fun _ hc => hc) o.value (ho o rfl).2.2
  exact ⟨(Calls.next hinner houter).forward_of_onward h honward, houter', (ho o rfl).1⟩

/-- **ONE CALL.** What a job that goes forward calls for goes forward. -/
theorem Calls.forward (hcall : t.Calls G n t') (h : t.Forward G) : t'.Forward G := by
  obtain ⟨-, hlater⟩ := hcall.sound h.sound
  refine hcall.forward_of_onward h ?_
  cases hcall with
  | map => exact h.onward
  | filter => exact h.onward
  | spanning => exact h.onward
  | lookahead => exact h.onward
  | rule => exact h.grammar _ _
  | remark => exact Parser.Onward.mono (hlater.held_subset h.sound.intact) h.onward
  | mapped => exact h.onward.1
  | filtered => exact h.onward
  | @refused α test s s' o c st st₁ st₂ hs htest =>
      obtain ⟨hs', -, -⟩ := Calls.delivers ih .filtered h h.onward _ _ _ hs
      exact (hs'.later (Call.later_of_run hs'.sound.intact htest)).onward
  | chained => exact h.onward.1
  | waiting hs => exact ((h.later hlater).onward.2 _ (List.mem_cons_self ..)).1
  | waited hs hstart =>
      obtain ⟨-, hlater₁, -⟩ := Calls.delivers ih .chained h h.onward.1 _ _ _ hs
      obtain ⟨hp, hd⟩ := (h.later hlater₁).onward.2 _ (List.mem_cons_self ..)
      obtain ⟨ht, -⟩ := Calls.delivers ih (.waiting hs) h hp _ _ hstart
      refine ⟨ht.onward.mono ht.sound.intact (.refl ht.sound.intact) hd, fun w hw => ?_⟩
      exact (h.later hlater).onward.2 w (List.mem_cons_of_mem _ hw)
  | inner => exact h.onward.2.1
  | outer hinner => exact (h.later hlater).onward.1
  | next hinner houter => exact (h.next ih hinner houter).1.onward
  | continued hinner houter hstart =>
      obtain ⟨hnext, houter', ho⟩ := h.next ih hinner houter
      obtain ⟨ht, hlater₁⟩ := ih _ hnext _ _ hstart
      exact ⟨(houter'.later hlater₁).onward,
        ht.onward.mono ht.sound.intact (.refl ht.sound.intact) ho, (h.later hlater).onward.2.2⟩
  | first => exact h.onward.2.1
  | second houter => exact (h.later hlater).onward.1
  | pairing houter hstart =>
      obtain ⟨houter', hlater₁, ho⟩ := Calls.delivers ih .first h h.onward.2.1 _ _ _ houter
      obtain ⟨ht, hlater₂⟩ :=
        Calls.delivers ih (.second houter) h (h.later hlater₁).onward.1 _ _ hstart
      exact ⟨(h.later hlater).onward.1, (houter'.later hlater₂).onward,
        ht.onward.mono ht.sound.intact (.refl ht.sound.intact) (ho _ rfl).1⟩
  | paired => exact h.onward.2.2
  | unpaired hinner =>
      have h₁ := h.later hlater
      exact ⟨h₁.onward.1, h₁.onward.2.1, Outcomes.onward_empty⟩
  | root => exact h.onward.1
  | rooted hstart =>
      obtain ⟨hs, -⟩ := Calls.delivers ih .root h h.onward.1 _ _ hstart
      have h₁ := h.later hlater
      exact ⟨h₁.onward.1, ⟨hs.onward, h₁.onward.2.2 _ rfl, h₁.onward.2.1⟩, forall_mem_none⟩
  | frame => exact h.onward.2.1.1
  | occurrence hs hmoved => exact (h.later hlater).onward.1
  | longer hs hmoved hstart =>
      obtain ⟨hs', hlater₁, ho⟩ := Calls.delivers ih .frame h h.onward.2.1.1 _ _ _ hs
      obtain ⟨ht, hlater₂⟩ :=
        Calls.delivers ih (.occurrence hs hmoved) h (h.later hlater₁).onward.1 _ _ hstart
      have h₂ := h.later hlater
      obtain ⟨-, hd, hbelow⟩ := h₂.onward.2.1
      have hrow := (hs'.later hlater₂).onward
      exact ⟨h₂.onward.1, ⟨ht.onward, hd.trans (ho _ rfl).1, hrow, hd, hbelow⟩, forall_mem_none⟩
  | shorter hs hshort =>
      have h₁ := h.later hlater
      exact ⟨h₁.onward.1, h₁.onward.2.1.2.2, forall_mem_none⟩

/-- What comes of a pull that a job calls for. -/
theorem Calls.pull_onward {s : Outcomes σ ε ρ α} {x : Pull σ ε ρ α}
    (hcall : t.Calls G n (.pull c s st)) (h : t.Forward G) (hpull : s.pull G n st = .done x st₁) :
    x.Onward c st₁ := by
  obtain ⟨hrest, -, ho⟩ := ih _ (hcall.forward ih h) _ _ _ hpull
  exact ⟨hrest.onward, fun o h => (ho o h).1⟩

theorem Forward.start_onward {p : Parser σ ε ρ α} {s : Outcomes σ ε ρ α}
    (h : (Job.start p c st).Forward G) (hstart : p.start G (n + 1) c st = .done s st₁) :
    s.Onward c st₁ := by
  have honward := h.onward
  cases p with
  | unit a =>
      cases hstart
      intro o ho
      obtain rfl := List.mem_singleton.mp ho
      exact .refl c
  | fail => cases hstart; exact Outcomes.onward_empty
  | anySymbol f => cases hstart; exact .refl c
  | testSymbol test f =>
      rw [Parser.start] at hstart
      split at hstart
      · cases hstart; exact Outcomes.onward_empty
      · obtain ⟨ok, st₂, -, hdone⟩ := Run.bind_eq_done_iff.mp hstart
        cases ok <;> cases hdone
        · exact Outcomes.onward_empty
        · exact .refl c
  | finish a =>
      rw [Parser.start] at hstart
      cases hend : c.isExhausted <;> rw [hend] at hstart <;> cases hstart
      · exact Outcomes.onward_empty
      · intro o ho
        obtain rfl := List.mem_singleton.mp ho
        exact .refl c
  | map f p =>
      obtain ⟨t, st₂, hp, hdone⟩ := Run.bind_eq_done_iff.mp hstart
      cases hdone
      obtain ⟨ht, -⟩ := Calls.delivers ih .map h honward _ _ hp
      refine ⟨ht.onward, fun o o' ho' => Or.inl ?_⟩
      obtain ⟨b, -, rfl⟩ := Call.result_map_eq_ok.mp ho'
      rfl
  | filter test p =>
      obtain ⟨t, st₂, hp, hdone⟩ := Run.bind_eq_done_iff.mp hstart
      cases hdone
      exact (Calls.delivers ih .filter h honward _ _ hp).1.onward
  | bind p next =>
      cases hstart
      exact ⟨Outcomes.onward_deferred honward.1, Outcomes.onward_empty, honward.2⟩
  | seq f p q =>
      cases hstart
      exact ⟨honward.2, Outcomes.onward_deferred honward.1, Outcomes.onward_empty⟩
  | or p q =>
      cases hstart
      refine ⟨Outcomes.onward_empty, fun w hw => ?_⟩
      rcases List.mem_cons.mp hw with rfl | hw
      · exact ⟨honward.1, .refl c⟩
      · obtain rfl := List.mem_singleton.mp hw
        exact ⟨honward.2, .refl c⟩
  | repetition least f p =>
      cases hstart
      refine ⟨honward, trivial, fun d hd => ?_⟩
      obtain rfl := Option.some.inj hd
      exact .refl _
  | spanning f p =>
      obtain ⟨t, st₂, hp, hdone⟩ := Run.bind_eq_done_iff.mp hstart
      cases hdone
      obtain ⟨ht, -⟩ := Calls.delivers ih .spanning h honward _ _ hp
      refine ⟨ht.onward, fun o o' ho' => Or.inl ?_⟩
      obtain rfl := Except.ok.inj ho'
      rfl
  | rule r => exact (Calls.delivers ih .rule h (h.grammar _ r) _ _ hstart).1.onward
  | remark notes p =>
      have hlater := Later.remark h.sound.intact (notes c)
      have honward' := Parser.Onward.mono (hlater.held_subset h.sound.intact) (p := p) honward
      exact (Calls.delivers ih .remark h honward' _ _ hstart).1.onward
  | abort x => cases hstart
  | lookahead p =>
      obtain ⟨t, st₂, hp, hdone⟩ := Run.bind_eq_done_iff.mp hstart
      cases hdone
      obtain ⟨ht, -⟩ := Calls.delivers ih .lookahead h honward _ _ hp
      refine ⟨ht.onward, fun o o' ho' => Or.inr ?_⟩
      obtain rfl := Except.ok.inj ho'
      exact .refl c
  | custom walk =>
      cases hstart
      exact honward st h.sound.intact (fun _ hd => hd) c (Parser.Sound.holds h.sound)

theorem Forward.pull_onward {s : Outcomes σ ε ρ α} {x : Pull σ ε ρ α}
    (h : (Job.pull c s st).Forward G) (hpull : s.pull G (n + 1) st = .done x st₁) :
    x.Onward c st₁ := by
  have honward := h.onward
  cases s with
  | ready os =>
      cases os with
      | nil => cases hpull; exact Pull.onward_none Outcomes.onward_empty
      | cons o os =>
          cases hpull
          refine Pull.onward_some (honward o (List.mem_cons_self ..)) fun o' ho' => ?_
          exact honward o' (List.mem_cons_of_mem o ho')
  | consuming f d =>
      have hd : st.Holds d := mem_held.mp (Outcomes.Sound.held h.sound).1
      rw [Outcomes.pull] at hpull
      split at hpull <;> cases hpull
      · exact Pull.onward_none Outcomes.onward_empty
      · refine ⟨Outcomes.onward_empty, fun o ho => ?_⟩
        obtain ⟨e, he, rfl⟩ := Option.map_eq_some_iff.mp ho
        exact honward.trans (h.sound.intact.reaches_of_advance hd e he)
  | scripted script k =>
      obtain ⟨-, hlater, -⟩ := Outcomes.Sound.pull h.sound hpull
      cases hpull
      exact ⟨(h.later hlater).onward, honward st (.refl h.sound.intact) k⟩
  | mapped f s =>
      obtain ⟨⟨answer, s₁⟩, st₂, hs, hdone⟩ := Run.bind_eq_done_iff.mp hpull
      obtain ⟨hs₁, -, ho⟩ := Calls.delivers ih .mapped h honward.1 _ _ _ hs
      cases answer with
      | none => cases hdone; exact Pull.onward_none ⟨hs₁.onward, honward.2⟩
      | some o =>
          obtain ⟨o', st₃, hcall, hdone⟩ := Run.bind_eq_done_iff.mp hdone
          cases hdone
          have hlater := Call.later_of_run hs₁.sound.intact hcall
          refine Pull.onward_some ?_ ⟨(hs₁.later hlater).onward, honward.2⟩
          rcases honward.2 o o' (Call.run_eq_done_iff.mp hcall).1 with heq | hreaches
          · rw [heq]
            exact (ho o rfl).1
          · exact hreaches
  | filtered test s =>
      obtain ⟨⟨answer, s₁⟩, st₂, hs, hdone⟩ := Run.bind_eq_done_iff.mp hpull
      obtain ⟨hs₁, -, ho⟩ := Calls.delivers ih .filtered h honward _ _ _ hs
      cases answer with
      | none => cases hdone; exact Pull.onward_none hs₁.onward
      | some o =>
          obtain ⟨ok, st₃, hcall, hdone⟩ := Run.bind_eq_done_iff.mp hdone
          have hlater := Call.later_of_run hs₁.sound.intact hcall
          cases ok with
          | true => cases hdone; exact Pull.onward_some (ho o rfl).1 (hs₁.later hlater).onward
          | false => exact Calls.pull_onward ih (.refused hs hcall) h hdone
  | chained s waiting =>
      obtain ⟨⟨answer, s₁⟩, st₂, hs, hdone⟩ := Run.bind_eq_done_iff.mp hpull
      obtain ⟨hs₁, hlater, ho⟩ := Calls.delivers ih .chained h honward.1 _ _ _ hs
      cases answer with
      | none =>
          rcases waiting with _ | ⟨⟨p, d⟩, waiting⟩
          · cases hdone; exact Pull.onward_none Outcomes.onward_empty
          · obtain ⟨t, st₃, hp, hdone⟩ := Run.bind_eq_done_iff.mp hdone
            exact Calls.pull_onward ih (.waited hs hp) h hdone
      | some o =>
          cases hdone
          exact Pull.onward_some (ho o rfl).1 ⟨hs₁.onward, (h.later hlater).onward.2⟩
  | bound next outer inner =>
      obtain ⟨⟨answer, inner₁⟩, st₂, hinner, hdone⟩ := Run.bind_eq_done_iff.mp hpull
      obtain ⟨hinner₁, hlater, ho⟩ := Calls.delivers ih .inner h honward.2.1 _ _ _ hinner
      cases answer with
      | none =>
          obtain ⟨⟨_ | v, outer₁⟩, st₃, houter, hdone⟩ := Run.bind_eq_done_iff.mp hdone
          · cases hdone; exact Pull.onward_none Outcomes.onward_empty
          · obtain ⟨t, st₄, hnext, hdone⟩ := Run.bind_eq_done_iff.mp hdone
            exact Calls.pull_onward ih (.continued hinner houter hnext) h hdone
      | some o =>
          cases hdone
          have h₁ := h.later hlater
          exact Pull.onward_some (ho o rfl).1 ⟨h₁.onward.1, hinner₁.onward, h₁.onward.2.2⟩
  | paired f q outer held inner =>
      cases held with
      | none =>
          obtain ⟨⟨_ | v, outer₁⟩, st₂, houter, hdone⟩ := Run.bind_eq_done_iff.mp hpull
          · cases hdone; exact Pull.onward_none Outcomes.onward_empty
          · obtain ⟨t, st₃, hq, hdone⟩ := Run.bind_eq_done_iff.mp hdone
            exact Calls.pull_onward ih (.pairing houter hq) h hdone
      | some a =>
          obtain ⟨⟨answer, inner₁⟩, st₂, hinner, hdone⟩ := Run.bind_eq_done_iff.mp hpull
          obtain ⟨hinner₁, hlater, ho⟩ := Calls.delivers ih .paired h honward.2.2 _ _ _ hinner
          cases answer with
          | none => exact Calls.pull_onward ih (.unpaired hinner) h hdone
          | some o =>
              cases hdone
              have h₁ := h.later hlater
              exact Pull.onward_some (ho o rfl).1 ⟨h₁.onward.1, h₁.onward.2.1, hinner₁.onward⟩
  | repeating least f p root row =>
      cases root with
      | some d =>
          obtain ⟨t, st₂, hp, hdone⟩ := Run.bind_eq_done_iff.mp hpull
          exact Calls.pull_onward ih (.rooted hp) h hdone
      | none =>
          cases row with
          | bottom => cases hpull; exact Pull.onward_none honward
          | push s d value below =>
              rw [Outcomes.pull] at hpull
              obtain ⟨⟨answer, s₁⟩, st₂, hs, hdone⟩ := Run.bind_eq_done_iff.mp hpull
              obtain ⟨hs₁, hlater, ho⟩ := Calls.delivers ih .frame h honward.2.1.1 _ _ _ hs
              have h₁ := h.later hlater
              obtain ⟨-, hd, hbelow⟩ := h₁.onward.2.1
              cases answer with
              | none =>
                  dsimp only at hdone
                  split at hdone
                  · cases hdone
                    exact Pull.onward_some hd ⟨h₁.onward.1, hbelow, forall_mem_none⟩
                  · exact Calls.pull_onward ih (.shorter hs ‹_›) h hdone
              | some o =>
                  dsimp only at hdone
                  split at hdone
                  · cases hdone
                    exact Pull.onward_some (hd.trans (ho o rfl).1)
                      ⟨h₁.onward.1, ⟨hs₁.onward, hd, hbelow⟩, forall_mem_none⟩
                  · obtain ⟨t, st₃, hp, hdone⟩ := Run.bind_eq_done_iff.mp hdone
                    exact Calls.pull_onward ih (.longer hs ‹_› hp) h hdone

end

/-- **ALL THAT COMES OF A TASK GOES FORWARD.** -/
theorem Forward.delivers (n : Nat) : ∀ t : Job σ ε ρ, t.Forward G → t.Delivers G n := by
  -- by induction on the allowance: all calls are made with a smaller one
  induction n with
  | zero =>
      intro t h
      cases t with
      | start p c st => exact nofun
      | pull c s st => exact nofun
  | succ n ih =>
      intro t h
      cases t with
      | start p c st =>
          intro s st' hstart
          obtain ⟨hs, hlater⟩ := Parser.Sound.start h.sound hstart
          exact ⟨⟨hs, h.grammar.mono (hlater.held_subset h.sound.intact),
            h.start_onward ih hstart⟩, hlater⟩
      | pull c s st =>
          intro answer rest st' hpull
          obtain ⟨hrest, hlater, hknown⟩ := Outcomes.Sound.pull h.sound hpull
          obtain ⟨honward, hreaches⟩ := h.pull_onward ih hpull
          exact ⟨⟨hrest, h.grammar.mono (hlater.held_subset h.sound.intact), honward⟩, hlater,
            fun o ho => ⟨hreaches o ho, hknown o ho⟩⟩

end Job

section

variable {G : Grammar σ ε ρ} {p : Parser σ ε ρ α} {c : Cursor σ} {st st' : Store σ ε}
  {s s' : Outcomes σ ε ρ α}

theorem Job.Forward.started (h : (Job.start p c st).Forward G)
    (hstart : p.started G c st = .done s st') : (Job.pull c s st').Forward G := by
  obtain ⟨n, hn⟩ := (Parser.started_eq_done_iff G c st).mp hstart
  exact (delivers n _ h _ _ hn).1

theorem Job.Forward.pulled (h : (Job.pull c s st).Forward G) {answer : Option (Outcome σ α)}
    (hpulled : s.pulled G st = .done ⟨answer, s'⟩ st') :
    (Job.pull c s' st').Forward G ∧ st.Later st' ∧
      ∀ o ∈ answer, c.Reaches o.cursor ∧ o.Known st'.held := by
  obtain ⟨n, hn⟩ := (Outcomes.pulled_eq_done_iff G st).mp hpulled
  exact delivers n _ h _ _ _ hn

/-- All its life a sequence goes forward from the place where it was begun. -/
theorem Job.Forward.becomes (h : (Job.pull c s st).Forward G) (hlife : s.Becomes G st s' st') :
    (Job.pull c s' st').Forward G := by
  induction hlife with
  | unchanged => exact h
  | wait _ later ih => exact ih.later later
  | pull _ pulled ih => exact (ih.pulled pulled).1
  | complete _ ih => exact ⟨Outcomes.Sound.other ih.sound ih.sound.held, ih.grammar, ih.onward⟩

/-- Every job at work in a parser's life goes forward, if the parser does. -/
theorem Parser.Works.forward {t : Job σ ε ρ} (hwork : p.Works G c st t)
    (h : (Job.start p c st).Forward G) : t.Forward G := by
  induction hwork with
  | start => exact h
  | pull hstart hlife => exact (h.started hstart).becomes hlife
  | @call t t' n _ hcall ih => exact hcall.forward (Job.Forward.delivers n) ih

end

end

end Backtrack

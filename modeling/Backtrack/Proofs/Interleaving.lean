import Backtrack.Proofs.World
import Mathlib.Data.Finset.Lattice.Fold
import Mathlib.Data.Fintype.Defs
import Mathlib.Logic.Function.Basic
import Mathlib.Order.Lattice.Nat

/-!
# Interleaving — tasks that share a store do not notice each other

A task is a parser to be started, a sequence to be pulled or a walk along a chain. Any number of
tasks share the store and move in turn, as a schedule says. Beside the interleaved run we keep, for
each task, the store in which that task alone has made its moves. The two stores are alike at every
point, so each move of the task gives the same report, with the same remarks, in both.

Reads are shared: what a task asks for is read unless another task has had it read before. So each
source is read as often as the task that asks for most has it read alone.
-/

namespace Backtrack

open Store

variable {σ ε : Type}

/-- What somebody is about to do with the store. -/
inductive Task (σ ε : Type) where
  /-- Start a parser at a cursor, then pull its outcomes. -/
  | parsing {ρ : Type → Type} {α : Type} (G : Grammar σ ε ρ) (p : Parser σ ε ρ α) (c : Cursor σ)
  /-- Pull outcomes. -/
  | pulling (s : Suspended σ ε)
  /-- Go on from a cursor, again and again. -/
  | walking (c : Cursor σ)
  /-- Nothing any more, after a fault. -/
  | stopped (cause : Fault)

/-- What a move brings to light. -/
inductive Report (σ : Type) where
  /-- The parser has been started. -/
  | started
  /-- The answer to a pull. -/
  | answered {α : Type} (answer : Option (Outcome σ α))
  /-- The place behind a cursor. -/
  | found (place : Option (Cursor σ))
  /-- The fault that has stopped the task. -/
  | fault (cause : Fault)

/-- A move of a task: its report, and the remarks that the caller's functions made meanwhile. -/
structure Move (σ ε : Type) where
  report : Report σ
  notes  : List ε

/-- Go on with the result, or stop at the fault. -/
def Run.settle {δ : Type 1} (run : Run σ ε δ) (next : δ → Report σ × Task σ ε) :
    Run σ ε (Report σ × Task σ ε) :=
  match run with
  | .done b st  => .done (next b) st
  | .fault x st => .done (.fault x, .stopped x) st
  | .unfinished => .unfinished

namespace Task

/-- What the task does next, and what it is then. -/
noncomputable def act (task : Task σ ε) (st : Store σ ε) : Run σ ε (Report σ × Task σ ε) :=
  match task with
  | .parsing G p c => (p.started G c st).settle fun s => (.started, .pulling ⟨_, _, G, s⟩)
  | .pulling s     => (s.outcomes.pulled s.grammar st).settle fun pulled =>
      (.answered pulled.answer, .pulling { s with outcomes := pulled.rest })
  | .walking c     =>
      .done (.found (st.advance c).1, .walking ((st.advance c).1.getD c)) (st.advance c).2
  | .stopped x     => .done (.fault x, .stopped x) st

/-- One move of a task. -/
noncomputable def move (task : Task σ ε) (st : Store σ ε) : Run σ ε (Move σ ε × Task σ ε) :=
  (task.act st).bind fun (report, task) st' =>
    .done (⟨report, st'.notes.drop st.notes.length⟩, task) st'

/-- The next `k` moves of a task that has the store to itself. -/
noncomputable def moves : Nat → Task σ ε → Store σ ε → Run σ ε (List (Move σ ε) × Task σ ε)
  | 0,     task, st => .done ([], task) st
  | k + 1, task, st =>
      (task.move st).bind fun (first, task) st =>
        (moves k task st).bind fun (rest, task) st => .done (first :: rest, task) st

end Task

section

variable {ι : Type} [DecidableEq ι]

/-- The moves of several tasks, in the order of the schedule. -/
noncomputable def interleave : List ι → (ι → Task σ ε) → Store σ ε →
    Run σ ε (List (ι × Move σ ε) × (ι → Task σ ε))
  | [],            tasks, st => .done ([], tasks) st
  | i :: schedule, tasks, st =>
      ((tasks i).move st).bind fun (first, task) st =>
        (interleave schedule (Function.update tasks i task) st).bind fun (rest, tasks) st =>
          .done ((i, first) :: rest, tasks) st

/-- The moves of one task among those of several. -/
def ownMoves (i : ι) (moves : List (ι × Move σ ε)) : List (Move σ ε) :=
  (moves.filter fun m => m.1 = i).map Prod.snd

theorem ownMoves_cons (i : ι) (m : ι × Move σ ε) (moves : List (ι × Move σ ε)) :
    ownMoves i (m :: moves) = ownMoves i [m] ++ ownMoves i moves := by
  rw [ownMoves, ← List.singleton_append, List.filter_append, List.map_append]
  rfl

/-- What each task does alone, after the first task of the schedule has made a move alone. -/
theorem Task.moves_count_cons {tasks : ι → Task σ ε} {alone : ι → Store σ ε} {i : ι}
    {first : Move σ ε} {task : Task σ ε} {own : Store σ ε}
    (hmove : (tasks i).move (alone i) = .done (first, task) own) (schedule : List ι) (j : ι) :
    (tasks j).moves ((i :: schedule).count j) (alone j) =
      ((Function.update tasks i task j).moves (schedule.count j)
        (Function.update alone i own j)).bind fun b st =>
          .done (ownMoves j [(i, first)] ++ b.1, b.2) st := by
  by_cases hj : j = i
  · have hown : ownMoves i [(i, first)] = [first] := by simp [ownMoves]
    rw [hj, Function.update_self, Function.update_self, List.count_cons_self, moves, hmove, hown]
    rfl
  · have hown : ownMoves j [(i, first)] = [] := by simp [ownMoves, Ne.symm hj]
    rw [Function.update_of_ne hj, Function.update_of_ne hj, List.count_cons_of_ne (Ne.symm hj),
      hown]
    cases (tasks j).moves (schedule.count j) (alone j) <;> rfl

end

/-! ## The moves of one task -/

section

variable [Carrier σ]

/-- The task knows only the given cursors, and will make up none. -/
def Task.Held : Task σ ε → Set (Cursor σ) → Prop
  | .parsing G p c, K => G.Honest K ∧ p.Honest K ∧ c ∈ K
  | .pulling s,     K => s.Held K
  | .walking c,     K => c ∈ K
  | .stopped _,     _ => True

theorem Task.Held.mono {task : Task σ ε} {K K' : Set (Cursor σ)} (hK : K ⊆ K')
    (h : task.Held K) : task.Held K' := by
  cases task with
  | parsing G p c => exact ⟨h.1.mono hK, h.2.1.mono hK, hK h.2.2⟩
  | pulling s => exact Suspended.Held.mono hK h
  | walking c => exact hK h
  | stopped x => trivial

/-- The task is one that the callers of this world can take up: they start what is honest at cursors
    they have, pull sequences they have, and walk on from cursors they have. -/
def Task.From (w : World σ ε) : Task σ ε → Prop
  | .parsing G p c => G.Honest w.known ∧ p.Honest w.known ∧ c ∈ w.cursors
  | .pulling s     => s ∈ w.sequences
  | .walking c     => c ∈ w.cursors
  | .stopped _     => True

theorem Task.From.held {w : World σ ε} (hw : w.Sound) {task : Task σ ε} (h : task.From w) :
    task.Held (shared w.store w.store) := by
  cases task with
  | parsing G p c =>
      exact ⟨h.1.mono hw.known_subset, h.2.1.mono hw.known_subset, hw.known_subset h.2.2⟩
  | pulling s => exact hw.sequences s h
  | walking c => exact hw.known_subset h
  | stopped x => trivial

/-- Stopping at a fault is a result like any other. -/
theorem Run.Parallel.settle {δ : Type 1} {post : δ → Set (Cursor σ) → Prop} {st₁ st₂ : Store σ ε}
    {r₁ r₂ : Run σ ε δ} {next : δ → Report σ × Task σ ε} (halike : Alike st₁ st₂)
    (h : Run.Parallel post st₁ st₂ r₁ r₂)
    (hnext : ∀ b K, shared st₁ st₂ ⊆ K → post b K → (next b).2.Held K) :
    Run.Parallel (fun b => b.2.Held) st₁ st₂ (r₁.settle next) (r₂.settle next) := by
  cases h with
  | done left right hpost =>
      exact .done left right (hnext _ _ (halike.shared_subset left right) hpost)
  | fault left right => exact .done left right trivial
  | unfinished => exact .unfinished

namespace Task

/-- Two stores that are alike see the same act. -/
theorem act_parallel {st₁ st₂ : Store σ ε} (h : Alike st₁ st₂) {task : Task σ ε}
    (htask : task.Held (shared st₁ st₂)) :
    Run.Parallel (fun b => b.2.Held) st₁ st₂ (task.act st₁) (task.act st₂) := by
  cases task with
  | parsing G p c =>
      obtain ⟨hG, hp, hc⟩ := htask
      exact (p.started_parallel c h hG hp hc).settle h fun s K hK hs => ⟨hG.mono hK, hs⟩
  | pulling s =>
      obtain ⟨hG, hs⟩ := htask
      exact (s.outcomes.pulled_parallel h hG hs).settle h
        fun pulled K hK hpulled => ⟨hG.mono hK, hpulled.1⟩
  | walking c =>
      obtain ⟨found, demand, st₁', st₂', hrun₁, hrun₂, left, right, hfound⟩ := h.advance htask
      rw [act, act, hrun₁, hrun₂]
      refine .done left right ?_
      cases found with
      | none => exact h.shared_subset left right htask
      | some d => exact hfound d rfl
  | stopped x => exact .pure h trivial

/-- They see the same move: the remarks that the act has added are the same too. -/
theorem move_parallel {st₁ st₂ : Store σ ε} (h : Alike st₁ st₂) {task : Task σ ε}
    (htask : task.Held (shared st₁ st₂)) :
    Run.Parallel (fun b => b.2.Held) st₁ st₂ (task.move st₁) (task.move st₂) := by
  have hpar := act_parallel h htask
  rw [move, move]
  revert hpar
  generalize task.act st₁ = r₁
  generalize task.act st₂ = r₂
  intro hpar
  cases hpar with
  | @done b demand notes st₁' st₂' left right hpost =>
      have hnotes : ∀ {st st' : Store σ ε}, st.Spends demand notes st' →
          st'.notes.drop st.notes.length = notes := fun hs => by rw [hs.notes, List.drop_left]
      show Run.Parallel _ _ _ (.done ((⟨b.1, _⟩ : Move σ ε), b.2) st₁')
        (.done ((⟨b.1, _⟩ : Move σ ε), b.2) st₂')
      rw [hnotes left, hnotes right]
      exact .done left right hpost
  | fault left right => exact .fault left right
  | unfinished => exact .unfinished

omit [Carrier σ] in
/-- A fault is part of the report, not the end of the run. -/
theorem move_ne_fault (task : Task σ ε) (st : Store σ ε) (x : Fault) (st' : Store σ ε) :
    task.move st ≠ .fault x st' := by
  have hsettle : ∀ {δ : Type 1} (r : Run σ ε δ) (next : δ → Report σ × Task σ ε),
      r.settle next ≠ .fault x st' := by
    intro δ r next
    cases r <;> exact nofun
  have hact : task.act st ≠ .fault x st' := by
    cases task with
    | parsing G p c => exact hsettle _ _
    | pulling s => exact hsettle _ _
    | walking c => exact nofun
    | stopped cause => exact nofun
  rw [move]
  cases hrun : task.act st with
  | done b st => exact nofun
  | fault y st =>
      intro h
      obtain ⟨rfl, rfl⟩ := Run.fault.inj h
      exact hact hrun
  | unfinished => exact nofun

/-- They see the same sequence of moves. -/
theorem moves_parallel (k : Nat) : ∀ {st₁ st₂ : Store σ ε} {task : Task σ ε}, Alike st₁ st₂ →
    task.Held (shared st₁ st₂) →
    Run.Parallel (fun b => b.2.Held) st₁ st₂ (task.moves k st₁) (task.moves k st₂) := by
  induction k with
  | zero =>
      intro st₁ st₂ task h htask
      exact .pure h htask
  | succ k ih =>
      intro st₁ st₂ task h htask
      rw [moves, moves]
      refine (move_parallel h htask).bind h ?_
      intro first st₁ st₂ h' _ htask'
      exact (ih h' htask').bind h' fun rest st₁ st₂ h'' _ htask'' => .pure h'' htask''

end Task

/-! ## The moves of several tasks -/

variable {ι : Type} [DecidableEq ι]

/-- From the store `base`, the interleaved run has come to `st` and each task alone to its own
    store: no task can tell the two apart, and each source has been read as often as the task that
    asks for most has it read alone. -/
structure Beside (base : Store σ ε) (tasks : ι → Task σ ε) (alone : ι → Store σ ε)
    (st : Store σ ε) : Prop where
  spent    : ∃ demand notes, base.Spends demand notes st
  alike    : ∀ i, Alike (alone i) st
  held     : ∀ i, (tasks i).Held (shared (alone i) st)
  reads_le : ∀ i k, (alone i).readsOf k ≤ st.readsOf k
  attained : ∀ k, st.readsOf k = base.readsOf k ∨ ∃ i, st.readsOf k = (alone i).readsOf k

variable {base : Store σ ε} {tasks : ι → Task σ ε} {alone : ι → Store σ ε} {st st' : Store σ ε}

/-- One move of one task, in the interleaved run and alone. -/
theorem Beside.step (h : Beside base tasks alone st) {i : ι} {task : Task σ ε} {own : Store σ ε}
    {demand : Nat → Nat} {notes : List ε} (left : (alone i).Spends demand notes own)
    (right : st.Spends demand notes st') (htask : task.Held (shared own st')) :
    Beside base (Function.update tasks i task) (Function.update alone i own) st' where
  spent := by
    obtain ⟨demand', notes', hspent⟩ := h.spent
    exact ⟨_, _, hspent.trans right⟩
  alike j := by
    by_cases hj : j = i
    · rw [hj, Function.update_self]
      exact (h.alike i).spends left right
    · rw [Function.update_of_ne hj]
      exact (h.alike j).spends (.refl (h.alike j).left) right
  held j := by
    by_cases hj : j = i
    · rw [hj, Function.update_self, Function.update_self]
      exact htask
    · rw [Function.update_of_ne hj, Function.update_of_ne hj]
      exact (h.held j).mono ((h.alike j).shared_subset (.refl (h.alike j).left) right)
  reads_le j k := by
    have hj := h.reads_le j k
    rw [right.reads]
    by_cases hji : j = i
    · rw [hji] at hj
      rw [hji, Function.update_self, left.reads]
      omega
    · rw [Function.update_of_ne hji]
      omega
  attained k := by
    have hi := h.reads_le i k
    rw [right.reads]
    by_cases hmore : st.readsOf k < demand k
    · -- a read that nobody has asked for before: the task that moves now leads
      refine Or.inr ⟨i, ?_⟩
      rw [Function.update_self, left.reads]
      omega
    · rw [Nat.max_eq_left (Nat.le_of_not_lt hmore)]
      rcases h.attained k with hbase | ⟨j, hj⟩
      · exact Or.inl hbase
      · refine Or.inr ⟨j, ?_⟩
        by_cases hji : j = i
        · rw [hji] at hj
          rw [hji, Function.update_self, left.reads]
          omega
        · rw [Function.update_of_ne hji, hj]

/-- **THE INTERLEAVED RUN** gets through the schedule exactly if each task alone gets through its
    own moves, and then the two are side by side again. -/
theorem Beside.run (schedule : List ι) : ∀ {tasks : ι → Task σ ε} {alone : ι → Store σ ε}
    {st : Store σ ε}, Beside base tasks alone st →
    (interleave schedule tasks st = .unfinished ∧
      ∃ i, (tasks i).moves (schedule.count i) (alone i) = .unfinished) ∨
    ∃ moves tasks' alone' st', interleave schedule tasks st = .done (moves, tasks') st' ∧
      (∀ i, (tasks i).moves (schedule.count i) (alone i) =
        .done (ownMoves i moves, tasks' i) (alone' i)) ∧
      Beside base tasks' alone' st' := by
  induction schedule with
  | nil =>
      intro tasks alone st h
      exact Or.inr ⟨[], tasks, alone, st, rfl, fun i => rfl, h⟩
  | cons i schedule ih =>
      intro tasks alone st h
      -- task `i` moves in the shared store and in its own at once
      have hpar := Task.move_parallel (h.alike i) (h.held i)
      cases hmove : (tasks i).move (alone i) with
      | unfinished =>
          rw [hmove] at hpar
          refine Or.inl ⟨?_, i, ?_⟩
          · rw [interleave, hpar.unfinished_iff.mp rfl]
            rfl
          · rw [List.count_cons_self, Task.moves, hmove]
            rfl
      | fault x st' => exact absurd hmove (Task.move_ne_fault _ _ _ _)
      | done b own =>
          obtain ⟨first, task⟩ := b
          rw [hmove] at hpar
          obtain ⟨demand, notes, st', hrun, left, right, htask⟩ := hpar.of_done
          rcases ih (h.step left right htask) with ⟨hstuck, j, hj⟩ | hdone
          · refine Or.inl ⟨?_, j, ?_⟩
            · rw [interleave, hrun]
              show (interleave schedule _ st').bind _ = _
              rw [hstuck]
              rfl
            · rw [Task.moves_count_cons hmove, hj]
              rfl
          · obtain ⟨moves, tasks', alone', st'', hrest, halone, hbeside⟩ := hdone
            refine Or.inr ⟨(i, first) :: moves, tasks', alone', st'', ?_, fun j => ?_, hbeside⟩
            · rw [interleave, hrun]
              show (interleave schedule _ st').bind _ = _
              rw [hrest]
              rfl
            · rw [ownMoves_cons j (i, first) moves, Task.moves_count_cons hmove, halone j]
              rfl

omit [DecidableEq ι] in
theorem Beside.readsOf_eq [Fintype ι] (h : Beside base tasks alone st) (k : Nat) :
    st.readsOf k = max (base.readsOf k) (Finset.univ.sup fun i => (alone i).readsOf k) := by
  refine Nat.le_antisymm ?_ (Nat.max_le.mpr ⟨?_, Finset.sup_le fun i _ => h.reads_le i k⟩)
  · rcases h.attained k with hbase | ⟨i, hi⟩
    · rw [hbase]
      exact Nat.le_max_left _ _
    · rw [hi]
      have hle := Finset.le_sup (f := fun i => (alone i).readsOf k) (Finset.mem_univ i)
      exact Nat.le_trans hle (Nat.le_max_right _ _)
  · obtain ⟨demand, notes, hspent⟩ := h.spent
    rw [hspent.reads]
    exact Nat.le_max_left _ _

omit [DecidableEq ι] in
/-- Whoever does a task over again finds the same, and nothing more is read for it. -/
theorem Beside.again (h : Beside base tasks alone st) (hbase : base.Intact) {i : ι} {k : Nat}
    {task : Task σ ε} (htask : task.Held (shared base base)) {b : List (Move σ ε) × Task σ ε}
    (hrun : task.moves k base = .done b (alone i)) :
    ∃ again, task.moves k st = .done b again ∧ again.chains = st.chains := by
  obtain ⟨demand, notes, hspent⟩ := h.spent
  have halike : Alike base st := ⟨hbase, hspent.intact, fun k => (hspent.sources k).symm⟩
  have hsub : shared base base ⊆ shared base st :=
    fun c hc => ⟨hc.1, hspent.grows.holds hbase hspent.intact hc.2⟩
  have hpar := Task.moves_parallel k halike (htask.mono hsub)
  rw [hrun] at hpar
  obtain ⟨demand', notes', again, hagain, left, right, -⟩ := hpar.of_done
  refine ⟨again, hagain, hspent.intact.chains_eq right.intact right.sources fun k => ?_⟩
  -- what the task asks for it has had read alone, so it has been read here
  have hle := h.reads_le i k
  rw [left.reads] at hle
  rw [right.reads]
  omega

/-- **INTERLEAVING INDEPENDENCE.** Any finite family of tasks of a reachable world, under any
    schedule: the interleaved run gets through unless some task alone does not get through its own
    moves. Each task makes the moves it makes alone, with the same reports and remarks, and is the
    same task afterwards. Each source has been read as often as in that lonely run which has it read
    most. And whoever does a task over again finds the same, and nothing more is read for it. -/
theorem interleaving_independent [Fintype ι] {w : World σ ε} (hw : w.Reachable)
    {tasks : ι → Task σ ε} (htasks : ∀ i, (tasks i).From w) (schedule : List ι) :
    (interleave schedule tasks w.store = .unfinished ∧
      ∃ i, (tasks i).moves (schedule.count i) w.store = .unfinished) ∨
    ∃ (moves : List (ι × Move σ ε)) (tasks' : ι → Task σ ε) (alone : ι → Store σ ε)
      (st : Store σ ε), interleave schedule tasks w.store = .done (moves, tasks') st ∧
      (∀ i, (tasks i).moves (schedule.count i) w.store =
        .done (ownMoves i moves, tasks' i) (alone i)) ∧
      (∀ k, st.readsOf k =
        max (w.store.readsOf k) (Finset.univ.sup fun i => (alone i).readsOf k)) ∧
      ∀ i, ∃ again, (tasks i).moves (schedule.count i) st =
        .done (ownMoves i moves, tasks' i) again ∧ again.chains = st.chains := by
  have hsound := hw.sound
  have hheld : ∀ i, (tasks i).Held (shared w.store w.store) := fun i => (htasks i).held hsound
  have hstart : Beside w.store tasks (fun _ => w.store) w.store :=
    ⟨⟨_, _, .refl hsound.intact⟩, fun _ => hsound.alike, hheld, fun _ _ => Nat.le_refl _,
      fun _ => Or.inl rfl⟩
  rcases hstart.run schedule with hstuck | ⟨moves, tasks', alone, st, hrun, halone, hbeside⟩
  · exact Or.inl hstuck
  · refine Or.inr ⟨moves, tasks', alone, st, hrun, halone, hbeside.readsOf_eq, fun i => ?_⟩
    exact hbeside.again hsound.intact (hheld i) (halone i)

end

/-- A parser of one symbol and a walk, both from the same cursor. -/
def itemAndWalk : Bool → Task Nat Unit
  | true  => .parsing Grammar.empty .item ⟨0, 0, 0, some 7⟩
  | false => .walking ⟨0, 0, 0, some 7⟩

/-- Alone, two moves of the parser have the source read twice and two moves of the walk three times;
    in turn, they have it read three times. -/
theorem itemAndWalk_interleaved :
    let _ : Carrier Nat := .none
    World.pair.Reachable ∧ (∀ i, (itemAndWalk i).From World.pair) ∧
      ∃ moves tasks st, interleave [true, false, true, false] itemAndWalk World.pair.store =
        .done (moves, tasks) st ∧ st.readsOf 0 = 3 := by
  intro _
  have hreach := World.reachable_pair
  have hfrom : ∀ i, (itemAndWalk i).From World.pair := by
    intro i
    cases i with
    | false => exact List.mem_singleton.mpr rfl
    | true =>
        have hplain : (Parser.item : Parser Nat Unit (fun _ => Empty) Nat).Plain := trivial
        exact ⟨(fun α r => r.elim), hplain.honest _, List.mem_singleton.mpr rfl⟩
  have halone : ∀ i, ∃ b st, (itemAndWalk i).moves 2 World.pair.store = .done b st ∧
      st.readsOf 0 = if i then 2 else 3 := by
    intro i
    cases i with
    | false => exact ⟨_, _, rfl, rfl⟩
    | true =>
        rw [Task.moves, Task.move, itemAndWalk, Task.act, Parser.item, Parser.started_anySymbol]
        simp only [Run.settle, Run.bind]
        rw [Task.moves, Task.move, Task.act, Outcomes.pulled_consuming]
        exact ⟨_, _, rfl, rfl⟩
  have hcount : ∀ i, [true, false, true, false].count i = 2 := by decide
  refine ⟨hreach, hfrom, ?_⟩
  rcases interleaving_independent hreach hfrom [true, false, true, false] with
    ⟨-, i, hstuck⟩ | ⟨moves, tasks, alone, st, hrun, hown, hreads, -⟩
  · obtain ⟨b, st, hmoves, -⟩ := halone i
    rw [hcount, hmoves] at hstuck
    cases hstuck
  · have hmost : ∀ i, (alone i).readsOf 0 = if i then 2 else 3 := by
      intro i
      obtain ⟨b, st, hmoves, hst⟩ := halone i
      have heq := hown i
      rw [hcount, hmoves] at heq
      rw [← (Run.done.inj heq).2, hst]
    refine ⟨moves, tasks, st, hrun, ?_⟩
    rw [hreads]
    simp only [hmost]
    decide

end Backtrack

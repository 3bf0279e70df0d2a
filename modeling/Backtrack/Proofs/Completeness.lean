import Backtrack.Proofs.MonadLaws
import Backtrack.Proofs.Successes

/-!
# Completeness — a sequence that ends has a list

Where the list of successes exists, pulling delivers it. This file goes the other way: if a parser
is started and pulled until it answers nothing, then its answers are a list that `Parser.enumerate`
gives, at some depth. So the list of successes exists exactly where pulling comes to an end.

`Outcomes.Means` tells from the lists of the parsers inside a suspended sequence what the sequence
is going to deliver. These lists need not exist, so it is a relation, and it knows nothing of pulls.
A pull takes off the first item: whatever the rest means, the sequence meant the same with the
outcome in front. When the last pull finds nothing, the meaning of the empty rest is known, and with
it, from the last pull back to the first, what was meant at the start.
-/

namespace Backtrack

open Store

universe u v

variable {σ ε : Type} {ρ : Type → Type} {α β γ : Type}

/-! ## Depths -/

theorem concatMap?_mono {f g : α → Option (List β)} (h : ∀ x l, f x = some l → g x = some l) :
    ∀ {xs : List α} {l : List β}, concatMap? f xs = some l → concatMap? g xs = some l
  | [],      _, hl => hl
  | x :: xs, _, hl => by
      obtain ⟨bs, bs', hx, hxs, rfl⟩ := concatMap?_cons_eq_some_iff.mp hl
      exact concatMap?_cons_eq_some_iff.mpr ⟨bs, bs', h x bs hx, concatMap?_mono h hxs, rfl⟩

theorem rows?_mono {occurrences occurrences' : Nat → Option (List (α × Nat))}
    (h : ∀ j l, occurrences j = some l → occurrences' j = some l) (least n : Nat) :
    ∀ {n'}, n ≤ n' → ∀ row j found, rows? occurrences least n row j = some found →
      rows? occurrences' least n' row j = some found := by
  induction n with
  | zero =>
      intro n' _ row j found hfound
      exact nomatch hfound
  | succ n ih =>
      intro n' hn row j found hfound
      obtain ⟨n', rfl⟩ := Nat.exists_eq_add_one.mpr (Nat.zero_lt_of_lt hn)
      obtain ⟨here, hhere, hmap⟩ := Option.bind_eq_some_iff.mp hfound
      obtain ⟨longer, hlonger, rfl⟩ := Option.map_eq_some_iff.mp hmap
      refine Option.bind_eq_some_iff.mpr ⟨here, h j here hhere, ?_⟩
      refine Option.map_eq_some_iff.mpr ⟨longer, concatMap?_mono (fun x l hx => ?_) hlonger, rfl⟩
      obtain ⟨a, k⟩ := x
      dsimp only at hx ⊢
      by_cases hk : k = j
      · rw [if_pos hk] at hx ⊢
        exact hx
      · rw [if_neg hk] at hx ⊢
        exact ih (Nat.le_of_succ_le_succ hn) _ _ _ hx

namespace Parser

variable {G : Grammar σ ε ρ} {input : List σ} {n n' : Nat}

/-- A depth that was enough stays enough when it is raised. -/
theorem enumerate_succ (n : Nat) : ∀ {α : Type} (p : Parser σ ε ρ α) (j : Nat) (l : List (α × Nat)),
    p.enumerate G input n j = some l → p.enumerate G input (n + 1) j = some l := by
  induction n with
  | zero =>
      intro α p j l h
      simp [enumerate] at h
  | succ n ih =>
      intro α p j l h
      cases p with
      | unit a => exact h
      | fail => exact h
      | anySymbol f => exact h
      | testSymbol test f => exact h
      | finish a => exact h
      | map f p =>
          obtain ⟨found, hfound, hl⟩ := Option.bind_eq_some_iff.mp h
          exact Option.bind_eq_some_iff.mpr ⟨found, ih p j found hfound, hl⟩
      | filter test p =>
          obtain ⟨found, hfound, hl⟩ := Option.bind_eq_some_iff.mp h
          exact Option.bind_eq_some_iff.mpr ⟨found, ih p j found hfound, hl⟩
      | bind p next =>
          obtain ⟨found, hfound, hl⟩ := Option.bind_eq_some_iff.mp h
          refine Option.bind_eq_some_iff.mpr ⟨found, ih p j found hfound, ?_⟩
          exact concatMap?_mono (fun x l => ih (next x.1) x.2 l) hl
      | seq f p q =>
          obtain ⟨found, hfound, hl⟩ := Option.bind_eq_some_iff.mp h
          refine Option.bind_eq_some_iff.mpr ⟨found, ih p j found hfound, ?_⟩
          refine concatMap?_mono (fun x l hx => ?_) hl
          obtain ⟨second, hsecond, rfl⟩ := Option.map_eq_some_iff.mp hx
          exact Option.map_eq_some_iff.mpr ⟨second, ih q x.2 second hsecond, rfl⟩
      | or p q =>
          obtain ⟨first, hfirst, hmap⟩ := Option.bind_eq_some_iff.mp h
          obtain ⟨second, hsecond, rfl⟩ := Option.map_eq_some_iff.mp hmap
          refine Option.bind_eq_some_iff.mpr ⟨first, ih p j first hfirst, ?_⟩
          exact Option.map_eq_some_iff.mpr ⟨second, ih q j second hsecond, rfl⟩
      | repetition least f p =>
          obtain ⟨rows, hrows, rfl⟩ := Option.map_eq_some_iff.mp h
          exact Option.map_eq_some_iff.mpr ⟨rows,
            rows?_mono (ih p) least n (Nat.le_succ n) [] j rows hrows, rfl⟩
      | spanning f p =>
          obtain ⟨found, hfound, rfl⟩ := Option.map_eq_some_iff.mp h
          exact Option.map_eq_some_iff.mpr ⟨found, ih p j found hfound, rfl⟩
      | rule r => exact ih (G.body r) j l h
      | remark notes p => exact ih p j l h
      | abort x => simp [enumerate] at h
      | lookahead p =>
          obtain ⟨found, hfound, rfl⟩ := Option.map_eq_some_iff.mp h
          exact Option.map_eq_some_iff.mpr ⟨found, ih p j found hfound, rfl⟩
      | custom start => simp [enumerate] at h

theorem enumerate_mono (hn : n ≤ n') {p : Parser σ ε ρ α} {j : Nat} {l : List (α × Nat)}
    (h : p.enumerate G input n j = some l) : p.enumerate G input n' j = some l := by
  induction hn with
  | refl => exact h
  | step _ ih => exact enumerate_succ _ p j l ih

end Parser

/-- The lists that a relation gives for each item, one behind the other. -/
inductive Concats {τ : Type u} (R : τ → List β → Prop) : List τ → List β → Prop where
  | nil : Concats R [] []
  | cons {a : τ} {as : List τ} {bs cs : List β} (head : R a bs) (tail : Concats R as cs) :
      Concats R (a :: as) (bs ++ cs)

theorem Concats.nil_left {τ : Type u} {R : τ → List β → Prop} {l : List β}
    (h : Concats R [] l) : l = [] := by
  cases h with
  | nil => rfl

theorem Concats.eq_map {R : α → List β → Prop} {g : α → β}
    (hR : ∀ x found, R x found → found = [g x]) {xs : List α} {l : List β} (h : Concats R xs l) :
    l = xs.map g := by
  induction h with
  | nil => rfl
  | cons head _ ih => rw [hR _ _ head, ih]; rfl

/-- If each list is found at some depth, then all of them are at one. -/
theorem Concats.exists_depth {R : α → List β → Prop} {F : Nat → α → Option (List β)}
    (hF : ∀ d d' x l, d ≤ d' → F d x = some l → F d' x = some l)
    (hR : ∀ x found, R x found → ∃ d, F d x = some found) {xs : List α} {l : List β}
    (h : Concats R xs l) (least : Nat) : ∃ d ≥ least, concatMap? (F d) xs = some l := by
  induction h with
  | nil => exact ⟨least, Nat.le_refl least, rfl⟩
  | cons head tail ih =>
      obtain ⟨d, hd⟩ := hR _ _ head
      obtain ⟨d', hle, hd'⟩ := ih
      refine ⟨max d d', Nat.le_trans hle (Nat.le_max_right d d'), ?_⟩
      refine concatMap?_cons_eq_some_iff.mpr ⟨_, _, hF _ _ _ _ (Nat.le_max_left d d') hd, ?_, rfl⟩
      exact concatMap?_mono (fun x l => hF _ _ x l (Nat.le_max_right d d')) hd'

namespace Parser

variable (G : Grammar σ ε ρ) (input : List σ)

/-- The list of successes exists, and is this one. -/
def Enumerates (p : Parser σ ε ρ α) (j : Nat) (l : List (α × Nat)) : Prop :=
  ∃ d, p.enumerate G input d j = some l

/-- The rows of occurrences that come of one more occurrence behind `row`, which ends at `j`. -/
def extension? (least : Nat) (p : Parser σ ε ρ α) (row : List α) (j d : Nat) (x : α × Nat) :
    Option (List (List α × Nat)) :=
  if x.2 = j then some [(row ++ [x.1], x.2)]
  else rows? (p.enumerate G input d) least d (row ++ [x.1]) x.2

/-- The rows of occurrences that go on from `row` exist, and are these. -/
def EnumeratesRows (least : Nat) (p : Parser σ ε ρ α) (row : List α) (j : Nat)
    (rows : List (List α × Nat)) : Prop :=
  ∃ d, rows? (p.enumerate G input d) least d row j = some rows

/-- The same for the rows that come of one more occurrence. -/
def Extends (least : Nat) (p : Parser σ ε ρ α) (row : List α) (j : Nat) (x : α × Nat)
    (rows : List (List α × Nat)) : Prop :=
  ∃ d, p.extension? G input least row j d x = some rows

variable {G input} {least : Nat} {p : Parser σ ε ρ α} {row : List α} {j : Nat} {x : α × Nat}

theorem extension?_mono {d d' : Nat} (hd : d ≤ d') {rows : List (List α × Nat)}
    (h : p.extension? G input least row j d x = some rows) :
    p.extension? G input least row j d' x = some rows := by
  rw [extension?] at h ⊢
  by_cases hx : x.2 = j
  · rw [if_pos hx] at h ⊢
    exact h
  · rw [if_neg hx] at h ⊢
    exact rows?_mono (fun k l => enumerate_mono hd) least d hd _ _ _ h

theorem extends_of_eq (h : x.2 = j) :
    p.Extends G input least row j x [(row ++ [x.1], x.2)] :=
  ⟨0, if_pos h⟩

theorem EnumeratesRows.extends (h : x.2 ≠ j) {rows : List (List α × Nat)}
    (hrows : p.EnumeratesRows G input least (row ++ [x.1]) x.2 rows) :
    p.Extends G input least row j x rows := by
  obtain ⟨d, hrows⟩ := hrows
  exact ⟨d, (if_neg h).trans hrows⟩

/-- A parser whose list puts together what is found for each item in the list of another. -/
theorem Enumerates.concat {q : Parser σ ε ρ β} {F : Nat → α × Nat → Option (List (β × Nat))}
    {R : α × Nat → List (β × Nat) → Prop} {l₀ : List (α × Nat)} {l : List (β × Nat)}
    (hp : p.Enumerates G input j l₀) (h : Concats R l₀ l)
    (hq : ∀ n, q.enumerate G input (n + 1) j =
      (p.enumerate G input n j).bind (concatMap? (F n)))
    (hF : ∀ d d' x l, d ≤ d' → F d x = some l → F d' x = some l)
    (hR : ∀ x found, R x found → ∃ d, F d x = some found) : q.Enumerates G input j l := by
  obtain ⟨d₀, hp⟩ := hp
  obtain ⟨d, hd, hl⟩ := h.exists_depth hF hR d₀
  refine ⟨d + 1, ?_⟩
  rw [hq]
  exact Option.bind_eq_some_iff.mpr ⟨l₀, enumerate_mono hd hp, hl⟩

/-- The occurrences at a place, and the rows that come of each. -/
theorem Enumerates.rows {l : List (α × Nat)} {longer : List (List α × Nat)} (hl : p.Enumerates G input j l)
    (hlonger : Concats (p.Extends G input least row j) l longer) :
    p.EnumeratesRows G input least row j
      (longer ++ if least ≤ row.length then [(row, j)] else []) := by
  obtain ⟨d₀, hl⟩ := hl
  obtain ⟨d, hd, hlonger⟩ := hlonger.exists_depth (F := p.extension? G input least row j)
    (fun _ _ _ _ hd h => extension?_mono hd h) (fun _ _ h => h) d₀
  refine ⟨d + 1, Option.bind_eq_some_iff.mpr ⟨l, enumerate_mono (by omega) hl, ?_⟩⟩
  refine Option.map_eq_some_iff.mpr ⟨longer, concatMap?_mono (fun x rows hx => ?_) hlonger, rfl⟩
  rw [extension?] at hx
  obtain ⟨a, k⟩ := x
  dsimp only at hx ⊢
  by_cases hk : k = j
  · rw [if_pos hk] at hx ⊢
    exact hx
  · rw [if_neg hk] at hx ⊢
    exact rows?_mono (enumerate_succ d p) least d (Nat.le_refl d) _ _ _ hx

end Parser

/-! ## What a sequence means -/

section

variable (G : Grammar σ ε ρ) (input : List σ) (source : Source σ) (i : Nat)

mutual

/-- What the sequence is going to deliver, as far as the lists of its parsers exist. -/
def Outcomes.Means : {α : Type} → Outcomes σ ε ρ α → List (α × Nat) → Prop
  | _, .ready os, l => l = os.map fun o => (o.value, o.cursor.position)
  | _, .consuming f c, l => l = input[c.position]?.elim [] fun x => [(f x, c.position + 1)]
  | _, .scripted _ _, _ => False
  | _, .mapped f s, l => ∃ l₀, s.Means l₀ ∧ Concats (fun x found =>
      ∃ o, (f ⟨x.1, source.cursorAt i x.2⟩).result = .ok o ∧
        found = [(o.value, o.cursor.position)]) l₀ l
  | _, .filtered test s, l => ∃ l₀, s.Means l₀ ∧ Concats (fun x found =>
      ∃ ok, (test ⟨x.1, source.cursorAt i x.2⟩).result = .ok ok ∧
        found = if ok then [x] else []) l₀ l
  | α, .chained s waiting, l => ∃ l₁ l₂, s.Means l₁ ∧
      Concats (fun w : Parser σ ε ρ α × Cursor σ => w.1.Enumerates G input w.2.position) waiting l₂ ∧
      l = l₁ ++ l₂
  | _, .bound next outer inner, l => ∃ l₀ l₁ l₂, inner.Means l₁ ∧ outer.Means l₀ ∧
      Concats (fun x => (next x.1).Enumerates G input x.2) l₀ l₂ ∧ l = l₁ ++ l₂
  | _, .paired f q outer none _, l => ∃ l₀, outer.Means l₀ ∧ Concats (fun x found =>
      ∃ l', q.Enumerates G input x.2 l' ∧ found = l'.map fun y => (f x.1 y.1, y.2)) l₀ l
  | _, .paired f q outer (some a) inner, l => ∃ l₀ l₁ l₂, inner.Means l₁ ∧ outer.Means l₀ ∧
      Concats (fun x found =>
        ∃ l', q.Enumerates G input x.2 l' ∧ found = l'.map fun y => (f x.1 y.1, y.2)) l₀ l₂ ∧
      l = (l₁.map fun y => (f a y.1, y.2)) ++ l₂
  | _, .repeating least f p (some c) _, l => ∃ rows,
      p.EnumeratesRows G input least [] c.position rows ∧ l = rows.map fun y => (f y.1, y.2)
  | _, .repeating least f p none frames, l => ∃ rows,
      frames.Means least (p.Extends G input least) rows ∧ l = rows.map fun y => (f y.1, y.2)

/-- The rows that a stack of frames is going to deliver, where `grown` tells the rows that come of
    one more occurrence: first the rows from the topmost frame, its own row behind them, and then
    those from the frames below. -/
def Frames.Means : {α : Type} → Frames σ ε ρ α → Nat →
    (List α → Nat → α × Nat → List (List α × Nat) → Prop) → List (List α × Nat) → Prop
  | _, .bottom, _, _, rows => rows = []
  | _, .push s c value below, least, grown, rows => ∃ l longer rest, s.Means l ∧
      Concats (grown (below.values value.toList) c.position) l longer ∧
      below.Means least grown rest ∧
      rows = longer ++ (if least ≤ (below.values value.toList).length then
        [(below.values value.toList, c.position)] else []) ++ rest

end

/-- One of the first `m` places of the source. -/
def Source.Places (m : Nat) (c : Cursor σ) : Prop :=
  ∃ j < m, c = source.cursorAt i j

mutual

/-- All cursors in the sequence are among the first `m` places of the source, and its parsers are
    put together without walks of the caller's own. -/
def Outcomes.Along : {α : Type} → Outcomes σ ε ρ α → Nat → Prop
  | _, .ready os,                  m => ∀ o ∈ os, source.Places i m o.cursor
  | _, .consuming _ c,             m => source.Places i m c
  | _, .scripted _ _,              _ => False
  | _, .mapped f s,                m => s.Along m ∧ ∀ o o', (f o).result = .ok o' →
      o'.cursor = o.cursor ∨ source.Places i m o'.cursor
  | _, .filtered _ s,              m => s.Along m
  | _, .chained s waiting,         m => s.Along m ∧
      ∀ w ∈ waiting, w.1.Plain ∧ source.Places i m w.2
  | _, .bound next outer inner,    m => (∀ a, (next a).Plain) ∧ outer.Along m ∧ inner.Along m
  | _, .paired _ q outer _ inner,  m => q.Plain ∧ outer.Along m ∧ inner.Along m
  | _, .repeating _ _ p root row,  m => p.Plain ∧ row.Along m ∧
      ∀ c ∈ root, source.Places i m c ∧ row = .bottom

/-- The same for a row of occurrences. -/
def Frames.Along : {α : Type} → Frames σ ε ρ α → Nat → Prop
  | _, .bottom,           _ => True
  | _, .push s c _ below, m => s.Along m ∧ source.Places i m c ∧ below.Along m

end

/-- What a pull of the sequence accounts for: it has found nothing, and nothing was meant; or it has
    found the first item of whatever was meant. -/
inductive Pull.Accounts (s : Outcomes σ ε ρ α) (m : Nat) : Pull σ ε ρ α → Prop where
  | none {rest : Outcomes σ ε ρ α} (hs : s.Means G input source i []) : Accounts s m ⟨.none, rest⟩
  | some {a : α} {j : Nat} {rest : Outcomes σ ε ρ α} (hj : j < m) (hrest : rest.Along source i m)
      (hs : ∀ l, rest.Means G input source i l → s.Means G input source i ((a, j) :: l)) :
      Accounts s m ⟨.some ⟨a, source.cursorAt i j⟩, rest⟩

/-- If the run comes to a result, the result is as it should be, and the source has been read at
    least as far as before. -/
inductive Run.Leads {δ : Type u} (post : Nat → δ → Prop) (m : Nat) : Run σ ε δ → Prop where
  | done {b : δ} {m' : Nat} {st : Store σ ε} (hm : m ≤ m') (hst : Feeds source i m' st)
      (hpost : post m' b) : Leads post m (.done b st)
  | fault (x : Fault) (st : Store σ ε) : Leads post m (.fault x st)
  | unfinished : Leads post m .unfinished

end

section

variable {G : Grammar σ ε ρ} {input : List σ} {source : Source σ} {i m m' : Nat}

theorem Source.Places.mono (hm : m ≤ m') {c : Cursor σ} (h : source.Places i m c) :
    source.Places i m' c := by
  obtain ⟨j, hj, rfl⟩ := h
  exact ⟨j, Nat.lt_of_lt_of_le hj hm, rfl⟩

mutual

theorem Outcomes.Along.mono (hm : m ≤ m') : {α : Type} → {s : Outcomes σ ε ρ α} →
    s.Along source i m → s.Along source i m'
  | _, .ready _,             h => fun o ho => (h o ho).mono hm
  | _, .consuming _ _,       h => Source.Places.mono hm h
  | _, .mapped _ _,          h =>
      ⟨h.1.mono hm, fun o o' ho => (h.2 o o' ho).imp_right (·.mono hm)⟩
  | _, .filtered _ s,        h => Outcomes.Along.mono hm (s := s) h
  | _, .chained _ _,         h => ⟨h.1.mono hm, fun w hw => ⟨(h.2 w hw).1, (h.2 w hw).2.mono hm⟩⟩
  | _, .bound _ _ _,         h => ⟨h.1, h.2.1.mono hm, h.2.2.mono hm⟩
  | _, .paired _ _ _ _ _,    h => ⟨h.1, h.2.1.mono hm, h.2.2.mono hm⟩
  | _, .repeating _ _ _ _ _, h =>
      ⟨h.1, h.2.1.mono hm, fun c hc => ⟨(h.2.2 c hc).1.mono hm, (h.2.2 c hc).2⟩⟩

theorem Frames.Along.mono (hm : m ≤ m') : {α : Type} → {row : Frames σ ε ρ α} →
    row.Along source i m → row.Along source i m'
  | _, .bottom,       _ => trivial
  | _, .push _ _ _ _, h => ⟨h.1.mono hm, h.2.1.mono hm, h.2.2.mono hm⟩

end

theorem Outcomes.along_empty : (empty : Outcomes σ ε ρ α).Along source i m :=
  List.forall_mem_nil _

theorem Outcomes.along_deferred {p : Parser σ ε ρ α} (hp : p.Plain) {c : Cursor σ}
    (hc : source.Places i m c) : (deferred p c).Along source i m := by
  refine ⟨along_empty, fun w hw => ?_⟩
  obtain rfl := List.mem_singleton.mp hw
  exact ⟨hp, hc⟩

/-- A parser that waits means its list. -/
theorem Outcomes.Means.of_deferred {p : Parser σ ε ρ α} {c : Cursor σ} {l : List (α × Nat)}
    (h : (deferred p c).Means G input source i l) : p.Enumerates G input c.position l := by
  obtain ⟨l₁, l₂, rfl, hwaiting, rfl⟩ := h
  cases hwaiting with
  | cons hp hnone =>
      rw [hnone.nil_left, List.append_nil]
      exact hp

end

namespace Run.Leads

variable {source : Source σ} {i : Nat} {δ : Type u} {η : Type v} {post : Nat → δ → Prop}
  {post' : Nat → η → Prop} {m m' : Nat}

theorem pure {st : Store σ ε} (hst : Feeds source i m st) {b : δ} (h : post m b) :
    Leads source i post m (.done b st) :=
  .done (Nat.le_refl m) hst h

/-- What went before the run counts as part of it. -/
theorem after {r : Run σ ε δ} (hm : m ≤ m') (h : Leads source i post m' r) :
    Leads source i post m r := by
  cases h with
  | done hm' hst hpost => exact .done (Nat.le_trans hm hm') hst hpost
  | fault x st => exact .fault x st
  | unfinished => exact .unfinished

theorem imp {post₁ : Nat → δ → Prop} {r : Run σ ε δ} (h : Leads source i post m r)
    (hpost : ∀ m' ≥ m, ∀ b, post m' b → post₁ m' b) : Leads source i post₁ m r := by
  cases h with
  | done hm hst hb => exact .done hm hst (hpost _ hm _ hb)
  | fault x st => exact .fault x st
  | unfinished => exact .unfinished

/-- One action after another. -/
theorem bind {r : Run σ ε δ} {k : δ → Store σ ε → Run σ ε η} (h : Leads source i post m r)
    (hk : ∀ m' ≥ m, ∀ b st, Feeds source i m' st → post m' b → Leads source i post' m' (k b st)) :
    Leads source i post' m (r.bind k) := by
  cases h with
  | done hm hst hpost => exact .after hm (hk _ hm _ _ hst hpost)
  | fault x st => exact .fault x st
  | unfinished => exact .unfinished

end Run.Leads

/-! ## Starting -/

section

variable {G : Grammar σ ε ρ} {input : List σ} {source : Source σ} {i : Nat}

/-- A call of one of the caller's functions. -/
theorem Call.run_leads {m : Nat} {st : Store σ ε} (hst : Feeds source i m st) (call : Call ε β) :
    Run.Leads source i (fun _ b => call.result = .ok b) m (call.run st) := by
  have hremark := (hst.remark call.notes).mono hst.reads
  rw [Call.run]
  cases call.result with
  | ok b => exact .pure hremark rfl
  | error x => exact .fault x _

variable (G input source i) in
/-- The sequence has come of the parser at position `j`: what it means is the list of the parser. -/
structure Outcomes.StandsFor (p : Parser σ ε ρ α) (j m : Nat) (s : Outcomes σ ε ρ α) : Prop where
  along : s.Along source i m
  enumerates : ∀ l, s.Means G input source i l → p.Enumerates G input j l

namespace Parser

variable {m j : Nat} {st : Store σ ε}

/-- The test on the current symbol decides what the sequence is. -/
theorem start_leads_testSymbol (hinput : source.Delivers input) (test : σ → Call ε Bool) (f : σ → α)
    (n : Nat) (hj : j < m) (hst : Feeds source i m st) :
    Run.Leads source i (Outcomes.StandsFor G input source i (testSymbol test f) j) m
      ((testSymbol test f : Parser σ ε ρ α).start G (n + 1) (source.cursorAt i j) st) := by
  have hcurrent : (source.cursorAt i j).current = input[j]? := (hst.mono hj).answer_eq hinput
  rw [start, hcurrent]
  cases hx : input[j]? with
  | none =>
      refine .pure hst ⟨Outcomes.along_empty, ?_⟩
      rintro l rfl
      exact ⟨1, by rw [enumerate, hx]; rfl⟩
  | some x =>
      refine (Call.run_leads hst (test x)).bind fun m' hm ok st hst hok => .pure hst ?_
      have hlist : (testSymbol test f : Parser σ ε ρ α).enumerate G input 1 j =
          some (if ok then [(f x, j + 1)] else []) := by
        rw [enumerate, hx]
        dsimp only
        rw [hok]
        rfl
      cases ok with
      | true =>
          refine ⟨⟨j, Nat.lt_of_lt_of_le hj hm, rfl⟩, ?_⟩
          rintro l rfl
          refine ⟨1, hlist.trans ?_⟩
          show _ = some (input[j]?.elim [] fun x => [(f x, j + 1)])
          rw [hx]
          rfl
      | false =>
          refine ⟨Outcomes.along_empty, ?_⟩
          rintro l rfl
          exact ⟨1, hlist⟩

/-- **A START** at position `j` gives a sequence that stands for the parser there. -/
theorem start_leads (hinput : source.Delivers input) (hG : G.Plain) (n : Nat) :
    ∀ {α : Type} {p : Parser σ ε ρ α} {m j : Nat} {st : Store σ ε}, p.Plain → j < m →
      Feeds source i m st →
      Run.Leads source i (Outcomes.StandsFor G input source i p j) m
        (p.start G n (source.cursorAt i j) st) := by
  induction n with
  | zero => intro α p m j st _ _ _; exact .unfinished
  | succ n ih =>
      intro α p m j st hp hj hst
      have hc : source.Places i m (source.cursorAt i j) := ⟨j, hj, rfl⟩
      cases p with
      | unit a =>
          refine .pure hst ⟨List.forall_mem_singleton.mpr hc, ?_⟩
          rintro l rfl
          exact ⟨1, rfl⟩
      | fail =>
          refine .pure hst ⟨Outcomes.along_empty, ?_⟩
          rintro l rfl
          exact ⟨1, rfl⟩
      | anySymbol f =>
          refine .pure hst ⟨hc, ?_⟩
          rintro l rfl
          exact ⟨1, rfl⟩
      | testSymbol test f => exact start_leads_testSymbol hinput test f n hj hst
      | finish a =>
          rw [start, Cursor.isExhausted, show (source.cursorAt i j).current = input[j]? from
            (hst.mono hj).answer_eq hinput]
          refine .pure hst ?_
          cases hx : input[j]? with
          | none =>
              refine ⟨List.forall_mem_singleton.mpr hc, ?_⟩
              rintro l rfl
              exact ⟨1, by rw [enumerate, hx]; rfl⟩
          | some x =>
              refine ⟨Outcomes.along_empty, ?_⟩
              rintro l rfl
              exact ⟨1, by rw [enumerate, hx]; rfl⟩
      | map f p =>
          refine (ih (p := p) hp hj hst).bind fun m' hm s st hst hs =>
            .pure hst ⟨⟨hs.along, ?_⟩, ?_⟩
          · intro o o' ho
            obtain ⟨b, -, rfl⟩ := Call.result_map_eq_ok.mp ho
            exact Or.inl rfl
          · rintro l ⟨l₀, hl₀, hl⟩
            refine (hs.enumerates l₀ hl₀).concat hl (fun n => rfl) (fun _ _ _ _ _ h => h) ?_
            rintro x found ⟨o, ho, rfl⟩
            obtain ⟨b, hb, rfl⟩ := Call.result_map_eq_ok.mp ho
            exact ⟨0, by dsimp only at hb ⊢; rw [hb]; rfl⟩
      | filter test p =>
          refine (ih (p := p) hp hj hst).bind fun m' hm s st hst hs => .pure hst ⟨hs.along, ?_⟩
          rintro l ⟨l₀, hl₀, hl⟩
          refine (hs.enumerates l₀ hl₀).concat hl (fun n => rfl) (fun _ _ _ _ _ h => h) ?_
          rintro x found ⟨ok, hok, rfl⟩
          exact ⟨0, by dsimp only at hok ⊢; rw [hok]; rfl⟩
      | bind p next =>
          refine .pure hst ⟨⟨hp.2, Outcomes.along_deferred hp.1 hc, Outcomes.along_empty⟩, ?_⟩
          rintro l ⟨l₀, _, l₂, rfl, hl₀, hl₂, rfl⟩
          exact hl₀.of_deferred.concat hl₂ (fun n => rfl) (fun _ _ _ _ hd h => enumerate_mono hd h)
            fun _ _ h => h
      | seq f p q =>
          refine .pure hst ⟨⟨hp.2, Outcomes.along_deferred hp.1 hc, Outcomes.along_empty⟩, ?_⟩
          rintro l ⟨l₀, hl₀, hl⟩
          refine hl₀.of_deferred.concat hl (fun n => rfl) (fun d d' x l hd h => ?_) ?_
          · obtain ⟨second, hsecond, rfl⟩ := Option.map_eq_some_iff.mp h
            exact Option.map_eq_some_iff.mpr ⟨second, enumerate_mono hd hsecond, rfl⟩
          · rintro x found ⟨second, ⟨d, hsecond⟩, rfl⟩
            exact ⟨d, Option.map_eq_some_iff.mpr ⟨second, hsecond, rfl⟩⟩
      | or p q =>
          refine .pure hst ⟨⟨Outcomes.along_empty, List.forall_mem_cons.mpr
            ⟨⟨hp.1, hc⟩, List.forall_mem_singleton.mpr ⟨hp.2, hc⟩⟩⟩, ?_⟩
          rintro l ⟨_, _, rfl, hwaiting, rfl⟩
          cases hwaiting with
          | cons hfirst hwaiting =>
              cases hwaiting with
              | cons hsecond hnone =>
                  obtain ⟨d, hfirst⟩ := hfirst
                  obtain ⟨d', hsecond⟩ := hsecond
                  rw [hnone.nil_left, List.append_nil]
                  refine ⟨max d d' + 1, Option.bind_eq_some_iff.mpr
                    ⟨_, enumerate_mono (Nat.le_max_left d d') hfirst, ?_⟩⟩
                  exact Option.map_eq_some_iff.mpr
                    ⟨_, enumerate_mono (Nat.le_max_right d d') hsecond, rfl⟩
      | repetition least f p =>
          refine .pure hst ⟨⟨hp, trivial, fun c hc' => ?_⟩, ?_⟩
          · obtain rfl := Option.some.inj hc'
            exact ⟨hc, rfl⟩
          · rintro l ⟨rows, ⟨d, hrows⟩, rfl⟩
            exact ⟨d + 1, Option.map_eq_some_iff.mpr ⟨rows, hrows, rfl⟩⟩
      | spanning f p =>
          refine (ih (p := p) hp hj hst).bind fun m' hm s st hst hs =>
            .pure hst ⟨⟨hs.along, ?_⟩, ?_⟩
          · rintro o _ ⟨⟩
            exact Or.inl rfl
          · rintro l ⟨l₀, hl₀, hl⟩
            obtain ⟨d, hd⟩ := hs.enumerates l₀ hl₀
            refine ⟨d + 1, Option.map_eq_some_iff.mpr ⟨l₀, hd, (hl.eq_map ?_).symm⟩⟩
            rintro x found ⟨o, ⟨⟩, rfl⟩
            rfl
      | rule r =>
          refine (ih (hG _ r) hj hst).imp fun m' hm s hs => ⟨hs.along, fun l hl => ?_⟩
          obtain ⟨d, hd⟩ := hs.enumerates l hl
          exact ⟨d + 1, hd⟩
      | remark notes p =>
          refine (ih (p := p) hp hj ((hst.remark _).mono hst.reads)).imp
            fun m' hm s hs => ⟨hs.along, fun l hl => ?_⟩
          obtain ⟨d, hd⟩ := hs.enumerates l hl
          exact ⟨d + 1, hd⟩
      | abort x => exact .fault x st
      | lookahead p =>
          refine (ih (p := p) hp hj hst).bind fun m' hm s st hst hs =>
            .pure hst ⟨⟨hs.along, ?_⟩, ?_⟩
          · rintro o _ ⟨⟩
            exact Or.inr (hc.mono hm)
          · rintro l ⟨l₀, hl₀, hl⟩
            obtain ⟨d, hd⟩ := hs.enumerates l₀ hl₀
            refine ⟨d + 1, Option.map_eq_some_iff.mpr ⟨l₀, hd, (hl.eq_map ?_).symm⟩⟩
            rintro x found ⟨o, ⟨⟩, rfl⟩
            rfl
      | custom start => exact hp.elim

end Parser

/-! ## Pulling -/

/-- A pull of a sequence that means no less accounts for the same. -/
theorem Pull.Accounts.imp {s t : Outcomes σ ε ρ α} {m : Nat} {pulled : Pull σ ε ρ α}
    (h : pulled.Accounts G input source i t m)
    (hst : ∀ l, t.Means G input source i l → s.Means G input source i l) :
    pulled.Accounts G input source i s m := by
  cases h with
  | none ht => exact .none (hst [] ht)
  | some hj hrest ht => exact .some hj hrest fun l hl => hst _ (ht l hl)

namespace Frames.Means

variable {least : Nat} {p : Parser σ ε ρ α} {s rest t : Outcomes σ ε ρ α} {c d : Cursor σ}
  {value : Option α} {below : Frames σ ε ρ α} {a : α} {rows : List (List α × Nat)}

/-- An occurrence that stays at its place makes a row of its own. -/
theorem stays {j : Nat}
    (hsome : ∀ l, rest.Means G input source i l → s.Means G input source i ((a, j) :: l))
    (hj : j = c.position) (h : (Frames.push rest c value below).Means G input source i least
      (p.Extends G input least) rows) :
    (Frames.push s c value below).Means G input source i least (p.Extends G input least)
      ((below.values value.toList ++ [a], j) :: rows) := by
  obtain ⟨l, longer, others, hl, hlonger, hothers, rfl⟩ := h
  exact ⟨_, _, others, hsome l hl, .cons (Parser.extends_of_eq hj) hlonger, hothers, rfl⟩

/-- An occurrence that moves puts one more frame on top, which has the rows that go on from it. -/
theorem moves
    (hsome : ∀ l, rest.Means G input source i l →
      s.Means G input source i ((a, d.position) :: l))
    (ht : ∀ l, t.Means G input source i l → p.Enumerates G input d.position l)
    (hd : d.position ≠ c.position)
    (h : (Frames.push t d (some a) (.push rest c value below)).Means G input source i least
      (p.Extends G input least) rows) :
    (Frames.push s c value below).Means G input source i least (p.Extends G input least)
      rows := by
  obtain ⟨l, longer, _, hl, hlonger, ⟨l₀, longer₀, others, hl₀, hlonger₀, hothers, rfl⟩, rfl⟩ := h
  rw [Option.toList_some, Frames.values_eq_append, Frames.values_push] at hlonger ⊢
  have hrows := ((ht l hl).rows hlonger).extends (x := (a, d.position)) hd
  refine ⟨_, _, others, hsome l₀ hl₀, .cons hrows hlonger₀, hothers, ?_⟩
  simp only [List.append_assoc]

/-- With no occurrence left, the row of the frame itself comes before those below. -/
theorem push (c : Cursor σ) (value : Option α) (hs : s.Means G input source i [])
    (h : below.Means G input source i least (p.Extends G input least) rows) :
    (Frames.push s c value below).Means G input source i least (p.Extends G input least)
      ((if least ≤ (below.values value.toList).length then
        [(below.values value.toList, c.position)] else []) ++ rows) :=
  ⟨[], [], rows, hs, .nil, h, rfl⟩

end Frames.Means

namespace Outcomes

variable (G input source i) in
/-- Under the allowance `n`, a pull accounts for what the sequence means. -/
def PullsAccount (n : Nat) : Prop :=
  ∀ {α : Type} {s : Outcomes σ ε ρ α} {m : Nat} {st : Store σ ε}, s.Along source i m →
    Feeds source i m st →
    Run.Leads source i (Pull.Accounts G input source i s) m (s.pull G n st)

section

variable {n m : Nat} {st : Store σ ε}

theorem pull_leads_ready {os : List (Outcome σ α)} (hos : ∀ o ∈ os, source.Places i m o.cursor)
    (hst : Feeds source i m st) :
    Run.Leads source i (Pull.Accounts G input source i (ready os)) m
      ((ready os : Outcomes σ ε ρ α).pull G (n + 1) st) := by
  cases os with
  | nil => exact .pure hst (.none rfl)
  | cons o os =>
      obtain ⟨⟨j, hj, hcursor⟩, hrest⟩ := List.forall_mem_cons.mp hos
      obtain ⟨a, c⟩ := o
      obtain rfl : c = source.cursorAt i j := hcursor
      refine .pure hst (.some hj hrest ?_)
      rintro l rfl
      rfl

theorem pull_leads_consuming (hinput : source.Delivers input) (f : σ → α) {c : Cursor σ}
    (hc : source.Places i m c) (hst : Feeds source i m st) :
    Run.Leads source i (Pull.Accounts G input source i (consuming f c)) m
      ((consuming f c : Outcomes σ ε ρ α).pull G (n + 1) st) := by
  obtain ⟨j, hj, rfl⟩ := hc
  have hcurrent : (source.cursorAt i j).current = input[j]? := (hst.mono hj).answer_eq hinput
  have hreads := hst.reads
  obtain ⟨hfound, hspends⟩ := hst.intact.advance_spec hst.source (j := j) (by omega)
  have hst' := hst.spends hspends
  rw [pull, hcurrent]
  rw [Source.next?, show source.answer j = input[j]? from hcurrent] at hfound
  cases hx : input[j]? with
  | none =>
      refine .pure hst (.none ?_)
      show [] = input[j]?.elim [] _
      rw [hx]
      rfl
  | some x =>
      have hdemand : source.demand i j i = j + 2 :=
        if_pos ⟨rfl, by rw [show source.answer j = input[j]? from hcurrent, hx]; rfl⟩
      rw [hx] at hfound
      dsimp only
      rw [hfound]
      refine .done (Nat.le_max_left m (j + 2)) (hst'.mono (by omega))
        (.some (j := j + 1) (by omega) along_empty ?_)
      rintro l rfl
      show _ = input[j]?.elim [] _
      rw [hx]
      rfl

variable (ih : PullsAccount G input source i n) (hst : Feeds source i m st)
include ih hst

theorem pull_leads_mapped {f : Outcome σ α → Call ε (Outcome σ β)} {s : Outcomes σ ε ρ α}
    (hs : (mapped f s).Along source i m) :
    Run.Leads source i (Pull.Accounts G input source i (mapped f s)) m
      ((mapped f s).pull G (n + 1) st) := by
  simp only [pull]
  refine (ih hs.1 hst).bind fun m' hm pulled st hst hpulled => ?_
  cases hpulled with
  | none hnone => exact .pure hst (.none ⟨[], hnone, .nil⟩)
  | @some a j rest hj hrest hsome =>
      refine (Call.run_leads hst (f ⟨a, source.cursorAt i j⟩)).bind
        fun m'' hm' o st hst ho => .pure hst ?_
      obtain ⟨k, hk, hcursor⟩ : source.Places i m'' o.cursor := by
        rcases hs.2 _ _ ho with hcursor | hplace
        · exact ⟨j, Nat.lt_of_lt_of_le hj hm', hcursor⟩
        · exact hplace.mono (Nat.le_trans hm hm')
      obtain ⟨b, c⟩ := o
      obtain rfl : c = source.cursorAt i k := hcursor
      refine .some hk ⟨hrest.mono hm', fun o o' ho' => ?_⟩ ?_
      · exact (hs.2 o o' ho').imp_right (·.mono (Nat.le_trans hm hm'))
      · rintro l ⟨l₀, hl₀, hl⟩
        exact ⟨_, hsome l₀ hl₀, .cons (a := (a, j)) ⟨_, ho, rfl⟩ hl⟩

theorem pull_leads_filtered {test : Outcome σ α → Call ε Bool} {s : Outcomes σ ε ρ α}
    (hs : (filtered test s).Along source i m) :
    Run.Leads source i (Pull.Accounts G input source i (filtered test s)) m
      ((filtered test s).pull G (n + 1) st) := by
  simp only [pull]
  refine (ih (s := s) hs hst).bind fun m' hm pulled st hst hpulled => ?_
  cases hpulled with
  | none hnone => exact .pure hst (.none ⟨[], hnone, .nil⟩)
  | @some a j rest hj hrest hsome =>
      refine (Call.run_leads hst (test ⟨a, source.cursorAt i j⟩)).bind
        fun m'' hm' ok st hst hok => ?_
      -- what is kept of the outcome comes in front of what is kept of the rest
      have hkept : ∀ l, (filtered test rest).Means G input source i l →
          (filtered test s).Means G input source i ((if ok then [(a, j)] else []) ++ l) := by
        rintro l ⟨l₀, hl₀, hl⟩
        exact ⟨_, hsome l₀ hl₀, .cons ⟨ok, hok, rfl⟩ hl⟩
      have hrest' : (filtered test rest).Along source i m'' := hrest.mono hm'
      cases ok with
      | true => exact .pure hst (.some (Nat.lt_of_lt_of_le hj hm') hrest' hkept)
      | false => exact (ih hrest' hst).imp fun m₃ _ pulled h => h.imp hkept

variable (hinput : source.Delivers input) (hG : G.Plain)
include hinput hG

theorem pull_leads_chained {s : Outcomes σ ε ρ α} {waiting : List (Parser σ ε ρ α × Cursor σ)}
    (hs : (chained s waiting).Along source i m) :
    Run.Leads source i (Pull.Accounts G input source i (chained s waiting)) m
      ((chained s waiting).pull G (n + 1) st) := by
  obtain ⟨hs, hwaiting⟩ := hs
  simp only [pull]
  refine (ih hs hst).bind fun m' hm pulled st hst hpulled => ?_
  cases hpulled with
  | some hj hrest hsome =>
      refine .pure hst (.some hj ⟨hrest, fun w hw => ?_⟩ ?_)
      · exact ⟨(hwaiting w hw).1, (hwaiting w hw).2.mono hm⟩
      · rintro l ⟨l₁, l₂, hl₁, hl₂, rfl⟩
        exact ⟨_, l₂, hsome l₁ hl₁, hl₂, rfl⟩
  | none hnone =>
      cases waiting with
      | nil => exact .pure hst (.none ⟨[], [], hnone, .nil, rfl⟩)
      | cons first waiting =>
          obtain ⟨p, c⟩ := first
          obtain ⟨⟨hp, j, hj, rfl⟩, hothers⟩ := List.forall_mem_cons.mp hwaiting
          refine (Parser.start_leads hinput hG n hp (Nat.lt_of_lt_of_le hj hm) hst).bind
            fun m'' hm' t st hst ht => ?_
          have hrest : (chained t waiting).Along source i m'' := ⟨ht.along, fun w hw =>
            ⟨(hothers w hw).1, (hothers w hw).2.mono (Nat.le_trans hm hm')⟩⟩
          refine (ih hrest hst).imp fun m₃ _ pulled h => h.imp ?_
          rintro l ⟨l₁, l₂, hl₁, hl₂, rfl⟩
          exact ⟨[], _, hnone, .cons (ht.enumerates l₁ hl₁) hl₂, rfl⟩

theorem pull_leads_bound {next : α → Parser σ ε ρ β} {outer : Outcomes σ ε ρ α}
    {inner : Outcomes σ ε ρ β} (hs : (bound next outer inner).Along source i m) :
    Run.Leads source i (Pull.Accounts G input source i (bound next outer inner)) m
      ((bound next outer inner).pull G (n + 1) st) := by
  obtain ⟨hnext, houter, hinner⟩ := hs
  simp only [pull]
  refine (ih hinner hst).bind fun m' hm pulled st hst hpulled => ?_
  cases hpulled with
  | some hj hrest hsome =>
      refine .pure hst (.some hj ⟨hnext, houter.mono hm, hrest⟩ ?_)
      rintro l ⟨l₀, l₁, l₂, hl₁, hl₀, hl₂, rfl⟩
      exact ⟨l₀, _, l₂, hsome l₁ hl₁, hl₀, hl₂, rfl⟩
  | none hnone =>
      refine (ih (houter.mono hm) hst).bind fun m'' hm' pulled st hst hpulled => ?_
      cases hpulled with
      | none hnone' => exact .pure hst (.none ⟨[], [], [], hnone, hnone', .nil, rfl⟩)
      | @some a j rest hj hrest hsome =>
          refine (Parser.start_leads hinput hG n (hnext a) hj hst).bind
            fun m₃ hm₃ t st hst ht => ?_
          have hrest' : (bound next rest t).Along source i m₃ :=
            ⟨hnext, hrest.mono hm₃, ht.along⟩
          refine (ih hrest' hst).imp fun m₄ _ pulled h => h.imp ?_
          rintro l ⟨l₀, l₁, l₂, hl₁, hl₀, hl₂, rfl⟩
          exact ⟨_, [], _, hnone, hsome l₀ hl₀, .cons (ht.enumerates l₁ hl₁) hl₂, rfl⟩

theorem pull_leads_paired {f : α → β → γ} {q : Parser σ ε ρ β} {outer : Outcomes σ ε ρ α}
    {held : Option α} {inner : Outcomes σ ε ρ β}
    (hs : (paired f q outer held inner).Along source i m) :
    Run.Leads source i (Pull.Accounts G input source i (paired f q outer held inner)) m
      ((paired f q outer held inner).pull G (n + 1) st) := by
  obtain ⟨hq, houter, hinner⟩ := hs
  cases held with
  | none =>
      simp only [pull]
      refine (ih houter hst).bind fun m' hm pulled st hst hpulled => ?_
      cases hpulled with
      | none hnone => exact .pure hst (.none ⟨[], hnone, .nil⟩)
      | @some a j rest hj hrest hsome =>
          refine (Parser.start_leads hinput hG n hq hj hst).bind fun m'' hm' t st hst ht => ?_
          have hrest' : (paired f q rest (some a) t).Along source i m'' :=
            ⟨hq, hrest.mono hm', ht.along⟩
          refine (ih hrest' hst).imp fun m₃ _ pulled h => h.imp ?_
          rintro l ⟨l₀, l₁, l₂, hl₁, hl₀, hl₂, rfl⟩
          exact ⟨_, hsome l₀ hl₀, .cons ⟨l₁, ht.enumerates l₁ hl₁, rfl⟩ hl₂⟩
  | some a =>
      simp only [pull]
      refine (ih hinner hst).bind fun m' hm pulled st hst hpulled => ?_
      cases hpulled with
      | some hj hrest hsome =>
          refine .pure hst (.some hj ⟨hq, houter.mono hm, hrest⟩ ?_)
          rintro l ⟨l₀, l₁, l₂, hl₁, hl₀, hl₂, rfl⟩
          exact ⟨l₀, _, l₂, hsome l₁ hl₁, hl₀, hl₂, rfl⟩
      | none hnone =>
          have hrest : (paired f q outer none (empty : Outcomes σ ε ρ β)).Along source i m' :=
            ⟨hq, houter.mono hm, along_empty⟩
          refine (ih hrest hst).imp fun m₃ _ pulled h => h.imp ?_
          rintro l ⟨l₀, hl₀, hl⟩
          exact ⟨l₀, [], l, hnone, hl₀, hl, rfl⟩

/-- The topmost frame: one more occurrence ends its row or goes further, and when there is none left
    the row of the frame itself comes, and then those below. -/
theorem pull_leads_push {least : Nat} {f : List α → β} {p : Parser σ ε ρ α}
    {s : Outcomes σ ε ρ α} {c : Cursor σ} {value : Option α} {below : Frames σ ε ρ α}
    (hs : (repeating least f p none (.push s c value below)).Along source i m) :
    Run.Leads source i
      (Pull.Accounts G input source i (repeating least f p none (.push s c value below))) m
      ((repeating least f p none (.push s c value below)).pull G (n + 1) st) := by
  obtain ⟨hp, ⟨hs, ⟨k, hk, rfl⟩, hbelow⟩, -⟩ := hs
  rw [pull]
  refine (ih hs hst).bind fun m' hm pulled st hst hpulled => ?_
  have hvalues : ∀ t tail, (Frames.push t (source.cursorAt i k) value below).values tail =
      below.values value.toList ++ tail := by
    intro t tail
    rw [Frames.values_eq_append, Frames.values_push]
  cases hpulled with
  | @some a j rest hj hrest hsome =>
      have hframes : (Frames.push rest (source.cursorAt i k) value below).Along source i m' :=
        ⟨hrest, ⟨k, Nat.lt_of_lt_of_le hk hm, rfl⟩, hbelow.mono hm⟩
      dsimp only
      by_cases hstays : (source.cursorAt i j).position = (source.cursorAt i k).position
      · rw [if_pos hstays, hvalues]
        refine .pure hst (.some hj ⟨hp, hframes, forall_mem_none⟩ ?_)
        rintro l ⟨rows, hrows, rfl⟩
        exact ⟨_, hrows.stays hsome hstays, rfl⟩
      · rw [if_neg hstays]
        refine (Parser.start_leads hinput hG n hp hj hst).bind fun m'' hm' t st hst ht => ?_
        have hrest' : (repeating least f p none (.push t (source.cursorAt i j) (some a)
            (.push rest (source.cursorAt i k) value below))).Along source i m'' :=
          ⟨hp, ⟨ht.along, ⟨j, Nat.lt_of_lt_of_le hj hm', rfl⟩, hframes.mono hm'⟩, forall_mem_none⟩
        refine (ih hrest' hst).imp fun m₃ _ pulled h => h.imp ?_
        rintro l ⟨rows, hrows, rfl⟩
        exact ⟨rows, hrows.moves hsome ht.enumerates hstays, rfl⟩
  | none hnone =>
      have hbelow' : (repeating least f p none below).Along source i m' :=
        ⟨hp, hbelow.mono hm, forall_mem_none⟩
      dsimp only
      rw [hvalues, List.append_nil]
      by_cases hleast : least ≤ (below.values value.toList).length
      · rw [if_pos hleast]
        refine .pure hst (.some (Nat.lt_of_lt_of_le hk hm) hbelow' ?_)
        rintro l ⟨rows, hrows, rfl⟩
        have hpush := hrows.push (source.cursorAt i k) value hnone
        rw [if_pos hleast] at hpush
        exact ⟨_, hpush, rfl⟩
      · rw [if_neg hleast]
        refine (ih hbelow' hst).imp fun m₃ _ pulled h => h.imp ?_
        rintro l ⟨rows, hrows, rfl⟩
        have hpush := hrows.push (source.cursorAt i k) value hnone
        rw [if_neg hleast] at hpush
        exact ⟨_, hpush, rfl⟩

end

/-- **A PULL** accounts for what the sequence means, under every allowance. -/
theorem pull_leads (hinput : source.Delivers input) (hG : G.Plain) (n : Nat) :
    PullsAccount G input source i n := by
  induction n with
  | zero =>
      intro α s m st _ _
      exact .unfinished
  | succ n ih =>
      intro α s m st hs hst
      cases s with
      | ready os => exact pull_leads_ready hs hst
      | consuming f c => exact pull_leads_consuming hinput f hs hst
      | scripted script k => exact hs.elim
      | mapped f s => exact pull_leads_mapped ih hst hs
      | filtered test s => exact pull_leads_filtered ih hst hs
      | chained s waiting => exact pull_leads_chained ih hst hinput hG hs
      | bound next outer inner => exact pull_leads_bound ih hst hinput hG hs
      | paired f q outer held inner => exact pull_leads_paired ih hst hinput hG hs
      | repeating least f p root frames =>
          cases root with
          | some c =>
              obtain ⟨hp, -, hroot⟩ := hs
              obtain ⟨⟨j, hj, rfl⟩, rfl⟩ := hroot c rfl
              simp only [pull]
              refine (Parser.start_leads hinput hG n hp hj hst).bind fun m' hm t st hst ht => ?_
              have hframes : (repeating least f p none
                  (.push t (source.cursorAt i j) none .bottom)).Along source i m' :=
                ⟨hp, ⟨ht.along, ⟨j, Nat.lt_of_lt_of_le hj hm, rfl⟩, trivial⟩, forall_mem_none⟩
              refine (ih hframes hst).imp fun m'' _ pulled h => h.imp ?_
              rintro l ⟨_, ⟨l₀, longer, _, hl₀, hlonger, rfl, rfl⟩, rfl⟩
              refine ⟨_, (ht.enumerates l₀ hl₀).rows hlonger, ?_⟩
              rw [List.append_nil]
              rfl
          | none =>
              cases frames with
              | bottom => exact .pure hst (.none ⟨[], rfl, rfl⟩)
              | push s c value below => exact pull_leads_push ih hst hinput hG hs

/-- When all pulls have been made, what they have found is what was meant. -/
theorem means_of_answers (hinput : source.Delivers input) (hG : G.Plain)
    {l : List (Outcome σ α)} : ∀ {s : Outcomes σ ε ρ α} {m : Nat} {st st' : Store σ ε},
    s.Along source i m → Feeds source i m st →
    s.answers G (l.length + 1) st = .done (l.map some ++ [none]) st' →
    s.Means G input source i (l.map fun o => (o.value, o.cursor.position)) := by
  induction l with
  | nil =>
      intro s m st st' hs hst h
      obtain ⟨pulled, st₁, hpulled, h⟩ := Run.bind_eq_done_iff.mp h
      obtain ⟨n, hpull⟩ := (pulled_eq_done_iff G st).mp hpulled
      have hleads := pull_leads hinput hG n hs hst
      rw [hpull] at hleads
      cases hleads with
      | done _ _ haccounts =>
          cases haccounts with
          | none hnone => exact hnone
          | some => exact nomatch h
  | cons o l ih =>
      intro s m st st' hs hst h
      obtain ⟨pulled, st₁, hpulled, h⟩ := Run.bind_eq_done_iff.mp h
      obtain ⟨answers, st₂, hanswers, h⟩ := Run.bind_eq_done_iff.mp h
      obtain ⟨n, hpull⟩ := (pulled_eq_done_iff G st).mp hpulled
      have hleads := pull_leads hinput hG n hs hst
      rw [hpull] at hleads
      cases hleads with
      | done _ hst₁ haccounts =>
          cases haccounts with
          | none => exact nomatch h
          | some hj hrest hsome =>
              cases h
              exact hsome _ (ih hrest hst₁ hanswers)

end Outcomes

/-- **COMPLETENESS.** A parser that is started and then pulled until it answers nothing has a list
    of successes, and the list is what it has answered. -/
theorem Parser.enumerates_of_answers (hinput : source.Delivers input) (hG : G.Plain)
    {p : Parser σ ε ρ α} (hp : p.Plain) {j : Nat} {l : List (Outcome σ α)} {st st' : Store σ ε}
    (hst : Feeds source i (j + 1) st)
    (h : p.answers G (source.cursorAt i j) (l.length + 1) st = .done (l.map some ++ [none]) st') :
    p.Enumerates G input j (l.map fun o => (o.value, o.cursor.position)) := by
  obtain ⟨s, st₁, hstarted, hanswers⟩ := Run.bind_eq_done_iff.mp h
  obtain ⟨n, hstart⟩ := (started_eq_done_iff G _ st).mp hstarted
  have hleads := start_leads hinput hG n hp (Nat.lt_succ_self j) hst
  rw [hstart] at hleads
  cases hleads with
  | done _ hst₁ hs => exact hs.enumerates _ (Outcomes.means_of_answers hinput hG hs.along hst₁ hanswers)

/-- Conversely, a parser that has a list of successes answers with it and then with nothing. -/
theorem Parser.Enumerates.answers (hinput : source.Delivers input) {p : Parser σ ε ρ α} {j : Nat}
    {l : List (α × Nat)} (h : p.Enumerates G input j l) {st : Store σ ε}
    (hst : Feeds source i (j + 1) st) :
    ∃ st', p.answers G (source.cursorAt i j) (l.length + 1) st =
      .done (l.map (fun x => some ⟨x.1, source.cursorAt i x.2⟩) ++ [none]) st' := by
  obtain ⟨d, h⟩ := h
  obtain ⟨s, st₁, hstarted, hst₁, hs⟩ := p.lists_of_enumerate hinput d j l h st hst
  obtain ⟨st', hanswers, -⟩ := hs.answers hst₁.self
  exact ⟨st', Run.bind_eq_done_iff.mpr ⟨s, st₁, hstarted, hanswers⟩⟩

/-- Every place of an input can be got to. -/
theorem exists_feeds (input : List σ) : ∀ j ≤ input.length,
    ∃ st : Store σ ε, Feeds (.ofList input) 0 (j + 1) st
  | 0,     _  => ⟨_, World.feeds_facing input⟩
  | j + 1, hj => by
      obtain ⟨st, hst⟩ := exists_feeds input j (by omega)
      obtain ⟨-, hspends⟩ := hst.intact.advance_spec hst.source hst.reads
      have hsymbol : ((Source.ofList input).answer j).isSome = true := by
        rw [Source.answer_ofList, List.getElem?_eq_getElem hj]
        rfl
      have hdemand : (Source.ofList input).demand 0 j 0 = j + 2 := if_pos ⟨rfl, hsymbol⟩
      exact ⟨_, (hst.spends hspends).mono (by omega)⟩

/-- To have a list it is enough to deliver it on one source that is made of the input. -/
theorem Parser.Lists.enumerates {p : Parser σ ε ρ α} (hG : G.Plain) (hp : p.Plain) {j : Nat}
    (hj : j ≤ input.length) {l : List (α × Nat)} (h : p.Lists G (.ofList input) 0 j l) :
    p.Enumerates G input j l := by
  obtain ⟨st, hst⟩ : ∃ st : Store σ ε, Feeds (.ofList input) 0 (j + 1) st :=
    exists_feeds input j hj
  obtain ⟨s, st₁, hstarted, hst₁, hs⟩ := h st hst
  obtain ⟨st₂, hanswers, -⟩ := hs.answers hst₁.self
  let found : List (Outcome σ α) := l.map fun x => ⟨x.1, (Source.ofList input).cursorAt 0 x.2⟩
  have hrun : p.answers G ((Source.ofList input).cursorAt 0 j) (found.length + 1) st =
      .done (found.map some ++ [none]) st₂ := by
    rw [List.length_map, List.map_map]
    exact Run.bind_eq_done_iff.mpr ⟨s, st₁, hstarted, hanswers⟩
  have hlist := enumerates_of_answers (Source.delivers_ofList input) hG hp hst hrun
  rw [List.map_map] at hlist
  exact List.map_id l ▸ hlist

end

end Backtrack
